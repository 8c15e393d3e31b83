import ParserAlgebra.Evaluation.Bare
import ParserAlgebra.Proofs.Reach.Acyclic

/-!
# Optimized forms

`Form rules w ok p q` says that `q` is an optimized form of `p`: chains of characters may have
become tests of membership, right sides may wait in cells, and everything else is as it was. The
world `w` knows which thunk the right side in each cell is made of, and `ok` tells which thunks may
be right sides of `q`. Every parser is a form of itself. A right side that waits in a cell may be
made of one that waits in a cell itself, as when a parser is optimized twice.
-/

namespace ParserAlgebra

open ParserAlgebra.Parser (Kinded)

/-- The characters of a chain, each with the identity of its node. -/
inductive Chain.Chars (rules : Rules) : Parser → List (Nat × Char) → Prop
  | char (id : Nat) (c : Char) : Chars rules (.char id c) [(id, c)]
  | orElse {id : Nat} {left q : Parser} {right : Thunk} {front back : List (Nat × Char)}
      (hl : Chars rules left front) (hq : right.target rules = .ok q) (hr : Chars rules q back) :
      Chars rules (.orElse id left right) (front ++ back)

theorem Chain.Chars.ne_nil {rules : Rules} {p : Parser} {cs : List (Nat × Char)}
    (h : Chars rules p cs) : cs ≠ [] := by
  induction h with
  | char id c => exact List.cons_ne_nil _ _
  | orElse _ _ _ ihl _ => exact List.append_ne_nil_of_left_ne_nil ihl _

def Chain.lastWords (cs : List (Nat × Char)) : String :=
  match cs.getLast? with
  | some c => Parser.describe c.2
  | none => ""

/-- A choice between two single characters. -/
def Chain.Pair (rules : Rules) (left : Parser) (right : Thunk) : Prop :=
  ∃ id c id' d, left = .char id c ∧ right.target rules = .ok (.char id' d)

/-- Collecting never calls a right side that lacks its rule: one whose left side is a chain. -/
def Parser.Collectable (rules : Rules) (p : Parser) : Prop :=
  ∀ id left right cs, Spans rules p (.orElse id left right) → Chain.Chars rules left cs →
    ∃ q, right.target rules = .ok q

theorem Parser.Defined.collectable {rules : Rules} {p : Parser} (h : p.Defined rules) :
    p.Collectable rules :=
  fun id left right _ hs _ => h id left right hs

/-- A parser below the root that can be optimized. -/
structure Optimizable (rules : Rules) (root p : Parser) : Prop where
  reaches : Reaches rules root p
  collectable : p.Collectable rules

theorem Optimizable.spreads {rules : Rules} {root p q : Parser} (h : Optimizable rules root p)
    (hs : Spreads rules p q) : Optimizable rules root q :=
  ⟨h.reaches.tail hs.leads, fun id left right cs hq => h.collectable id left right cs (.head hs hq)⟩

theorem Optimizable.child {rules : Rules} {root p q : Parser} (h : Optimizable rules root p)
    (hq : q ∈ p.children) : Optimizable rules root q :=
  h.spreads (.child hq)

/-- A parser below the root whose right sides are all there. -/
structure Ready (rules : Rules) (root p : Parser) : Prop where
  reaches : Reaches rules root p
  defined : p.Defined rules

theorem Ready.spreads {rules : Rules} {root p q : Parser} (h : Ready rules root p)
    (hs : Spreads rules p q) : Ready rules root q :=
  ⟨h.reaches.tail hs.leads, h.defined.of_spreads hs⟩

theorem Ready.child {rules : Rules} {root p q : Parser} (h : Ready rules root p)
    (hq : q ∈ p.children) : Ready rules root q :=
  h.spreads (.child hq)

theorem Ready.optimizable {rules : Rules} {root p : Parser} (h : Ready rules root p) :
    Optimizable rules root p :=
  ⟨h.reaches, h.defined.collectable⟩

/-- What is known of a thunk that was put off until its right side is asked for. -/
structure Thunk.Deferred (rules : Rules) (root : Parser) (t : Thunk) : Prop where
  plain : t.Plain
  target : ∀ {p : Parser}, t.target rules = .ok p → Optimizable rules root p

theorem Optimizable.deferred {rules : Rules} {root left : Parser} {id : Nat} {right : Thunk}
    (hroot : root.Made rules) (h : Optimizable rules root (.orElse id left right)) :
    right.Deferred rules root :=
  ⟨hroot.plain h.reaches rfl, fun hq => h.spreads (.right hq)⟩

/-- A right side that was put off when a parser was optimized for the first time. -/
def Thunk.Once : Thunk → Prop
  | .optimized _ source => source.Plain
  | _ => False

/-- Which right sides there are in what optimizing makes of what the first thunk stands for. -/
def Thunk.Gives (t right : Thunk) : Prop := t.Plain → right.Once

/-- What is known of the thunk that a cell is for: it was put off when a parser was optimized for
the first time, or stands in a cell itself and was put off when this form was optimized again. -/
inductive Thunk.Due (rules : Rules) (root : Parser) (source : Nat → Option Thunk) : Thunk → Prop
  | first {t : Thunk} (h : t.Deferred rules root) : Due rules root source t
  | again {cell : Nat} {t : Thunk} {p : Parser} (hs : source cell = some t)
      (h : t.Deferred rules root) (hp : t.target rules = .ok p) (hready : Ready rules root p)
      (hacyclic : p.Acyclic rules) : Due rules root source (.optimized cell t)

namespace Thunk.Due

variable {rules : Rules} {root : Parser} {source source' : Nat → Option Thunk} {t : Thunk}

theorem mono (h : t.Due rules root source)
    (hs : ∀ c u, source c = some u → source' c = some u) : t.Due rules root source' := by
  cases h with
  | first h => exact .first h
  | again hc h hp hready hacyclic => exact .again (hs _ _ hc) h hp hready hacyclic

theorem core_plain (h : t.Due rules root source) : t.core.Plain := by
  cases h with
  | first h =>
    rw [h.plain.core_eq]
    exact h.plain
  | again _ h =>
    rw [Thunk.core, h.plain.core_eq]
    exact h.plain

end Thunk.Due

/-- For each cell the thunk that the right side in it is made of, if one is. -/
structure World (rules : Rules) (root : Parser) where
  source : Nat → Option Thunk
  due : ∀ {c : Nat} {t : Thunk}, source c = some t → t.Due rules root source

namespace World

variable {rules : Rules} {root : Parser}

instance : Preorder (World rules root) where
  le w w' := ∀ c t, w.source c = some t → w'.source c = some t
  le_refl _ _ _ h := h
  le_trans _ _ _ h h' c t ht := h' c t (h c t ht)

def empty : World rules root where
  source _ := none
  due := nofun

theorem put_keeps {source : Nat → Option Thunk} {cell : Nat} (h : source cell = none) (t : Thunk)
    (c : Nat) (u : Thunk) (hc : source c = some u) :
    (if c = cell then some t else source c) = some u := by
  rw [if_neg ?_, hc]
  rintro rfl
  rw [h] at hc
  cases hc

def put (w : World rules root) (cell : Nat) (t : Thunk) (ht : t.Due rules root w.source)
    (h : w.source cell = none) : World rules root where
  source c := if c = cell then some t else w.source c
  due {c t'} hc := by
    split at hc
    · cases hc
      exact ht.mono (put_keeps h t)
    · exact (w.due hc).mono (put_keeps h t)

variable (w : World rules root) {cell : Nat} {t : Thunk} (ht : t.Due rules root w.source)
  (h : w.source cell = none)

theorem source_put : (w.put cell t ht h).source cell = some t := if_pos rfl

theorem source_put_of_ne {c : Nat} (hc : c ≠ cell) :
    (w.put cell t ht h).source c = w.source c :=
  if_neg hc

theorem le_put : w ≤ w.put cell t ht h := put_keeps h t

end World

inductive Form (rules : Rules) {root : Parser} (w : World rules root) (ok : Thunk → Prop) :
    Parser → Parser → Prop
  | atom {p : Parser} (hk : p.isBare = false) (hc : p.children = []) : Form rules w ok p p
  | map {id id' : Nat} {p q : Parser} {fn : Transform} (h : Form rules w ok p q) :
      Form rules w ok (.map id p fn) (.map id' q fn)
  | bind {id id' : Nat} {p q : Parser} {label : Label} {next : Value → Except Fault Parser}
      (h : Form rules w ok p q) : Form rules w ok (.bind id p label next) (.bind id' q label next)
  | product {id id' : Nat} {p q p' q' : Parser} (h : Form rules w ok p q)
      (h' : Form rules w ok p' q') : Form rules w ok (.product id p p') (.product id' q q')
  | both {id id' : Nat} {p q p' q' : Parser} {combine : Combiner} (h : Form rules w ok p q)
      (h' : Form rules w ok p' q') :
      Form rules w ok (.both id p p' combine) (.both id' q q' combine)
  | many {id id' : Nat} {p q : Parser} {identity : Value} {combine : Combiner}
      (h : Form rules w ok p q) :
      Form rules w ok (.many id p identity combine) (.many id' q identity combine)
  | manyBetween {id id' : Nat} {p q : Parser} {minimum maximum : Int} {identity : Value}
      {combine : Combiner} (h : Form rules w ok p q) :
      Form rules w ok (.manyBetween id p minimum maximum identity combine)
        (.manyBetween id' q minimum maximum identity combine)
  | collect {id id' : Nat} {p q : Parser} {minimum : Int} {accumulator : Accumulator}
      (h : Form rules w ok p q) :
      Form rules w ok (.collect id p minimum accumulator) (.collect id' q minimum accumulator)
  | choice {id id' : Nat} {p q : Parser} {t : Thunk} (h : Form rules w ok p q) (ht : ok t) :
      Form rules w ok (.orElse id p t) (.orElse id' q t)
  | lazy {id id' cell : Nat} {p q : Parser} {t u : Thunk} (h : Form rules w ok p q)
      (hw : w.source cell = some u) (hu : u.core = t) (hpair : ¬ Chain.Pair rules p t)
      (ht : ok (.optimized cell u)) :
      Form rules w ok (.orElse id p t) (.orElse id' q (.optimized cell u))
  | chain {id : Nat} {p : Parser} {cs : List (Nat × Char)} (h : Chain.Chars rules p cs) :
      Form rules w ok p
        (.charWhere id (.memberOf (cs.map Prod.snd)) (Chain.lastWords cs))

namespace Form

variable {rules : Rules} {root : Parser} {w w' : World rules root} {ok ok' : Thunk → Prop}
  {p q : Parser}

theorem refl : ∀ {p : Parser}, p.Kinded rules → Form rules w ⊤ p p
  | .map .., h => .map (refl (h.child (.head _)))
  | .bind .., h => .bind (refl (h.child (.head _)))
  | .product .., h => .product (refl (h.child (.head _))) (refl (h.child (.tail _ (.head _))))
  | .both .., h => .both (refl (h.child (.head _))) (refl (h.child (.tail _ (.head _))))
  | .orElse .., h => .choice (refl (h.child (.head _))) trivial
  | .many .., h => .many (refl (h.child (.head _)))
  | .manyBetween .., h => .manyBetween (refl (h.child (.head _)))
  | .collect .., h => .collect (refl (h.child (.head _)))
  | .bare .., h => nomatch h.isBare_eq
  | .literal .., _ | .char .., _ | .charWhere .., _ | .constant .., _ | .identity .., _
  | .fail .., _ | .delayed .., _ | .memoized .., _ | .loop .., _ => .atom rfl rfl

theorem mono (h : Form rules w ok p q) (hw : w ≤ w') (hok : ∀ t, ok t → ok' t) :
    Form rules w' ok' p q := by
  induction h with
  | atom hk hc => exact .atom hk hc
  | map _ ih => exact .map ih
  | bind _ ih => exact .bind ih
  | product _ _ ih ih' => exact .product ih ih'
  | both _ _ ih ih' => exact .both ih ih'
  | many _ ih => exact .many ih
  | manyBetween _ ih => exact .manyBetween ih
  | collect _ ih => exact .collect ih
  | choice _ ht ih => exact .choice ih (hok _ ht)
  | lazy _ hc hu hpair ht ih => exact .lazy ih (hw _ _ hc) hu hpair (hok _ ht)
  | chain hc => exact .chain hc

theorem grow (h : Form rules w ok p q) (hw : w ≤ w') : Form rules w' ok p q :=
  h.mono hw fun _ ht => ht

theorem any (h : Form rules w ok p q) : Form rules w ⊤ p q := h.mono le_rfl fun _ _ => trivial

theorem left_isBare (h : Form rules w ok p q) : p.isBare = false := by
  cases h with
  | atom hk hc => exact hk
  | chain hc => cases hc <;> rfl
  | _ => rfl

theorem right_isBare (h : Form rules w ok p q) : q.isBare = false := by
  cases h with
  | atom hk hc => exact hk
  | _ => rfl

end Form

theorem Parser.unknownTag?_eq_none {p : Parser} (h : p.isBare = false) : p.unknownTag? = none := by
  cases p <;> first | rfl | cases h

end ParserAlgebra
