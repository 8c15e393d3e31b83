import ParserAlgebra.Evaluation.Bound
import ParserAlgebra.Proofs.Lockstep

/-!
# What optimizing does not see

Delayed and memoized nodes and loops are left as they are by optimizing. With any other thunks and
functions in their places it ends in the same way, with the same nodes, the same calls and the same
cells, even if those thunks and functions would fail: it calls none of them.
-/

namespace ParserAlgebra

open Run (Lockstep)

/-- Thunks for delayed and memoized nodes, and functions for loops, by the identity of the node. -/
structure LateParts where
  thunk : Nat → Thunk
  next : Nat → Value → Except Fault Parser

mutual

/-- The parser with other thunks in its delayed and memoized nodes and other functions in its
loops. -/
def Parser.refit (late : LateParts) : Parser → Parser
  | .map id source fn => .map id (source.refit late) fn
  | .bind id source label next => .bind id (source.refit late) label next
  | .product id left right => .product id (left.refit late) (right.refit late)
  | .both id left right combine => .both id (left.refit late) (right.refit late) combine
  | .orElse id left right => .orElse id (left.refit late) (right.refit late)
  | .many id source identity combine => .many id (source.refit late) identity combine
  | .manyBetween id source minimum maximum identity combine =>
    .manyBetween id (source.refit late) minimum maximum identity combine
  | .collect id source minimum accumulator => .collect id (source.refit late) minimum accumulator
  | .delayed id _ => .delayed id (late.thunk id)
  | .memoized id _ => .memoized id (late.thunk id)
  | .loop id label _ seed => .loop id label (late.next id) seed
  | .bare id tag payload children => .bare id tag payload children
  | p => p

def Thunk.refit (late : LateParts) : Thunk → Thunk
  | .const p => .const (p.refit late)
  | .rule name => .rule name
  | .optimized cell source => .optimized cell (source.refit late)

end

def Rules.refit (late : LateParts) (rules : Rules) : Rules :=
  rules.map fun rule => (rule.1, rule.2.refit late)

def Memory.refit (late : LateParts) (m : Memory) : Memory :=
  { m with filled := m.filled.map fun entry => (entry.1, entry.2.refit late) }

section

variable (late : LateParts)

theorem lookup_refit {κ : Type} [BEq κ] (entries : List (κ × Parser)) (key : κ) :
    (entries.map fun entry => (entry.1, entry.2.refit late)).lookup key =
      (entries.lookup key).map (Parser.refit late) := by
  induction entries with
  | nil => rfl
  | cons entry entries ih =>
    rw [List.map_cons, List.lookup_cons, List.lookup_cons]
    cases key == entry.1 with
    | true => rfl
    | false => exact ih

theorem Rules.lookup_refit (rules : Rules) (name : String) :
    (rules.refit late).lookup name = (rules.lookup name).map (Parser.refit late) :=
  ParserAlgebra.lookup_refit late rules name

theorem Memory.parserIn?_refit (m : Memory) (cell : Cell) :
    (m.refit late).parserIn? cell = (m.parserIn? cell).map (Parser.refit late) :=
  ParserAlgebra.lookup_refit late m.filled cell

end

/-! ### Runs of both in lockstep -/

section

variable {late : LateParts}

/-- The run of the refitted parser ends with the refitted value, in a refitted memory. -/
abbrev Refits (late : LateParts) (x y : Run Parser) : Prop :=
  Lockstep (fun m m' => m' = m.refit late) (fun p q => q = p.refit late) x y

theorem Alike.eq_map {α β : Type} {f : α → β} {o : Except Halt α} {o' : Except Halt β}
    (h : Alike (fun a b => b = f a) o o') : o' = o.map f := by
  cases h with
  | ok h => rw [h]; rfl
  | halt => rfl

theorem Refits.exec_eq {x y : Run Parser} (h : Refits late x y) (m : Memory) :
    y.exec (m.refit late) =
      ((x.exec m).1.map (Parser.refit late), (x.exec m).2.refit late) := by
  obtain ⟨hm, hA⟩ := h m _ rfl
  exact Prod.ext hA.eq_map hm

theorem build_refits {α β : Type} {R : α → β → Prop} {b : Build α} {b' : Build β}
    (h : ∀ next, R (b next).1 (b' next).1 ∧ (b next).2 = (b' next).2) :
    Lockstep (fun m m' => m' = m.refit late) R (Run.build b) (Run.build b') := by
  rintro m _ rfl
  obtain ⟨hR, hnext⟩ := h m.nextId
  refine ⟨?_, .ok hR⟩
  change ({ m.refit late with nextId := (b' m.nextId).2 } : Memory) =
    Memory.refit late { m with nextId := (b m.nextId).2 }
  rw [← hnext]
  rfl

theorem once_refits {x y : Run Parser} (h : Refits late x y) (cell : Cell) :
    Refits late (Run.once cell x) (Run.once cell y) := by
  rintro m _ rfl
  have hcell := m.parserIn?_refit late cell
  cases hp : m.parserIn? cell with
  | some p =>
    rw [hp] at hcell
    rw [Run.exec_once_of_some x hp, Run.exec_once_of_some y hcell]
    exact ⟨rfl, .ok rfl⟩
  | none =>
    rw [hp] at hcell
    obtain ⟨hm, hA⟩ := h m _ rfl
    simp only [Run.once, Run.exec_bind, Run.exec_parserIn?, hp, hcell, Option.map_none]
    rcases hx : x.exec m with ⟨o, n⟩
    rcases hy : y.exec (m.refit late) with ⟨o', n'⟩
    rw [hx, hy] at hm hA
    cases hA with
    | halt h => exact ⟨hm, .halt h⟩
    | ok h =>
      cases h
      cases hm
      exact ⟨rfl, .ok rfl⟩

theorem leaves_refits {call call' : Thunk → Run Parser}
    (hcall : ∀ t, Refits late (call t) (call' (t.refit late))) (n : Nat) (p : Parser)
    (seen : List Nat) :
    Lockstep (fun m m' => m' = m.refit late) Eq (Chain.leaves call n p seen)
      (Chain.leaves call' n (p.refit late) seen) := by
  induction n generalizing p seen with
  | zero => exact .exhaust
  | succ n ih =>
    unfold Chain.leaves
    cases p <;> try exact .pure rfl
    case orElse id left right =>
      dsimp only [Parser.refit]
      split
      · exact .pure rfl
      · refine .bind (ih left _) fun front _ he => ?_
        subst he
        rcases front with ⟨_ | front, seen⟩
        · exact .pure rfl
        · refine .bind (hcall right) fun q _ hq => ?_
          subst hq
          refine .bind (ih q seen) fun back _ he => ?_
          subst he
          rcases back with ⟨_ | back, seen⟩ <;> exact .pure rfl
    case bare id tag payload children =>
      dsimp only [Parser.refit]
      split
      · exact .pure rfl
      · split
        · exact .raise _
        · exact .pure rfl

theorem charSet_refits (chars : List Parser) :
    Refits late (Chain.charSet chars) (Chain.charSet chars) :=
  .ofExcept_bind fun _ _ => .ofExcept_bind fun _ _ => build_refits fun _ => ⟨rfl, rfl⟩

theorem optimizeWith_refits {call call' : Thunk → Run Parser}
    (hcall : ∀ t, Refits late (call t) (call' (t.refit late))) (n : Nat) (p : Parser) :
    Refits late (optimizeWith call n p) (optimizeWith call' n (p.refit late)) := by
  fun_induction optimizeWith call n p
  case case1 id left right ih =>
    have hfound := leaves_refits hcall n (.orElse id left right) []
    rw [Parser.refit] at hfound ⊢
    rw [optimizeWith]
    refine .bind hfound fun found _ he => ?_
    subst he
    rcases found with ⟨_ | chars, seen⟩
    · refine .bind (build_refits (R := Eq) fun _ => ⟨rfl, rfl⟩) fun cell _ he => ?_
      subst he
      refine .bind ih fun left' _ hl => ?_
      subst hl
      exact build_refits fun _ => ⟨rfl, rfl⟩
    · exact charSet_refits chars
  case case4 ihl ihr | case5 ihl ihr =>
    rw [Parser.refit, optimizeWith]
    refine .bind ihl fun left' _ hl => .bind ihr fun right' _ hr => ?_
    subst hl hr
    exact build_refits fun _ => ⟨rfl, rfl⟩
  case case9 hpart =>
    rw [Parser.refit, optimizeWith, hpart]
    exact .raise _
  case case10 hpart =>
    rw [Parser.refit, optimizeWith, hpart]
    exact .pure rfl
  case case11 p _ _ _ _ _ _ _ _ _ =>
    cases p <;> first | exact .pure rfl | grind
  all_goals
    rename_i ih
    rw [Parser.refit, optimizeWith]
    refine .bind ih fun source' _ hs => ?_
    subst hs
    exact build_refits fun _ => ⟨rfl, rfl⟩

theorem call_refits (rules : Rules) (n : Nat) (t : Thunk) :
    Refits late (t.call rules n) ((t.refit late).call (rules.refit late) n) := by
  induction n generalizing t with
  | zero => exact .exhaust
  | succ n ih =>
    cases t with
    | const p => exact .pure rfl
    | rule name =>
      refine .bind (R := fun _ _ => True) ?_ fun _ _ _ => ?_
      · rintro m _ rfl
        exact ⟨rfl, .ok trivial⟩
      · rw [Rules.lookup_refit]
        cases rules.lookup name with
        | none => exact .raise _
        | some p => exact .pure rfl
    | optimized cell source =>
      refine once_refits (.bind (ih source) fun p _ hp => ?_) _
      subst hp
      exact optimizeWith_refits ih n p

/-- Optimizing ends alike, whatever thunks and functions are put in the places of those that are
known only during a parse. -/
theorem optimize_refit (late : LateParts) (rules : Rules) (n : Nat) (p : Parser) (m : Memory) :
    (optimize (rules.refit late) n (p.refit late)).exec (m.refit late) =
      (((optimize rules n p).exec m).1.map (Parser.refit late),
        ((optimize rules n p).exec m).2.refit late) :=
  Refits.exec_eq (optimizeWith_refits (call_refits rules n) n p) m

end

end ParserAlgebra
