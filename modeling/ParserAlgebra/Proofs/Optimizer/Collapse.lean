import ParserAlgebra.Proofs.Optimizer.Twice
import ParserAlgebra.Proofs.Optimizer.Unfolding

/-!
# Chains collapse

Optimizing puts one test of membership in the place of every chain that can be written out without
meeting a choice twice, wherever it is met, and leaves every other choice a choice. A right side
that is put off is treated in the same way when it is first asked for. A chain in which a choice is
shared is left alone though it never leads back to itself.
-/

namespace ParserAlgebra

open Run (Arrives Spares)

/-! ### Condensed parsers -/

/-- The parser `q` is `p` with a test of membership for each chain that meets no choice twice. Every
other choice has its right side put off to a cell, numbered `low` or higher and below `high`. -/
inductive Condensed (rules : Rules) (low high : Nat) : Parser → Parser → Prop
  | atom {p : Parser} (hk : p.isBare = false) (hc : p.children = []) : Condensed rules low high p p
  | map {id id' : Nat} {p q : Parser} {fn : Transform} (h : Condensed rules low high p q) :
      Condensed rules low high (.map id p fn) (.map id' q fn)
  | bind {id id' : Nat} {p q : Parser} {label : Label} {next : Value → Except Fault Parser}
      (h : Condensed rules low high p q) :
      Condensed rules low high (.bind id p label next) (.bind id' q label next)
  | product {id id' : Nat} {p q p' q' : Parser} (h : Condensed rules low high p q)
      (h' : Condensed rules low high p' q') :
      Condensed rules low high (.product id p p') (.product id' q q')
  | both {id id' : Nat} {p q p' q' : Parser} {combine : Combiner}
      (h : Condensed rules low high p q) (h' : Condensed rules low high p' q') :
      Condensed rules low high (.both id p p' combine) (.both id' q q' combine)
  | many {id id' : Nat} {p q : Parser} {identity : Value} {combine : Combiner}
      (h : Condensed rules low high p q) :
      Condensed rules low high (.many id p identity combine) (.many id' q identity combine)
  | manyBetween {id id' : Nat} {p q : Parser} {minimum maximum : Int} {identity : Value}
      {combine : Combiner} (h : Condensed rules low high p q) :
      Condensed rules low high (.manyBetween id p minimum maximum identity combine)
        (.manyBetween id' q minimum maximum identity combine)
  | collect {id id' : Nat} {p q : Parser} {minimum : Int} {accumulator : Accumulator}
      (h : Condensed rules low high p q) :
      Condensed rules low high (.collect id p minimum accumulator)
        (.collect id' q minimum accumulator)
  | chain {id id' : Nat} {left : Parser} {right : Thunk} {ids : List Nat} {cs : List (Nat × Char)}
      (h : Chain.Unfolds rules (.orElse id left right) ids cs) (hids : ids.Nodup) :
      Condensed rules low high (.orElse id left right)
        (.charWhere id' (.memberOf (cs.map Prod.snd)) (Chain.lastWords cs))
  | choice {id id' cell : Nat} {left left' : Parser} {right : Thunk}
      (hnot : ∀ ids cs, Chain.Unfolds rules (.orElse id left right) ids cs → ¬ ids.Nodup)
      (hcell : low ≤ cell ∧ cell < high) (h : Condensed rules low high left left') :
      Condensed rules low high (.orElse id left right) (.orElse id' left' (.optimized cell right))

theorem Condensed.mono {rules : Rules} {low high low' high' : Nat} {p q : Parser}
    (h : Condensed rules low high p q) (hlow : low' ≤ low) (hhigh : high ≤ high') :
    Condensed rules low' high' p q := by
  induction h with
  | atom hk hc => exact .atom hk hc
  | map _ ih => exact .map ih
  | bind _ ih => exact .bind ih
  | product _ _ ih ih' => exact .product ih ih'
  | both _ _ ih ih' => exact .both ih ih'
  | many _ ih => exact .many ih
  | manyBetween _ ih => exact .manyBetween ih
  | collect _ ih => exact .collect ih
  | chain hU hids => exact .chain hU hids
  | choice hnot hcell _ ih =>
    exact .choice hnot ⟨hlow.trans hcell.1, hcell.2.trans_le hhigh⟩ ih

/-- A test of membership in the characters that rejects in the words of the last of them. -/
def Chain.Collapsed (cs : List Char) (q : Parser) : Prop :=
  ∃ id predicate words front last, q = .charWhere id predicate words ∧
    (∀ c, predicate.test c = .ok (decide (c ∈ cs))) ∧ (∀ s, predicate.other s = .ok false) ∧
    cs = front ++ [last] ∧ words = Parser.describe last

theorem Chain.collapsed_memberOf {cs : List (Nat × Char)} (h : cs ≠ []) (id : Nat) :
    Collapsed (cs.map Prod.snd)
      (.charWhere id (.memberOf (cs.map Prod.snd)) (Chain.lastWords cs)) := by
  refine ⟨id, _, _, cs.dropLast.map Prod.snd, (cs.getLast h).2, rfl, fun c => ?_, fun _ => rfl,
    ?_, ?_⟩
  · exact congrArg Except.ok (List.contains_eq_mem c (cs.map Prod.snd))
  · conv_lhs => rw [← List.dropLast_append_getLast h]
    rw [List.map_append, List.map_singleton]
  · rw [Chain.lastWords, List.getLast?_eq_some_getLast h]

/-- A chain that meets no choice twice has no other condensed form than a test of membership. -/
theorem Condensed.collapsed {rules : Rules} {low high id : Nat} {left q : Parser} {right : Thunk}
    {ids : List Nat} {cs : List (Nat × Char)}
    (h : Condensed rules low high (.orElse id left right) q)
    (hU : Chain.Unfolds rules (.orElse id left right) ids cs) (hids : ids.Nodup) :
    Chain.Collapsed (cs.map Prod.snd) q := by
  cases h with
  | atom _ hc => cases hc
  | chain hU' =>
    obtain ⟨-, rfl⟩ := hU.unique hU'
    exact Chain.collapsed_memberOf hU.chars.ne_nil _
  | choice hnot => exact absurd hids (hnot _ _ hU)

/-! ### Optimizing condenses -/

/-- A node that is built on one condensed side. -/
theorem Run.Spares.rebuilt {rules : Rules} {low : Nat} {p p' : Parser} {x : Run Parser}
    {node : Parser → Build Parser} (hx : Spares low x fun high => Condensed rules low high p)
    (hnext : ∀ q next, next ≤ (node q next).2) (h : ∀ {high q next},
      Condensed rules low high p q → Condensed rules low high p' (node q next).1) :
    Spares low (x >>= fun q => Run.build (node q)) fun high => Condensed rules low high p' :=
  hx.bind fun _ q _ hq => .build (hnext q) fun next hle =>
    h (hq.mono le_rfl (hle.trans (hnext q next)))

/-- A node that is built on two condensed sides. -/
theorem Run.Spares.rebuilt_pair {rules : Rules} {low : Nat} {p₁ p₂ p' : Parser}
    {x₁ x₂ : Run Parser} {node : Parser → Parser → Build Parser}
    (hx₁ : Spares low x₁ fun high => Condensed rules low high p₁)
    (hx₂ : ∀ low, Spares low x₂ fun high => Condensed rules low high p₂)
    (hnext : ∀ q₁ q₂ next, next ≤ (node q₁ q₂ next).2) (h : ∀ {high q₁ q₂ next},
      Condensed rules low high p₁ q₁ → Condensed rules low high p₂ q₂ →
        Condensed rules low high p' (node q₁ q₂ next).1) :
    Spares low (x₁ >>= fun q₁ => x₂ >>= fun q₂ => Run.build (node q₁ q₂))
      fun high => Condensed rules low high p' := by
  refine hx₁.bind fun mid q₁ hmid hq₁ => (hx₂ mid).bind fun high q₂ hhigh hq₂ => ?_
  refine .build (hnext q₁ q₂) fun next hle => ?_
  have hup : high ≤ (node q₁ q₂ next).2 := hle.trans (hnext q₁ q₂ next)
  exact h (hq₁.mono le_rfl (hhigh.trans hup)) (hq₂.mono hmid hup)

/-- Whatever optimizing makes of a parser below the root is condensed. -/
theorem optimizeWith_condensed {rules : Rules} {root : Parser} {low : Nat}
    (hroot : root.Made rules) {call : Thunk → Run Parser}
    (hcall : ∀ low t, t.Plain → Spares low (call t) fun _ q => t.target rules = .ok q) (n : Nat)
    {p : Parser} (hp : Reaches rules root p) :
    Spares low (optimizeWith call n p) fun high => Condensed rules low high p := by
  have hsucc : ∀ next : Nat, next ≤ next + 1 := Nat.le_succ
  fun_induction optimizeWith call n p generalizing low
  case case1 id left right ih =>
    refine .bind (leaves_exact hroot hcall n hp .nil) fun _ found hlow hfound => ?_
    rcases found with ⟨_ | chars, seen⟩
    · have hnot : ∀ ids cs, Chain.Unfolds rules (.orElse id left right) ids cs → ¬ ids.Nodup := by
        intro ids cs hU hids
        refine hfound ids cs hU ?_
        rwa [List.append_nil, List.nodup_reverse]
      refine .bind (.build (Q := fun high cell => low ≤ cell ∧ cell < high) hsucc fun _ h =>
        ⟨hlow.trans h, Nat.lt_succ_self _⟩) fun mid cell hmid hcell => ?_
      refine .bind (ih (hp.tail (.child (.head _)))) fun high left' hhigh hleft => ?_
      refine .build hsucc fun next hnext => ?_
      have hup : high ≤ next + 1 := hnext.trans (hsucc next)
      exact .choice hnot ⟨hcell.1, hcell.2.trans_le (hhigh.trans hup)⟩
        (hleft.mono (hlow.trans hmid) hup)
    · obtain ⟨ids, cs, hU, rfl, rfl, hids⟩ := hfound
      rw [List.append_nil, List.nodup_reverse] at hids
      dsimp only
      rw [Chain.charSet_nodes hU.chars.ne_nil]
      exact .build hsucc fun _ _ => .chain hU hids
  case case2 ih => exact (ih (hp.tail (.child (.head _)))).rebuilt (fun _ => hsucc) .map
  case case3 ih => exact (ih (hp.tail (.child (.head _)))).rebuilt (fun _ => hsucc) .bind
  case case4 ihl ihr =>
    exact (ihl (hp.tail (.child (.head _)))).rebuilt_pair
      (fun _ => ihr (hp.tail (.child (.tail _ (.head _))))) (fun _ _ => hsucc) .product
  case case5 ihl ihr =>
    exact (ihl (hp.tail (.child (.head _)))).rebuilt_pair
      (fun _ => ihr (hp.tail (.child (.tail _ (.head _))))) (fun _ _ => hsucc) .both
  case case6 ih => exact (ih (hp.tail (.child (.head _)))).rebuilt (fun _ => hsucc) .many
  case case7 ih => exact (ih (hp.tail (.child (.head _)))).rebuilt (fun _ => hsucc) .manyBetween
  case case8 ih => exact (ih (hp.tail (.child (.head _)))).rebuilt (fun _ => hsucc) .collect
  case case9 | case10 => cases hroot.kinded _ hp
  case case11 p _ _ _ _ _ _ _ _ _ =>
    cases p <;> first | exact .pure fun _ _ => .atom rfl rfl | grind

/-- Optimizing a parser below the root ends with a condensed one, fills no cell, and frees no
identity. -/
theorem optimize_ends_condensed {rules : Rules} {root p : Parser} (hroot : root.Made rules)
    (h : Optimizable rules root p) {m : Memory} (hm : m.Settled rules root) :
    ∃ q m', Condensed rules m.nextId m'.nextId p q ∧ m'.Settled rules root ∧
      m.nextId ≤ m'.nextId ∧ m'.filled = m.filled ∧
      ∃ k, ∀ n, k ≤ n → (optimize rules n p).exec m = (.ok q, m') := by
  obtain ⟨k, w, q, m', -, hexec, hlinked, -⟩ :=
    (optimizable_arrives hroot (calling rules root) p .empty h).exec (.start hm)
  have hspares : Spares m.nextId (optimize rules k p) fun high =>
      Condensed rules m.nextId high p :=
    optimizeWith_condensed hroot (fun _ _ ht => .call ht k) k h.reaches
  replace hexec : (optimize rules k p).exec m = (.ok q, m') := hexec
  obtain ⟨hnext, hfilled, hcondensed⟩ := hspares m le_rfl
  rw [hexec] at hnext hfilled hcondensed
  exact ⟨q, m', hcondensed q rfl, hlinked.right, hnext, hfilled, k, fun n hn =>
    (optimize_extends rules p hn).exec_ok hexec⟩

/-- A right side that was put off is condensed when it is first asked for. Its cell is the only one
that is filled, and no identity is freed. -/
theorem right_ends {rules : Rules} {root r : Parser} {right : Thunk} {cell : Nat}
    (hroot : root.Made rules) (ht : right.Plain) (hr : right.target rules = .ok r)
    (h : Optimizable rules root r) {m : Memory} (hm : m.Settled rules root)
    (hlt : cell < m.nextId) (hcell : m.parserIn? (.right cell) = none) :
    ∃ r' m', Condensed rules m.nextId m'.nextId r r' ∧ m'.Settled rules root ∧
      m.nextId ≤ m'.nextId ∧ m'.parserIn? (.right cell) = some r' ∧
      (∀ c, c ≠ cell → m'.parserIn? (.right c) = m.parserIn? (.right c)) ∧
      ∃ k, ∀ n, k ≤ n → ((Thunk.optimized cell right).call rules n).exec m = (.ok r', m') := by
  have hfinds : Run.Finds rules root (right.target rules) (right.call rules 1) := .call ht 0
  obtain ⟨m₁, hcall, hm₁, hnear⟩ := hfinds m hm
  rw [hr] at hcall
  obtain ⟨r', m₂, hcondensed, hm₂, hnext, hfilled, k, hopt⟩ := optimize_ends_condensed hroot h hm₁
  rw [hnear.nextId] at hcondensed hnext
  refine ⟨r', m₂.fill (.right cell) r', hcondensed, hm₂.fill_right (hlt.trans_le hnext), hnext,
    Memory.parserIn?_fill m₂ _ r', fun c hc => ?_, k + 2, fun n hn => ?_⟩
  · rw [Memory.parserIn?_fill_of_ne m₂ r' (by simpa using hc), Memory.parserIn?, hfilled]
    exact hnear.right c
  · obtain ⟨n, rfl⟩ : ∃ j, n = j + 1 := ⟨n - 1, by omega⟩
    have hcall' : (right.call rules n).exec m = (.ok r, m₁) :=
      (Run.Extends.of_le (call_extends rules · right) (by omega : 1 ≤ n)).exec_ok hcall
    have hopt' := hopt n (by omega)
    rw [optimize] at hopt'
    rw [Thunk.call]
    refine Run.exec_once_of_none hcell ?_
    rw [Run.exec_bind, hcall']
    exact hopt'

/-- A right side that was put off is condensed when it is first asked for. Its cell is the only one
that is filled. -/
theorem right_ends_condensed {rules : Rules} {root r : Parser} {right : Thunk} {cell : Nat}
    (hroot : root.Made rules) (ht : right.Plain) (hr : right.target rules = .ok r)
    (h : Optimizable rules root r) {m : Memory} (hm : m.Settled rules root)
    (hlt : cell < m.nextId) (hcell : m.parserIn? (.right cell) = none) :
    ∃ r' m', Condensed rules m.nextId m'.nextId r r' ∧ m'.Settled rules root ∧
      m'.parserIn? (.right cell) = some r' ∧
      (∀ c, c ≠ cell → m'.parserIn? (.right c) = m.parserIn? (.right c)) ∧
      ∃ k, ∀ n, k ≤ n → ((Thunk.optimized cell right).call rules n).exec m = (.ok r', m') := by
  obtain ⟨r', m', hcondensed, hm', -, hends⟩ := right_ends hroot ht hr h hm hlt hcell
  exact ⟨r', m', hcondensed, hm', hends⟩

/-- Every proper chain is collapsed if it meets no choice twice: on its own, anywhere in a parser
that is optimized, and in a right side when it is first asked for. -/
theorem optimize_collapses {rules : Rules} {p : Parser} {m : Memory} (hp : p.Made rules)
    (hm : m.Settled rules p) :
    (∀ id left right, Reaches rules p (.orElse id left right) →
      Chain.Proper rules (.orElse id left right) →
        ∃ ids cs, Chain.Unfolds rules (.orElse id left right) ids cs ∧ (ids.Nodup →
          ∃ q m', Chain.Collapsed (cs.map Prod.snd) q ∧
            ∃ k, ∀ n, k ≤ n → (optimize rules n (.orElse id left right)).exec m = (.ok q, m'))) ∧
    (p.Collectable rules →
      ∃ q m', Condensed rules m.nextId m'.nextId p q ∧ m'.Settled rules p ∧
        m'.filled = m.filled ∧ ∃ k, ∀ n, k ≤ n → (optimize rules n p).exec m = (.ok q, m')) ∧
    (p.Collectable rules → ∀ id left right r cell, Spans rules p (.orElse id left right) →
      right.target rules = .ok r → cell < m.nextId → m.parserIn? (.right cell) = none →
        ∃ r' m', Condensed rules m.nextId m'.nextId r r' ∧ m'.Settled rules p ∧
          m'.parserIn? (.right cell) = some r' ∧
          (∀ c, c ≠ cell → m'.parserIn? (.right c) = m.parserIn? (.right c)) ∧
          ∃ k, ∀ n, k ≤ n →
            ((Thunk.optimized cell right).call rules n).exec m = (.ok r', m')) := by
  refine ⟨fun id left right hreach hproper => ?_, fun hc => ?_,
    fun hc id left right r cell hs hr hlt hcell => ?_⟩
  · obtain ⟨ids, cs, hU⟩ := hproper.unfolds
    refine ⟨ids, cs, hU, fun hids => ?_⟩
    obtain ⟨q, m', hq, -, -, -, hopt⟩ :=
      optimize_ends_condensed hp ⟨hreach, hproper.collectable⟩ hm
    exact ⟨q, m', hq.collapsed hU hids, hopt⟩
  · obtain ⟨q, m', hq, hm', -, hfilled, hopt⟩ := optimize_ends_condensed hp ⟨.refl, hc⟩ hm
    exact ⟨q, m', hq, hm', hfilled, hopt⟩
  · have hready : Optimizable rules p (.orElse id left right) :=
      ⟨hs.reaches, fun id left right cs hs' => hc id left right cs (hs.trans hs')⟩
    have hplain : right.Plain := hp.plain hs.reaches rfl
    exact right_ends_condensed hp hplain hr (hready.spreads (.right hr)) hm hlt hcell

/-! ### A shared leaf -/

def vowels : Parser :=
  .orElse 5 (.orElse 2 (.char 0 'a') (.const (.char 1 'e')))
    (.const (.orElse 4 (.char 0 'a') (.const (.char 3 'i'))))

theorem vowels_unfolds :
    Chain.Unfolds [] vowels [5, 2, 4] [(0, 'a'), (1, 'e'), (0, 'a'), (3, 'i')] :=
  .orElse (.orElse (.char _ _) rfl (.char _ _)) rfl (.orElse (.char _ _) rfl (.char _ _))

/-- A vowel, then a `y` or again a vowel. -/
def diphthong : Parser := .product 8 vowels (.orElse 7 (.literal 6 "y") (.const vowels))

/-- The chain is collapsed on its own, where it stands, and in the right side once it is asked
for. -/
theorem diphthong_collapses :
    (∃ q m k, Chain.Collapsed ['a', 'e', 'a', 'i'] q ∧
      ∀ n, k ≤ n → (optimize [] n vowels).exec { nextId := 9 } = (.ok q, m)) ∧
    ∃ id id' cell q r m₁ m₂ k,
      Chain.Collapsed ['a', 'e', 'a', 'i'] q ∧ Chain.Collapsed ['a', 'e', 'a', 'i'] r ∧
      ∀ n, k ≤ n →
        (optimize [] n diphthong).exec { nextId := 9 } = (.ok (.product id q
          (.orElse id' (.literal 6 "y") (.optimized cell (.const vowels)))), m₁) ∧
        ((Thunk.optimized cell (.const vowels)).call [] n).exec m₁ = (.ok r, m₂) := by
  have hmade : diphthong.Made [] := Parser.made_of_static rfl rfl
  have hcollectable : diphthong.Collectable [] := (Parser.defined_of_static rfl rfl).collectable
  have hnodup : [5, 2, 4].Nodup := by decide
  obtain ⟨halone, hbelow, -⟩ := optimize_collapses (m := { nextId := 9 }) hmade
    ⟨fun _ h => (nomatch h), fun _ _ => rfl⟩
  constructor
  · have hreach : Reaches [] diphthong vowels := .single (.child (.head _))
    obtain ⟨ids, cs, hU, hq⟩ := halone _ _ _ hreach vowels_unfolds.proper
    obtain ⟨rfl, rfl⟩ := hU.unique vowels_unfolds
    obtain ⟨q, m', hq, k, hopt⟩ := hq hnodup
    exact ⟨q, m', k, hq, hopt⟩
  · obtain ⟨p, m₁, hp, hm₁, hfilled, k, hopt⟩ := hbelow hcollectable
    cases hp with
    | atom _ hc => cases hc
    | @product _ id _ q _ q' hq hq' =>
      cases hq' with
      | atom _ hc => cases hc
      | chain hU => cases hU with | orElse hl => cases hl
      | @choice _ id' cell _ left' _ _ hcell hleft =>
        cases hleft
        have hempty : m₁.parserIn? (.right cell) = none := by
          rw [Memory.parserIn?, hfilled]
          rfl
        have hspans : Spans [] diphthong (.orElse 7 (.literal 6 "y") (.const vowels)) :=
          .single (.child (.tail _ (.head _)))
        obtain ⟨r, m₂, hr, -, -, -, l, hcall⟩ := (optimize_collapses hmade hm₁).2.2 hcollectable
          _ _ _ vowels cell hspans rfl hcell.2 hempty
        refine ⟨id, id', cell, q, r, m₁, m₂, max k l, hq.collapsed vowels_unfolds hnodup,
          hr.collapsed vowels_unfolds hnodup, fun n hn => ⟨hopt n ?_, hcall n ?_⟩⟩
        · exact (Nat.le_max_left k l).trans hn
        · exact (Nat.le_max_right k l).trans hn

/-! ### A shared choice -/

def pair : Parser := .orElse 2 (.char 0 'a') (.const (.char 1 'b'))

def pairTwice : Parser := .orElse 3 pair (.const pair)

/-- The chain leads to four characters and never back to itself, and yet it stays a choice, for
collecting meets the same choice on both sides. -/
theorem pairTwice_kept : pairTwice.Made [] ∧ Chain.Proper [] pairTwice ∧
    ∀ k, (optimize [] (k + 4) pairTwice).exec { nextId := 4 } =
      (.ok (.orElse 6 (.charWhere 5 (.memberOf ['a', 'b']) "character b")
        (.optimized 4 (.const pair))), { nextId := 7 }) := by
  refine ⟨Parser.made_of_static rfl rfl, Chain.Unfolds.proper (.orElse
    (.orElse (.char _ _) rfl (.char _ _)) rfl (.orElse (.char _ _) rfl (.char _ _))), fun k => rfl⟩

end ParserAlgebra
