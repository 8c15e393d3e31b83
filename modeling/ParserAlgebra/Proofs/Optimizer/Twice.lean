import ParserAlgebra.Proofs.Optimizer.Preserve

/-!
# Optimizing twice

Where no chain leads back to itself, optimizing an optimized parser ends, changes nothing in its
outline and nothing in its results. A chain that does lead back to itself is unrolled without end:
each right side that is asked for is a new choice, which no collecting has met.
-/

namespace ParserAlgebra

open Run (Extends)

theorem Run.Extends.exec_ok {α : Type} {x y : Run α} (h : Extends x y) {m m' : Memory} {a : α}
    (hx : x.exec m = (.ok a, m')) : y.exec m = (.ok a, m') := by
  rw [h m (by simp [hx]), hx]

/-- Optimizing twice ends, with the outline of optimizing once, and where a run of the parser ends
both optimized parsers end with the same result or in the same fault. -/
theorem optimize_twice {rules : Rules} {p : Parser} (hp : p.Made rules) (hd : p.Defined rules)
    (hacyclic : p.Acyclic rules) {m : Memory} (hm : m.Settled rules p) :
    ∃ k q m₁ r m₂, (optimize rules k p).exec m = (.ok q, m₁) ∧
      (optimize rules k q).exec m₁ = (.ok r, m₂) ∧ (∀ indent, r.dump indent = q.dump indent) ∧
      ∀ n input trace, ((evaluate rules n p input trace).exec m).1 ≠ .error .exhausted →
        ∃ j, ((evaluate rules j q input trace).exec m₂).1 =
            ((evaluate rules n p input trace).exec m).1 ∧
          ((evaluate rules j r input trace).exec m₂).1 =
            ((evaluate rules n p input trace).exec m).1 := by
  have hready : Ready rules p p := ⟨.refl, hd⟩
  obtain ⟨k, w₁, q, m₁, -, hq, hlinked, hform⟩ :=
    (optimizeWith_arrives hp (calling rules p) p .empty hready).exec (.start hm)
  obtain ⟨l, w₂, r, m₂, h₂, hr, hlinked₂, hredone⟩ :=
    (optimizeWith_again hp (recalling hp) hform hready hacyclic w₁ le_rfl).exec hlinked
  -- The larger of the two bounds suffices for both.
  have hk : (optimize rules (max k l) p).exec m = (.ok q, m₁) :=
    (optimize_extends rules p (Nat.le_max_left k l)).exec_ok hq
  have hl : (optimize rules (max k l) q).exec m₁ = (.ok r, m₂) :=
    (optimize_extends rules q (Nat.le_max_right k l)).exec_ok hr
  have hdump : ∀ indent, r.dump indent = q.dump indent := fun indent => by
    rw [Parser.dump, Parser.dump, hredone.outline]
  refine ⟨max k l, q, m₁, r, m₂, hk, hl, hdump, fun n input trace hend => ?_⟩
  have hends : ∀ {s : Parser}, Form rules w₂ ⊤ p s →
      ∃ j, ((evaluate rules j s input trace).exec m₂).1 =
        ((evaluate rules n p input trace).exec m).1 := by
    intro s hs
    obtain ⟨j, _, -, -, hA⟩ :=
      evaluate_follows hp w₂ hs n input trace w₂ le_rfl m m₂ hlinked₂ hend
    exact ⟨j, hA.eq⟩
  have hlater : ∀ {s : Parser} {i j : Nat}, i ≤ j → ((evaluate rules i s input trace).exec m₂).1 =
      ((evaluate rules n p input trace).exec m).1 →
        ((evaluate rules j s input trace).exec m₂).1 =
          ((evaluate rules n p input trace).exec m).1 := by
    intro s i j hij h
    rw [evaluate_extends rules s input trace hij m₂ (by rwa [h]), h]
  obtain ⟨i, hi⟩ := hends (hform.grow h₂).any
  obtain ⟨j, hj⟩ := hends hredone.form
  exact ⟨max i j, hlater (Nat.le_max_left i j) hi, hlater (Nat.le_max_right i j) hj⟩

def tally : Rules :=
  [("tally", .orElse 4 (.char 3 'i')
    (.const (.both 2 (.char 0 '+') (.delayed 1 (.rule "tally")) .add)))]

def numeral : Parser :=
  .both 10 (.orElse 7 (.char 5 'v') (.const (.char 6 'x')))
    (.orElse 9 (.char 8 'l') (.rule "tally")) .add

theorem numeral_optimize_twice :
    ∃ k q m₁ r m₂, (optimize tally k numeral).exec {} = (.ok q, m₁) ∧
      (optimize tally k q).exec m₁ = (.ok r, m₂) ∧ (∀ indent, r.dump indent = q.dump indent) ∧
      ∃ j, ((evaluate tally j q "x+i" false).exec m₂).1 =
          .ok ⟨"x+i", .accept (.text "x+i") 3⟩ ∧
        ((evaluate tally j r "x+i" false).exec m₂).1 =
          .ok ⟨"x+i", .accept (.text "x+i") 3⟩ := by
  have hmade : numeral.Made tally := Parser.made_of_static rfl rfl
  have hdefined : numeral.Defined tally := Parser.defined_of_static rfl rfl
  have hacyclic : numeral.Acyclic tally := Parser.acyclic_of_descends rfl
  have hrun : ((evaluate tally 9 numeral "x+i" false).exec {}).1 =
      .ok ⟨"x+i", .accept (.text "x+i") 3⟩ := rfl
  obtain ⟨k, q, m₁, r, m₂, hq, hr, hdump, heval⟩ :=
    optimize_twice hmade hdefined hacyclic (.empty _ _)
  have hboth := heval 9 "x+i" false (hrun ▸ nofun)
  rw [hrun] at hboth
  exact ⟨k, q, m₁, r, m₂, hq, hr, hdump, hboth⟩

/-! ### A chain that leads back to itself -/

def ring : Parser := .orElse 1 (.char 0 'a') (.rule "ring")

def rings : Rules := [("ring", ring)]

def unrolled (id cell : Nat) : Parser := .orElse id (.char 0 'a') (.optimized cell (.rule "ring"))

/-- The memory after the ring was optimized. Collecting has called its thunk once. -/
def Memory.afterRing (m : Memory) : Memory :=
  { m.countCall "ring" with nextId := m.nextId + 2 }

theorem optimize_ring (k : Nat) (m : Memory) :
    (optimize rings (k + 2) ring).exec m =
      (.ok (unrolled (m.nextId + 1) m.nextId), m.afterRing) := rfl

/-- A right side of the ring that still is to be optimized. -/
structure Waiting (m : Memory) (cell : Nat) : Prop where
  lt : cell < m.nextId
  empty : m.parserIn? (.right cell) = none
  unused : ∀ c, m.nextId ≤ c → m.parserIn? (.right c) = none

/-- The memory after a right side of the ring was optimized, its thunk called once more before. -/
def Memory.unroll (m : Memory) (cell : Nat) : Memory :=
  (m.countCall "ring").afterRing.fill (.right cell) (unrolled (m.nextId + 1) m.nextId)

theorem call_unrolled {m : Memory} {cell : Nat} (h : Waiting m cell) (k : Nat) :
    (Thunk.call rings (k + 3) (.optimized cell (.rule "ring"))).exec m =
      (.ok (unrolled (m.nextId + 1) m.nextId), m.unroll cell) := by
  rw [Thunk.call]
  exact Run.exec_once_of_none h.empty rfl

theorem Waiting.unroll {m : Memory} {cell : Nat} (h : Waiting m cell) :
    Waiting (m.unroll cell) m.nextId := by
  have hkept : ∀ c, m.nextId ≤ c → (m.unroll cell).parserIn? (.right c) = none := by
    intro c hc
    have hne : c ≠ cell := Nat.ne_of_gt (Nat.lt_of_lt_of_le h.lt hc)
    rw [Memory.unroll, Memory.parserIn?_fill_of_ne _ _ (by simpa using hne)]
    exact h.unused c hc
  refine ⟨Nat.lt_add_of_pos_right Nat.two_pos, hkept _ le_rfl, fun c hc => hkept c ?_⟩
  exact Nat.le_of_add_right_le hc

/-- Collecting never comes to an end: its bound alone stops it. -/
theorem leaves_unrolled (k n : Nat) {m : Memory} {id cell : Nat} {seen : List Nat}
    (h : Waiting m cell) (hid : id < m.nextId) (hnew : id ∉ seen)
    (hseen : ∀ i ∈ seen, i < m.nextId) :
    ((Chain.leaves (Thunk.call rings (k + 3)) n (unrolled id cell) seen).exec m).1 =
      .error .exhausted := by
  induction n generalizing m id cell seen with
  | zero => rfl
  | succ n ih =>
    have hcontains : seen.contains id = false := by simpa using hnew
    cases n with
    | zero => simp [unrolled, Chain.leaves, Run.exec_bind, hnew]
    | succ n =>
      -- The right side is a choice that was not met, for its identity is new.
      have hlater : ∀ i ∈ id :: seen, i < m.nextId := List.forall_mem_cons.2 ⟨hid, hseen⟩
      have hfresh : m.nextId + 1 ∉ id :: seen := fun hi => by
        have hlt := hlater _ hi
        omega
      have hbelow : ∀ i ∈ id :: seen, i < (m.unroll cell).nextId := fun i hi =>
        (hlater i hi).trans (Nat.lt_add_of_pos_right Nat.two_pos)
      have hrest : ((Chain.leaves (Thunk.call rings (k + 3)) (n + 1)
          (unrolled (m.nextId + 1) m.nextId) (id :: seen)).exec (m.unroll cell)).1 =
            .error .exhausted :=
        ih h.unroll (Nat.lt_succ_self _) hfresh hbelow
      rw [unrolled, Chain.leaves]
      simp only [hcontains, Bool.false_eq_true, if_false]
      rw [Chain.leaves, pure_bind, Run.exec_bind, call_unrolled h]
      dsimp only
      rw [Run.exec_bind]
      rcases hl : (Chain.leaves (Thunk.call rings (k + 3)) (n + 1)
        (unrolled (m.nextId + 1) m.nextId) (id :: seen)).exec (m.unroll cell) with ⟨o, m'⟩
      rw [hl] at hrest
      dsimp only at hrest
      subst hrest
      rfl

theorem optimize_unrolled (k : Nat) {m : Memory} {id cell : Nat} (h : Waiting m cell)
    (hid : id < m.nextId) :
    ((optimize rings (k + 3) (unrolled id cell)).exec m).1 = .error .exhausted := by
  have hleaves := leaves_unrolled k (k + 3) h hid List.not_mem_nil nofun
  rw [unrolled] at hleaves
  rw [optimize, unrolled, optimizeWith, Run.exec_bind]
  rcases hl : (Chain.leaves (Thunk.call rings (k + 3)) (k + 3)
    (.orElse id (.char 0 'a') (.optimized cell (.rule "ring"))) []).exec m with ⟨o, m'⟩
  rw [hl] at hleaves
  dsimp only at hleaves
  subst hleaves
  rfl

theorem ring_exhausted {m : Memory} (hm : m.Settled rings ring) (j k : Nat) :
    ((optimize rings j ring >>= optimize rings k).exec m).1 = .error .exhausted := by
  have hwaiting : Waiting m.afterRing m.nextId :=
    ⟨Nat.lt_add_of_pos_right Nat.two_pos, hm.right _ le_rfl, fun c hc =>
      hm.right c (Nat.le_of_add_right_le hc)⟩
  have hlarge : ((optimize rings (j + 2) ring >>= optimize rings (k + 3)).exec m).1 =
      .error .exhausted := by
    rw [Run.exec_bind, optimize_ring]
    exact optimize_unrolled k hwaiting (Nat.lt_succ_self _)
  -- A smaller bound does not suffice where a larger one does not.
  have hgrow : Extends (optimize rings j ring >>= optimize rings k)
      (optimize rings (j + 2) ring >>= optimize rings (k + 3)) :=
    .bind (optimize_extends rings ring (Nat.le_add_right j 2)) fun q =>
      optimize_extends rings q (Nat.le_add_right k 3)
  by_contra hne
  rw [hgrow m hne] at hlarge
  exact hne hlarge

/-- No bound suffices to optimize the ring twice, though it is made of what parsers are made of. -/
theorem ring_optimize_twice_exhausted :
    ring.Made rings ∧ ring.Defined rings ∧ ∀ j k,
      ((optimize rings j ring >>= optimize rings k).exec { nextId := 2 }).1 =
        .error .exhausted := by
  have hmade : ring.Made rings := Parser.made_of_static rfl rfl
  have hdefined : ring.Defined rings := Parser.defined_of_static rfl rfl
  exact ⟨hmade, hdefined, ring_exhausted ⟨fun _ h => (nomatch h), fun _ _ => rfl⟩⟩

end ParserAlgebra
