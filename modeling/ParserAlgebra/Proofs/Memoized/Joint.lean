import ParserAlgebra.Proofs.Memoized.Delaying
import ParserAlgebra.Proofs.Optimizer.Kept

/-!
# The memories of a run and of the run that delays

On the left side memoized nodes are forced and kept, on the right side those that a plan calls lazy
are asked each time. The two memories hold the same, apart from the cells of lazy nodes, which only
the left side fills: each at most once, with what its thunk stands for. Where one lazy node alone
holds the thunk of a rule, the left side has called it once if the right side has called it at all.
-/

namespace ParserAlgebra

/-- Which memoized nodes are asked each time on the right side, the thunk of each of them, the
parsers that nodes were forced to before, and for some rules the one node that holds their thunk. -/
structure Plan (rules : Rules) where
  lazy : Nat → Bool
  thunk : Nat → Thunk
  kept : Nat → Option Parser
  holder : String → Option Nat
  held : ∀ {name : String} {id : Nat}, holder name = some id →
    lazy id = true ∧ thunk id = .rule name ∧ ∃ q, rules.lookup name = some q

namespace Plan

variable {rules : Rules}

/-- The thunk is of no rule that a lazy node alone holds the thunk of. -/
def Free (w : Plan rules) (t : Thunk) : Prop := ∀ name, t.core = .rule name → w.holder name = none

/-- A node that is in keeping with the plan. -/
def Suits (w : Plan rules) : Parser → Prop
  | .memoized id t =>
    if w.lazy id then
      t = w.thunk id ∧ t.Plain ∧ ∀ name holder, t = .rule name → w.holder name = some holder →
        holder = id
    else w.Free t
  | .orElse _ _ t => w.Free t
  | .delayed _ t => w.Free t
  | _ => True

theorem suits_local (w : Plan rules) : Parser.Local w.Suits where
  map _ := trivial
  bind _ := trivial
  product _ := trivial
  both _ := trivial
  orElse h := h
  many _ := trivial
  manyBetween _ := trivial
  collect _ := trivial
  memberOf := trivial

/-- What the right side has in a cell where the left side has this. -/
def carry (w : Plan rules) (entry : Cell × Parser) : Option (Cell × Parser) :=
  match entry.1 with
  | .node id => if w.lazy id then none else some (.node id, entry.2.delaying w.lazy)
  | .right c => some (.right c, entry.2.delaying w.lazy)

/-- A cell that both sides fill. -/
def Common (w : Plan rules) (cell : Cell) : Prop := ∀ id, cell = .node id → w.lazy id = false

theorem carry_of_common {w : Plan rules} {cell : Cell} (h : w.Common cell) (p : Parser) :
    w.carry (cell, p) = some (cell, p.delaying w.lazy) := by
  cases cell with
  | node id => simp [carry, h id rfl]
  | right c => rfl

theorem carry_of_lazy {w : Plan rules} {id : Nat} (h : w.lazy id = true) (p : Parser) :
    w.carry (.node id, p) = none := by
  simp [carry, h]

theorem common_or_lazy (w : Plan rules) (cell : Cell) :
    w.Common cell ∨ ∃ id, cell = .node id ∧ w.lazy id = true := by
  cases cell with
  | right c => exact .inl nofun
  | node id =>
    cases h : w.lazy id with
    | true => exact .inr ⟨id, rfl, h⟩
    | false => exact .inl fun _ he => Cell.node.inj he ▸ h

theorem lookup_filterMap_carry {w : Plan rules} {cell : Cell} (h : w.Common cell)
    (filled : List (Cell × Parser)) :
    (filled.filterMap w.carry).lookup cell =
      (filled.lookup cell).map (Parser.delaying w.lazy) := by
  induction filled with
  | nil => rfl
  | cons entry rest ih =>
    obtain ⟨other, p⟩ := entry
    rw [List.filterMap_cons, List.lookup_cons]
    rcases w.common_or_lazy other with ho | ⟨id, rfl, hl⟩
    · rw [carry_of_common ho, List.lookup_cons]
      cases cell == other with
      | true => rfl
      | false => exact ih
    · have hne : (cell == .node id) = false := by
        refine beq_eq_false_iff_ne.2 fun he => ?_
        rw [h id he] at hl
        cases hl
      rw [carry_of_lazy hl, hne]
      exact ih

end Plan

/-- How often a cell was filled. -/
def Memory.timesFilled (m : Memory) (cell : Cell) : Nat := (m.filled.map Prod.fst).count cell

namespace Memory

theorem timesFilled_fill (m : Memory) (cell : Cell) (p : Parser) :
    (m.fill cell p).timesFilled cell = m.timesFilled cell + 1 := by
  simp [timesFilled, fill]

theorem timesFilled_fill_of_ne (m : Memory) {cell other : Cell} (p : Parser) (h : other ≠ cell) :
    (m.fill cell p).timesFilled other = m.timesFilled other := by
  simp [timesFilled, fill, h.symm]

theorem timesFilled_eq_zero {m : Memory} {cell : Cell} (h : m.parserIn? cell = none) :
    m.timesFilled cell = 0 := by
  rw [timesFilled, List.count_eq_zero]
  intro hmem
  obtain ⟨entry, he, rfl⟩ := List.mem_map.1 hmem
  simpa using List.lookup_eq_none_iff.1 h entry he

end Memory

/-- A memory after a thunk was called that is of a rule or of a parser. -/
def Thunk.called : Thunk → Memory → Memory
  | .rule name, m => m.countCall name
  | _, m => m

namespace Thunk

theorem called_nextId (t : Thunk) (m : Memory) : (t.called m).nextId = m.nextId := by
  cases t <;> rfl

theorem called_filled (t : Thunk) (m : Memory) : (t.called m).filled = m.filled := by
  cases t <;> rfl

theorem callsOf_called_of_ne {t : Thunk} {name : String} (h : t ≠ .rule name) (m : Memory) :
    (t.called m).callsOf name = m.callsOf name := by
  cases t with
  | rule other => exact Memory.callsOf_countCall_of_ne m (by simpa [eq_comm] using h)
  | const | optimized => rfl

theorem exec_call_plain {t : Thunk} (h : t.Plain) (rules : Rules) (n : Nat) (m : Memory) :
    (t.call rules (n + 1)).exec m = (((Run.ofExcept (t.target rules)).exec m).1, t.called m) := by
  cases t with
  | const p => rfl
  | rule name =>
    simp only [Thunk.call, Run.exec_bind, Run.exec_countCall, Thunk.target]
    cases rules.lookup name <;> rfl
  | optimized => exact h.elim

end Thunk

/-- A memory of the left side, which forces, and one of the right side, which asks. -/
structure Plan.Joint {rules : Rules} (w : Plan rules) (m m' : Memory) : Prop where
  nextId : m'.nextId = m.nextId
  filled : m'.filled = m.filled.filterMap w.carry
  settled : ∀ id q, w.lazy id = true → m.parserIn? (.node id) = some q →
    (w.thunk id).target rules = .ok q
  holds : m.Holds (Parser.Everywhere rules w.Suits)
  kept : ∀ id q, w.kept id = some q → m.parserIn? (.node id) = some q
  once : ∀ id, w.lazy id = true → m.timesFilled (.node id) ≤ 1
  calls : ∀ name id, w.holder name = some id →
    m.callsOf name = (if m'.callsOf name = 0 then 0 else 1) ∧
      (m.parserIn? (.node id) = none ↔ m'.callsOf name = 0)

namespace Plan.Joint

variable {rules : Rules} {w : Plan rules} {m m' : Memory}

theorem parserIn?_eq (h : w.Joint m m') {cell : Cell} (hc : w.Common cell) :
    m'.parserIn? cell = (m.parserIn? cell).map (Parser.delaying w.lazy) := by
  rw [Memory.parserIn?, h.filled, lookup_filterMap_carry hc]
  rfl

theorem write_left (h : w.Joint m m') (e : LogEntry) : w.Joint (m.write e) m' :=
  ⟨h.nextId, h.filled, h.settled, h.holds, h.kept, h.once, h.calls⟩

theorem write_right (h : w.Joint m m') (e : LogEntry) : w.Joint m (m'.write e) :=
  ⟨h.nextId, h.filled, h.settled, h.holds, h.kept, h.once, h.calls⟩

theorem build (h : w.Joint m m') (next : Nat) :
    w.Joint { m with nextId := next } { m' with nextId := next } :=
  ⟨rfl, h.filled, h.settled, h.holds, h.kept, h.once, h.calls⟩

theorem countCall (h : w.Joint m m') {name : String} (hname : w.holder name = none) :
    w.Joint (m.countCall name) (m'.countCall name) := by
  refine ⟨h.nextId, h.filled, h.settled, h.holds, h.kept, h.once, fun other id hid => ?_⟩
  have hne : other ≠ name := by
    rintro rfl
    rw [hname] at hid
    cases hid
  rw [Memory.callsOf_countCall_of_ne m hne, Memory.callsOf_countCall_of_ne m' hne]
  exact h.calls other id hid

/-- Both sides fill a cell, a node's cell only if it was empty at some time before. -/
theorem fill (h : w.Joint m m') {cell : Cell} {p : Parser} (hc : w.Common cell)
    (hnew : ∀ id, cell = .node id → w.kept id = none) (hp : p.Everywhere rules w.Suits) :
    w.Joint (m.fill cell p) (m'.fill cell (p.delaying w.lazy)) := by
  have hlazy : ∀ {id}, w.lazy id = true → Cell.node id ≠ cell := by
    rintro id hl rfl
    rw [hc id rfl] at hl
    cases hl
  refine ⟨h.nextId, ?_, fun id q hl hq => ?_, h.holds.fill hp, fun id q hk => ?_, fun id hl => ?_,
    fun name id hid => ?_⟩
  · simp only [Memory.fill, List.filterMap_cons, carry_of_common hc, h.filled]
  · rw [Memory.parserIn?_fill_of_ne m p (hlazy hl)] at hq
    exact h.settled id q hl hq
  · have hne : Cell.node id ≠ cell := by
      rintro rfl
      rw [hnew id rfl] at hk
      cases hk
    rw [Memory.parserIn?_fill_of_ne m p hne]
    exact h.kept id q hk
  · rw [Memory.timesFilled_fill_of_ne m p (hlazy hl)]
    exact h.once id hl
  · rw [Memory.parserIn?_fill_of_ne m p (hlazy (w.held hid).1)]
    exact h.calls name id hid

/-! ### A lazy node -/

variable {id : Nat}

/-- Calling the thunk of the node counts for the rule that it alone holds the thunk of, and for no
other one. -/
theorem callsOf_called (hs : w.Suits (.memoized id (w.thunk id))) (hl : w.lazy id = true)
    {name : String} {other : Nat} (hname : w.holder name = some other) (n : Memory) :
    ((w.thunk id).called n).callsOf name = n.callsOf name + if other = id then 1 else 0 := by
  rw [Suits, if_pos hl] at hs
  by_cases he : other = id
  · subst he
    rw [(w.held hname).2.1, if_pos rfl]
    exact Memory.callsOf_countCall n name
  · rw [if_neg he]
    refine Thunk.callsOf_called_of_ne (fun ht => he ?_) n
    exact hs.2.2 name other ht hname

/-- The left side has forced the node before, and only the right side calls the thunk. -/
theorem again (h : w.Joint m m') (hs : w.Suits (.memoized id (w.thunk id))) (hl : w.lazy id = true)
    (hcell : m.parserIn? (.node id) ≠ none) : w.Joint m ((w.thunk id).called m') := by
  refine ⟨?_, ?_, h.settled, h.holds, h.kept, h.once, fun name other hname => ?_⟩
  · rw [Thunk.called_nextId, h.nextId]
  · rw [Thunk.called_filled, h.filled]
  · obtain ⟨hcount, hforced⟩ := h.calls name other hname
    rw [callsOf_called hs hl hname]
    by_cases he : other = id
    · subst he
      have hcalled : m'.callsOf name ≠ 0 := fun e => hcell (hforced.2 e)
      rw [if_neg hcalled] at hcount
      simp [hcount, hcell]
    · simpa only [if_neg he, Nat.add_zero] using ⟨hcount, hforced⟩

/-- The left side forces the node and keeps the parser, the right side calls the thunk. -/
theorem force (h : w.Joint m m') (hs : w.Suits (.memoized id (w.thunk id))) (hl : w.lazy id = true)
    (hcell : m.parserIn? (.node id) = none) {q : Parser}
    (hq : (w.thunk id).target rules = .ok q) (he : q.Everywhere rules w.Suits) :
    w.Joint (((w.thunk id).called m).fill (.node id) q) ((w.thunk id).called m') := by
  have hcells : ∀ cell, ((w.thunk id).called m).parserIn? cell = m.parserIn? cell := fun cell =>
    congrArg (List.lookup cell) ((w.thunk id).called_filled m)
  have hother : ∀ {other}, other ≠ id →
      (((w.thunk id).called m).fill (.node id) q).parserIn? (.node other) =
        m.parserIn? (.node other) := fun hne => by
    rw [Memory.parserIn?_fill_of_ne _ q (by simpa using hne), hcells]
  refine ⟨?_, ?_, fun other p hlo hp => ?_, ?_, fun other p hk => ?_, fun other hlo => ?_,
    fun name other hname => ?_⟩
  · rw [Thunk.called_nextId, h.nextId, Memory.fill, Thunk.called_nextId]
  · rw [Thunk.called_filled, h.filled, Memory.fill, List.filterMap_cons, carry_of_lazy hl,
      Thunk.called_filled]
  · by_cases hne : other = id
    · subst hne
      rw [Memory.parserIn?_fill] at hp
      cases hp
      exact hq
    · rw [hother hne] at hp
      exact h.settled other p hlo hp
  · exact Memory.Holds.fill (fun cell p hp => h.holds cell p (by rwa [hcells] at hp)) he
  · have hne : other ≠ id := by
      rintro rfl
      rw [h.kept other p hk] at hcell
      cases hcell
    rw [hother hne]
    exact h.kept other p hk
  · have htimes : ∀ cell, ((w.thunk id).called m).timesFilled cell = m.timesFilled cell :=
      fun cell => congrArg (fun f => (f.map Prod.fst).count cell) ((w.thunk id).called_filled m)
    by_cases hne : other = id
    · subst hne
      rw [Memory.timesFilled_fill, htimes, Memory.timesFilled_eq_zero hcell]
    · rw [Memory.timesFilled_fill_of_ne _ q (by simpa using hne), htimes]
      exact h.once other hlo
  · obtain ⟨hcount, hforced⟩ := h.calls name other hname
    have hleft := callsOf_called hs hl hname m
    rw [callsOf_called hs hl hname m']
    change ((w.thunk id).called m).callsOf name = _ ∧ _
    rw [hleft]
    by_cases hne : other = id
    · subst hne
      rw [hforced.1 hcell, if_pos rfl] at hcount
      simp [hcount, Memory.parserIn?_fill]
    · simpa only [if_neg hne, Nat.add_zero, hother hne] using ⟨hcount, hforced⟩

/-- The thunk fails on both sides. -/
theorem fail (h : w.Joint m m') (hs : w.Suits (.memoized id (w.thunk id))) (hl : w.lazy id = true)
    {f : Fault} (hq : (w.thunk id).target rules = .error f) :
    w.Joint ((w.thunk id).called m) ((w.thunk id).called m') := by
  cases ht : w.thunk id with
  | const p => exact h
  | optimized => exact h
  | rule name =>
    refine h.countCall ?_
    cases hname : w.holder name with
    | none => rfl
    | some other =>
      obtain ⟨-, hthunk, q, hrule⟩ := w.held hname
      rw [Suits, if_pos hl] at hs
      rw [hs.2.2 name other ht hname] at hthunk
      simp only [hthunk, Thunk.target, hrule] at hq
      cases hq

end Plan.Joint

end ParserAlgebra
