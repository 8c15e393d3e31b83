import ParserAlgebra.Parser.Display
import ParserAlgebra.Parser.Outline
import ParserAlgebra.Proofs.Memoized.Joint
import ParserAlgebra.Proofs.Script.Notes

/-!
# When thunks are called

During a run of a parser that constructors and combinators made, a rule's thunk is called each time
that a delayed node which holds it is tried, each time that the left side of a choice which holds it
rejects, and once for each memoized node which holds it and is reached for the first time ever.
Building and printing call no thunk.
-/

namespace ParserAlgebra

open Noted

/-- The thunk is that of the rule. -/
def Thunk.isOf (name : String) : Thunk → Bool
  | .rule other => other == name
  | _ => false

namespace Note

/-- A delayed node that holds the thunk of the rule is tried. -/
def isDelayedTry (name : String) : Note → Bool
  | .tried (.delayed _ thunk) => thunk.isOf name
  | _ => false

/-- The left side of a choice that holds the thunk of the rule rejects. -/
def isLeftFailure (name : String) : Note → Bool
  | .heard (.orElse _ _ right) 0 (.reject _ _) => right.isOf name
  | _ => false

/-- The identity of a memoized node that holds the thunk of the rule and is tried. -/
def memoizedTry? (name : String) : Note → Option Nat
  | .tried (.memoized id thunk) => if thunk.isOf name then some id else none
  | _ => none

end Note

/-- The memoized nodes that hold the thunk of the rule, are tried, and were never forced before. -/
def Memory.firstForced (m : Memory) (name : String) (notes : List Note) : Finset Nat :=
  (notes.filterMap (Note.memoizedTry? name)).toFinset.filter fun id =>
    (m.parserIn? (.node id)).isNone

theorem Memory.mem_firstForced {m : Memory} {name : String} {notes : List Note} {id : Nat} :
    id ∈ m.firstForced name notes ↔
      (∃ t, .tried (.memoized id t) ∈ notes ∧ t.isOf name = true) ∧
        m.parserIn? (.node id) = none := by
  simp only [firstForced, Finset.mem_filter, List.mem_toFinset, List.mem_filterMap,
    Option.isNone_iff_eq_none]
  refine and_congr_left fun _ => ⟨?_, ?_⟩
  · rintro ⟨entry, hentry, hid⟩
    unfold Note.memoizedTry? at hid
    split at hid
    · split at hid <;> cases hid
      exact ⟨_, hentry, ‹_›⟩
    · cases hid
  · rintro ⟨t, ht, hname⟩
    exact ⟨_, ht, by simp [Note.memoizedTry?, hname]⟩

theorem Thunk.callsOf_called (t : Thunk) (m : Memory) (name : String) :
    (t.called m).callsOf name = m.callsOf name + (t.isOf name).toNat := by
  cases t with
  | const | optimized => rfl
  | rule other =>
    by_cases h : other = name
    · subst h
      simp [Thunk.called, isOf, Memory.callsOf_countCall]
    · simp [Thunk.called, isOf, Memory.callsOf_countCall_of_ne m (Ne.symm h), h]

/-! ### The ledger of calls -/

/-- What constructors make: no thunk of an optimizer, and one thunk for each memoized node. -/
def Parser.Constructed (owner : Nat → Thunk) (p : Parser) : Prop :=
  (∀ t, p.thunk? = some t → t.Plain) ∧ ∀ id t, p = .memoized id t → t = owner id

section

variable {rules : Rules} {owner : Nat → Thunk}

/-- The calls of thunks between two memories are those that the notes tell of. -/
structure CallsNoted (rules : Rules) (owner : Nat → Thunk) (m : Memory) (notes : List Note)
    (m' : Memory) : Prop where
  calls : ∀ name, m'.callsOf name = m.callsOf name + notes.countP (Note.isDelayedTry name) +
    notes.countP (Note.isLeftFailure name) + (m.firstForced name notes).card
  empty : ∀ id, m'.parserIn? (.node id) = none ↔
    m.parserIn? (.node id) = none ∧ ∀ t, .tried (.memoized id t) ∉ notes
  owned : ∀ id t, .tried (.memoized id t) ∈ notes → t = owner id
  holds : m.Holds (Parser.Everywhere rules (Parser.Constructed owner)) →
    m'.Holds (Parser.Everywhere rules (Parser.Constructed owner))

theorem CallsNoted.quiet {m m' : Memory} {notes : List Note}
    (hcalls : ∀ name, m'.callsOf name = m.callsOf name + notes.countP (Note.isDelayedTry name) +
      notes.countP (Note.isLeftFailure name))
    (hfilled : m'.filled = m.filled) (hnotes : ∀ id t, .tried (.memoized id t) ∉ notes) :
    CallsNoted rules owner m notes m' := by
  have hcells : ∀ cell, m'.parserIn? cell = m.parserIn? cell := fun cell => by
    rw [Memory.parserIn?, hfilled, Memory.parserIn?]
  refine ⟨fun name => ?_, fun id => ?_, fun id t ht => absurd ht (hnotes id t),
    fun h cell q hq => h cell q (hcells cell ▸ hq)⟩
  · have hnone : m.firstForced name notes = ∅ := Finset.eq_empty_of_forall_notMem fun id hid => by
      obtain ⟨⟨t, ht, -⟩, -⟩ := Memory.mem_firstForced.1 hid
      exact hnotes id t ht
    rw [hcalls, hnone, Finset.card_empty, Nat.add_zero]
  · rw [hcells]
    exact ⟨fun h => ⟨h, hnotes id⟩, And.left⟩

theorem CallsNoted.trans {m m' m'' : Memory} {notes notes' : List Note}
    (h : CallsNoted rules owner m notes m') (h' : CallsNoted rules owner m' notes' m'') :
    CallsNoted rules owner m (notes ++ notes') m'' := by
  refine ⟨fun name => ?_, fun id => ?_, fun id t ht => ?_, fun hm => h'.holds (h.holds hm)⟩
  · -- A node that is reached first in the second part was not tried in the first one.
    have hunion : m.firstForced name (notes ++ notes') =
        m.firstForced name notes ∪ m'.firstForced name notes' := by
      ext id
      simp only [Finset.mem_union, Memory.mem_firstForced, h.empty, List.mem_append]
      constructor
      · rintro ⟨⟨t, ht, hname⟩, hempty⟩
        by_cases hold : ∃ t', .tried (.memoized id t') ∈ notes
        · obtain ⟨t', ht'⟩ := hold
          have hsame : t = t' := by
            rw [h.owned id t' ht']
            exact ht.elim (h.owned id t) (h'.owned id t)
          exact .inl ⟨⟨t', ht', hsame ▸ hname⟩, hempty⟩
        · rw [not_exists] at hold
          exact .inr ⟨⟨t, ht.resolve_left (hold t), hname⟩, hempty, hold⟩
      · rintro (⟨⟨t, ht, hname⟩, hempty⟩ | ⟨⟨t, ht, hname⟩, hempty, -⟩)
        · exact ⟨⟨t, .inl ht, hname⟩, hempty⟩
        · exact ⟨⟨t, .inr ht, hname⟩, hempty⟩
    have hdisjoint : Disjoint (m.firstForced name notes) (m'.firstForced name notes') := by
      refine Finset.disjoint_left.2 fun id hid hid' => ?_
      obtain ⟨⟨t, ht, -⟩, -⟩ := Memory.mem_firstForced.1 hid
      exact ((h.empty id).1 (Memory.mem_firstForced.1 hid').2).2 t ht
    rw [h'.calls, h.calls, List.countP_append, List.countP_append, hunion,
      Finset.card_union_of_disjoint hdisjoint]
    omega
  · rw [h'.empty, h.empty]
    simp only [List.mem_append, not_or, forall_and, and_assoc]
  · exact (List.mem_append.1 ht).elim (h.owned id t) (h'.owned id t)

def callsLedger (rules : Rules) (owner : Nat → Thunk) : Ledger Note where
  rel := CallsNoted rules owner
  refl _ := .quiet (fun _ => rfl) rfl fun _ _ => List.not_mem_nil
  trans := .trans

/-! ### Nodes that ask for their parser -/

/-- The parser is one that may be met, in a memory that holds such parsers only. -/
def Met (rules : Rules) (owner : Nat → Thunk) (m : Memory) (p : Parser) : Prop :=
  p.Everywhere rules (Parser.Constructed owner) ∧
    m.Holds (Parser.Everywhere rules (Parser.Constructed owner))

theorem Thunk.noted_plain {t : Thunk} (ht : t.Plain) (p : Parser) (n : Nat) (m : Memory) :
    t.noted rules p (n + 1) m =
      ⟨((Run.ofExcept (t.target rules)).exec m).1, t.called m, [.called p]⟩ := by
  have hcall := exec_call_plain ht rules n m
  cases t with
  | const q => rfl
  | rule name =>
    rw [noted, note_bind, silent, hcall]
    exact nofun
  | optimized => exact ht.elim

/-- A plain thunk that returns gives what it stands for. -/
theorem Thunk.call_plain_ok {t : Thunk} (ht : t.Plain) {n : Nat} {m m' : Memory} {q : Parser}
    (h : (t.call rules n).exec m = (.ok q, m')) : t.target rules = .ok q ∧ m' = t.called m := by
  cases n with
  | zero => cases h
  | succ n =>
    rw [exec_call_plain ht] at h
    cases htarget : t.target rules <;> rw [htarget] at h <;> cases h
    exact ⟨rfl, rfl⟩

theorem holds_called {C : Parser → Prop} {m : Memory} (hm : m.Holds C) (t : Thunk) :
    (t.called m).Holds C := by
  cases t <;> exact hm

/-- A delayed node, or a choice whose left side rejects: the thunk is called. -/
theorem asking_calls {m : Memory} {p : Parser} {t : Thunk} {opening : Note} {n : Nat}
    (hp : Met rules owner m p) (hthunk : p.thunk? = some t)
    (hasked : p.asked rules n = t.noted rules p n)
    (hcount : ∀ name, (t.isOf name).toNat =
      [opening].countP (Note.isDelayedTry name) + [opening].countP (Note.isLeftFailure name))
    (hopening : ∀ id u, opening ≠ .tried (.memoized id u)) :
    (p.asking rules n opening m).Keeps (callsLedger rules owner) (fun _ => False) m ∧
      ∀ q, (p.asking rules n opening m).outcome = .ok q →
        Met rules owner (p.asking rules n opening m).memory q := by
  have hplain : t.Plain := hp.1.here.1 t hthunk
  cases ho : (p.asked rules n m).outcome with
  | error halt =>
    rw [Parser.asking_of_error ho]
    exact ⟨fun h => (h halt rfl).elim, nofun⟩
  | ok q =>
    rw [Parser.asking_of_ok ho]
    rw [hasked] at ho ⊢
    obtain _ | n := n
    · cases ho
    rw [Thunk.noted_plain hplain] at ho ⊢
    have htarget : t.target rules = .ok q := by
      cases h : t.target rules <;> rw [h] at ho <;> cases ho
      rfl
    refine ⟨fun _ => .quiet (fun name => ?_) (Thunk.called_filled t m) ?_, fun q' hq' => ?_⟩
    · rw [Thunk.callsOf_called, hcount]
      simp [List.countP_cons, Note.isDelayedTry, Note.isLeftFailure, Nat.add_assoc]
    · simpa [eq_comm] using hopening
    · cases hq'
      exact ⟨hp.1.thunk hthunk q htarget, holds_called hp.2 t⟩

/-- A memoized node that was forced before. -/
theorem CallsNoted.kept {m : Memory} {id : Nat} {t : Thunk} {p q : Parser} (ht : t = owner id)
    (hcell : m.parserIn? (.node id) = some q) :
    CallsNoted rules owner m [.tried (.memoized id t), .given p q] m := by
  refine ⟨fun name => ?_, fun id' => ⟨fun h => ⟨h, fun t' ht' => ?_⟩, And.left⟩,
    fun id' t' ht' => ?_, fun hm => hm⟩
  · have hnone : m.firstForced name [.tried (.memoized id t), .given p q] = ∅ := by
      refine Finset.eq_empty_of_forall_notMem fun id' hid' => ?_
      obtain ⟨⟨t', ht', -⟩, hempty⟩ := Memory.mem_firstForced.1 hid'
      simp at ht'
      rw [ht'.1, hcell] at hempty
      cases hempty
    rw [hnone]
    rfl
  · simp at ht'
    rw [ht'.1, hcell] at h
    cases h
  · simp at ht'
    rw [ht'.1, ht'.2, ht]

/-- A memoized node that is reached for the first time ever. -/
theorem CallsNoted.forced {m : Memory} {id : Nat} {t : Thunk} {p q : Parser} (ht : t = owner id)
    (hcell : m.parserIn? (.node id) = none)
    (hq : q.Everywhere rules (Parser.Constructed owner)) :
    CallsNoted rules owner m [.tried (.memoized id t), .called p, .given p q]
      ((t.called m).fill (.node id) q) := by
  have hcells (cell) : (t.called m).parserIn? cell = m.parserIn? cell := by
    rw [Memory.parserIn?, Thunk.called_filled, Memory.parserIn?]
  refine ⟨fun name => ?_, fun id' => ?_, fun id' t' ht' => ?_,
    fun hm => (holds_called hm t).fill hq⟩
  · have hforced : m.firstForced name [.tried (.memoized id t), .called p, .given p q] =
        if t.isOf name then {id} else ∅ := by
      ext id'
      rw [Memory.mem_firstForced]
      split <;> simp_all
    change (t.called m).callsOf name = _
    rw [Thunk.callsOf_called, hforced]
    cases t.isOf name <;> rfl
  · by_cases he : id' = id
    · subst he
      simp [Memory.parserIn?_fill]
    · rw [Memory.parserIn?_fill_of_ne _ q (by simpa using he), hcells]
      simp [he]
  · simp at ht'
    rw [ht'.1, ht'.2, ht]

theorem asking_forces {m : Memory} {id : Nat} {t : Thunk} (n : Nat)
    (hp : Met rules owner m (.memoized id t)) :
    let ending := (Parser.memoized id t).asking rules n (.tried (.memoized id t)) m
    ending.Keeps (callsLedger rules owner) (fun _ => False) m ∧
      ∀ q, ending.outcome = .ok q → Met rules owner ending.memory q := by
  have howner : t = owner id := hp.1.here.2 id t rfl
  intro ending
  cases hcell : m.parserIn? (.node id) with
  | some q =>
    have hasked : (Parser.memoized id t).asked rules n m = ⟨.ok q, m, []⟩ := by
      simp only [Parser.asked, once, Run.exec_once_of_some _ hcell, hcell, Option.isSome_some,
        if_true]
    have hending : ending = ⟨.ok q, m, [.tried (.memoized id t), .given (.memoized id t) q]⟩ := by
      rw [show ending = _ from Parser.asking_of_ok (q := q) (by rw [hasked]), hasked]
      rfl
    rw [hending]
    refine ⟨fun _ => .kept howner hcell, fun q' hq' => ?_⟩
    cases hq'
    exact ⟨hp.2 _ _ hcell, hp.2⟩
  | none =>
    have hasked : (Parser.memoized id t).asked rules n m =
        ⟨((Run.once (.node id) (t.call rules n)).exec m).1,
          ((Run.once (.node id) (t.call rules n)).exec m).2, [.called (.memoized id t)]⟩ := by
      simp only [Parser.asked, once, hcell, Option.isSome_none, Bool.false_eq_true, if_false]
    rcases hcall : (t.call rules n).exec m with ⟨halt | q, m'⟩
    · have honce : (Run.once (.node id) (t.call rules n)).exec m = (.error halt, m') := by
        simp only [Run.once, Run.exec_bind, Run.exec_parserIn?, hcell, hcall]
      have ho : ((Parser.memoized id t).asked rules n m).outcome = .error halt := by
        rw [hasked, honce]
      rw [show ending = _ from Parser.asking_of_error ho]
      refine ⟨fun h => (h halt rfl).elim, fun q' hq' => ?_⟩
      cases hq'
    · obtain ⟨htarget, rfl⟩ := Thunk.call_plain_ok (hp.1.here.1 t rfl) hcall
      have honce := Run.exec_once_of_none hcell hcall
      have ho : ((Parser.memoized id t).asked rules n m).outcome = .ok q := by rw [hasked, honce]
      have hq := hp.1.thunk rfl q htarget
      rw [show ending = _ from Parser.asking_of_ok ho, hasked, honce]
      refine ⟨fun _ => .forced howner hcell hq, fun q' hq' => ?_⟩
      cases hq'
      exact ⟨hq, (holds_called hp.2 t).fill hq⟩

theorem calls_covers (rules : Rules) (owner : Nat → Thunk) :
    (callsLedger rules owner).Covers (fun _ => False) rules (Met rules owner) where
  mono hrel hp := ⟨hp.1, hrel.holds hp.2⟩
  child hp hq := ⟨hp.1.child hq, hp.2⟩
  next hp hf hq := ⟨hp.1.next hf hq, hp.2⟩
  write m entry := .quiet (fun _ => rfl) rfl fun _ _ => List.not_mem_nil
  tried {m p} hp h := by
    cases p with
    | delayed | memoized => cases h
    | _ => exact .quiet (fun _ => rfl) rfl (by simp)
  heard {m p k r} hp h := by
    refine .quiet (fun name => ?_) rfl (by simp)
    have hnone : Note.isLeftFailure name (.heard p k r) = false := by
      unfold Note.isLeftFailure
      split
      · rename_i heq
        cases heq
        cases h
      · rfl
    simp [Note.isDelayedTry, hnone]
  asks {m p opening} n hp hopening hopens := by
    rcases hopening with rfl | ⟨r, rfl⟩
    · cases p with
      | delayed id t =>
        exact asking_calls hp rfl rfl (fun name => by
          cases h : t.isOf name <;> simp [Note.isDelayedTry, Note.isLeftFailure, h]) nofun
      | memoized id t => exact asking_forces n hp
      | _ => cases hopens
    · cases p with
      | orElse id left right =>
        cases r with
        | accept => cases hopens
        | reject why start =>
          exact asking_calls hp rfl rfl (fun name => by
            cases h : right.isOf name <;> simp [Note.isDelayedTry, Note.isLeftFailure, h]) nofun
      | _ => cases hopens

end

/-! ### Printing -/

mutual

/-- The parser with other thunks. -/
def Parser.rethunk (other : Thunk → Thunk) : Parser → Parser
  | .map id source fn => .map id (source.rethunk other) fn
  | .bind id source label next => .bind id (source.rethunk other) label next
  | .product id left right => .product id (left.rethunk other) (right.rethunk other)
  | .both id left right combine => .both id (left.rethunk other) (right.rethunk other) combine
  | .orElse id left right => .orElse id (left.rethunk other) (other right)
  | .many id source neutral combine => .many id (source.rethunk other) neutral combine
  | .manyBetween id source minimum maximum neutral combine =>
    .manyBetween id (source.rethunk other) minimum maximum neutral combine
  | .collect id source minimum accumulator =>
    .collect id (source.rethunk other) minimum accumulator
  | .delayed id thunk => .delayed id (other thunk)
  | .memoized id thunk => .memoized id (other thunk)
  | .bare id tag payload children => .bare id tag payload (Parser.rethunkAll other children)
  | p => p

def Parser.rethunkAll (other : Thunk → Thunk) : List Parser → List Parser
  | [] => []
  | p :: ps => p.rethunk other :: Parser.rethunkAll other ps

end

mutual

theorem Parser.outline_rethunk (other : Thunk → Thunk) :
    ∀ (p : Parser) (depth : Nat), (p.rethunk other).outline depth = p.outline depth
  | .map _ source _, depth | .bind _ source _ _, depth | .many _ source _ _, depth
  | .manyBetween _ source _ _ _ _, depth | .collect _ source _ _, depth
  | .orElse _ source _, depth => by
    rw [rethunk]
    unfold outline
    simp only [source.outline_rethunk other]
    rfl
  | .product _ left right, depth | .both _ left right _, depth => by
    rw [rethunk]
    unfold outline
    simp only [left.outline_rethunk other, right.outline_rethunk other]
    rfl
  | .bare _ _ _ children, depth => by
    rw [rethunk]
    unfold outline
    simp only [outlineAll_rethunk other children]
    rfl
  | .literal .., _ | .char .., _ | .charWhere .., _ | .constant .., _ | .identity .., _
  | .fail .., _ | .delayed .., _ | .memoized .., _ | .loop .., _ => rfl

theorem Parser.outlineAll_rethunk (other : Thunk → Thunk) :
    ∀ (ps : List Parser) (depth : Nat),
      outlineAll (rethunkAll other ps) depth = outlineAll ps depth
  | [], _ => rfl
  | p :: ps, depth => by
    simp only [rethunkAll, outlineAll, p.outline_rethunk other, outlineAll_rethunk other ps]

end

mutual

theorem Parser.shown_rethunk {other : Thunk → Thunk} (h : ∀ t, (other t).label = t.label) :
    ∀ p : Parser, (p.rethunk other).shown = p.shown
  | .map _ source _ | .bind _ source _ _ | .many _ source _ _ | .manyBetween _ source _ _ _ _
  | .collect _ source _ _ => by
    rw [rethunk]
    unfold shown
    rw [source.shown_rethunk h]
  | .orElse _ left right => by
    rw [rethunk]
    unfold shown
    rw [left.shown_rethunk h, h]
  | .product _ left right | .both _ left right _ => by
    rw [rethunk]
    unfold shown
    rw [left.shown_rethunk h, right.shown_rethunk h]
  | .bare _ _ _ children => by
    rw [rethunk]
    unfold shown
    rw [shownAll_rethunk h children]
  | .delayed _ thunk | .memoized _ thunk => by
    rw [rethunk]
    unfold shown
    rw [h]
  | .literal .. | .char .. | .charWhere .. | .constant .. | .identity .. | .fail ..
  | .loop .. => rfl

theorem Parser.shownAll_rethunk {other : Thunk → Thunk} (h : ∀ t, (other t).label = t.label) :
    ∀ ps : List Parser, shownAll (rethunkAll other ps) = shownAll ps
  | [] => rfl
  | p :: ps => by rw [rethunkAll, shownAll, p.shown_rethunk h, shownAll_rethunk h ps, shownAll]

end

/-! ### Calls of a run -/

/-- The calls of a rule's thunk during a run with a result are counted by the tries of delayed
nodes, the failures of left sides, and the memoized nodes that are reached for the first time ever.
Building calls no thunk, and neither does printing, which does not depend on what thunks are. -/
theorem evaluate_calls_when_needed {rules : Rules} {owner : Nat → Thunk} {p : Parser}
    {m m' : Memory} {depth : Nat} {input : String} {trace : Bool} {result : Result}
    (hp : p.Everywhere rules (Parser.Constructed owner))
    (hm : m.Holds (Parser.Everywhere rules (Parser.Constructed owner)))
    (h : (evaluate rules depth p input trace).exec m = (.ok result, m')) :
    (∃ notes, evaluateNoted rules depth p input trace m = ⟨.ok result, m', notes⟩ ∧
      ∀ name, m'.callsOf name = m.callsOf name + notes.countP (Note.isDelayedTry name) +
        notes.countP (Note.isLeftFailure name) + (m.firstForced name notes).card) ∧
    (∀ (α : Type) (b : Build α) (m₁ : Memory), ((Run.build b).exec m₁).2.calls = m₁.calls) ∧
    ∀ (other : Thunk → Thunk) (q : Parser) (indent : String),
      (q.rethunk other).dump indent = q.dump indent ∧
      ((∀ t, (other t).label = t.label) → (q.rethunk other).shown = q.shown) := by
  refine ⟨?_, fun _ _ _ => rfl, fun other q indent => ⟨?_, q.shown_rethunk⟩⟩
  · rw [← erase_evaluateNoted, exec_erase] at h
    have hkeeps := (calls_covers rules owner).evaluate depth input trace ⟨hp, hm⟩
    rcases hending : evaluateNoted rules depth p input trace m with ⟨outcome, m₁, notes⟩
    rw [hending] at h hkeeps
    cases h
    exact ⟨notes, rfl, (hkeeps nofun).calls⟩
  · simp only [Parser.dump, q.outline_rethunk other]

def item : Parser := .char 0 'b'

/-- An item, then pairs of an item and an `a` or an item, each item behind another kind of node. -/
def spelled : Parser :=
  .product 7 (.delayed 1 (.rule "item")) (.many 6 (.both 5 (.memoized 2 (.rule "item"))
    (.orElse 4 (.char 3 'a') (.rule "item")) .add) (.text "") .add)

def spelledNodes : List Parser :=
  [spelled, .delayed 1 (.rule "item"), .many 6 (.both 5 (.memoized 2 (.rule "item"))
    (.orElse 4 (.char 3 'a') (.rule "item")) .add) (.text "") .add,
    .both 5 (.memoized 2 (.rule "item")) (.orElse 4 (.char 3 'a') (.rule "item")) .add,
    .memoized 2 (.rule "item"), .orElse 4 (.char 3 'a') (.rule "item"), .char 3 'a', item]

/-- The thunk is called for the delayed node, for the one left side that rejects, and for the first
of three tries of the memoized node. -/
theorem spelled_calls :
    ∃ result m' notes, (evaluate [("item", item)] 9 spelled "bbabb" false).exec {} =
        (.ok result, m') ∧
      evaluateNoted [("item", item)] 9 spelled "bbabb" false {} = ⟨.ok result, m', notes⟩ ∧
      m'.callsOf "item" = 3 ∧ notes.countP (Note.isDelayedTry "item") = 1 ∧
      notes.countP (Note.isLeftFailure "item") = 1 ∧
      (Memory.firstForced {} "item" notes).card = 1 := by
  have hspelled : spelled.Everywhere [("item", item)]
      (Parser.Constructed fun _ => .rule "item") := by
    refine .of_closed spelledNodes (.head _) fun a ha => ?_
    simp only [spelledNodes, List.mem_cons, List.not_mem_nil, or_false] at ha
    rcases ha with rfl | rfl | rfl | rfl | rfl | rfl | rfl | rfl <;>
      simp [spelled, item, spelledNodes, Parser.Constructed, Parser.next?, Parser.steps,
        Parser.children, Parser.thunk?, Thunk.target, Except.toOption, Thunk.Plain]
  have hrun : ((evaluate [("item", item)] 9 spelled "bbabb" false).exec {}) =
    (.ok ⟨"bbabb", .accept (.tuple [.text "b", .text "babb"]) 5⟩,
      { filled := [(.node 2, item)], calls := [("item", 3)] }) := rfl
  obtain ⟨⟨notes, hnoted, hcalls⟩, -⟩ :=
    evaluate_calls_when_needed hspelled (fun _ _ h => by cases h) hrun
  have hnotes : (evaluateNoted [("item", item)] 9 spelled "bbabb" false {}).notes = notes :=
    congrArg Ending.notes hnoted
  have hdelayed : notes.countP (Note.isDelayedTry "item") = 1 := by rw [← hnotes]; rfl
  have hfailures : notes.countP (Note.isLeftFailure "item") = 1 := by rw [← hnotes]; rfl
  have hsum := hcalls "item"
  rw [hdelayed, hfailures] at hsum
  change 3 = 0 + 1 + 1 + _ at hsum
  exact ⟨_, _, notes, hrun, hnoted, rfl, hdelayed, hfailures, by omega⟩

end ParserAlgebra
