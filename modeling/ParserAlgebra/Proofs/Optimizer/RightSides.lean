import ParserAlgebra.Proofs.Optimizer.OwnCalls
import ParserAlgebra.Proofs.Script.Faults

/-!
# Right sides are rewritten once

A choice that optimizing builds keeps its right side in a cell of its own. When the right side is
first asked for, the original thunk is called and what it gives is optimized; this cannot fail, and
the cell keeps the outcome. So over any sequence of runs each cell has its thunk called at most
once, only after a left side has rejected, and gives the same parser every time. What is noted of
calls accounts for the calls of every rule's thunk.
-/

namespace ParserAlgebra

open Noted

/-- A choice with this cell calls the original thunk. -/
def Note.callsFor (cell : Nat) : Note → Bool
  | .called p => p.cell? == some cell
  | _ => false

/-! ### The parsers that are met -/

/-- A parser that is reached, or that is made of one when it was optimized. -/
def Known (rules : Rules) (root : Parser) (low high : Nat) (p : Parser) : Prop :=
  Reaches rules root p ∨ ∃ r, Ready rules root r ∧ Condensed rules low high r p

section

variable {rules : Rules} {root p q : Parser} {low high high' : Nat}

theorem Known.mono (h : Known rules root low high p) (hle : high ≤ high') :
    Known rules root low high' p :=
  h.imp_right fun ⟨r, hr, hp⟩ => ⟨r, hr, hp.mono le_rfl hle⟩

theorem Known.child (h : Known rules root low high p) (hq : q ∈ p.children) :
    Known rules root low high q := by
  rcases h with h | ⟨r, hr, hp⟩
  · exact .inl (h.tail (.child hq))
  · cases hp with
    | atom _ hc => rw [hc] at hq; cases hq
    | chain => cases hq
    | map h | bind h | many h | manyBetween h | collect h | choice _ _ h =>
      obtain rfl := List.mem_singleton.1 hq
      exact .inr ⟨_, hr.child (.head _), h⟩
    | product h h' | both h h' =>
      rcases List.mem_pair.1 hq with rfl | rfl
      · exact .inr ⟨_, hr.child (.head _), h⟩
      · exact .inr ⟨_, hr.child (.tail _ (.head _)), h'⟩

theorem Known.next {f : Value → Except Fault Parser} {v : Value}
    (h : Known rules root low high p) (hf : p.next? = some f) (hq : f v = .ok q) :
    Known rules root low high q := by
  rcases h with h | ⟨r, hr, hp⟩
  · exact .inl (h.tail (.next hf hq))
  · cases hp with
    | atom => exact .inl (hr.reaches.tail (.next hf hq))
    | bind => cases hf; exact .inl (hr.reaches.tail (.next rfl hq))
    | _ => cases hf

/-- A node with a thunk is reached, or is a choice that optimizing built. -/
theorem Known.thunk {t : Thunk} (h : Known rules root low high p) (ht : p.thunk? = some t) :
    Reaches rules root p ∨ ∃ id left right cell, p = .orElse id left (.optimized cell right) ∧
      low ≤ cell ∧ cell < high ∧
        ∃ id' left', Ready rules root (.orElse id' left' right) := by
  rcases h with h | ⟨r, hr, hp⟩
  · exact .inl h
  · cases hp with
    | atom => exact .inl hr.reaches
    | choice _ hcell => exact .inr ⟨_, _, _, _, rfl, hcell.1, hcell.2, _, _, hr⟩
    | _ => cases ht

end

/-- A memory since the first optimization, before which no identity from `low` on was in use. -/
structure Memory.Since (rules : Rules) (root : Parser) (low : Nat) (m : Memory) : Prop where
  settled : m.Settled rules root
  begun : low ≤ m.nextId
  cells : ∀ c q, low ≤ c → m.parserIn? (.right c) = some q → Known rules root low m.nextId q

/-- The parser may be met in the memory. -/
def Allowed (rules : Rules) (root : Parser) (low : Nat) (m : Memory) (p : Parser) : Prop :=
  m.Since rules root low ∧ Known rules root low m.nextId p

/-! ### The ledger of right sides -/

/-- What the notes tell of the cells between two memories. -/
structure RightsNoted (rules : Rules) (root : Parser) (low : Nat) (m : Memory) (notes : List Note)
    (m' : Memory) : Prop where
  since : m.Since rules root low → m'.Since rules root low
  nextId : m.nextId ≤ m'.nextId
  kept : ∀ c q, m.parserIn? (.right c) = some q → m'.parserIn? (.right c) = some q
  once : ∀ c, notes.countP (Note.callsFor c) ≤ 1
  fills : ∀ c, 0 < notes.countP (Note.callsFor c) →
    m.parserIn? (.right c) = none ∧ m'.parserIn? (.right c) ≠ none
  given : ∀ p q c, .given p q ∈ notes → p.cell? = some c → m'.parserIn? (.right c) = some q
  failed : ∀ front p back c, notes = front ++ .called p :: back → p.cell? = some c →
    ∃ why start, .heard p 0 (.reject why start) ∈ front
  owned : ∃ rewritten, OwnCalls rules m notes rewritten m'

section

variable {rules : Rules} {root : Parser} {low : Nat} {m m' m'' : Memory} {notes notes' : List Note}

theorem RightsNoted.trans (h : RightsNoted rules root low m notes m')
    (h' : RightsNoted rules root low m' notes' m'') :
    RightsNoted rules root low m (notes ++ notes') m'' := by
  refine ⟨fun hm => h'.since (h.since hm), h.nextId.trans h'.nextId,
    fun c q hq => h'.kept c q (h.kept c q hq), fun c => ?_, fun c hpos => ?_,
    fun p q c hmem hc => ?_, fun front p back c hsplit hc => ?_, ?_⟩
  · rw [List.countP_append]
    have hfirst := h.once c
    have hsecond := h'.once c
    by_contra hmany
    exact (h.fills c (by omega)).2 (h'.fills c (by omega)).1
  · rw [List.countP_append] at hpos
    rcases Nat.eq_zero_or_pos (notes.countP (Note.callsFor c)) with hzero | hfirst
    · obtain ⟨hempty, hfull⟩ := h'.fills c (by omega)
      refine ⟨Option.eq_none_iff_forall_ne_some.2 fun q hq => ?_, hfull⟩
      rw [h.kept c q hq] at hempty
      cases hempty
    · obtain ⟨hempty, hfull⟩ := h.fills c hfirst
      obtain ⟨q, hq⟩ := Option.ne_none_iff_exists'.1 hfull
      exact ⟨hempty, by rw [h'.kept c q hq]; nofun⟩
  · rcases List.mem_append.1 hmem with hmem | hmem
    · exact h'.kept c q (h.given p q c hmem hc)
    · exact h'.given p q c hmem hc
  · rcases List.append_eq_append_iff.1 hsplit with ⟨front', rfl, hback⟩ | ⟨back', hfront, hback⟩
    · obtain ⟨why, start, hmem⟩ := h'.failed front' p back c hback hc
      exact ⟨why, start, List.mem_append_right _ hmem⟩
    · rcases List.cons_eq_append_iff.1 hback with ⟨rfl, hback⟩ | ⟨back'', rfl, -⟩
      · obtain ⟨why, start, hmem⟩ := h'.failed [] p back c hback.symm hc
        cases hmem
      · exact h.failed front p back'' c hfront hc
  · obtain ⟨rewritten, howned⟩ := h.owned
    obtain ⟨rewritten', howned'⟩ := h'.owned
    exact ⟨rewritten ++ rewritten', howned.append howned'⟩

/-- Notes that no choice with a cell makes. -/
theorem RightsNoted.quiet (hm' : m.Settled rules root → m'.Settled rules root) (hnear : m.Near m')
    (hcalled : ∀ p, .called p ∈ notes → p.cell? = none)
    (hgiven : ∀ p q, .given p q ∈ notes → p.cell? = none)
    (hcalls : ∀ name, m'.callsOf name = m.callsOf name + notes.countP (Note.callsRule name)) :
    RightsNoted rules root low m notes m' := by
  have hzero (c) : notes.countP (Note.callsFor c) = 0 := by
    refine List.countP_eq_zero.2 fun entry hentry h => ?_
    unfold Note.callsFor at h
    split at h
    · rw [hcalled _ hentry] at h
      cases h
    · cases h
  refine ⟨fun hm => ⟨hm' hm.settled, hnear.nextId ▸ hm.begun, fun c q hc hq => ?_⟩,
    hnear.nextId.ge, fun c q hq => ?_, fun c => (hzero c).trans_le (Nat.zero_le 1),
    fun c hpos => absurd (hzero c) hpos.ne', fun p q c hmem hc => ?_,
    fun front p back c hsplit hc => ?_, [], .of_quiet hcalled hcalls⟩
  · rw [hnear.right] at hq
    rw [hnear.nextId]
    exact hm.cells c q hc hq
  · rw [hnear.right, hq]
  · rw [hgiven p q hmem] at hc
    cases hc
  · rw [hcalled p (by rw [hsplit]; simp)] at hc
    cases hc

def rightsLedger (rules : Rules) (root : Parser) (low : Nat) : Ledger Note where
  rel := RightsNoted rules root low
  refl _ := .quiet id ⟨rfl, fun _ => rfl⟩ (fun _ h => nomatch h) (fun _ _ h => nomatch h)
    fun _ => rfl
  trans := .trans

/-- The cell holds the parser that the choice asks for. -/
theorem RightsNoted.again {p q : Parser} {c : Nat} {r : Reply} (hc : p.cell? = some c)
    (hq : m.parserIn? (.right c) = some q) :
    RightsNoted rules root low m [.heard p 0 r, .given p q] m := by
  refine ⟨id, le_rfl, fun _ _ => id, fun c' => Nat.zero_le 1, fun c' hpos => ?_,
    fun p' q' c' hmem hc' => ?_, fun front p' back c' hsplit _ => ?_, [],
    .of_silent (by simp) rfl⟩
  · cases hpos
  · simp only [List.mem_cons, reduceCtorEq, Note.given.injEq, List.not_mem_nil, or_false,
      false_or] at hmem
    obtain ⟨rfl, rfl⟩ := hmem
    obtain rfl : c = c' := by simpa [hc] using hc'
    exact hq
  · have hmem : Note.called p' ∈ front ++ .called p' :: back := by simp
    rw [← hsplit] at hmem
    simp at hmem

/-- The cell is empty, and filled with the parser that the choice asks for. -/
theorem RightsNoted.first {p q : Parser} {c : Nat} {why : Reason} {start : Nat}
    (hc : p.cell? = some c) (hempty : m.parserIn? (.right c) = none)
    (hfull : m'.parserIn? (.right c) = some q) (hnext : m.nextId ≤ m'.nextId)
    (hothers : ∀ c', c' ≠ c → m'.parserIn? (.right c') = m.parserIn? (.right c'))
    (hsince : m.Since rules root low → m'.Since rules root low)
    (howned : ∃ rewritten,
      OwnCalls rules m [.heard p 0 (.reject why start), .called p, .given p q] rewritten m') :
    RightsNoted rules root low m [.heard p 0 (.reject why start), .called p, .given p q] m' := by
  have hcount (c') : [Note.heard p 0 (.reject why start), .called p, .given p q].countP
      (Note.callsFor c') = if c = c' then 1 else 0 := by
    simp [List.countP_cons, Note.callsFor, hc]
  refine ⟨hsince, hnext, fun c' q' hq' => ?_, fun c' => ?_, fun c' hpos => ?_,
    fun p' q' c' hmem hc' => ?_, fun front p' back c' hsplit hc' => ?_, howned⟩
  · have hne : c' ≠ c := by
      rintro rfl
      rw [hempty] at hq'
      cases hq'
    rw [hothers c' hne, hq']
  · rw [hcount]
    split <;> omega
  · rw [hcount] at hpos
    split at hpos
    · subst c'
      exact ⟨hempty, by rw [hfull]; nofun⟩
    · cases hpos
  · simp only [List.mem_cons, reduceCtorEq, Note.given.injEq, List.not_mem_nil, or_false,
      false_or] at hmem
    obtain ⟨rfl, rfl⟩ := hmem
    obtain rfl : c = c' := by simpa [hc] using hc'
    exact hfull
  · rcases front with _ | ⟨entry, _ | ⟨entry', front⟩⟩
    · simp at hsplit
    · simp only [List.cons_append, List.nil_append, List.cons.injEq, Note.called.injEq] at hsplit
      obtain ⟨rfl, rfl, -⟩ := hsplit
      exact ⟨why, start, .head _⟩
    · have hmem : Note.called p' ∈ front ++ .called p' :: back := by simp
      simp only [List.cons_append, List.cons.injEq] at hsplit
      rw [← hsplit.2.2] at hmem
      simp at hmem

/-! ### Nodes that ask for their parser -/

theorem call_near {t : Thunk} (ht : t.Plain) (n : Nat) (m : Memory) :
    m.Near ((t.call rules n).exec m).2 := by
  cases n with
  | zero => exact ⟨rfl, fun _ => rfl⟩
  | succ n =>
    rw [Thunk.exec_call_plain ht]
    refine ⟨t.called_nextId m, fun c => ?_⟩
    rw [Memory.parserIn?, Thunk.called_filled, Memory.parserIn?]

theorem once_near {id : Nat} {x : Run Parser} (h : m.Near (x.exec m).2) :
    m.Near ((Run.once (.node id) x).exec m).2 := by
  cases hc : m.parserIn? (.node id) with
  | some p =>
    rw [Run.exec_once_of_some x hc]
    exact ⟨rfl, fun _ => rfl⟩
  | none =>
    rcases hx : x.exec m with ⟨halt | p, m'⟩ <;> rw [hx] at h
    · simp only [Run.once, Run.exec_bind, Run.exec_parserIn?, hc, hx]
      exact h
    · rw [Run.exec_once_of_none hc hx]
      refine ⟨h.nextId, fun c => ?_⟩
      rw [Memory.parserIn?_fill_of_ne m' p Cell.noConfusion]
      exact h.right c

/-- A node below the root that asks for its parser fills no cell of a choice. -/
theorem asked_reached (hroot : root.Made rules) {p : Parser} {t : Thunk} (hp : Reaches rules root p)
    (ht : p.thunk? = some t) (n : Nat) (hm : m.Settled rules root) :
    (p.asked rules n m).memory.Settled rules root ∧ m.Near (p.asked rules n m).memory ∧
      ∀ q, (p.asked rules n m).outcome = .ok q → Reaches rules root q := by
  have hplain : t.Plain := hroot.plain hp ht
  have hcall : t.noted rules p n m = ⟨((t.call rules n).exec m).1, ((t.call rules n).exec m).2,
      (t.noted rules p n m).notes⟩ := by
    rw [← t.erase_noted rules p n, exec_erase]
  obtain ⟨hsettled, -, htarget⟩ := call_settles hplain n hm
  cases p with
  | orElse id left right | delayed id thunk =>
    cases ht
    rw [Parser.asked, hcall]
    exact ⟨hsettled, call_near hplain n m, fun q hq => hp.tail (.thunk rfl (htarget q hq))⟩
  | memoized id thunk =>
    cases ht
    obtain ⟨hsettled, -, htarget⟩ := once_settles hroot hp n hm
    exact ⟨hsettled, once_near (call_near hplain n m),
      fun q hq => hp.tail (.thunk rfl (htarget q hq))⟩
  | _ => cases ht

theorem asked_notes (p : Parser) (n : Nat) (m : Memory) :
    ∀ entry ∈ (p.asked rules n m).notes, entry = .called p := by
  have hnoted (t : Thunk) : ∀ entry ∈ (t.noted rules p n m).notes, entry = .called p := by
    cases n with
    | zero => exact fun _ h => absurd h List.not_mem_nil
    | succ n =>
      cases t with
      | const | rule => simp [Thunk.noted, note_bind, silent]
      | optimized =>
        rw [Thunk.noted, once]
        split <;> simp
  cases p with
  | orElse | delayed => exact hnoted _
  | memoized =>
    rw [Parser.asked, once]
    split <;> simp
  | _ => exact fun _ h => absurd h List.not_mem_nil

/-- A halt that is no mere lack of depth. -/
def Halt.isFault (h : Halt) : Prop := h ≠ .exhausted

/-- What is noted when a node below the root asks for its parser tells nothing of the cells of
choices, unless depth was lacking. -/
theorem asked_rights (hroot : root.Made rules) {p : Parser} {t : Thunk} {opening : Note}
    {rest : List Note} (hp : Reaches rules root p) (ht : p.thunk? = some t) {n : Nat}
    (hopening : opening = .tried p ∨ ∃ r, opening = .heard p 0 r)
    (hrest : ∀ entry ∈ rest, ∃ q, entry = .given p q) (hm : m.Settled rules root)
    (hends : (p.asked rules n m).outcome ≠ .error .exhausted) :
    RightsNoted rules root low m (opening :: ((p.asked rules n m).notes ++ rest))
      (p.asked rules n m).memory := by
  obtain ⟨hsettled, hnear, -⟩ := asked_reached hroot hp ht n hm
  have hplain : t.Plain := hroot.plain hp ht
  have hcell : p.cell? = none := Parser.cell?_eq_none ht hplain
  have hall : ∀ entry ∈ opening :: ((p.asked rules n m).notes ++ rest),
      entry = opening ∨ entry = .called p ∨ ∃ q, entry = .given p q := fun entry h => by
    rcases List.mem_cons.1 h with h | h
    · exact .inl h
    · exact .inr ((List.mem_append.1 h).imp (asked_notes p n m entry) (hrest entry))
  refine .quiet (fun _ => hsettled) hnear (fun p' h => ?_) (fun p' q h => ?_) fun name => ?_
  · rcases hall _ h with he | he | ⟨q, he⟩
    · rcases hopening with rfl | ⟨r, rfl⟩ <;> cases he
    · cases he
      exact hcell
    · cases he
  · rcases hall _ h with he | he | ⟨q, he⟩
    · rcases hopening with rfl | ⟨r, rfl⟩ <;> cases he
    · cases he
    · cases he
      exact hcell
  · -- Neither what comes before the call nor what comes after it is a call.
    have hfirst : Note.callsRule name opening = false := by
      rcases hopening with rfl | ⟨r, rfl⟩ <;> rfl
    have hlast : rest.countP (Note.callsRule name) = 0 := by
      refine List.countP_eq_zero.2 fun entry h => ?_
      obtain ⟨q, rfl⟩ := hrest entry h
      exact Bool.false_ne_true
    rw [asked_calls ht hplain hends, List.countP_cons, List.countP_append, hfirst, hlast]
    rfl

theorem Reaches.asking (hroot : root.Made rules) {p : Parser} {t : Thunk} {opening : Note}
    (hp : Reaches rules root p) (ht : p.thunk? = some t) (n : Nat)
    (hopening : opening = .tried p ∨ ∃ r, opening = .heard p 0 r) (hm : m.Since rules root low) :
    (p.asking rules n opening m).Keeps (rightsLedger rules root low) Halt.isFault m ∧
      ∀ q, (p.asking rules n opening m).outcome = .ok q →
        Allowed rules root low (p.asking rules n opening m).memory q := by
  cases ho : (p.asked rules n m).outcome with
  | error halt =>
    rw [Parser.asking_of_error ho]
    refine ⟨fun hfault => ?_, nofun⟩
    have hends : (p.asked rules n m).outcome ≠ .error .exhausted := fun he =>
      hfault halt rfl (Except.error.inj (ho.symm.trans he))
    have hrel : RightsNoted rules root low m _ _ :=
      asked_rights hroot hp ht hopening (fun _ h => absurd h List.not_mem_nil) hm.settled hends
    rwa [List.append_nil] at hrel
  | ok q =>
    rw [Parser.asking_of_ok ho]
    have hends : (p.asked rules n m).outcome ≠ .error .exhausted := by rw [ho]; nofun
    have hrel : RightsNoted rules root low m _ _ := asked_rights hroot hp ht hopening
      (fun _ h => ⟨q, List.mem_singleton.1 h⟩) hm.settled hends
    obtain ⟨-, -, hgives⟩ := asked_reached hroot hp ht n hm.settled
    refine ⟨fun _ => hrel, fun q' hq' => ?_⟩
    cases hq'
    exact ⟨hrel.since hm, .inl (hgives q ho)⟩

/-- A right side that was put off is rewritten when it is first asked for, unless there is not depth
enough: this does not fail, and fills its cell and no other. -/
theorem right_rewritten (hroot : root.Made rules) {left : Parser} {id cell : Nat} {right : Thunk}
    (hready : Ready rules root (.orElse id left right)) (hhigh : cell < m.nextId)
    (hm : m.Since rules root low) (hempty : m.parserIn? (.right cell) = none) {n : Nat}
    (hends : (((Thunk.optimized cell right).call rules n).exec m).1 ≠ .error .exhausted) :
    ∃ q m', ((Thunk.optimized cell right).call rules n).exec m = (.ok q, m') ∧
      m.nextId ≤ m'.nextId ∧ m'.parserIn? (.right cell) = some q ∧
      (∀ c, c ≠ cell → m'.parserIn? (.right c) = m.parserIn? (.right c)) ∧
      Allowed rules root low m' q := by
  obtain ⟨r, hr⟩ := hready.defined id left right .refl
  have hrest : Ready rules root r := hready.spreads (.right hr)
  obtain ⟨q, m', hcondensed, hm', hnext, hfull, hothers, k, hcall⟩ :=
    right_ends hroot (hroot.plain hready.reaches rfl) hr hrest.optimizable hm.settled hhigh hempty
  have hknown : Known rules root low m'.nextId q :=
    .inr ⟨r, hrest, hcondensed.mono hm.begun le_rfl⟩
  refine ⟨q, m', ?_, hnext, hfull, hothers, ⟨hm', hm.begun.trans hnext, fun c q' hle hq' => ?_⟩,
    hknown⟩
  · -- With enough depth the call ends in one way only.
    have hextends := Run.Extends.of_le (f := fun j => (Thunk.optimized cell right).call rules j)
      (fun j => call_extends rules j _) (Nat.le_max_left n k)
    rw [← hextends m hends, hcall _ (Nat.le_max_right n k)]
  · by_cases he : c = cell
    · subst he
      rw [hfull] at hq'
      cases hq'
      exact hknown
    · rw [hothers c he] at hq'
      exact (hm.cells c q' hle hq').mono hnext

/-- A choice that optimizing built asks for its right side. -/
theorem built_asking (hroot : root.Made rules) {p left left' : Parser} {id id' cell : Nat}
    {right : Thunk} {why : Reason} {start : Nat} (hp : p = .orElse id left (.optimized cell right))
    (hready : Ready rules root (.orElse id' left' right)) (hlow : low ≤ cell)
    (hhigh : cell < m.nextId) (n : Nat) (hm : m.Since rules root low) :
    let ending := p.asking rules n (.heard p 0 (.reject why start)) m
    ending.Keeps (rightsLedger rules root low) Halt.isFault m ∧
      ∀ q, ending.outcome = .ok q → Allowed rules root low ending.memory q := by
  intro ending
  have hcell : p.cell? = some cell := by rw [hp]; rfl
  have hshort (ho : (p.asked rules n m).outcome = .error .exhausted) :
      ending.Keeps (rightsLedger rules root low) Halt.isFault m ∧
        ∀ q, ending.outcome = .ok q → Allowed rules root low ending.memory q := by
    rw [show ending = _ from Parser.asking_of_error ho]
    exact ⟨fun h => (h .exhausted rfl rfl).elim, nofun⟩
  obtain _ | n := n
  · exact hshort (by rw [hp]; rfl)
  let call := (Thunk.optimized cell right).call rules (n + 1)
  have hasked : p.asked rules (n + 1) m = ⟨(call.exec m).1, (call.exec m).2,
      if (m.parserIn? (.right cell)).isSome then [] else [.called p]⟩ := by rw [hp]; rfl
  cases hc : m.parserIn? (.right cell) with
  | some q =>
    have hcall : call.exec m = (.ok q, m) := Run.exec_once_of_some _ hc
    rw [hc, hcall] at hasked
    have hending : ending = ⟨.ok q, m, [.heard p 0 (.reject why start), .given p q]⟩ := by
      rw [show ending = _ from Parser.asking_of_ok (q := q) (by rw [hasked]), hasked]
      rfl
    rw [hending]
    refine ⟨fun _ => .again hcell hc, fun q' hq' => ?_⟩
    cases hq'
    exact ⟨hm, hm.cells cell q hlow hc⟩
  | none =>
    by_cases hexhausted : (call.exec m).1 = .error .exhausted
    · exact hshort (by rw [hasked, hexhausted])
    · obtain ⟨q, m', hcall, hnext, hfull, hothers, hallowed⟩ :=
        right_rewritten hroot hready hhigh hm hc hexhausted
      rw [hc, show call.exec m = _ from hcall] at hasked
      have hending : ending =
          ⟨.ok q, m', [.heard p 0 (.reject why start), .called p, .given p q]⟩ := by
        rw [show ending = _ from Parser.asking_of_ok (q := q) (by rw [hasked]), hasked]
        rfl
      have howned := rewritten_calls id left (hroot.plain hready.reaches rfl)
        (fun r hr => hroot.of_reaches (hready.spreads (.right hr)).reaches) hc hcall
        (.reject why start)
      rw [← hp] at howned
      obtain ⟨collections, howned⟩ := howned
      rw [hending]
      refine ⟨fun _ => .first hcell hc hfull hnext hothers (fun _ => hallowed.1) ⟨_, howned⟩,
        fun q' hq' => ?_⟩
      cases hq'
      exact hallowed

theorem rights_covers (hroot : root.Made rules) (low : Nat) :
    (rightsLedger rules root low).Covers Halt.isFault rules (Allowed rules root low) where
  mono hrel hp := ⟨hrel.since hp.1, hp.2.mono hrel.nextId⟩
  child hp hq := ⟨hp.1, hp.2.child hq⟩
  next hp hf hq := ⟨hp.1, hp.2.next hf hq⟩
  write m entry := .quiet (fun hm => ⟨hm.node, hm.right⟩) ⟨rfl, fun _ => rfl⟩
    (fun _ h => nomatch h) (fun _ _ h => nomatch h) fun _ => rfl
  tried {m p} _ _ := .quiet id ⟨rfl, fun _ => rfl⟩ (by simp) (by simp) (by simp)
  heard {m p k r} _ _ := .quiet id ⟨rfl, fun _ => rfl⟩ (by simp) (by simp) (by simp)
  asks {m p opening} n hp hopening hopens := by
    obtain ⟨t, ht⟩ : ∃ t, p.thunk? = some t := by
      rcases hopening with rfl | ⟨r, rfl⟩ <;> cases p <;> first | exact ⟨_, rfl⟩ | cases hopens
    rcases hp.2.thunk ht with hreach | ⟨id, left, right, cell, rfl, hlow, hhigh, id', left', hready⟩
    · exact hreach.asking hroot ht n hopening hp.1
    · rcases hopening with rfl | ⟨r, rfl⟩
      · cases hopens
      · cases r with
        | accept => cases hopens
        | reject why start => exact built_asking hroot rfl hready hlow hhigh n hp.1

end

/-! ### Sequences of evaluations -/

/-- How an evaluation is asked for: how deep it may nest, over which text, and whether traced. -/
structure Evaluation where
  depth : Nat
  input : String
  trace : Bool

/-- What evaluations of a parser end with, one after the other, and the memory that they leave. -/
def evaluations (rules : Rules) (q : Parser) :
    List Evaluation → Memory → List (Except Halt Result) × Memory
  | [], m => ([], m)
  | e :: later, m =>
    let ended := (evaluate rules e.depth q e.input e.trace).exec m
    let others := evaluations rules q later ended.2
    (ended.1 :: others.1, others.2)

/-- What is noted in evaluations of a parser, one after the other. -/
def evaluationNotes (rules : Rules) (q : Parser) : List Evaluation → Memory → List Note
  | [], _ => []
  | e :: later, m =>
    let ended := evaluateNoted rules e.depth q e.input e.trace m
    ended.notes ++ evaluationNotes rules q later ended.memory

section

variable {rules : Rules} {root p q : Parser} {low : Nat} {m m₁ : Memory}

theorem evaluations_rights (hroot : root.Made rules) (session : List Evaluation)
    (hq : Allowed rules root low m q)
    (hends : ∀ o ∈ (evaluations rules q session m).1, o ≠ .error .exhausted) :
    RightsNoted rules root low m (evaluationNotes rules q session m)
      (evaluations rules q session m).2 := by
  induction session generalizing m with
  | nil => exact (rightsLedger rules root low).refl m
  | cons e later ih =>
    have hended : (evaluate rules e.depth q e.input e.trace).exec m =
        ((evaluateNoted rules e.depth q e.input e.trace m).outcome,
          (evaluateNoted rules e.depth q e.input e.trace m).memory) := by
      rw [← erase_evaluateNoted, exec_erase]
    simp only [evaluations, hended, List.mem_cons, forall_eq_or_imp] at hends ⊢
    have hrel := (rights_covers hroot low).evaluate e.depth e.input e.trace hq fun h ho he =>
      hends.1 (he ▸ ho)
    exact hrel.trans (ih ((rights_covers hroot low).mono hrel hq) hends.2)

/-- An optimized parser may be met in the memory that optimizing leaves. -/
theorem optimize_allowed {k : Nat} (hp : p.Made rules) (hd : p.Defined rules)
    (hm : m.Settled rules p) (hq : (optimize rules k p).exec m = (.ok q, m₁)) :
    Allowed rules p m.nextId m₁ q := by
  have hready : Ready rules p p := ⟨.refl, hd⟩
  obtain ⟨q', m', hcondensed, hm', hnext, hfilled, k', hends⟩ :=
    optimize_ends_condensed hp hready.optimizable hm
  have hsame := (optimize_extends rules p (Nat.le_max_left k k')).exec_ok hq
  rw [hends _ (Nat.le_max_right k k')] at hsame
  cases hsame
  refine ⟨⟨hm', hnext, fun c r hc hr => ?_⟩, .inr ⟨p, hready, hcondensed⟩⟩
  rw [Memory.parserIn?, hfilled] at hr
  have hempty := hm.right c hc
  rw [Memory.parserIn?, hr] at hempty
  cases hempty

end

/-- Over any sequence of evaluations of an optimized parser, each choice that optimizing built calls
the original thunk of its right side at most once, only after its left side has rejected, and is
given the same parser every time, which its cell keeps. The thunk of a rule is called once for each
call that is noted of a node which holds it, and for the chains that are collected while right sides
are rewritten, and no more. -/
theorem right_sides_rewritten_once {rules : Rules} {p q : Parser} {m m₁ : Memory} {k : Nat}
    (hp : p.Made rules) (hd : p.Defined rules) (hm : m.Settled rules p)
    (hq : (optimize rules k p).exec m = (.ok q, m₁)) (session : List Evaluation)
    (hends : ∀ o ∈ (evaluations rules q session m₁).1, o ≠ .error .exhausted) :
    let notes := evaluationNotes rules q session m₁
    (∀ cell, notes.countP (Note.callsFor cell) ≤ 1) ∧
    (∀ front choice back cell, notes = front ++ .called choice :: back →
      choice.cell? = some cell → ∃ why start, .heard choice 0 (.reject why start) ∈ front) ∧
    (∃ rewritten, OwnCalls rules m₁ notes rewritten (evaluations rules q session m₁).2) ∧
    ∀ cell choice r, .given choice r ∈ notes → choice.cell? = some cell →
      (evaluations rules q session m₁).2.parserIn? (.right cell) = some r ∧
      ∀ choice' r', .given choice' r' ∈ notes → choice'.cell? = some cell → r' = r := by
  intro notes
  have hrel := evaluations_rights hp session (optimize_allowed hp hd hm hq) hends
  refine ⟨hrel.once, hrel.failed, hrel.owned, fun cell choice r hr hcell => ?_⟩
  have hkept := hrel.given choice r cell hr hcell
  refine ⟨hkept, fun choice' r' hr' hcell' => ?_⟩
  rw [hrel.given choice' r' cell hr' hcell'] at hkept
  exact Option.some.inj hkept

def restRules : Rules := [("rest", .orElse 2 (.literal 0 "b") (.const (.literal 1 "c")))]

/-- An `a` or the rest, which is a `b` or a `c`. -/
def letterOrRest : Parser := .orElse 4 (.literal 3 "a") (.rule "rest")

def letterTexts : List Evaluation :=
  [⟨6, "b", false⟩, ⟨6, "c", false⟩, ⟨6, "d", true⟩, ⟨6, "a", false⟩, ⟨6, "c", false⟩]

/-- The right side is asked for in four evaluations of five. Its thunk is called once, and so is
that of the right side which appears when it is rewritten. -/
theorem letterOrRest_rewritten_once : ∃ q m₁ r, ∃ notes,
    (optimize restRules 6 letterOrRest).exec { nextId := 5 } = (.ok q, m₁) ∧
      evaluationNotes restRules q letterTexts m₁ = notes ∧
      q = .orElse 6 (.literal 3 "a") (.optimized 5 (.rule "rest")) ∧
      r = .orElse 8 (.literal 0 "b") (.optimized 7 (.const (.literal 1 "c"))) ∧
      notes.countP (Note.callsFor 5) = 1 ∧ notes.countP (Note.callsFor 7) = 1 ∧
      (evaluations restRules q letterTexts m₁).2.callsOf "rest" = 1 ∧
      notes.countP (Note.callsRule "rest") = 1 ∧
      (∃ rewritten, rewritten.map Prod.fst = [q, r] ∧
        OwnCalls restRules m₁ notes rewritten (evaluations restRules q letterTexts m₁).2) ∧
      ∀ r', .given q r' ∈ notes → r' = r := by
  have hopt : (optimize restRules 6 letterOrRest).exec { nextId := 5 } =
    (.ok (.orElse 6 (.literal 3 "a") (.optimized 5 (.rule "rest"))), { nextId := 7 }) := rfl
  have hends : ∀ o ∈ (evaluations restRules (.orElse 6 (.literal 3 "a")
      (.optimized 5 (.rule "rest"))) letterTexts { nextId := 7 }).1, o ≠ .error .exhausted := by
    intro o ho
    change o ∈ [.ok ⟨"b", .accept (.text "b") 1⟩, .ok ⟨"c", .accept (.text "c") 1⟩,
      .ok ⟨"d", _⟩, .ok ⟨"a", .accept (.text "a") 1⟩, .ok ⟨"c", .accept (.text "c") 1⟩] at ho
    simp only [List.mem_cons, List.not_mem_nil, or_false] at ho
    rcases ho with rfl | rfl | rfl | rfl | rfl <;> nofun
  obtain ⟨-, -, ⟨rewritten, howned⟩, hgiven⟩ := right_sides_rewritten_once
    (Parser.made_of_static rfl rfl) (Parser.defined_of_static rfl rfl)
    ⟨fun _ h => (by cases h), fun _ _ => rfl⟩ hopt letterTexts hends
  refine ⟨_, _, _, _, hopt, rfl, rfl, rfl, rfl, rfl, rfl, rfl, ⟨rewritten, howned.choices, howned⟩,
    fun r' hr' => ?_⟩
  have hkept := (hgiven 5 _ r' hr' rfl).1
  change some _ = some r' at hkept
  exact (Option.some.inj hkept).symm

end ParserAlgebra
