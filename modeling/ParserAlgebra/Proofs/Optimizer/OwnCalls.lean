import ParserAlgebra.Proofs.Optimizer.Collecting

/-!
# The calls of a node's own

A node that asks for its parser calls its thunk, and so does a choice that optimizing built when its
right side is rewritten: such a call is the node's own. Rewriting also collects chains in what the
thunk gives, and calls thunks of other choices for them. So in a run the thunk of a rule is called
by nodes that hold it and while chains are collected, and by nothing else.
-/

namespace ParserAlgebra

open Noted

/-- The cell of a choice that optimizing built. -/
def Parser.cell? : Parser → Option Nat
  | .orElse _ _ (.optimized cell _) => some cell
  | _ => none

theorem Parser.cell?_eq_none {p : Parser} {t : Thunk} (ht : p.thunk? = some t) (h : t.Plain) :
    p.cell? = none := by
  cases p with
  | orElse id left right =>
    cases ht
    cases t with
    | const | rule => rfl
    | optimized => exact h.elim
  | _ => rfl

namespace Note

/-- A node calls its thunk, or the original one of a right side that was put off, and this is the
thunk of the rule. -/
def callsRule (name : String) : Note → Bool
  | .called p => p.thunk?.any fun t => t.core.isOf name
  | _ => false

@[simp] theorem callsRule_tried (name : String) (p : Parser) :
    callsRule name (.tried p) = false := rfl

@[simp] theorem callsRule_heard (name : String) (p : Parser) (number : Nat) (r : Reply) :
    callsRule name (.heard p number r) = false := rfl

@[simp] theorem callsRule_given (name : String) (p q : Parser) :
    callsRule name (.given p q) = false := rfl

theorem callsRule_called {p : Parser} {t : Thunk} (h : p.thunk? = some t) (name : String) :
    callsRule name (.called p) = t.core.isOf name := by
  simp [callsRule, h]

/-- The choice that optimizing built and whose right side is rewritten. -/
def rewrites? : Note → Option Parser
  | .called p => if p.cell?.isSome then some p else none
  | _ => none

end Note

/-- These chains are collected when the right side of the choice is rewritten. -/
def Parser.RewrittenWith (rules : Rules) (p : Parser) (collections : List (List (Nat × Thunk))) :
    Prop :=
  ∃ cell t r n q m m', p.thunk? = some (.optimized cell t) ∧ t.target rules = .ok r ∧
    optimizeNoted rules n r m = ⟨.ok q, m', collections⟩

/-- Between two memories these choices had their right sides rewritten, each with the chains that
were collected for it. The thunk of a rule was called by nodes that hold it, once for each note of
this, and for these chains. -/
structure OwnCalls (rules : Rules) (m : Memory) (notes : List Note)
    (rewritten : List (Parser × List (List (Nat × Thunk)))) (m' : Memory) : Prop where
  choices : rewritten.map Prod.fst = notes.filterMap Note.rewrites?
  collected : ∀ w ∈ rewritten, w.1.RewrittenWith rules w.2
  /-- No choice has its right side called twice for one chain. -/
  once : ∀ w ∈ rewritten, ∀ chain ∈ w.2, (chain.map Prod.fst).Nodup
  calls : ∀ name, m'.callsOf name = m.callsOf name + notes.countP (Note.callsRule name) +
    (rewritten.flatMap fun w => w.2.flatten).countP fun c => c.2.isOf name

namespace OwnCalls

variable {rules : Rules} {m m' m'' : Memory} {notes notes' : List Note}
  {rewritten rewritten' : List (Parser × List (List (Nat × Thunk)))}

theorem append (h : OwnCalls rules m notes rewritten m')
    (h' : OwnCalls rules m' notes' rewritten' m'') :
    OwnCalls rules m (notes ++ notes') (rewritten ++ rewritten') m'' where
  choices := by rw [List.map_append, h.choices, h'.choices, List.filterMap_append]
  collected w hw := (List.mem_append.1 hw).elim (h.collected w) (h'.collected w)
  once w hw := (List.mem_append.1 hw).elim (h.once w) (h'.once w)
  calls name := by
    rw [h'.calls, h.calls, List.countP_append, List.flatMap_append, List.countP_append]
    omega

/-- Nothing was rewritten. -/
theorem of_quiet (hcalled : ∀ p, .called p ∈ notes → p.cell? = none)
    (hcalls : ∀ name, m'.callsOf name = m.callsOf name + notes.countP (Note.callsRule name)) :
    OwnCalls rules m notes [] m' where
  choices := by
    refine (List.filterMap_eq_nil_iff.2 fun entry hentry => ?_).symm
    cases entry with
    | called p => simp [Note.rewrites?, hcalled p hentry]
    | _ => rfl
  collected _ hw := absurd hw List.not_mem_nil
  once _ hw := absurd hw List.not_mem_nil
  calls := hcalls

/-- Where nothing was noted to be called and the counts are as they were. -/
theorem of_silent (hcalled : ∀ p, .called p ∉ notes) (hcalls : m'.calls = m.calls) :
    OwnCalls rules m notes [] m' := by
  refine .of_quiet (fun p hp => absurd hp (hcalled p)) fun name => ?_
  have hzero : notes.countP (Note.callsRule name) = 0 := by
    refine List.countP_eq_zero.2 fun entry hentry => ?_
    cases entry with
    | called p => exact absurd hentry (hcalled p)
    | _ => exact Bool.false_ne_true
  rw [hzero, Memory.callsOf, hcalls, Memory.callsOf, Nat.add_zero]

end OwnCalls

/-- What is reached from a parser that constructors and combinators made was made so too. -/
theorem Parser.Made.of_reaches {rules : Rules} {p q : Parser} (hp : p.Made rules)
    (hq : Reaches rules p q) : q.Made rules where
  kinded _ hr := hp.kinded _ (hq.trans hr)
  plain hr ht := hp.plain (hq.trans hr) ht
  single hr hr' := hp.single (hq.trans hr) (hq.trans hr')

section

variable {rules : Rules} {m m' : Memory} {p q : Parser} {t : Thunk}

/-- A node with a plain thunk that asks for its parser calls it, or finds the parser in its cell. -/
theorem asked_calls (ht : p.thunk? = some t) (hplain : t.Plain) {n : Nat}
    (hends : (p.asked rules n m).outcome ≠ .error .exhausted) (name : String) :
    (p.asked rules n m).memory.callsOf name =
      m.callsOf name + (p.asked rules n m).notes.countP (Note.callsRule name) := by
  have hone : (t.called m).callsOf name =
      m.callsOf name + [Note.called p].countP (Note.callsRule name) := by
    rw [Thunk.callsOf_called, List.countP_singleton, Note.callsRule_called ht, hplain.core_eq]
    cases t.isOf name <;> rfl
  have hcall (ho : (t.noted rules p n m).outcome ≠ .error .exhausted) :
      (t.noted rules p n m).memory.callsOf name =
        m.callsOf name + (t.noted rules p n m).notes.countP (Note.callsRule name) := by
    obtain _ | n := n
    · exact absurd rfl ho
    · rw [Thunk.noted_plain hplain]
      exact hone
  cases p with
  | orElse | delayed =>
    cases ht
    exact hcall hends
  | memoized id thunk =>
    cases ht
    simp only [Parser.asked, once] at hends ⊢
    cases hcell : m.parserIn? (.node id) with
    | some q =>
      rw [Run.exec_once_of_some _ hcell]
      rfl
    | none =>
      -- A bound of zero cuts the call off.
      obtain _ | n := n
      · simp [Run.once, Run.exec_bind, hcell, Thunk.call] at hends
      · have hexec := Thunk.exec_call_plain hplain rules n m
        have hmemory : ((Run.once (.node id) (t.call rules (n + 1))).exec m).2.calls =
            (t.called m).calls := by
          cases htarget : t.target rules <;> rw [htarget] at hexec
          · simp only [Run.once, Run.exec_bind, Run.exec_parserIn?, hcell, hexec]
            rfl
          · rw [Run.exec_once_of_none hcell hexec]
            rfl
        rw [Memory.callsOf, hmemory]
        exact hone
  | _ => cases ht

/-- When a choice that optimizing built has its right side rewritten, the original thunk is called,
and the rest of the calls are made for the chains that are collected. -/
theorem rewritten_calls {n cell : Nat} (id : Nat) (left : Parser) (ht : t.Plain)
    (hr : ∀ r, t.target rules = .ok r → r.Made rules)
    (hempty : m.parserIn? (.right cell) = none)
    (hcall : ((Thunk.optimized cell t).call rules n).exec m = (.ok q, m')) (reply : Reply) :
    let choice := Parser.orElse id left (.optimized cell t)
    ∃ collections, OwnCalls rules m [.heard choice 0 reply, .called choice, .given choice q]
      [(choice, collections)] m' := by
  intro choice
  obtain _ | n := n
  · cases hcall
  obtain ⟨m₂, hmake, rfl⟩ := Run.exec_once_ok hempty hcall
  obtain ⟨r, m₁, hthunk, hrewrite⟩ := Run.exec_bind_ok hmake
  obtain ⟨htarget, rfl⟩ := Thunk.call_plain_ok ht hthunk
  have hnoted : (optimizeNoted rules n r (t.called m)).outcome = .ok q ∧
      (optimizeNoted rules n r (t.called m)).memory = m₂ := by
    rw [← Prod.mk.injEq, ← exec_erase, erase_optimizeNoted]
    exact hrewrite
  have haccounts := optimizeNotedWith_accounts (hr r htarget) (Thunk.callsPlainly rules n) n .refl
    (t.called m)
  rw [← optimizeNoted] at haccounts
  rcases hending : optimizeNoted rules n r (t.called m) with ⟨outcome, memory, collections⟩
  rw [hending] at hnoted haccounts
  obtain ⟨rfl, rfl⟩ := hnoted
  have hnotes := haccounts fun h he => by cases he
  have hwith : choice.RewrittenWith rules collections :=
    ⟨cell, t, r, n, q, _, _, rfl, htarget, hending⟩
  refine ⟨collections, rfl, List.forall_mem_singleton.2 hwith,
    List.forall_mem_singleton.2 fun chain hchain => (hnotes.once chain hchain).once,
    fun name => ?_⟩
  -- The call of the original thunk is noted; all others were made for the chains.
  have hown : [Note.heard choice 0 reply, .called choice, .given choice q].countP
      (Note.callsRule name) = (t.isOf name).toNat := by
    have hcore : (Thunk.optimized cell t).core = t := ht.core_eq
    have hrule : Note.callsRule name (.called choice) = t.isOf name := by
      rw [Note.callsRule_called rfl, hcore]
    cases h : t.isOf name <;> simp [hrule, h]
  rw [hown, ← Thunk.callsOf_called, List.flatMap_singleton]
  exact hnotes.counts name

end

end ParserAlgebra
