import ParserAlgebra.Proofs.Effect
import ParserAlgebra.Proofs.Repetition.Greedy

/-!
# At least `n` matches

A repetition behind `n` copies of its source rejects as the first copy that does. If none does, the
values of the copies are joined from the right on to what the repetition folded from the left. In a
monoid that is one fold over all the values in order.
-/

namespace ParserAlgebra

open Run (Keeps)
open ParserAlgebra.Parser (Kinded)

/-! ### Folds in a monoid -/

/-- On the values of a set the fold is that of a monoid: joining two of them raises no fault and
gives one of them, it is associative, and the identity is neutral on both sides. -/
structure Fold.Monoidal (f : Fold) (S : Value → Prop) : Prop where
  identity : S f.identity
  joins : ∀ u v, S u → S v → ∃ w, f.combine.apply u v = .ok w ∧ S w
  left_neutral : ∀ v, S v → f.combine.apply f.identity v = .ok v
  right_neutral : ∀ v, S v → f.combine.apply v f.identity = .ok v
  assoc : ∀ u v w, S u → S v → S w →
    (f.combine.apply u v >>= fun x => f.combine.apply x w) =
      f.combine.apply v w >>= f.combine.apply u

namespace Fold.Monoidal

variable {f : Fold} {S : Value → Prop}

/-- Folding on from a value joins it to the fold of the rest. -/
theorem foldlM_from (h : f.Monoidal S) {vs : List Value} (hvs : ∀ v ∈ vs, S v) {s : Value}
    (hs : S s) : ∃ w, S w ∧ vs.foldlM f.combine.apply f.identity = .ok w ∧
      vs.foldlM f.combine.apply s = f.combine.apply s w := by
  induction vs generalizing s with
  | nil => exact ⟨f.identity, h.identity, rfl, (h.right_neutral s hs).symm⟩
  | cons v vs ih =>
    have hv : S v := hvs v (.head _)
    have hrest : ∀ u ∈ vs, S u := fun u hu => hvs u (.tail _ hu)
    obtain ⟨sv, hsv, hSsv⟩ := h.joins s v hs hv
    obtain ⟨w, hSw, hw, hv_fold⟩ := ih hrest hv
    obtain ⟨w', -, hw', hsv_fold⟩ := ih hrest hSsv
    obtain rfl : w' = w := Except.ok.inj (hw'.symm.trans hw)
    obtain ⟨x, hx, hSx⟩ := h.joins v w' hv hSw
    refine ⟨x, hSx, ?_, ?_⟩
    · rw [List.foldlM_cons, h.left_neutral v hv]
      exact hv_fold.trans hx
    · have hassoc := h.assoc s v w' hs hv hSw
      rw [hsv, hx] at hassoc
      rw [List.foldlM_cons, hsv]
      exact hsv_fold.trans hassoc

/-- Values joined from the right on to a fold from the left are one fold from the left. -/
theorem foldrM_foldlM (h : f.Monoidal S) {us vs : List Value} (hall : ∀ v ∈ us ++ vs, S v)
    {w : Value} (hw : vs.foldlM f.combine.apply f.identity = .ok w) :
    ∃ x, us.foldrM f.combine.apply w = .ok x ∧
      (us ++ vs).foldlM f.combine.apply f.identity = .ok x := by
  induction us with
  | nil => exact ⟨w, rfl, hw⟩
  | cons u us ih =>
    have hu : S u := hall u (.head _)
    have hrest : ∀ v ∈ us ++ vs, S v := fun v hv => hall v (.tail _ hv)
    obtain ⟨x, hright, hleft⟩ := ih hrest
    obtain ⟨x', hSx, hx', hfold⟩ := h.foldlM_from hrest hu
    obtain rfl : x' = x := Except.ok.inj (hx'.symm.trans hleft)
    obtain ⟨y, hy, -⟩ := h.joins u x' hu hSx
    refine ⟨y, ?_, ?_⟩
    · rw [List.foldrM_cons, hright]
      exact hy
    · rw [List.cons_append, List.foldlM_cons, h.left_neutral u hu]
      exact hfold.trans hy

end Fold.Monoidal

/-! ### One copy in front -/

namespace Effect

theorem andThen_accept_iff {x : Effect Reply} {f : Value → Nat → Effect Reply} {c c' : Cells}
    {v : Value} {stop : Nat} : (x.andThen f) c (.ok (.accept v stop)) c' ↔
      ∃ u j mid, x c (.ok (.accept u j)) mid ∧ f u j mid (.ok (.accept v stop)) c' := by
  constructor
  · rintro (⟨e, he, -⟩ | ⟨reply, mid, hx, hf⟩)
    · cases he
    · cases reply with
      | accept u j => exact ⟨u, j, mid, hx, hf⟩
      | reject why start => cases hf.1
  · rintro ⟨u, j, mid, hx, hf⟩
    exact .inr ⟨.accept u j, mid, hx, hf⟩

theorem andThen_reject_iff {x : Effect Reply} {f : Value → Nat → Effect Reply} {c c' : Cells}
    {why : Reason} {start : Nat} : (x.andThen f) c (.ok (.reject why start)) c' ↔
      x c (.ok (.reject why start)) c' ∨
        ∃ u j mid, x c (.ok (.accept u j)) mid ∧ f u j mid (.ok (.reject why start)) c' := by
  constructor
  · rintro (⟨e, he, -⟩ | ⟨reply, mid, hx, hf⟩)
    · cases he
    · cases reply with
      | accept u j => exact .inr ⟨u, j, mid, hx, hf⟩
      | reject why start =>
        obtain ⟨ho, rfl⟩ := hf
        cases ho
        exact .inl hx
  · rintro (hx | ⟨u, j, mid, hx, hf⟩)
    · exact .inr ⟨.reject why start, c', hx, rfl, rfl⟩
    · exact .inr ⟨.accept u j, mid, hx, hf⟩

end Effect

section

variable {cx : Context} {p r : Parser} {combine : Combiner} {i stop : Nat} {c c' mid : Cells}
  {v w u : Value} {why : Reason} {start : Nat}

theorem both_accepts {j : Nat} (id : Nat) (hp : Evaluates cx p i c.memory (.ok (.accept v j)) mid)
    (hr : Evaluates cx r j mid.memory (.ok (.accept w stop)) c')
    (hu : combine.apply v w = .ok u) :
    Evaluates cx (.both id p r combine) i c.memory (.ok (.accept u stop)) c' := by
  change (Parser.both id p r combine).effect cx i c (.ok (.accept u stop)) c'
  rw [effect_both, Effect.andThen_accept_iff]
  refine ⟨v, j, mid, hp, Effect.andThen_accept_iff.2 ⟨w, stop, c', hr, ?_⟩⟩
  rw [hu, Effect.accept_ok]
  exact ⟨rfl, rfl⟩

/-- Joining does not reject: one of the two parts does. -/
theorem both_rejects_iff (id : Nat) :
    Evaluates cx (.both id p r combine) i c.memory (.ok (.reject why start)) c' ↔
      Evaluates cx p i c.memory (.ok (.reject why start)) c' ∨
        ∃ v j mid, Evaluates cx p i c.memory (.ok (.accept v j)) mid ∧
          Evaluates cx r j mid.memory (.ok (.reject why start)) c' := by
  have hjoin : ∀ e stop mid, ¬ Effect.accept e stop mid (.ok (.reject why start)) c' := by
    rintro e stop mid (⟨_, he, -⟩ | ⟨_, _, -, he, -⟩) <;> cases he
  change (Parser.both id p r combine).effect cx i c (.ok (.reject why start)) c' ↔ _
  rw [effect_both, Effect.andThen_reject_iff]
  refine or_congr Iff.rfl (exists_congr fun v => exists_congr fun j => exists_congr fun mid =>
    and_congr_right fun _ => ?_)
  rw [Effect.andThen_reject_iff]
  refine ⟨fun h => h.resolve_right ?_, .inl⟩
  rintro ⟨w, stop, last, -, h⟩
  exact hjoin _ _ _ h

/-! ### All copies -/

/-- The copy that was put in front last is the outermost one. -/
theorem repeatBefore_succ (p r : Parser) (combine : Combiner) (n next : Nat) :
    (Build.repeatBefore p combine (n + 1) r next).1 =
      .both (next + n) p (Build.repeatBefore p combine n r next).1 combine := by
  induction n generalizing r next with
  | zero => rfl
  | succ n ih =>
    have hstep := ih (.both next p r combine) (next + 1)
    rw [Nat.add_assoc, Nat.add_comm 1 n] at hstep
    exact hstep

/-- Copies of a parser in front of one that does not reject do so as the first that rejects. -/
theorem repeatBefore_rejects_iff
    (hr : ∀ (i : Nat) (c : Cells) why start c',
      ¬ Evaluates cx r i c.memory (.ok (.reject why start)) c')
    (n next : Nat) :
    Evaluates cx (Build.repeatBefore p combine n r next).1 i c.memory (.ok (.reject why start)) c' ↔
      ∃ ms mid, Matches cx p i c ms mid ∧ ms.length < n ∧
        Evaluates cx p (lastStop i ms) mid.memory (.ok (.reject why start)) c' := by
  induction n generalizing i c with
  | zero =>
    refine ⟨fun h => absurd h (hr i c why start c'), ?_⟩
    rintro ⟨ms, mid, -, hlt, -⟩
    exact absurd hlt (Nat.not_lt_zero _)
  | succ n ih =>
    rw [repeatBefore_succ, both_rejects_iff]
    constructor
    · rintro (h | ⟨v, j, mid, hv, h⟩)
      · exact ⟨[], c, .nil, Nat.zero_lt_succ n, h⟩
      · obtain ⟨ms, last, hms, hlt, hlast⟩ := ih.1 h
        exact ⟨(v, j) :: ms, last, .cons hv hms, Nat.succ_lt_succ hlt, hlast⟩
    · rintro ⟨ms, mid, hms, hlt, hlast⟩
      cases hms with
      | nil => exact .inl hlast
      | cons hv hms =>
        exact .inr ⟨_, _, _, hv, ih.2 ⟨_, _, hms, Nat.lt_of_succ_lt_succ hlt, hlast⟩⟩

/-- Copies that all match join their values from the right. -/
theorem repeatBefore_accepts {ms : List (Value × Nat)} (hms : Matches cx p i c ms mid)
    (hr : Evaluates cx r (lastStop i ms) mid.memory (.ok (.accept w stop)) c')
    (hu : (valuesOf ms).foldrM combine.apply w = .ok u) (next : Nat) :
    Evaluates cx (Build.repeatBefore p combine ms.length r next).1 i c.memory
      (.ok (.accept u stop)) c' := by
  induction hms generalizing u with
  | nil =>
    cases hu
    exact hr
  | @cons i j c first mid v ms hv _ ih =>
    rw [valuesOf_cons, List.foldrM_cons] at hu
    cases hrest : (valuesOf ms).foldrM combine.apply w with
    | error e => rw [hrest] at hu; cases hu
    | ok x =>
      rw [hrest] at hu
      rw [List.length_cons, repeatBefore_succ]
      exact both_accepts _ hv (ih hr hrest) hu

theorem many_not_rejects (id : Nat) (identity : Value) :
    ¬ Evaluates cx (.many id p identity combine) i c.memory (.ok (.reject why start)) c' := by
  intro h
  obtain ⟨k, ho, -⟩ := (evaluates_iff rfl).1 h
  have hnode : Keeps (fun _ => True) (nodeReply cx k (interpret cx k)
      (.many id p identity combine) i) fun reply => ∃ v stop, reply = .accept v stop :=
    .bind (fun _ _ => ⟨fun _ _ _ => trivial, fun _ _ => trivial⟩ : Keeps _ _ fun _ => True)
      fun x _ => .pure ⟨x.1, x.2, rfl⟩
  obtain ⟨v, stop, hreply⟩ := (hnode c.memory fun _ _ _ => trivial).2 _ ho
  cases hreply

end

/-! ### The whole repetition -/

/-- A repetition that asks for at least `n` matches rejects exactly when one of the first `n` runs
of its source in a row does, and then as that run. Otherwise it accepts where the repetition that
follows the `n` matches stops. Its value is the fold of all values in order if the fold is one of a
monoid on them. One of the two is the case if the runs of the source end with replies. -/
theorem repetition_at_least {cx : Context} {p : Parser} {i : Nat} {m : Memory}
    (hp : p.Kinded cx.rules) (hm : m.Holds (Kinded cx.rules)) (hi : i ≤ cx.text.size)
    (n : Nat) (f : Fold) (id : Nat) :
    let q := Build.result id (Build.repeatAtLeast p n f)
    (p.Replies cx m.cells →
      (∃ ms mid why start c, Matches cx p i m.cells ms mid ∧ ms.length < n ∧
        Evaluates cx p (lastStop i ms) mid.memory (.ok (.reject why start)) c) ∨
      ∃ ms mid ns c, Matches cx p i m.cells ms mid ∧ ms.length = n ∧
        Strides cx p (lastStop i ms) mid ns c) ∧
    (∀ why start c, Evaluates cx q i m (.ok (.reject why start)) c ↔
      ∃ ms mid, Matches cx p i m.cells ms mid ∧ ms.length < n ∧
        Evaluates cx p (lastStop i ms) mid.memory (.ok (.reject why start)) c) ∧
    ∀ S, f.Monoidal S → ∀ ms mid ns c, Matches cx p i m.cells ms mid → ms.length = n →
      Strides cx p (lastStop i ms) mid ns c → (∀ v ∈ valuesOf ms ++ valuesOf ns, S v) →
      ∃ w value last,
        (∀ a o c', Evaluates cx (Build.result a (Build.many p f)) (lastStop i ms) mid.memory o c' ↔
          o = .ok (.accept w last) ∧ c' = c) ∧
        (∀ o c', Evaluates cx q i m o c' ↔ o = .ok (.accept value last) ∧ c' = c) ∧
        (valuesOf ns).foldlM f.combine.apply f.identity = .ok w ∧
        (valuesOf ms ++ valuesOf ns).foldlM f.combine.apply f.identity = .ok value := by
  intro q
  refine ⟨fun hreplies => ?_, fun why start c => ?_, ?_⟩
  · obtain ⟨ms, c, h⟩ := exists_matchesUpTo hp hreplies .start hm hi n
    rcases h.matches with ⟨hlen, hms⟩ | ⟨mid, why, start, hlt, hms, hlast⟩
    · obtain ⟨hstop, hholds⟩ := hms.inside hp hm hi
      obtain ⟨ns, last, hns⟩ :=
        exists_strides hp hreplies (hms.mayLeave hp hm hi .start) hholds hstop
      exact .inr ⟨ms, c, ns, last, hms, hlen, hns⟩
    · exact .inl ⟨ms, mid, why, start, c, hms, hlt, hlast⟩
  · rw [← evaluates_cells]
    exact repeatBefore_rejects_iff (fun _ _ _ _ _ => many_not_rejects _ _) n (id + 1)
  · rintro S hf ms mid ns c hms rfl hns hS
    obtain ⟨hstop, hholds⟩ := hms.inside hp hm hi
    have hSns : ∀ v ∈ valuesOf ns, S v := fun v hv => hS v (List.mem_append_right _ hv)
    obtain ⟨w, -, hw, -⟩ := hf.foldlM_from hSns hf.identity
    obtain ⟨value, hright, hvalue⟩ := hf.foldrM_foldlM hS hw
    have hmany := fun a =>
      (Strides.many_replies (m := mid.memory) hns hp hholds hstop hw a).evaluates
    have hq : Evaluates cx q i m (.ok (.accept value (lastStop (lastStop i ms) ns))) c :=
      evaluates_cells.1 (repeatBefore_accepts hms ((hmany id _ _).2 ⟨rfl, rfl⟩) hright (id + 1))
    refine ⟨w, value, _, hmany, fun o c' => ⟨fun h => (hq.unique h).imp Eq.symm Eq.symm, ?_⟩, hw,
      hvalue⟩
    rintro ⟨rfl, rfl⟩
    exact hq

/-- Texts with the one put behind the other are a monoid. -/
theorem Fold.text_monoidal : Fold.text.Monoidal fun v => ∃ s, v = .text s where
  identity := ⟨"", rfl⟩
  joins := by
    rintro _ _ ⟨s, rfl⟩ ⟨t, rfl⟩
    exact ⟨.text (s ++ t), rfl, s ++ t, rfl⟩
  left_neutral := by
    rintro _ ⟨s, rfl⟩
    exact congrArg (fun t => Except.ok (Value.text t)) String.empty_append
  right_neutral := by
    rintro _ ⟨s, rfl⟩
    exact congrArg (fun t => Except.ok (Value.text t)) String.append_empty
  assoc := by
    rintro _ _ _ ⟨s, rfl⟩ ⟨t, rfl⟩ ⟨u, rfl⟩
    exact congrArg (fun t => Except.ok (Value.text t)) String.append_assoc

/-- Of three letters one is matched in front and two by the repetition. -/
theorem letters_at_least :
    let cx : Context := ⟨[], #['a', 'b', 'c'], false⟩
    let p : Parser := .charWhere 0 (.memberOf ['a', 'b', 'c']) "a letter"
    p.Kinded [] ∧ ({} : Memory).Holds (Kinded []) ∧
      (∃ c, Evaluates cx (Build.result 1 (Build.repeatAtLeast p 1 .text)) 0 {}
        (.ok (.accept (.text "abc") 3)) c) ∧
      ∃ why c, Evaluates cx (Build.result 1 (Build.repeatAtLeast p 4 .text)) 0 {}
        (.ok (.reject why 3)) c := by
  intro cx p
  have hp : p.Kinded [] := Parser.kinded_of_static rfl rfl
  have hm : ({} : Memory).Holds (Kinded []) := nofun
  have hfirst : Matches cx p 0 ({} : Memory).cells [(.text "a", 1)] ⟨0, []⟩ :=
    .cons ⟨1, rfl, rfl⟩ .nil
  have hrest : Strides cx p 1 ⟨0, []⟩ [(.text "b", 2), (.text "c", 3)] ⟨0, []⟩ :=
    .stride ⟨1, rfl, rfl⟩ (by decide) (.stride ⟨1, rfl, rfl⟩ (by decide)
      (.idle ⟨1, rfl, rfl⟩ (.reject _ _)))
  have htexts : ∀ v ∈ [Value.text "a", .text "b", .text "c"], ∃ s, v = .text s := by simp
  have hall : Matches cx p 0 ({} : Memory).cells
      [(.text "a", 1), (.text "b", 2), (.text "c", 3)] ⟨0, []⟩ :=
    .cons ⟨1, rfl, rfl⟩ (.cons ⟨1, rfl, rfl⟩ (.cons ⟨1, rfl, rfl⟩ .nil))
  obtain ⟨-, -, haccepts⟩ := repetition_at_least hp hm (Nat.zero_le cx.text.size) 1 .text 1
  obtain ⟨-, hrejects, -⟩ := repetition_at_least hp hm (Nat.zero_le cx.text.size) 4 .text 1
  obtain ⟨w, value, last, hmany, hq, -, hvalue⟩ :=
    haccepts _ Fold.text_monoidal _ _ _ _ hfirst rfl hrest htexts
  cases hvalue
  have hlast := (hmany 1 (.ok (.accept (.text "bc") 3)) ⟨0, []⟩).1 ⟨2, rfl, rfl⟩
  cases hlast.1
  refine ⟨hp, hm, ⟨⟨0, []⟩, (hq _ _).2 ⟨rfl, rfl⟩⟩, _, ⟨0, []⟩,
    (hrejects _ _ _).2 ⟨_, _, hall, by decide, ⟨1, rfl, rfl⟩⟩⟩

end ParserAlgebra
