import ParserAlgebra.Proofs.Cells
import ParserAlgebra.Proofs.Script.Faults
import ParserAlgebra.Proofs.Series

/-!
# What the log tells

A traced run ends as the untraced one does and only adds to the log. Each entry of a node that was
tried names an offset of the text, and the entries of a run that rejects end with the rejection of
its root and hold the one of the node that rejected for a reason of its own.
-/

namespace ParserAlgebra

open Run (Lockstep Mirrors)

/-- The entries tell of a node that was tried where the rejection is, and rejected for a reason of
its own. -/
def Told (why : Reason) (start : Nat) (entries : List LogEntry) : Prop :=
  ∃ tag ∈ rejectingTags, [.trying tag start, .failed tag start why].Sublist entries

theorem Told.of_sublist {why : Reason} {start : Nat} {entries entries' : List LogEntry}
    (h : Told why start entries) (hs : entries.Sublist entries') : Told why start entries' := by
  obtain ⟨tag, htag, hsub⟩ := h
  exact ⟨tag, htag, hsub.trans hs⟩

/-- Entries that a run may write: none unless it is traced, and offsets of the text only. -/
structure Lines (cx : Context) (entries : List LogEntry) : Prop where
  quiet : cx.trace = false → entries = []
  inside : ∀ tag i, .trying tag i ∈ entries → i ≤ cx.text.size

namespace Lines

variable {cx : Context} {entries entries' : List LogEntry}

theorem nil : Lines cx [] := ⟨fun _ => rfl, nofun⟩

theorem append (h : Lines cx entries) (h' : Lines cx entries') :
    Lines cx (entries ++ entries') where
  quiet ht := by rw [h.quiet ht, h'.quiet ht]; rfl
  inside tag i hi := (List.mem_append.1 hi).elim (h.inside tag i) (h'.inside tag i)

end Lines

/-- From settled memories the run keeps the memory settled and adds lines to the log, and its value,
if it has one, goes with the lines. -/
def Run.Logs {α : Type} (cx : Context) (root : Parser) (x : Run α)
    (Q : List LogEntry → α → Prop) : Prop :=
  ∀ m : Memory, m.Settled cx.rules root → ∃ entries, (x.exec m).2.Settled cx.rules root ∧
    (x.exec m).2.log = entries.reverse ++ m.log ∧ Lines cx entries ∧
    ∀ a, (x.exec m).1 = .ok a → Q entries a

namespace Run.Logs

variable {α β : Type} {cx : Context} {root : Parser}

theorem mono {P Q : List LogEntry → α → Prop} {x : Run α} (hx : x.Logs cx root P)
    (h : ∀ entries a, P entries a → Q entries a) : x.Logs cx root Q := by
  intro m hm
  obtain ⟨entries, hsettled, hlog, hlines, hP⟩ := hx m hm
  exact ⟨entries, hsettled, hlog, hlines, fun a ha => h entries a (hP a ha)⟩

theorem pure {Q : List LogEntry → α → Prop} {a : α} (h : Q [] a) :
    (Pure.pure a : Run α).Logs cx root Q :=
  fun m hm => ⟨[], hm, rfl, .nil, fun b hb => by cases hb; exact h⟩

theorem raise {Q : List LogEntry → α → Prop} (f : Fault) : (Run.raise f : Run α).Logs cx root Q :=
  fun _ hm => ⟨[], hm, rfl, .nil, nofun⟩

theorem exhaust {Q : List LogEntry → α → Prop} : (Run.exhaust : Run α).Logs cx root Q :=
  fun _ hm => ⟨[], hm, rfl, .nil, nofun⟩

theorem bind {P : List LogEntry → α → Prop} {Q : List LogEntry → β → Prop} {x : Run α}
    {f : α → Run β} (hx : x.Logs cx root P)
    (hf : ∀ entries a, P entries a → (f a).Logs cx root fun more b => Q (entries ++ more) b) :
    (x >>= f).Logs cx root Q := by
  intro m hm
  obtain ⟨entries, hsettled, hlog, hlines, hP⟩ := hx m hm
  rw [exec_bind]
  rcases hxm : x.exec m with ⟨h | a, m'⟩ <;> rw [hxm] at hsettled hlog hP
  · exact ⟨entries, hsettled, hlog, hlines, nofun⟩
  · obtain ⟨more, hsettled', hlog', hlines', hQ⟩ := hf entries a (hP a rfl) m' hsettled
    refine ⟨entries ++ more, hsettled', ?_, hlines.append hlines', hQ⟩
    rw [hlog', hlog, List.reverse_append, List.append_assoc]

/-- An entry is written if the run is traced. -/
theorem note {entry : LogEntry} (h : ∀ tag i, entry = .trying tag i → i ≤ cx.text.size) :
    (if cx.trace then Run.write entry else Pure.pure ()).Logs cx root fun entries _ =>
      entries = if cx.trace then [entry] else [] := by
  cases ht : cx.trace with
  | false => exact pure (by simp)
  | true =>
    refine fun m hm => ⟨[entry], ⟨hm.node, hm.right⟩, rfl, ⟨by simp [ht], ?_⟩, fun _ _ => by simp⟩
    intro tag i hi
    exact h tag i (List.mem_singleton.1 hi).symm

theorem call {t : Thunk} (ht : t.Plain) (n : Nat) :
    (t.call cx.rules n).Logs cx root fun entries p =>
      entries = [] ∧ t.target cx.rules = .ok p := by
  intro m hm
  obtain ⟨hsettled, hlog, htarget⟩ := call_settles ht n hm
  exact ⟨[], hsettled, hlog, .nil, fun p hp => ⟨rfl, htarget p hp⟩⟩

theorem once {id : Nat} {t : Thunk} (hroot : root.Made cx.rules)
    (hr : Reaches cx.rules root (.memoized id t)) (n : Nat) :
    (Run.once (.node id) (t.call cx.rules n)).Logs cx root fun entries p =>
      entries = [] ∧ t.target cx.rules = .ok p := by
  intro m hm
  obtain ⟨hsettled, hlog, htarget⟩ := once_settles hroot hr n hm
  exact ⟨[], hsettled, hlog, .nil, fun p hp => ⟨rfl, htarget p hp⟩⟩

end Run.Logs

section

variable {cx : Context} {root : Parser}

/-- The lines tell of a rejection, if the run is traced. -/
def Tells (cx : Context) (entries : List LogEntry) (r : Reply) : Prop :=
  ∀ why start, cx.trace = true → r = .reject why start → Told why start entries

/-- What was heard before, and what the script hears, is told by the lines up to then. -/
theorem Script.exec_logs {α : Type} {n : Nat} {sub : Runner} (hroot : root.Made cx.rules)
    (hsub : ∀ q j, Reaches cx.rules root q → j ≤ cx.text.size →
      (sub q j).Logs cx root fun entries r => r.Within j cx.text.size ∧ Tells cx entries r)
    {Q : List Reply → α → Prop} {s : Script α} {heard : List Reply} (before : List LogEntry)
    (hs : s.Sound cx.rules root cx.text.size Q heard) (hheard : ∀ r ∈ heard, Tells cx before r) :
    (s.exec cx.rules n sub).Logs cx root fun entries a =>
      ∃ heard, Q heard a ∧ ∀ r ∈ heard, Tells cx (before ++ entries) r := by
  induction s generalizing heard before with
  | done a => exact .pure ⟨heard, hs, by simpa using hheard⟩
  | returned rest ih => exact ih before hs hheard
  | raised f => exact .raise f
  | run p i next ih =>
    refine .bind (hsub p i hs.1.1 hs.1.2) fun entries r ⟨hwithin, htells⟩ => ?_
    have hnext : ∀ r' ∈ r :: heard, Tells cx (before ++ entries) r' := by
      intro r' hr' why start ht he
      rcases List.mem_cons.1 hr' with rfl | hr'
      · exact (htells why start ht he).of_sublist (List.sublist_append_right ..)
      · exact (hheard r' hr' why start ht he).of_sublist (List.sublist_append_left ..)
    simpa only [List.append_assoc] using ih r _ (hs.2 r hwithin) hnext
  | call t next ih =>
    refine .bind (.call hs.1 n) fun entries p ⟨hnil, hp⟩ => ?_
    subst hnil
    exact ih p before (hs.2 p hp) hheard
  | force id t next ih =>
    refine .bind (.once hroot hs.1 n) fun entries p ⟨hnil, hp⟩ => ?_
    subst hnil
    exact ih p before (hs.2 p hp) hheard
  | settle v again last ihagain ihlast =>
    cases v with
    | left s => exact ihagain s before (hs.1 s rfl) hheard
    | right w => exact ihlast w before (hs.2 w rfl) hheard
    | _ => exact .raise _
  | broken f => exact hs.elim
  | exhaust => exact .exhaust

/-- What a node does once its trial was announced: its own rejection comes last, and the lines with
the announcement tell of it. -/
theorem node_logs {n i : Nat} {sub : Runner} {p : Parser} (hroot : root.Made cx.rules)
    (hsub : ∀ q j, Reaches cx.rules root q → j ≤ cx.text.size →
      (sub q j).Logs cx root fun entries r => r.Within j cx.text.size ∧ Tells cx entries r)
    (hp : Reaches cx.rules root p) (hi : i ≤ cx.text.size) :
    (nodeReply cx n sub p i >>= conclude cx p).Logs cx root fun entries r =>
      r.Within i cx.text.size ∧ Tells cx (.trying p.tag i :: entries) r ∧
      ∀ why start, cx.trace = true → r = .reject why start →
        entries.getLast? = some (.failed p.tag start why) := by
  rw [nodeReply_eq]
  have hsound : (nodeScript cx n p i).Sound cx.rules root cx.text.size
      (p.Answers cx.text.size i) [] := nodeScript_sound hroot n hp hi
  have hscript : ((nodeScript cx n p i).exec cx.rules n sub).Logs cx root fun entries r =>
      ∃ heard, p.Answers cx.text.size i heard r ∧ ∀ r ∈ heard, Tells cx entries r :=
    Script.exec_logs hroot hsub [] hsound (by simp)
  refine .bind hscript fun entries r ⟨heard, ⟨hwithin, hown⟩, htells⟩ => ?_
  cases r with
  | accept v stop => exact .pure ⟨hwithin, nofun, nofun⟩
  | reject why start =>
    refine .bind (.note nofun) fun more _ hmore => .pure ?_
    refine ⟨hwithin, fun why' start' ht he => ?_, fun why' start' ht he => ?_⟩
    · cases he
      rw [hmore, if_pos ht, List.append_nil]
      rcases hown why start rfl with hheard | ⟨rfl, htag⟩
      · exact (htells _ hheard why start ht rfl).of_sublist
          ((List.sublist_append_left ..).trans (List.sublist_cons_self ..))
      · exact ⟨p.tag, htag, .cons_cons _ (List.sublist_append_right ..)⟩
    · cases he
      simp [hmore, ht]

theorem interpret_logs (cx : Context) {root : Parser} (hroot : root.Made cx.rules) (n : Nat)
    {p : Parser} (hp : Reaches cx.rules root p) {i : Nat} (hi : i ≤ cx.text.size) :
    (interpret cx n p i).Logs cx root fun entries r =>
      r.Within i cx.text.size ∧ Tells cx entries r := by
  induction n generalizing p i with
  | zero => exact .exhaust
  | succ n ih =>
    rw [interpret, step_eq, Parser.unknownTag?_eq_none (hroot.kinded p hp)]
    have hannounce : (announce cx p i).Logs cx root fun entries _ =>
        entries = if cx.trace then [.trying p.tag i] else [] :=
      .note fun tag j h => by cases h; exact hi
    refine .bind hannounce fun entries _ hentries => ?_
    refine (node_logs hroot (fun q j hq hj => ih hq hj) hp hi).mono fun more r hr => ?_
    refine ⟨hr.1, fun why start ht he => ?_⟩
    rw [hentries, if_pos ht]
    exact hr.2.1 why start ht he

end

/-- A run from a settled memory ends as it does untraced from any other one. -/
theorem interpret_untraced {rules : Rules} {text : Array Char} {p : Parser} (hp : p.Made rules)
    {m m' : Memory} (hm : m.Settled rules p) (hm' : m'.Settled rules p) (n i : Nat) :
    ((interpret ⟨rules, text, true⟩ n p i).exec m).1 =
      ((interpret ⟨rules, text, false⟩ n p i).exec m').1 := by
  have hsuffix : Suffix 0 text text := ⟨(Nat.zero_add _).symm, fun i => by rw [Nat.zero_add]⟩
  obtain ⟨-, -, hmirror⟩ := interpret_mirrors hsuffix hp false n i .refl m m' hm hm'
  rw [Nat.zero_add] at hmirror
  rw [((interpret_sameCells rules text true false n p i) m m rfl).2.eq, hmirror]
  rcases ((interpret ⟨rules, text, false⟩ n p i).exec m).1 with h | r
  · rfl
  · exact congrArg Except.ok r.shift_zero.symm

/-- What the log tells of a run that ends. -/
theorem interpret_told (cx : Context) {p : Parser} (ht : cx.trace = true) (hp : p.Made cx.rules)
    {m : Memory} (hm : m.Settled cx.rules p) {i : Nat} (hi : i ≤ cx.text.size) (n : Nat)
    (hends : ((interpret cx n p i).exec m).1 ≠ .error .exhausted) :
    ∃ entries, ((interpret cx n p i).exec m).2.log = entries.reverse ++ m.log ∧
      Lines cx entries ∧ entries.head? = some (.trying p.tag i) ∧
      ∀ why start, ((interpret cx n p i).exec m).1 = .ok (.reject why start) →
        entries.getLast? = some (.failed p.tag start why) ∧ Told why start entries := by
  cases n with
  | zero => exact absurd rfl hends
  | succ n =>
    have hwritten : (m.write (.trying p.tag i)).Settled cx.rules p := ⟨hm.node, hm.right⟩
    obtain ⟨entries, -, hlog, hlines, htold⟩ :=
      node_logs hp (fun q j hq hj => interpret_logs cx hp n hq hj) .refl hi _ hwritten
    have hexec : (interpret cx (n + 1) p i).exec m =
        (nodeReply cx n (interpret cx n) p i >>= conclude cx p).exec
          (m.write (.trying p.tag i)) := by
      rw [interpret, step_eq, Parser.unknownTag?_eq_none (hp.kinded p .refl)]
      simp only [announce, ht, if_true]
      rw [Run.exec_bind, Run.exec_write]
    rw [hexec]
    refine ⟨.trying p.tag i :: entries, ?_, ?_, rfl, fun why start hr => ?_⟩
    · rw [hlog, List.reverse_cons, List.append_assoc]
      rfl
    · have hfirst : Lines cx [.trying p.tag i] :=
        ⟨by simp [ht], fun tag j hj => by cases List.mem_singleton.1 hj; exact hi⟩
      exact hfirst.append hlines
    · obtain ⟨-, htells, hlast⟩ := htold _ hr
      refine ⟨?_, htells why start ht rfl⟩
      rw [List.getLast?_cons, hlast why start ht rfl]
      rfl

/-- A traced run ends as the untraced one, which logs nothing. It adds entries at offsets of the
text to the log, first that its root was tried; if it rejects, the rejection of the root comes last,
and the entries tell of the node that this rejection came from. -/
theorem trace_observes {rules : Rules} {p : Parser} (hp : p.Made rules) {m m' : Memory}
    (hm : m.Settled rules p) (hm' : m'.Settled rules p) (depth : Nat) (input : String) :
    let traced := (evaluate rules depth p input true).exec m
    let untraced := (evaluate rules depth p input false).exec m'
    traced.1 = untraced.1 ∧ untraced.2.log = m'.log ∧
    (traced.1 ≠ .error .exhausted → ∃ entries, traced.2.log = entries.reverse ++ m.log ∧
      (∀ tag i, .trying tag i ∈ entries → i ≤ input.length) ∧
      entries.head? = some (.trying p.tag 0) ∧
      ∀ why start, traced.1 = .ok ⟨input, .reject why start⟩ →
        entries.getLast? = some (.failed p.tag start why) ∧
        ∃ tag ∈ rejectingTags, [.trying tag start, .failed tag start why].Sublist entries) := by
  intro traced untraced
  let cx : Context := { rules, text := input.toList.toArray, trace := true }
  let cx' : Context := { rules, text := input.toList.toArray, trace := false }
  have hsize : cx.text.size = input.length := by
    rw [List.size_toArray, String.length_toList]
  have htraced := evaluateFrom_exec rules depth p input true 0 m
  have huntraced := evaluateFrom_exec rules depth p input false 0 m'
  change traced = _ at htraced
  change untraced = _ at huntraced
  rw [htraced, huntraced]
  refine ⟨?_, ?_, fun hends => ?_⟩
  · rw [interpret_untraced hp hm hm']
  · obtain ⟨entries, -, hlog, hlines, -⟩ :=
      interpret_logs cx' hp depth .refl (Nat.zero_le _) m' hm'
    rw [hlog, hlines.quiet rfl]
    rfl
  · obtain ⟨entries, hlog, hlines, hhead, htold⟩ :=
      interpret_told cx rfl hp hm (Nat.zero_le _) depth fun hexhausted =>
        hends (by rw [hexhausted]; rfl)
    refine ⟨entries, hlog, fun tag i hi => hsize ▸ hlines.inside tag i hi, hhead, ?_⟩
    intro why start hr
    refine htold why start ?_
    rcases hreply : ((interpret cx depth p 0).exec m).1 with h | r <;> rw [hreply] at hr
    · cases hr
    · cases hr
      rfl

def digraph : Parser := .product 2 (.char 0 'a') (.char 1 'b')

theorem digraph_observed : digraph.Made [] ∧ ({} : Memory).Settled [] digraph ∧
    ∃ why entries,
      ((evaluate [] 2 digraph "ac" true).exec {}).1 = .ok ⟨"ac", .reject why 1⟩ ∧
      ((evaluate [] 2 digraph "ac" true).exec {}).2.log = entries.reverse ∧
      entries.getLast? = some (.failed "product" 1 why) ∧
      ∃ tag ∈ rejectingTags, [.trying tag 1, .failed tag 1 why].Sublist entries := by
  have hmade : digraph.Made [] := Parser.made_of_static rfl rfl
  have hempty := Memory.Settled.empty [] digraph
  have hrun : ∃ why, ((evaluate [] 2 digraph "ac" true).exec {}).1 = .ok ⟨"ac", .reject why 1⟩ :=
    ⟨_, rfl⟩
  obtain ⟨why, hreject⟩ := hrun
  obtain ⟨-, -, htold⟩ := trace_observes hmade hempty hempty 2 "ac"
  obtain ⟨entries, hlog, -, -, hrejects⟩ := htold (by rw [hreject]; nofun)
  obtain ⟨hlast, htag⟩ := hrejects why 1 hreject
  exact ⟨hmade, hempty, why, entries, hreject, hlog.trans (List.append_nil _), hlast, htag⟩

end ParserAlgebra
