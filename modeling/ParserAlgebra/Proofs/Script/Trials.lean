import ParserAlgebra.Proofs.Matches
import ParserAlgebra.Proofs.Onward

/-!
# What a node tries

The script of a node can list the runs of other parsers that it asks for, in order, beside its
value. With the list it executes as without. `Parser.Tries` says which parsers a node tries, and at
which offsets, on the way to a reply; what a loop tries is told by the matches that it goes through.
A node that runs other parsers through a runner with a log of its own leaves the list there.
-/

namespace ParserAlgebra

open Run (Extends Growing Lockstep Moves Steady Yields)

namespace Run

variable {α β : Type}

theorem exec_map (f : α → β) (x : Run α) (m : Memory) :
    (f <$> x).exec m = ((x.exec m).1.map f, (x.exec m).2) := by
  rw [map_eq_pure_bind, exec_bind]
  rcases x.exec m with ⟨_ | _, _⟩ <;> rfl

/-- Under a function the runs yield what it makes of their values. -/
theorem Yields.map {y : Nat → Run α} {m : Memory} {a : α} {c : Cells} (f : α → β)
    (h : Yields y m (.ok a) c) : Yields (fun k => f <$> y k) m (.ok (f a)) c := by
  obtain ⟨k, ho, hc⟩ := h
  refine ⟨k, ?_⟩
  rw [exec_map, ho]
  exact ⟨rfl, hc⟩

/-- What runs yield under a function is made of a value that they yield. -/
theorem Yields.of_map {y : Nat → Run α} {m : Memory} {b : β} {c : Cells} (f : α → β)
    (h : Yields (fun k => f <$> y k) m (.ok b) c) : ∃ a, f a = b ∧ Yields y m (.ok a) c := by
  obtain ⟨k, ho, hc⟩ := h
  rw [exec_map] at ho hc
  rcases hx : (y k).exec m with ⟨halt | a, m'⟩ <;> rw [hx] at ho hc
  · cases ho
  · cases ho
    exact ⟨a, rfl, k, by rw [hx]; exact ⟨rfl, hc⟩⟩

end Run

/-! ### Listing -/

namespace Script

variable {α β : Type}

/-- The script with the runs of parsers that it asks for beside its value. -/
def listed : Script α → Script (α × List (Parser × Nat))
  | .done a => .done (a, [])
  | .returned rest => .returned rest.listed
  | .raised f => .raised f
  | .run p i next => .run p i fun r => (next r).listed >>= fun x => .done (x.1, (p, i) :: x.2)
  | .call t next => .call t fun p => (next p).listed
  | .force id t next => .force id t fun p => (next p).listed
  | .settle v again last => .settle v (fun s => (again s).listed) fun w => (last w).listed
  | .broken f => .broken f
  | .exhaust => .exhaust

section

variable (rules : Rules) (n : Nat) (sub : Runner)

theorem exec_listed_run (p : Parser) (i : Nat) (next : Reply → Script α) :
    (Script.run p i next).listed.exec rules n sub =
      sub p i >>= fun r => (next r).listed.exec rules n sub >>= fun x =>
        pure (x.1, (p, i) :: x.2) := by
  simp only [listed, exec, exec_bind]

/-- Listing changes nothing else. -/
theorem exec_listed (s : Script α) :
    Prod.fst <$> s.listed.exec rules n sub = s.exec rules n sub := by
  induction s with
  | done | raised | broken | exhaust => rfl
  | returned rest ih => exact ih
  | run p i next ih =>
    simp only [exec_listed_run, exec, map_bind, map_pure]
    refine bind_congr fun r => ?_
    rw [← ih r, map_eq_pure_bind]
  | call t next ih | force id t next ih =>
    simp only [listed, exec, map_bind]
    exact bind_congr fun p => ih p
  | settle v again last ihagain ihlast =>
    cases v with
    | left s => exact ihagain s
    | right w => exact ihlast w
    | _ => rfl

/-- Of two scripts in a row the runs of the first are listed before those of the second. -/
theorem exec_listed_bind (x : Script α) (f : α → Script β) :
    (x >>= f).listed.exec rules n sub =
      x.listed.exec rules n sub >>= fun a => (f a.1).listed.exec rules n sub >>= fun b =>
        pure (b.1, a.2 ++ b.2) := by
  change (x.bind f).listed.exec rules n sub = _
  induction x with
  | done a =>
    simp only [Script.bind, listed, exec, pure_bind, List.nil_append]
    exact (bind_pure _).symm
  | returned rest ih => exact ih
  | raised | broken | exhaust => rfl
  | run p i next ih =>
    simp only [Script.bind, exec_listed_run, ih, bind_assoc, pure_bind, List.cons_append]
  | call t next ih | force id t next ih =>
    simp only [Script.bind, listed, exec, ih, bind_assoc]
  | settle v again last ihagain ihlast =>
    cases v with
    | left s => exact ihagain s
    | right w => exact ihlast w
    | _ => rfl

end

/-! ### Larger bounds -/

theorem exec_extends {n : Nat} {sub sub' : Runner} (rules : Rules)
    (hsub : ∀ p i, Extends (sub p i) (sub' p i)) (s : Script α) :
    Extends (s.exec rules n sub) (s.exec rules (n + 1) sub') := by
  induction s with
  | done | raised | broken | exhaust => exact .refl _
  | returned rest ih => exact ih
  | run p i next ih => exact .bind (hsub p i) ih
  | call t next ih => exact .bind (call_extends rules n t) ih
  | force id t next ih => exact .bind (once_extends _ (call_extends rules n t)) ih
  | settle v again last ihagain ihlast =>
    cases v with
    | left s => exact ihagain s
    | right w => exact ihlast w
    | _ => exact .refl _

/-- A loop from a seed goes on where its bound stopped it. -/
theorem rounds_listed_extends {n l : Nat} {sub sub' : Runner} (rules : Rules)
    (hsub : ∀ p i, Extends (sub p i) (sub' p i)) (next : Value → Except Fault Parser) (seed : Value)
    (i : Nat) : Extends ((roundsScript next n seed i).listed.exec rules l sub)
      ((roundsScript next (n + 1) seed i).listed.exec rules (l + 1) sub') := by
  induction n generalizing seed i with
  | zero => exact .exhaust _
  | succ n ih =>
    rw [roundsScript, roundsScript, exec_listed_bind, exec_listed_bind]
    refine .bind (exec_extends rules hsub _) fun q => .bind ?_ fun _ => .refl _
    rw [onward, onward, exec_listed_run, exec_listed_run]
    refine .bind (hsub q.1 i) fun reply => .bind ?_ fun _ => .refl _
    cases reply with
    | reject why start => exact .refl _
    | accept v stop => cases v <;> first | exact .refl _ | exact ih _ _

end Script

theorem node_listed_extends (cx : Context) (n : Nat) {sub sub' : Runner}
    (hsub : ∀ p i, Extends (sub p i) (sub' p i)) (p : Parser) (i : Nat) :
    Extends ((nodeScript cx n p i).listed.exec cx.rules n sub)
      ((nodeScript cx (n + 1) p i).listed.exec cx.rules (n + 1) sub') := by
  cases p with
  | loop id label next seed => exact Script.rounds_listed_extends cx.rules hsub next seed i
  | _ => exact Script.exec_extends cx.rules hsub _

/-! ### Scripts that look at nothing but the cells -/

theorem call_sameCells (rules : Rules) (n : Nat) (t : Thunk) :
    Lockstep Memory.SameCells Eq (t.call rules n) (t.call rules n) := by
  refine .of_plain rules fun kept => ?_
  have h := call_lockstep (w := Plan.plain rules kept) n (t := t) (fun _ _ => rfl)
    fun q _ => Plan.plain_everywhere rules kept q
  simp only [Plan.plain, Rules.delaying_noNode, Thunk.delaying_noNode] at h
  exact h.mono fun p q hpq => (p.delaying_noNode.symm.trans hpq.1.symm : p = q)

theorem Memory.SameCells.fill {m m' : Memory} (h : m.SameCells m') (cell : Cell) (p : Parser) :
    (m.fill cell p).SameCells (m'.fill cell p) :=
  congrArg (fun c : Cells => Cells.mk c.nextId ((cell, p) :: c.filled)) h

theorem once_sameCells (cell : Cell) {x : Run Parser} (h : Lockstep Memory.SameCells Eq x x) :
    Lockstep Memory.SameCells Eq (Run.once cell x) (Run.once cell x) := by
  have hlook : Lockstep Memory.SameCells Eq (Run.parserIn? cell) (Run.parserIn? cell) :=
    fun m m' hm => ⟨hm, by
      rw [Run.exec_parserIn?, Run.exec_parserIn?, hm.parserIn?_eq cell]
      exact .ok rfl⟩
  refine .bind hlook fun kept _ he => ?_
  subst he
  cases kept with
  | some p => exact .pure rfl
  | none =>
    refine .bind h fun p _ he => ?_
    subst he
    exact .bind (fun m m' hm => ⟨hm.fill cell p, .ok rfl⟩) fun _ _ _ => .pure rfl

theorem Script.exec_steady {α : Type} (cx : Context) (s : Script α) :
    Steady fun k => s.exec cx.rules k (interpret cx k) := by
  refine ⟨fun k => Script.exec_extends cx.rules (interpret_extends_succ cx k) s, fun k => ?_⟩
  have hnext : ∀ {β : Type} {x : Run β} {f : β → Run α}, Lockstep Memory.SameCells Eq x x →
      (∀ b, Lockstep Memory.SameCells Eq (f b) (f b)) →
      Lockstep Memory.SameCells Eq (x >>= f) (x >>= f) := fun hx hf =>
    .bind hx fun b _ he => he ▸ hf b
  induction s with
  | done a => exact .pure rfl
  | raised f | broken f => exact .raise f
  | exhaust => exact .exhaust
  | returned rest ih => exact ih
  | run p i next ih => exact hnext ((interpret_steady cx p i).blind k) ih
  | call t next ih => exact hnext (call_sameCells cx.rules k t) ih
  | force id t next ih => exact hnext (once_sameCells _ (call_sameCells cx.rules k t)) ih
  | settle v again last ihagain ihlast =>
    cases v with
    | left s => exact ihagain s
    | right w => exact ihlast w
    | _ => exact .raise _

theorem node_listed_steady (cx : Context) (p : Parser) (i : Nat) :
    Steady fun k => (nodeScript cx k p i).listed.exec cx.rules k (interpret cx k) :=
  ⟨fun k => node_listed_extends cx k (interpret_extends_succ cx k) p i,
    fun k => (Script.exec_steady cx (nodeScript cx k p i).listed).blind k⟩

/-! ### Logs of runs -/

/-- The runner with a log of its own, in which nothing else is written: an entry for each run that
it is asked for. -/
def Runner.logged (label : Parser → String) (run : Runner) : Runner := fun p i =>
  Run.ofExec fun m =>
    (((run p i).exec m).1, { ((run p i).exec m).2 with log := .trying (label p) i :: m.log })

/-- The log of these runs, last one first, on top of another log. -/
def loggedRuns (label : Parser → String) (ts : List (Parser × Nat)) (log : List LogEntry) :
    List LogEntry :=
  (ts.map fun t => .trying (label t.1) t.2).reverse ++ log

theorem loggedRuns_cons (label : Parser → String) (p : Parser) (i : Nat) (ts : List (Parser × Nat))
    (log : List LogEntry) :
    loggedRuns label ((p, i) :: ts) log = loggedRuns label ts (.trying (label p) i :: log) := by
  simp [loggedRuns]

/-- From the same cells the one run ends as the other one, which lists, and logs what is listed. -/
def Run.LogsListed {α : Type} (label : Parser → String) (x : Run α)
    (y : Run (α × List (Parser × Nat))) : Prop :=
  ∀ m m' : Memory, m.SameCells m' → (x.exec m).2.SameCells (y.exec m').2 ∧
    (x.exec m).1 = (y.exec m').1.map Prod.fst ∧
    ∀ a ts, (y.exec m').1 = .ok (a, ts) → (x.exec m).2.log = loggedRuns label ts m.log

/-- A first part that looks at the cells and logs nothing. -/
theorem Run.LogsListed.after {α β : Type} {label : Parser → String} {x : Run β} {f : β → Run α}
    {g : β → Run (α × List (Parser × Nat))} (hx : Lockstep Memory.SameCells Eq x x)
    (hlog : Moves (fun m m' => m'.log = m.log) x) (h : ∀ b, Run.LogsListed label (f b) (g b)) :
    Run.LogsListed label (x >>= f) (x >>= g) := by
  intro m m' hm
  obtain ⟨hcells, hA⟩ := hx m m' hm
  have hsame := hlog m
  rw [exec_bind, exec_bind]
  rcases hxm : x.exec m with ⟨halt | b, n⟩ <;> rcases hxm' : x.exec m' with ⟨halt' | b', n'⟩ <;>
    rw [hxm, hxm'] at hcells hA <;> rw [hxm] at hsame <;> cases hA.eq
  · exact ⟨hcells, rfl, fun _ _ h => by cases h⟩
  · rw [← hsame]
    exact h b n n' hcells

/-- Over a runner with a log a script logs what it lists. -/
theorem Script.exec_logged {α : Type} (rules : Rules) (n : Nat) {run : Runner}
    (hrun : ∀ p i, Lockstep Memory.SameCells Eq (run p i) (run p i)) (label : Parser → String)
    (s : Script α) :
    Run.LogsListed label (s.exec rules n (run.logged label)) (s.listed.exec rules n run) := by
  have hquiet := Memory.log_onward
  induction s with
  | done a => exact fun m m' hm => ⟨hm, rfl, fun _ _ h => by cases h; rfl⟩
  | raised | broken | exhaust => exact fun m m' hm => ⟨hm, rfl, fun _ _ h => by cases h⟩
  | returned rest ih => exact ih
  | run p i next ih =>
    intro m m' hm
    obtain ⟨hcells, hA⟩ := hrun p i m m' hm
    have hlogged : (run.logged label p i).exec m = (((run p i).exec m).1,
        { ((run p i).exec m).2 with log := .trying (label p) i :: m.log }) := rfl
    rw [exec_listed_run, exec, Run.exec_bind, Run.exec_bind, hlogged]
    rcases hx : (run p i).exec m with ⟨halt | r, n₁⟩ <;>
      rcases hy : (run p i).exec m' with ⟨halt' | r', n'⟩ <;>
      rw [hx, hy] at hcells hA <;> cases hA.eq
    · exact ⟨hcells, rfl, fun _ _ h => by cases h⟩
    · -- The rest begins with the entry of this run on top of the log.
      obtain ⟨hlast, ho, hlog⟩ := ih r { n₁ with log := .trying (label p) i :: m.log } n' hcells
      dsimp only
      rw [Run.exec_bind]
      rcases hz : ((next r).listed.exec rules n run).exec n' with ⟨halt | ⟨a, ts⟩, n''⟩ <;>
        rw [hz] at hlast ho hlog
      · exact ⟨hlast, ho, fun _ _ h => by cases h⟩
      · refine ⟨hlast, ho, fun b us h => ?_⟩
        cases h
        rw [loggedRuns_cons]
        exact hlog a ts rfl
  | call t next ih =>
    exact .after (call_sameCells rules n t) (call_moves (hquiet false) rules n t) ih
  | force id t next ih =>
    exact .after (once_sameCells _ (call_sameCells rules n t))
      (force_moves (hquiet true) rules n id t) ih
  | settle v again last ihagain ihlast =>
    cases v with
    | left s => exact ihagain s
    | right w => exact ihlast w
    | _ => exact fun m m' hm => ⟨hm, rfl, fun _ _ h => by cases h⟩

/-! ### Tries -/

/-- On the way to the reply the node runs these parsers at these offsets, one after the other. -/
def Parser.Tries (cx : Context) (p : Parser) (i : Nat) (m : Memory) (r : Reply)
    (ts : List (Parser × Nat)) (c : Cells) : Prop :=
  Yields (fun k => (nodeScript cx k p i).listed.exec cx.rules k (interpret cx k)) m (.ok (r, ts)) c

section

variable {cx : Context} {p : Parser} {i : Nat} {m : Memory} {r r' : Reply}
  {ts ts' : List (Parser × Nat)} {c c' : Cells}

theorem Parser.Tries.unique (h : p.Tries cx i m r ts c) (h' : p.Tries cx i m r' ts' c') :
    r = r' ∧ ts = ts' ∧ c = c' := by
  obtain ⟨ho, hc⟩ := Yields.unique (node_listed_steady cx p i).growing h h'
  cases ho
  exact ⟨rfl, rfl, hc⟩

theorem Parser.Tries.of_cells (h : p.Tries cx i m.cells.memory r ts c) : p.Tries cx i m r ts c :=
  Yields.of_cells (node_listed_steady cx p i) m.cells.cells_memory h

/-- A node replies exactly by way of what it tries. -/
theorem evaluates_iff_tries (hp : p.unknownTag? = none) :
    Evaluates cx p i m (.ok r) c ↔ ∃ ts, p.Tries cx i m r ts c := by
  rw [evaluates_iff hp, Yields.congr fun k => (nodeReply_eq cx k (interpret cx k) p i).trans
    (Script.exec_listed cx.rules k (interpret cx k) _).symm]
  constructor
  · intro h
    obtain ⟨⟨r', ts⟩, rfl, hts⟩ := h.of_map Prod.fst
    exact ⟨ts, hts⟩
  · rintro ⟨ts, h⟩
    exact h.map Prod.fst

/-- Over a runner with a log a node leaves there what it tries, under every bound that suffices. -/
theorem Parser.Tries.logged (h : p.Tries cx i m r ts c) :
    ∃ least, ∀ k, least ≤ k → ∀ label : Parser → String, ∃ m',
      (nodeReply cx k ((interpret cx k).logged label) p i).exec m = (.ok r, m') ∧ m'.cells = c ∧
        m'.log = loggedRuns label ts m.log := by
  obtain ⟨least, hleast⟩ := h.eventually (node_listed_steady cx p i).growing
  refine ⟨least, fun k hk label => ?_⟩
  obtain ⟨ho, hc⟩ := hleast k hk
  have hrun : ∀ q j, Lockstep Memory.SameCells Eq (interpret cx k q j) (interpret cx k q j) :=
    fun q j => (interpret_steady cx q j).blind k
  obtain ⟨hcells, hreply, hlog⟩ :=
    Script.exec_logged cx.rules k hrun label (nodeScript cx k p i) m m rfl
  rw [ho] at hreply hlog
  rw [nodeReply_eq]
  exact ⟨_, Prod.ext hreply rfl, hcells.trans hc, hlog r ts rfl⟩

end

/-- The parser `q` gives the reply and nothing else, and what its node tries is `p`, once at each of
the offsets, in order. These are the runs that the node leaves in the log of its runner, under every
bound that suffices and however they are labelled. -/
structure Parser.RepliesAfter (cx : Context) (q p : Parser) (i : Nat) (m : Memory) (r : Reply)
    (offsets : List Nat) (c : Cells) : Prop where
  evaluates : ∀ o c', Evaluates cx q i m o c' ↔ o = .ok r ∧ c' = c
  tries : ∀ r' ts c', q.Tries cx i m r' ts c' ↔
    r' = r ∧ ts = (offsets.map fun j => (p, j)) ∧ c' = c
  logged : ∃ least, ∀ k, least ≤ k → ∀ label : Parser → String, ∃ m',
    (nodeReply cx k ((interpret cx k).logged label) q i).exec m = (.ok r, m') ∧ m'.cells = c ∧
      m'.log = loggedRuns label (offsets.map fun j => (p, j)) m.log

theorem Parser.Tries.repliesAfter {cx : Context} {q p : Parser} {i : Nat} {m : Memory} {r : Reply}
    {offsets : List Nat} {c : Cells} (hq : q.unknownTag? = none)
    (h : q.Tries cx i m r (offsets.map fun j => (p, j)) c) :
    q.RepliesAfter cx p i m r offsets c where
  evaluates o c' := by
    have hr : Evaluates cx q i m (.ok r) c := (evaluates_iff_tries hq).2 ⟨_, h⟩
    refine ⟨fun h' => (hr.unique h').imp Eq.symm Eq.symm, ?_⟩
    rintro ⟨rfl, rfl⟩
    exact hr
  tries r' ts c' := by
    constructor
    · intro h'
      obtain ⟨rfl, rfl, rfl⟩ := h.unique h'
      exact ⟨rfl, rfl, rfl⟩
    · rintro ⟨rfl, rfl, rfl⟩
      exact h
  logged := h.logged

/-- What a script lists before it ends with a reply of its own. -/
theorem listed_reply {cx : Context} {α : Type} {x : Script α} {f : α → Script Reply} {a : α}
    {m : Memory} {r : Reply} {ts : List (Parser × Nat)} {c : Cells}
    (h : Yields (fun k => x.listed.exec cx.rules k (interpret cx k)) m (.ok (a, ts)) c)
    (hf : ∀ k, (f a).listed.exec cx.rules k (interpret cx k) = pure (r, [])) :
    Yields (fun k => (x >>= f).listed.exec cx.rules k (interpret cx k)) m (.ok (r, ts)) c := by
  rw [Yields.congr fun k => Script.exec_listed_bind cx.rules k (interpret cx k) x f]
  refine .bind_ok (Script.exec_steady cx _).growing
    (.bind (Script.exec_steady cx _) fun _ => .pure _) h ?_
  rw [Yields.congr fun k => by rw [hf k, pure_bind, List.append_nil]]
  exact Yields.pure_iff.2 ⟨rfl, rfl⟩

/-! ### Loops -/

theorem foldlM_cons_ok {σ α : Type} {f : σ → α → Except Fault σ} {s s' : σ} {a : α} {as : List α}
    (h : (a :: as).foldlM f s = .ok s') : ∃ s₁, f s a = .ok s₁ ∧ as.foldlM f s₁ = .ok s' := by
  rw [List.foldlM_cons] at h
  cases hs : f s a with
  | error e => rw [hs] at h; cases h
  | ok s₁ => rw [hs] at h; exact ⟨s₁, rfl, h⟩

section

variable {cx : Context} {p : Parser} {i limit : Nat} {c c' : Cells} {ms : List (Value × Nat)}
  {σ : Type}

/-- A greedy loop goes through the strides and tries its source once more. -/
theorem Strides.tries (h : Strides cx p i c ms c') (hp : p.Kinded cx.rules)
    (hc : c.memory.Holds (Parser.Kinded cx.rules)) (hi : i ≤ cx.text.size)
    {append : σ → Value → Except Fault σ} {s s' : σ}
    (hfold : (valuesOf ms).foldlM append s = .ok s') {budget : Nat}
    (hbudget : cx.text.size - i < budget) :
    Yields (fun k => (greedyScript p append budget s i).listed.exec cx.rules k (interpret cx k))
      c.memory (.ok ((s', lastStop i ms), (starts i ms).map fun j => (p, j))) c' := by
  induction h generalizing s budget with
  | @idle i c c' r h hr =>
    obtain ⟨b, rfl⟩ := Nat.exists_eq_succ_of_ne_zero (Nat.ne_zero_of_lt hbudget)
    cases hfold
    simp only [greedyScript, Script.exec_listed_run]
    refine .bind_ok (interpret_steady cx p i).growing
      (.bind (Script.exec_steady cx _) fun _ => .pure _) h ?_
    cases hr with
    | reject why start => exact Yields.pure_iff.2 ⟨rfl, rfl⟩
    | accept v =>
      simp only [if_true]
      exact Yields.pure_iff.2 ⟨rfl, rfl⟩
  | @stride i stop c c₁ c' v ms h hlt hrest ih =>
    obtain ⟨b, rfl⟩ := Nat.exists_eq_succ_of_ne_zero (Nat.ne_zero_of_lt hbudget)
    obtain ⟨⟨-, hle⟩, hholds⟩ := h.within hp hc hi
    obtain ⟨s₁, hs₁, hfold⟩ := foldlM_cons_ok hfold
    simp only [greedyScript, Script.exec_listed_run]
    refine .bind_ok (interpret_steady cx p i).growing
      (.bind (Script.exec_steady cx _) fun _ => .pure _) h ?_
    simp only [if_neg hlt.ne', hs₁]
    exact .bind_ok (a := ((s', lastStop stop ms), (starts stop ms).map fun j => (p, j)))
      (Script.exec_steady cx _).growing (.pure _) (ih hholds hle hfold (by omega))
      (Yields.pure_iff.2 ⟨rfl, rfl⟩)

/-- A bounded loop goes through the matches up to its bound. It tries its source once more if a
rejection stopped it. -/
theorem MatchesUpTo.tries (h : MatchesUpTo cx p limit i c ms c')
    {join : Value → Value → Except Fault Value} {u w : Value}
    (hfold : (valuesOf ms).foldlM join u = .ok w) (count : Nat) :
    Yields (fun k =>
        (upToScript p join limit count u i).listed.exec cx.rules k (interpret cx k)) c.memory
      (.ok ((count + ms.length, w, lastStop i ms),
        ((starts i ms).take limit).map fun j => (p, j))) c' := by
  induction h generalizing u count with
  | full =>
    cases hfold
    exact Yields.pure_iff.2 ⟨rfl, rfl⟩
  | @rejected limit i start c c' why h =>
    cases hfold
    have hone : (starts i []).take (limit + 1) = [i] := by simp [starts]
    simp only [upToScript, Script.exec_listed_run, hone]
    exact .bind_ok (interpret_steady cx p i).growing
      (.bind (Script.exec_steady cx _) fun _ => .pure _) h (Yields.pure_iff.2 ⟨rfl, rfl⟩)
  | @matched limit i stop c c₁ c' v ms h hrest ih =>
    obtain ⟨u₁, hu₁, hfold⟩ := foldlM_cons_ok hfold
    simp only [upToScript, Script.exec_listed_run]
    refine .bind_ok (interpret_steady cx p i).growing
      (.bind (Script.exec_steady cx _) fun _ => .pure _) h ?_
    simp only [hu₁, List.length_cons, Nat.add_comm ms.length 1, ← Nat.add_assoc]
    exact .bind_ok (a := ((count + 1 + ms.length, w, lastStop stop ms),
        ((starts stop ms).take limit).map fun j => (p, j)))
      (Script.exec_steady cx _).growing (.pure _) (ih hfold (count + 1))
      (Yields.pure_iff.2 ⟨rfl, rfl⟩)

end

end ParserAlgebra
