import ParserAlgebra.Proofs.Script.Watch
import ParserAlgebra.Proofs.Yields

/-!
# Runs and the memory that they leave

`Parser.Runs` says how the run of a parser ends and which memory it leaves, its counts of calls and
its log included. Two runs in a row start the second from what the first one left. A node that is
traced announces its trial and tells of its rejection, and has nothing else to say of its own.
-/

namespace ParserAlgebra

/-- The memory with these entries in the log behind those that are there, if the runs are traced. -/
def Memory.told (cx : Context) (m : Memory) (entries : List LogEntry) : Memory :=
  if cx.trace then { m with log := entries.reverse ++ m.log } else m

@[simp] theorem Memory.told_nil (cx : Context) (m : Memory) : m.told cx [] = m := by
  unfold told
  split <;> rfl

@[simp] theorem Memory.told_told (cx : Context) (m : Memory) (entries entries' : List LogEntry) :
    (m.told cx entries).told cx entries' = m.told cx (entries ++ entries') := by
  unfold told
  split <;> simp

namespace Run

variable {α β : Type}

/-- With some bound the run has this outcome from the first memory and leaves the second. -/
def EndsIn (y : Nat → Run α) (m : Memory) (o : Except Fault α) (m' : Memory) : Prop :=
  ∃ k, (y k).exec m = (ended o, m')

namespace EndsIn

variable {y : Nat → Run α} {g : Nat → α → Run β} {m m' m'' : Memory} {o : Except Fault α}
  {w : Except Fault β}

theorem eventually (hy : Growing y) (h : EndsIn y m o m') :
    ∃ k, ∀ l, k ≤ l → (y l).exec m = (ended o, m') := by
  obtain ⟨k, hk⟩ := h
  refine ⟨k, fun l hl => ?_⟩
  have heq : (y l).exec m = (y k).exec m :=
    Extends.of_le hy hl m (by rw [hk]; exact ended_ne_exhausted o)
  exact heq.trans hk

theorem succ_iff (hy : Growing y) : EndsIn (fun k => y (k + 1)) m o m' ↔ EndsIn y m o m' := by
  refine ⟨fun ⟨k, h⟩ => ⟨k + 1, h⟩, fun h => ?_⟩
  obtain ⟨k, hk⟩ := h.eventually hy
  exact ⟨k, hk (k + 1) (Nat.le_succ k)⟩

/-- A run that is the same whatever its bound ends as it does. -/
theorem const_iff {x : Run α} {e : Except Fault α} (h : x.exec m = (ended e, m'')) :
    EndsIn (fun _ => x) m o m' ↔ o = e ∧ m' = m'' := by
  constructor
  · rintro ⟨_, hx⟩
    have he := hx.symm.trans h
    exact ⟨ended_injective (congrArg Prod.fst he), congrArg Prod.snd he⟩
  · rintro ⟨rfl, rfl⟩
    exact ⟨0, h⟩

theorem pure_iff {a : α} : EndsIn (fun _ => Pure.pure a) m o m' ↔ o = .ok a ∧ m' = m :=
  const_iff (e := .ok a) (exec_pure a m)

theorem bind_iff (hy : Growing y) (hg : ∀ a, Growing fun k => g k a) :
    EndsIn (fun k => y k >>= g k) m w m'' ↔
      (∃ f, w = .error f ∧ EndsIn y m (.error f) m'') ∨
        ∃ a m', EndsIn y m (.ok a) m' ∧ EndsIn (fun k => g k a) m' w m'' := by
  constructor
  · rintro ⟨k, h⟩
    rw [exec_bind] at h
    rcases hx : (y k).exec m with ⟨halt | a, m'⟩ <;> rw [hx] at h
    · injection h with ho hm
      subst hm
      cases w with
      | ok b => cases ho
      | error f =>
        cases ho
        exact .inl ⟨f, rfl, k, hx⟩
    · exact .inr ⟨a, m', ⟨k, hx⟩, k, h⟩
  · rintro (⟨f, rfl, k, hk⟩ | ⟨a, m', hfirst, hsecond⟩)
    · refine ⟨k, ?_⟩
      rw [exec_bind, hk]
      rfl
    · obtain ⟨k, hk⟩ := hfirst.eventually hy
      obtain ⟨l, hl⟩ := hsecond.eventually (hg a)
      -- The larger of the two bounds suffices for both parts.
      refine ⟨max k l, ?_⟩
      rw [exec_bind, hk _ (Nat.le_max_left k l)]
      exact hl _ (Nat.le_max_right k l)

/-- Behind a run that ends at once. -/
theorem after_iff {x : Run α} {a : α} (h : x.exec m = (.ok a, m')) :
    EndsIn (fun k => x >>= g k) m w m'' ↔ EndsIn (fun k => g k a) m' w m'' := by
  simp only [EndsIn, exec_bind, h]

end EndsIn

end Run

open Run (EndsIn Growing)

/-- With some bound the run of the parser at an offset has this outcome from the first memory and
leaves the second. -/
def Parser.Runs (cx : Context) (p : Parser) (i : Nat) (m : Memory) (o : Except Fault Reply)
    (m' : Memory) : Prop :=
  EndsIn (fun k => interpret cx k p i) m o m'

section

variable {cx : Context} {p q : Parser} {i id : Nat} {m m' : Memory} {o : Except Fault Reply}

/-- What a run yields is what it leaves, less the counts of calls and the log. -/
theorem evaluates_iff_runs {c : Cells} :
    Evaluates cx p i m o c ↔ ∃ m', p.Runs cx i m o m' ∧ m'.cells = c := by
  constructor
  · rintro ⟨k, ho, hc⟩
    exact ⟨_, ⟨k, Prod.ext ho rfl⟩, hc⟩
  · rintro ⟨m', ⟨k, h⟩, hc⟩
    exact ⟨k, by rw [h], by rw [h]; exact hc⟩

/-! ### Nodes -/

/-- What a traced node tells of its end: nothing but a rejection. -/
def failureLines (tag : String) : Except Fault Reply → List LogEntry
  | .ok (.reject why start) => [.failed tag start why]
  | _ => []

@[simp] theorem failureLines_accept (tag : String) (v : Value) (stop : Nat) :
    failureLines tag (.ok (.accept v stop)) = [] := rfl

@[simp] theorem failureLines_error (tag : String) (f : Fault) :
    failureLines tag (.error f) = [] := rfl

theorem exec_announce (cx : Context) (p : Parser) (i : Nat) (m : Memory) :
    (announce cx p i).exec m = (.ok (), m.told cx [.trying p.tag i]) := by
  unfold announce Memory.told
  split <;> rfl

theorem exec_conclude (cx : Context) (p : Parser) (r : Reply) (m : Memory) :
    (conclude cx p r).exec m = (.ok r, m.told cx (failureLines p.tag (.ok r))) := by
  cases r with
  | accept v stop => simp [conclude, failureLines]
  | reject why start =>
    simp only [conclude, Memory.told]
    split <;> rfl

/-- What a node does stands between what it says of its trial and of its rejection. -/
theorem runs_iff (hp : p.unknownTag? = none) : p.Runs cx i m o m' ↔ ∃ mid,
    EndsIn (fun k => nodeReply cx k (interpret cx k) p i) (m.told cx [.trying p.tag i]) o mid ∧
      m' = mid.told cx (failureLines p.tag o) := by
  have hstep : (fun k => interpret cx (k + 1) p i) = fun k => announce cx p i >>= fun _ =>
      nodeReply cx k (interpret cx k) p i >>= conclude cx p := by
    funext k
    rw [interpret, step_eq, hp]
  rw [Parser.Runs, ← EndsIn.succ_iff (interpret_steady cx p i).growing, hstep,
    EndsIn.after_iff (exec_announce cx p i m),
    EndsIn.bind_iff (g := fun _ => conclude cx p) (nodeReply_steady cx p i).growing
      fun r => .const _]
  constructor
  · rintro (⟨f, rfl, h⟩ | ⟨r, mid, h, hr⟩)
    · exact ⟨m', h, (Memory.told_nil cx m').symm⟩
    · obtain ⟨rfl, rfl⟩ := (EndsIn.const_iff (e := .ok r) (exec_conclude cx p r mid)).1 hr
      exact ⟨mid, h, rfl⟩
  · rintro ⟨mid, h, rfl⟩
    cases o with
    | error f =>
      rw [failureLines_error, Memory.told_nil]
      exact .inl ⟨f, rfl, h⟩
    | ok r =>
      have hlast := (EndsIn.const_iff (e := .ok r) (exec_conclude cx p r mid)).2 ⟨rfl, rfl⟩
      exact .inr ⟨r, mid, h, hlast⟩

/-- An acceptance, as other outcomes are rejections and faults. -/
def Accepts (o : Except Fault Reply) : Prop := ∃ v stop, o = .ok (.accept v stop)

/-- What follows an acceptance decides; every other outcome stands. -/
theorem andThen_iff {f : Nat → Value → Nat → Run Reply}
    (hf : ∀ v stop, Growing fun k => f k v stop) :
    EndsIn (fun k => (interpret cx k p i).andThen (f k)) m o m' ↔
      ¬ Accepts o ∧ p.Runs cx i m o m' ∨
        ∃ v stop mid, p.Runs cx i m (.ok (.accept v stop)) mid ∧
          EndsIn (fun k => f k v stop) mid o m' := by
  unfold Run.andThen
  rw [EndsIn.bind_iff (interpret_steady cx p i).growing fun r => by
    cases r with
    | accept v stop => exact hf v stop
    | reject => exact .const _]
  constructor
  · rintro (⟨e, rfl, h⟩ | ⟨r, mid, h, hr⟩)
    · exact .inl ⟨nofun, h⟩
    · cases r with
      | accept v stop => exact .inr ⟨v, stop, mid, h, hr⟩
      | reject why start =>
        obtain ⟨rfl, rfl⟩ := EndsIn.pure_iff.1 hr
        exact .inl ⟨nofun, h⟩
  · rintro (⟨ho, h⟩ | ⟨v, stop, mid, h, hr⟩)
    · cases o with
      | error e => exact .inl ⟨e, rfl, h⟩
      | ok r =>
        cases r with
        | accept v stop => exact absurd ⟨v, stop, rfl⟩ ho
        | reject why start => exact .inr ⟨.reject why start, m', h, EndsIn.pure_iff.2 ⟨rfl, rfl⟩⟩
    · exact .inr ⟨.accept v stop, mid, h, hr⟩

theorem runs_map_iff {fn : Transform} : (Parser.map id p fn).Runs cx i m o m' ↔
    ∃ mid, m' = mid.told cx (failureLines "map" o) ∧
      (¬ Accepts o ∧ p.Runs cx i (m.told cx [.trying "map" i]) o mid ∨
        ∃ v stop, p.Runs cx i (m.told cx [.trying "map" i]) (.ok (.accept v stop)) mid ∧
          o = (fn.apply v).map (.accept · stop)) := by
  have hgrowing : ∀ v stop, Growing fun _ =>
      Run.ofExcept (fn.apply v) >>= fun w => (pure (.accept w stop) : Run Reply) :=
    fun _ _ => .const _
  have hlast (v stop mid last) : EndsIn (fun _ => Run.ofExcept (fn.apply v) >>= fun w =>
      pure (.accept w stop)) mid o last ↔ o = (fn.apply v).map (.accept · stop) ∧ last = mid :=
    EndsIn.const_iff (by cases fn.apply v <;> rfl)
  rw [runs_iff rfl]
  refine exists_congr fun mid => ?_
  rw [and_comm]
  refine and_congr_right fun _ => (andThen_iff hgrowing).trans (or_congr Iff.rfl ?_)
  simp only [hlast]
  constructor
  · rintro ⟨v, stop, mid, h, ho, rfl⟩
    exact ⟨v, stop, h, ho⟩
  · rintro ⟨v, stop, h, ho⟩
    exact ⟨v, stop, mid, h, ho, rfl⟩

theorem runs_product_iff : (Parser.product id p q).Runs cx i m o m' ↔
    ∃ last, m' = last.told cx (failureLines "product" o) ∧
      (¬ Accepts o ∧ p.Runs cx i (m.told cx [.trying "product" i]) o last ∨
        ∃ v j mid, p.Runs cx i (m.told cx [.trying "product" i]) (.ok (.accept v j)) mid ∧
          (¬ Accepts o ∧ q.Runs cx j mid o last ∨
            ∃ w stop, q.Runs cx j mid (.ok (.accept w stop)) last ∧
              o = .ok (.accept (.tuple [v, w]) stop))) := by
  have hgrowing (v) : ∀ w stop,
      Growing fun _ => (pure (.accept (.tuple [v, w]) stop) : Run Reply) := fun _ _ => .const _
  rw [runs_iff rfl]
  refine exists_congr fun last => ?_
  rw [and_comm]
  refine and_congr_right fun _ => (andThen_iff fun v j =>
    ((interpret_steady cx q j).andThen fun w stop => .pure _).growing).trans (or_congr Iff.rfl ?_)
  refine exists_congr fun v => exists_congr fun j => exists_congr fun mid =>
    and_congr_right fun _ => ?_
  refine (andThen_iff (hgrowing v)).trans (or_congr Iff.rfl ?_)
  simp only [EndsIn.pure_iff]
  constructor
  · rintro ⟨w, stop, _, h, ho, rfl⟩
    exact ⟨w, stop, h, ho⟩
  · rintro ⟨w, stop, h, ho⟩
    exact ⟨w, stop, last, h, ho, rfl⟩

theorem accepts_accept (v : Value) (stop : Nat) : Accepts (.ok (.accept v stop)) := ⟨v, stop, rfl⟩

section

variable {fn : Transform} {v w : Value} {stop : Nat}

theorem map_accepts_iff : (Parser.map id p fn).Runs cx i m (.ok (.accept w stop)) m' ↔
    ∃ v, p.Runs cx i (m.told cx [.trying "map" i]) (.ok (.accept v stop)) m' ∧
      fn.apply v = .ok w := by
  rw [runs_map_iff]
  constructor
  · rintro ⟨mid, rfl, ⟨ho, -⟩ | ⟨v, j, h, he⟩⟩
    · exact absurd (accepts_accept w stop) ho
    · cases hv : fn.apply v with
      | error f => rw [hv] at he; cases he
      | ok u =>
        rw [hv] at he
        cases he
        rw [failureLines_accept, Memory.told_nil]
        exact ⟨v, h, hv⟩
  · rintro ⟨v, h, hv⟩
    exact ⟨m', (Memory.told_nil cx m').symm, .inr ⟨v, stop, h, by rw [hv]; rfl⟩⟩

theorem map_stops_iff (ho : ¬ Accepts o) : (Parser.map id p fn).Runs cx i m o m' ↔
    (∃ mid, p.Runs cx i (m.told cx [.trying "map" i]) o mid ∧
      m' = mid.told cx (failureLines "map" o)) ∨
    ∃ v stop f, p.Runs cx i (m.told cx [.trying "map" i]) (.ok (.accept v stop)) m' ∧
      fn.apply v = .error f ∧ o = .error f := by
  rw [runs_map_iff]
  constructor
  · rintro ⟨mid, rfl, ⟨-, h⟩ | ⟨v, j, h, he⟩⟩
    · exact .inl ⟨mid, h, rfl⟩
    · cases hv : fn.apply v with
      | error f =>
        rw [hv] at he
        change o = .error f at he
        subst he
        rw [failureLines_error, Memory.told_nil]
        exact .inr ⟨v, j, f, h, hv, rfl⟩
      | ok u =>
        rw [hv] at he
        exact absurd ⟨u, j, he⟩ ho
  · rintro (⟨mid, h, rfl⟩ | ⟨v, j, f, h, hv, rfl⟩)
    · exact ⟨mid, rfl, .inl ⟨ho, h⟩⟩
    · exact ⟨m', (Memory.told_nil cx m').symm, .inr ⟨v, j, h, by rw [hv]; rfl⟩⟩

theorem product_accepts_iff : (Parser.product id p q).Runs cx i m (.ok (.accept w stop)) m' ↔
    ∃ u v j mid, p.Runs cx i (m.told cx [.trying "product" i]) (.ok (.accept u j)) mid ∧
      q.Runs cx j mid (.ok (.accept v stop)) m' ∧ w = .tuple [u, v] := by
  rw [runs_product_iff]
  constructor
  · rintro ⟨last, rfl, ⟨ho, -⟩ | ⟨u, j, mid, h, ⟨ho, -⟩ | ⟨v, stop', hq, he⟩⟩⟩
    · exact absurd (accepts_accept w stop) ho
    · exact absurd (accepts_accept w stop) ho
    · cases he
      rw [failureLines_accept, Memory.told_nil]
      exact ⟨u, v, j, mid, h, hq, rfl⟩
  · rintro ⟨u, v, j, mid, h, hq, rfl⟩
    exact ⟨m', (Memory.told_nil cx m').symm, .inr ⟨u, j, mid, h, .inr ⟨v, stop, hq, rfl⟩⟩⟩

theorem product_stops_iff (ho : ¬ Accepts o) : (Parser.product id p q).Runs cx i m o m' ↔
    ∃ last, m' = last.told cx (failureLines "product" o) ∧
      (p.Runs cx i (m.told cx [.trying "product" i]) o last ∨
        ∃ v j mid, p.Runs cx i (m.told cx [.trying "product" i]) (.ok (.accept v j)) mid ∧
          q.Runs cx j mid o last) := by
  rw [runs_product_iff]
  refine exists_congr fun last => and_congr_right fun _ => or_congr (and_iff_right ho) ?_
  refine exists_congr fun v => exists_congr fun j => exists_congr fun mid =>
    and_congr_right fun _ => ?_
  refine ⟨fun h => ?_, fun h => .inl ⟨ho, h⟩⟩
  rcases h with ⟨-, h⟩ | ⟨w, stop, -, rfl⟩
  · exact h
  · exact absurd (accepts_accept _ stop) ho

end

end

end ParserAlgebra
