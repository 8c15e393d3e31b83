import ParserAlgebra.Proofs.Matches
import ParserAlgebra.Proofs.Runs

/-!
# Parsers in turn

A tuple of parsers is a tower of pairs, each mapped into the tuple so far with one value more. It
runs the parsers one after the other and stops at the first that does not accept: only failures of
the tower's own nodes are told behind that. A function of the values is called once, on all of them.
-/

namespace ParserAlgebra

/-! ### Rows of parsers -/

/-- Each parser accepts where the one before stopped, and the last one leaves the memory. -/
inductive InTurn (cx : Context) :
    List Parser → Nat → Memory → List (Value × Nat) → Memory → Prop
  | nil {i : Nat} {m : Memory} : InTurn cx [] i m [] m
  | cons {p : Parser} {ps : List Parser} {i stop : Nat} {m m' m'' : Memory} {v : Value}
      {ms : List (Value × Nat)} (h : p.Runs cx i m (.ok (.accept v stop)) m')
      (hrest : InTurn cx ps stop m' ms m'') : InTurn cx (p :: ps) i m ((v, stop) :: ms) m''

/-- Behind the parsers in front, which accept in turn, one has this outcome. -/
def EndsBehind (cx : Context) (front : List Parser) (p : Parser) (i : Nat) (m : Memory)
    (o : Except Fault Reply) (m' : Memory) : Prop :=
  ∃ ms mid, InTurn cx front i m ms mid ∧ p.Runs cx (lastStop i ms) mid o m'

section

variable {cx : Context} {p : Parser} {ps : List Parser} {i stop : Nat} {m m' m'' : Memory}
  {v : Value} {ms : List (Value × Nat)}

theorem lastStop_concat (i : Nat) (ms : List (Value × Nat)) (last : Value × Nat) :
    lastStop i (ms ++ [last]) = last.2 := by
  simp [lastStop]

theorem InTurn.length_eq (h : InTurn cx ps i m ms m') : ms.length = ps.length := by
  induction h with
  | nil => rfl
  | cons _ _ ih => exact congrArg Nat.succ ih

theorem inTurn_concat_iff : InTurn cx (ps ++ [p]) i m ms m'' ↔
    ∃ ns v stop m', ms = ns ++ [(v, stop)] ∧ InTurn cx ps i m ns m' ∧
      p.Runs cx (lastStop i ns) m' (.ok (.accept v stop)) m'' := by
  induction ps generalizing i m ms with
  | nil =>
    constructor
    · rintro (_ | ⟨h, _ | _⟩)
      exact ⟨[], _, _, _, rfl, .nil, h⟩
    · rintro ⟨ns, v, stop, m', rfl, _ | _, h⟩
      exact .cons h .nil
  | cons q ps ih =>
    constructor
    · rintro (_ | ⟨h, hrest⟩)
      obtain ⟨ns, v, stop, m', rfl, hns, hlast⟩ := ih.1 hrest
      exact ⟨_ :: ns, v, stop, m', rfl, .cons h hns, hlast⟩
    · rintro ⟨ns, v, stop, m', rfl, _ | ⟨h, hrest⟩, hlast⟩
      exact .cons h (ih.2 ⟨_, v, stop, m', rfl, hrest, hlast⟩)

end

/-! ### Nodes over rows -/

/-- The parser runs these in turn, and then a function of their values that may raise a fault. What
its own nodes tell of themselves stands in front of that, and behind a parser that does not accept;
the numbers are those of the parsers in front of it and behind it. -/
structure RunsInTurn (cx : Context) (q : Parser) (ps : List Parser)
    (finish : List Value → Except Fault Value) (opening : Nat → List LogEntry)
    (closing : Except Fault Reply → Nat → Nat → List LogEntry) : Prop where
  accepts : ∀ i m v stop m', q.Runs cx i m (.ok (.accept v stop)) m' ↔
    ∃ ms, InTurn cx ps i (m.told cx (opening i)) ms m' ∧ finish (valuesOf ms) = .ok v ∧
      stop = lastStop i ms
  stops : ∀ i m o m', ¬ Accepts o → (q.Runs cx i m o m' ↔
    (∃ front p back mid, ps = front ++ p :: back ∧
      EndsBehind cx front p i (m.told cx (opening i)) o mid ∧
      m' = mid.told cx (closing o front.length back.length)) ∨
    ∃ ms f, InTurn cx ps i (m.told cx (opening i)) ms m' ∧ finish (valuesOf ms) = .error f ∧
      o = .error f)

namespace RunsInTurn

variable {cx : Context} {q : Parser} {ps : List Parser}
  {finish finish' : List Value → Except Fault Value} {opening opening' : Nat → List LogEntry}
  {closing closing' : Except Fault Reply → Nat → Nat → List LogEntry}

/-- Only rows of values as long as the row of parsers count, and places in that row. -/
theorem congr (h : RunsInTurn cx q ps finish opening closing)
    (hfinish : ∀ vs, vs.length = ps.length → finish vs = finish' vs)
    (hopening : ∀ i, opening i = opening' i)
    (hclosing : ∀ o front back, front + back + 1 = ps.length →
      closing o front back = closing' o front back) :
    RunsInTurn cx q ps finish' opening' closing' where
  accepts i m v stop m' := by
    rw [h.accepts, hopening]
    refine exists_congr fun ms => and_congr_right fun hms => ?_
    rw [hfinish (valuesOf ms) (by rw [valuesOf, List.length_map, hms.length_eq])]
  stops i m o m' ho := by
    rw [h.stops i m o m' ho, hopening]
    refine or_congr ?_ <| exists_congr fun ms => exists_congr fun f => and_congr_right fun hms => ?_
    · refine exists_congr fun front => exists_congr fun p => exists_congr fun back =>
        exists_congr fun mid => and_congr_right fun hps => ?_
      rw [hclosing o front.length back.length (by simp [hps]; omega)]
    · rw [hfinish (valuesOf ms) (by rw [valuesOf, List.length_map, hms.length_eq])]

/-- A parser alone. -/
theorem alone (p : Parser) : RunsInTurn cx p [p] (fun vs => .ok (vs.headD .none)) (fun _ => [])
    (fun _ _ _ => []) where
  accepts i m v stop m' := by
    rw [Memory.told_nil]
    constructor
    · exact fun h => ⟨[(v, stop)], .cons h .nil, rfl, rfl⟩
    · rintro ⟨_, _ | ⟨h, _ | _⟩, hv, rfl⟩
      cases hv
      exact h
  stops i m o m' ho := by
    rw [Memory.told_nil]
    constructor
    · exact fun h => .inl ⟨[], p, [], m', rfl, ⟨[], m, .nil, h⟩, (Memory.told_nil cx m').symm⟩
    · rintro (⟨front, r, back, mid, heq, ⟨ms, mid', hms, h⟩, rfl⟩ | ⟨_, _, _, hf, _⟩)
      · obtain ⟨rfl, rfl, rfl⟩ : front = [] ∧ r = p ∧ back = [] := by
          rcases front with _ | ⟨a, front⟩ <;> simp_all
        cases hms
        rw [Memory.told_nil]
        exact h
      · cases hf

/-- A function mapped over the parser. -/
theorem map (h : RunsInTurn cx q ps finish opening closing) (id : Nat) (fn : Transform) :
    RunsInTurn cx (.map id q fn) ps (fun vs => finish vs >>= fn.apply)
      (fun i => .trying "map" i :: opening i)
      (fun o front back => closing o front back ++ failureLines "map" o) where
  accepts i m w stop m' := by
    simp only [map_accepts_iff, h.accepts, Memory.told_told, List.singleton_append]
    constructor
    · rintro ⟨v, ⟨ms, hms, hv, rfl⟩, hw⟩
      exact ⟨ms, hms, by rw [hv]; exact hw, rfl⟩
    · rintro ⟨ms, hms, hw, rfl⟩
      cases hv : finish (valuesOf ms) with
      | error f =>
        rw [hv] at hw
        cases hw
      | ok v =>
        rw [hv] at hw
        exact ⟨v, ⟨ms, hms, hv, rfl⟩, hw⟩
  stops i m o m' ho := by
    rw [map_stops_iff ho]
    simp only [h.stops i _ o _ ho, h.accepts, Memory.told_told, List.singleton_append]
    constructor
    · rintro (⟨mid, ⟨front, p, back, last, hps, hends, rfl⟩ | ⟨ms, f, hms, hf, rfl⟩, rfl⟩ |
        ⟨v, stop, f, ⟨ms, hms, hv, rfl⟩, hf, rfl⟩)
      · exact .inl ⟨front, p, back, last, hps, hends, Memory.told_told ..⟩
      · rw [failureLines_error, Memory.told_nil]
        exact .inr ⟨ms, f, hms, by rw [hf]; rfl, rfl⟩
      · exact .inr ⟨ms, f, hms, by rw [hv]; exact hf, rfl⟩
    · rintro (⟨front, p, back, last, hps, hends, rfl⟩ | ⟨ms, f, hms, hf, rfl⟩)
      · exact .inl ⟨_, .inl ⟨front, p, back, last, hps, hends, rfl⟩, (Memory.told_told ..).symm⟩
      · cases hv : finish (valuesOf ms) with
        | error f' =>
          rw [hv] at hf
          cases hf
          refine .inl ⟨m', .inr ⟨ms, f, hms, hv, rfl⟩, ?_⟩
          rw [failureLines_error, Memory.told_nil]
        | ok v =>
          rw [hv] at hf
          exact .inr ⟨v, _, f, ⟨ms, hms, hv, rfl⟩, hf, rfl⟩

/-- One parser more behind those that are run in turn. -/
theorem product {g : List Value → Value}
    (h : RunsInTurn cx q ps (fun vs => .ok (g vs)) opening closing) (id : Nat) (p : Parser) :
    RunsInTurn cx (.product id q p) (ps ++ [p])
      (fun vs => .ok (.tuple [g vs.dropLast, vs.getLastD .none]))
      (fun i => .trying "product" i :: opening i)
      (fun o front back => (match back with | 0 => [] | back + 1 => closing o front back) ++
        failureLines "product" o) where
  accepts i m w stop m' := by
    simp only [product_accepts_iff, h.accepts, Memory.told_told, List.singleton_append,
      inTurn_concat_iff]
    constructor
    · rintro ⟨_, v, _, mid, ⟨ms, hms, hv, rfl⟩, hp, rfl⟩
      cases hv
      refine ⟨ms ++ [(v, stop)], ⟨ms, v, stop, mid, rfl, hms, hp⟩, ?_, ?_⟩
      · simp [valuesOf]
      · rw [lastStop_concat]
    · rintro ⟨_, ⟨ms, v, stop, mid, rfl, hms, hp⟩, hw, rfl⟩
      rw [lastStop_concat]
      refine ⟨_, v, _, mid, ⟨ms, hms, rfl, rfl⟩, hp, ?_⟩
      cases hw
      simp [valuesOf]
  stops i m o m' ho := by
    rw [product_stops_iff ho]
    simp only [h.stops i _ o _ ho, h.accepts, Memory.told_told, List.singleton_append]
    constructor
    · rintro ⟨last, rfl, (⟨front, r, back, mid, rfl, hends, rfl⟩ | ⟨ms, f, hms, hf, rfl⟩) |
        ⟨v, _, mid, ⟨ms, hms, hv, rfl⟩, hp⟩⟩
      · refine .inl ⟨front, r, back ++ [p], mid, by simp, hends, ?_⟩
        simp
      · cases hf
      · exact .inl ⟨ps, p, [], last, rfl, ⟨ms, mid, hms, hp⟩, rfl⟩
    · rintro (⟨front, r, back, mid, hps, hends, rfl⟩ | ⟨_, _, _, hf, _⟩)
      · -- What stopped is the new parser, or one of those in front of it.
        rcases List.eq_nil_or_concat back with rfl | ⟨back, r', rfl⟩
        · obtain ⟨rfl, hrp⟩ := List.append_inj' hps rfl
          cases hrp
          obtain ⟨ms, mid', hms, hp⟩ := hends
          exact ⟨mid, rfl, .inr ⟨_, _, mid', ⟨ms, hms, rfl, rfl⟩, hp⟩⟩
        · have hps' : ps ++ [p] = (front ++ r :: back) ++ [r'] := by
            rw [hps, List.concat_eq_append, List.append_assoc, List.cons_append]
          obtain ⟨rfl, -⟩ := List.append_inj' hps' rfl
          refine ⟨_, ?_, .inl (.inl ⟨front, r, back, mid, rfl, hends, rfl⟩)⟩
          simp
      · cases hf

end RunsInTurn

/-! ### Tuples -/

/-- What holds of the first parser in a tuple of its own, and goes on holding when one more parser
comes behind, holds of every tuple. -/
theorem Build.tupled_induction {P : Parser → List Parser → Prop}
    (hfirst : ∀ id p, P (.map id p single) [p])
    (hnext : ∀ id id' q ps p, P q ps → P (.map id (.product id' q p) extend) (ps ++ [p]))
    (first : Parser) (rest : List Parser) (id : Nat) :
    P (Build.result id (Build.tupled first rest)) (first :: rest) := by
  suffices hrest : ∀ rest q ps next, P q ps →
      P ((rest.foldlM (fun p q => do Build.map (← Build.product p q) extend) q : Build Parser)
        next).1 (ps ++ rest) from hrest rest _ [first] (id + 1) (hfirst id first)
  intro rest
  induction rest with
  | nil =>
    intro q ps next h
    rw [List.append_nil]
    exact h
  | cons p rest ih =>
    intro q ps next h
    have hstep := ih _ _ (next + 2) (hnext (next + 1) next q ps p h)
    rw [List.append_assoc] at hstep
    exact hstep

/-- What the nodes of a tuple tell before the first parser runs: there are two for each of the `n`
parsers behind the first. -/
def tupledOpening (i : Nat) : Nat → List LogEntry
  | 0 => [.trying "map" i]
  | n + 1 => .trying "map" i :: .trying "product" i :: tupledOpening i n

/-- What they tell behind an outcome of the parser with `front` others in front of it and the given
number behind. -/
def tupledClosing (o : Except Fault Reply) (front : Nat) : Nat → List LogEntry
  | 0 => (if front = 0 then [] else failureLines "product" o) ++ failureLines "map" o
  | back + 1 => tupledClosing o front back ++ failureLines "product" o ++ failureLines "map" o

/-- The parser gives the tuple of what these give in turn, as `tupled` does. -/
def RunsAsTuple (cx : Context) (q : Parser) (ps : List Parser) (n : Nat) : Prop :=
  RunsInTurn cx q ps (fun vs => .ok (.tuple vs)) (tupledOpening · n) tupledClosing

namespace RunsAsTuple

open Build (single extend extendTuple)

variable {cx : Context} {q : Parser} {ps : List Parser}

theorem first (cx : Context) (p : Parser) (id : Nat) : RunsAsTuple cx (.map id p single) [p] 0 := by
  refine ((RunsInTurn.alone p).map id single).congr (fun vs hvs => ?_) (fun _ => rfl)
    fun o front back h => ?_
  · obtain ⟨v, rfl⟩ := List.length_eq_one_iff.1 hvs
    rfl
  · obtain ⟨rfl, rfl⟩ : front = 0 ∧ back = 0 := by simp at h; omega
    rfl

theorem extended {n : Nat} (h : RunsAsTuple cx q ps n) (hn : ps.length = n + 1) (id id' : Nat)
    (p : Parser) : RunsAsTuple cx (.map id (.product id' q p) extend) (ps ++ [p]) (n + 1) := by
  refine ((h.product id' p).map id extend).congr (fun vs hvs => ?_) (fun _ => rfl)
    fun o front back hlen => ?_
  · have hne : vs ≠ [] := List.ne_nil_of_length_eq_add_one (hvs.trans List.length_append)
    rcases List.eq_nil_or_concat vs with rfl | ⟨us, v, rfl⟩
    · exact absurd rfl hne
    · simp [bind, Except.bind, extend, extendTuple]
  · rw [List.length_append, hn, List.length_singleton] at hlen
    cases back with
    | zero =>
      have hfront : front ≠ 0 := by omega
      simp [tupledClosing, hfront]
    | succ back => rfl

/-- The parser that `tupled` builds. -/
theorem tupled (cx : Context) (first : Parser) (rest : List Parser) (id : Nat) :
    RunsAsTuple cx (Build.result id (Build.tupled first rest)) (first :: rest) rest.length := by
  obtain ⟨n, hn, h⟩ := Build.tupled_induction
    (P := fun q ps => ∃ n, ps.length = n + 1 ∧ RunsAsTuple cx q ps n)
    (fun id p => ⟨0, rfl, .first cx p id⟩)
    (fun id id' q ps p ⟨n, hn, h⟩ => ⟨n + 1, by rw [List.length_append, hn]; rfl,
      h.extended hn id id' p⟩) first rest id
  obtain rfl : rest.length = n := Nat.succ.inj hn
  exact h

end RunsAsTuple

/-! ### Functions of tuples -/

theorem Watched.silent_bind {α β : Type} {x : Run α} {a : α} {m m' : Memory}
    (h : x.exec m = (.ok a, m')) (f : α → Watched β) : (Watched.silent x).bind f m = f a m' := by
  simp only [Watched.bind, Watched.silent, h, List.nil_append]

theorem Watched.events_bind_silent {α β : Type} (x : Watched α) (f : α → Run β) (m : Memory) :
    (x.bind (fun a => .silent (f a)) m).events = (x m).events := by
  unfold Watched.bind Watched.silent
  rcases x m with ⟨_ | _, _, _⟩
  · rfl
  · exact List.append_nil _

theorem runs_of_watch {cx : Context} {k i : Nat} {p : Parser} {m m' : Memory} {r : Reply}
    {events : List Event} (h : watch cx k p i m = ⟨.ok r, m', events⟩) :
    p.Runs cx i m (.ok r) m' := by
  have hrun : (interpret cx k p i).exec m =
      ((watch cx k p i m).outcome, (watch cx k p i m).memory) :=
    (congrFun (erase_watch cx k p i) m).symm
  rw [h] at hrun
  exact ⟨k, hrun⟩

/-- What is seen of a mapped parser is what is seen of its source, and behind an acceptance one call
of the function. -/
theorem events_watch_map (cx : Context) (k id : Nat) (p : Parser) (fn : Transform) (i : Nat)
    (m : Memory) : (watch cx (k + 1) (.map id p fn) i m).events =
      let seen := watch cx k p i (m.told cx [.trying "map" i])
      seen.events ++ match seen.outcome with
        | .ok (.accept v _) => Event.ofCall (Run.ended (fn.apply v))
        | _ => [] := by
  have hannounce : (announce cx (.map id p fn) i).exec m = (.ok (), m.told cx [.trying "map" i]) :=
    exec_announce ..
  change ((Watched.silent (announce cx (.map id p fn) i)).bind (fun _ =>
    (Script.watch cx.rules k (watch cx k) (nodeScript cx k (.map id p fn) i)).bind fun reply =>
      Watched.silent (conclude cx (.map id p fn) reply)) m).events = _
  rw [Watched.silent_bind hannounce, Watched.events_bind_silent]
  simp only [nodeScript, Script.onward, Script.watch]
  unfold Watched.bind
  rcases watch cx k p i (m.told cx [.trying "map" i]) with ⟨_ | v | _, m', events⟩
  · exact (List.append_nil _).symm
  · dsimp only
    cases fn.apply v <;> rfl
  · rfl

/-- `tupled` runs its parsers in turn, and `mapN` does and then calls a function of their values.
Both accept where every parser does, with the flat tuple of the values or with what the function
returns, and stop where the last one did. The first outcome that is no acceptance stands as it is,
and what is left behind is what that run left: no parser behind it ran, only the nodes around tell
of a rejection. What is seen of `mapN` are the events of the tuple, and where that accepted, one
call of the function with all values. -/
theorem tupled_runs_in_turn (cx : Context) (first : Parser) (rest : List Parser)
    (fn : List Value → Except Fault Value) (id : Nat) :
    let tuple := Build.result id (Build.tupled first rest)
    let mapped := Build.result id (Build.mapN fn first rest)
    RunsInTurn cx tuple (first :: rest) (fun vs => .ok (.tuple vs))
      (fun i => tupledOpening i rest.length) tupledClosing ∧
    RunsInTurn cx mapped (first :: rest) fn
      (fun i => .trying "map" i :: tupledOpening i rest.length)
      (fun o front back => tupledClosing o front back ++ failureLines "map" o) ∧
    ∀ i m k, (watch cx (k + 1) mapped i m).events =
      let seen := watch cx k tuple i (m.told cx [.trying "map" i])
      seen.events ++ match seen.outcome with
        | .ok (.accept (.tuple vs) _) => Event.ofCall (Run.ended (fn vs))
        | _ => [] := by
  intro tuple mapped
  have htuple := RunsAsTuple.tupled cx first rest id
  refine ⟨htuple, (htuple.map _ (Build.spread fn)).congr (fun _ _ => rfl) (fun _ => rfl)
    fun _ _ _ _ => rfl, fun i m k => ?_⟩
  refine (events_watch_map cx k _ tuple (Build.spread fn) i m).trans ?_
  rcases hseen : watch cx k tuple i (m.told cx [.trying "map" i]) with
    ⟨_ | ⟨v, stop⟩ | _, m', events⟩
  · rfl
  · -- An accepted value is a tuple, so the function is called and nothing else happens.
    obtain ⟨ms, -, hv, -⟩ := (htuple.accepts i _ v stop m').1 (runs_of_watch hseen)
    cases hv
    rfl
  · rfl

/-- A tuple among the values stays one place of the tuple. -/
example :
    let pair := Parser.product 2 (.char 0 'a') (.char 1 'b')
    ((interpret ⟨[], #['a', 'b', 'c'], false⟩ 5
      (Build.result 4 (Build.tupled pair [.char 3 'c'])) 0).exec {}).1 =
      .ok (.accept (.tuple [.tuple [.text "a", .text "b"], .text "c"]) 3) := by
  rfl

end ParserAlgebra
