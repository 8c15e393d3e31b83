import ParserAlgebra.Proofs.Calls
import ParserAlgebra.Proofs.Optimizer.Collapse
import ParserAlgebra.Proofs.Optimizer.Unseen

/-!
# What optimizing calls

While a chain is collected the right side of a choice is called once the left side has turned out to
be a chain. A choice that was met before ends the collecting, so no choice has its right side called
twice in one collection, however choices lead back to one another, and collecting comes to an end.
Optimizing calls nothing but these right sides.
-/

namespace ParserAlgebra

open Noted

/-! ### Optimizing with notes -/

/-- The leaves of a chain, as `Chain.leaves` finds them; it is noted of which choices the right
sides are called, and the thunks that are called for them. -/
def Chain.noted (call : Thunk → Run Parser) :
    Nat → Parser → List Nat → Noted (Nat × Thunk) (Option (List Parser) × List Nat)
  | n + 1, .orElse id left right, seen =>
    if seen.contains id then silent (pure (none, seen))
    else (Chain.noted call n left (id :: seen)).bind fun
      | (none, seen) => silent (pure (none, seen))
      | (some front, seen) =>
        (note (id, right)).bind fun _ => (silent (call right)).bind fun q =>
          (Chain.noted call n q seen).bind fun
            | (none, seen) => silent (pure (none, seen))
            | (some back, seen) => silent (pure (some (front ++ back), seen))
  | n, p, seen => silent (Chain.leaves call n p seen)

theorem Chain.erase_noted (call : Thunk → Run Parser) (n : Nat) (p : Parser) (seen : List Nat) :
    (Chain.noted call n p seen).erase = Chain.leaves call n p seen := by
  induction n generalizing p seen with
  | zero => cases p <;> rfl
  | succ n ih =>
    cases p
    case orElse id left right =>
      simp only [Chain.noted, Chain.leaves]
      split
      · rfl
      · rw [erase_bind, ih]
        refine bind_congr fun front => ?_
        rcases front with ⟨_ | front, seen⟩
        · rfl
        · simp only [erase_bind, erase_note, erase_silent, pure_bind, ih]
          refine bind_congr fun q => bind_congr fun back => ?_
          rcases back with ⟨_ | back, seen⟩ <;> rfl
    all_goals rfl

/-- The optimized form of a parser; for each chain that is collected it is noted what is called. -/
def optimizeNotedWith (call : Thunk → Run Parser) (n : Nat) :
    Parser → Noted (List (Nat × Thunk)) Parser
  | .orElse id left right =>
    (gathered (Chain.noted call n (.orElse id left right) [])).bind fun
      | (some chars, _) => silent (Chain.charSet chars)
      | (none, _) =>
        (silent (Run.build Build.fresh)).bind fun cell =>
          (optimizeNotedWith call n left).bind fun left =>
            silent (Run.build (Build.orElseThunk left (.optimized cell right)))
  | .map _ source fn =>
    (optimizeNotedWith call n source).bind fun source => silent (Run.build (Build.map source fn))
  | .bind _ source label next =>
    (optimizeNotedWith call n source).bind fun source =>
      silent (Run.build (Build.bind source label next))
  | .product _ left right =>
    (optimizeNotedWith call n left).bind fun left =>
      (optimizeNotedWith call n right).bind fun right =>
        silent (Run.build (Build.product left right))
  | .both _ left right combine =>
    (optimizeNotedWith call n left).bind fun left =>
      (optimizeNotedWith call n right).bind fun right =>
        silent (Run.build (Build.both left right combine))
  | .many _ source identity combine =>
    (optimizeNotedWith call n source).bind fun source =>
      silent (Run.build (Build.many source ⟨identity, combine⟩))
  | .manyBetween _ source minimum maximum identity combine =>
    (optimizeNotedWith call n source).bind fun source =>
      silent (Run.build (Build.manyBetween source minimum maximum ⟨identity, combine⟩))
  | .collect _ source minimum accumulator =>
    (optimizeNotedWith call n source).bind fun source =>
      silent (Run.build (Build.collect source minimum accumulator))
  | p => silent (optimizeWith call n p)

theorem erase_optimizeNotedWith (call : Thunk → Run Parser) (n : Nat) (p : Parser) :
    (optimizeNotedWith call n p).erase = optimizeWith call n p := by
  fun_induction optimizeNotedWith call n p
  case case1 id left right ih =>
    rw [erase_bind, erase_gathered, Chain.erase_noted, optimizeWith]
    refine bind_congr fun found => ?_
    rcases found with ⟨_ | chars, seen⟩
    · simp only [erase_bind, erase_silent, ih]
    · rfl
  all_goals simp only [erase_bind, erase_silent, optimizeWith, *]

def optimizeNoted (rules : Rules) (n : Nat) (p : Parser) : Noted (List (Nat × Thunk)) Parser :=
  optimizeNotedWith (Thunk.call rules n) n p

theorem erase_optimizeNoted (rules : Rules) (n : Nat) (p : Parser) :
    (optimizeNoted rules n p).erase = optimize rules n p :=
  erase_optimizeNotedWith _ n p

/-! ### One collection -/

section

variable {rules : Rules} {root p : Parser} {m m' m'' : Memory}

/-- The right sides that are called while one chain is collected belong to different choices, each
of which optimizing can come to. -/
structure Chain.CallsOnce (rules : Rules) (root : Parser) (calls : List (Nat × Thunk)) : Prop where
  once : (calls.map Prod.fst).Nodup
  spanned : ∀ c ∈ calls, ∃ left, Spans rules root (.orElse c.1 left c.2)

/-- The same, and the choices are met after those of `seen` and before those of `seen'`. -/
structure Chain.Collects (rules : Rules) (root : Parser) (seen seen' : List Nat)
    (calls : List (Nat × Thunk)) : Prop extends Chain.CallsOnce rules root calls where
  grows : seen ⊆ seen'
  fresh : ∀ c ∈ calls, c.1 ∉ seen
  met : ∀ c ∈ calls, c.1 ∈ seen'

namespace Chain.Collects

variable {seen seen' seen'' : List Nat} {calls calls' : List (Nat × Thunk)}

theorem nil (h : seen ⊆ seen') : Chain.Collects rules root seen seen' [] :=
  ⟨⟨List.nodup_nil, nofun⟩, h, nofun, nofun⟩

theorem append (h : Chain.Collects rules root seen seen' calls)
    (h' : Chain.Collects rules root seen' seen'' calls') :
    Chain.Collects rules root seen seen'' (calls ++ calls') := by
  refine ⟨⟨?_, fun c hc => ?_⟩, fun x hx => h'.grows (h.grows hx), fun c hc => ?_, fun c hc => ?_⟩
  · rw [List.map_append, List.nodup_append']
    refine ⟨h.once, h'.once, fun id hid hid' => ?_⟩
    obtain ⟨c, hc, rfl⟩ := List.mem_map.1 hid
    obtain ⟨c', hc', he⟩ := List.mem_map.1 hid'
    exact h'.fresh c' hc' (he ▸ h.met c hc)
  · exact (List.mem_append.1 hc).elim (h.spanned c) (h'.spanned c)
  · exact (List.mem_append.1 hc).elim (h.fresh c) fun hc hx => h'.fresh c hc (h.grows hx)
  · exact (List.mem_append.1 hc).elim (fun hc => h'.grows (h.met c hc)) (h'.met c)

/-- A choice is entered, and its right side is not called. -/
theorem entered {id : Nat} (h : Chain.Collects rules root (id :: seen) seen' calls) :
    Chain.Collects rules root seen seen' calls :=
  ⟨h.toCallsOnce, fun _ hx => h.grows (.tail _ hx), fun c hc hx => h.fresh c hc (.tail _ hx), h.met⟩

/-- A choice that was not met before is entered, and its right side is called at some point. -/
theorem enter {id : Nat} {left : Parser} {right : Thunk} (hnew : id ∉ seen)
    (hspans : Spans rules root (.orElse id left right))
    (h : Chain.Collects rules root (id :: seen) seen' (calls ++ calls')) :
    Chain.Collects rules root seen seen' (calls ++ (id, right) :: calls') := by
  have hmem : ∀ c, c ∈ calls ++ (id, right) :: calls' ↔ c = (id, right) ∨ c ∈ calls ++ calls' :=
    fun c => by rw [List.perm_middle.mem_iff, List.mem_cons]
  refine ⟨⟨?_, fun c hc => ?_⟩, fun x hx => h.grows (.tail _ hx), fun c hc => ?_, fun c hc => ?_⟩
  · rw [(List.perm_middle.map Prod.fst).nodup_iff, List.map_cons, List.nodup_cons]
    refine ⟨fun hid => ?_, h.once⟩
    obtain ⟨c, hc, he⟩ := List.mem_map.1 hid
    exact h.fresh c hc (he ▸ .head _)
  · rcases (hmem c).1 hc with rfl | hc
    · exact ⟨left, hspans⟩
    · exact h.spanned c hc
  · rcases (hmem c).1 hc with rfl | hc
    · exact hnew
    · exact fun hx => h.fresh c hc (.tail _ hx)
  · rcases (hmem c).1 hc with rfl | hc
    · exact h.grows (.head _)
    · exact h.met c hc

end Chain.Collects

/-- The thunks of rules that are called between two memories are those among these. -/
def Memory.Counts (m : Memory) (calls : List (Nat × Thunk)) (m' : Memory) : Prop :=
  ∀ name, m'.callsOf name = m.callsOf name + calls.countP fun c => c.2.isOf name

theorem Memory.Counts.nil (h : m'.calls = m.calls) : m.Counts [] m' := by
  intro name
  rw [Memory.callsOf, h, List.countP_nil, Nat.add_zero, Memory.callsOf]

theorem Memory.Counts.append {calls calls' : List (Nat × Thunk)} (h : m.Counts calls m')
    (h' : m'.Counts calls' m'') : m.Counts (calls ++ calls') m'' := by
  intro name
  rw [h', h, List.countP_append, Nat.add_assoc]

theorem Memory.Counts.called (id : Nat) (t : Thunk) (m : Memory) :
    m.Counts [(id, t)] (t.called m) := by
  intro name
  rw [Thunk.callsOf_called]
  cases h : t.isOf name <;> simp [h]

/-- What calling a plain thunk does if it returns. -/
def CallsPlainly (rules : Rules) (call : Thunk → Run Parser) : Prop :=
  ∀ {t : Thunk}, t.Plain → ∀ {m m' : Memory} {q : Parser}, (call t).exec m = (.ok q, m') →
    t.target rules = .ok q ∧ m' = t.called m

theorem Chain.noted_collects (hroot : root.Made rules) {call : Thunk → Run Parser}
    (hcall : CallsPlainly rules call) (n : Nat) {seen : List Nat}
    {r : Option (List Parser) × List Nat} {calls : List (Nat × Thunk)}
    (hp : Spans rules root p) (h : Chain.noted call n p seen m = ⟨.ok r, m', calls⟩) :
    Chain.Collects rules root seen r.2 calls ∧ m.Counts calls m' := by
  induction n generalizing p seen m r m' calls with
  | zero => cases p <;> cases (silent_eq_ok h).1
  | succ n ih =>
    cases p
    case orElse id left right =>
      rw [Chain.noted] at h
      split at h
      · obtain ⟨hx, rfl⟩ := silent_eq_ok h
        cases hx
        exact ⟨.nil fun _ h => h, .nil rfl⟩
      · rename_i hmet
        have hnew : id ∉ seen := by simpa using hmet
        obtain ⟨front, m₁, calls₁, _, hleft, hrest, rfl⟩ := bind_eq_ok h
        obtain ⟨hcollects₁, hcounts₁⟩ := ih (hp.tail (.child (.head _))) hleft
        rcases front with ⟨_ | front, seen₁⟩
        · obtain ⟨hx, rfl⟩ := silent_eq_ok hrest
          cases hx
          rw [List.append_nil]
          exact ⟨hcollects₁.entered, hcounts₁⟩
        · obtain ⟨_, _, _, _, hnote, hcalled, rfl⟩ := bind_eq_ok hrest
          cases hnote
          obtain ⟨q, m₂, _, _, hright, hgiven, rfl⟩ := bind_eq_ok hcalled
          obtain ⟨hexec, rfl⟩ := silent_eq_ok hright
          obtain ⟨htarget, rfl⟩ := hcall (hroot.plain hp.reaches rfl) hexec
          obtain ⟨back, m₃, calls₂, _, hback, hjoin, rfl⟩ := bind_eq_ok hgiven
          obtain ⟨hcollects₂, hcounts₂⟩ := ih (hp.tail (.right htarget)) hback
          have hall : Chain.Collects rules root seen back.2 (calls₁ ++ (id, right) :: calls₂) :=
            .enter hnew hp (hcollects₁.append hcollects₂)
          have hcounts : m.Counts (calls₁ ++ (id, right) :: calls₂) m₃ :=
            hcounts₁.append ((Memory.Counts.called id right m₁).append hcounts₂)
          rcases back with ⟨_ | back, seen₂⟩
          all_goals
            obtain ⟨hx, rfl⟩ := silent_eq_ok hjoin
            cases hx
            simp only [List.append_nil, List.nil_append, List.singleton_append]
            exact ⟨hall, hcounts⟩
    case bare => cases hroot.kinded _ hp.reaches
    all_goals
      obtain ⟨hx, rfl⟩ := silent_eq_ok h
      cases hx
      exact ⟨.nil fun _ h => h, .nil rfl⟩

/-! ### All collections -/

/-- Between two memories these chains were collected, and nothing else was called. -/
structure CollectionsNoted (rules : Rules) (root : Parser) (m : Memory)
    (collections : List (List (Nat × Thunk))) (m' : Memory) : Prop where
  once : ∀ calls ∈ collections, Chain.CallsOnce rules root calls
  counts : m.Counts collections.flatten m'

theorem CollectionsNoted.nil (h : m'.calls = m.calls) : CollectionsNoted rules root m [] m' :=
  ⟨nofun, .nil h⟩

def collectionsLedger (rules : Rules) (root : Parser) : Ledger (List (Nat × Thunk)) where
  rel := CollectionsNoted rules root
  refl _ := .nil rfl
  trans h h' := by
    refine ⟨fun calls hc => (List.mem_append.1 hc).elim (h.once calls) (h'.once calls), ?_⟩
    rw [List.flatten_append]
    exact h.counts.append h'.counts

/-- The run took note of the chains that it collected, if it ended well. -/
abbrev Accounts {α : Type} (rules : Rules) (root : Parser)
    (x : Noted (List (Nat × Thunk)) α) : Prop :=
  ∀ m, (x m).Keeps (collectionsLedger rules root) (fun _ => False) m

namespace Accounts

variable {α β : Type}

theorem bind {x : Noted (List (Nat × Thunk)) α} {f : α → Noted (List (Nat × Thunk)) β}
    (hx : Accounts rules root x) (hf : ∀ a, Accounts rules root (f a)) :
    Accounts rules root (x.bind f) :=
  fun m => (hx m).bind fun a _ _ => hf a (x m).memory

theorem silent {x : Run α} (h : ∀ m, (x.exec m).2.calls = m.calls) :
    Accounts rules root (silent x) :=
  fun m _ => .nil (h m)

theorem build (b : Build α) : Accounts rules root (Noted.silent (Run.build b)) :=
  .silent fun _ => rfl

theorem charSet (chars : List Parser) :
    Accounts rules root (Noted.silent (Chain.charSet chars)) := by
  refine .silent fun m => ?_
  rw [Chain.charSet, Run.exec_bind]
  cases chars.mapM Chain.member with
  | error f => rfl
  | ok members => cases Chain.lastDescription chars <;> rfl

theorem chain (hroot : root.Made rules) {call : Thunk → Run Parser}
    (hcall : CallsPlainly rules call) (n : Nat) (hp : Spans rules root p) :
    Accounts rules root (gathered (Chain.noted call n p [])) := by
  intro m hends
  cases ho : (Chain.noted call n p [] m).outcome with
  | error h => exact (hends h ho).elim
  | ok r =>
    obtain ⟨hcollects, hcounts⟩ := Chain.noted_collects hroot hcall n hp (r := r) (m := m)
      (by rw [← ho])
    refine ⟨List.forall_mem_singleton.2 hcollects.toCallsOnce, ?_⟩
    change m.Counts [(Chain.noted call n p [] m).notes].flatten _
    rwa [List.flatten_singleton]

end Accounts

theorem optimizeNotedWith_accounts (hroot : root.Made rules) {call : Thunk → Run Parser}
    (hcall : CallsPlainly rules call) (n : Nat) (hp : Spans rules root p) :
    Accounts rules root (optimizeNotedWith call n p) := by
  fun_induction optimizeNotedWith call n p
  case case1 id left right ih =>
    refine .bind (.chain hroot hcall n hp) fun found => ?_
    rcases found with ⟨_ | chars, seen⟩
    · exact .bind (.build _) fun cell => .bind (ih (hp.tail (.child (.head _)))) fun _ => .build _
    · exact .charSet chars
  case case4 ihl ihr | case5 ihl ihr =>
    exact .bind (ihl (hp.tail (.child (.head _)))) fun _ =>
      .bind (ihr (hp.tail (.child (.tail _ (.head _))))) fun _ => .build _
  case case9 p _ _ _ _ _ _ _ _ =>
    cases p
    case bare => cases hroot.kinded _ hp.reaches
    all_goals first | exact .silent fun _ => rfl | grind
  all_goals
    rename_i ih
    exact .bind (ih (hp.tail (.child (.head _)))) fun _ => .build _

theorem Thunk.callsPlainly (rules : Rules) (n : Nat) : CallsPlainly rules (Thunk.call rules n) :=
  fun ht _ _ _ h => call_plain_ok ht h

end

/-- Optimizing ends, however choices lead back to one another. While it collects one chain it calls
the right side of each choice at most once, it calls no thunk but these, and it ends in the same way
whatever the thunks of delayed and memoized nodes and the functions of loops are. -/
theorem optimize_terminates {rules : Rules} {p : Parser} {m : Memory} (hp : p.Made rules)
    (hd : p.Defined rules) (hm : m.Settled rules p) :
    ∃ q m' k, ∀ n, k ≤ n → (optimize rules n p).exec m = (.ok q, m') ∧
      (∃ collections, optimizeNoted rules n p m = ⟨.ok q, m', collections⟩ ∧
        (∀ calls ∈ collections, Chain.CallsOnce rules p calls) ∧
        m.Counts collections.flatten m') ∧
      ∀ late, (optimize (rules.refit late) n (p.refit late)).exec (m.refit late) =
        (.ok (q.refit late), m'.refit late) := by
  have hready : Ready rules p p := ⟨.refl, hd⟩
  obtain ⟨q, m', -, -, -, -, k, hends⟩ := optimize_ends_condensed hp hready.optimizable hm
  refine ⟨q, m', k, fun n hn => ⟨hends n hn, ?_, fun late => ?_⟩⟩
  · have hnoted : ((optimizeNoted rules n p m).outcome, (optimizeNoted rules n p m).memory) =
        (.ok q, m') := by
      rw [← exec_erase, erase_optimizeNoted, hends n hn]
    obtain ⟨houtcome, hmemory⟩ := Prod.mk.inj hnoted
    have haccounts : CollectionsNoted rules p m (optimizeNoted rules n p m).notes
        (optimizeNoted rules n p m).memory :=
      optimizeNotedWith_accounts hp (Thunk.callsPlainly rules n) n .refl m fun h ho => by
        rw [optimizeNoted] at houtcome
        rw [houtcome] at ho
        cases ho
    refine ⟨(optimizeNoted rules n p m).notes, ?_, haccounts.once, hmemory ▸ haccounts.counts⟩
    rw [← houtcome, ← hmemory]
  · rw [optimize_refit, hends n hn]
    rfl

/-- An `a` or the same again. -/
def echo : Parser := .orElse 1 (.char 0 'a') (.rule "echo")

def echoRules : Rules := [("echo", echo)]

def lostLoop : Parser := .loop 4 ⟨"lost", "<fn lost>"⟩ (fun _ => .error .outOfRange) .none

/-- A choice that leads back to itself, before nodes that would all fail if they were asked. -/
def echoThenLost : Parser :=
  .product 7 echo
    (.product 6 (.delayed 2 (.rule "lost")) (.product 5 (.memoized 3 (.rule "lost")) lostLoop))

def echoNodes : List Parser :=
  [echoThenLost, echo, .char 0 'a',
    .product 6 (.delayed 2 (.rule "lost")) (.product 5 (.memoized 3 (.rule "lost")) lostLoop),
    .delayed 2 (.rule "lost"), .product 5 (.memoized 3 (.rule "lost")) lostLoop,
    .memoized 3 (.rule "lost"), lostLoop]

theorem mem_echoNodes {q : Parser} (h : Reaches echoRules echoThenLost q) : q ∈ echoNodes := by
  refine h.closed (P := (· ∈ echoNodes)) (.head _) fun a b ha hab => ?_
  simp only [echoNodes, List.mem_cons, List.not_mem_nil, or_false] at ha
  cases hab with
  | child hb =>
    rcases ha with rfl | rfl | rfl | rfl | rfl | rfl | rfl | rfl
    case inr.inl =>
      obtain rfl := List.mem_singleton.1 hb
      simp [echoNodes]
    case inl | inr.inr.inr.inl | inr.inr.inr.inr.inr.inl =>
      rcases List.mem_pair.1 hb with rfl | rfl <;> simp [echoNodes]
    all_goals cases hb
  | thunk ht hb =>
    rcases ha with rfl | rfl | rfl | rfl | rfl | rfl | rfl | rfl <;> cases ht <;> cases hb
    exact .tail _ (.head _)
  | next hf hb =>
    rcases ha with rfl | rfl | rfl | rfl | rfl | rfl | rfl | rfl <;> cases hf
    cases hb

theorem echoThenLost_made : echoThenLost.Made echoRules := by
  refine ⟨fun q hq => ?_, fun {q t} hq ht => ?_, fun {id t t'} ht ht' => ?_⟩
  · have hmem := mem_echoNodes hq
    simp only [echoNodes, List.mem_cons, List.not_mem_nil, or_false] at hmem
    rcases hmem with rfl | rfl | rfl | rfl | rfl | rfl | rfl | rfl <;> rfl
  · have hmem := mem_echoNodes hq
    simp only [echoNodes, List.mem_cons, List.not_mem_nil, or_false] at hmem
    rcases hmem with rfl | rfl | rfl | rfl | rfl | rfl | rfl | rfl <;> cases ht <;> trivial
  · have hmem := mem_echoNodes ht
    have hmem' := mem_echoNodes ht'
    simp only [echoNodes, echoThenLost, echo, lostLoop, List.mem_cons, List.not_mem_nil,
      reduceCtorEq, Parser.memoized.injEq, or_self, or_false, false_or] at hmem hmem'
    rw [hmem.2, hmem'.2]

theorem echoThenLost_defined : echoThenLost.Defined echoRules := by
  intro id left right hs
  have hmem := mem_echoNodes hs.reaches
  simp only [echoNodes, echoThenLost, echo, lostLoop, List.mem_cons, List.not_mem_nil,
    reduceCtorEq, Parser.orElse.injEq, or_self, or_false, false_or] at hmem
  obtain ⟨-, -, rfl⟩ := hmem
  exact ⟨echo, rfl⟩

/-- The right side that leads back to the choice is called once, which ends the collecting, and the
missing rule is not called. -/
theorem echoThenLost_terminates : ∃ q m' k, ∀ n, k ≤ n →
    (optimize echoRules n echoThenLost).exec { nextId := 8 } = (.ok q, m') ∧
    (optimizeNoted echoRules n echoThenLost { nextId := 8 }).notes = [[(1, .rule "echo")]] ∧
    m'.callsOf "echo" = 1 ∧ m'.callsOf "lost" = 0 := by
  obtain ⟨q, m', k, h⟩ := optimize_terminates (m := { nextId := 8 }) echoThenLost_made
    echoThenLost_defined ⟨fun _ h => (nomatch h), fun _ _ => rfl⟩
  refine ⟨q, m', max k 3, fun n hn => ?_⟩
  obtain ⟨j, rfl⟩ : ∃ j, n = j + 3 := ⟨n - 3, by omega⟩
  obtain ⟨hends, ⟨collections, hnoted, -, hcounts⟩, -⟩ := h (j + 3) (by omega)
  have hcollections : collections = [[(1, .rule "echo")]] := congrArg Ending.notes hnoted.symm
  subst hcollections
  exact ⟨hends, congrArg Ending.notes hnoted, hcounts "echo", hcounts "lost"⟩

end ParserAlgebra
