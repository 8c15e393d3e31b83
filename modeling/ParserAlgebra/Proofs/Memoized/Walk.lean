import ParserAlgebra.Parse
import ParserAlgebra.Proofs.Lockstep
import ParserAlgebra.Proofs.Memoized.Joint

/-!
# A parser and its delaying form in lockstep

Under every bound a run of a parser that suits a plan and the run of its delaying form end alike and
leave joint memories; so do the two runs of the optimizer. Either side may be traced or not.
-/

namespace ParserAlgebra

open Run (Lockstep Keeps)
open ParserAlgebra.Parser (Everywhere)

section

variable {rules : Rules} {w : Plan rules}

/-- The right parser is the delaying form of the left one, which suits the plan. -/
def Plan.Same (w : Plan rules) (p q : Parser) : Prop :=
  q = p.delaying w.lazy ∧ p.Everywhere rules w.Suits

theorem Thunk.target_delaying (lazy : Nat → Bool) (t : Thunk) :
    (t.delaying lazy).target (Rules.delaying lazy rules) =
      Parser.delayingFound lazy (t.target rules) := by
  cases t with
  | const p => rfl
  | rule name =>
    simp only [Thunk.delaying, Thunk.target, Rules.lookup_delaying]
    cases rules.lookup name <;> rfl
  | optimized cell source => exact source.target_delaying lazy

theorem Thunk.Plain.delaying {t : Thunk} (h : t.Plain) (lazy : Nat → Bool) :
    (t.delaying lazy).Plain := by
  cases t with
  | const | rule => trivial
  | optimized => exact h.elim

theorem Thunk.called_delaying (lazy : Nat → Bool) (t : Thunk) (m : Memory) :
    (t.delaying lazy).called m = t.called m := by
  cases t <;> rfl

namespace Run.Lockstep

variable {α β : Type}

theorem keeping {R : α → β → Prop} {Q : α → Prop} {x : Run α} {y : Run β}
    (h : Lockstep w.Joint R x y) (hx : Keeps (Everywhere rules w.Suits) x Q) :
    Lockstep w.Joint (fun a b => R a b ∧ Q a) x y := by
  intro m m' hm
  obtain ⟨hS, hA⟩ := h m m' hm
  have hQ := (hx m hm.holds).2
  refine ⟨hS, ?_⟩
  generalize (x.exec m).1 = o at hA hQ ⊢
  generalize (y.exec m').1 = o' at hA ⊢
  cases hA with
  | ok h => exact .ok ⟨h, hQ _ rfl⟩
  | halt h => exact .halt h

theorem build {R : α → β → Prop} {b : Build α} {b' : Build β}
    (h : ∀ next, R (b next).1 (b' next).1 ∧ (b next).2 = (b' next).2) :
    Lockstep w.Joint R (Run.build b) (Run.build b') := by
  intro m m' hm
  obtain ⟨hR, hnext⟩ := h m.nextId
  simp only [exec_build, hm.nextId, ← hnext]
  exact ⟨hm.build _, .ok hR⟩

theorem found {e : Except Fault Parser} (h : ∀ p, e = .ok p → p.Everywhere rules w.Suits) :
    Lockstep w.Joint w.Same (Run.ofExcept e) (Run.ofExcept (Parser.delayingFound w.lazy e)) := by
  cases e with
  | ok p => exact .pure ⟨rfl, h p rfl⟩
  | error f => exact .raise f

theorem countCall {name : String} (h : w.holder name = none) :
    Lockstep w.Joint (fun _ _ => True) (Run.countCall name) (Run.countCall name) :=
  fun _ _ hm => ⟨hm.countCall h, .ok trivial⟩

theorem once {x y : Run Parser} {cell : Cell} (hc : w.Common cell)
    (hxy : Lockstep w.Joint w.Same x y) :
    Lockstep w.Joint w.Same (Run.once cell x) (Run.once cell y) := by
  intro m m' hm
  have hright := hm.parserIn?_eq hc
  cases hcell : m.parserIn? cell with
  | some p =>
    rw [hcell] at hright
    rw [exec_once_of_some x hcell, exec_once_of_some y hright]
    exact ⟨hm, .ok ⟨rfl, hm.holds cell p hcell⟩⟩
  | none =>
    rw [hcell] at hright
    have hnew : ∀ id, cell = .node id → w.kept id = none := by
      rintro id rfl
      refine Option.eq_none_iff_forall_not_mem.2 fun q hq => ?_
      rw [hm.kept id q hq] at hcell
      cases hcell
    obtain ⟨hS, hA⟩ := hxy m m' hm
    simp only [Run.once, exec_bind, exec_parserIn?, hcell, hright, Option.map_none]
    rcases hx : x.exec m with ⟨o, n⟩
    rcases hy : y.exec m' with ⟨o', n'⟩
    rw [hx, hy] at hS hA
    cases hA with
    | halt h => exact ⟨hS, .halt h⟩
    | ok h =>
      obtain ⟨rfl, hsuits⟩ := h
      exact ⟨hS.fill hc hnew hsuits, .ok ⟨rfl, hsuits⟩⟩

/-- A lazy node: the left side forces it or has forced it, the right side asks its thunk. -/
theorem lazy {id : Nat} {t : Thunk} (hs : w.Suits (.memoized id t)) (hl : w.lazy id = true)
    (ht : t.Everywhere rules w.Suits) (n : Nat) :
    Lockstep w.Joint w.Same (Run.once (.node id) (t.call rules (n + 1)))
      ((t.delaying w.lazy).call (Rules.delaying w.lazy rules) (n + 1)) := by
  have hthunk : t = w.thunk id ∧ t.Plain := by
    rw [Plan.Suits, if_pos hl] at hs
    exact ⟨hs.1, hs.2.1⟩
  obtain ⟨rfl, hplain⟩ := hthunk
  intro m m' hm
  have hleft := Thunk.exec_call_plain hplain rules n m
  have hright := Thunk.exec_call_plain (hplain.delaying w.lazy) (Rules.delaying w.lazy rules) n m'
  rw [Thunk.target_delaying, Thunk.called_delaying] at hright
  rw [hright]
  cases hcell : m.parserIn? (.node id) with
  | some p =>
    rw [exec_once_of_some _ hcell, hm.settled id p hl hcell]
    exact ⟨hm.again hs hl (by simp [hcell]), .ok ⟨rfl, hm.holds _ p hcell⟩⟩
  | none =>
    cases hq : (w.thunk id).target rules with
    | ok q =>
      rw [hq] at hleft
      rw [exec_once_of_none hcell hleft]
      exact ⟨hm.force hs hl hcell hq (ht q hq), .ok ⟨rfl, ht q hq⟩⟩
    | error f =>
      rw [hq] at hleft
      simp only [Run.once, exec_bind, exec_parserIn?, hcell, hleft]
      exact ⟨hm.fail hs hl hq, .halt _⟩

end Run.Lockstep

/-! ### Optimizing -/

theorem leaves_lockstep {call call' : Thunk → Run Parser}
    (hcall : ∀ t, w.Free t → t.Everywhere rules w.Suits →
      Lockstep w.Joint w.Same (call t) (call' (t.delaying w.lazy)))
    (n : Nat) {p : Parser} (hp : p.Everywhere rules w.Suits) (seen : List Nat) :
    Lockstep w.Joint Eq (Chain.leaves call n p seen)
      (Chain.leaves call' n (p.delaying w.lazy) seen) := by
  induction n generalizing p seen with
  | zero => exact .exhaust
  | succ n ih =>
    unfold Chain.leaves
    cases p <;> try exact .pure rfl
    case orElse id left right =>
      dsimp only [Parser.delaying]
      split
      · exact .pure rfl
      · refine .bind (ih (hp.child (.head _)) _) fun front _ he => ?_
        subst he
        rcases front with ⟨_ | front, seen⟩
        · exact .pure rfl
        · refine .bind (hcall right hp.here (hp.thunk rfl)) fun q _ hq => ?_
          obtain ⟨rfl, hsuits⟩ := hq
          refine .bind (ih hsuits seen) fun back _ he => ?_
          subst he
          rcases back with ⟨_ | back, seen⟩ <;> exact .pure rfl
    case memoized id thunk =>
      by_cases hl : w.lazy id = true
      · rw [Parser.delaying, if_pos hl]
        exact .pure rfl
      · rw [Parser.delaying, if_neg hl]
        exact .pure rfl
    case bare id tag payload children =>
      dsimp only [Parser.delaying]
      split
      · exact .pure rfl
      · split
        · exact .raise _
        · exact .pure rfl

theorem charSet_lockstep (chars : List Parser) :
    Lockstep w.Joint (fun p q => q = p.delaying w.lazy) (Chain.charSet chars)
      (Chain.charSet chars) :=
  .ofExcept_bind fun _ _ => .ofExcept_bind fun _ _ => .build fun _ => ⟨rfl, rfl⟩

theorem optimizeWith_delaying_memoized (call : Thunk → Run Parser) (n : Nat)
    (lazy : Nat → Bool) (id : Nat) (t : Thunk) :
    optimizeWith call n ((Parser.memoized id t).delaying lazy) =
      pure ((Parser.memoized id t).delaying lazy) := by
  rw [Parser.delaying]
  split <;> rfl

theorem optimizeWith_lockstep {call call' : Thunk → Run Parser}
    (hcall : ∀ t, w.Free t → t.Everywhere rules w.Suits →
      Lockstep w.Joint w.Same (call t) (call' (t.delaying w.lazy)))
    (n : Nat) {p : Parser} (hp : p.Everywhere rules w.Suits) :
    Lockstep w.Joint (fun p q => q = p.delaying w.lazy) (optimizeWith call n p)
      (optimizeWith call' n (p.delaying w.lazy)) := by
  fun_induction optimizeWith call n p
  case case1 id left right ih =>
    have hfound := leaves_lockstep hcall n hp []
    rw [Parser.delaying] at hfound ⊢
    rw [optimizeWith]
    refine .bind hfound fun found _ he => ?_
    subst he
    rcases found with ⟨_ | chars, seen⟩
    · refine .bind (.build (R := Eq) fun _ => ⟨rfl, rfl⟩) fun cell _ he => ?_
      subst he
      refine .bind (ih (hp.child (.head _))) fun left' _ hl => ?_
      subst hl
      exact .build fun _ => ⟨rfl, rfl⟩
    · exact charSet_lockstep chars
  case case4 ihl ihr =>
    rw [Parser.delaying, optimizeWith]
    refine .bind (ihl (hp.child (.head _))) fun left' _ hl =>
      .bind (ihr (hp.child (.tail _ (.head _)))) fun right' _ hr => ?_
    subst hl hr
    exact .build fun _ => ⟨rfl, rfl⟩
  case case5 ihl ihr =>
    rw [Parser.delaying, optimizeWith]
    refine .bind (ihl (hp.child (.head _))) fun left' _ hl =>
      .bind (ihr (hp.child (.tail _ (.head _)))) fun right' _ hr => ?_
    subst hl hr
    exact .build fun _ => ⟨rfl, rfl⟩
  case case9 hpart =>
    rw [Parser.delaying, optimizeWith, hpart]
    exact .raise _
  case case10 hpart =>
    rw [Parser.delaying, optimizeWith, hpart]
    exact .pure rfl
  case case11 p _ _ _ _ _ _ _ _ _ =>
    cases p
    case memoized =>
      rw [optimizeWith_delaying_memoized]
      exact .pure rfl
    all_goals first | exact .pure rfl | grind
  all_goals
    rename_i ih
    rw [Parser.delaying, optimizeWith]
    refine .bind (ih (hp.child (.head _))) fun source' _ hs => ?_
    subst hs
    exact .build fun _ => ⟨rfl, rfl⟩

theorem call_lockstep (n : Nat) {t : Thunk} (hfree : w.Free t)
    (ht : t.Everywhere rules w.Suits) :
    Lockstep w.Joint w.Same (t.call rules n)
      ((t.delaying w.lazy).call (Rules.delaying w.lazy rules) n) := by
  induction n generalizing t with
  | zero => exact .exhaust
  | succ n ih =>
    cases t with
    | const p => exact .pure ⟨rfl, ht p rfl⟩
    | rule name =>
      refine .bind (.countCall (hfree name rfl)) fun _ _ _ => ?_
      have htarget : ∀ p, rules.lookup name = some p → p.Everywhere rules w.Suits := fun p hp =>
        ht p (by simp only [Thunk.target, hp])
      rw [Rules.lookup_delaying]
      cases hp : rules.lookup name with
      | none => exact .raise _
      | some p => exact .pure ⟨rfl, htarget p hp⟩
    | optimized cell source =>
      have hmake : Lockstep w.Joint w.Same
          (source.call rules n >>= optimizeWith (Thunk.call rules n) n)
          ((source.delaying w.lazy).call (Rules.delaying w.lazy rules) n >>=
            optimizeWith (Thunk.call (Rules.delaying w.lazy rules) n) n) := by
        refine .bind (ih hfree ht) fun p _ hp => ?_
        obtain ⟨rfl, hsuits⟩ := hp
        have hkeeps := optimizeWith_everywhere w.suits_local
          (fun t ht => call_everywhere w.suits_local n ht) n hsuits
        exact (optimizeWith_lockstep (fun t hf ht => ih hf ht) n hsuits).keeping hkeeps
      exact .once (fun _ h => by cases h) hmake

theorem optimize_lockstep (n : Nat) {p : Parser} (hp : p.Everywhere rules w.Suits) :
    Lockstep w.Joint w.Same (optimize rules n p)
      (optimize (Rules.delaying w.lazy rules) n (p.delaying w.lazy)) :=
  (optimizeWith_lockstep (fun _ => call_lockstep n) n hp).keeping
    (optimize_everywhere w.suits_local n hp)

/-! ### Nodes and runs -/

theorem oneChar_lockstep (text : Array Char) (i : Nat) (test : Char → Except Fault Bool)
    (words : String) :
    Lockstep w.Joint (Reply.Meets Eq Eq) (oneChar text i test words)
      (oneChar text i test words) := by
  unfold oneChar
  cases text[i]? with
  | none => exact .pure (.refl _)
  | some c =>
    refine .ofExcept_bind fun b _ => ?_
    cases b with
    | true => exact .pure (.refl _)
    | false => exact .pure (.refl _)

variable (text : Array Char) (trace trace' : Bool)

theorem nodeReply_lockstep {n : Nat} (hrun : ∀ {q : Parser} (j : Nat),
      q.Everywhere rules w.Suits → Lockstep w.Joint (Reply.Meets Eq Eq)
        (interpret ⟨rules, text, trace⟩ n q j)
        (interpret ⟨Rules.delaying w.lazy rules, text, trace'⟩ n (q.delaying w.lazy) j))
    {p : Parser} (i : Nat) (hp : p.Everywhere rules w.Suits) :
    Lockstep w.Joint (Reply.Meets Eq Eq)
      (nodeReply ⟨rules, text, trace⟩ n (interpret ⟨rules, text, trace⟩ n) p i)
      (nodeReply ⟨Rules.delaying w.lazy rules, text, trace'⟩ n
        (interpret ⟨Rules.delaying w.lazy rules, text, trace'⟩ n) (p.delaying w.lazy) i) := by
  have hsource : ∀ {q : Parser}, q ∈ p.children → ∀ j j', j = j' →
      Lockstep w.Joint (Reply.Meets Eq Eq) (interpret ⟨rules, text, trace⟩ n q j)
        (interpret ⟨Rules.delaying w.lazy rules, text, trace'⟩ n (q.delaying w.lazy) j') := by
    rintro q hq j _ rfl
    exact hrun j (hp.child hq)
  have hthen : ∀ {x y : Run Parser}, Lockstep w.Joint w.Same x y →
      Lockstep w.Joint (Reply.Meets Eq Eq)
        (x >>= fun q => interpret ⟨rules, text, trace⟩ n q i)
        (y >>= fun q => interpret ⟨Rules.delaying w.lazy rules, text, trace'⟩ n q i) := by
    intro x y hxy
    refine .bind hxy fun q _ hq => ?_
    obtain ⟨rfl, hsuits⟩ := hq
    exact hrun i hsuits
  cases p with
  | literal | constant | identity | fail => exact .pure (.refl _)
  | char | charWhere => exact oneChar_lockstep text i _ _
  | map id source fn =>
    exact .andThen (hsource (.head _) i i rfl) fun v j j' hj =>
      .ofExcept_bind fun u _ => .pure (.accept u hj)
  | bind id source label next =>
    refine .andThen (hsource (.head _) i i rfl) fun v j j' hj => ?_
    subst hj
    refine .bind (.found fun q hq => hp.next rfl hq) fun q _ hq => ?_
    obtain ⟨rfl, hsuits⟩ := hq
    exact hrun j hsuits
  | product id left right =>
    exact .andThen (hsource (.head _) i i rfl) fun v j j' hj =>
      .andThen (hsource (.tail _ (.head _)) j j' hj) fun u k k' hk => .pure (.accept _ hk)
  | both id left right combine =>
    exact .andThen (hsource (.head _) i i rfl) fun v j j' hj =>
      .andThen (hsource (.tail _ (.head _)) j j' hj) fun u k k' hk =>
        .ofExcept_bind fun x _ => .pure (.accept x hk)
  | orElse id left right =>
    exact .orElse (hsource (.head _) i i rfl) (hthen (call_lockstep n hp.here (hp.thunk rfl)))
  | many id source identity combine =>
    refine .bind (.greedy (fun _ _ _ _ h h' => by rw [h, h']) (hsource (.head _)) _ _ _ rfl)
      fun r r' hr => .pure ?_
    rw [hr.1]
    exact .accept _ hr.2
  | manyBetween id source minimum maximum identity combine =>
    refine .bind (.upTo (hsource (.head _)) _ _ _ _ rfl) fun r r' hr => ?_
    obtain ⟨count, value, stop⟩ := r
    obtain ⟨rfl, rfl, rfl⟩ := hr
    dsimp only
    split
    · exact .pure (.refl _)
    · exact .pure (.refl _)
  | collect id source minimum accumulator =>
    refine .ofExcept_bind fun start _ =>
      .bind (.greedy (fun _ _ _ _ h h' => by rw [h, h']) (hsource (.head _)) _ _ _ rfl)
        fun r r' hr => ?_
    obtain ⟨⟨state, count⟩, stop⟩ := r
    obtain ⟨⟨state', count'⟩, stop'⟩ := r'
    obtain ⟨hstate, hstop⟩ := hr
    cases hstate
    cases hstop
    dsimp only
    split
    · exact .pure (.refl _)
    · exact .ofExcept_bind fun v _ => .pure (.refl _)
  | delayed id thunk => exact hthen (call_lockstep n hp.here (hp.thunk rfl))
  | memoized id thunk =>
    cases hl : w.lazy id with
    | false =>
      have hfree : w.Free thunk := by simpa [Plan.Suits, hl] using hp.here
      have hnode : (Parser.memoized id thunk).delaying w.lazy =
          .memoized id (thunk.delaying w.lazy) := by simp [Parser.delaying, hl]
      rw [hnode]
      refine hthen (.once (fun id' he => ?_) (call_lockstep n hfree (hp.thunk rfl)))
      cases he
      exact hl
    | true =>
      have hnode : (Parser.memoized id thunk).delaying w.lazy =
          .delayed id (thunk.delaying w.lazy) := by simp [Parser.delaying, hl]
      rw [hnode]
      cases n with
      | zero =>
        intro m m' hm
        simp only [nodeReply, Thunk.call, interpret, Run.exec_once_exhaust]
        exact ⟨hm, .halt _⟩
      | succ n => exact hthen (.lazy hp.here hl (hp.thunk rfl) n)
  | loop id label next seed =>
    refine .rounds (fun s => .found fun q hq => hp.next rfl hq) (fun q _ j _ hq hj => ?_) n seed rfl
    obtain ⟨rfl, hsuits⟩ := hq
    subst hj
    exact hrun j hsuits
  | bare id tag payload children =>
    exact .ofExcept fun r _ => .refl r

theorem interpret_lockstep (n : Nat) {p : Parser} (i : Nat) (hp : p.Everywhere rules w.Suits) :
    Lockstep w.Joint (Reply.Meets Eq Eq) (interpret ⟨rules, text, trace⟩ n p i)
      (interpret ⟨Rules.delaying w.lazy rules, text, trace'⟩ n (p.delaying w.lazy) i) := by
  induction n generalizing p i with
  | zero => exact .exhaust
  | succ n ih =>
    exact .step (fun _ _ e hm => hm.write_left e) (fun _ _ e hm => hm.write_right e)
      (Parser.unknownTag?_delaying w.lazy p).symm
      (nodeReply_lockstep text trace trace' (fun j hq => ih j hq) i hp)

theorem evaluate_lockstep (n : Nat) {p : Parser} (hp : p.Everywhere rules w.Suits)
    (input : String) (trace trace' : Bool) :
    Lockstep w.Joint Eq (evaluate rules n p input trace)
      (evaluate (Rules.delaying w.lazy rules) n (p.delaying w.lazy) input trace') :=
  .bind (interpret_lockstep _ trace trace' n 0 hp) fun _ _ h => .pure (by rw [h.eq])

/-- Parsing may be traced on one side and not on the other. -/
theorem parse_lockstep (n : Nat) {p : Parser} (hp : p.Everywhere rules w.Suits) (input : String)
    (optimized trace trace' : Bool) :
    Lockstep w.Joint Eq (parse rules n { optimized, trace } p input)
      (parse (Rules.delaying w.lazy rules) n { optimized, trace := trace' } (p.delaying w.lazy)
        input) := by
  unfold parse
  cases optimized with
  | false => exact evaluate_lockstep n hp input trace trace'
  | true =>
    refine .bind (optimize_lockstep n hp) fun q _ hq => ?_
    obtain ⟨rfl, hsuits⟩ := hq
    exact evaluate_lockstep n hsuits input trace trace'

end

end ParserAlgebra
