import ParserAlgebra.Proofs.Offset
import ParserAlgebra.Proofs.Optimizer.Linked

/-!
# Guarded grammars terminate

A grammar is guarded if ranks of its nodes go down wherever a node runs another one before anything
was consumed. Then the pair of what is left of the text and of the rank goes down in each step of
the recursion, and some bound suffices for every run. `Run.Ends` says with which outcome; it is the
same from all settled memories.
-/

namespace ParserAlgebra

open Run (Growing Follows Finds)

/-! ### Guarded grammars -/

/-- Where the parser succeeds with a value of this kind, it has consumed something. -/
def Parser.ConsumesFor (rules : Rules) (kind : Value → Prop) (p : Parser) : Prop :=
  ∀ (text : Array Char) (trace : Bool) (n i : Nat), i ≤ text.size → ∀ v stop, kind v →
    ((interpret ⟨rules, text, trace⟩ n p i).exec {}).1 = .ok (.accept v stop) → stop ≠ i

def Parser.Consuming (rules : Rules) : Parser → Prop := Parser.ConsumesFor rules fun _ => True

/-- Where the parser asks for another round, it has consumed something. -/
def Parser.LeftConsuming (rules : Rules) : Parser → Prop :=
  Parser.ConsumesFor rules fun v => ∃ seed, v = .left seed

/-- Ranks of the nodes below the root that go down where a node runs another one and may not have
consumed anything before. -/
structure Guarded (rules : Rules) (rank : Parser → Nat) (root : Parser) : Prop where
  first : ∀ {p q : Parser}, Reaches rules root p → p.children.head? = some q → rank q < rank p
  thunk : ∀ {p q : Parser} {t : Thunk}, Reaches rules root p → p.thunk? = some t →
    t.target rules = .ok q → rank q < rank p
  product : ∀ {id : Nat} {left right : Parser}, Reaches rules root (.product id left right) →
    left.Consuming rules ∨ rank right < rank (.product id left right)
  both : ∀ {id : Nat} {left right : Parser} {combine : Combiner},
    Reaches rules root (.both id left right combine) →
      left.Consuming rules ∨ rank right < rank (.both id left right combine)
  bind : ∀ {id : Nat} {source q : Parser} {label : Label} {next : Value → Except Fault Parser}
    {v : Value}, Reaches rules root (.bind id source label next) → next v = .ok q →
      source.Consuming rules ∨ rank q < rank (.bind id source label next)
  loop : ∀ {id : Nat} {q : Parser} {label : Label} {next : Value → Except Fault Parser}
    {seed v : Value}, Reaches rules root (.loop id label next seed) → next v = .ok q →
      rank q < rank (.loop id label next seed) ∧ q.LeftConsuming rules

/-! ### Runs that end -/

namespace Run

variable {α β : Type} {rules : Rules} {root : Parser}

/-- For some bound the runs have this outcome, from whatever settled memory they start. -/
def Ends (rules : Rules) (root : Parser) (y : Nat → Run α) (o : Except Fault α) : Prop :=
  Follows (fun (_ : Unit) _ m => m.Settled rules root) (fun _ _ a => o = .ok a) ()
    (Run.ofExcept o) y

def Halts (rules : Rules) (root : Parser) (y : Nat → Run α) : Prop := ∃ o, Ends rules root y o

namespace Ends

theorem exec {y : Nat → Run α} {o : Except Fault α} (h : Ends rules root y o) {m : Memory}
    (hm : m.Settled rules root) : ∃ k, ((y k).exec m).1 = ((Run.ofExcept o).exec m).1 := by
  have hne : ((Run.ofExcept o).exec m).1 ≠ .error .exhausted := by cases o <;> exact nofun
  obtain ⟨k, _, -, -, hA⟩ := h () le_rfl m m hm hne
  refine ⟨k, ?_⟩
  generalize ((y k).exec m).1 = o' at hA ⊢
  cases o with
  | error f => cases hA; rfl
  | ok a =>
    cases hA with
    | ok h => cases h; rfl

theorem ofExcept (e : Except Fault α) : Ends rules root (fun _ => Run.ofExcept e) e :=
  Follows.ofExcept fun _ ha _ _ => ha

theorem finds {e : Except Fault α} {y : Nat → Run α}
    (h : ∀ k, Finds rules root e (y (k + 1))) : Ends rules root y e := by
  refine .of_succ fun w _ m m' hm' _ => ?_
  obtain ⟨n, hy, hn, -⟩ := h 0 m' hm'
  refine ⟨0, w, le_rfl, ?_⟩
  simp only [hy]
  cases e with
  | ok a => exact ⟨hn, .ok rfl⟩
  | error f => exact ⟨hn, .fault f⟩

theorem then_halts {y : Nat → Run α} {g : Nat → α → Run β} {o : Except Fault α}
    (h : Ends rules root y o) (hy : Growing y) (hg : ∀ b, Growing fun k => g k b)
    (ho : ∀ a, o = .ok a → Halts rules root fun k => g k a) :
    Halts rules root fun k => y k >>= g k := by
  cases o with
  | error f =>
    refine ⟨.error f, Follows.bind (f := fun _ => Run.raise f) h hy hg fun _ _ b _ hb => ?_⟩
    cases hb
  | ok a =>
    obtain ⟨o', ho'⟩ := ho a rfl
    refine ⟨o', Follows.bind (f := fun _ => Run.ofExcept o') h hy hg fun _ _ b _ hb => ?_⟩
    cases hb
    exact ho'

end Ends

namespace Halts

theorem pure (a : α) : Halts rules root fun _ => Pure.pure a := ⟨.ok a, .ofExcept (.ok a)⟩

theorem of_succ {y : Nat → Run α} (h : Halts rules root fun k => y (k + 1)) :
    Halts rules root y := by
  obtain ⟨o, ho⟩ := h
  exact ⟨o, .of_succ ho⟩

theorem succ {y : Nat → Run α} (hy : Growing y) (h : Halts rules root y) :
    Halts rules root fun k => y (k + 1) := by
  obtain ⟨o, ho⟩ := h
  exact ⟨o, .succ hy ho⟩

theorem bind {y : Nat → Run α} {g : Nat → α → Run β} (h : Halts rules root y) (hy : Growing y)
    (hg : ∀ b, Growing fun k => g k b)
    (ho : ∀ a, Ends rules root y (.ok a) → Halts rules root fun k => g k a) :
    Halts rules root fun k => y k >>= g k := by
  obtain ⟨o, h⟩ := h
  refine h.then_halts hy hg fun a ha => ho a ?_
  rwa [ha] at h

theorem oneChar (text : Array Char) (i : Nat) (test : Char → Except Fault Bool)
    (words : String) : Halts rules root fun _ => ParserAlgebra.oneChar text i test words := by
  unfold ParserAlgebra.oneChar
  cases text[i]? with
  | none => exact .pure _
  | some c =>
    refine (Ends.ofExcept _).then_halts (.const _) (fun _ => .const _) fun b _ => ?_
    cases b with
    | true => exact .pure _
    | false => exact .pure _

/-! ### Sequences, choices and loops -/

theorem andThen {y : Nat → Run Reply} {g : Nat → Value → Nat → Run Reply}
    (h : Halts rules root y) (hy : Growing y) (hg : ∀ v i, Growing fun k => g k v i)
    (ho : ∀ v stop, Ends rules root y (.ok (.accept v stop)) →
      Halts rules root fun k => g k v stop) :
    Halts rules root fun k => (y k).andThen (g k) := by
  refine .bind h hy (fun reply => ?_) fun reply hreply => ?_
  · cases reply with
    | accept v i => exact hg v i
    | reject => exact .const _
  · cases reply with
    | accept v stop => exact ho v stop hreply
    | reject why start => exact .pure _

theorem orElse {y y' : Nat → Run Reply} (h : Halts rules root y) (hy : Growing y)
    (hy' : Growing y') (h' : Halts rules root y') :
    Halts rules root fun k => (y k).orElse (y' k) := by
  refine .bind h hy (fun reply => ?_) fun reply _ => ?_
  · cases reply with
    | accept => exact .const _
    | reject => exact hy'
  · cases reply with
    | accept v stop => exact .pure _
    | reject => exact h'

variable {low high : Nat}

theorem greedy {σ : Type} {run : Nat → Nat → Run Reply} (hg : ∀ i, Growing fun k => run k i)
    (h : ∀ i, low ≤ i → i ≤ high → Halts rules root fun k => run k i)
    (hwithin : ∀ i v stop, low ≤ i → i ≤ high →
      Ends rules root (fun k => run k i) (.ok (.accept v stop)) → i ≤ stop ∧ stop ≤ high)
    (append : σ → Value → Except Fault σ) (budget : Nat) (s : σ) {i : Nat} (hlow : low ≤ i)
    (hhigh : i ≤ high) (hbudget : high - i < budget) :
    Halts rules root fun k => ParserAlgebra.greedy (run k) append budget s i := by
  induction budget generalizing s i with
  | zero => exact absurd hbudget (Nat.not_lt_zero _)
  | succ budget ih =>
    have hrest : ∀ s' stop, Growing fun k =>
        ParserAlgebra.greedy (run k) append budget s' stop := fun s' stop k =>
      greedy_extends (fun j => hg j k) append budget s' stop
    refine .bind (h i hlow hhigh) (hg i) (fun reply => ?_) fun reply hreply => ?_
    · cases reply with
      | reject => exact .const _
      | accept v stop =>
        dsimp only
        split
        · exact .const _
        · exact .bind (.const _) fun s' => hrest s' stop
    · cases reply with
      | reject why start => exact .pure _
      | accept v stop =>
        have hstop := hwithin i v stop hlow hhigh hreply
        dsimp only
        split
        · exact .pure _
        · exact (Ends.ofExcept _).then_halts (.const _) (fun s' => hrest s' stop) fun s' _ =>
            ih s' (by omega) (by omega) (by omega)

theorem upTo {run : Nat → Nat → Run Reply} (hg : ∀ i, Growing fun k => run k i)
    (h : ∀ i, low ≤ i → i ≤ high → Halts rules root fun k => run k i)
    (hwithin : ∀ i v stop, low ≤ i → i ≤ high →
      Ends rules root (fun k => run k i) (.ok (.accept v stop)) → i ≤ stop ∧ stop ≤ high)
    (join : Value → Value → Except Fault Value) (more count : Nat) (u : Value) {i : Nat}
    (hlow : low ≤ i) (hhigh : i ≤ high) :
    Halts rules root fun k => ParserAlgebra.upTo (run k) join more count u i := by
  induction more generalizing count u i with
  | zero => exact .pure _
  | succ more ih =>
    have hrest : ∀ u' stop, Growing fun k =>
        ParserAlgebra.upTo (run k) join more (count + 1) u' stop := fun u' stop k =>
      upTo_extends (fun j => hg j k) join more (count + 1) u' stop
    refine .bind (h i hlow hhigh) (hg i) (fun reply => ?_) fun reply hreply => ?_
    · cases reply with
      | reject => exact .const _
      | accept v stop => exact .bind (.const _) fun u' => hrest u' stop
    · cases reply with
      | reject why start => exact .pure _
      | accept v stop =>
        have hstop := hwithin i v stop hlow hhigh hreply
        exact (Ends.ofExcept _).then_halts (.const _) (fun u' => hrest u' stop) fun u' _ =>
          ih (count + 1) u' (by omega) (by omega)

/-- Rounds come to an end where each that asks for another one consumes something. -/
theorem rounds {run : Nat → Runner} {next : Value → Except Fault Parser}
    (hg : ∀ p i, Growing fun k => run k p i)
    (h : ∀ s p i, next s = .ok p → low ≤ i → i ≤ high → Halts rules root fun k => run k p i)
    (hleft : ∀ s p i s' stop, next s = .ok p → low ≤ i → i ≤ high →
      Ends rules root (fun k => run k p i) (.ok (.accept (.left s') stop)) →
        i < stop ∧ stop ≤ high)
    (s : Value) {i : Nat} (hlow : low ≤ i) (hhigh : i ≤ high) :
    Halts rules root fun k => ParserAlgebra.rounds (run k) next k s i := by
  -- On what is left of the text. The bound is the number of rounds too, so `run` is shifted by one
  -- in each round.
  induction hleftover : high - i using Nat.strong_induction_on generalizing s i run with
  | _ leftover ih =>
    have hg' : ∀ p i, Growing fun k => run (k + 1) p i := fun p i k => hg p i (k + 1)
    have hrest : ∀ s' stop, Growing fun k =>
        ParserAlgebra.rounds (run (k + 1)) next k s' stop := fun s' stop k =>
      rounds_extends (fun q j => hg' q j k) next k s' stop
    refine .of_succ ((Ends.ofExcept _).then_halts (.const _) (fun p => ?_) fun p hp => ?_)
    · refine .bind (hg' p i) fun reply => ?_
      cases reply with
      | reject => exact .const _
      | accept v stop => cases v <;> first | exact .const _ | exact hrest _ stop
    · refine .bind (.succ (hg p i) (h s p i hp hlow hhigh)) (hg' p i) (fun reply => ?_)
        fun reply hreply => ?_
      · cases reply with
        | reject => exact .const _
        | accept v stop => cases v <;> first | exact .const _ | exact hrest _ stop
      · cases reply with
        | reject why start => exact .pure _
        | accept v stop =>
          cases v with
          | left s' =>
            have hstop := hleft s p i s' stop hp hlow hhigh (.of_succ hreply)
            exact ih (high - stop) (by omega) hg'
              (fun s q j hq hj hj' => .succ (hg q j) (h s q j hq hj hj'))
              (fun s q j s' last hq hj hj' he => hleft s q j s' last hq hj hj' (.of_succ he))
              s' (by omega) (by omega) rfl
          | right u => exact .pure _
          | _ => exact ⟨_, .ofExcept (.error _)⟩

theorem step {cx : Context} {i : Nat} {p : Parser} (hp : p.isBare = false)
    (h : Halts rules root fun k => nodeReply cx k (interpret cx k) p i) :
    Halts rules root fun k => interpret cx k p i := by
  have hg : Growing fun k => nodeReply cx k (interpret cx k) p i := fun k =>
    nodeReply_extends cx k (fun q j => interpret_extends_succ cx k q j) p i
  have hwrite : ∀ entry, Ends rules root (fun _ => Run.write entry) (.ok ()) := fun entry =>
    fun w _ _ _ hm _ => ⟨0, w, le_rfl, ⟨hm.node, hm.right⟩, .ok rfl⟩
  refine .of_succ ?_
  simp only [interpret, ParserAlgebra.step, Parser.unknownTag?_eq_none hp]
  split
  · refine (hwrite _).then_halts (.const _) (fun _ => hg.bind fun _ => .const _) fun _ _ =>
      .bind h hg (fun _ => .const _) fun reply _ => ?_
    cases reply with
    | accept v stop => exact .pure _
    | reject why start =>
      exact (hwrite _).then_halts (.const _) (fun _ => .const _) fun _ _ => .pure _
  · exact .bind h hg (fun _ => .const _) fun reply _ => .pure _

end Halts

end Run

open Run (Ends Halts)

/-! ### Nodes and runs -/

section

variable {rules : Rules} {root : Parser} {rank : Parser → Nat}

theorem Run.Ends.within {cx : Context} {p : Parser} {i : Nat} (hp : p.Kinded cx.rules)
    (hi : i ≤ cx.text.size) {v : Value} {stop : Nat}
    (h : Ends cx.rules root (fun k => interpret cx k p i) (.ok (.accept v stop))) :
    i ≤ stop ∧ stop ≤ cx.text.size := by
  obtain ⟨k, hk⟩ := h.exec (.empty cx.rules root)
  have hempty : ({} : Memory).Holds (Parser.Kinded cx.rules) := fun _ _ h => nomatch h
  exact (interpret_within cx k hp hi {} hempty).2 _ hk

theorem Parser.ConsumesFor.lt {cx : Context} {kind : Value → Prop} {p : Parser} {i : Nat}
    (hc : p.ConsumesFor cx.rules kind) (hp : p.Kinded cx.rules) (hi : i ≤ cx.text.size) {v : Value}
    {stop : Nat} (hv : kind v)
    (h : Ends cx.rules root (fun k => interpret cx k p i) (.ok (.accept v stop))) : i < stop := by
  obtain ⟨k, hk⟩ := h.exec (.empty cx.rules root)
  have hne : stop ≠ i := hc cx.text cx.trace k i hi v stop hv hk
  have hle := (h.within hp hi).1
  omega

theorem nodeReply_halts {cx : Context} (hroot : root.Made cx.rules)
    (hguard : Guarded cx.rules rank root) {p : Parser} {i : Nat} (hp : Reaches cx.rules root p)
    (hi : i ≤ cx.text.size) (hrun : ∀ {q : Parser} {j : Nat}, Reaches cx.rules root q → i ≤ j →
      j ≤ cx.text.size → i < j ∨ rank q < rank p →
        Halts cx.rules root fun k => interpret cx k q j) :
    Halts cx.rules root fun k => nodeReply cx k (interpret cx k) p i := by
  have hg : ∀ q j, Growing fun k => interpret cx k q j := fun q j k =>
    interpret_extends_succ cx k q j
  have hcall : ∀ t : Thunk, Growing fun k => t.call cx.rules k := fun t k =>
    call_extends cx.rules k t
  have hkinded : ∀ {q : Parser}, Reaches cx.rules root q → q.Kinded cx.rules := fun hq r hr =>
    hroot.kinded r (hq.trans hr)
  have hwithin : ∀ {q : Parser} j v stop, Reaches cx.rules root q → j ≤ cx.text.size →
      Ends cx.rules root (fun k => interpret cx k q j) (.ok (.accept v stop)) →
        j ≤ stop ∧ stop ≤ cx.text.size := fun j v stop hq hj h =>
    h.within (hkinded hq) hj
  have hfirst : ∀ {q : Parser}, p.children.head? = some q → ∀ j, i ≤ j → j ≤ cx.text.size →
      Halts cx.rules root fun k => interpret cx k q j := fun hq j hj hj' =>
    hrun (hp.tail (.child (List.mem_of_head? hq))) hj hj' (.inr (hguard.first hp hq))
  have hthunk : ∀ {t : Thunk} {y : Nat → Run Parser}, p.thunk? = some t → Growing y →
      (∀ k, Finds cx.rules root (t.target cx.rules) (y (k + 1))) →
      Halts cx.rules root fun k => y k >>= fun q => interpret cx k q i := fun ht hy h =>
    (Ends.finds h).then_halts hy (fun q => hg q i) fun q hq =>
      hrun (hp.tail (.thunk ht hq)) le_rfl hi (.inr (hguard.thunk hp ht hq))
  -- What runs after a first part has consumed something, or has a smaller rank.
  have hpair : ∀ {left right : Parser} {f : Value → Value → Nat → Run Reply},
      p.children = [left, right] → left.Consuming cx.rules ∨ rank right < rank p →
      (∀ v u last, Halts cx.rules root fun _ => f v u last) →
      Halts cx.rules root fun k => (interpret cx k left i).andThen fun v stop =>
        (interpret cx k right stop).andThen (f v) := by
    intro left right f hc hright hf
    have hleft : Reaches cx.rules root left := hp.tail (.child (by simp [hc]))
    have hgrow : ∀ v j, Growing fun k => (interpret cx k right j).andThen (f v) := fun v j k =>
      andThen_extends (hg right j k) fun _ _ => .refl _
    refine .andThen (hfirst (by simp [hc]) i le_rfl hi) (hg left i) hgrow fun v stop hstop => ?_
    obtain ⟨hle, hle'⟩ := hwithin i v stop hleft hi hstop
    have hsmaller : i < stop ∨ rank right < rank p :=
      hright.imp_left fun hcons => hcons.lt (hkinded hleft) hi trivial hstop
    have hlater := hrun (hp.tail (.child (by simp [hc]))) hle hle' hsmaller
    exact .andThen hlater (hg right stop) (fun _ _ => .const _) fun u last _ => hf v u last
  have hloop : ∀ {q : Parser}, p.children.head? = some q → ∀ j v stop, i ≤ j → j ≤ cx.text.size →
      Ends cx.rules root (fun k => interpret cx k q j) (.ok (.accept v stop)) →
        j ≤ stop ∧ stop ≤ cx.text.size := fun hq j v stop _ hj h =>
    hwithin j v stop (hp.tail (.child (List.mem_of_head? hq))) hj h
  have hbudget : cx.text.size - i < budgetAt cx.text i := by
    unfold budgetAt
    omega
  cases p with
  | literal | constant | identity | fail => exact .pure _
  | char | charWhere => exact .oneChar cx.text i _ _
  | map id source fn =>
    exact .andThen (hfirst rfl i le_rfl hi) (hg source i) (fun _ _ => .const _) fun v stop _ =>
      (Ends.ofExcept _).then_halts (.const _) (fun _ => .const _) fun u _ => .pure _
  | bind id source label next =>
    have hsource : Reaches cx.rules root source := hp.tail (.child (.head _))
    refine .andThen (hfirst rfl i le_rfl hi) (hg source i)
      (fun v j => .bind (.const _) fun q => hg q j) fun v stop hstop => ?_
    obtain ⟨hle, hle'⟩ := hwithin i v stop hsource hi hstop
    refine (Ends.ofExcept _).then_halts (.const _) (fun q => hg q stop) fun q hq => ?_
    refine hrun (hp.tail (.next rfl hq)) hle hle' ?_
    exact (hguard.bind hp hq).imp_left fun hc => hc.lt (hkinded hsource) hi trivial hstop
  | product id left right => exact hpair rfl (hguard.product hp) fun v u last => .pure _
  | both id left right combine =>
    exact hpair rfl (hguard.both hp) fun v u last =>
      (Ends.ofExcept _).then_halts (.const _) (fun _ => .const _) fun x _ => .pure _
  | orElse id left right =>
    exact .orElse (hfirst rfl i le_rfl hi) (hg left i) (.bind (hcall right) fun q => hg q i)
      (hthunk rfl (hcall right) fun k => .call (hroot.plain hp rfl) k)
  | many id source identity combine =>
    have hmany := Halts.greedy (hg source) (hfirst rfl) (hloop rfl) combine.apply
      (budgetAt cx.text i) identity le_rfl hi hbudget
    exact .bind hmany (fun k => greedy_extends (fun j => hg source j k) _ _ _ _)
      (fun _ => .const _) fun r _ => .pure _
  | manyBetween id source minimum maximum identity combine =>
    have hcounted := Halts.upTo (hg source) (hfirst rfl) (hloop rfl) combine.apply maximum.toNat 0
      identity le_rfl hi
    refine .bind hcounted (fun k => upTo_extends (fun j => hg source j k) _ _ _ _ _)
      (fun _ => .const _) fun r _ => ?_
    dsimp only
    split
    · exact .pure _
    · exact .pure _
  | collect id source minimum accumulator =>
    have hgrow : ∀ start : Value × Nat, Growing fun k => greedy (interpret cx k source)
        (appendCounted accumulator) (budgetAt cx.text i) start i := fun start k =>
      greedy_extends (fun j => hg source j k) _ _ _ _
    refine (Ends.ofExcept _).then_halts (.const _)
      (fun start => .bind (hgrow (start, 0)) fun _ => .const _) fun start _ => ?_
    have hmany := Halts.greedy (hg source) (hfirst rfl) (hloop rfl) (appendCounted accumulator)
      (budgetAt cx.text i) (start, 0) le_rfl hi hbudget
    refine .bind hmany (hgrow (start, 0)) (fun _ => .const _) fun r _ => ?_
    dsimp only
    split
    · exact .pure _
    · exact (Ends.ofExcept _).then_halts (.const _) (fun _ => .const _) fun v _ => .pure _
  | delayed id thunk =>
    exact hthunk rfl (hcall thunk) fun k => .call (hroot.plain hp rfl) k
  | memoized id thunk =>
    exact hthunk rfl (fun k => once_extends _ (hcall thunk k)) fun k =>
      .once (fun hr => hroot.single hr hp) hp (.call (hroot.plain hp rfl) k)
  | loop id label next seed =>
    have hround : ∀ {s : Value} {q : Parser}, next s = .ok q → Reaches cx.rules root q := fun hq =>
      hp.tail (.next rfl hq)
    refine .rounds hg (fun s q j hq hj hj' => ?_) (fun s q j s' stop hq _ hj' h => ?_) seed
      le_rfl hi
    · exact hrun (hround hq) hj hj' (.inr (hguard.loop hp hq).1)
    · have hlt := (hguard.loop hp hq).2.lt (hkinded (hround hq)) hj' ⟨s', rfl⟩ h
      exact ⟨hlt, (hwithin j (.left s') stop (hround hq) hj' h).2⟩
  | bare => cases hroot.kinded _ hp

theorem interpret_halts (cx : Context) (hroot : root.Made cx.rules)
    (hguard : Guarded cx.rules rank root) {p : Parser} {i : Nat} (hp : Reaches cx.rules root p)
    (hi : i ≤ cx.text.size) : Halts cx.rules root fun k => interpret cx k p i := by
  have hnode := nodeReply_halts hroot hguard hp hi fun {q j} hq hj hj' hless =>
    interpret_halts cx hroot hguard hq hj'
  exact .step (hroot.kinded _ hp) hnode
termination_by (cx.text.size - i, rank p)
decreasing_by
  rcases hless with hlt | hlt
  · exact .left _ _ (by omega)
  · rcases Nat.lt_or_eq_of_le hj with hlt' | rfl
    · exact .left _ _ (by omega)
    · exact .right _ hlt

end

/-- Evaluating a guarded grammar ends, in a result or in a fault. -/
theorem guarded_terminates {rules : Rules} {rank : Parser → Nat} {p : Parser}
    (hp : p.Made rules) (hguard : Guarded rules rank p) {m : Memory} (hm : m.Settled rules p)
    (input : String) (trace : Bool) :
    ∃ n, ((evaluate rules n p input trace).exec m).1 ≠ .error .exhausted := by
  let cx : Context := { rules, text := input.toList.toArray, trace }
  have hrun : Halts rules p fun k => interpret cx k p 0 :=
    interpret_halts cx hp hguard .refl (Nat.zero_le _)
  have heval : Halts rules p fun k => evaluate rules k p input trace :=
    .bind hrun (fun k => interpret_extends_succ cx k p 0) (fun _ => .const _) fun reply _ => .pure _
  obtain ⟨o, ho⟩ := heval
  obtain ⟨n, hn⟩ := ho.exec hm
  refine ⟨n, ?_⟩
  rw [hn]
  cases o <;> exact nofun

/-! ### Nested parentheses -/

theorem oneChar_stops {C : Parser → Prop} (text : Array Char) (i : Nat)
    (test : Char → Except Fault Bool) (words : String) :
    Run.Keeps C (oneChar text i test words) fun reply =>
      ∀ v stop, reply = .accept v stop → stop = i + 1 := by
  unfold oneChar
  split
  · exact .pure fun _ _ he => nomatch he
  · refine .bind (.ofExcept fun _ _ => trivial) fun b _ => ?_
    split
    · exact .pure fun _ _ he => by cases he; rfl
    · exact .pure fun _ _ he => nomatch he

theorem Parser.char_consuming (rules : Rules) (id : Nat) (c : Char) :
    (Parser.char id c).Consuming rules := by
  intro text trace n i _ v stop _ h
  have hone : Run.Keeps (fun _ => True) (interpret ⟨rules, text, trace⟩ n (.char id c) i)
      fun reply => ∀ v stop, reply = .accept v stop → stop = i + 1 := by
    cases n with
    | zero => exact .exhaust
    | succ n => exact .step (oneChar_stops text i _ _)
  have hstop := (hone {} fun _ _ _ => trivial).2 _ h v stop rfl
  omega

/-- A rank by identities; what a delayed node stands for comes before the node. -/
def parensRank (p : Parser) : Nat := if p.id = 2 then 7 else p.id

def parensNodes : List Parser :=
  let inside := .both 3 (.char 1 '(') (.delayed 2 (.rule "parens")) .add
  [parens, .both 5 inside (.char 4 ')') .add, inside, .char 1 '(', .delayed 2 (.rule "parens"),
    .char 4 ')', .constant 0 (.text "")]

theorem parens_reaches {p : Parser} (h : Reaches [("parens", parens)] parens p) :
    p ∈ parensNodes := by
  have hclosed : parens.Everywhere [("parens", parens)] (· ∈ parensNodes) := by
    refine .of_closed parensNodes (.head _) fun a ha => ⟨ha, ?_⟩
    simp only [parensNodes, List.mem_cons, List.not_mem_nil, or_false] at ha
    rcases ha with rfl | rfl | rfl | rfl | rfl | rfl | rfl <;>
      simp [parens, parensNodes, Parser.next?, Parser.steps, Parser.children, Parser.thunk?,
        Thunk.target, Except.toOption]
  exact hclosed p h

theorem parens_guarded : Guarded [("parens", parens)] parensRank parens := by
  refine ⟨fun {p q} hp hq => ?_, fun {p q t} hp ht hq => ?_, fun hp => ?_,
    fun {id left right combine} hp => ?_, fun hp => ?_, fun hp => ?_⟩
  all_goals have h := parens_reaches hp
  all_goals simp only [parensNodes, List.mem_cons, List.not_mem_nil, or_false] at h
  · rcases h with rfl | rfl | rfl | rfl | rfl | rfl | rfl <;> cases hq <;> decide
  · rcases h with rfl | rfl | rfl | rfl | rfl | rfl | rfl <;> cases ht <;> cases hq <;> decide
  · simp [parens] at h
  · rcases h with h | h | h | h | h | h | h <;> cases h
    · exact .inr (by decide)
    · exact .inl (Parser.char_consuming _ 1 '(')
  · simp [parens] at h
  · simp [parens] at h

theorem parens_terminate :
    ∃ n, ((evaluate [("parens", parens)] n parens "((())" false).exec {}).1 ≠
      .error .exhausted := by
  have hmade : parens.Made [("parens", parens)] := Parser.made_of_static rfl rfl
  exact guarded_terminates hmade parens_guarded (.empty _ _) "((())" false

end ParserAlgebra
