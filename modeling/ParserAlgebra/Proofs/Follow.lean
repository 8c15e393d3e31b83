import Mathlib
import ParserAlgebra.Evaluation.Bound

/-!
# Runs that follow runs

`Run.Follows S R w x y` says that wherever the run `x` ends, the runs `y k` end alike for some bound
`k`: with values that `R` relates, or in the same fault. `S` relates the two memories before and
after. Both relations may depend on a world, which only grows during a run; it tells what is known
about the memories and stands in none of them.
-/

namespace ParserAlgebra

inductive Agree {α β : Type} (R : α → β → Prop) : Except Halt α → Except Halt β → Prop
  | ok {a : α} {b : β} (h : R a b) : Agree R (.ok a) (.ok b)
  | fault (f : Fault) : Agree R (.error (.fault f)) (.error (.fault f))

theorem Agree.ne_exhausted {α β : Type} {R : α → β → Prop} {o : Except Halt α}
    {o' : Except Halt β} (h : Agree R o o') : o' ≠ .error .exhausted := by
  cases h <;> exact nofun

theorem Agree.eq {α : Type} {o o' : Except Halt α} (h : Agree Eq o o') : o' = o := by
  cases h with
  | ok h => rw [h]
  | fault f => rfl

theorem Agree.mono {α β : Type} {R R' : α → β → Prop} {o : Except Halt α} {o' : Except Halt β}
    (h : Agree R o o') (hR : ∀ a b, R a b → R' a b) : Agree R' o o' := by
  cases h with
  | ok h => exact .ok (hR _ _ h)
  | fault f => exact .fault f

namespace Run

variable {W : Type} [Preorder W] {α β γ δ : Type}

def Growing (y : Nat → Run α) : Prop := ∀ k, Extends (y k) (y (k + 1))

def Follows (S : W → Memory → Memory → Prop) (R : W → α → β → Prop) (w : W) (x : Run α)
    (y : Nat → Run β) : Prop :=
  ∀ w₁, w ≤ w₁ → ∀ m m', S w₁ m m' → (x.exec m).1 ≠ .error .exhausted →
    ∃ k w₂, w₁ ≤ w₂ ∧ S w₂ (x.exec m).2 ((y k).exec m').2 ∧
      Agree (R w₂) (x.exec m).1 ((y k).exec m').1

/-- The relation of equal values in every world. -/
def Same : W → α → α → Prop := fun _ a b => a = b

theorem pure_ne_exhausted (a : α) (m : Memory) :
    ((Pure.pure a : Run α).exec m).1 ≠ .error .exhausted := by
  rw [exec_pure]
  exact nofun

theorem Growing.const (x : Run α) : Growing fun _ => x := fun _ => .refl x

theorem Growing.bind {y : Nat → Run α} {g : Nat → α → Run β} (hy : Growing y)
    (hg : ∀ a, Growing fun k => g k a) : Growing fun k => y k >>= g k :=
  fun k => .bind (hy k) fun a => hg a k

namespace Follows

variable {S : W → Memory → Memory → Prop} {w : W}

theorem mono {R R' : W → α → β → Prop} {x : Run α} {y : Nat → Run β} {w' : W}
    (h : Follows S R w x y) (hw : w ≤ w') (hR : ∀ w₁ a b, w' ≤ w₁ → R w₁ a b → R' w₁ a b) :
    Follows S R' w' x y := by
  intro w₁ h₁ m m' hS hne
  obtain ⟨k, w₂, h₂, hS₂, hA⟩ := h w₁ (hw.trans h₁) m m' hS hne
  exact ⟨k, w₂, h₂, hS₂, hA.mono fun a b => hR w₂ a b (h₁.trans h₂)⟩

theorem grow {R : W → α → β → Prop} {x : Run α} {y : Nat → Run β} {w' : W}
    (h : Follows S R w x y) (hw : w ≤ w') : Follows S R w' x y :=
  h.mono hw fun _ _ _ _ h => h

theorem exhaust {R : W → α → β → Prop} (y : Nat → Run β) : Follows S R w Run.exhaust y :=
  fun _ _ _ _ _ hne => absurd rfl hne

theorem pure {R : W → α → β → Prop} {a : α} {b : β} (h : ∀ w₁, w ≤ w₁ → R w₁ a b) :
    Follows S R w (Pure.pure a) fun _ => Pure.pure b :=
  fun w₁ h₁ _ _ hS _ => ⟨0, w₁, le_rfl, hS, .ok (h w₁ h₁)⟩

theorem raise {R : W → α → β → Prop} (f : Fault) :
    Follows S R w (Run.raise f) fun _ => Run.raise f :=
  fun w₁ _ _ _ hS _ => ⟨0, w₁, le_rfl, hS, .fault f⟩

theorem ofExcept {R : W → α → α → Prop} {e : Except Fault α}
    (h : ∀ a, e = .ok a → ∀ w₁, w ≤ w₁ → R w₁ a a) :
    Follows S R w (Run.ofExcept e) fun _ => Run.ofExcept e := by
  cases e with
  | ok a => exact pure (h a rfl)
  | error f => exact raise f

theorem bind {R : W → α → β → Prop} {Q : W → γ → δ → Prop} {x : Run α} {y : Nat → Run β}
    {f : α → Run γ} {g : Nat → β → Run δ} (hx : Follows S R w x y) (hy : Growing y)
    (hg : ∀ b, Growing fun k => g k b)
    (hf : ∀ w₁ a b, w ≤ w₁ → R w₁ a b → Follows S Q w₁ (f a) fun k => g k b) :
    Follows S Q w (x >>= f) fun k => y k >>= g k := by
  intro w₁ h₁ m m' hS hne
  rw [exec_bind] at hne ⊢
  have hxne : (x.exec m).1 ≠ .error .exhausted := by
    intro e
    rcases hxm : x.exec m with ⟨_ | _, _⟩ <;> simp_all
  obtain ⟨k, w₂, h₂, hS₂, hA⟩ := hx w₁ h₁ m m' hS hxne
  rcases hxm : x.exec m with ⟨o, n⟩
  rcases hym : (y k).exec m' with ⟨o', n'⟩
  rw [hxm, hym] at hS₂ hA
  rw [hxm] at hne
  cases hA with
  | fault e => exact ⟨k, w₂, h₂, by rw [exec_bind, hym]; exact ⟨hS₂, .fault e⟩⟩
  | @ok a b hab =>
    obtain ⟨l, w₃, h₃, hS₃, hB⟩ := hf w₂ a b (h₁.trans h₂) hab w₂ le_rfl n n' hS₂ hne
    -- The larger of the two bounds suffices for both parts.
    have hyk : (y (max k l)).exec m' = (.ok b, n') := by
      rw [Extends.of_le hy (Nat.le_max_left k l) m' (by rw [hym]; exact nofun), hym]
    have hgl : (g (max k l) b).exec n' = (g l b).exec n' :=
      Extends.of_le (hg b) (Nat.le_max_right k l) n' hB.ne_exhausted
    refine ⟨max k l, w₃, h₂.trans h₃, ?_⟩
    rw [exec_bind, hyk]
    dsimp only
    rw [hgl]
    exact ⟨hS₃, hB⟩

theorem bind_same {Q : W → γ → δ → Prop} {x : Run α} {y : Nat → Run α} {f : α → Run γ}
    {g : Nat → α → Run δ} (hx : Follows S Same w x y) (hy : Growing y)
    (hg : ∀ a, Growing fun k => g k a)
    (hf : ∀ w₁ a, w ≤ w₁ → Follows S Q w₁ (f a) fun k => g k a) :
    Follows S Q w (x >>= f) fun k => y k >>= g k := by
  refine .bind hx hy hg fun w₁ a b h₁ hab => ?_
  cases hab
  exact hf w₁ a h₁

/-- Both sides compute the same value, if there is one, and go on with it. -/
theorem ofExcept_bind {Q : W → γ → δ → Prop} {e : Except Fault α} {f : α → Run γ}
    {g : Nat → α → Run δ} (hg : ∀ a, Growing fun k => g k a)
    (hf : ∀ w₁ a, w ≤ w₁ → e = .ok a → Follows S Q w₁ (f a) fun k => g k a) :
    Follows S Q w (Run.ofExcept e >>= f) fun k => Run.ofExcept e >>= g k := by
  refine .bind (R := fun _ a b => a = b ∧ e = .ok a) (.ofExcept fun a ha _ _ => ⟨rfl, ha⟩)
    (.const _) hg fun w₁ a b h₁ hab => ?_
  obtain ⟨rfl, ha⟩ := hab
  exact hf w₁ a h₁ ha

theorem of_succ {R : W → α → β → Prop} {x : Run α} {y : Nat → Run β}
    (h : Follows S R w x fun k => y (k + 1)) : Follows S R w x y := by
  intro w₁ h₁ m m' hS hne
  obtain ⟨k, hk⟩ := h w₁ h₁ m m' hS hne
  exact ⟨k + 1, hk⟩

theorem succ {R : W → α → β → Prop} {x : Run α} {y : Nat → Run β} (hy : Growing y)
    (h : Follows S R w x y) : Follows S R w x fun k => y (k + 1) := by
  intro w₁ h₁ m m' hS hne
  obtain ⟨k, w₂, h₂, hS₂, hA⟩ := h w₁ h₁ m m' hS hne
  have he : (y (k + 1)).exec m' = (y k).exec m' := hy k m' hA.ne_exhausted
  exact ⟨k, w₂, h₂, by rw [he]; exact ⟨hS₂, hA⟩⟩

/-! ### Sequences, choices and loops -/

theorem andThen {R : W → Reply → Reply → Prop} {x : Run Reply} {y : Nat → Run Reply}
    {f : Value → Nat → Run Reply} {g : Nat → Value → Nat → Run Reply}
    (hx : Follows S Same w x y) (hy : Growing y) (hg : ∀ v i, Growing fun k => g k v i)
    (hr : ∀ w₁ why start, w ≤ w₁ → R w₁ (.reject why start) (.reject why start))
    (hf : ∀ w₁ v i, w ≤ w₁ → Follows S R w₁ (f v i) fun k => g k v i) :
    Follows S R w (x.andThen f) fun k => (y k).andThen (g k) := by
  refine .bind_same hx hy (fun reply => ?_) fun w₁ reply h₁ => ?_
  · cases reply with
    | accept v i => exact hg v i
    | reject => exact .const _
  · cases reply with
    | accept v i => exact hf w₁ v i h₁
    | reject why start => exact .pure fun w₂ h₂ => hr w₂ why start (h₁.trans h₂)

theorem orElse {x x' : Run Reply} {y y' : Nat → Run Reply} (hx : Follows S Same w x y)
    (hy : Growing y) (hy' : Growing y') (hx' : Follows S Same w x' y') :
    Follows S Same w (x.orElse x') fun k => (y k).orElse (y' k) := by
  refine .bind_same hx hy (fun reply => ?_) fun w₁ reply h₁ => ?_
  · cases reply with
    | accept => exact .const _
    | reject => exact hy'
  · cases reply with
    | accept v i => exact .pure fun _ _ => rfl
    | reject => exact hx'.grow h₁

theorem greedy {σ : Type} {run : Nat → Run Reply} {run' : Nat → Nat → Run Reply}
    (h : ∀ i, Follows S Same w (run i) fun k => run' k i)
    (hg : ∀ i, Growing fun k => run' k i) (append : σ → Value → Except Fault σ) (budget : Nat)
    (s : σ) (i : Nat) :
    Follows S Same w (ParserAlgebra.greedy run append budget s i)
      fun k => ParserAlgebra.greedy (run' k) append budget s i := by
  induction budget generalizing s i w with
  | zero => exact .exhaust _
  | succ budget ih =>
    have hrest : ∀ s' stop, Growing fun k =>
        ParserAlgebra.greedy (run' k) append budget s' stop := fun s' stop k =>
      greedy_extends (fun j => hg j k) append budget s' stop
    refine .bind_same (h i) (hg i) (fun reply => ?_) fun w₁ reply h₁ => ?_
    · cases reply with
      | reject => exact .const _
      | accept v stop =>
        dsimp only
        split
        · exact .const _
        · exact .bind (.const _) fun s' => hrest s' stop
    · cases reply with
      | reject => exact .pure fun _ _ => rfl
      | accept v stop =>
        dsimp only
        split
        · exact .pure fun _ _ => rfl
        · refine .ofExcept_bind (fun s' => hrest s' stop) fun w₂ s' h₂ _ => ?_
          exact ih (fun j => (h j).grow (h₁.trans h₂)) s' stop

theorem upTo {run : Nat → Run Reply} {run' : Nat → Nat → Run Reply}
    (h : ∀ i, Follows S Same w (run i) fun k => run' k i)
    (hg : ∀ i, Growing fun k => run' k i) (join : Value → Value → Except Fault Value)
    (more count : Nat) (u : Value) (i : Nat) :
    Follows S Same w (ParserAlgebra.upTo run join more count u i)
      fun k => ParserAlgebra.upTo (run' k) join more count u i := by
  induction more generalizing count u i w with
  | zero => exact .pure fun _ _ => rfl
  | succ more ih =>
    have hrest : ∀ u' stop, Growing fun k =>
        ParserAlgebra.upTo (run' k) join more (count + 1) u' stop := fun u' stop k =>
      upTo_extends (fun j => hg j k) join more (count + 1) u' stop
    refine .bind_same (h i) (hg i) (fun reply => ?_) fun w₁ reply h₁ => ?_
    · cases reply with
      | reject => exact .const _
      | accept v stop => exact .bind (.const _) fun u' => hrest u' stop
    · cases reply with
      | reject => exact .pure fun _ _ => rfl
      | accept v stop =>
        refine .ofExcept_bind (fun u' => hrest u' stop) fun w₂ u' h₂ _ => ?_
        exact ih (fun j => (h j).grow (h₁.trans h₂)) (count + 1) u' stop

theorem rounds {run : Runner} {run' : Nat → Runner} {next : Value → Except Fault Parser}
    (h : ∀ s p i, next s = .ok p → Follows S Same w (run p i) fun k => run' k p i)
    (hg : ∀ p i, Growing fun k => run' k p i) (n : Nat) (s : Value) (i : Nat) :
    Follows S Same w (ParserAlgebra.rounds run next n s i)
      fun k => ParserAlgebra.rounds (run' k) next k s i := by
  -- The bound of the right side stands for the number of rounds too, so `run'` is shifted by one in
  -- each round.
  induction n generalizing s i w run' with
  | zero => exact .exhaust _
  | succ n ih =>
    have hg' : ∀ p i, Growing fun k => run' (k + 1) p i := fun p i k => hg p i (k + 1)
    have hrest : ∀ s' stop, Growing fun k =>
        ParserAlgebra.rounds (run' (k + 1)) next k s' stop := fun s' stop k =>
      rounds_extends (fun q j => hg' q j k) next k s' stop
    refine .of_succ (.ofExcept_bind (fun p => ?_) fun w₁ p h₁ hp => ?_)
    · refine .bind (hg' p i) fun reply => ?_
      cases reply with
      | reject => exact .const _
      | accept v stop => cases v <;> first | exact .const _ | exact hrest _ stop
    · refine .bind_same (.succ (hg p i) ((h s p i hp).grow h₁)) (hg' p i) (fun reply => ?_)
        fun w₂ reply h₂ => ?_
      · cases reply with
        | reject => exact .const _
        | accept v stop => cases v <;> first | exact .const _ | exact hrest _ stop
      · cases reply with
        | reject => exact .pure fun _ _ => rfl
        | accept v stop =>
          cases v with
          | left s' =>
            exact ih (fun s p i hp => .succ (hg p i) ((h s p i hp).grow (h₁.trans h₂))) hg' s' stop
          | right u => exact .pure fun _ _ => rfl
          | _ => exact .raise _

theorem write (hS : ∀ w m m' e e', S w m m' → S w (m.write e) (m'.write e')) (e e' : LogEntry) :
    Follows S (fun _ _ _ => True) w (Run.write e) fun _ => Run.write e' :=
  fun w₁ _ m m' h _ => ⟨0, w₁, le_rfl, hS w₁ m m' e e' h, .ok trivial⟩

theorem step {cx : Context} {n i : Nat} {run : Runner} {run' : Nat → Runner} {p q : Parser}
    (hS : ∀ w m m' e e', S w m m' → S w (m.write e) (m'.write e')) (hp : p.unknownTag? = none)
    (hq : q.unknownTag? = none) (hg : Growing fun k => nodeReply cx k (run' k) q i)
    (h : Follows S Same w (nodeReply cx n run p i) fun k => nodeReply cx k (run' k) q i) :
    Follows S Same w (ParserAlgebra.step cx n run p i)
      fun k => ParserAlgebra.step cx k (run' k) q i := by
  unfold ParserAlgebra.step
  rw [hp, hq]
  dsimp only
  split
  · refine .bind (write hS _ _) (.const _) (fun _ => hg.bind fun _ => .const _) fun w₁ _ _ h₁ _ =>
      .bind_same (h.grow h₁) hg (fun _ => .const _) fun w₂ reply h₂ => ?_
    cases reply with
    | accept v stop => exact .pure fun _ _ => rfl
    | reject why start =>
      exact .bind (write hS _ _) (.const _) (fun _ => .const _) fun w₃ _ _ h₃ _ =>
        .pure fun _ _ => rfl
  · exact .bind_same h hg (fun _ => .const _) fun w₁ reply _ => .pure fun _ _ => rfl

theorem of_extends {R : W → α → β → Prop} {x x' : Run α} {y : Nat → Run β} (hx : Extends x x')
    (h : Follows S R w x' y) : Follows S R w x y := by
  intro w₁ h₁ m m' hS hne
  have he : x'.exec m = x.exec m := hx m hne
  obtain ⟨k, w₂, h₂⟩ := h w₁ h₁ m m' hS (by rw [he]; exact hne)
  rw [he] at h₂
  exact ⟨k, w₂, h₂⟩

end Follows

/-! ### One side alone -/

/-- The run `x` does not end in a fault, and the memory on the right stays as it is. -/
def Passes (S : W → Memory → Memory → Prop) (P : W → α → Prop) (w : W) (x : Run α) : Prop :=
  Follows S (fun w a (_ : Unit) => P w a) w x fun _ => pure ()

namespace Passes

variable {S : W → Memory → Memory → Prop} {w : W}

theorem pure {P : W → α → Prop} {a : α} (h : ∀ w₁, w ≤ w₁ → P w₁ a) :
    Passes S P w (Pure.pure a) :=
  Follows.pure h

theorem grow {P : W → α → Prop} {x : Run α} {w' : W} (h : Passes S P w x) (hw : w ≤ w') :
    Passes S P w' x :=
  Follows.grow h hw

/-- The left side begins with a run that the right side has no part in. -/
theorem then_follows {P : W → α → Prop} {R : W → γ → β → Prop} {x : Run α} {f : α → Run γ}
    {y : Nat → Run β} (hx : Passes S P w x) (hy : Growing y)
    (hf : ∀ w₁ a, w ≤ w₁ → P w₁ a → Follows S R w₁ (f a) y) : Follows S R w (x >>= f) y := by
  have h := Follows.bind (g := fun k _ => y k) hx (.const _) (fun _ => hy)
    fun w₁ a _ h₁ ha => hf w₁ a h₁ ha
  simpa only [pure_bind] using h

theorem bind {P : W → α → Prop} {Q : W → γ → Prop} {x : Run α} {f : α → Run γ}
    (hx : Passes S P w x) (hf : ∀ w₁ a, w ≤ w₁ → P w₁ a → Passes S Q w₁ (f a)) :
    Passes S Q w (x >>= f) :=
  hx.then_follows (.const _) hf

theorem follows {r : α} {x : Run α} (hx : Passes S (fun _ a => a = r) w x) :
    Follows S Same w x fun _ => Pure.pure r := by
  have h : Follows S Same w (x >>= Pure.pure) fun _ => Pure.pure r :=
    hx.then_follows (.const _) fun w₁ a _ ha => .pure fun _ _ => ha
  rwa [bind_pure] at h

theorem write (hS : ∀ w m m' e, S w m m' → S w (m.write e) m') (e : LogEntry) :
    Passes S (fun _ _ => True) w (Run.write e) :=
  fun w₁ _ m m' h _ => ⟨0, w₁, le_rfl, hS w₁ m m' e h, .ok trivial⟩

theorem step {cx : Context} {n i : Nat} {run : Runner} {p : Parser} {P : W → Reply → Prop}
    (hS : ∀ w m m' e, S w m m' → S w (m.write e) m') (hp : p.unknownTag? = none)
    (hP : ∀ w w' r, w ≤ w' → P w r → P w' r) (h : Passes S P w (nodeReply cx n run p i)) :
    Passes S P w (ParserAlgebra.step cx n run p i) := by
  unfold ParserAlgebra.step
  rw [hp]
  dsimp only
  split
  · refine (write hS _).bind fun w₁ _ h₁ _ =>
      (h.grow h₁).bind fun w₂ reply h₂ hr => ?_
    cases reply with
    | accept v stop => exact .pure fun w₃ h₃ => hP w₂ w₃ _ h₃ hr
    | reject why start =>
      exact (write hS _).bind fun w₃ _ h₃ _ => .pure fun w₄ h₄ => hP w₂ w₄ _ (h₃.trans h₄) hr
  · exact h.bind fun w₁ reply _ hr => .pure fun w₂ h₂ => hP w₁ w₂ _ h₂ hr

end Passes

/-- The runs `y k` end without a fault for some bound, and the memory on the left stays as it is. -/
def Arrives (S : W → Memory → Memory → Prop) (Q : W → β → Prop) (w : W) (y : Nat → Run β) : Prop :=
  Follows S (fun w (_ : Unit) b => Q w b) w (pure ()) y

namespace Arrives

variable {S : W → Memory → Memory → Prop} {w : W}

theorem pure {Q : W → β → Prop} {b : β} (h : ∀ w₁, w ≤ w₁ → Q w₁ b) :
    Arrives S Q w fun _ => Pure.pure b :=
  Follows.pure h

/-- The right side begins with a run that the left side has no part in. -/
theorem then_follows {P : W → β → Prop} {R : W → α → δ → Prop} {x : Run α} {y : Nat → Run β}
    {g : Nat → β → Run δ} (hy : Arrives S P w y) (hyg : Growing y)
    (hg : ∀ b, Growing fun k => g k b)
    (hf : ∀ w₁ b, w ≤ w₁ → P w₁ b → Follows S R w₁ x fun k => g k b) :
    Follows S R w x fun k => y k >>= g k := by
  have h := Follows.bind (f := fun _ => x) hy hyg hg fun w₁ _ b h₁ hb => hf w₁ b h₁ hb
  simpa only [pure_bind] using h

theorem exec {Q : W → β → Prop} {y : Nat → Run β} (h : Arrives S Q w y) {m m' : Memory}
    (hS : S w m m') : ∃ k w₁ b n, w ≤ w₁ ∧ (y k).exec m' = (.ok b, n) ∧ S w₁ m n ∧ Q w₁ b := by
  obtain ⟨k, w₁, h₁, hS₁, hA⟩ := h w le_rfl m m' hS (pure_ne_exhausted () m)
  rcases hy : (y k).exec m' with ⟨o, n⟩
  rw [hy] at hS₁ hA
  cases hA with
  | @ok _ b hQ => exact ⟨k, w₁, b, n, h₁, hy, hS₁, hQ⟩

/-- The left side has its value and waits for the right one. -/
theorem follows {Q : W → β → Prop} {R : W → α → β → Prop} {a : α} {y : Nat → Run β}
    (h : Arrives S Q w y) (hR : ∀ w₁ b, w ≤ w₁ → Q w₁ b → R w₁ a b) :
    Follows S R w (Pure.pure a) y := by
  intro w₁ h₁ m m' hS _
  obtain ⟨k, w₂, h₂, hS₂, hA⟩ := h w₁ h₁ m m' hS (pure_ne_exhausted () m)
  refine ⟨k, w₂, h₂, hS₂, ?_⟩
  generalize ((y k).exec m').1 = o at hA
  cases hA with
  | ok hQ => exact .ok (hR w₂ _ (h₁.trans h₂) hQ)

theorem bind {P : W → β → Prop} {Q : W → δ → Prop} {y : Nat → Run β} {g : Nat → β → Run δ}
    (hy : Arrives S P w y) (hyg : Growing y) (hg : ∀ b, Growing fun k => g k b)
    (hf : ∀ w₁ b, w ≤ w₁ → P w₁ b → Arrives S Q w₁ fun k => g k b) :
    Arrives S Q w fun k => y k >>= g k :=
  hy.then_follows hyg hg hf

end Arrives

end Run

end ParserAlgebra
