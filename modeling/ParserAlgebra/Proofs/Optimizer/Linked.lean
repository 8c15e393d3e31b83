import ParserAlgebra.Proofs.Follow
import ParserAlgebra.Proofs.Optimizer.Form

/-!
# The memories of a run and of the optimized run

Both memories are settled: a memoized node keeps what its thunk stands for, and no cell is in use
that is still to be given out. On the right side each cell that is filled holds an optimized form of
what its thunk stands for. Calling a thunk and forcing a memoized node keep this up.
-/

namespace ParserAlgebra

structure Memory.Settled (rules : Rules) (root : Parser) (m : Memory) : Prop where
  node : ∀ {id : Nat} {t : Thunk} {q : Parser}, Reaches rules root (.memoized id t) →
    m.parserIn? (.node id) = some q → t.target rules = .ok q
  right : ∀ c, m.nextId ≤ c → m.parserIn? (.right c) = none

theorem Memory.Settled.empty (rules : Rules) (root : Parser) : ({} : Memory).Settled rules root :=
  ⟨fun _ h => (nomatch h), fun _ _ => rfl⟩

structure Linked {rules : Rules} {root : Parser} (w : World rules root) (m m' : Memory) : Prop where
  left : m.Settled rules root
  right : m'.Settled rules root
  unused : ∀ c, m'.nextId ≤ c → w.source c = none
  form : ∀ {c : Nat} {t : Thunk} {q : Parser}, w.source c = some t →
    m'.parserIn? (.right c) = some q → ∃ p, t.target rules = .ok p ∧ Form rules w t.Gives p q

theorem Memory.Settled.fill_node {rules : Rules} {root p : Parser} {m : Memory} {id : Nat}
    {t : Thunk} (hm : m.Settled rules root)
    (hid : ∀ {t'}, Reaches rules root (.memoized id t') → t' = t) (hp : t.target rules = .ok p) :
    (m.fill (.node id) p).Settled rules root := by
  refine ⟨fun {id' t' q} hr hq => ?_, fun c hc => ?_⟩
  · by_cases he : id' = id
    · subst he
      rw [Memory.parserIn?_fill] at hq
      cases hq
      rw [hid hr, hp]
    · rw [Memory.parserIn?_fill_of_ne m p (by simpa using he)] at hq
      exact hm.node hr hq
  · rw [Memory.parserIn?_fill_of_ne m p Cell.noConfusion]
    exact hm.right c hc

theorem Memory.Settled.fill_right {rules : Rules} {root q : Parser} {m : Memory} {cell : Nat}
    (hm : m.Settled rules root) (hcell : cell < m.nextId) :
    (m.fill (.right cell) q).Settled rules root := by
  refine ⟨fun {id t p} hr hp => ?_, fun c hc => ?_⟩
  · rw [Memory.parserIn?_fill_of_ne m q Cell.noConfusion] at hp
    exact hm.node hr hp
  · have hne : c ≠ cell := Nat.ne_of_gt (hcell.trans_le hc)
    rw [Memory.parserIn?_fill_of_ne m q (by simpa using hne)]
    exact hm.right c hc

/-- The same identities are free and the same right sides are kept. -/
structure Memory.Near (m m' : Memory) : Prop where
  nextId : m'.nextId = m.nextId
  right : ∀ c, m'.parserIn? (.right c) = m.parserIn? (.right c)

namespace Linked

variable {rules : Rules} {root : Parser} {w : World rules root} {m m' n n' : Memory}

theorem start (hm : m.Settled rules root) : Linked (World.empty : World rules root) m m :=
  ⟨hm, hm, fun _ _ => rfl, fun h => nomatch h⟩

theorem near (h : Linked w m m') (hn : n.Settled rules root) (hn' : n'.Settled rules root)
    (hnear : m'.Near n') : Linked w n n' := by
  refine ⟨hn, hn', fun c hc => ?_, fun {c t q} hs hq => ?_⟩
  · rw [hnear.nextId] at hc
    exact h.unused c hc
  · rw [hnear.right] at hq
    exact h.form hs hq

theorem left_settled (h : Linked w m m') (hn : n.Settled rules root) : Linked w n m' :=
  ⟨hn, h.right, h.unused, h.form⟩

theorem fill (h : Linked w m m') {cell : Nat} {t : Thunk} {p q : Parser}
    (hw : w.source cell = some t) (hp : t.target rules = .ok p)
    (hform : Form rules w t.Gives p q) :
    Linked w m (m'.fill (.right cell) q) := by
  have hcell : cell < m'.nextId := by
    by_contra hle
    rw [h.unused cell (Nat.le_of_not_lt hle)] at hw
    cases hw
  refine ⟨h.left, h.right.fill_right hcell, h.unused, fun {c t' q'} hs hq => ?_⟩
  by_cases he : c = cell
  · subst he
    rw [hw] at hs
    cases hs
    rw [Memory.parserIn?_fill] at hq
    cases hq
    exact ⟨p, hp, hform⟩
  · rw [Memory.parserIn?_fill_of_ne m' q (by simpa using he)] at hq
    exact h.form hs hq

theorem write (w : World rules root) (m m' : Memory) (e e' : LogEntry) (h : Linked w m m') :
    Linked w (m.write e) (m'.write e') :=
  h.near ⟨h.left.node, h.left.right⟩ ⟨h.right.node, h.right.right⟩ ⟨rfl, fun _ => rfl⟩

end Linked

/-! ### Thunks -/

/-- A run that finds a value, or ends in its fault, and leaves the memory settled and near. -/
def Run.Finds {α : Type} (rules : Rules) (root : Parser) (e : Except Fault α) (x : Run α) : Prop :=
  ∀ m, m.Settled rules root → ∃ m', x.exec m = ((Run.ofExcept e).exec m |>.1, m') ∧
    m'.Settled rules root ∧ m.Near m'

namespace Run.Finds

variable {rules : Rules} {root : Parser} {α β : Type}

theorem pure (a : α) : Finds rules root (.ok a) (Pure.pure a) :=
  fun m hm => ⟨m, rfl, hm, rfl, fun _ => rfl⟩

theorem call {t : Thunk} (ht : t.Plain) (n : Nat) :
    Finds rules root (t.target rules) (t.call rules (n + 1)) := by
  intro m hm
  cases t with
  | const p => exact ⟨m, rfl, hm, rfl, fun _ => rfl⟩
  | rule name =>
    refine ⟨m.countCall name, ?_, ⟨hm.node, hm.right⟩, rfl, fun _ => rfl⟩
    simp only [Thunk.call, exec_bind, exec_countCall, Thunk.target]
    cases rules.lookup name <;> rfl
  | optimized => exact ht.elim

theorem once {id : Nat} {t : Thunk} {x : Run Parser}
    (hid : ∀ {t'}, Reaches rules root (.memoized id t') → t' = t)
    (hr : Reaches rules root (.memoized id t)) (hx : Finds rules root (t.target rules) x) :
    Finds rules root (t.target rules) (Run.once (.node id) x) := by
  intro m hm
  cases hc : m.parserIn? (.node id) with
  | some p =>
    rw [exec_once_of_some x hc, hm.node hr hc]
    exact ⟨m, rfl, hm, rfl, fun _ => rfl⟩
  | none =>
    obtain ⟨m', hx, hm', hnear⟩ := hx m hm
    cases ht : t.target rules with
    | error f =>
      rw [ht] at hx
      refine ⟨m', ?_, hm', hnear⟩
      simp only [Run.once, exec_bind, exec_parserIn?, hc, hx]
      rfl
    | ok p =>
      rw [ht] at hx
      have hright : ∀ c, (m'.fill (.node id) p).parserIn? (.right c) = m'.parserIn? (.right c) :=
        fun c => Memory.parserIn?_fill_of_ne m' p Cell.noConfusion
      refine ⟨m'.fill (.node id) p, exec_once_of_none hc hx, hm'.fill_node hid ht, hnear.nextId,
        fun c => ?_⟩
      rw [hright]
      exact hnear.right c

theorem follows_of_agree {w : World rules root} {R : World rules root → α → β → Prop}
    {e : Except Fault α} {e' : Except Fault β} {x : Run α} {y : Nat → Run β}
    (hx : Finds rules root e x) (hy : ∀ k, Finds rules root e' (y k)) (hA : ∀ w₁, w ≤ w₁ → ∀ m m',
      Agree (R w₁) ((Run.ofExcept e).exec m).1 ((Run.ofExcept e').exec m').1) :
    Follows Linked R w x y := by
  intro w₁ h₁ m m' hS hne
  obtain ⟨n, hxm, hn, -⟩ := hx m hS.left
  obtain ⟨n', hym, hn', hnear⟩ := hy 0 m' hS.right
  have hA' := hA w₁ h₁ m m'
  refine ⟨0, w₁, le_rfl, ?_⟩
  simp only [hxm, hym]
  exact ⟨hS.near hn hn' hnear, hA'⟩

theorem follows {w : World rules root} {R : World rules root → α → β → Prop} {a : α} {b : β}
    {x : Run α} {y : Nat → Run β} (hx : Finds rules root (.ok a) x)
    (hy : ∀ k, Finds rules root (.ok b) (y k)) (h : ∀ w₁, w ≤ w₁ → R w₁ a b) :
    Follows Linked R w x y :=
  follows_of_agree hx hy fun w₁ h₁ _ _ => .ok (h w₁ h₁)

theorem follows_same {w : World rules root} {R : World rules root → α → α → Prop}
    {e : Except Fault α} {x : Run α} {y : Nat → Run α} (hx : Finds rules root e x)
    (hy : ∀ k, Finds rules root e (y k)) (h : ∀ a, e = .ok a → ∀ w₁, w ≤ w₁ → R w₁ a a) :
    Follows Linked R w x y := by
  refine follows_of_agree hx hy fun w₁ h₁ m m' => ?_
  cases e with
  | ok a => exact .ok (h a rfl w₁ h₁)
  | error f => exact .fault f

/-- A fault that is found on the left side is one that the right side ends in. -/
theorem then_raises {w : World rules root} {R : World rules root → α → β → Prop} {f : Fault}
    {x : Run α} {y : Nat → Run β} (hx : Finds rules root (.error f) x)
    (hy : Follows Linked R w (Run.raise f) y) : Follows Linked R w x y := by
  intro w₁ h₁ m m' hS hne
  obtain ⟨n, hxm, hn, -⟩ := hx m hS.left
  obtain ⟨k, w₂, h₂, hS₂, hA⟩ := hy w₁ h₁ n m' (hS.left_settled hn) nofun
  rw [hxm]
  exact ⟨k, w₂, h₂, hS₂, hA⟩

end Run.Finds

end ParserAlgebra
