import ParserAlgebra.Proofs.Optimizer.Rewrite

/-!
# Chains written out

A chain of alternatives that leads nowhere but to single characters, and never back to itself, can
be written out as a tree. Collecting finds the characters of a chain exactly if it can be written
out without meeting a choice twice: a choice that is shared ends the collecting as a cycle does.
-/

namespace ParserAlgebra

namespace Chain

/-- The chain can be written out, with these choices in the order in which collecting enters them, a
shared one as often as it is met, and with these characters, each with the identity of its node. -/
inductive Unfolds (rules : Rules) : Parser → List Nat → List (Nat × Char) → Prop
  | char (id : Nat) (c : Char) : Unfolds rules (.char id c) [] [(id, c)]
  | orElse {id : Nat} {left q : Parser} {right : Thunk} {ids ids' : List Nat}
      {front back : List (Nat × Char)} (hl : Unfolds rules left ids front)
      (hq : right.target rules = .ok q) (hr : Unfolds rules q ids' back) :
      Unfolds rules (.orElse id left right) (id :: (ids ++ ids')) (front ++ back)

/-- A choice of a chain leads to its left side and to what its right thunk stands for. -/
inductive Step (rules : Rules) : Parser → Parser → Prop
  | left {id : Nat} {left : Parser} {right : Thunk} : Step rules (.orElse id left right) left
  | right {id : Nat} {left q : Parser} {right : Thunk} (h : right.target rules = .ok q) :
      Step rules (.orElse id left right) q

/-- The chain never leads back to where it was, and has only single characters for leaves. -/
structure Proper (rules : Rules) (p : Parser) : Prop where
  acyclic : ∀ q, Relation.ReflTransGen (Step rules) p q → ¬ Relation.TransGen (Step rules) q q
  nodes : ∀ q, Relation.ReflTransGen (Step rules) p q → (∃ id c, q = .char id c) ∨
    ∃ id left right r, q = .orElse id left right ∧ right.target rules = .ok r

variable {rules : Rules} {p q : Parser} {ids ids' : List Nat} {cs cs' : List (Nat × Char)}

theorem Step.spreads (h : Step rules p q) : Spreads rules p q := by
  cases h with
  | left => exact .child (.head _)
  | right h => exact .right h

namespace Unfolds

theorem chars (h : Unfolds rules p ids cs) : Chars rules p cs := by
  induction h with
  | char id c => exact .char id c
  | orElse _ hq _ ihl ihr => exact .orElse ihl hq ihr

theorem unique (h : Unfolds rules p ids cs) (h' : Unfolds rules p ids' cs') :
    ids = ids' ∧ cs = cs' := by
  induction h generalizing ids' cs' with
  | char =>
    cases h'
    exact ⟨rfl, rfl⟩
  | orElse _ hq _ ihl ihr =>
    cases h' with
    | orElse hl' hq' hr' =>
      obtain rfl := Except.ok.inj (hq.symm.trans hq')
      obtain ⟨rfl, rfl⟩ := ihl hl'
      obtain ⟨rfl, rfl⟩ := ihr hr'
      exact ⟨rfl, rfl⟩

/-- What a chain leads to can be written out too, with fewer characters. -/
theorem step (h : Unfolds rules p ids cs) (hs : Step rules p q) :
    ∃ ids' cs', Unfolds rules q ids' cs' ∧ cs'.length < cs.length := by
  cases h with
  | char => cases hs
  | @orElse _ _ _ _ _ _ front back hl hq hr =>
    have hfront := List.length_pos_of_ne_nil hl.chars.ne_nil
    have hback := List.length_pos_of_ne_nil hr.chars.ne_nil
    rw [List.length_append]
    cases hs with
    | left => exact ⟨_, _, hl, by omega⟩
    | right hq' =>
      obtain rfl := Except.ok.inj (hq.symm.trans hq')
      exact ⟨_, _, hr, by omega⟩

theorem steps (h : Unfolds rules p ids cs) (hs : Relation.TransGen (Step rules) p q) :
    ∃ ids' cs', Unfolds rules q ids' cs' ∧ cs'.length < cs.length := by
  induction hs with
  | single hs => exact h.step hs
  | tail _ hs ih =>
    obtain ⟨ids₁, cs₁, h₁, hlt⟩ := ih
    obtain ⟨ids₂, cs₂, h₂, hlt'⟩ := h₁.step hs
    exact ⟨ids₂, cs₂, h₂, hlt'.trans hlt⟩

/-- A chain that can be written out leads nowhere else. -/
theorem proper (h : Unfolds rules p ids cs) : Proper rules p := by
  have hreached : ∀ q, Relation.ReflTransGen (Step rules) p q →
      ∃ ids cs, Unfolds rules q ids cs := fun q hq => by
    rcases Relation.reflTransGen_iff_eq_or_transGen.1 hq with rfl | hq
    · exact ⟨ids, cs, h⟩
    · obtain ⟨ids', cs', h', -⟩ := h.steps hq
      exact ⟨ids', cs', h'⟩
  refine ⟨fun q hq hcycle => ?_, fun q hq => ?_⟩
  · obtain ⟨ids₁, cs₁, h₁⟩ := hreached q hq
    obtain ⟨ids₂, cs₂, h₂, hlt⟩ := h₁.steps hcycle
    rw [(h₂.unique h₁).2] at hlt
    exact Nat.lt_irrefl _ hlt
  · obtain ⟨ids₁, cs₁, h₁⟩ := hreached q hq
    cases h₁ with
    | char id c => exact .inl ⟨id, c, rfl⟩
    | orElse _ hright _ => exact .inr ⟨_, _, _, _, rfl, hright⟩

end Unfolds

namespace Proper

theorem of_step (h : Proper rules p) (hs : Step rules p q) : Proper rules q :=
  ⟨fun r hr => h.acyclic r (.head hs hr), fun r hr => h.nodes r (.head hs hr)⟩

/-- A proper chain can be written out. -/
theorem unfolds (h : Proper rules p) : ∃ ids cs, Unfolds rules p ids cs := by
  have hacc : Acc (fun b a => Step rules a b) p := Spans.acc (fun _ _ => Step.spreads) h.acyclic
  induction hacc with
  | intro p _ ih =>
    rcases h.nodes p .refl with ⟨id, c, rfl⟩ | ⟨id, left, right, q, rfl, hq⟩
    · exact ⟨_, _, .char id c⟩
    · obtain ⟨ids, front, hl⟩ := ih left .left (h.of_step .left)
      obtain ⟨ids', back, hr⟩ := ih q (.right hq) (h.of_step (.right hq))
      exact ⟨_, _, .orElse hl hq hr⟩

/-- No right side of a proper chain lacks its rule. -/
theorem collectable (h : Proper rules p) : p.Collectable rules := by
  intro id left right cs hs _
  have hsteps : Relation.ReflTransGen (Step rules) p (.orElse id left right) := by
    refine hs.closed (P := Relation.ReflTransGen (Step rules) p) .refl fun a b ha hab => ?_
    refine ha.tail ?_
    rcases h.nodes a ha with ⟨id, c, rfl⟩ | ⟨id, left, right, q, rfl, hq⟩
    · cases hab with
      | child h => cases h
    · cases hab with
      | child h =>
        obtain rfl := List.mem_singleton.1 h
        exact .left
      | right h => exact .right h
  rcases h.nodes _ hsteps with ⟨_, _, he⟩ | ⟨_, _, _, q, he, hq⟩
  · cases he
  · cases he
    exact ⟨q, hq⟩

end Proper

end Chain

/-! ### Runs that leave the cells alone -/

/-- The run fills no cell and frees no identity, and its value, if it has one, has the property of
the identities that are free at the end; `low` is a bound below those that are free before. -/
def Run.Spares {α : Type} (low : Nat) (x : Run α) (Q : Nat → α → Prop) : Prop :=
  ∀ m, low ≤ m.nextId → m.nextId ≤ (x.exec m).2.nextId ∧ (x.exec m).2.filled = m.filled ∧
    ∀ a, (x.exec m).1 = .ok a → Q (x.exec m).2.nextId a

namespace Run.Spares

variable {α β : Type} {low : Nat}

theorem pure {Q : Nat → α → Prop} {a : α} (h : ∀ next, low ≤ next → Q next a) :
    Spares low (Pure.pure a) Q :=
  fun m hm => ⟨le_rfl, rfl, fun _ hb => Except.ok.inj hb ▸ h m.nextId hm⟩

theorem raise {Q : Nat → α → Prop} (f : Fault) : Spares low (Run.raise f) Q :=
  fun _ _ => ⟨le_rfl, rfl, nofun⟩

theorem exhaust {Q : Nat → α → Prop} : Spares low Run.exhaust Q :=
  fun _ _ => ⟨le_rfl, rfl, nofun⟩

theorem bind {P : Nat → α → Prop} {Q : Nat → β → Prop} {x : Run α} {f : α → Run β}
    (hx : Spares low x P) (hf : ∀ next a, low ≤ next → P next a → Spares next (f a) Q) :
    Spares low (x >>= f) Q := by
  intro m hm
  obtain ⟨hnext, hfilled, hP⟩ := hx m hm
  rw [exec_bind]
  rcases hxm : x.exec m with ⟨_ | a, m'⟩ <;> rw [hxm] at hnext hfilled hP
  · exact ⟨hnext, hfilled, nofun⟩
  · obtain ⟨hnext', hfilled', hQ⟩ := hf m'.nextId a (hm.trans hnext) (hP a rfl) m' le_rfl
    exact ⟨hnext.trans hnext', hfilled'.trans hfilled, hQ⟩

theorem build {Q : Nat → α → Prop} {b : Build α} (hnext : ∀ next, next ≤ (b next).2)
    (h : ∀ next, low ≤ next → Q (b next).2 (b next).1) : Spares low (Run.build b) Q :=
  fun m hm => ⟨hnext _, rfl, fun _ ha => Except.ok.inj ha ▸ h m.nextId hm⟩

theorem call {rules : Rules} {t : Thunk} (ht : t.Plain) (n : Nat) :
    Spares low (t.call rules n) fun _ q => t.target rules = .ok q := by
  cases n with
  | zero => exact .exhaust
  | succ n =>
    cases t with
    | const p => exact .pure fun _ _ => rfl
    | rule name =>
      have hcount : Spares low (Run.countCall name) fun _ _ => True :=
        fun _ _ => ⟨le_rfl, rfl, fun _ _ => trivial⟩
      refine .bind hcount fun _ _ _ _ => ?_
      cases h : rules.lookup name with
      | some p => exact .pure fun _ _ => by simp only [Thunk.target, h]
      | none => exact .raise _
    | optimized => exact ht.elim

end Run.Spares

open Run (Spares)

/-! ### Collecting -/

/-- What collecting found, given the choices met before: the characters of the chain, or nothing if
a choice would have been met twice or the chain cannot be written out. -/
def Chain.Exact (rules : Rules) (p : Parser) (seen : List Nat) :
    Option (List Parser) × List Nat → Prop
  | (some chars, seen') => ∃ ids cs, Unfolds rules p ids cs ∧ chars = nodes cs ∧
      seen' = ids.reverse ++ seen ∧ seen'.Nodup
  | (none, _) => ∀ ids cs, Unfolds rules p ids cs → ¬ (ids.reverse ++ seen).Nodup

theorem leaves_exact {rules : Rules} {root : Parser} {low : Nat} (hroot : root.Made rules)
    {call : Thunk → Run Parser}
    (hcall : ∀ low t, t.Plain → Spares low (call t) fun _ q => t.target rules = .ok q) (n : Nat)
    {p : Parser} {seen : List Nat} (hp : Reaches rules root p) (hseen : seen.Nodup) :
    Spares low (Chain.leaves call n p seen) fun _ => Chain.Exact rules p seen := by
  induction n generalizing low p seen with
  | zero => exact .exhaust
  | succ n ih =>
    cases p <;> simp only [Chain.leaves]
    case char id c => exact .pure fun _ _ => ⟨[], [(id, c)], .char id c, rfl, rfl, hseen⟩
    case orElse id left right =>
      -- The choices of the left side are entered after this one, those of the right side last.
      have hids : ∀ ids ids' : List Nat, (id :: (ids ++ ids')).reverse ++ seen =
          ids'.reverse ++ (ids.reverse ++ id :: seen) := by simp
      split
      · rename_i hmet
        have hmem : id ∈ seen := by simpa using hmet
        refine .pure fun _ _ ids cs hU hnodup => ?_
        cases hU with
        | @orElse _ _ _ _ ids ids' =>
          rw [hids] at hnodup
          exact (List.nodup_cons.1 (List.Nodup.of_append_right
            (List.Nodup.of_append_right hnodup))).1 hmem
      · rename_i hnew
        have hnodup : (id :: seen).Nodup := List.nodup_cons.2 ⟨by simpa using hnew, hseen⟩
        refine .bind (ih (hp.tail (.child (.head _))) hnodup) fun _ r _ hfront => ?_
        rcases r with ⟨_ | front, seen'⟩
        · refine .pure fun _ _ ids cs hU hall => ?_
          cases hU with
          | orElse hl =>
            rw [hids] at hall
            exact hfront _ _ hl (List.Nodup.of_append_right hall)
        · obtain ⟨ids, cs, hl, rfl, rfl, hseen'⟩ := hfront
          refine .bind (hcall _ right (hroot.plain hp rfl)) fun _ q _ hq => ?_
          refine .bind (ih (hp.tail (.thunk rfl hq)) hseen') fun _ r _ hback => ?_
          rcases r with ⟨_ | back, seen''⟩
          · refine .pure fun _ _ all cs' hU hall => ?_
            cases hU with
            | orElse hl' hq' hr =>
              obtain rfl := Except.ok.inj (hq.symm.trans hq')
              obtain ⟨rfl, rfl⟩ := hl.unique hl'
              rw [hids] at hall
              exact hback _ _ hr hall
          · obtain ⟨ids', cs', hr, rfl, rfl, hseen''⟩ := hback
            refine .pure fun _ _ => ⟨_, _, .orElse hl hq hr, ?_, (hids ids ids').symm, hseen''⟩
            rw [Chain.nodes, Chain.nodes, Chain.nodes, List.map_append]
    case bare => cases hroot.kinded _ hp
    all_goals
      refine .pure fun _ _ ids cs hU => ?_
      cases hU

end ParserAlgebra
