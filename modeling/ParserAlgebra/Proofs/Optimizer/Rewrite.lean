import ParserAlgebra.Proofs.Optimizer.Linked
import ParserAlgebra.Proofs.Reach.Finite

/-!
# Optimizing arrives at a form

Collecting a chain comes to an end since every choice it enters is new and there are finitely many.
So optimizing ends, and what it makes is an optimized form of what it was given.
-/

namespace ParserAlgebra

open Run (Growing Arrives Finds pure_ne_exhausted)

variable {rules : Rules} {root : Parser} {w : World rules root}

/-- Calls that need a bound and find what plain thunks stand for once it is large enough. -/
structure Calling (rules : Rules) (root : Parser) (calls : Nat → Thunk → Run Parser) : Prop where
  growing : ∀ t, Growing fun k => calls k t
  arrives : ∀ (w : World rules root) {t : Thunk} {q : Parser}, t.Plain → t.target rules = .ok q →
    Arrives Linked (fun _ p => p = q) w fun k => calls k t

theorem Calling.shift {calls : Nat → Thunk → Run Parser} (h : Calling rules root calls) :
    Calling rules root fun k => calls (k + 1) :=
  ⟨fun t k => h.growing t (k + 1), fun w _ _ ht hq => .succ (h.growing _) (h.arrives w ht hq)⟩

theorem calling (rules : Rules) (root : Parser) : Calling rules root (Thunk.call rules) where
  growing t k := call_extends rules k t
  arrives w t q ht hq := by
    have hcall : ∀ k, Finds rules root (.ok q) (t.call rules (k + 1)) := fun k => hq ▸ .call ht k
    exact .of_succ (Finds.follows (.pure ()) hcall fun _ _ => rfl)

/-! ### Building -/

theorem build_arrives {α : Type} {b : Build α} {Q : World rules root → α → Prop}
    (hb : ∀ next, next ≤ (b next).2) (h : ∀ next w₁, w ≤ w₁ → Q w₁ (b next).1) :
    Arrives Linked Q w fun _ => Run.build b := by
  intro w₁ h₁ m m' hS _
  refine ⟨0, w₁, le_rfl, ⟨hS.left, ⟨hS.right.node, fun c hc => ?_⟩, fun c hc => ?_, hS.form⟩,
    .ok (h _ w₁ h₁)⟩
  · exact hS.right.right c ((hb _).trans hc)
  · exact hS.unused c ((hb _).trans hc)

theorem fresh_arrives (w : World rules root) {t : Thunk} (ht : t.Due rules root w.source) :
    Arrives Linked (fun w c => w.source c = some t) w fun _ => Run.build Build.fresh := by
  intro w₁ h₁ m m' hS _
  have hfree : w₁.source m'.nextId = none := hS.unused _ le_rfl
  have ht₁ : t.Due rules root w₁.source := ht.mono h₁
  have hle : w₁ ≤ w₁.put m'.nextId t ht₁ hfree := w₁.le_put ht₁ hfree
  refine ⟨0, w₁.put m'.nextId t ht₁ hfree, hle, ⟨hS.left, ⟨hS.right.node, fun c hc => ?_⟩,
    fun c hc => ?_, fun {c t' q} hs hq => ?_⟩, .ok (w₁.source_put ht₁ hfree)⟩
  · exact hS.right.right c (Nat.le_of_succ_le hc)
  · rw [World.source_put_of_ne w₁ ht₁ hfree (Nat.ne_of_gt hc)]
    exact hS.unused c (Nat.le_of_succ_le hc)
  · have hkept : m'.parserIn? (.right c) = some q := hq
    have hne : c ≠ m'.nextId := by
      rintro rfl
      rw [hS.right.right _ le_rfl] at hkept
      cases hkept
    rw [World.source_put_of_ne w₁ ht₁ hfree hne] at hs
    obtain ⟨p, hp, hform⟩ := hS.form hs hkept
    exact ⟨p, hp, hform.grow hle⟩

/-! ### Chains -/

def Chain.nodes (cs : List (Nat × Char)) : List Parser := cs.map fun c => .char c.1 c.2

theorem Chain.mapM_member (cs : List (Nat × Char)) :
    (Chain.nodes cs).mapM Chain.member = .ok (cs.map fun c => some c.2) := by
  induction cs with
  | nil => rfl
  | cons c cs ih =>
    rw [Chain.nodes] at ih ⊢
    rw [List.map_cons, List.mapM_cons, ih]
    rfl

theorem Chain.lastDescription_nodes {cs : List (Nat × Char)} (h : cs ≠ []) :
    Chain.lastDescription (Chain.nodes cs) = .ok (Chain.lastWords cs) := by
  have hlast := List.getLast?_eq_some_getLast h
  simp only [Chain.lastDescription, Chain.nodes, Chain.lastWords, List.getLast?_map, hlast,
    Option.map_some]

theorem Chain.charSet_nodes {cs : List (Nat × Char)} (h : cs ≠ []) :
    Chain.charSet (Chain.nodes cs) = Run.build
      (Build.charWhere (.memberOf (cs.map Prod.snd)) (Chain.lastWords cs)) := by
  have hmembers : (cs.map fun c => some c.2).filterMap (fun c => c) = cs.map Prod.snd := by
    induction cs with
    | nil => rfl
    | cons c cs ih => cases cs <;> simp_all
  simp only [Chain.charSet, Chain.mapM_member, Chain.lastDescription_nodes h, Run.ofExcept,
    pure_bind, hmembers]

/-- What collecting found: the leaves of a chain, if any, and no choice is forgotten. -/
structure Chain.Found (rules : Rules) (p : Parser) (seen : List Nat)
    (r : Option (List Parser) × List Nat) : Prop where
  seen : seen ⊆ r.2
  leaves : ∀ chars, r.1 = some chars → ∃ cs, Chars rules p cs ∧ chars = Chain.nodes cs

theorem Chain.Found.none {p : Parser} {seen seen' : List Nat} (h : seen ⊆ seen') :
    Chain.Found rules p seen (none, seen') := by
  refine ⟨h, fun chars hc => ?_⟩
  cases hc

theorem leaves_growing {calls : Nat → Thunk → Run Parser} (h : Calling rules root calls)
    (p : Parser) (seen : List Nat) : Growing fun k => Chain.leaves (calls k) k p seen :=
  fun k => leaves_extends (fun t => h.growing t k) k p seen

/-- Entering a choice that was not met leaves fewer to be met. -/
theorem card_unmet_lt {ids : Finset Nat} {id : Nat} {seen seen' : List Nat} (hid : id ∈ ids)
    (hnew : id ∉ seen) (hsub : id :: seen ⊆ seen') :
    (ids \ seen'.toFinset).card < (ids \ seen.toFinset).card := by
  have hunmet : id ∈ ids \ seen.toFinset := by simp [hid, hnew]
  have hmet : id ∉ ids \ seen'.toFinset := by simp [hsub (.head _)]
  have hle : ids \ seen'.toFinset ⊆ ids \ seen.toFinset := by
    refine Finset.sdiff_subset_sdiff (Finset.Subset.refl ids) fun x hx => ?_
    rw [List.mem_toFinset] at hx ⊢
    exact hsub (.tail _ hx)
  exact Finset.card_lt_card ⟨hle, fun hge => hmet (hge hunmet)⟩

theorem leaves_arrives (hroot : root.Made rules) (ids : Finset Nat) (b : Nat)
    {calls : Nat → Thunk → Run Parser} (hcalls : Calling rules root calls) {p : Parser}
    (w : World rules root) (seen : List Nat) (h : Optimizable rules root p)
    (hids : ∀ id left right, Spans rules p (.orElse id left right) → id ∈ ids)
    (hb : (ids \ seen.toFinset).card < b) :
    Arrives Linked (fun _ => Chain.Found rules p seen) w
      fun k => Chain.leaves (calls k) k p seen := by
  -- On the number of choices that were not met yet; the depth of the rules gives no bound.
  induction b generalizing calls p w seen with
  | zero => exact absurd hb (Nat.not_lt_zero _)
  | succ b ih =>
    refine .of_succ ?_
    cases p <;> simp only [Chain.leaves]
    case char id c =>
      refine .pure fun _ _ => ⟨fun _ h => h, fun chars hc => ?_⟩
      cases hc
      exact ⟨[(id, c)], .char id c, rfl⟩
    case orElse id left right =>
      split
      · exact .pure fun _ _ => .none fun _ h => h
      · rename_i hnew
        have hid : id ∈ ids := hids id left right .refl
        have hnew' : id ∉ seen := by simpa using hnew
        have hfewer : ∀ seen' : List Nat, id :: seen ⊆ seen' →
            (ids \ seen'.toFinset).card < b := fun seen' hsub =>
          Nat.lt_of_lt_of_le (card_unmet_lt hid hnew' hsub) (Nat.le_of_lt_succ hb)
        have hchild : Spreads rules (.orElse id left right) left := .child (.head _)
        have hleft := ih hcalls.shift w (id :: seen) (h.spreads hchild)
          (fun i l t hs => hids i l t (.head hchild hs)) (hfewer _ fun _ h => h)
        refine hleft.bind (leaves_growing hcalls.shift _ _) (fun r k => ?_) fun w₁ r h₁ hfront => ?_
        · rcases r with ⟨_ | front, seen'⟩
          · exact .refl _
          · exact .bind (hcalls.shift.growing right k) fun q =>
              .bind (leaves_growing hcalls.shift q seen' k) fun _ => .refl _
        rcases r with ⟨_ | front, seen'⟩
        · exact .pure fun _ _ => .none fun x hx => hfront.seen (.tail _ hx)
        · obtain ⟨cs, hcs, hfrontEq⟩ := hfront.leaves front rfl
          obtain ⟨q, hq⟩ := h.collectable id left right cs .refl hcs
          have hright : Spreads rules (.orElse id left right) q := .right hq
          have hcall := hcalls.shift.arrives w₁ (hroot.plain h.reaches rfl) hq
          refine hcall.bind (hcalls.shift.growing right)
            (fun q k => .bind (leaves_growing hcalls.shift q seen' k) fun _ => .refl _)
            fun w₂ q' h₂ he => ?_
          subst he
          have hback := ih hcalls.shift w₂ seen' (h.spreads hright)
            (fun i l t hs => hids i l t (.head hright hs)) (hfewer _ hfront.seen)
          refine hback.bind (leaves_growing hcalls.shift _ _) (fun _ => .const _)
            fun w₃ r h₃ hback => ?_
          have hseen : seen ⊆ r.2 := fun x hx => hback.seen (hfront.seen (.tail _ hx))
          rcases r with ⟨_ | back, seen''⟩
          · exact .pure fun _ _ => .none hseen
          · obtain ⟨ds, hds, hbackEq⟩ := hback.leaves back rfl
            refine .pure fun _ _ => ⟨hseen, fun chars hc => ?_⟩
            cases hc
            refine ⟨cs ++ ds, .orElse hcs hq hds, ?_⟩
            rw [hfrontEq, hbackEq, Chain.nodes, Chain.nodes, Chain.nodes, List.map_append]
    case bare => cases hroot.kinded _ h.reaches
    all_goals exact .pure fun _ _ => .none fun _ h => h

theorem pair_arrives {calls : Nat → Thunk → Run Parser} (hcalls : Calling rules root calls)
    (w : World rules root) {id id' id'' : Nat} {c d : Char} {t : Thunk} (ht : t.Plain)
    (hd : t.target rules = .ok (.char id'' d)) :
    Arrives Linked (fun _ r => r = (some [.char id' c, .char id'' d], [id])) w
      fun k => Chain.leaves (calls k) k (.orElse id (.char id' c) t) [] := by
  refine .of_succ (.of_succ ?_)
  simp only [Chain.leaves, List.contains_nil, Bool.false_eq_true, if_false, pure_bind]
  refine (hcalls.shift.shift.arrives w ht hd).bind (hcalls.shift.shift.growing t)
    (fun q => .bind (fun k => leaves_growing hcalls.shift q [id] (k + 1)) fun _ => .const _)
    fun w₁ q _ he => ?_
  subst he
  exact .pure fun _ _ => rfl

theorem chain_arrives (hroot : root.Made rules) {calls : Nat → Thunk → Run Parser}
    (hcalls : Calling rules root calls) (w : World rules root) {id : Nat} {left : Parser}
    {right : Thunk} (h : Optimizable rules root (.orElse id left right)) :
    Arrives Linked (fun _ r => Chain.Found rules (.orElse id left right) [] r ∧
      (Chain.Pair rules left right → r.1 ≠ none)) w
      fun k => Chain.leaves (calls k) k (.orElse id left right) [] := by
  by_cases hpair : Chain.Pair rules left right
  · obtain ⟨id', c, id'', d, rfl, hd⟩ := hpair
    refine (pair_arrives hcalls w (hroot.plain h.reaches rfl) hd).mono le_rfl fun _ _ r _ hr => ?_
    subst hr
    refine ⟨⟨List.nil_subset _, fun chars hc => ?_⟩, fun _ => nofun⟩
    cases hc
    exact ⟨[(id', c)] ++ [(id'', d)], .orElse (.char id' c) hd (.char id'' d), rfl⟩
  · let p : Parser := .orElse id left right
    let ids := (p.allNodes rules).map Parser.id
    have hids : ∀ id left right, Spans rules p (.orElse id left right) → id ∈ ids.toFinset :=
      fun id left right hs => List.mem_toFinset.2 (List.mem_map.2 ⟨_, hs.mem_allNodes, rfl⟩)
    have hleaves := leaves_arrives hroot ids.toFinset _ hcalls w [] h hids (Nat.lt_succ_self _)
    exact hleaves.mono le_rfl fun _ _ r _ hr => ⟨hr, fun h => absurd h hpair⟩

/-! ### Parsers -/

theorem optimizeWith_growing {calls : Nat → Thunk → Run Parser} (h : Calling rules root calls)
    (p : Parser) : Growing fun k => optimizeWith (calls k) k p :=
  fun k => optimizeWith_extends (fun t => h.growing t k) k p

section

variable {R R' Q : World rules root → Parser → Prop} {y z : Nat → Run Parser}

theorem rebuilt {node : Parser → Build Parser} (hy : Growing y) (hs : Arrives Linked R w y)
    (hR : ∀ {w₁ w₂ q}, w₁ ≤ w₂ → R w₁ q → R w₂ q) (hnext : ∀ q next, next ≤ (node q next).2)
    (hnode : ∀ {w₁ q} (next : Nat), R w₁ q → Q w₁ (node q next).1) :
    Arrives Linked Q w fun k => y k >>= fun q => Run.build (node q) :=
  hs.bind hy (fun _ => .const _) fun _ q _ hq =>
    build_arrives (hnext q) fun next _ h₂ => hnode next (hR h₂ hq)

theorem rebuilt_pair {node : Parser → Parser → Build Parser} (hy : Growing y) (hz : Growing z)
    (hl : Arrives Linked R w y) (hr : ∀ w₁, w ≤ w₁ → Arrives Linked R' w₁ z)
    (hR : ∀ {w₁ w₂ q}, w₁ ≤ w₂ → R w₁ q → R w₂ q) (hR' : ∀ {w₁ w₂ q}, w₁ ≤ w₂ → R' w₁ q → R' w₂ q)
    (hnext : ∀ q q' next, next ≤ (node q q' next).2)
    (hnode : ∀ {w₁ q q'} (next : Nat), R w₁ q → R' w₁ q' → Q w₁ (node q q' next).1) :
    Arrives Linked Q w fun k => y k >>= fun q => z k >>= fun q' => Run.build (node q q') :=
  hl.bind hy (fun _ => hz.bind fun _ => .const _) fun w₁ q h₁ hq =>
    (hr w₁ h₁).bind hz (fun _ => .const _) fun _ q' h₂ hq' =>
      build_arrives (hnext q q') fun next _ h₃ =>
        hnode next (hR (h₂.trans h₃) hq) (hR' h₃ hq')

end

theorem optimizable_arrives (hroot : root.Made rules) {calls : Nat → Thunk → Run Parser}
    (hcalls : Calling rules root calls) :
    ∀ (p : Parser) (w : World rules root), Optimizable rules root p →
      Arrives Linked (fun w q => Form rules w Thunk.Once p q) w fun k => optimizeWith (calls k) k p
  | .orElse id left right, w, h => by
    have hleft : Optimizable rules root left := h.child (.head _)
    simp only [optimizeWith]
    refine (chain_arrives hroot hcalls w h).bind (leaves_growing hcalls _ _) (fun r => ?_)
      fun w₁ r _ hfound => ?_
    · rcases r with ⟨_ | chars, seen⟩
      · exact .bind (.const _) fun _ => .bind (optimizeWith_growing hcalls left) fun _ => .const _
      · exact .const _
    obtain ⟨hfound, hpair⟩ := hfound
    rcases r with ⟨_ | chars, seen⟩
    · have hdeferred := h.deferred hroot
      have hnot : ¬ Chain.Pair rules left right := fun hp => hpair hp rfl
      refine (fresh_arrives w₁ (.first hdeferred)).bind (.const _)
        (fun _ => .bind (optimizeWith_growing hcalls left) fun _ => .const _)
        fun w₂ cell _ hcell => ?_
      refine (optimizable_arrives hroot hcalls left w₂ hleft).bind
        (optimizeWith_growing hcalls left) (fun _ => .const _) fun w₃ left' h₃ hform => ?_
      exact build_arrives Nat.le_succ fun next w₄ h₄ =>
        .lazy (hform.grow h₄) (h₄ _ _ (h₃ _ _ hcell)) hdeferred.plain.core_eq hnot hdeferred.plain
    · obtain ⟨cs, hcs, rfl⟩ := hfound.leaves chars rfl
      simp only [Chain.charSet_nodes hcs.ne_nil]
      exact build_arrives Nat.le_succ fun next _ _ => .chain hcs
  | .map _ source _, w, h => by
    simp only [optimizeWith]
    exact rebuilt (optimizeWith_growing hcalls source)
      (optimizable_arrives hroot hcalls source w (h.child (.head _))) (fun hw hq => hq.grow hw)
      (fun _ => Nat.le_succ) fun _ => .map
  | .bind _ source _ _, w, h => by
    simp only [optimizeWith]
    exact rebuilt (optimizeWith_growing hcalls source)
      (optimizable_arrives hroot hcalls source w (h.child (.head _))) (fun hw hq => hq.grow hw)
      (fun _ => Nat.le_succ) fun _ => .bind
  | .many _ source _ _, w, h => by
    simp only [optimizeWith]
    exact rebuilt (optimizeWith_growing hcalls source)
      (optimizable_arrives hroot hcalls source w (h.child (.head _))) (fun hw hq => hq.grow hw)
      (fun _ => Nat.le_succ) fun _ => .many
  | .manyBetween _ source _ _ _ _, w, h => by
    simp only [optimizeWith]
    exact rebuilt (optimizeWith_growing hcalls source)
      (optimizable_arrives hroot hcalls source w (h.child (.head _))) (fun hw hq => hq.grow hw)
      (fun _ => Nat.le_succ) fun _ => .manyBetween
  | .collect _ source _ _, w, h => by
    simp only [optimizeWith]
    exact rebuilt (optimizeWith_growing hcalls source)
      (optimizable_arrives hroot hcalls source w (h.child (.head _))) (fun hw hq => hq.grow hw)
      (fun _ => Nat.le_succ) fun _ => .collect
  | .product _ left right, w, h => by
    simp only [optimizeWith]
    exact rebuilt_pair (optimizeWith_growing hcalls left) (optimizeWith_growing hcalls right)
      (optimizable_arrives hroot hcalls left w (h.child (.head _)))
      (fun w₁ _ => optimizable_arrives hroot hcalls right w₁ (h.child (.tail _ (.head _))))
      (fun hw hq => hq.grow hw) (fun hw hq => hq.grow hw) (fun _ _ => Nat.le_succ)
      fun _ => .product
  | .both _ left right _, w, h => by
    simp only [optimizeWith]
    exact rebuilt_pair (optimizeWith_growing hcalls left) (optimizeWith_growing hcalls right)
      (optimizable_arrives hroot hcalls left w (h.child (.head _)))
      (fun w₁ _ => optimizable_arrives hroot hcalls right w₁ (h.child (.tail _ (.head _))))
      (fun hw hq => hq.grow hw) (fun hw hq => hq.grow hw) (fun _ _ => Nat.le_succ)
      fun _ => .both
  | .bare .., _, h => nomatch hroot.kinded _ h.reaches
  | .literal .., _, _ | .char .., _, _ | .charWhere .., _, _ | .constant .., _, _
  | .identity .., _, _ | .fail .., _, _ | .delayed .., _, _ | .memoized .., _, _
  | .loop .., _, _ => .pure fun _ _ => .atom rfl rfl

theorem optimizeWith_arrives (hroot : root.Made rules) {calls : Nat → Thunk → Run Parser}
    (hcalls : Calling rules root calls) (p : Parser) (w : World rules root)
    (h : Ready rules root p) :
    Arrives Linked (fun w q => Form rules w Thunk.Once p q) w fun k => optimizeWith (calls k) k p :=
  optimizable_arrives hroot hcalls p w h.optimizable

/-! ### Cells -/

/-- A cell is filled with a form of what its thunk stands for, if making one arrives at it. -/
theorem cell_arrives {cell : Nat} {t : Thunk} {p : Parser} (hw : w.source cell = some t)
    (hp : t.target rules = .ok p) (hmake : Arrives Linked (fun w q => Form rules w t.Gives p q) w
      fun k => t.call rules k >>= optimizeWith (Thunk.call rules k) k) :
    Arrives Linked (fun w q => Form rules w t.Gives p q) w
      fun k => (Thunk.optimized cell t).call rules k := by
  refine .of_succ fun w₁ h₁ m m' hS _ => ?_
  simp only [Thunk.call]
  cases hc : m'.parserIn? (.right cell) with
  | some q =>
    obtain ⟨p', hp', hform⟩ := hS.form (h₁ _ _ hw) hc
    rw [hp] at hp'
    cases hp'
    refine ⟨0, w₁, le_rfl, ?_⟩
    rw [Run.exec_once_of_some _ hc]
    exact ⟨hS, .ok hform⟩
  | none =>
    obtain ⟨k, w₂, h₂, hS₂, hA⟩ := hmake w₁ h₁ m m' hS (pure_ne_exhausted _ _)
    rcases hx : (t.call rules k >>= optimizeWith (Thunk.call rules k) k).exec m' with ⟨o, n⟩
    rw [hx] at hS₂ hA
    cases hA with
    | @ok _ q hform =>
      refine ⟨k, w₂, h₂, ?_⟩
      rw [Run.exec_once_of_none hc hx]
      exact ⟨hS₂.fill (h₂ _ _ (h₁ _ _ hw)) hp hform, .ok hform⟩

theorem once_arrives (hroot : root.Made rules) {cell : Nat} {t : Thunk} {p : Parser}
    (hw : w.source cell = some t) (ht : t.Deferred rules root) (hp : t.target rules = .ok p) :
    Arrives Linked (fun w q => Form rules w t.Gives p q) w
      fun k => (Thunk.optimized cell t).call rules k := by
  have hcalls : Calling rules root (Thunk.call rules) := calling rules root
  refine cell_arrives hw hp ?_
  refine (hcalls.arrives w ht.plain hp).bind (hcalls.growing t)
    (fun q => optimizeWith_growing hcalls q) fun w₁ q _ he => ?_
  subst he
  exact (optimizable_arrives hroot hcalls q w₁ (ht.target hp)).mono le_rfl fun w₂ _ _ _ hq =>
    hq.mono le_rfl fun _ ht _ => ht

end ParserAlgebra
