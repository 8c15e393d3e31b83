import ParserAlgebra.Expr.Fold

/-!
# Folding by recursion

The fold with its two stacks is the recursion over the tree. What a stack asks for its first entry
puts the value of that entry on the other stack, and the rest of the stack goes on from there.
-/

namespace ParserAlgebra.Expr

variable {α : Type}

/-- The fold of a tree by recursion, from left to right. -/
def folded (leaf : Expr → Except Fault α) (join : Op → α → α → α) : Expr → Except Fault α
  | .lit n => leaf (.lit n)
  | .var x => leaf (.var x)
  | .add l r => do return join .add (← folded leaf join l) (← folded leaf join r)
  | .mul l r => do return join .mul (← folded leaf join l) (← folded leaf join r)

section

variable {leaf : Expr → Except Fault α} {join : Op → α → α → α} {e l r : Expr} {op : Op}
  {rest : List (Expr × Bool)} {values : List α}

theorem folded_branch (h : e.branch? = some (op, l, r)) :
    folded leaf join e = do return join op (← folded leaf join l) (← folded leaf join r) := by
  cases e <;> simp only [branch?, reduceCtorEq] at h <;> cases h <;> rfl

theorem foldLoop_leaf (h : e.branch? = none) :
    foldLoop leaf join ((e, false) :: rest) values =
      leaf e >>= fun v => foldLoop leaf join rest (v :: values) := by
  cases e <;> simp only [branch?, reduceCtorEq] at h <;> rw [foldLoop] <;> simp only [branch?] <;>
    split <;> simp_all [bind, Except.bind]

theorem foldLoop_first (h : e.branch? = some (op, l, r)) :
    foldLoop leaf join ((e, false) :: rest) values =
      foldLoop leaf join ((l, false) :: (r, false) :: (e, true) :: rest) values := by
  rw [foldLoop]
  split
  · simp_all
  · simp_all

theorem foldLoop_again (h : e.branch? = some (op, l, r)) (a b : α) :
    foldLoop leaf join ((e, true) :: rest) (b :: a :: values) =
      foldLoop leaf join rest (join op a b :: values) := by
  rw [foldLoop]
  split
  · simp_all
  · simp_all

theorem join_error {x y : Except Fault α} {f : Fault}
    (h : (do return join op (← x) (← y)) = Except.error f) : x = .error f ∨ y = .error f := by
  rcases x with g | a
  · exact .inl h
  · rcases y with g | b
    · exact .inr h
    · cases h

/-- Where a fold fails, it failed at a leaf. -/
theorem folded_error {f : Fault} (h : folded leaf join e = .error f) :
    ∃ e', e'.branch? = none ∧ leaf e' = .error f := by
  induction e with
  | lit n => exact ⟨_, rfl, h⟩
  | var x => exact ⟨_, rfl, h⟩
  | add l r hl hr =>
    rcases join_error h with h | h
    · exact hl h
    · exact hr h
  | mul l r hl hr =>
    rcases join_error h with h | h
    · exact hl h
    · exact hr h

/-- Both parts of a tree are worked off before it, the left one first. -/
theorem foldLoop_branch (h : e.branch? = some (op, l, r))
    (hl : ∀ rest values, foldLoop leaf join ((l, false) :: rest) values =
      folded leaf join l >>= fun v => foldLoop leaf join rest (v :: values))
    (hr : ∀ rest values, foldLoop leaf join ((r, false) :: rest) values =
      folded leaf join r >>= fun v => foldLoop leaf join rest (v :: values)) :
    foldLoop leaf join ((e, false) :: rest) values =
      folded leaf join e >>= fun v => foldLoop leaf join rest (v :: values) := by
  rw [foldLoop_first h, hl, folded_branch h]
  rcases folded leaf join l with f | a
  · rfl
  · change foldLoop leaf join ((r, false) :: (e, true) :: rest) (a :: values) = _
    rw [hr]
    rcases folded leaf join r with f | b
    · rfl
    · exact foldLoop_again h a b

end

theorem foldLoop_cons (leaf : Expr → Except Fault α) (join : Op → α → α → α) (e : Expr)
    (rest : List (Expr × Bool)) (values : List α) :
    foldLoop leaf join ((e, false) :: rest) values =
      folded leaf join e >>= fun v => foldLoop leaf join rest (v :: values) := by
  induction e generalizing rest values with
  | lit n => exact foldLoop_leaf rfl
  | var x => exact foldLoop_leaf rfl
  | add l r hl hr => exact foldLoop_branch rfl hl hr
  | mul l r hl hr => exact foldLoop_branch rfl hl hr

theorem fold_eq (leaf : Expr → Except Fault α) (join : Op → α → α → α) (e : Expr) :
    e.fold leaf join = folded leaf join e := by
  rw [fold, foldLoop_cons]
  rcases folded leaf join e with f | v
  · rfl
  · simp [foldLoop, bind, Except.bind]

/-! ### Values and documents -/

theorem evaluate_eq (env : List (String × Int)) (e : Expr) :
    e.evaluate env = folded (leafValue env) Op.apply e := fold_eq ..

theorem toJson_ok (e : Expr) : ∃ document, e.toJson = .ok document := by
  rcases hj : e.toJson with f | document
  · rw [toJson, fold_eq] at hj
    obtain ⟨leaf, hleaf, hf⟩ := folded_error hj
    cases leaf with
    | lit | var => cases hf
    | add | mul => cases hleaf
  · exact ⟨document, rfl⟩

theorem evaluate_error {env : List (String × Int)} {e : Expr} {f : Fault}
    (h : e.evaluate env = .error f) : ∃ x, f = .unbound x := by
  rw [evaluate_eq] at h
  obtain ⟨leaf, hleaf, hf⟩ := folded_error h
  cases leaf with
  | lit n => cases hf
  | var x =>
    rw [leafValue] at hf
    split at hf <;> cases hf
    exact ⟨x, rfl⟩
  | add | mul => cases hleaf

end ParserAlgebra.Expr
