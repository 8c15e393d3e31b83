import Mathlib.Logic.Relation
import ParserAlgebra.Proofs.Expr.Folded

/-!
# The two stacks of a fold, turn by turn

A turn of a fold takes one entry from the stack of what is still to be visited. Between two turns
the values found so far are enough for the entries that will take some, one value is left in the
end, and the leaves asked so far, followed by those of the entries not yet visited, are the leaves
of the tree from left to right.
-/

namespace ParserAlgebra.Expr

/-- The leaves of a tree, from left to right. -/
def leaves : Expr → List Expr
  | .lit n => [.lit n]
  | .var x => [.var x]
  | .add l r => l.leaves ++ r.leaves
  | .mul l r => l.leaves ++ r.leaves

/-- The names in a tree, from left to right. -/
def names : Expr → List String
  | .lit _ => []
  | .var x => [x]
  | .add l r => l.names ++ r.names
  | .mul l r => l.names ++ r.names

/-- The value of a tree under a binding of all names. -/
def value (binding : String → Int) : Expr → Int
  | .lit n => n
  | .var x => binding x
  | .add l r => l.value binding + r.value binding
  | .mul l r => l.value binding * r.value binding

/-- A tree as a document: each node is its tag with its parts. -/
def document : Expr → Json
  | .lit n => .array [.text "lit", .number n]
  | .var x => .array [.text "var", .text x]
  | .add l r => .array [.text "add", l.document, r.document]
  | .mul l r => .array [.text "mul", l.document, r.document]

theorem leaves_leaf {e : Expr} (h : e.branch? = none) : e.leaves = [e] := by
  cases e with
  | lit | var => rfl
  | add | mul => cases h

theorem leaves_branch {e l r : Expr} {op : Op} (h : e.branch? = some (op, l, r)) :
    e.leaves = l.leaves ++ r.leaves := by
  cases e with
  | lit | var => cases h
  | add | mul => cases h; rfl

/-! ### Turns -/

/-- A fold between two turns: the entries still to be visited, the values found, and the leaves
that gave one, the first of them first. -/
structure Stacks (α : Type) where
  pending : List (Expr × Bool)
  values : List α
  asked : List Expr

inductive Turn (α : Type) where
  | ended
  | next (s : Stacks α)
  | raised (leaf : Expr) (f : Fault)
  | underflow

namespace Stacks

variable {α : Type} (leaf : Expr → Except Fault α) (join : Op → α → α → α)

def start (e : Expr) : Stacks α := ⟨[(e, false)], [], []⟩

def turn (s : Stacks α) : Turn α :=
  match s.pending with
  | [] => .ended
  | (e, visited) :: rest =>
    match e.branch? with
    | none =>
      match leaf e with
      | .error f => .raised e f
      | .ok v => .next ⟨rest, v :: s.values, s.asked ++ [e]⟩
    | some (op, l, r) =>
      if visited then
        match s.values with
        | right :: left :: values => .next ⟨rest, join op left right :: values, s.asked⟩
        | _ => .underflow
      else .next ⟨(l, false) :: (r, false) :: (e, true) :: rest, s.values, s.asked⟩

/-- What the loop makes of the two stacks. -/
def loop (s : Stacks α) : Except Fault (List α) := foldLoop leaf join s.pending s.values

theorem loop_eq (s : Stacks α) :
    s.loop leaf join =
      match s.turn leaf join with
      | .ended => .ok s.values
      | .next t => t.loop leaf join
      | .raised _ f => .error f
      | .underflow => .error .outOfRange := by
  obtain ⟨_ | ⟨⟨e, visited⟩, rest⟩, values, asked⟩ := s
  · simp [loop, turn, foldLoop]
  rw [loop, foldLoop, turn]
  cases hb : e.branch? with
  | none => cases hv : leaf e <;> simp [loop, hb, hv]
  | some found =>
    obtain ⟨op, l, r⟩ := found
    cases visited with
    | false => simp [loop, hb]
    | true => rcases values with _ | ⟨right, _ | ⟨left, values⟩⟩ <;> simp [loop, hb]

/-- One turn after another. -/
def Leads : Stacks α → Stacks α → Prop :=
  Relation.ReflTransGen fun s t => s.turn leaf join = .next t

variable {leaf join}

/-- A run of turns is a part of the loop. -/
theorem Leads.loop_eq {s t : Stacks α} (h : Leads leaf join s t) :
    s.loop leaf join = t.loop leaf join := by
  induction h with
  | refl => rfl
  | tail _ hturn ih => rw [ih, Stacks.loop_eq, hturn]

/-! ### What holds between two turns -/

/-- So many values are enough for the entries that take some, and one is left in the end. -/
def Suffice : List (Expr × Bool) → Nat → Prop
  | [], k => k = 1
  | (_, false) :: rest, k => Suffice rest (k + 1)
  | (e, true) :: rest, k => e.branch?.isSome ∧ 2 ≤ k ∧ Suffice rest (k - 1)

/-- The leaves of the entries that were not visited. -/
def unasked (pending : List (Expr × Bool)) : List Expr :=
  pending.flatMap fun entry => if entry.2 then [] else entry.1.leaves

theorem unasked_cons (entry : Expr × Bool) (rest : List (Expr × Bool)) :
    unasked (entry :: rest) = (if entry.2 then [] else entry.1.leaves) ++ unasked rest :=
  List.flatMap_cons ..

/-- What holds between two turns of a fold of `e`. -/
structure Sound (leaf : Expr → Except Fault α) (e : Expr) (s : Stacks α) : Prop where
  enough : Suffice s.pending s.values.length
  inOrder : s.asked ++ unasked s.pending = e.leaves
  returned : ∀ x ∈ s.asked, ∃ v, leaf x = .ok v

theorem sound_start (e : Expr) : (start e).Sound leaf e where
  enough := by simp [start, Suffice]
  inOrder := by simp [start, unasked]
  returned := by simp [start]

/-- What a turn can do where a fold of `e` stands. -/
def After (leaf : Expr → Except Fault α) (e : Expr) (s : Stacks α) : Turn α → Prop
  | .ended => s.asked = e.leaves ∧ s.values.length = 1
  | .next t => t.Sound leaf e ∧ visits t.pending < visits s.pending
  | .raised x f => s.asked ++ [x] <+: e.leaves ∧ leaf x = .error f
  | .underflow => False

theorem Sound.turn {e : Expr} {s : Stacks α} (h : s.Sound leaf e) (join : Op → α → α → α) :
    After leaf e s (s.turn leaf join) := by
  obtain ⟨_ | ⟨⟨x, visited⟩, rest⟩, values, asked⟩ := s
  · exact ⟨by simpa [unasked] using h.inOrder, h.enough⟩
  obtain ⟨enough, inOrder, returned⟩ := h
  simp only [unasked_cons] at inOrder
  cases hb : x.branch? with
  | none =>
    -- A leaf is never pending as visited.
    obtain rfl : visited = false := by
      cases visited with
      | false => rfl
      | true => simp [Suffice, hb] at enough
    simp only [leaves_leaf hb, Bool.false_eq_true, if_false] at inOrder
    cases hv : leaf x with
    | error f =>
      simp only [Stacks.turn, hb, hv]
      exact ⟨⟨unasked rest, by simpa using inOrder⟩, hv⟩
    | ok v =>
      simp only [Stacks.turn, hb, hv]
      refine ⟨⟨by simpa [Suffice] using enough, by simpa using inOrder, ?_⟩, ?_⟩
      · simpa [or_imp, forall_and, hv] using returned
      · have := x.size_pos
        simp only [visits, Bool.false_eq_true, if_false]
        omega
  | some found =>
    obtain ⟨op, l, r⟩ := found
    cases visited with
    | false =>
      simp only [Stacks.turn, hb, Bool.false_eq_true, if_false]
      refine ⟨⟨?_, ?_, returned⟩, ?_⟩
      · simpa [Suffice, hb] using enough
      · simpa [unasked_cons, leaves_branch hb] using inOrder
      · have := size_eq_of_branch hb
        simp only [visits, Bool.false_eq_true, if_false, if_true]
        omega
    | true =>
      obtain ⟨-, htwo, enough⟩ := enough
      obtain _ | ⟨right, _ | ⟨left, values⟩⟩ := values
      · simp at htwo
      · simp at htwo
      simp only [Stacks.turn, hb, if_true]
      exact ⟨⟨by simpa using enough, by simpa using inOrder, returned⟩, by simp [visits]⟩

theorem Leads.sound {e : Expr} {s : Stacks α} (h : Leads leaf join (start e) s) :
    s.Sound leaf e := by
  induction h with
  | refl => exact sound_start e
  | tail _ hturn ih =>
    have := ih.turn join
    rw [hturn] at this
    exact this.1

/-- A fold comes to an end: each turn leaves fewer visits to make. -/
theorem Sound.ends {e : Expr} {s : Stacks α} (h : s.Sound leaf e) :
    ∃ t, Leads leaf join s t ∧
      (t.turn leaf join = .ended ∨ ∃ x f, t.turn leaf join = .raised x f) := by
  induction hn : visits s.pending using Nat.strongRecOn generalizing s with
  | ind n ih =>
    subst hn
    have hturn := h.turn join
    cases ht : s.turn leaf join with
    | ended => exact ⟨s, .refl, .inl ht⟩
    | raised x f => exact ⟨s, .refl, .inr ⟨x, f, ht⟩⟩
    | underflow => simp [ht, After] at hturn
    | next t =>
      rw [ht] at hturn
      obtain ⟨t', hlead, hend⟩ := ih _ hturn.2 hturn.1 rfl
      exact ⟨t', .head ht hlead, hend⟩

end Stacks

/-! ### The fold -/

variable {α : Type}

theorem loop_start (leaf : Expr → Except Fault α) (join : Op → α → α → α) (e : Expr) :
    (Stacks.start e).loop leaf join = (folded leaf join e).map ([·]) := by
  rw [Stacks.loop, Stacks.start, foldLoop_cons]
  rcases folded leaf join e with f | v
  · rfl
  · simp [foldLoop, bind, Except.bind, Except.map]

/-- A fold of `e`, from its first turn to its last. -/
structure FoldsInOrder (leaf : Expr → Except Fault α) (join : Op → α → α → α) (e : Expr) :
    Prop where
  /-- It gives what the recursion gives. -/
  result : e.fold leaf join = folded leaf join e
  /-- The loop of the fold takes these turns. -/
  turns : ∀ s : Stacks α, foldLoop leaf join s.pending s.values =
    match s.turn leaf join with
    | .ended => .ok s.values
    | .next t => foldLoop leaf join t.pending t.values
    | .raised _ f => .error f
    | .underflow => .error .outOfRange
  /-- It comes to its end or to a leaf that fails. -/
  ends : ∃ s, Stacks.Leads leaf join (.start e) s ∧
    (s.turn leaf join = .ended ∨ ∃ x f, s.turn leaf join = .raised x f)
  /-- No turn takes a value that is not there. -/
  enough : ∀ s, Stacks.Leads leaf join (.start e) s → s.turn leaf join ≠ .underflow
  /-- The leaves are asked from left to right, once each, and go on as long as they return. -/
  asked : ∀ s, Stacks.Leads leaf join (.start e) s →
    s.asked <+: e.leaves ∧ ∀ x ∈ s.asked, ∃ v, leaf x = .ok v
  /-- In the end all leaves were asked and one value is left, that of the tree. -/
  ended : ∀ s, Stacks.Leads leaf join (.start e) s → s.turn leaf join = .ended →
    s.asked = e.leaves ∧ ∃ v, s.values = [v] ∧ e.fold leaf join = .ok v
  /-- A leaf that fails is the next one, and the last one asked. -/
  raised : ∀ s x f, Stacks.Leads leaf join (.start e) s → s.turn leaf join = .raised x f →
    s.asked ++ [x] <+: e.leaves ∧ leaf x = .error f ∧ e.fold leaf join = .error f

theorem foldsInOrder (leaf : Expr → Except Fault α) (join : Op → α → α → α) (e : Expr) :
    FoldsInOrder leaf join e where
  result := fold_eq leaf join e
  turns s := Stacks.loop_eq leaf join s
  ends := (Stacks.sound_start e).ends
  enough s h hturn := by
    have := h.sound.turn join
    rw [hturn] at this
    exact this
  asked s h := ⟨⟨_, h.sound.inOrder⟩, h.sound.returned⟩
  ended s h hturn := by
    have hafter := h.sound.turn join
    rw [hturn] at hafter
    obtain ⟨v, hv⟩ := List.length_eq_one_iff.mp hafter.2
    have hloop := h.loop_eq
    rw [loop_start, Stacks.loop_eq leaf join s, hturn, hv] at hloop
    refine ⟨hafter.1, v, hv, ?_⟩
    rw [fold_eq]
    cases hf : folded leaf join e <;> simp_all [Except.map]
  raised s x f h hturn := by
    have hafter := h.sound.turn join
    rw [hturn] at hafter
    have hloop := h.loop_eq
    rw [loop_start, Stacks.loop_eq leaf join s, hturn] at hloop
    refine ⟨hafter.1, hafter.2, ?_⟩
    rw [fold_eq]
    cases hf : folded leaf join e <;> simp_all [Except.map]

/-! ### Values and documents -/

/-- The first name, from the left, that an environment does not bind. -/
def unbound? (env : List (String × Int)) (e : Expr) : Option String :=
  e.names.find? fun x => (env.lookup x).isNone

/-- The value of a tree whose names are all bound; else the first name that is not is at fault. -/
def outcome (env : List (String × Int)) (e : Expr) : Except Fault Int :=
  match e.unbound? env with
  | some x => .error (.unbound x)
  | none => .ok (e.value fun x => (env.lookup x).getD 0)

theorem outcome_branch {env : List (String × Int)} {e l r : Expr} {op : Op}
    (h : e.branch? = some (op, l, r)) :
    e.outcome env = do return op.apply (← l.outcome env) (← r.outcome env) := by
  have hnames : e.unbound? env = (l.unbound? env).or (r.unbound? env) := by
    cases e with
    | lit | var => cases h
    | add | mul => cases h; exact List.find?_append
  have hvalue (b : String → Int) : e.value b = op.apply (l.value b) (r.value b) := by
    cases e with
    | lit | var => cases h
    | add | mul => cases h; rfl
  simp only [outcome, hnames, hvalue]
  cases l.unbound? env <;> cases r.unbound? env <;> rfl

theorem folded_outcome (env : List (String × Int)) (e : Expr) :
    folded (leafValue env) Op.apply e = e.outcome env := by
  induction e with
  | lit n => rfl
  | var x =>
    cases hx : env.lookup x <;>
      simp [folded, leafValue, outcome, unbound?, names, value, hx]
  | add l r hl hr => rw [folded_branch rfl, outcome_branch rfl, hl, hr]
  | mul l r hl hr => rw [folded_branch rfl, outcome_branch rfl, hl, hr]

theorem folded_document (e : Expr) :
    folded leafJson (fun op l r => .array [.text op.tag, l, r]) e = .ok e.document := by
  induction e with
  | lit | var => rfl
  | add l r hl hr => rw [folded, hl, hr]; rfl
  | mul l r hl hr => rw [folded, hl, hr]; rfl

/-- A fold with two stacks is the recursion from left to right, whatever the shape of the tree. It
never runs out of values and leaves one; it asks each leaf once, from left to right, up to the
first that fails. So an expression has the value of its tree, or the first name that is not bound
is at fault, and its document is that of its tree. -/
theorem fold_is_recursion (e : Expr) :
    (∀ (α : Type) (leaf : Expr → Except Fault α) (join : Op → α → α → α),
      FoldsInOrder leaf join e) ∧
    (∀ env, e.evaluate env =
      match e.unbound? env with
      | some x => .error (.unbound x)
      | none => .ok (e.value fun x => (env.lookup x).getD 0)) ∧
    e.toJson = .ok e.document := by
  refine ⟨fun α leaf join => foldsInOrder leaf join e, fun env => ?_, ?_⟩
  · rw [evaluate_eq, folded_outcome, outcome]
  · rw [toJson, fold_eq, folded_document]

/-- The name on the left is the one at fault, though both are free. -/
example : (Expr.mul (.add (.lit 1) (.var "x")) (.var "y")).unbound? [("z", 2)] = some "x" := by
  decide

end ParserAlgebra.Expr
