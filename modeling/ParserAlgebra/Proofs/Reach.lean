import Mathlib
import ParserAlgebra.Parser.Optimized

/-!
# What a parser reaches

A node leads to its children, to what its thunk stands for, and to what its function returns.
`Reaches` follows all of these, `Spans` only what optimizing can see: children and right sides of
choices. `Made` is what the constructors and combinators guarantee of every node that is reached.
-/

namespace ParserAlgebra

/-- The parser that a thunk stands for; an optimized one stands for what it optimizes. -/
def Thunk.target (rules : Rules) : Thunk → Except Fault Parser
  | .const p => .ok p
  | .rule name =>
    match rules.lookup name with
    | some p => .ok p
    | none => .error (.missingKey name)
  | .optimized _ source => source.target rules

/-- A thunk that was given to a constructor and not left by an optimizer. -/
def Thunk.Plain : Thunk → Prop
  | .optimized _ _ => False
  | _ => True

/-- The thunk that an optimized one was made of, and this one if it was, and so on. -/
def Thunk.core : Thunk → Thunk
  | .optimized _ source => source.core
  | t => t

theorem Thunk.core_target (rules : Rules) : ∀ t : Thunk, t.core.target rules = t.target rules
  | .optimized _ source => source.core_target rules
  | .const _ | .rule _ => rfl

theorem Thunk.Plain.core_eq {t : Thunk} (h : t.Plain) : t.core = t := by
  cases t with
  | const | rule => rfl
  | optimized => exact h.elim

namespace Parser

def thunk? : Parser → Option Thunk
  | .orElse _ _ right => some right
  | .delayed _ thunk => some thunk
  | .memoized _ thunk => some thunk
  | _ => none

def next? : Parser → Option (Value → Except Fault Parser)
  | .bind _ _ _ next => some next
  | .loop _ _ next _ => some next
  | _ => none

def isBare : Parser → Bool
  | .bare .. => true
  | _ => false

end Parser

inductive Leads (rules : Rules) : Parser → Parser → Prop
  | child {p q : Parser} (h : q ∈ p.children) : Leads rules p q
  | thunk {p q : Parser} {t : Thunk} (ht : p.thunk? = some t) (h : t.target rules = .ok q) :
      Leads rules p q
  | next {p q : Parser} {f : Value → Except Fault Parser} {v : Value} (hf : p.next? = some f)
      (h : f v = .ok q) : Leads rules p q

/-- What lies one step on from a node, apart from what its function returns. -/
def Parser.steps (rules : Rules) (p : Parser) : List Parser :=
  p.children ++ ((p.thunk?.map (Thunk.target rules)).bind Except.toOption).toList

theorem Leads.mem_steps {rules : Rules} {p q : Parser} (h : Leads rules p q)
    (hn : p.next? = none) : q ∈ p.steps rules := by
  cases h with
  | child h => exact List.mem_append_left _ h
  | thunk ht h =>
    have htarget : (p.thunk?.map (Thunk.target rules)).bind Except.toOption = some q := by
      rw [ht, Option.map_some, h]
      rfl
    exact List.mem_append_right _ (by rw [htarget]; simp)
  | next hf h =>
    rw [hn] at hf
    cases hf

def Reaches (rules : Rules) : Parser → Parser → Prop := Relation.ReflTransGen (Leads rules)

inductive Spreads (rules : Rules) : Parser → Parser → Prop
  | child {p q : Parser} (h : q ∈ p.children) : Spreads rules p q
  | right {id : Nat} {left q : Parser} {t : Thunk} (h : t.target rules = .ok q) :
      Spreads rules (.orElse id left t) q

def Spans (rules : Rules) : Parser → Parser → Prop := Relation.ReflTransGen (Spreads rules)

theorem Spreads.leads {rules : Rules} {p q : Parser} (h : Spreads rules p q) :
    Leads rules p q := by
  cases h with
  | child h => exact .child h
  | right h => exact .thunk rfl h

theorem Reaches.closed {rules : Rules} {P : Parser → Prop} {p q : Parser} (hp : P p)
    (step : ∀ a b, P a → Leads rules a b → P b) (h : Reaches rules p q) : P q := by
  induction h with
  | refl => exact hp
  | tail _ hab ih => exact step _ _ ih hab

theorem Spans.closed {rules : Rules} {P : Parser → Prop} {p q : Parser} (hp : P p)
    (step : ∀ a b, P a → Spreads rules a b → P b) (h : Spans rules p q) : P q := by
  induction h with
  | refl => exact hp
  | tail _ hab ih => exact step _ _ ih hab

theorem Spans.reaches {rules : Rules} {p q : Parser} (h : Spans rules p q) :
    Reaches rules p q :=
  h.closed (P := Reaches rules p) .refl fun _ _ ha hab => ha.tail hab.leads

/-! ### Properties of every node -/

/-- Every node that is reached has the property. -/
def Parser.Everywhere (rules : Rules) (ok : Parser → Prop) (p : Parser) : Prop :=
  ∀ q, Reaches rules p q → ok q

def Thunk.Everywhere (rules : Rules) (ok : Parser → Prop) (t : Thunk) : Prop :=
  ∀ q, t.target rules = .ok q → q.Everywhere rules ok

namespace Parser.Everywhere

variable {rules : Rules} {ok : Parser → Prop} {p q : Parser}

theorem here (h : p.Everywhere rules ok) : ok p := h p .refl

theorem of_leads (h : p.Everywhere rules ok) (hl : Leads rules p q) : q.Everywhere rules ok :=
  fun r hr => h r (.head hl hr)

theorem child (h : p.Everywhere rules ok) (hq : q ∈ p.children) : q.Everywhere rules ok :=
  h.of_leads (.child hq)

theorem thunk {t : Thunk} (h : p.Everywhere rules ok) (ht : p.thunk? = some t) :
    t.Everywhere rules ok :=
  fun _ hq => h.of_leads (.thunk ht hq)

theorem next {f : Value → Except Fault Parser} (h : p.Everywhere rules ok)
    (hf : p.next? = some f) {v : Value} (hq : f v = .ok q) : q.Everywhere rules ok :=
  h.of_leads (.next hf hq)

theorem of_parts (hk : ok p) (hc : ∀ q ∈ p.children, q.Everywhere rules ok)
    (ht : ∀ t, p.thunk? = some t → t.Everywhere rules ok)
    (hn : ∀ f v q, p.next? = some f → f v = .ok q → q.Everywhere rules ok) :
    p.Everywhere rules ok := by
  intro r hr
  rcases hr.cases_head with rfl | ⟨q, hl, hqr⟩
  · exact hk
  · cases hl with
    | child h => exact hc q h r hqr
    | thunk h hq => exact ht _ h q hq r hqr
    | next h hq => exact hn _ _ q h hq r hqr

theorem of_children (hk : ok p) (ht : p.thunk? = none) (hn : p.next? = none)
    (hc : ∀ q ∈ p.children, q.Everywhere rules ok) : p.Everywhere rules ok := by
  refine of_parts hk hc (fun t h => ?_) fun f v q h _ => ?_
  · rw [ht] at h
    cases h
  · rw [hn] at h
    cases h

/-- The nodes of a list that leads nowhere else, and that no function leads on from, are all that
one of them reaches. -/
theorem of_closed (nodes : List Parser) (hp : p ∈ nodes)
    (h : ∀ a ∈ nodes, ok a ∧ a.next? = none ∧ a.steps rules ⊆ nodes) : p.Everywhere rules ok := by
  intro q hq
  have hmem : q ∈ nodes := by
    refine hq.closed (P := (· ∈ nodes)) hp fun a b ha hab => ?_
    obtain ⟨-, hnext, hsteps⟩ := h a ha
    exact hsteps (hab.mem_steps hnext)
  exact (h q hmem).1

end Parser.Everywhere

/-! ### Parsers without bare nodes -/

/-- Every node that is reached is of a kind. -/
def Parser.Kinded (rules : Rules) (p : Parser) : Prop :=
  ∀ q, Reaches rules p q → q.isBare = false

def Thunk.Kinded (rules : Rules) (t : Thunk) : Prop :=
  ∀ q, t.target rules = .ok q → q.Kinded rules

namespace Parser.Kinded

variable {rules : Rules} {p q : Parser}

theorem isBare_eq (h : p.Kinded rules) : p.isBare = false := h p .refl

theorem child (h : p.Kinded rules) (hq : q ∈ p.children) : q.Kinded rules :=
  Everywhere.child h hq

theorem thunk {t : Thunk} (h : p.Kinded rules) (ht : p.thunk? = some t) : t.Kinded rules :=
  Everywhere.thunk h ht

theorem next {f : Value → Except Fault Parser} (h : p.Kinded rules) (hf : p.next? = some f)
    {v : Value} (hq : f v = .ok q) : q.Kinded rules :=
  Everywhere.next h hf hq

end Parser.Kinded

/-- What the constructors and combinators make: no bare nodes, no right side left by an optimizer,
and one thunk for each identity of a memoized node. -/
structure Parser.Made (rules : Rules) (p : Parser) : Prop where
  kinded : p.Kinded rules
  plain : ∀ {q : Parser} {t : Thunk}, Reaches rules p q → q.thunk? = some t → t.Plain
  single : ∀ {id : Nat} {t t' : Thunk}, Reaches rules p (.memoized id t) →
    Reaches rules p (.memoized id t') → t = t'

/-- A parser is made of constructors and combinators if its nodes, without memoized ones, are those
of a list that leads nowhere else. -/
theorem Parser.made_of_closed {rules : Rules} {p : Parser} (nodes : List Parser) (hp : p ∈ nodes)
    (h : ∀ a ∈ nodes, (a.isBare = false ∧ (∀ t, a.thunk? = some t → t.Plain) ∧
      ∀ id t, a ≠ .memoized id t) ∧ a.next? = none ∧ a.steps rules ⊆ nodes) : p.Made rules := by
  have hall := Parser.Everywhere.of_closed nodes hp h
  exact ⟨fun q hq => (hall q hq).1, fun hq ht => (hall _ hq).2.1 _ ht,
    fun hq _ => absurd rfl ((hall _ hq).2.2 _ _)⟩

/-- No right side that optimizing can come to lacks its rule. -/
def Parser.Defined (rules : Rules) (p : Parser) : Prop :=
  ∀ id left right, Spans rules p (.orElse id left right) → ∃ q, right.target rules = .ok q

theorem Parser.Defined.of_spreads {rules : Rules} {p q : Parser} (hp : p.Defined rules)
    (h : Spreads rules p q) : q.Defined rules :=
  fun id left right hs => hp id left right (.head h hs)

end ParserAlgebra
