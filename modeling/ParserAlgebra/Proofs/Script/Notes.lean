import ParserAlgebra.Parse
import ParserAlgebra.Proofs.Noted
import ParserAlgebra.Proofs.Reach
import ParserAlgebra.Proofs.Script.Watch

/-!
# Notes on nodes

A run with notes tells which nodes were tried, what each heard from the parsers that it ran, when it
called its thunk, and which parser it was given. Only three kinds of nodes have thunks, and each has
one moment at which it asks for its parser: a choice when its left side rejects, the others as soon
as they are tried.
-/

namespace ParserAlgebra

open Noted

inductive Note where
  | tried (p : Parser)
  /-- The reply of the parser that a node ran; the first one since it was tried has number 0. -/
  | heard (p : Parser) (number : Nat) (reply : Reply)
  /-- A node calls its thunk, and one whose thunk is optimized the original one. -/
  | called (p : Parser)
  /-- The parser that a node asked for. -/
  | given (p q : Parser)

/-- What a thunk gives to a node that asks for its parser. -/
def Thunk.noted (rules : Rules) (p : Parser) : Nat → Thunk → Noted Note Parser
  | 0, _ => silent Run.exhaust
  | n + 1, .optimized cell source =>
    once (.right cell) (.called p) do
      let q ← source.call rules n
      optimizeWith (Thunk.call rules n) n q
  | n + 1, t => (note (.called p)).bind fun _ => silent (t.call rules (n + 1))

theorem Thunk.erase_noted (rules : Rules) (p : Parser) (n : Nat) (t : Thunk) :
    (t.noted rules p n).erase = t.call rules n := by
  cases n with
  | zero => rfl
  | succ n => cases t <;> rfl

def Script.noted {α : Type} (rules : Rules) (n : Nat) (sub : Parser → Nat → Noted Note Reply)
    (p : Parser) : Nat → Script α → Noted Note α
  | _, .done a => silent (pure a)
  | k, .returned rest => rest.noted rules n sub p k
  | _, .raised f => silent (Run.raise f)
  | k, .run q i next =>
    (sub q i).bind fun r => (note (.heard p k r)).bind fun _ => (next r).noted rules n sub p (k + 1)
  | k, .call t next =>
    (t.noted rules p n).bind fun q => (note (.given p q)).bind fun _ =>
      (next q).noted rules n sub p k
  | k, .force id t next =>
    (once (.node id) (.called p) (t.call rules n)).bind fun q => (note (.given p q)).bind fun _ =>
      (next q).noted rules n sub p k
  | k, .settle (.left s) again _ => (again s).noted rules n sub p k
  | k, .settle (.right w) _ last => (last w).noted rules n sub p k
  | _, .settle v _ _ => silent (Run.raise (.notAStep v.shown))
  | _, .broken f => silent (Run.raise f)
  | _, .exhaust => silent Run.exhaust

def notedStep (cx : Context) (n : Nat) (sub : Parser → Nat → Noted Note Reply) (p : Parser)
    (i : Nat) : Noted Note Reply :=
  match p.unknownTag? with
  | some tag => silent (Run.raise (.unimplemented tag))
  | none =>
    (silent (announce cx p i)).bind fun _ => (note (.tried p)).bind fun _ =>
      ((nodeScript cx n p i).noted cx.rules n sub p 0).bind fun reply =>
        silent (conclude cx p reply)

/-- The run of a parser at an offset, with notes. -/
def interpretNoted (cx : Context) : Nat → Parser → Nat → Noted Note Reply
  | 0, _, _ => silent Run.exhaust
  | n + 1, p, i => notedStep cx n (interpretNoted cx n) p i

/-- The run of a parser over a text, with notes. -/
def evaluateNoted (rules : Rules) (depth : Nat) (p : Parser) (input : String) (trace : Bool) :
    Noted Note Result :=
  (interpretNoted { rules, text := input.toList.toArray, trace } depth p 0).bind fun reply =>
    silent (pure { input, reply })

/-! ### Erasure -/

theorem Script.erase_noted {α : Type} (rules : Rules) (n : Nat)
    (sub : Parser → Nat → Noted Note Reply) (p : Parser) (k : Nat) (s : Script α) :
    (s.noted rules n sub p k).erase = s.exec rules n fun q i => (sub q i).erase := by
  induction s generalizing k with
  | done | raised | broken | exhaust => rfl
  | returned rest ih => exact ih k
  | run q i next ih => simp only [noted, exec, erase_bind, erase_note, pure_bind, ih]
  | call t next ih =>
    simp only [noted, exec, erase_bind, erase_note, pure_bind, Thunk.erase_noted, ih]
  | force id t next ih => simp only [noted, exec, erase_bind, erase_note, pure_bind, erase_once, ih]
  | settle v again last ihagain ihlast =>
    cases v with
    | left s => exact ihagain s k
    | right w => exact ihlast w k
    | _ => rfl

theorem erase_interpretNoted (cx : Context) (n : Nat) (p : Parser) (i : Nat) :
    (interpretNoted cx n p i).erase = interpret cx n p i := by
  induction n generalizing p i with
  | zero => rfl
  | succ n ih =>
    have hsub : (fun p i => (interpretNoted cx n p i).erase) = interpret cx n := by
      funext p i
      exact ih p i
    rw [interpretNoted, interpret, notedStep, step_eq]
    cases p.unknownTag? with
    | some tag => rfl
    | none =>
      simp only [erase_bind, erase_note, pure_bind, Script.erase_noted, hsub, nodeReply_eq,
        erase_silent]

theorem erase_evaluateNoted (rules : Rules) (depth : Nat) (p : Parser) (input : String)
    (trace : Bool) :
    (evaluateNoted rules depth p input trace).erase = evaluate rules depth p input trace := by
  rw [evaluateNoted, erase_bind, erase_interpretNoted]
  rfl

/-! ### Scripts without thunks -/

/-- A script that asks for no thunk, and runs only parsers with the property. -/
def Script.Calm {α : Type} (C : Parser → Prop) : Script α → Prop
  | .done _ => True
  | .returned rest => rest.Calm C
  | .raised _ => True
  | .run q _ next => C q ∧ ∀ r, (next r).Calm C
  | .call _ _ => False
  | .force _ _ _ => False
  | .settle _ again last => (∀ s, (again s).Calm C) ∧ ∀ w, (last w).Calm C
  | .broken _ => True
  | .exhaust => True

section

variable {α β σ : Type} {C : Parser → Prop} {p q : Parser}

theorem Script.Calm.bind {x : Script α} {f : α → Script β} (hx : x.Calm C)
    (hf : ∀ a, (f a).Calm C) : (x >>= f).Calm C := by
  change (x.bind f).Calm C
  induction x with
  | done a => exact hf a
  | returned rest ih => exact ih hx
  | raised | broken | exhaust => trivial
  | run q i next ih => exact ⟨hx.1, fun r => ih r (hx.2 r)⟩
  | call | force => exact hx.elim
  | settle v again last ihagain ihlast =>
    exact ⟨fun s => ihagain s (hx.1 s), fun w => ihlast w (hx.2 w)⟩

theorem ask_calm {e : Except Fault α} {f : α → Script β} (hf : ∀ a, e = .ok a → (f a).Calm C) :
    (Script.ask e >>= f).Calm C := by
  cases e with
  | ok a => exact hf a rfl
  | error g => trivial

theorem onward_calm {i : Nat} {next : Value → Nat → Script Reply} (hq : C q)
    (hnext : ∀ v stop, (next v stop).Calm C) : (Script.onward q i next).Calm C := by
  refine ⟨hq, fun r => ?_⟩
  cases r with
  | accept v stop => exact hnext v stop
  | reject why start => trivial

theorem greedyScript_calm {append : σ → Value → Except Fault σ} (hq : C q) (budget : Nat)
    (state : σ) (i : Nat) : (greedyScript q append budget state i).Calm C := by
  induction budget generalizing state i with
  | zero => trivial
  | succ budget ih =>
    refine ⟨hq, fun r => ?_⟩
    cases r with
    | reject why start => trivial
    | accept v stop =>
      dsimp only
      split
      · trivial
      · exact ask_calm fun s _ => ih s stop

theorem upToScript_calm {join : Value → Value → Except Fault Value} (hq : C q)
    (more count : Nat) (value : Value) (i : Nat) :
    (upToScript q join more count value i).Calm C := by
  induction more generalizing count value i with
  | zero => trivial
  | succ more ih =>
    refine ⟨hq, fun r => ?_⟩
    cases r with
    | reject why start => trivial
    | accept v stop => exact ask_calm fun w _ => ih (count + 1) w stop

theorem roundsScript_calm {next : Value → Except Fault Parser} (hnext : ∀ v q, next v = .ok q → C q)
    (n : Nat) (seed : Value) (i : Nat) : (roundsScript next n seed i).Calm C := by
  induction n generalizing seed i with
  | zero => trivial
  | succ n ih =>
    exact ask_calm fun q hq => onward_calm (hnext _ _ hq) fun v stop =>
      ⟨fun s => ih s stop, fun _ => trivial⟩

/-- A node without a thunk runs its children and what its function returns. -/
theorem nodeScript_calm {cx : Context} {n i : Nat} (hp : p.thunk? = none)
    (hchild : ∀ q ∈ p.children, C q)
    (hnext : ∀ f v q, p.next? = some f → f v = .ok q → C q) : (nodeScript cx n p i).Calm C := by
  cases p with
  | literal | char | constant | identity | fail => trivial
  | charWhere id predicate description =>
    change (testScript _ _ _ _).Calm C
    unfold testScript
    split
    · trivial
    · exact ask_calm fun _ _ => trivial
  | map id source fn =>
    exact onward_calm (hchild _ (.head _)) fun _ _ => ask_calm fun _ _ => trivial
  | bind id source label next =>
    exact onward_calm (hchild _ (.head _)) fun _ _ => ask_calm fun q hq =>
      ⟨hnext _ _ q rfl hq, fun _ => trivial⟩
  | product id left right =>
    exact onward_calm (hchild _ (.head _)) fun _ _ =>
      onward_calm (hchild _ (.tail _ (.head _))) fun _ _ => trivial
  | both id left right combine =>
    exact onward_calm (hchild _ (.head _)) fun _ _ =>
      onward_calm (hchild _ (.tail _ (.head _))) fun _ _ => ask_calm fun _ _ => trivial
  | many id source identity combine =>
    exact (greedyScript_calm (hchild _ (.head _)) _ _ _).bind fun _ => trivial
  | manyBetween id source minimum maximum identity combine =>
    exact (upToScript_calm (hchild _ (.head _)) _ _ _ _).bind fun _ => trivial
  | collect id source minimum accumulator =>
    refine ask_calm fun start _ => (greedyScript_calm (hchild _ (.head _)) _ _ _).bind fun r => ?_
    split
    · trivial
    · exact ask_calm fun _ _ => trivial
  | loop id label next seed => exact roundsScript_calm (fun v q hq => hnext _ v q rfl hq) n seed i
  | bare id tag payload children =>
    simp only [nodeScript]
    split <;> trivial
  | orElse | delayed | memoized => cases hp

end

/-! ### Ledgers of runs -/

/-- The note after which a node asks for its parser. -/
def Note.opens : Note → Bool
  | .tried (.delayed ..) => true
  | .tried (.memoized ..) => true
  | .heard (.orElse ..) 0 (.reject ..) => true
  | _ => false

/-- What a node does that asks for its parser. -/
def Parser.asked (rules : Rules) (n : Nat) (p : Parser) : Noted Note Parser :=
  match p with
  | .orElse _ _ right => right.noted rules p n
  | .delayed _ thunk => thunk.noted rules p n
  | .memoized id thunk => once (.node id) (.called p) (thunk.call rules n)
  | _ => silent Run.exhaust

/-- A node asks for its parser, from the note that opens this to the note of the parser. -/
def Parser.asking (rules : Rules) (n : Nat) (opening : Note) (p : Parser) : Noted Note Parser :=
  (note opening).bind fun _ => (p.asked rules n).bind fun q => (note (.given p q)).bind fun _ =>
    silent (pure q)

theorem Parser.asking_of_ok {rules : Rules} {n : Nat} {opening : Note} {p q : Parser} {m : Memory}
    (h : (p.asked rules n m).outcome = .ok q) : p.asking rules n opening m =
      ⟨.ok q, (p.asked rules n m).memory,
        opening :: ((p.asked rules n m).notes ++ [.given p q])⟩ := by
  rw [asking, note_bind, bind_of_ok h]
  rfl

theorem Parser.asking_of_error {rules : Rules} {n : Nat} {opening : Note} {p : Parser} {m : Memory}
    {halt : Halt} (h : (p.asked rules n m).outcome = .error halt) : p.asking rules n opening m =
      ⟨.error halt, (p.asked rules n m).memory, opening :: (p.asked rules n m).notes⟩ := by
  rw [asking, note_bind, bind_of_error h]

/-- A ledger that covers runs of the parsers which `D` allows in a memory: it holds for each note by
itself, unless the node asks for its parser, and then for all that is noted up to this parser. -/
structure Ledger.Covers (L : Ledger Note) (counts : Halt → Prop) (rules : Rules)
    (D : Memory → Parser → Prop) : Prop where
  mono : ∀ {m m' notes p}, L.rel m notes m' → D m p → D m' p
  child : ∀ {m p q}, D m p → q ∈ p.children → D m q
  next : ∀ {m p q f v}, D m p → p.next? = some f → f v = .ok q → D m q
  write : ∀ m entry, L.rel m [] (m.write entry)
  tried : ∀ {m p}, D m p → (Note.tried p).opens = false → L.rel m [.tried p] m
  heard : ∀ {m p k r}, D m p → (Note.heard p k r).opens = false → L.rel m [.heard p k r] m
  asks : ∀ {m p opening} n, D m p → (opening = .tried p ∨ ∃ r, opening = .heard p 0 r) →
    opening.opens = true → (p.asking rules n opening m).Keeps L counts m ∧
      ∀ q, (p.asking rules n opening m).outcome = .ok q → D (p.asking rules n opening m).memory q

namespace Ledger.Covers

variable {L : Ledger Note} {counts : Halt → Prop} {cx : Context} {D : Memory → Parser → Prop}
  {sub : Parser → Nat → Noted Note Reply} {m : Memory} {p : Parser} {n i : Nat}

theorem silent_announce (h : L.Covers counts cx.rules D) (p : Parser) (i : Nat) (m : Memory) :
    (silent (announce cx p i) m).Keeps L counts m := by
  unfold announce
  split
  · exact fun _ => h.write m _
  · exact .still rfl

theorem silent_conclude (h : L.Covers counts cx.rules D) (p : Parser) (r : Reply) (m : Memory) :
    (silent (conclude cx p r) m).Keeps L counts m := by
  cases r with
  | accept v stop => exact .still rfl
  | reject why start =>
    unfold conclude
    cases cx.trace with
    | false => exact .still rfl
    | true => exact fun _ => h.write m _

/-- The node runs a parser and hears its reply. -/
theorem running (h : L.Covers counts cx.rules D)
    (hsub : ∀ q i m, D m q → (sub q i m).Keeps L counts m) {α : Type} {q : Parser} {k : Nat}
    {next : Reply → Noted Note α} (hp : D m p) (hq : D m q)
    (hopens : ∀ r, (Note.heard p k r).opens = false)
    (hnext : ∀ r m', D m' p → (∀ q, D m q → D m' q) → (next r m').Keeps L counts m') :
    (((sub q i).bind fun r => (note (.heard p k r)).bind fun _ => next r) m).Keeps L counts m := by
  refine .bind (hsub q i m hq) fun r _ hrel => ?_
  exact .bind (.note (h.heard (h.mono hrel hp) (hopens r))) fun _ _ _ =>
    hnext r _ (h.mono hrel hp) fun q hq => h.mono hrel hq

theorem calm (h : L.Covers counts cx.rules D)
    (hsub : ∀ q i m, D m q → (sub q i m).Keeps L counts m) {α : Type} {C : Parser → Prop}
    {s : Script α} (hs : s.Calm C) (hopens : ∀ k r, (Note.heard p k r).opens = false) (k : Nat)
    (hp : D m p) (hC : ∀ q, C q → D m q) : (s.noted cx.rules n sub p k m).Keeps L counts m := by
  induction s generalizing m k with
  | done | raised | broken | exhaust => exact .still rfl
  | returned rest ih => exact ih hs k hp hC
  | run q i next ih =>
    exact h.running hsub hp (hC q hs.1) (hopens k) fun r m' hp' hmono =>
      ih r (hs.2 r) (k + 1) hp' fun q hq => hmono q (hC q hq)
  | call | force => exact hs.elim
  | settle v again last ihagain ihlast =>
    cases v with
    | left s => exact ihagain s (hs.1 s) k hp hC
    | right w => exact ihlast w (hs.2 w) k hp hC
    | _ => exact .still rfl

/-- The node asks for its parser and runs it. -/
theorem asking_then (h : L.Covers counts cx.rules D)
    (hsub : ∀ q i m, D m q → (sub q i m).Keeps L counts m) {opening : Note} {k : Nat} (hp : D m p)
    (hopening : opening = .tried p ∨ ∃ r, opening = .heard p 0 r) (hopens : opening.opens = true)
    (hquiet : ∀ r, (Note.heard p k r).opens = false) :
    (((p.asking cx.rules n opening).bind fun q => (sub q i).bind fun r =>
      (note (.heard p k r)).bind fun _ => silent (conclude cx p r)) m).Keeps L counts m := by
  obtain ⟨hkeeps, hgiven⟩ := h.asks n hp hopening hopens
  exact .bind hkeeps fun q hq hrel => h.running hsub (h.mono hrel hp) (hgiven q hq) hquiet
    fun r m' _ _ => h.silent_conclude p r m'

/-- One node, from the note that it is tried, given that the parsers below it are covered. -/
theorem trial (h : L.Covers counts cx.rules D)
    (hsub : ∀ q i m, D m q → (sub q i m).Keeps L counts m) (hp : D m p) :
    (((note (.tried p)).bind fun _ => ((nodeScript cx n p i).noted cx.rules n sub p 0).bind
      fun reply => silent (conclude cx p reply)) m).Keeps L counts m := by
  cases hthunk : p.thunk? with
  | none =>
    have htried : (Note.tried p).opens = false := by cases p <;> first | rfl | cases hthunk
    have hheard (k r) : (Note.heard p k r).opens = false := by
      cases p <;> first | rfl | cases hthunk
    have hscript : (nodeScript cx n p i).Calm (D m) :=
      nodeScript_calm hthunk (fun q hq => h.child hp hq) fun f v q hf hq => h.next hp hf hq
    refine .bind (.note (h.tried hp htried)) fun _ _ _ => ?_
    exact .bind (h.calm hsub hscript hheard 0 hp fun _ hq => hq) fun r _ _ =>
      h.silent_conclude p r _
  | some t =>
    cases p with
    | delayed id thunk | memoized id thunk =>
      simpa only [nodeScript, Script.noted, bind_assoc, silent_pure_bind, Parser.asking,
        Parser.asked] using h.asking_then (k := 0) (n := n) (i := i) hsub hp (.inl rfl) rfl
          fun _ => rfl
    | orElse id left right =>
      refine .bind (.note (h.tried hp rfl)) fun _ _ _ => ?_
      simp only [nodeScript, Script.noted, bind_assoc]
      refine .bind (hsub left i m (h.child hp (.head _))) fun r _ hrel => ?_
      replace hp := h.mono hrel hp
      cases r with
      | accept v stop =>
        exact .bind (.note (h.heard hp rfl)) fun _ _ _ => h.silent_conclude _ _ _
      | reject why start =>
        simpa only [Script.noted, bind_assoc, silent_pure_bind, Parser.asking,
          Parser.asked] using h.asking_then (k := 1) (n := n) (i := i) hsub hp (.inr ⟨_, rfl⟩) rfl
            fun _ => rfl
    | _ => cases hthunk

/-- One node, given that the parsers below it are covered. -/
theorem step (h : L.Covers counts cx.rules D)
    (hsub : ∀ q i m, D m q → (sub q i m).Keeps L counts m) (hp : D m p) :
    (notedStep cx n sub p i m).Keeps L counts m := by
  unfold notedStep
  cases p.unknownTag? with
  | some tag => exact .still rfl
  | none =>
    refine .bind (h.silent_announce p i m) fun _ _ hrel => ?_
    replace hp := h.mono hrel hp
    generalize (silent (announce cx p i) m).memory = m at hp ⊢
    exact h.trial hsub hp

/-- Runs of any depth. -/
theorem interpret (h : L.Covers counts cx.rules D) (n : Nat) (p : Parser) (i : Nat) (m : Memory)
    (hp : D m p) : (interpretNoted cx n p i m).Keeps L counts m := by
  induction n generalizing p i m with
  | zero => exact .still rfl
  | succ n ih => exact h.step ih hp

theorem evaluate {rules : Rules} (h : L.Covers counts rules D) (depth : Nat) (input : String)
    (trace : Bool) (hp : D m p) :
    (evaluateNoted rules depth p input trace m).Keeps L counts m := by
  let cx : Context := { rules, text := input.toList.toArray, trace }
  have hrun : (interpretNoted cx depth p 0 m).Keeps L counts m := h.interpret depth p 0 m hp
  exact .bind hrun fun _ _ _ => .still rfl

end Ledger.Covers

end ParserAlgebra
