import ParserAlgebra.Proofs.Offset
import ParserAlgebra.Proofs.Script

/-!
# What the scripts of nodes ask for

Below a parser that constructors and combinators made, the script of a node runs only parsers that
are reached from there, at offsets of the text, calls only plain thunks and is never broken. A reply
that rejects is either one that was heard from a parser that the node ran, or the node's own, and
then it rejects at the offset where the node was tried.
-/

namespace ParserAlgebra

open Script

/-- The tags of the nodes that reject for reasons of their own. -/
def rejectingTags : List String :=
  ["literal", "char", "char_where", "fail", "repeat_between", "repeat_accumulator"]

section

variable (rules : Rules) (root : Parser) (size : Nat) {α β σ : Type}

/-- A script asks only for what may be asked, and its value has the property, given the replies
heard up to then. -/
def Script.Sound (Q : List Reply → α → Prop) : List Reply → Script α → Prop
  | heard, .done a => Q heard a
  | heard, .returned rest => rest.Sound Q heard
  | _, .raised _ => True
  | heard, .run p i next =>
    (Reaches rules root p ∧ i ≤ size) ∧
      ∀ r : Reply, r.Within i size → (next r).Sound Q (r :: heard)
  | heard, .call t next => t.Plain ∧ ∀ p, t.target rules = .ok p → (next p).Sound Q heard
  | heard, .force id t next =>
    Reaches rules root (.memoized id t) ∧ ∀ p, t.target rules = .ok p → (next p).Sound Q heard
  | heard, .settle v again last =>
    (∀ s, v = .left s → (again s).Sound Q heard) ∧ ∀ w, v = .right w → (last w).Sound Q heard
  | _, .broken _ => False
  | _, .exhaust => True

/-- What a node may answer: an offset between where it was tried and the end of the text, and a
rejection only that was heard or that is the node's own. -/
def Parser.Answers (p : Parser) (i : Nat) (heard : List Reply) (r : Reply) : Prop :=
  r.Within i size ∧ ∀ why start, r = .reject why start →
    r ∈ heard ∨ start = i ∧ p.tag ∈ rejectingTags

variable {rules root size}

namespace Script.Sound

theorem bind {Q : List Reply → α → Prop} {R : List Reply → β → Prop} {f : α → Script β}
    {x : Script α} {heard : List Reply} (hx : x.Sound rules root size Q heard)
    (hf : ∀ heard a, Q heard a → (f a).Sound rules root size R heard) :
    (x >>= f).Sound rules root size R heard := by
  change (x.bind f).Sound rules root size R heard
  induction x generalizing heard with
  | done a => exact hf heard a hx
  | returned rest ih => exact ih hx
  | raised | exhaust => trivial
  | broken => exact hx
  | run p i next ih => exact ⟨hx.1, fun r hr => ih r (hx.2 r hr)⟩
  | call t next ih | force id t next ih => exact ⟨hx.1, fun p hp => ih p (hx.2 p hp)⟩
  | settle v again last ihagain ihlast =>
    exact ⟨fun s hs => ihagain s (hx.1 s hs), fun w hw => ihlast w (hx.2 w hw)⟩

/-- A function that was given to a node may return anything that it can return. -/
theorem ask {Q : List Reply → β → Prop} {e : Except Fault α} {f : α → Script β}
    {heard : List Reply} (hf : ∀ a, e = .ok a → (f a).Sound rules root size Q heard) :
    (Script.ask e >>= f).Sound rules root size Q heard := by
  cases e with
  | ok a => exact hf a rfl
  | error g => trivial

end Script.Sound

end

section

variable {rules : Rules} {root p q : Parser} {size i j : Nat} {heard : List Reply} {σ : Type}

/-- A loop stops inside the text. -/
theorem greedyScript_sound {append : σ → Value → Except Fault σ} (hp : Reaches rules root p)
    (budget : Nat) (state : σ) (hj : i ≤ j ∧ j ≤ size) :
    (greedyScript p append budget state j).Sound rules root size
      (fun _ r => i ≤ r.2 ∧ r.2 ≤ size) heard := by
  induction budget generalizing state j heard with
  | zero => trivial
  | succ budget ih =>
    refine ⟨⟨hp, hj.2⟩, fun r hr => ?_⟩
    cases r with
    | reject why start => exact hj
    | accept v stop =>
      dsimp only
      split
      · exact hj
      · exact .ask fun s _ => ih s ⟨hj.1.trans hr.1, hr.2⟩

theorem upToScript_sound {join : Value → Value → Except Fault Value} (hp : Reaches rules root p)
    (more count : Nat) (value : Value) (hj : i ≤ j ∧ j ≤ size) :
    (upToScript p join more count value j).Sound rules root size
      (fun _ r => i ≤ r.2.2 ∧ r.2.2 ≤ size) heard := by
  induction more generalizing count value j heard with
  | zero => exact hj
  | succ more ih =>
    refine ⟨⟨hp, hj.2⟩, fun r hr => ?_⟩
    cases r with
    | reject why start => exact hj
    | accept v stop => exact .ask fun w _ => ih (count + 1) w ⟨hj.1.trans hr.1, hr.2⟩

/-- What was heard last may be the answer. -/
theorem Parser.Answers.of_heard {r : Reply} (hij : i ≤ j) (hr : r.Within j size) :
    p.Answers size i (r :: heard) r :=
  ⟨hr.of_le hij, fun _ _ _ => .inl (List.mem_cons_self ..)⟩

theorem Parser.Answers.accept {v : Value} (hj : i ≤ j ∧ j ≤ size) :
    p.Answers size i heard (.accept v j) :=
  ⟨hj, fun _ _ h => nomatch h⟩

theorem Parser.Answers.reject {why : Reason} (hi : i ≤ size) (hp : p.tag ∈ rejectingTags) :
    p.Answers size i heard (.reject why i) := by
  refine ⟨⟨Nat.le_refl i, hi⟩, fun _ start h => ?_⟩
  cases h
  exact .inr ⟨rfl, hp⟩

/-- The reply of a parser that is run last is the answer. -/
theorem run_sound (hq : Reaches rules root q) (hj : i ≤ j ∧ j ≤ size) :
    (Script.run q j .done).Sound rules root size (p.Answers size i) heard :=
  ⟨⟨hq, hj.2⟩, fun _ hr => .of_heard hj.1 hr⟩

theorem onward_sound {next : Value → Nat → Script Reply} (hq : Reaches rules root q)
    (hj : i ≤ j ∧ j ≤ size) (hnext : ∀ heard v stop, i ≤ stop ∧ stop ≤ size →
      (next v stop).Sound rules root size (p.Answers size i) heard) :
    (onward q j next).Sound rules root size (p.Answers size i) heard := by
  refine ⟨⟨hq, hj.2⟩, fun r hr => ?_⟩
  cases r with
  | reject why start => exact .of_heard hj.1 hr
  | accept v stop => exact hnext _ v stop ⟨hj.1.trans hr.1, hr.2⟩

theorem roundsScript_sound {next : Value → Except Fault Parser}
    (hnext : ∀ v q, next v = .ok q → Reaches rules root q) (n : Nat) (seed : Value)
    (hj : i ≤ j ∧ j ≤ size) :
    (roundsScript next n seed j).Sound rules root size (p.Answers size i) heard := by
  induction n generalizing seed j heard with
  | zero => trivial
  | succ n ih =>
    refine .ask fun q hq => onward_sound (hnext _ _ hq) hj fun heard v stop hstop => ?_
    exact ⟨fun s _ => ih s hstop, fun w _ => .accept hstop⟩

theorem charReply_answers (id : Nat) (text : Array Char) (c : Char) (hi : i ≤ text.size) :
    (Parser.char id c).Answers text.size i heard (charReply text i c) := by
  unfold charReply
  cases hd : text[i]? with
  | none => exact .reject hi (by simp [Parser.tag, rejectingTags])
  | some d =>
    dsimp only
    split
    · exact .accept ⟨Nat.le_succ i, (Array.getElem?_eq_some_iff.1 hd).1⟩
    · exact .reject hi (by simp [Parser.tag, rejectingTags])

theorem testScript_sound {text : Array Char} {predicate : Predicate} {description : String}
    (hp : p.tag ∈ rejectingTags) (hi : i ≤ text.size) :
    (testScript text i predicate description).Sound rules root text.size
      (p.Answers text.size i) heard := by
  unfold testScript
  cases hc : text[i]? with
  | none => exact .reject hi hp
  | some c =>
    refine .ask fun holds _ => ?_
    cases holds with
    | false => exact Parser.Answers.reject hi hp
    | true => exact Parser.Answers.accept ⟨Nat.le_succ i, (Array.getElem?_eq_some_iff.1 hc).1⟩

theorem fixedText_answers (id : Nat) (text : Array Char) (wanted : String) (hi : i ≤ text.size) :
    (Parser.literal id wanted).Answers text.size i heard (fixedText text i wanted) := by
  refine ⟨fixedText_within hi wanted, fun why start h => ?_⟩
  unfold fixedText at h
  split at h
  · cases h
  · cases h
    exact .inr ⟨rfl, by simp [Parser.tag, rejectingTags]⟩

/-- The script of a node below a parser that constructors and combinators made. -/
theorem nodeScript_sound {cx : Context} (hroot : root.Made cx.rules) (n : Nat)
    (hp : Reaches cx.rules root p) (hi : i ≤ cx.text.size) :
    (nodeScript cx n p i).Sound cx.rules root cx.text.size (p.Answers cx.text.size i) heard := by
  have here : i ≤ i ∧ i ≤ cx.text.size := ⟨Nat.le_refl i, hi⟩
  have child : ∀ {q}, q ∈ p.children → Reaches cx.rules root q := fun h => hp.tail (.child h)
  cases p with
  | literal id wanted => exact fixedText_answers id _ _ hi
  | char id c => exact charReply_answers id _ _ hi
  | charWhere => exact testScript_sound (by simp [Parser.tag, rejectingTags]) hi
  | constant | identity => exact Parser.Answers.accept here
  | fail => exact Parser.Answers.reject hi (by simp [Parser.tag, rejectingTags])
  | map id source fn =>
    exact onward_sound (child (.head _)) here fun _ v stop hstop => .ask fun _ _ => .accept hstop
  | bind id source label next =>
    exact onward_sound (child (.head _)) here fun _ v stop hstop =>
      .ask fun q hq => run_sound (hp.tail (.next rfl hq)) hstop
  | product id left right =>
    exact onward_sound (child (.head _)) here fun _ v stop hstop =>
      onward_sound (child (.tail _ (.head _))) hstop fun _ w last hlast => .accept hlast
  | both id left right combine =>
    exact onward_sound (child (.head _)) here fun _ v stop hstop =>
      onward_sound (child (.tail _ (.head _))) hstop fun _ w last hlast =>
        .ask fun _ _ => .accept hlast
  | orElse id left right =>
    refine ⟨⟨child (.head _), hi⟩, fun r hr => ?_⟩
    cases r with
    | accept v stop => exact .accept hr
    | reject why start =>
      exact ⟨hroot.plain hp rfl, fun q hq => run_sound (hp.tail (.thunk rfl hq)) here⟩
  | many id source identity combine =>
    exact .bind (greedyScript_sound (child (.head _)) _ _ here) fun _ r hr => .accept hr
  | manyBetween id source minimum maximum identity combine =>
    refine .bind (upToScript_sound (child (.head _)) _ _ _ here) fun _ r hr => ?_
    dsimp only [Script.Sound]
    split
    · exact .reject hi (by simp [Parser.tag, rejectingTags])
    · exact .accept hr
  | collect id source minimum accumulator =>
    refine .ask fun start _ =>
      .bind (greedyScript_sound (child (.head _)) _ _ here) fun _ r hr => ?_
    split
    · exact Parser.Answers.reject hi (by simp [Parser.tag, rejectingTags])
    · exact .ask fun _ _ => .accept hr
  | delayed id thunk =>
    exact ⟨hroot.plain hp rfl, fun q hq => run_sound (hp.tail (.thunk rfl hq)) here⟩
  | memoized id thunk => exact ⟨hp, fun q hq => run_sound (hp.tail (.thunk rfl hq)) here⟩
  | loop id label next seed =>
    exact roundsScript_sound (fun v q hq => hp.tail (.next rfl hq)) n seed here
  | bare => cases hroot.kinded _ hp

end

end ParserAlgebra
