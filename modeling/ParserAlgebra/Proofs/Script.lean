import Mathlib
import ParserAlgebra.Evaluation

/-!
# Scripts of nodes

What a node does, written down as the operations it asks for in order: runs of other parsers, calls
of thunks and of the functions it was given. A script has no operation that takes a fault back. The
scripts say what the evaluation does: executing one gives the reply of its node.
-/

namespace ParserAlgebra

inductive Script (α : Type) where
  | done (value : α)
  /-- A given function was called and returned. -/
  | returned (rest : Script α)
  /-- A given function was called and raised a fault. -/
  | raised (f : Fault)
  | run (p : Parser) (i : Nat) (next : Reply → Script α)
  | call (t : Thunk) (next : Parser → Script α)
  /-- The thunk of a memoized node is called if its cell is empty. -/
  | force (id : Nat) (t : Thunk) (next : Parser → Script α)
  /-- A value that has to be a step tells how to go on. -/
  | settle (v : Value) (again last : Value → Script α)
  /-- The node lacks what its kind has. -/
  | broken (f : Fault)
  | exhaust

namespace Script

variable {α β : Type}

def bind : Script α → (α → Script β) → Script β
  | .done a, f => f a
  | .returned rest, f => .returned (rest.bind f)
  | .raised e, _ => .raised e
  | .run p i next, f => .run p i fun r => (next r).bind f
  | .call t next, f => .call t fun p => (next p).bind f
  | .force id t next, f => .force id t fun p => (next p).bind f
  | .settle v again last, f => .settle v (fun s => (again s).bind f) fun w => (last w).bind f
  | .broken e, _ => .broken e
  | .exhaust, _ => .exhaust

instance : Bind Script := ⟨bind⟩

/-- The outcome of a function that was given to the node. -/
def ask : Except Fault α → Script α
  | .ok a => .returned (.done a)
  | .error f => .raised f

/-- Goes on after an acceptance; a rejection is the answer. -/
def onward (p : Parser) (i : Nat) (next : Value → Nat → Script Reply) : Script Reply :=
  .run p i fun
    | .accept v stop => next v stop
    | .reject why start => .done (.reject why start)

/-! ### Execution -/

def exec (rules : Rules) (n : Nat) (sub : Runner) : Script α → Run α
  | .done a => pure a
  | .returned rest => rest.exec rules n sub
  | .raised f => Run.raise f
  | .run p i next => do (next (← sub p i)).exec rules n sub
  | .call t next => do (next (← t.call rules n)).exec rules n sub
  | .force id t next => do (next (← Run.once (.node id) (t.call rules n))).exec rules n sub
  | .settle (.left s) again _ => (again s).exec rules n sub
  | .settle (.right w) _ last => (last w).exec rules n sub
  | .settle v _ _ => Run.raise (.notAStep v.shown)
  | .broken f => Run.raise f
  | .exhaust => Run.exhaust

section

variable {rules : Rules} {n : Nat} {sub : Runner}

theorem exec_bind (x : Script α) (f : α → Script β) :
    (x >>= f).exec rules n sub =
      x.exec rules n sub >>= fun a => (f a).exec rules n sub := by
  change (x.bind f).exec rules n sub = _
  induction x with
  | done a => simp only [bind, exec, pure_bind]
  | returned rest ih => exact ih
  | raised e | broken e | exhaust => rfl
  | run p i next ih | call t next ih | force id t next ih => simp only [bind, exec, ih, bind_assoc]
  | settle v again last ihagain ihlast =>
    cases v with
    | left s => exact ihagain s
    | right w => exact ihlast w
    | _ => rfl

@[simp] theorem exec_ask (e : Except Fault α) : (ask e).exec rules n sub = Run.ofExcept e := by
  cases e <;> rfl

theorem exec_onward (p : Parser) (i : Nat) (next : Value → Nat → Script Reply) :
    (onward p i next).exec rules n sub =
      (sub p i).andThen fun v stop => (next v stop).exec rules n sub := by
  simp only [onward, exec, Run.andThen]
  congr 1
  funext reply
  cases reply <;> rfl

end

end Script

/-! ### Scripts of loops -/

open Script

variable {σ : Type}

def greedyScript (p : Parser) (append : σ → Value → Except Fault σ) :
    Nat → σ → Nat → Script (σ × Nat)
  | 0, _, _ => .exhaust
  | budget + 1, state, index =>
    .run p index fun
      | .reject _ _ => .done (state, index)
      | .accept value stop =>
        if stop = index then .done (state, index)
        else ask (append state value) >>= fun state => greedyScript p append budget state stop

def upToScript (p : Parser) (join : Value → Value → Except Fault Value) :
    Nat → Nat → Value → Nat → Script (Nat × Value × Nat)
  | 0, count, value, index => .done (count, value, index)
  | more + 1, count, value, index =>
    .run p index fun
      | .reject _ _ => .done (count, value, index)
      | .accept next stop =>
        ask (join value next) >>= fun value => upToScript p join more (count + 1) value stop

def roundsScript (next : Value → Except Fault Parser) : Nat → Value → Nat → Script Reply
  | 0, _, _ => .exhaust
  | n + 1, seed, index =>
    ask (next seed) >>= fun p =>
      onward p index fun value stop =>
        .settle value (fun seed => roundsScript next n seed stop)
          fun value => .done (.accept value stop)

section

variable (rules : Rules) (n : Nat) {sub : Runner}

theorem greedy_eq (p : Parser) (append : σ → Value → Except Fault σ) (budget : Nat) (state : σ)
    (index : Nat) :
    greedy (sub p) append budget state index =
      (greedyScript p append budget state index).exec rules n sub := by
  induction budget generalizing state index with
  | zero => rfl
  | succ budget ih =>
    rw [greedy, greedyScript, exec]
    congr 1
    funext reply
    cases reply with
    | reject why start => rfl
    | accept value stop =>
      dsimp only
      split
      · rfl
      · simp only [Script.exec_bind, exec_ask, ih]

theorem upTo_eq (p : Parser) (join : Value → Value → Except Fault Value) (more count : Nat)
    (value : Value) (index : Nat) :
    upTo (sub p) join more count value index =
      (upToScript p join more count value index).exec rules n sub := by
  induction more generalizing count value index with
  | zero => rfl
  | succ more ih =>
    rw [upTo, upToScript, exec]
    congr 1
    funext reply
    cases reply with
    | reject why start => rfl
    | accept next stop => simp only [Script.exec_bind, exec_ask, ih]

theorem rounds_eq (next : Value → Except Fault Parser) (k : Nat) (seed : Value) (index : Nat) :
    rounds sub next k seed index = (roundsScript next k seed index).exec rules n sub := by
  induction k generalizing seed index with
  | zero => rfl
  | succ k ih =>
    rw [rounds, roundsScript, Script.exec_bind, exec_ask]
    congr 1
    funext p
    rw [exec_onward, Run.andThen]
    congr 1
    funext reply
    cases reply with
    | reject why start => rfl
    | accept value stop => cases value <;> first | rfl | exact ih ..

end

/-! ### Scripts of nodes -/

def charReply (text : Array Char) (index : Nat) (c : Char) : Reply :=
  match text[index]? with
  | none => .reject (.ended (Parser.describe c)) index
  | some d =>
    if d == c then .accept (.text (String.singleton d)) (index + 1)
    else .reject (.unmatched (Parser.describe c) index) index

def testScript (text : Array Char) (index : Nat) (predicate : Predicate) (description : String) :
    Script Reply :=
  match text[index]? with
  | none => .done (.reject (.ended description) index)
  | some c =>
    ask (predicate.test c) >>= fun holds =>
      .done (if holds then .accept (.text (String.singleton c)) (index + 1)
        else .reject (.unmatched description index) index)

def nodeScript (cx : Context) (n : Nat) (p : Parser) (index : Nat) : Script Reply :=
  match p with
  | .literal _ wanted => .done (fixedText cx.text index wanted)
  | .char _ c => .done (charReply cx.text index c)
  | .charWhere _ predicate description => testScript cx.text index predicate description
  | .constant _ value => .done (.accept value index)
  | .identity _ value => .done (.accept value index)
  | .fail _ reason => .done (.reject (.stated reason) index)
  | .map _ source fn =>
    onward source index fun value stop =>
      ask (fn.apply value) >>= fun value => .done (.accept value stop)
  | .bind _ source _ next =>
    onward source index fun value stop => ask (next value) >>= fun p => .run p stop .done
  | .product _ left right =>
    onward left index fun first stop =>
      onward right stop fun second stop => .done (.accept (.tuple [first, second]) stop)
  | .both _ left right combine =>
    onward left index fun first stop =>
      onward right stop fun second stop =>
        ask (combine.apply first second) >>= fun value => .done (.accept value stop)
  | .orElse _ left right =>
    .run left index fun
      | .accept value stop => .done (.accept value stop)
      | .reject _ _ => .call right fun p => .run p index .done
  | .many _ source identity combine =>
    greedyScript source combine.apply (budgetAt cx.text index) identity index >>= fun r =>
      .done (.accept r.1 r.2)
  | .manyBetween _ source minimum maximum identity combine =>
    upToScript source combine.apply maximum.toNat 0 identity index >>= fun r =>
      .done (if (r.1 : Int) < minimum then .reject (.outside minimum maximum) index
        else .accept r.2.1 r.2.2)
  | .collect _ source minimum accumulator =>
    ask accumulator.create >>= fun start =>
      greedyScript source (appendCounted accumulator) (budgetAt cx.text index) (start, 0) index
        >>= fun r =>
          if (r.1.2 : Int) < minimum then .done (.reject (.tooFew minimum r.1.2) index)
          else ask (accumulator.retrieve r.1.1) >>= fun value => .done (.accept value r.2)
  | .delayed _ thunk => .call thunk fun p => .run p index .done
  | .memoized id thunk => .force id thunk fun p => .run p index .done
  | .loop _ _ next seed => roundsScript next n seed index
  | .bare _ tag payload _ =>
    match bareReply cx.text tag payload index with
    | .ok reply => .done reply
    | .error f => .broken f

theorem oneChar_eq_char (text : Array Char) (index : Nat) (c : Char) :
    oneChar text index (fun d => .ok (d == c)) (Parser.describe c) =
      pure (charReply text index c) := by
  unfold oneChar charReply
  cases text[index]? with
  | none => rfl
  | some d =>
    simp only [Run.ofExcept, pure_bind]
    split <;> rfl

theorem oneChar_eq_test (rules : Rules) (n : Nat) (sub : Runner) (text : Array Char) (index : Nat)
    (predicate : Predicate) (description : String) :
    oneChar text index predicate.test description =
      (testScript text index predicate description).exec rules n sub := by
  unfold oneChar testScript
  cases text[index]? with
  | none => rfl
  | some c =>
    simp only [Script.exec_bind, exec_ask, exec]
    congr 1
    funext holds
    cases holds <;> rfl

/-- Executing the script of a node gives its reply. -/
theorem nodeReply_eq (cx : Context) (n : Nat) (sub : Runner) (p : Parser) (index : Nat) :
    nodeReply cx n sub p index = (nodeScript cx n p index).exec cx.rules n sub := by
  cases p with
  | literal | constant | identity | fail => rfl
  | char id c => exact oneChar_eq_char ..
  | charWhere id predicate description => exact oneChar_eq_test ..
  | map id source fn =>
    simp only [nodeReply, nodeScript, exec_onward, Script.exec_bind, exec_ask]
    rfl
  | bind id source label next =>
    simp only [nodeReply, nodeScript, exec_onward, Script.exec_bind, exec_ask, exec, bind_pure]
  | product id left right =>
    simp only [nodeReply, nodeScript, exec_onward]
    rfl
  | both id left right combine =>
    simp only [nodeReply, nodeScript, exec_onward, Script.exec_bind, exec_ask]
    rfl
  | orElse id left right =>
    simp only [nodeReply, nodeScript, exec, Run.orElse]
    congr 1
    funext reply
    cases reply with
    | accept value stop => rfl
    | reject why start => simp only [exec, bind_pure]
  | many id source identity combine =>
    simp only [nodeReply, nodeScript, Script.exec_bind, greedy_eq cx.rules n]
    rfl
  | manyBetween id source minimum maximum identity combine =>
    simp only [nodeReply, nodeScript, Script.exec_bind, upTo_eq cx.rules n, exec]
    congr 1
    funext r
    split <;> rfl
  | collect id source minimum accumulator =>
    simp only [nodeReply, nodeScript, Script.exec_bind, greedy_eq cx.rules n,
      exec_ask]
    congr 1
    funext start
    congr 1
    funext r
    split <;> simp only [exec, Script.exec_bind, exec_ask]
  | delayed id thunk => simp only [nodeReply, nodeScript, exec, bind_pure]
  | memoized id thunk => simp only [nodeReply, nodeScript, exec, bind_pure]
  | loop id label next seed => exact rounds_eq ..
  | bare id tag payload children =>
    simp only [nodeReply, nodeScript]
    cases bareReply cx.text tag payload index <;> rfl

end ParserAlgebra
