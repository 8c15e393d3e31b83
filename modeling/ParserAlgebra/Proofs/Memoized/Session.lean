import ParserAlgebra.Proofs.Cells
import ParserAlgebra.Proofs.Onward

/-!
# Sessions with memoized nodes

A session is a sequence of parses that share a memory, so a node forced in one of them is forced
in the later ones, and none is forced twice. While the rules stay the same it does not show in the
results whether nodes are memoized or delayed, but the thunk of a memoized node is called once at
most. When rules are redefined in between, a node that was forced keeps its parser, and a delayed
one has the new one.
-/

namespace ParserAlgebra

open Run (Lockstep)

/-- A parse with the rules that there are at the time. -/
structure Task where
  rules : Rules
  settings : Settings
  parser : Parser
  input : String

def Task.run (n : Nat) (task : Task) : Run Result :=
  parse task.rules n task.settings task.parser task.input

def Task.delaying (lazy : Nat → Bool) (task : Task) : Task :=
  { task with rules := Rules.delaying lazy task.rules, parser := task.parser.delaying lazy }

/-- What the tasks end with, one after the other, and the memory that they leave. A task that ends
without a result does not keep the later ones from running. -/
def session (n : Nat) : List Task → Memory → List (Except Halt Result) × Memory
  | [], m => ([], m)
  | task :: later, m =>
    let ended := (task.run n).exec m
    let others := session n later ended.2
    (ended.1 :: others.1, others.2)

/-! ### The same rules throughout -/

theorem session_lockstep {rules : Rules} {w : Plan rules} {n : Nat} {tasks : List Task}
    (htasks : ∀ task ∈ tasks, task.rules = rules ∧ task.parser.Everywhere rules w.Suits)
    {m m' : Memory} (hm : w.Joint m m') :
    (session n tasks m).1 = (session n (tasks.map (Task.delaying w.lazy)) m').1 ∧
      w.Joint (session n tasks m).2 (session n (tasks.map (Task.delaying w.lazy)) m').2 := by
  induction tasks generalizing m m' with
  | nil => exact ⟨rfl, hm⟩
  | cons task later ih =>
    obtain ⟨hrules, hsuits⟩ := htasks task (.head _)
    have hrun : Lockstep w.Joint Eq (task.run n) ((task.delaying w.lazy).run n) := by
      subst hrules
      exact parse_lockstep n hsuits task.input _ _ _
    obtain ⟨hS, hA⟩ := hrun m m' hm
    obtain ⟨houtcomes, hjoint⟩ := ih (fun task h => htasks task (.tail _ h)) hS
    exact ⟨congrArg₂ List.cons hA.eq houtcomes, hjoint⟩

def everyNode : Nat → Bool := fun _ => true

/-- The plan under which every node is asked each time, and this node alone holds the thunk of this
rule. -/
def Plan.every (rules : Rules) (thunk : Nat → Thunk) (holder : String → Option Nat)
    (held : ∀ {name : String} {id : Nat}, holder name = some id →
      thunk id = .rule name ∧ ∃ q, rules.lookup name = some q) : Plan rules where
  lazy := everyNode
  thunk := thunk
  kept _ := none
  holder := holder
  held h := ⟨rfl, held h⟩

theorem Plan.every_joint {rules : Rules} {thunk : Nat → Thunk} {holder : String → Option Nat}
    {held : ∀ {name : String} {id : Nat}, holder name = some id →
      thunk id = .rule name ∧ ∃ q, rules.lookup name = some q} {m : Memory} (hm : m.filled = [])
    (hcalls : ∀ name id, holder name = some id → m.callsOf name = 0) :
    (Plan.every rules thunk holder held).Joint m m := by
  have hempty : ∀ cell, m.parserIn? cell = none := fun cell => by
    rw [Memory.parserIn?, hm]
    rfl
  refine ⟨rfl, ?_, fun id q _ hq => ?_, fun cell q hq => ?_, (fun _ _ h => by cases h),
    fun id _ => ?_, fun name id hname => ?_⟩
  · rw [hm]
    rfl
  · rw [hempty] at hq
    cases hq
  · rw [hempty] at hq
    cases hq
  · rw [Memory.timesFilled, hm]
    exact Nat.zero_le 1
  · simp [hcalls name id hname, hempty]

theorem Plan.every_suits {rules : Rules} {thunk : Nat → Thunk} {holder : String → Option Nat}
    {held : ∀ {name : String} {id : Nat}, holder name = some id →
      thunk id = .rule name ∧ ∃ q, rules.lookup name = some q} {p : Parser}
    (hthunk : ∀ id t, Reaches rules p (.memoized id t) → t = thunk id ∧ t.Plain)
    (hholder : ∀ name id, holder name = some id → ∀ q t, Reaches rules p q →
      q.thunk? = some t → t.core = .rule name → q = .memoized id t) :
    p.Everywhere rules (Plan.every rules thunk holder held).Suits := by
  have hfree : ∀ q t, Reaches rules p q → q.thunk? = some t → (∀ id, q ≠ .memoized id t) →
      (Plan.every rules thunk holder held).Free t := fun q t hq ht hne name hcore => by
    refine Option.eq_none_iff_forall_not_mem.2 fun id hid => hne id ?_
    exact hholder name id hid q t hq ht hcore
  intro q hq
  cases q with
  | orElse id left right => exact hfree _ right hq rfl nofun
  | delayed id t => exact hfree _ t hq rfl nofun
  | memoized id t =>
    obtain ⟨hid, hplain⟩ := hthunk id t hq
    have hlazy : (Plan.every rules thunk holder held).lazy id = true := rfl
    rw [Suits, if_pos hlazy]
    refine ⟨hid, hplain, fun name other ht hother => ?_⟩
    have hcore : t.core = .rule name := by rw [hplain.core_eq, ht]
    have hnode := hholder name other hother _ t hq rfl hcore
    cases hnode
    rfl
  | _ => trivial

/-! ### Rules that are redefined -/

/-- No node was forced twice. -/
def Memory.ForcedOnce (m : Memory) : Prop := ∀ id, m.timesFilled (.node id) ≤ 1

theorem Memory.ForcedOnce.fill {m : Memory} (h : m.ForcedOnce) {cell : Cell} {p : Parser}
    (hnode : ∀ id, cell = .node id → m.parserIn? cell = none) : (m.fill cell p).ForcedOnce := by
  intro id
  by_cases he : cell = .node id
  · subst he
    rw [timesFilled_fill, timesFilled_eq_zero (hnode id rfl)]
  · rw [timesFilled_fill_of_ne m p (Ne.symm he)]
    exact h id

theorem Memory.forcedOnce_onward (traced : Bool) :
    Memory.Onward true traced fun m m' => m.ForcedOnce → m'.ForcedOnce where
  refl _ h := h
  trans h h' hm := h' (h hm)
  build _ _ h := h
  countCall _ _ h := h
  fill hnode _ h hm := (h hm).fill fun id he => (hnode id he).2
  write _ _ _ h := h

/-- Whatever the tasks are and whatever rules each of them has, no node is forced twice. -/
theorem session_forcedOnce (n : Nat) (tasks : List Task) {m : Memory} (hm : m.ForcedOnce) :
    (session n tasks m).2.ForcedOnce := by
  induction tasks generalizing m with
  | nil => exact hm
  | cons task later ih =>
    have hmoves : Run.Moves (fun m m' => m.ForcedOnce → m'.ForcedOnce) (task.run n) :=
      parse_moves (Memory.forcedOnce_onward _) task.rules n task.parser task.input
    exact ih (hmoves m hm)

section

variable {rules : Rules} {n : Nat} {input : String} {trace : Bool} {m : Memory} {id : Nat}

theorem session_node_kept (n : Nat) (tasks : List Task) {q : Parser}
    (hq : m.parserIn? (.node id) = some q) :
    (session n tasks m).2.parserIn? (.node id) = some q := by
  induction tasks generalizing m with
  | nil => exact hq
  | cons task later ih => exact ih (parse_node_kept task.rules task.settings n task.parser _ hq)

theorem evaluate_sameCells (rules : Rules) (n : Nat) (p : Parser) (input : String)
    (trace trace' : Bool) : Lockstep Memory.SameCells Eq (evaluate rules n p input trace)
      (evaluate rules n p input trace') :=
  .bind (interpret_sameCells rules _ trace trace' n p 0) fun _ _ h => .pure (by rw [h])

/-- A memoized node that was forced runs as the parser it was forced to. -/
theorem evaluate_memoized (t : Thunk) {q : Parser} (hq : m.parserIn? (.node id) = some q) :
    ((evaluate rules (n + 1) (.memoized id t) input trace).exec m).1 =
      ((evaluate rules n q input trace).exec m).1 := by
  have hquiet : (evaluate rules (n + 1) (.memoized id t) input false).exec m =
      (evaluate rules n q input false).exec m := by
    have htag : (Parser.memoized id t).unknownTag? = none := rfl
    simp only [evaluate, evaluateFrom, interpret_succ, htag, nodeReply, Run.exec_bind,
      Run.exec_once_of_some _ hq]
  have hleft := (evaluate_sameCells rules (n + 1) (.memoized id t) input trace false m m rfl).2.eq
  have hright := (evaluate_sameCells rules n q input false trace m m rfl).2.eq
  rw [hleft, hquiet, hright]

/-- A delayed node runs as the parser that the rule has at the time. -/
theorem evaluate_delayed {name : String} {p : Parser} (hp : rules.lookup name = some p) :
    ((evaluate rules (n + 1) (.delayed id (.rule name)) input trace).exec m).1 =
      ((evaluate rules n p input trace).exec m).1 := by
  have hleft :=
    (evaluate_sameCells rules (n + 1) (.delayed id (.rule name)) input trace false m m rfl).2.eq
  rw [hleft]
  cases n with
  | zero => cases trace <;> rfl
  | succ n =>
    have hquiet : (evaluate rules (n + 2) (.delayed id (.rule name)) input false).exec m =
        (evaluate rules (n + 1) p input false).exec (m.countCall name) := by
      have htag : (Parser.delayed id (.rule name)).unknownTag? = none := rfl
      simp only [evaluate, evaluateFrom, interpret_succ, htag, nodeReply, Thunk.call,
        Run.exec_bind, Run.exec_countCall, hp, Run.exec_pure]
    rw [hquiet]
    exact (evaluate_sameCells rules (n + 1) p input false trace (m.countCall name) m rfl).2.eq

/-- A memoized node that was not forced is forced to the parser that the rule has at the time. -/
theorem evaluate_forces {name : String} {q : Parser} (hcell : m.parserIn? (.node id) = none)
    (hq : rules.lookup name = some q) :
    ((evaluate rules (n + 2) (.memoized id (.rule name)) input trace).exec m).2.parserIn?
      (.node id) = some q := by
  have hquiet : (evaluate rules (n + 2) (.memoized id (.rule name)) input false).exec m =
      (evaluate rules (n + 1) q input false).exec ((m.countCall name).fill (.node id) q) := by
    have htag : (Parser.memoized id (.rule name)).unknownTag? = none := rfl
    have hcall : ((Thunk.rule name).call rules (n + 1)).exec m = (.ok q, m.countCall name) := by
      simp only [Thunk.call, Run.exec_bind, Run.exec_countCall, hq, Run.exec_pure]
    simp only [evaluate, evaluateFrom, interpret_succ, htag, nodeReply, Run.exec_bind,
      Run.exec_once_of_none hcell hcall]
  have hcells := (evaluate_sameCells rules (n + 2) (.memoized id (.rule name)) input trace false m
    m rfl).1
  rw [hcells.parserIn?_eq, hquiet]
  exact parse_node_kept rules {} (n + 1) q input (Memory.parserIn?_fill _ _ _)

end

/-! ### Memoized nodes in a session -/

section

variable {rules : Rules} {thunk : Nat → Thunk} {n : Nat} {tasks : List Task} {m : Memory}
  (hrules : ∀ task ∈ tasks, task.rules = rules)
  (hthunk : ∀ task ∈ tasks, ∀ id t, Reaches rules task.parser (.memoized id t) →
    t = thunk id ∧ t.Plain)
  (hm : m.filled = [])

include hrules hthunk hm

theorem session_transparent :
    (session n tasks m).1 = (session n (tasks.map (Task.delaying everyNode)) m).1 := by
  let w : Plan rules := .every rules thunk (fun _ => none) fun h => by cases h
  have hsuits : ∀ task ∈ tasks, task.rules = rules ∧ task.parser.Everywhere rules w.Suits :=
    fun task h => ⟨hrules task h, Plan.every_suits (hthunk task h) fun _ _ h => by cases h⟩
  have hjoint : w.Joint m m := Plan.every_joint hm fun _ _ h => by cases h
  exact (session_lockstep hsuits hjoint).1

/-- If one memoized node alone holds the thunk of a rule, the thunk is called once, or never if the
node is never reached. -/
theorem session_calls_once {name : String} {id : Nat} {q : Parser}
    (hq : rules.lookup name = some q) (hid : thunk id = .rule name) (hcalls : m.callsOf name = 0)
    (halone : ∀ task ∈ tasks, ∀ p t, Reaches rules task.parser p → p.thunk? = some t →
      t.core = .rule name → p = .memoized id t) :
    (session n tasks m).2.callsOf name =
      if (session n (tasks.map (Task.delaying everyNode)) m).2.callsOf name = 0 then 0 else 1 := by
  let holder : String → Option Nat := fun other => if other = name then some id else none
  have hholder : ∀ {other : String} {node : Nat}, holder other = some node →
      other = name ∧ node = id := by
    intro other node h
    simp only [holder] at h
    split at h
    · rename_i hother
      exact ⟨hother, (Option.some.inj h).symm⟩
    · cases h
  let w : Plan rules := .every rules thunk holder fun h => by
    obtain ⟨rfl, rfl⟩ := hholder h
    exact ⟨hid, q, hq⟩
  have hsuits : ∀ task ∈ tasks, task.rules = rules ∧ task.parser.Everywhere rules w.Suits := by
    refine fun task h => ⟨hrules task h, ?_⟩
    refine Plan.every_suits (hthunk task h) fun other node hother => ?_
    obtain ⟨rfl, rfl⟩ := hholder hother
    exact halone task h
  have hstart : w.Joint m m := Plan.every_joint hm fun other node hother => by
    rw [(hholder hother).1]
    exact hcalls
  obtain ⟨-, hjoint⟩ := session_lockstep (n := n) hsuits hstart
  exact (hjoint.calls name id (if_pos rfl)).1

end

/-- Memoizing does not show and forces once. Every node is forced once at most, whatever rules each
task has. While the rules stay the same, every task of a session ends as it does with delayed nodes
in place of the memoized ones, and a rule's thunk that one memoized node alone holds is called once,
or never if the node is never reached. A node is forced to the parser that the rule has at the time,
and from then on runs as this parser whatever runs later and under whatever rules, where a delayed
node runs as the parser that the rule has then. -/
theorem memoized_sessions (n : Nat) (tasks : List Task) {m : Memory} (hm : m.filled = []) :
    let forcing := session n tasks m
    let asking := session n (tasks.map (Task.delaying everyNode)) m
    (∀ id, forcing.2.timesFilled (.node id) ≤ 1) ∧
    (∀ (rules : Rules) (thunk : Nat → Thunk), (∀ task ∈ tasks, task.rules = rules) →
      (∀ task ∈ tasks, ∀ id t, Reaches rules task.parser (.memoized id t) →
        t = thunk id ∧ t.Plain) →
      forcing.1 = asking.1 ∧
      ∀ name id q, rules.lookup name = some q → thunk id = .rule name → m.callsOf name = 0 →
        (∀ task ∈ tasks, ∀ p t, Reaches rules task.parser p → p.thunk? = some t →
          t.core = .rule name → p = .memoized id t) →
        forcing.2.callsOf name = if asking.2.callsOf name = 0 then 0 else 1) ∧
    (∀ (m₁ : Memory) (id : Nat) (now : Rules) (k : Nat) (name : String) (q : Parser)
      (input : String) (trace : Bool), m₁.parserIn? (.node id) = none → now.lookup name = some q →
      ((evaluate now (k + 2) (.memoized id (.rule name)) input trace).exec m₁).2.parserIn?
        (.node id) = some q) ∧
    ∀ (m₁ : Memory) (id : Nat) (q : Parser), m₁.parserIn? (.node id) = some q →
      ∀ (bound : Nat) (later : List Task), let m₂ := (session bound later m₁).2
        m₂.parserIn? (.node id) = some q ∧
        ∀ (now : Rules) (k : Nat) (input : String) (trace : Bool),
          (∀ t, ((evaluate now (k + 1) (.memoized id t) input trace).exec m₂).1 =
            ((evaluate now k q input trace).exec m₂).1) ∧
          ∀ other name p, now.lookup name = some p →
            ((evaluate now (k + 1) (.delayed other (.rule name)) input trace).exec m₂).1 =
              ((evaluate now k p input trace).exec m₂).1 := by
  intro forcing asking
  have hfresh : m.ForcedOnce := fun id => by
    rw [Memory.timesFilled, hm]
    exact Nat.zero_le 1
  refine ⟨session_forcedOnce n tasks hfresh, fun rules thunk hrules hthunk => ?_,
    fun m₁ id now k name q input trace hcell hq => evaluate_forces hcell hq,
    fun m₁ id q hq bound later => ?_⟩
  · exact ⟨session_transparent hrules hthunk hm, fun name id q hq hid hcalls halone =>
      session_calls_once hrules hthunk hm hq hid hcalls halone⟩
  · have hkept := session_node_kept bound later hq
    exact ⟨hkept, fun now k input trace => ⟨fun t => evaluate_memoized t hkept,
      fun other name p hp => evaluate_delayed hp⟩⟩

/-- Parentheses around parentheses, the inner ones behind a memoized node. -/
def nested : Parser :=
  .orElse 6 (.both 5 (.both 3 (.char 1 '(') (.memoized 2 (.rule "nested")) .add) (.char 4 ')') .add)
    (.const (.constant 0 (.text "")))

def nestedRules : Rules := [("nested", nested)]

def nestedTasks : List Task :=
  [⟨nestedRules, {}, nested, "(())"⟩, ⟨nestedRules, { optimized := true }, nested, "()"⟩]

def nestedNodes : List Parser :=
  [nested, .both 5 (.both 3 (.char 1 '(') (.memoized 2 (.rule "nested")) .add) (.char 4 ')') .add,
    .both 3 (.char 1 '(') (.memoized 2 (.rule "nested")) .add, .char 1 '(',
    .memoized 2 (.rule "nested"), .char 4 ')', .constant 0 (.text "")]

theorem nested_everywhere : nested.Everywhere nestedRules (· ∈ nestedNodes) := by
  refine .of_closed nestedNodes (.head _) fun a ha => ⟨ha, ?_⟩
  simp only [nestedNodes, List.mem_cons, List.not_mem_nil, or_false] at ha
  rcases ha with rfl | rfl | rfl | rfl | rfl | rfl | rfl <;>
    simp [nested, nestedRules, nestedNodes, Parser.next?, Parser.steps, Parser.children,
      Parser.thunk?, Thunk.target, Except.toOption]

theorem nested_thunk {p : Parser} {t : Thunk} (hp : Reaches nestedRules nested p)
    (ht : p.thunk? = some t) (hcore : t.core = .rule "nested") : p = .memoized 2 t := by
  have hmem := nested_everywhere p hp
  simp only [nestedNodes, List.mem_cons, List.not_mem_nil, or_false] at hmem
  rcases hmem with rfl | rfl | rfl | rfl | rfl | rfl | rfl <;> cases ht
  · cases hcore
  · rfl

/-- The inner parentheses are asked for three times and called once. When the rule becomes another
one, the memoized node still reads parentheses. -/
theorem nested_sessions :
    let forcing := session 12 nestedTasks {}
    let asking := session 12 (nestedTasks.map (Task.delaying everyNode)) {}
    (forcing.1 = asking.1 ∧
      forcing.1 = [.ok ⟨"(())", .accept (.text "(())") 4⟩, .ok ⟨"()", .accept (.text "()") 2⟩]) ∧
    (asking.2.callsOf "nested" = 3 ∧ forcing.2.callsOf "nested" = 1) ∧
    ((evaluate [("nested", .char 7 'x')] 12 (.memoized 2 (.rule "nested")) "()" false).exec
      forcing.2).1 = .ok ⟨"()", .accept (.text "()") 2⟩ := by
  have hrules : ∀ task ∈ nestedTasks, task.rules = nestedRules := by
    simp [nestedTasks]
  have hparser : ∀ task ∈ nestedTasks, task.parser = nested := by
    simp [nestedTasks]
  have hthunk : ∀ task ∈ nestedTasks, ∀ id t, Reaches nestedRules task.parser (.memoized id t) →
      t = .rule "nested" ∧ t.Plain := by
    intro task htask id t hp
    rw [hparser task htask] at hp
    have hmem := nested_everywhere _ hp
    simp [nestedNodes, nested] at hmem
    rw [hmem.2]
    exact ⟨rfl, trivial⟩
  have halone : ∀ task ∈ nestedTasks, ∀ p t, Reaches nestedRules task.parser p →
      p.thunk? = some t → t.core = .rule "nested" → p = .memoized 2 t := by
    intro task htask p t hp ht hcore
    rw [hparser task htask] at hp
    exact nested_thunk hp ht hcore
  have hempty : ({} : Memory).filled = [] := rfl
  obtain ⟨-, hunchanged, -, hforced⟩ := memoized_sessions 12 nestedTasks hempty
  obtain ⟨houtcomes, hcalls⟩ := hunchanged nestedRules (fun _ => .rule "nested") hrules hthunk
  have hasked : (session 12 (nestedTasks.map (Task.delaying everyNode)) {}).2.callsOf "nested" =
      3 := rfl
  have hcalled := hcalls "nested" 2 nested rfl rfl rfl halone
  rw [hasked] at hcalled
  have hcell : (session 12 nestedTasks {}).2.parserIn? (.node 2) = some nested := rfl
  have hlater := hforced _ 2 nested hcell 0 []
  have hrun : ((evaluate [("nested", .char 7 'x')] 11 nested "()" false).exec
      (session 12 nestedTasks {}).2).1 = .ok ⟨"()", .accept (.text "()") 2⟩ := rfl
  refine ⟨⟨houtcomes, rfl⟩, ⟨hasked, hcalled⟩, ?_⟩
  rw [← hrun]
  exact (hlater.2 [("nested", .char 7 'x')] 11 "()" false).1 (.rule "nested")

end ParserAlgebra
