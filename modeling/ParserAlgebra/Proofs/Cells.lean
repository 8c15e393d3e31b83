import ParserAlgebra.Proofs.Memoized.Walk

/-!
# What a run looks at

Of a memory a run looks at the cells and at the next free identity only: not at the log, and not at
the counts of calls. So neither tracing nor what was logged or counted before makes a difference to
what a run ends with and leaves in the cells. A memoized node keeps the parser it was forced to,
whatever runs after.
-/

namespace ParserAlgebra

open Run (Lockstep)

structure Cells where
  nextId : Nat
  filled : List (Cell × Parser)

def Memory.cells (m : Memory) : Cells := ⟨m.nextId, m.filled⟩

/-- A memory with these cells in which nothing was logged or counted. -/
def Cells.memory (c : Cells) : Memory := { nextId := c.nextId, filled := c.filled }

@[simp] theorem Cells.cells_memory (c : Cells) : c.memory.cells = c := rfl

/-- Two memories with the same cells. -/
def Memory.SameCells (m m' : Memory) : Prop := m.cells = m'.cells

theorem Memory.SameCells.parserIn?_eq {m m' : Memory} (h : m.SameCells m') (cell : Cell) :
    m.parserIn? cell = m'.parserIn? cell :=
  congrArg (fun c => c.filled.lookup cell) h

/-- The plan under which no node is asked each time, and these parsers are kept. -/
def Plan.plain (rules : Rules) (kept : Nat → Option Parser) : Plan rules where
  lazy := noNode
  thunk _ := .const default
  kept := kept
  holder _ := none
  held := nofun

namespace Plan

variable {rules : Rules} {kept : Nat → Option Parser}

theorem plain_suits (rules : Rules) (kept : Nat → Option Parser) (p : Parser) :
    (plain rules kept).Suits p := by
  cases p <;> try exact trivial
  all_goals exact fun _ _ => rfl

theorem plain_everywhere (rules : Rules) (kept : Nat → Option Parser) (p : Parser) :
    p.Everywhere rules (plain rules kept).Suits :=
  fun q _ => plain_suits rules kept q

theorem plain_joint {m m' : Memory} :
    (plain rules kept).Joint m m' ↔ m.SameCells m' ∧
      ∀ id q, kept id = some q → m.parserIn? (.node id) = some q := by
  have hcarry : (plain rules kept).carry = some := by
    funext entry
    obtain ⟨cell, p⟩ := entry
    rw [carry_of_common (fun _ _ => rfl)]
    exact congrArg (fun q => some (cell, q)) p.delaying_noNode
  constructor
  · intro h
    have hfilled := h.filled
    rw [hcarry, List.filterMap_some] at hfilled
    exact ⟨congrArg₂ Cells.mk h.nextId.symm hfilled.symm, h.kept⟩
  · rintro ⟨hcells, hkept⟩
    injection hcells with hnext hfilled
    refine ⟨hnext.symm, ?_, nofun, fun _ q _ => plain_everywhere rules kept q, hkept, nofun, nofun⟩
    rw [hcarry, List.filterMap_some, hfilled]

end Plan

section

variable {rules : Rules} {text : Array Char}

theorem Run.Lockstep.of_plain {α : Type} {R : α → α → Prop} {x y : Run α} (rules : Rules)
    (h : ∀ kept, Lockstep (Plan.plain rules kept).Joint R x y) :
    Lockstep Memory.SameCells R x y := by
  intro m m' hm
  obtain ⟨hS, hA⟩ := h (fun _ => none) m m' (Plan.plain_joint.2 ⟨hm, nofun⟩)
  exact ⟨(Plan.plain_joint.1 hS).1, hA⟩

/-- What the nodes were forced to before, they are forced to after the run. -/
theorem Run.Lockstep.node_kept {α : Type} {R : α → α → Prop} {x y : Run α}
    (h : ∀ kept, Lockstep (Plan.plain rules kept).Joint R x y) {m : Memory} {id : Nat} {q : Parser}
    (hq : m.parserIn? (.node id) = some q) : (x.exec m).2.parserIn? (.node id) = some q := by
  have hm : (Plan.plain rules fun id => m.parserIn? (.node id)).Joint m m :=
    Plan.plain_joint.2 ⟨rfl, fun _ _ h => h⟩
  exact (Plan.plain_joint.1 (h _ m m hm).1).2 id q hq

theorem interpret_plain (kept : Nat → Option Parser) (trace trace' : Bool) (n : Nat) (p : Parser)
    (i : Nat) : Lockstep (Plan.plain rules kept).Joint Eq (interpret ⟨rules, text, trace⟩ n p i)
      (interpret ⟨rules, text, trace'⟩ n p i) := by
  have h := interpret_lockstep text trace trace' n i (Plan.plain_everywhere rules kept p)
  simp only [Plan.plain, Rules.delaying_noNode, Parser.delaying_noNode] at h
  exact h.mono fun _ _ h => h.eq

theorem parse_plain (kept : Nat → Option Parser) (optimized trace trace' : Bool) (n : Nat)
    (p : Parser) (input : String) : Lockstep (Plan.plain rules kept).Joint Eq
      (parse rules n { optimized, trace } p input)
      (parse rules n { optimized, trace := trace' } p input) := by
  have h := parse_lockstep n (Plan.plain_everywhere rules kept p) input
    optimized trace trace'
  simp only [Plan.plain, Rules.delaying_noNode, Parser.delaying_noNode] at h
  exact h

/-- A run ends alike whether it is traced or not, whatever was logged and counted before. -/
theorem interpret_sameCells (rules : Rules) (text : Array Char) (trace trace' : Bool) (n : Nat)
    (p : Parser) (i : Nat) : Lockstep Memory.SameCells Eq (interpret ⟨rules, text, trace⟩ n p i)
      (interpret ⟨rules, text, trace'⟩ n p i) :=
  .of_plain rules fun kept => interpret_plain kept trace trace' n p i

theorem nodeReply_sameCells (cx : Context) (n : Nat) (p : Parser) (i : Nat) :
    Lockstep Memory.SameCells Eq (nodeReply cx n (interpret cx n) p i)
      (nodeReply cx n (interpret cx n) p i) := by
  obtain ⟨rules, text, trace⟩ := cx
  refine .of_plain rules fun kept => ?_
  have h := nodeReply_lockstep text trace trace
    (fun j hq => interpret_lockstep text trace trace n j hq) i (Plan.plain_everywhere rules kept p)
  simp only [Plan.plain, Rules.delaying_noNode, Parser.delaying_noNode] at h
  exact h.mono fun _ _ h => h.eq

theorem parse_node_kept (rules : Rules) (settings : Settings) (n : Nat) (p : Parser)
    (input : String) {m : Memory} {id : Nat} {q : Parser}
    (hq : m.parserIn? (.node id) = some q) :
    ((parse rules n settings p input).exec m).2.parserIn? (.node id) = some q :=
  Lockstep.node_kept (fun kept => parse_plain kept settings.optimized settings.trace settings.trace
    n p input) hq

end

end ParserAlgebra
