import ParserAlgebra.Evaluation.Bound
import ParserAlgebra.Parse
import ParserAlgebra.Proofs.Script.Watch

/-!
# How memories move on

A run changes its memory in few ways: it takes identities, counts calls, fills a cell that was empty
when it was asked for, and writes to the log if it is traced. An order of memories that has these
steps is one along which every run of a parser moves, whatever the run ends with.
-/

namespace ParserAlgebra

/-- An order of memories along which the steps of runs go. Those of traced runs write; runs that
force no node, such as the calls of thunks, fill the cells of right sides only. -/
structure Memory.Onward (forcing traced : Bool) (R : Memory → Memory → Prop) : Prop where
  refl : ∀ m, R m m
  trans : ∀ {m m' m''}, R m m' → R m' m'' → R m m''
  build : ∀ m next, R m { m with nextId := next }
  countCall : ∀ m name, R m (m.countCall name)
  /-- The cell was empty when it was asked for, not only when it is filled; that of a node is empty
  then too. -/
  fill : ∀ {m m' cell p},
    (∀ id, cell = .node id → forcing = true ∧ m'.parserIn? cell = none) →
      m.parserIn? cell = none → R m m' → R m (m'.fill cell p)
  write : traced = true → ∀ m entry, R m (m.write entry)

theorem Memory.log_onward (forcing : Bool) :
    Memory.Onward forcing false fun m m' => m'.log = m.log where
  refl _ := rfl
  trans h h' := h'.trans h
  build _ _ := rfl
  countCall _ _ := rfl
  fill _ _ h := h
  write := nofun

/-- Without forcing, the cells of nodes stay as they are. -/
theorem Memory.nodes_onward (traced : Bool) :
    Memory.Onward false traced fun m m' =>
      ∀ id, m'.parserIn? (.node id) = m.parserIn? (.node id) where
  refl _ _ := rfl
  trans h h' id := (h' id).trans (h id)
  build _ _ _ := rfl
  countCall _ _ _ := rfl
  fill {m m' cell p} hnode _ h id := by
    have hne : Cell.node id ≠ cell := fun he => Bool.noConfusion (hnode id he.symm).1
    rw [parserIn?_fill_of_ne m' p hne, h]
  write _ _ _ _ := rfl

namespace Run

variable {α β : Type}

/-- The run leaves a memory further on than the one it began with. -/
def Moves (R : Memory → Memory → Prop) (x : Run α) : Prop := ∀ m, R m (x.exec m).2

namespace Moves

variable {forcing traced : Bool} {R : Memory → Memory → Prop}
  (hR : Memory.Onward forcing traced R)
include hR

theorem pure (a : α) : Moves R (Pure.pure a : Run α) := fun m => hR.refl m

theorem raise (f : Fault) : Moves R (Run.raise f : Run α) := fun m => hR.refl m

theorem exhaust : Moves R (Run.exhaust : Run α) := fun m => hR.refl m

theorem ofExcept (e : Except Fault α) : Moves R (Run.ofExcept e) := by
  cases e with
  | ok a => exact pure hR a
  | error f => exact raise hR f

theorem bind {x : Run α} {f : α → Run β} (hx : Moves R x) (hf : ∀ a, Moves R (f a)) :
    Moves R (x >>= f) := by
  intro m
  have hfirst := hx m
  rw [exec_bind]
  rcases hxm : x.exec m with ⟨_ | a, m'⟩ <;> rw [hxm] at hfirst
  · exact hfirst
  · exact hR.trans hfirst (hf a m')

theorem build (b : Build α) : Moves R (Run.build b) := fun m => hR.build m _

theorem countCall (name : String) : Moves R (Run.countCall name) := fun m => hR.countCall m name

theorem once {cell : Cell} {make : Run Parser}
    (hnode : ∀ id, cell = .node id → forcing = true ∧
      ∀ m, m.parserIn? cell = none → (make.exec m).2.parserIn? cell = none)
    (h : Moves R make) : Moves R (Run.once cell make) := by
  intro m
  cases hc : m.parserIn? cell with
  | some p =>
    rw [exec_once_of_some make hc]
    exact hR.refl m
  | none =>
    have hmake := h m
    rcases hx : make.exec m with ⟨halt | p, m'⟩ <;> rw [hx] at hmake
    · simp only [Run.once, exec_bind, exec_parserIn?, hc, hx]
      exact hmake
    · rw [exec_once_of_none hc hx]
      refine hR.fill (fun id he => ?_) hc hmake
      obtain ⟨hforcing, hempty⟩ := hnode id he
      refine ⟨hforcing, ?_⟩
      have hleft := hempty m hc
      rwa [hx] at hleft

end Moves

end Run

open Run (Moves)

section

variable {forcing traced : Bool} {R : Memory → Memory → Prop}
  (hR : Memory.Onward forcing traced R)
include hR

/-! ### Optimizing -/

theorem leaves_moves {call : Thunk → Run Parser} (hcall : ∀ t, Moves R (call t)) (n : Nat)
    (p : Parser) (seen : List Nat) : Moves R (Chain.leaves call n p seen) := by
  induction n generalizing p seen with
  | zero => exact .exhaust hR
  | succ n ih =>
    unfold Chain.leaves
    cases p <;> try exact .pure hR _
    case orElse id left right =>
      dsimp only
      split
      · exact .pure hR _
      · refine .bind hR (ih left _) fun front => ?_
        rcases front with ⟨_ | front, seen⟩
        · exact .pure hR _
        · refine .bind hR (hcall right) fun q => .bind hR (ih q _) fun back => ?_
          rcases back with ⟨_ | back, seen⟩ <;> exact .pure hR _
    case bare =>
      dsimp only
      split
      · exact .pure hR _
      · split
        · exact .raise hR _
        · exact .pure hR _

theorem charSet_moves (chars : List Parser) : Moves R (Chain.charSet chars) :=
  .bind hR (.ofExcept hR _) fun _ => .bind hR (.ofExcept hR _) fun _ => .build hR _

theorem optimizeWith_moves {call : Thunk → Run Parser} (hcall : ∀ t, Moves R (call t)) (n : Nat)
    (p : Parser) : Moves R (optimizeWith call n p) := by
  fun_induction optimizeWith call n p with
  | case1 id left right ih =>
    refine .bind hR (leaves_moves hR hcall n _ []) fun found => ?_
    rcases found with ⟨_ | chars, seen⟩
    · exact .bind hR (.build hR _) fun _ => .bind hR ih fun _ => .build hR _
    · exact charSet_moves hR chars
  | case2 _ _ _ ih | case3 _ _ _ _ ih | case6 _ _ _ _ ih | case7 _ _ _ _ _ _ ih
  | case8 _ _ _ _ ih => exact .bind hR ih fun _ => .build hR _
  | case4 _ _ _ ihl ihr | case5 _ _ _ _ ihl ihr =>
    exact .bind hR ihl fun _ => .bind hR ihr fun _ => .build hR _
  | case9 => exact .raise hR _
  | case10 | case11 => exact .pure hR _

theorem call_moves (rules : Rules) (n : Nat) (t : Thunk) : Moves R (t.call rules n) := by
  induction n generalizing t with
  | zero => exact .exhaust hR
  | succ n ih =>
    cases t with
    | const p => exact .pure hR p
    | rule name =>
      refine .bind hR (.countCall hR name) fun _ => ?_
      split
      · exact .pure hR _
      · exact .raise hR _
    | optimized cell source =>
      exact .once hR nofun (.bind hR (ih source) (optimizeWith_moves hR ih n))

theorem optimize_moves (rules : Rules) (n : Nat) (p : Parser) : Moves R (optimize rules n p) :=
  optimizeWith_moves hR (call_moves hR rules n) n p

end

/-! ### Running -/

section

variable {traced : Bool} {R : Memory → Memory → Prop} (hR : Memory.Onward true traced R)
include hR

/-- Calling the thunk of a node does not force the node. -/
theorem force_moves (rules : Rules) (n id : Nat) (t : Thunk) :
    Moves R (Run.once (.node id) (t.call rules n)) := by
  refine .once hR (fun _ _ => ⟨rfl, fun m hc => ?_⟩) (call_moves hR rules n t)
  rw [call_moves (Memory.nodes_onward false) rules n t m id]
  exact hc

theorem Script.exec_moves {α : Type} {rules : Rules} {n : Nat} {sub : Runner}
    (hsub : ∀ p i, Moves R (sub p i)) (s : Script α) : Moves R (s.exec rules n sub) := by
  induction s with
  | done a => exact .pure hR a
  | returned rest ih => exact ih
  | raised f | broken f => exact .raise hR f
  | run p i next ih => exact .bind hR (hsub p i) ih
  | call t next ih => exact .bind hR (call_moves hR rules n t) ih
  | force id t next ih => exact .bind hR (force_moves hR rules n id t) ih
  | settle v again last ihagain ihlast =>
    cases v with
    | left s => exact ihagain s
    | right w => exact ihlast w
    | _ => exact .raise hR _
  | exhaust => exact .exhaust hR

end

section

variable {R : Memory → Memory → Prop} {cx : Context} (hR : Memory.Onward true cx.trace R)
include hR

theorem noted_moves (entry : LogEntry) :
    Moves R (if cx.trace then Run.write entry else pure ()) := by
  split
  · rename_i ht
    exact fun m => hR.write ht m entry
  · exact .pure hR ()

theorem interpret_moves (n : Nat) (p : Parser) (i : Nat) : Moves R (interpret cx n p i) := by
  induction n generalizing p i with
  | zero => exact .exhaust hR
  | succ n ih =>
    rw [interpret, step_eq, nodeReply_eq]
    split
    · exact .raise hR _
    · refine .bind hR (noted_moves hR _) fun _ =>
        .bind hR (Script.exec_moves hR ih _) fun reply => ?_
      cases reply with
      | accept v stop => exact .pure hR _
      | reject why start => exact .bind hR (noted_moves hR _) fun _ => .pure hR _

end

theorem parse_moves {R : Memory → Memory → Prop} {settings : Settings}
    (hR : Memory.Onward true settings.trace R) (rules : Rules) (n : Nat) (p : Parser)
    (input : String) : Moves R (parse rules n settings p input) := by
  let cx : Context := { rules, text := input.toList.toArray, trace := settings.trace }
  have hinterpret : ∀ q, Moves R (interpret cx n q 0) := fun q => interpret_moves hR n q 0
  have hrun : ∀ q, Moves R (evaluate rules n q input settings.trace) := fun q =>
    .bind hR (hinterpret q) fun _ => .pure hR _
  unfold parse
  split
  · exact .bind hR (optimize_moves hR rules n p) hrun
  · exact .bind hR (.pure hR p) hrun

theorem parseValue_moves {R : Memory → Memory → Prop} {settings : Settings}
    (hR : Memory.Onward true settings.trace R) (rules : Rules) (n : Nat) (p : Parser)
    (input path : String) (allowTrailing : Bool) :
    Moves R (parseValue rules n settings p input path allowTrailing) :=
  .bind hR (parse_moves hR rules n p input) fun _ => .ofExcept hR _

end ParserAlgebra
