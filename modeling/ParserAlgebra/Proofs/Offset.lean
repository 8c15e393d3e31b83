import ParserAlgebra.Proofs.Optimizer.Kept
import ParserAlgebra.Proofs.Reach.Static

/-!
# Offsets stay inside the text

A run that starts at an offset of the text replies with an offset that is no smaller and still one
of the text. The invariant of the memory is that every cell holds a parser without bare nodes, for a
bare literal may claim more characters than there are.
-/

namespace ParserAlgebra

open Run (Keeps)
open ParserAlgebra.Parser (Kinded)

/-- The offset of a reply lies between two offsets. -/
def Reply.Within (low high : Nat) : Reply → Prop
  | .accept _ stop => low ≤ stop ∧ stop ≤ high
  | .reject _ start => low ≤ start ∧ start ≤ high

theorem Reply.Within.of_le {low mid high : Nat} {r : Reply} (h : r.Within mid high)
    (hl : low ≤ mid) : r.Within low high := by
  cases r with
  | accept v stop => exact ⟨Nat.le_trans hl h.1, h.2⟩
  | reject why start => exact ⟨Nat.le_trans hl h.1, h.2⟩

/-! ### Leaves -/

theorem aheadAt_length {text : Array Char} {cs : List Char} {i : Nat}
    (h : aheadAt text i cs = true) : i + cs.length ≤ text.size := by
  induction cs generalizing i with
  | nil => simpa [aheadAt] using h
  | cons c cs ih =>
    simp only [aheadAt, Bool.and_eq_true] at h
    have hrest := ih h.2
    simp only [List.length_cons]
    omega

theorem fixedText_within {text : Array Char} {i : Nat} (hi : i ≤ text.size) (wanted : String) :
    (fixedText text i wanted).Within i text.size := by
  unfold fixedText
  split
  · rename_i h
    have hlen := aheadAt_length h
    rw [String.length_toList] at hlen
    exact ⟨Nat.le_add_right .., hlen⟩
  · exact ⟨Nat.le_refl _, hi⟩

theorem oneChar_within {C : Parser → Prop} {text : Array Char} {i : Nat} (hi : i ≤ text.size)
    (test : Char → Except Fault Bool) (description : String) :
    Keeps C (oneChar text i test description) (Reply.Within i text.size) := by
  unfold oneChar
  split
  · exact .pure ⟨Nat.le_refl _, hi⟩
  · rename_i c hc
    have hlt : i < text.size := (Array.getElem?_eq_some_iff.1 hc).1
    refine .bind (.ofExcept fun _ _ => trivial) fun b _ => ?_
    split
    · exact .pure ⟨Nat.le_succ i, hlt⟩
    · exact .pure ⟨Nat.le_refl _, hi⟩

/-! ### Nodes and runs -/

theorem isBare_local : Parser.Local fun p => p.isBare = false where
  map _ := rfl
  bind _ := rfl
  product _ := rfl
  both _ := rfl
  orElse _ := rfl
  many _ := rfl
  manyBetween _ := rfl
  collect _ := rfl
  memberOf := rfl

/-- Optimizing leaves no bare node. -/
theorem call_kinded (rules : Rules) (n : Nat) {t : Thunk} (ht : t.Kinded rules) :
    Keeps (Kinded rules) (t.call rules n) (Kinded rules) :=
  call_everywhere isBare_local n ht

theorem nodeReply_within {cx : Context} {n i : Nat} {run : Runner} {p : Parser}
    (hrun : ∀ q j, q.Kinded cx.rules → j ≤ cx.text.size →
      Keeps (Kinded cx.rules) (run q j) (Reply.Within j cx.text.size))
    (hp : p.Kinded cx.rules) (hi : i ≤ cx.text.size) :
    Keeps (Kinded cx.rules) (nodeReply cx n run p i) (Reply.Within i cx.text.size) := by
  have here : i ≤ i ∧ i ≤ cx.text.size := ⟨Nat.le_refl _, hi⟩
  -- A part runs where the parts before it stopped, so all bounds hold from `i` on.
  have part : ∀ q j, q.Kinded cx.rules → i ≤ j ∧ j ≤ cx.text.size →
      Keeps (Kinded cx.rules) (run q j) (Reply.Within i cx.text.size) :=
    fun q j hq hj => (hrun q j hq hj.2).mono fun reply hr => hr.of_le hj.1
  have stops : ∀ q j, q.Kinded cx.rules → i ≤ j ∧ j ≤ cx.text.size →
      Keeps (Kinded cx.rules) (run q j) fun reply =>
        ∀ v stop, reply = .accept v stop → i ≤ stop ∧ stop ≤ cx.text.size := by
    intro q j hq hj
    refine (part q j hq hj).mono fun reply hr v stop he => ?_
    subst he
    exact hr
  cases p with
  | literal id wanted => exact .pure (fixedText_within hi wanted)
  | char | charWhere => exact oneChar_within hi _ _
  | constant | identity | fail => exact .pure here
  | map id source fn =>
    exact .andThen (part source i (hp.child (.head _)) here) (fun _ _ h => h) fun v stop h =>
      .bind (.ofExcept fun _ _ => trivial) fun _ _ => .pure h
  | bind id source label f =>
    exact .andThen (part source i (hp.child (.head _)) here) (fun _ _ h => h) fun v stop h =>
      .bind (.ofExcept fun q hq => hp.next rfl hq) fun q hq => part q stop hq h
  | product id left right =>
    exact .andThen (part left i (hp.child (.head _)) here) (fun _ _ h => h) fun v stop h =>
      .andThen (part right stop (hp.child (.tail _ (.head _))) h) (fun _ _ h => h)
        fun w last hlast => .pure hlast
  | both id left right combine =>
    exact .andThen (part left i (hp.child (.head _)) here) (fun _ _ h => h) fun v stop h =>
      .andThen (part right stop (hp.child (.tail _ (.head _))) h) (fun _ _ h => h)
        fun w last hlast => .bind (.ofExcept fun _ _ => trivial) fun _ _ => .pure hlast
  | orElse id left right =>
    exact .orElse (part left i (hp.child (.head _)) here) (fun _ _ h => h)
      (.bind (call_kinded _ n (hp.thunk rfl)) fun q hq => part q i hq here)
  | many id source identity combine =>
    exact .bind (.greedy (J := fun _ j => i ≤ j ∧ j ≤ cx.text.size)
      (fun s j hj => (stops source j (hp.child (.head _)) hj).mono fun _ h v stop he _ _ =>
        h v stop he) _ here) fun r hr => .pure hr
  | manyBetween id source minimum maximum identity combine =>
    refine .bind (.upTo (J := fun _ j => i ≤ j ∧ j ≤ cx.text.size)
      (fun u j hj => (stops source j (hp.child (.head _)) hj).mono fun _ h v stop he _ _ =>
        h v stop he) _ 0 here) fun r hr => ?_
    dsimp only
    split
    · exact .pure here
    · exact .pure hr
  | collect id source minimum accumulator =>
    refine .bind (.ofExcept fun _ _ => trivial) fun start _ =>
      .bind (.greedy (J := fun _ j => i ≤ j ∧ j ≤ cx.text.size)
        (fun s j hj => (stops source j (hp.child (.head _)) hj).mono fun _ h v stop he _ _ =>
          h v stop he) _ here) fun r hr => ?_
    dsimp only
    split
    · exact .pure here
    · exact .bind (.ofExcept fun _ _ => trivial) fun _ _ => .pure hr
  | delayed id thunk =>
    exact .bind (call_kinded _ n (hp.thunk rfl)) fun q hq => part q i hq here
  | memoized id thunk =>
    exact .bind (.once (call_kinded _ n (hp.thunk rfl))) fun q hq => part q i hq here
  | loop id label next seed =>
    refine .rounds (J := fun _ j => i ≤ j ∧ j ≤ cx.text.size) (fun s j q hj hq => ?_) n here
    refine (part q j (hp.next rfl hq) hj).mono fun reply hr => ?_
    rcases reply with ⟨v, stop⟩ | ⟨why, start⟩
    · cases v <;> first | exact hr | trivial
    · exact hr
  | bare => cases hp.isBare_eq

theorem interpret_within (cx : Context) (n : Nat) {p : Parser} {i : Nat}
    (hp : p.Kinded cx.rules) (hi : i ≤ cx.text.size) :
    Keeps (Kinded cx.rules) (interpret cx n p i) (Reply.Within i cx.text.size) := by
  induction n generalizing p i with
  | zero => exact .exhaust
  | succ n ih => exact .step (nodeReply_within (fun q j hq hj => ih hq hj) hp hi)

/-- A result is about the text that was parsed, and its offset lies between the offset where the run
started and the end of the text. -/
theorem evaluateFrom_stays_within {rules : Rules} {depth index : Nat} {p : Parser}
    {input : String} {trace : Bool} {m m' : Memory} {r : Result} (hp : p.Kinded rules)
    (hm : m.Holds (Kinded rules)) (hi : index ≤ input.length)
    (h : (evaluateFrom rules depth p input trace index).exec m = (.ok r, m')) :
    r.input = input ∧ r.reply.Within index input.length := by
  have hsize : input.toList.toArray.size = input.length := by
    rw [List.size_toArray, String.length_toList]
  have hi' : index ≤ input.toList.toArray.size := by
    rw [hsize]
    exact hi
  have hkeeps : Keeps (Kinded rules) (evaluateFrom rules depth p input trace index)
      fun r => r.input = input ∧ r.reply.Within index input.length := by
    let cx : Context := { rules, text := input.toList.toArray, trace }
    refine .bind (interpret_within cx depth hp hi') fun reply hr => ?_
    rw [hsize] at hr
    exact .pure ⟨rfl, hr⟩
  exact (hkeeps m hm).2 r (by rw [h])

def parens : Parser :=
  .orElse 6 (.both 5 (.both 3 (.char 1 '(') (.delayed 2 (.rule "parens")) .add) (.char 4 ')') .add)
    (.const (.constant 0 (.text "")))

theorem parens_stay_within :
    ∃ r m', (evaluateFrom [("parens", parens)] 20 parens "(())" false 1).exec {} = (.ok r, m') ∧
      r.reply = .accept (.text "()") 3 ∧ r.input = "(())" ∧ r.reply.Within 1 "(())".length := by
  have hp : parens.Kinded [("parens", parens)] := Parser.kinded_of_static rfl rfl
  have hm : ({} : Memory).Holds (Kinded [("parens", parens)]) :=
    fun _ _ h => absurd h (by simp [Memory.parserIn?])
  have hrun : ∃ m', (evaluateFrom [("parens", parens)] 20 parens "(())" false 1).exec {} =
      (.ok ⟨"(())", .accept (.text "()") 3⟩, m') := ⟨_, rfl⟩
  obtain ⟨m', h⟩ := hrun
  exact ⟨_, m', h, rfl, evaluateFrom_stays_within hp hm (by decide) h⟩

end ParserAlgebra
