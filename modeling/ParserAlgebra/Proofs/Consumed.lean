import ParserAlgebra.Proofs.Optimizer.Kept

/-!
# Texts that are consumed

A string parser is made of literals, characters, joined sequences, choices and repetitions whose
values are joined. Whatever it accepts, its value is the text between the offset where it was run
and the offset where it stopped, and the same holds of its optimized forms.
-/

namespace ParserAlgebra

open Run (Keeps)
open ParserAlgebra.Parser (Everywhere)

/-! ### The text between two offsets -/

def between (cs : List Char) (i j : Nat) : String := String.ofList ((cs.drop i).take (j - i))

theorem between_self (cs : List Char) (i : Nat) : between cs i i = "" := by
  simp [between]

theorem between_append (cs : List Char) {i j k : Nat} (hij : i ≤ j) (hjk : j ≤ k) :
    between cs i j ++ between cs j k = between cs i k := by
  have hdrop : cs.drop j = (cs.drop i).drop (j - i) := by
    rw [List.drop_drop]
    congr 1
    omega
  have hlen : k - i = (j - i) + (k - j) := by omega
  rw [between, between, between, ← String.ofList_append, hdrop, hlen, List.take_add]

theorem between_succ {text : Array Char} {i : Nat} {c : Char} (h : text[i]? = some c) :
    between text.toList i (i + 1) = String.singleton c := by
  have hi : text.toList[i]? = some c := by rw [Array.getElem?_toList, h]
  obtain ⟨hlt, hget⟩ := List.getElem?_eq_some_iff.1 hi
  have hone : i + 1 - i = 1 := by omega
  rw [between, hone, List.drop_eq_getElem_cons hlt, hget, String.singleton_eq_ofList]
  rfl

theorem between_of_aheadAt {text : Array Char} {cs : List Char} {i : Nat}
    (h : aheadAt text i cs = true) : between text.toList i (i + cs.length) = String.ofList cs := by
  induction cs generalizing i with
  | nil => simp [between]
  | cons c cs ih =>
    simp only [aheadAt, Bool.and_eq_true, beq_iff_eq] at h
    have hlen : i + (c :: cs).length = i + 1 + cs.length := by
      rw [List.length_cons]
      omega
    have hle : i + 1 ≤ i + 1 + cs.length := by omega
    rw [hlen, ← between_append text.toList (Nat.le_succ i) hle, between_succ h.1, ih h.2,
      String.singleton_eq_ofList, ← String.ofList_append, List.singleton_append]

/-! ### String parsers -/

/-- The function puts one text behind the other. -/
def Combiner.Joins (c : Combiner) : Prop :=
  ∀ s t, c.apply (.text s) (.text t) = .ok (.text (s ++ t))

def Parser.Textual : Parser → Prop
  | .literal .. | .char .. | .charWhere .. | .fail .. => True
  | .orElse .. | .delayed .. | .memoized .. => True
  | .constant _ value | .identity _ value => value = .text ""
  | .both _ _ _ combine => combine.Joins
  | .many _ _ neutral combine => neutral = .text "" ∧ combine.Joins
  | .manyBetween _ _ _ _ neutral combine => neutral = .text "" ∧ combine.Joins
  | .collect _ _ _ accumulator => accumulator = .text
  | .map .. | .bind .. | .product .. | .loop .. | .bare .. => False

theorem Combiner.add_joins : Combiner.add.Joins := fun _ _ => rfl

theorem textual_local : Parser.Local Parser.Textual where
  map h := h
  bind h := h
  product h := h
  both h := h
  orElse h := h
  many h := h
  manyBetween h := h
  collect h := h
  memberOf := trivial

/-- The value is the text from an offset up to another one. -/
def ReadTo (text : Array Char) (i : Nat) (value : Value) (j : Nat) : Prop :=
  i ≤ j ∧ value = .text (between text.toList i j)

theorem ReadTo.start (text : Array Char) (i : Nat) : ReadTo text i (.text "") i :=
  ⟨Nat.le_refl i, by rw [between_self]⟩

theorem ReadTo.join {text : Array Char} {i j k : Nat} {u v w : Value} {combine : Combiner}
    (hu : ReadTo text i u j) (hv : ReadTo text j v k) (hc : combine.Joins)
    (hw : combine.apply u v = .ok w) : ReadTo text i w k := by
  obtain ⟨hij, rfl⟩ := hu
  obtain ⟨hjk, rfl⟩ := hv
  rw [hc, between_append _ hij hjk] at hw
  cases hw
  exact ⟨hij.trans hjk, rfl⟩

/-- An acceptance consumed the text that is its value. -/
def Reply.Takes (text : Array Char) (i : Nat) : Reply → Prop
  | .accept value stop => ReadTo text i value stop
  | .reject _ _ => True

theorem fixedText_takes (text : Array Char) (i : Nat) (wanted : String) :
    (fixedText text i wanted).Takes text i := by
  unfold fixedText
  split
  · rename_i h
    have hb := between_of_aheadAt h
    rw [String.length_toList, String.ofList_toList] at hb
    exact ⟨Nat.le_add_right .., by rw [hb]⟩
  · trivial

theorem oneChar_takes {C : Parser → Prop} (text : Array Char) (i : Nat)
    (test : Char → Except Fault Bool) (description : String) :
    Keeps C (oneChar text i test description) (Reply.Takes text i) := by
  unfold oneChar
  split
  · exact .pure trivial
  · rename_i c hc
    refine .bind (.ofExcept fun _ _ => trivial) fun b _ => ?_
    split
    · exact .pure ⟨Nat.le_succ i, by rw [between_succ hc]⟩
    · exact .pure trivial

theorem joinTexts_append {front : List Value} {s t : String}
    (h : Accumulator.joinTexts front = .ok s) :
    Accumulator.joinTexts (front ++ [.text t]) = .ok (s ++ t) := by
  induction front generalizing s with
  | nil =>
    cases h
    simp [Accumulator.joinTexts, Except.map]
  | cons v front ih =>
    cases v <;> simp only [Accumulator.joinTexts, reduceCtorEq] at h
    case text u =>
      cases hj : Accumulator.joinTexts front with
      | error f =>
        rw [hj] at h
        cases h
      | ok r =>
        rw [hj] at h
        cases h
        rw [List.cons_append, Accumulator.joinTexts, ih hj]
        simp only [Except.map, String.append_assoc]

/-! ### Nodes and runs -/

/-- The state of a collection of texts, read up to an offset: the texts, last one first. -/
def Collected (text : Array Char) (i : Nat) (state : Value) (j : Nat) : Prop :=
  i ≤ j ∧ ∃ items, state = .list items ∧
    Accumulator.joinTexts items.reverse = .ok (between text.toList i j)

theorem Collected.append {text : Array Char} {i j k : Nat} {state taken v : Value}
    (h : Collected text i state j) (hv : ReadTo text j v k)
    (ha : Accumulator.text.append state v = .ok taken) : Collected text i taken k := by
  obtain ⟨hij, items, rfl, hitems⟩ := h
  obtain ⟨hjk, rfl⟩ := hv
  cases ha
  refine ⟨hij.trans hjk, _, rfl, ?_⟩
  rw [List.reverse_cons, joinTexts_append hitems, between_append _ hij hjk]

theorem Collected.retrieve {text : Array Char} {i j : Nat} {state v : Value}
    (h : Collected text i state j) (hr : Accumulator.text.retrieve state = .ok v) :
    ReadTo text i v j := by
  obtain ⟨hij, items, rfl, hitems⟩ := h
  simp only [Accumulator.text, hitems] at hr
  cases hr
  exact ⟨hij, rfl⟩

theorem nodeReply_takes {cx : Context} {n i : Nat} {run : Runner} {p : Parser}
    (hrun : ∀ q j, q.Everywhere cx.rules Parser.Textual →
      Keeps (Everywhere cx.rules Parser.Textual) (run q j) (Reply.Takes cx.text j))
    (hp : p.Everywhere cx.rules Parser.Textual) :
    Keeps (Everywhere cx.rules Parser.Textual) (nodeReply cx n run p i)
      (Reply.Takes cx.text i) := by
  have call : ∀ t : Thunk, t.Everywhere cx.rules Parser.Textual →
      Keeps (Everywhere cx.rules Parser.Textual) (t.call cx.rules n)
        (Everywhere cx.rules Parser.Textual) := fun t ht => call_everywhere textual_local n ht
  -- One more match of a repetition, the values joined.
  have more : ∀ {source : Parser} {combine : Combiner} (u : Value) (j : Nat), combine.Joins →
      source.Everywhere cx.rules Parser.Textual → ReadTo cx.text i u j →
      Keeps (Everywhere cx.rules Parser.Textual) (run source j) fun reply =>
        ∀ v stop, reply = .accept v stop → ∀ w, combine.apply u v = .ok w →
          ReadTo cx.text i w stop := by
    intro source combine u j hc hs hu
    refine (hrun source j hs).mono fun reply hv v stop he w hw => ?_
    subst he
    exact hu.join hv hc hw
  cases p with
  | literal id wanted => exact .pure (fixedText_takes cx.text i wanted)
  | char | charWhere => exact oneChar_takes cx.text i _ _
  | fail => exact .pure trivial
  | constant id value | identity id value =>
    have hvalue : value = .text "" := hp.here
    subst hvalue
    exact .pure (ReadTo.start cx.text i)
  | both id left right combine =>
    have hc : combine.Joins := hp.here
    refine .andThen (hrun left i (hp.child (.head _))) (fun _ _ _ => trivial) fun u stop hu => ?_
    refine .andThen (hrun right stop (hp.child (.tail _ (.head _)))) (fun _ _ _ => trivial)
      fun v last hv => ?_
    exact .bind (.ofExcept fun w hw => hw) fun w hw => .pure (ReadTo.join hu hv hc hw)
  | orElse id left right =>
    exact .orElse (hrun left i (hp.child (.head _))) (fun _ _ h => h)
      (.bind (call right (hp.thunk rfl)) fun q hq => hrun q i hq)
  | many id source neutral combine =>
    have ⟨hneutral, hc⟩ : neutral = .text "" ∧ combine.Joins := hp.here
    subst hneutral
    have hsource : source.Everywhere cx.rules Parser.Textual := hp.child (.head _)
    exact .bind (.greedy (J := ReadTo cx.text i) (fun u j hu => more u j hc hsource hu) _
      (.start cx.text i)) fun r hr => .pure hr
  | manyBetween id source minimum maximum neutral combine =>
    have ⟨hneutral, hc⟩ : neutral = .text "" ∧ combine.Joins := hp.here
    subst hneutral
    have hsource : source.Everywhere cx.rules Parser.Textual := hp.child (.head _)
    refine .bind (.upTo (J := ReadTo cx.text i) (fun u j hu => more u j hc hsource hu) _ 0
      (.start cx.text i)) fun r hr => ?_
    dsimp only
    split
    · exact .pure trivial
    · exact .pure hr
  | collect id source minimum accumulator =>
    have haccumulator : accumulator = .text := hp.here
    subst haccumulator
    have hsource : source.Everywhere cx.rules Parser.Textual := hp.child (.head _)
    have start : Collected cx.text i (.list []) i :=
      ⟨Nat.le_refl i, [], rfl, by rw [between_self]; rfl⟩
    refine .bind (.ofExcept (Q := (· = .list [])) fun s hs => by cases hs; rfl) fun s hs => ?_
    subst hs
    refine .bind (.greedy (J := fun s j => Collected cx.text i s.1 j) (fun s j hs => ?_) _ start)
      fun r hr => ?_
    · refine (hrun source j hsource).mono fun reply hv v stop he s' hs' => ?_
      subst he
      obtain ⟨taken, htaken, rfl⟩ : ∃ taken, Accumulator.text.append s.1 v = .ok taken ∧
          s' = (taken, s.2 + 1) := by
        rw [appendCounted] at hs'
        cases hpush : Accumulator.text.append s.1 v with
        | error f =>
          rw [hpush] at hs'
          cases hs'
        | ok taken =>
          rw [hpush] at hs'
          cases hs'
          exact ⟨taken, rfl, rfl⟩
      exact hs.append hv htaken
    · dsimp only
      split
      · exact .pure trivial
      · exact .bind (.ofExcept fun u hu => hu) fun u hu => .pure (Collected.retrieve hr hu)
  | delayed id thunk => exact .bind (call thunk (hp.thunk rfl)) fun q hq => hrun q i hq
  | memoized id thunk => exact .bind (.once (call thunk (hp.thunk rfl))) fun q hq => hrun q i hq
  | map | bind | product | loop | bare => exact hp.here.elim

theorem interpret_takes (cx : Context) (n : Nat) {p : Parser} (i : Nat)
    (hp : p.Everywhere cx.rules Parser.Textual) :
    Keeps (Everywhere cx.rules Parser.Textual) (interpret cx n p i) (Reply.Takes cx.text i) := by
  induction n generalizing p i with
  | zero => exact .exhaust
  | succ n ih => exact .step (nodeReply_takes (fun q j hq => ih j hq) hp)

/-- Where the cells hold string parsers, they still do after a run of the parser, and whatever the
run accepts, its value is the text that it consumed. -/
def Parser.TakesText (rules : Rules) (p : Parser) : Prop :=
  ∀ m : Memory, m.Holds (Everywhere rules Parser.Textual) → ∀ n input trace i,
    ((evaluateFrom rules n p input trace i).exec m).2.Holds (Everywhere rules Parser.Textual) ∧
    ∀ v stop, ((evaluateFrom rules n p input trace i).exec m).1 = .ok ⟨input, .accept v stop⟩ →
      i ≤ stop ∧ v = .text (between input.toList i stop)

theorem Parser.takesText {rules : Rules} {p : Parser} (hp : p.Everywhere rules Parser.Textual) :
    p.TakesText rules := by
  intro m hm n input trace i
  let cx : Context := { rules, text := input.toList.toArray, trace }
  have hrun : Keeps (Everywhere rules Parser.Textual) (evaluateFrom rules n p input trace i)
      fun r => ∀ v stop, r = ⟨input, .accept v stop⟩ →
        i ≤ stop ∧ v = .text (between input.toList i stop) := by
    refine .bind (interpret_takes cx n i hp) fun reply hr => .pure fun v stop he => ?_
    cases he
    exact hr
  obtain ⟨hkept, htaken⟩ := hrun m hm
  exact ⟨hkept, fun v stop h => htaken _ h v stop rfl⟩

/-! ### What string parsers are generated by -/

inductive StringParser : Parser → Prop
  | literal {id : Nat} {wanted : String} : StringParser (.literal id wanted)
  | char {id : Nat} {c : Char} : StringParser (.char id c)
  | charWhere {id : Nat} {predicate : Predicate} {description : String} :
      StringParser (.charWhere id predicate description)
  | fail {id : Nat} {reason : String} : StringParser (.fail id reason)
  | constant {id : Nat} : StringParser (.constant id (.text ""))
  | identity {id : Nat} : StringParser (.identity id (.text ""))
  | both {id : Nat} {p q : Parser} {combine : Combiner} (hp : StringParser p)
      (hq : StringParser q) (hc : combine.Joins) : StringParser (.both id p q combine)
  | orElse {id : Nat} {p : Parser} {t : Thunk} (hp : StringParser p) (ht : t.Plain)
      (hq : ∀ q, t = .const q → StringParser q) : StringParser (.orElse id p t)
  | many {id : Nat} {p : Parser} {combine : Combiner} (hp : StringParser p) (hc : combine.Joins) :
      StringParser (.many id p (.text "") combine)
  | manyBetween {id : Nat} {p : Parser} {minimum maximum : Int} {combine : Combiner}
      (hp : StringParser p) (hc : combine.Joins) :
      StringParser (.manyBetween id p minimum maximum (.text "") combine)
  | collect {id : Nat} {p : Parser} {minimum : Int} (hp : StringParser p) :
      StringParser (.collect id p minimum .text)
  | delayed {id : Nat} {t : Thunk} (ht : t.Plain) (hq : ∀ q, t = .const q → StringParser q) :
      StringParser (.delayed id t)
  | memoized {id : Nat} {t : Thunk} (ht : t.Plain) (hq : ∀ q, t = .const q → StringParser q) :
      StringParser (.memoized id t)

namespace StringParser

variable {p q : Parser}

theorem textual (h : StringParser p) : p.Textual := by
  cases h with
  | both _ _ hc => exact hc
  | many _ hc | manyBetween _ hc => exact ⟨rfl, hc⟩
  | constant | identity | collect => rfl
  | _ => trivial

theorem next?_eq_none (h : StringParser p) : p.next? = none := by
  cases h <;> rfl

theorem of_child (h : StringParser p) (hq : q ∈ p.children) : StringParser q := by
  cases h <;> simp only [Parser.children, List.mem_cons, List.not_mem_nil, or_false] at hq
  case both hl hr _ =>
    rcases hq with rfl | rfl
    · exact hl
    · exact hr
  all_goals subst hq; assumption

theorem of_thunk {t : Thunk} (h : StringParser p) (ht : p.thunk? = some t) :
    t.Plain ∧ ∀ q, t = .const q → StringParser q := by
  cases h <;> cases ht <;> exact ⟨‹_›, ‹_›⟩

/-- Rules that are all string parsers lead from string parsers to no others. -/
theorem everywhere {rules : Rules} (hrules : ∀ rule ∈ rules, StringParser rule.2)
    (hp : StringParser p) : p.Everywhere rules Parser.Textual := by
  intro q hq
  refine (hq.closed (P := StringParser) hp fun a b ha hab => ?_).textual
  cases hab with
  | child h => exact ha.of_child h
  | next hf h =>
    rw [ha.next?_eq_none] at hf
    cases hf
  | @thunk t ht h =>
    obtain ⟨hplain, hconst⟩ := ha.of_thunk ht
    cases t with
    | const r =>
      cases h
      exact hconst _ rfl
    | rule name =>
      simp only [Thunk.target] at h
      split at h
      · rename_i r hr
        cases h
        obtain ⟨before, after, rfl, -⟩ := List.lookup_eq_some_iff.1 hr
        exact hrules (name, b) (by simp)
      · cases h
    | optimized => exact hplain.elim

theorem alternatives {α : Type} (leaf : α → Build Parser)
    (hleaf : ∀ a next, StringParser (leaf a next).1) (rest : List α) (hp : StringParser p)
    (next : Nat) :
    StringParser
      ((rest.foldlM (fun p a => do Build.orElse p (← leaf a)) p : Build Parser) next).1 := by
  induction rest generalizing p next with
  | nil => exact hp
  | cons a rest ih =>
    have hchoice : StringParser (.orElse (leaf a next).2 p (.const (leaf a next).1)) :=
      .orElse hp trivial fun q hq => by
        cases hq
        exact hleaf a next
    exact ih hchoice _

theorem charIn (first : Char) (rest : List Char) (next : Nat) :
    StringParser (Build.charIn first rest next).1 :=
  alternatives Build.char (fun _ _ => .char) rest .char _

theorem stringIn (first : String) (rest : List String) (next : Nat) :
    StringParser (Build.stringIn first rest next).1 :=
  alternatives Build.literal (fun _ _ => .literal) rest .literal _

theorem repeatBefore {combine : Combiner} (hp : StringParser p) (hc : combine.Joins) (n : Nat)
    (hq : StringParser q) (next : Nat) :
    StringParser (Build.repeatBefore p combine n q next).1 := by
  induction n generalizing q next with
  | zero => exact hq
  | succ n ih => exact ih (.both hp hq hc) _

theorem repeatAtLeast (hp : StringParser p) (minimum : Int) (next : Nat) :
    StringParser (Build.repeatAtLeast p minimum .text next).1 :=
  repeatBefore hp Combiner.add_joins _ (.many hp Combiner.add_joins) _

end StringParser

/-- String parsers and their optimized forms return the text that they consume. -/
theorem string_parser_takes_text {rules : Rules} {p : Parser}
    (hrules : ∀ rule ∈ rules, StringParser rule.2) (hp : StringParser p) :
    p.TakesText rules ∧ ∀ (m : Memory) n q m', m.Holds (Everywhere rules Parser.Textual) →
      (optimize rules n p).exec m = (.ok q, m') →
        m'.Holds (Everywhere rules Parser.Textual) ∧ q.TakesText rules := by
  have htextual := hp.everywhere hrules
  refine ⟨Parser.takesText htextual, fun m n q m' hm h => ?_⟩
  obtain ⟨hkept, hq⟩ := optimize_everywhere textual_local n htextual m hm
  rw [h] at hkept hq
  exact ⟨hkept, Parser.takesText (hq q rfl)⟩

/-- A word of letters, or any number of such between brackets. -/
def nest : Parser :=
  let letter := Build.result 0 (Build.charIn 'x' ['y'])
  let word := Build.result 3 (Build.repeatAtLeast letter 1 .text)
  let inside := Parser.many 6 (.memoized 5 (.rule "nest")) (.text "") .add
  .orElse 11 (.both 10 (.both 9 (.char 7 '[') inside .add) (.char 8 ']') .add) (.const word)

theorem nest_generated : StringParser nest := by
  have hadd := Combiner.add_joins
  have hword := StringParser.repeatAtLeast (StringParser.charIn 'x' ['y'] 0) 1 3
  refine .orElse (.both (.both .char (.many (.memoized trivial nofun) hadd) hadd) .char hadd)
    trivial fun q hq => ?_
  cases hq
  exact hword

theorem nest_takes_text :
    let input := "[xy[y]]"
    ∃ q m', (optimize [("nest", nest)] 9 nest).exec {} = (.ok q, m') ∧
      ((evaluateFrom [("nest", nest)] 20 q input false 3).exec m').1 =
        .ok ⟨input, .accept (.text "[y]") 6⟩ ∧
      (3 ≤ 6 ∧ Value.text "[y]" = .text (between input.toList 3 6)) := by
  have hrules : ∀ rule ∈ [("nest", nest)], StringParser rule.2 := by
    simpa using nest_generated
  have hempty : ({} : Memory).Holds (Everywhere [("nest", nest)] Parser.Textual) :=
    fun _ _ h => absurd h (by simp [Memory.parserIn?])
  have hopt : ∃ q m', (optimize [("nest", nest)] 9 nest).exec {} = (.ok q, m') ∧
      ((evaluateFrom [("nest", nest)] 20 q "[xy[y]]" false 3).exec m').1 =
        .ok ⟨"[xy[y]]", .accept (.text "[y]") 6⟩ := ⟨_, _, rfl, rfl⟩
  obtain ⟨q, m', hq, hrun⟩ := hopt
  have h := (string_parser_takes_text hrules nest_generated).2 {} 9 q m' hempty hq
  exact ⟨q, m', hq, hrun, (h.2 m' h.1 20 _ false 3).2 _ _ hrun⟩

end ParserAlgebra
