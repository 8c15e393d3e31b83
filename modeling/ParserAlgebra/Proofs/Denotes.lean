import ParserAlgebra.Proofs.Reading

/-!
# What parsers denote

`Denotes` says that a parser, wherever it is run on a text, answers as a reading does with the
characters ahead. The runs are silent and leave the memory alone, so they are equal to the answers.
There is one lemma for each kind of node that a grammar without rules and functions is made of.
-/

namespace ParserAlgebra

/-- A run answers at an offset what a reading found, with the value made from what was read. -/
inductive Answers {α : Type} (text : Array Char) (val : α → Value) :
    Except Fault (Option (α × List Char)) → Run Reply → Prop
  | fault (f : Fault) : Answers text val (.error f) (Run.raise f)
  | reject (why : Reason) (start : Nat) : Answers text val (.ok none) (pure (.reject why start))
  | accept (a : α) {rest : List Char} {stop : Nat} (h : Ahead text stop rest) :
      Answers text val (.ok (some (a, rest))) (pure (.accept (val a) stop))

theorem Answers.andThen {α β : Type} {text : Array Char} {val : α → Value} {val' : β → Value}
    {f : Reading α} {g : α → Reading β} {cs : List Char} {run : Run Reply}
    {next : Value → Nat → Run Reply} (h : Answers text val (f cs) run)
    (hnext : ∀ a rest stop, Ahead text stop rest →
      Answers text val' (g a rest) (next (val a) stop)) :
    Answers text val' (f.bind g cs) (run.andThen next) := by
  unfold Reading.bind
  generalize f cs = found at h
  cases h with
  | fault e => exact .fault e
  | reject why start => exact .reject why start
  | @accept a rest stop hstop =>
    simp only [Run.andThen, pure_bind]
    exact hnext a rest stop hstop

/-- Runs of the parser that may nest `n` deep answer like the reading. -/
def Denotes {α : Type} (cx : Context) (n : Nat) (p : Parser) (f : Reading α) (val : α → Value) :
    Prop :=
  ∀ k i cs, Ahead cx.text i cs → Answers cx.text val (f cs) (interpret cx (n + k) p i)

theorem interpret_quiet {cx : Context} (ht : cx.trace = false) {p : Parser}
    (hp : p.unknownTag? = none) (n k i : Nat) :
    interpret cx (n + 1 + k) p i = nodeReply cx (n + k) (interpret cx (n + k)) p i := by
  rw [Nat.add_right_comm]
  exact interpret_succ ht hp (n + k) i

namespace Denotes

open Reading (Consumes)

variable {α β γ : Type} {cx : Context} {n id : Nat} {val : α → Value} {val' : β → Value}
  {f : Reading α} {g : Reading β} {p q : Parser}

theorem mono {m : Nat} (h : Denotes cx n p f val) (hm : n ≤ m) : Denotes cx m p f val := by
  intro k i cs hi
  have hk : m + k = n + (m - n + k) := by omega
  rw [hk]
  exact h _ i cs hi

variable (ht : cx.trace = false)
include ht

/-! ### Leaves -/

theorem ofTest {test : Char → Except Fault Bool} {passes : Char → Bool} {words : String}
    (hnode : ∀ m i, nodeReply cx m (interpret cx m) p i = oneChar cx.text i test words)
    (hp : p.unknownTag? = none) (htest : ∀ c, test c = .ok (passes c)) :
    Denotes cx (n + 1) p (.one passes) fun c => .text (String.singleton c) := by
  intro k i cs h
  rw [interpret_quiet ht hp, hnode, oneChar, h.getElem?]
  cases cs with
  | nil => exact .reject _ _
  | cons c cs =>
    simp only [List.head?_cons, htest, Run.ofExcept, pure_bind, Reading.one]
    split
    · exact .accept c h.tail
    · exact .reject _ _

theorem literal (w : String) :
    Denotes cx (n + 1) (.literal id w) (.skip w.toList) fun _ => .text w := by
  intro k i cs h
  rw [interpret_quiet ht rfl, nodeReply, fixedText, h.aheadAt_eq, Reading.skip]
  by_cases hw : w.toList.isPrefixOf cs = true
  · obtain ⟨tail, rfl⟩ := List.isPrefixOf_iff_prefix.1 hw
    have hstop : Ahead cx.text (i + w.length) tail := by
      rw [← String.length_toList]
      exact h.append
    simp only [hw, if_true, List.drop_left]
    exact .accept () hstop
  · simp only [hw, Bool.false_eq_true, if_false]
    exact .reject _ _

/-! ### Sequences and choices -/

theorem map {fn : Transform} {g : α → Except Fault β} (hp : Denotes cx n p f val)
    (hfn : ∀ a, fn.apply (val a) = (g a).map val') :
    Denotes cx (n + 1) (.map id p fn) (f.map g) val' := by
  intro k i cs h
  rw [interpret_quiet ht rfl, nodeReply, Reading.map]
  refine (hp k i cs h).andThen fun a rest stop hstop => ?_
  rw [hfn]
  cases g a with
  | error e => exact .fault e
  | ok b => exact .accept b hstop

theorem product (hp : Denotes cx n p f val) (hq : Denotes cx n q g val') :
    Denotes cx (n + 1) (.product id p q) (f.andThen g) fun x => .tuple [val x.1, val' x.2] := by
  intro k i cs h
  rw [interpret_quiet ht rfl, nodeReply, Reading.andThen]
  exact (hp k i cs h).andThen fun a rest stop hstop =>
    (hq k stop rest hstop).andThen fun b rest' last hlast => .accept (a, b) hlast

theorem both {combine : Combiner} {join : α × β → Except Fault γ} {val'' : γ → Value}
    (hp : Denotes cx n p f val) (hq : Denotes cx n q g val')
    (hc : ∀ a b, combine.apply (val a) (val' b) = (join (a, b)).map val'') :
    Denotes cx (n + 1) (.both id p q combine) ((f.andThen g).map join) val'' := by
  intro k i cs h
  rw [interpret_quiet ht rfl, nodeReply, Reading.map, Reading.andThen, Reading.bind_bind]
  refine (hp k i cs h).andThen fun a rest stop hstop => ?_
  rw [Reading.bind_bind]
  refine (hq k stop rest hstop).andThen fun b rest' last hlast => ?_
  simp only [hc, Reading.bind]
  cases join (a, b) with
  | error e => exact .fault e
  | ok c => exact .accept c hlast

theorem orElse {f' : Reading α} (hp : Denotes cx (n + 1) p f val)
    (hq : Denotes cx (n + 1) q f' val) :
    Denotes cx (n + 2) (.orElse id p (.const q)) (f.orElse f') val := by
  intro k i cs h
  have hcall : (Thunk.const q).call cx.rules (n + 1 + k) = pure q := by
    rw [Nat.add_right_comm, Thunk.call]
  rw [interpret_quiet ht rfl, nodeReply, Reading.orElse, hcall]
  have hs := hp k i cs h
  generalize f cs = found, interpret cx (n + 1 + k) p i = run at hs
  cases hs with
  | fault e => exact .fault e
  | reject why start =>
    simp only [Run.orElse, pure_bind]
    exact hq k i cs h
  | accept a hstop => exact .accept a hstop

/-! ### Repetitions -/

omit ht in
/-- The greedy loop reads as many values as there are. Its state is told by what was read so far. -/
theorem greedy {σ : Type} {append : σ → Value → Except Fault σ} (state : List α → σ)
    (hp : Denotes cx n p f val) (hf : Consumes f)
    (happend : ∀ as a, append (state as) (val a) = .ok (state (as ++ [a]))) (k budget : Nat)
    (as : List α) {i : Nat} {cs : List Char} (h : Ahead cx.text i cs) (hb : cs.length < budget) :
    (∀ e, f.many cs = .error e →
      ParserAlgebra.greedy (interpret cx (n + k) p) append budget (state as) i = Run.raise e) ∧
    ∀ bs rest, f.many cs = .ok (bs, rest) → ∃ stop, Ahead cx.text stop rest ∧
      ParserAlgebra.greedy (interpret cx (n + k) p) append budget (state as) i =
        pure (state (as ++ bs), stop) := by
  induction budget generalizing as i cs with
  | zero => omega
  | succ budget ih =>
    have hs := hp k i cs h
    rw [Reading.many, ParserAlgebra.greedy]
    have hshort : ∀ a rest, f cs = .ok (some (a, rest)) → rest.length < cs.length :=
      fun _ _ => hf.length_lt
    generalize f cs = found, interpret cx (n + k) p i = run at hs hshort
    cases hs with
    | fault e =>
      constructor
      · intro e' he
        cases he
        rfl
      · intro bs rest he
        cases he
    | reject why start =>
      constructor
      · intro e he
        cases he
      · intro bs rest he
        cases he
        refine ⟨i, h, ?_⟩
        rw [List.append_nil]
        rfl
    | @accept a rest stop hstop =>
      have hlt : rest.length < cs.length := hshort a rest rfl
      have hne : ¬stop = i := by
        rw [h.eq_iff hstop]
        exact Nat.ne_of_lt hlt
      have hrest : rest.length < budget := by omega
      obtain ⟨hfault, hdone⟩ := ih (as ++ [a]) hstop hrest
      simp only [pure_bind, hne, hlt, if_false, if_true, happend, Run.ofExcept]
      rcases hm : f.many rest with e | ⟨bs, rest'⟩
      · constructor
        · intro e' he
          cases he
          exact hfault e hm
        · intro bs rest he
          cases he
      · constructor
        · intro e he
          cases he
        · intro bs' rest'' he
          cases he
          obtain ⟨last, hlast, hrun⟩ := hdone bs rest' hm
          refine ⟨last, hlast, ?_⟩
          rw [hrun, List.append_assoc]
          rfl

theorem many {combine : Combiner} (state : List α → Value) (hp : Denotes cx n p f val)
    (hf : Consumes f)
    (happend : ∀ as a, combine.apply (state as) (val a) = .ok (state (as ++ [a]))) :
    Denotes cx (n + 1) (.many id p (state []) combine) (f.atLeast 0) state := by
  intro k i cs h
  rw [interpret_quiet ht rfl, nodeReply, Reading.atLeast, h.budget]
  obtain ⟨hfault, hdone⟩ := greedy state hp hf happend k _ [] h
    (Nat.lt_add_of_pos_right Nat.two_pos)
  rcases hm : f.many cs with e | ⟨as, rest⟩
  · rw [hfault e hm]
    exact .fault e
  · obtain ⟨stop, hstop, hrun⟩ := hdone as rest hm
    rw [hrun]
    exact .accept as hstop

theorem collect {accumulator : Accumulator} (state : List α → Value) {val' : List α → Value}
    (minimum : Nat) (hp : Denotes cx n p f val) (hf : Consumes f)
    (hcreate : accumulator.create = .ok (state []))
    (happend : ∀ as a, accumulator.append (state as) (val a) = .ok (state (as ++ [a])))
    (hretrieve : ∀ as, accumulator.retrieve (state as) = .ok (val' as)) :
    Denotes cx (n + 1) (.collect id p minimum accumulator) (f.atLeast minimum) val' := by
  intro k i cs h
  have hcounted : ∀ (as : List α) a, appendCounted accumulator (state as, as.length) (val a) =
      .ok (state (as ++ [a]), (as ++ [a]).length) := by
    intro as a
    simp [appendCounted, happend, Except.map]
  obtain ⟨hfault, hdone⟩ := greedy (fun as => (state as, as.length)) hp hf hcounted k _ [] h
    (Nat.lt_add_of_pos_right Nat.two_pos)
  rw [interpret_quiet ht rfl, nodeReply, Reading.atLeast, h.budget, hcreate]
  simp only [Run.ofExcept, pure_bind]
  rcases hm : f.many cs with e | ⟨as, rest⟩
  · have hrun := hfault e hm
    simp only [List.length_nil] at hrun
    rw [hrun]
    exact .fault e
  · obtain ⟨stop, hstop, hrun⟩ := hdone as rest hm
    simp only [List.length_nil] at hrun
    rw [hrun]
    simp only [pure_bind, List.nil_append, Except.map, Int.ofNat_lt, hretrieve]
    split
    · exact .reject _ _
    · exact .accept as hstop

/-! ### Texts and lists -/

omit ht in
theorem joinTexts_chars (cs : List Char) :
    Accumulator.joinTexts (cs.map fun c => .text (String.singleton c)) =
      .ok (String.ofList cs) := by
  induction cs with
  | nil => rfl
  | cons c cs ih =>
    rw [List.map_cons, Accumulator.joinTexts, ih]
    simp only [Except.map, String.singleton_eq_ofList, ← String.ofList_append,
      List.singleton_append]

theorem collect_word {test : Char → Bool}
    (hp : Denotes cx n p (.one test) fun c => .text (String.singleton c)) :
    Denotes cx (n + 1) (.collect id p (1 : Nat) .text) (.word test)
      fun cs => .text (String.ofList cs) := by
  rw [← Reading.atLeast_one]
  refine collect ht (fun cs => .list (cs.map fun c => .text (String.singleton c)).reverse) 1 hp
    (Reading.one_consumes test) rfl (fun cs c => ?_) fun cs => ?_
  · simp [Accumulator.text, Accumulator.push]
  · simp only [Accumulator.text, List.reverse_reverse, joinTexts_chars]
    rfl

theorem collect_values (minimum : Nat) (hf : Consumes f) (hp : Denotes cx n p f val) :
    Denotes cx (n + 1) (.collect id p minimum .list) (f.atLeast minimum)
      fun as => .list (as.map val) := by
  refine collect ht (fun as => .list (as.map val).reverse) minimum hp hf rfl (fun as a => ?_)
    fun as => ?_
  · simp [Accumulator.list, Accumulator.push]
  · simp [Accumulator.list]

theorem oneOrMore_word {test : Char → Bool} {id' : Nat}
    (hp : Denotes cx n p (.one test) fun c => .text (String.singleton c)) :
    Denotes cx (n + 2) (.both id p (.many id' p (.text "") .add) .add) (.word test)
      fun cs => .text (String.ofList cs) := by
  have hmany : Denotes cx (n + 1) (.many id' p (.text "") .add) ((Reading.one test).atLeast 0)
      fun cs => .text (String.ofList cs) := by
    refine many ht (fun cs => .text (String.ofList cs)) hp (Reading.one_consumes test)
      fun cs c => ?_
    simp [Combiner.add, Combiner.plus]
  rw [← Reading.one_andThen_atLeast]
  refine both ht (hp.mono (Nat.le_succ n)) hmany fun c cs => ?_
  simp [Combiner.add, Combiner.plus, Except.map]

/-! ### Characters of a list -/

theorem foldl_orElse_char (rest : List Char) {passes : Char → Bool} (next : Nat)
    (hp : Denotes cx (n + 1) p (.one passes) fun c => .text (String.singleton c)) :
    Denotes cx (n + 1 + rest.length)
      ((rest.foldlM (fun p c => do Build.orElse p (← Build.char c)) p : Build Parser) next).1
      (.one fun c => passes c || rest.contains c) fun c => .text (String.singleton c) := by
  induction rest generalizing n p passes next with
  | nil =>
    have hpasses : (fun c => passes c || List.contains [] c) = passes := by
      funext c
      rw [List.contains_nil, Bool.or_false]
    rw [hpasses]
    exact hp
  | cons d rest ih =>
    have hd : Denotes cx (n + 1) (.char next d) (.one fun c => c == d)
        fun c => .text (String.singleton c) := ofTest ht (fun _ _ => rfl) rfl fun _ => rfl
    have hboth : Denotes cx (n + 2) (.orElse (next + 1) p (.const (.char next d)))
        ((Reading.one passes).orElse (.one fun c => c == d))
        fun c => .text (String.singleton c) := orElse ht hp hd
    rw [Reading.orElse_one] at hboth
    have hrest := ih (next + 2) hboth
    have hlen : n + 1 + (d :: rest).length = n + 1 + 1 + rest.length := by
      rw [List.length_cons]
      omega
    have hpasses : (fun c => passes c || (d :: rest).contains c) =
        fun c => (passes c || c == d) || rest.contains c := by
      funext c
      rw [List.contains_cons, Bool.or_assoc]
    rw [hlen, hpasses]
    exact hrest

theorem charIn (first : Char) (rest : List Char) (next : Nat) :
    Denotes cx (1 + rest.length) (Build.charIn first rest next).1
      (.one fun c => (first :: rest).contains c) fun c => .text (String.singleton c) := by
  have hfirst : Denotes cx (0 + 1) (.char next first) (.one fun c => c == first)
      fun c => .text (String.singleton c) := ofTest ht (fun _ _ => rfl) rfl fun _ => rfl
  have hrest := foldl_orElse_char ht rest (next + 1) hfirst
  have hpasses : (fun c => (first :: rest).contains c) =
      fun c => c == first || rest.contains c := by
    funext c
    rw [List.contains_cons]
  rw [hpasses]
  rw [Nat.zero_add] at hrest
  exact hrest

end Denotes

/-- Runs of the parser at an offset that may nest `n` deep reject in these words. -/
def Refuses (cx : Context) (n : Nat) (p : Parser) (i : Nat) (why : Reason) (start : Nat) : Prop :=
  ∀ k, interpret cx (n + k) p i = pure (.reject why start)

namespace Refuses

variable {cx : Context} {n i id start start' : Nat} {p q : Parser} {why why' : Reason}

theorem mono {m : Nat} (h : Refuses cx n p i why start) (hm : n ≤ m) :
    Refuses cx m p i why start := by
  intro k
  have hk : m + k = n + (m - n + k) := by omega
  rw [hk, h]

variable (ht : cx.trace = false)
include ht

theorem map {fn : Transform} (h : Refuses cx n p i why start) :
    Refuses cx (n + 1) (.map id p fn) i why start := by
  intro k
  rw [interpret_quiet ht rfl, nodeReply, h]
  rfl

theorem product (h : Refuses cx n p i why start) :
    Refuses cx (n + 1) (.product id p q) i why start := by
  intro k
  rw [interpret_quiet ht rfl, nodeReply, h]
  rfl

theorem both {combine : Combiner} (h : Refuses cx n p i why start) :
    Refuses cx (n + 1) (.both id p q combine) i why start := by
  intro k
  rw [interpret_quiet ht rfl, nodeReply, h]
  rfl

/-- A choice rejects in the words of its right side, whatever the words of the left one. -/
theorem orElse {α : Type} {f : Reading α} {val : α → Value} {cs : List Char}
    (hp : Denotes cx (n + 1) p f val) (hi : Ahead cx.text i cs) (hf : f cs = .ok none)
    (hq : Refuses cx (n + 1) q i why start) :
    Refuses cx (n + 2) (.orElse id p (.const q)) i why start := by
  intro k
  have hcall : (Thunk.const q).call cx.rules (n + 1 + k) = pure q := by
    rw [Nat.add_right_comm, Thunk.call]
  have hs := hp k i cs hi
  rw [interpret_quiet ht rfl, nodeReply, hcall]
  rw [hf] at hs
  generalize interpret cx (n + 1 + k) p i = run at hs
  cases hs
  simp only [Run.orElse, pure_bind]
  exact hq k

end Refuses

end ParserAlgebra
