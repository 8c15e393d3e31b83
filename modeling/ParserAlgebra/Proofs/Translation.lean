import ParserAlgebra.Proofs.Lockstep
import ParserAlgebra.Proofs.Offset
import ParserAlgebra.Proofs.Optimizer.Linked

/-!
# Parsing does not depend on where the text begins

A run at an offset of a text and a run at the beginning of what stands there go in lockstep: under
every bound they end alike, with offsets that differ by the first offset. `Run.Mirrors` is this
relation of two runs; the two memories only have to be settled, so neither run depends on the other.
-/

namespace ParserAlgebra

open Run (Finds Lockstep)

/-- Two memories, each of them settled. -/
def Memory.BothSettled (rules : Rules) (root : Parser) (m m' : Memory) : Prop :=
  m.Settled rules root ∧ m'.Settled rules root

namespace Run

variable {α β γ δ : Type} {rules : Rules} {root : Parser}

/-- From settled memories the run `y` ends as `x` does, with the value of `x` under `f`. -/
def Mirrors (rules : Rules) (root : Parser) (f : α → β) (x : Run α) (y : Run β) : Prop :=
  ∀ m m', m.Settled rules root → m'.Settled rules root →
    (x.exec m).2.Settled rules root ∧ (y.exec m').2.Settled rules root ∧
      (y.exec m').1 = (x.exec m).1.map f

/-- To mirror is to go in lockstep over settled memories. -/
theorem mirrors_of_lockstep {f : α → β} {x : Run α} {y : Run β}
    (h : Lockstep (Memory.BothSettled rules root) (fun a b => b = f a) x y) :
    Mirrors rules root f x y := by
  intro m m' hm hm'
  obtain ⟨⟨hx, hy⟩, hA⟩ := h m m' ⟨hm, hm'⟩
  refine ⟨hx, hy, ?_⟩
  generalize (x.exec m).1 = o at hA ⊢
  generalize (y.exec m').1 = o' at hA ⊢
  cases hA with
  | ok hb => exact congrArg Except.ok hb
  | halt halt => rfl

/-- Both sides find the same, if there is something, and go on with it. -/
theorem Lockstep.finds_bind {e : Except Fault α} {x y : Run α} {f : α → Run γ} {g : α → Run δ}
    {Q : γ → δ → Prop} (hx : Finds rules root e x) (hy : Finds rules root e y)
    (hfg : ∀ a, e = .ok a → Lockstep (Memory.BothSettled rules root) Q (f a) (g a)) :
    Lockstep (Memory.BothSettled rules root) Q (x >>= f) (y >>= g) := by
  rintro m m' ⟨hm, hm'⟩
  obtain ⟨n, hxm, hn, -⟩ := hx m hm
  obtain ⟨n', hym, hn', -⟩ := hy m' hm'
  rw [exec_bind, exec_bind, hxm, hym]
  cases e with
  | error fault => exact ⟨⟨hn, hn'⟩, .halt _⟩
  | ok a => exact hfg a rfl n n' ⟨hn, hn'⟩

end Run

open Run (Mirrors)

/-! ### Offsets -/

def Reason.shift (d : Nat) : Reason → Reason
  | .unmatched expected index => .unmatched expected (d + index)
  | .notAhead wanted index => .notAhead wanted (d + index)
  | why => why

def Reply.shift (d : Nat) : Reply → Reply
  | .accept v stop => .accept v (d + stop)
  | .reject why start => .reject (why.shift d) (d + start)

/-- The replies are those of one run at two offsets: the second one is the first one shifted. -/
abbrev Reply.Shifted (d : Nat) : Reply → Reply → Prop :=
  Reply.Meets (fun i j => j = d + i) fun why why' => why' = why.shift d

theorem Reply.Shifted.eq {d : Nat} {r r' : Reply} (h : r.Shifted d r') : r' = r.shift d := by
  cases h with
  | accept v h => rw [h, Reply.shift]
  | reject hw h => rw [hw, h, Reply.shift]

theorem Reply.shifted (d : Nat) (r : Reply) : r.Shifted d (r.shift d) := by
  cases r with
  | accept v stop => exact .accept v rfl
  | reject why start => exact .reject rfl rfl

/-- The text `part` stands in the text `whole` from the offset `d` to the end. -/
structure Suffix (d : Nat) (part whole : Array Char) : Prop where
  size : whole.size = d + part.size
  get : ∀ i, whole[d + i]? = part[i]?

theorem Suffix.drop {cs : List Char} {d : Nat} (h : d ≤ cs.length) :
    Suffix d (cs.drop d).toArray cs.toArray := by
  refine ⟨?_, fun i => ?_⟩
  · rw [List.size_toArray, List.size_toArray, List.length_drop]
    omega
  · rw [List.getElem?_toArray, List.getElem?_toArray, List.getElem?_drop]

variable {rules : Rules} {root : Parser} {part whole : Array Char} {d : Nat}

theorem Suffix.aheadAt (h : Suffix d part whole) (cs : List Char) (i : Nat) :
    aheadAt whole (d + i) cs = aheadAt part i cs := by
  induction cs generalizing i with
  | nil => simp only [ParserAlgebra.aheadAt, h.size, Nat.add_le_add_iff_left]
  | cons c cs ih => rw [ParserAlgebra.aheadAt, ParserAlgebra.aheadAt, h.get, Nat.add_assoc, ih]

theorem Suffix.fixedText (h : Suffix d part whole) (i : Nat) (wanted : String) :
    fixedText whole (d + i) wanted = (fixedText part i wanted).shift d := by
  unfold ParserAlgebra.fixedText
  rw [h.aheadAt]
  split
  · rw [Reply.shift, Nat.add_assoc]
  · rfl

theorem Suffix.budgetAt (h : Suffix d part whole) (i : Nat) :
    budgetAt whole (d + i) = budgetAt part i := by
  unfold ParserAlgebra.budgetAt
  rw [h.size]
  omega

theorem Suffix.oneChar (h : Suffix d part whole) (i : Nat) (test : Char → Except Fault Bool)
    (words : String) : Lockstep (Memory.BothSettled rules root) (Reply.Shifted d)
      (oneChar part i test words) (oneChar whole (d + i) test words) := by
  unfold ParserAlgebra.oneChar
  rw [h.get]
  cases part[i]? with
  | none => exact .pure (.reject rfl rfl)
  | some c =>
    refine .ofExcept_bind fun b _ => ?_
    cases b with
    | true => exact .pure (.accept _ (Nat.add_assoc d i 1))
    | false => exact .pure (.reject rfl rfl)

/-! ### Nodes and runs -/

theorem nodeReply_shifts (htext : Suffix d part whole) (hroot : root.Made rules) (trace : Bool)
    {n : Nat} (hrun : ∀ {q : Parser} (j : Nat), Reaches rules root q →
      Lockstep (Memory.BothSettled rules root) (Reply.Shifted d)
        (interpret ⟨rules, part, trace⟩ n q j) (interpret ⟨rules, whole, trace⟩ n q (d + j)))
    {p : Parser} (i : Nat) (hp : Reaches rules root p) :
    Lockstep (Memory.BothSettled rules root) (Reply.Shifted d)
      (nodeReply ⟨rules, part, trace⟩ n (interpret ⟨rules, part, trace⟩ n) p i)
      (nodeReply ⟨rules, whole, trace⟩ n (interpret ⟨rules, whole, trace⟩ n) p (d + i)) := by
  have hsource : ∀ {q : Parser}, q ∈ p.children → ∀ j j', j' = d + j →
      Lockstep (Memory.BothSettled rules root) (Reply.Shifted d)
        (interpret ⟨rules, part, trace⟩ n q j) (interpret ⟨rules, whole, trace⟩ n q j') := by
    rintro q hq j _ rfl
    exact hrun j (hp.tail (.child hq))
  -- Without a bound the thunk may be found on one side only, but then neither side goes on.
  have hthunk : ∀ {t : Thunk}, p.thunk? = some t →
      Lockstep (Memory.BothSettled rules root) (Reply.Shifted d)
        (t.call rules n >>= fun q => interpret ⟨rules, part, trace⟩ n q i)
        (t.call rules n >>= fun q => interpret ⟨rules, whole, trace⟩ n q (d + i)) := by
    intro t ht
    cases n with
    | zero => exact .exhaust
    | succ n =>
      have hcall : Finds rules root (t.target rules) (t.call rules (n + 1)) :=
        .call (hroot.plain hp ht) n
      exact .finds_bind hcall hcall fun q hq => hrun i (hp.tail (.thunk ht hq))
  have hoffset : ∀ j j' k k', j' = d + j → k' = d + k → (j = k ↔ j' = k') := by omega
  cases p with
  | literal id wanted =>
    refine .pure ?_
    rw [htext.fixedText]
    exact Reply.shifted d _
  | char | charWhere => exact htext.oneChar i _ _
  | constant | identity => exact .pure (.accept _ rfl)
  | fail => exact .pure (.reject rfl rfl)
  | map id source fn =>
    exact .andThen (hsource (.head _) i _ rfl) fun v j j' hj =>
      .ofExcept_bind fun u _ => .pure (.accept u hj)
  | bind id source label next =>
    refine .andThen (hsource (.head _) i _ rfl) fun v j j' hj => ?_
    subst hj
    exact .ofExcept_bind fun q hq => hrun j (hp.tail (.next rfl hq))
  | product id left right =>
    exact .andThen (hsource (.head _) i _ rfl) fun v j j' hj =>
      .andThen (hsource (.tail _ (.head _)) j j' hj) fun u k k' hk => .pure (.accept _ hk)
  | both id left right combine =>
    exact .andThen (hsource (.head _) i _ rfl) fun v j j' hj =>
      .andThen (hsource (.tail _ (.head _)) j j' hj) fun u k k' hk =>
        .ofExcept_bind fun x _ => .pure (.accept x hk)
  | orElse id left right => exact .orElse (hsource (.head _) i _ rfl) (hthunk rfl)
  | many id source identity combine =>
    simp only [nodeReply, htext.budgetAt]
    refine .bind (.greedy hoffset (hsource (.head _)) _ _ _ rfl) fun r r' hr => .pure ?_
    rw [hr.1]
    exact .accept _ hr.2
  | manyBetween id source minimum maximum identity combine =>
    refine .bind (.upTo (hsource (.head _)) _ _ _ _ rfl) fun r r' hr => ?_
    obtain ⟨count, value, stop⟩ := r
    obtain ⟨rfl, rfl, hstop⟩ := hr
    dsimp only
    split
    · exact .pure (.reject rfl rfl)
    · exact .pure (.accept _ hstop)
  | collect id source minimum accumulator =>
    simp only [nodeReply, htext.budgetAt]
    refine .ofExcept_bind fun start _ =>
      .bind (.greedy hoffset (hsource (.head _)) _ _ _ rfl) fun r r' hr => ?_
    obtain ⟨⟨state, count⟩, stop⟩ := r
    obtain ⟨⟨state', count'⟩, stop'⟩ := r'
    obtain ⟨hstate, hstop⟩ := hr
    cases hstate
    dsimp only
    split
    · exact .pure (.reject rfl rfl)
    · exact .ofExcept_bind fun v _ => .pure (.accept v hstop)
  | delayed id thunk => exact hthunk rfl
  | memoized id thunk =>
    cases n with
    | zero =>
      intro m m' hm
      simp only [nodeReply, Thunk.call, interpret, Run.exec_once_exhaust]
      exact ⟨hm, .halt _⟩
    | succ n =>
      have honce : Finds rules root (thunk.target rules)
          (Run.once (.node id) (thunk.call rules (n + 1))) :=
        .once (fun hr => hroot.single hr hp) hp (.call (hroot.plain hp rfl) n)
      exact .finds_bind honce honce fun q hq => hrun i (hp.tail (.thunk rfl hq))
  | loop id label next seed =>
    have hnext : ∀ s, Lockstep (Memory.BothSettled rules root)
        (fun q q' => q = q' ∧ Reaches rules root q) (Run.ofExcept (next s))
        (Run.ofExcept (next s)) :=
      fun s => .ofExcept fun q hq => ⟨rfl, hp.tail (.next rfl hq)⟩
    refine .rounds hnext (fun q _ j _ hq hj => ?_) n seed rfl
    obtain ⟨rfl, hq⟩ := hq
    subst hj
    exact hrun j hq
  | bare => cases hroot.kinded _ hp

theorem interpret_shifts (htext : Suffix d part whole) (hroot : root.Made rules) (trace : Bool)
    (n : Nat) {p : Parser} (i : Nat) (hp : Reaches rules root p) :
    Lockstep (Memory.BothSettled rules root) (Reply.Shifted d)
      (interpret ⟨rules, part, trace⟩ n p i) (interpret ⟨rules, whole, trace⟩ n p (d + i)) := by
  induction n generalizing p i with
  | zero => exact .exhaust
  | succ n ih =>
    exact .step (fun _ _ _ hm => ⟨⟨hm.1.node, hm.1.right⟩, hm.2⟩)
      (fun _ _ _ hm => ⟨hm.1, ⟨hm.2.node, hm.2.right⟩⟩) rfl
      (nodeReply_shifts htext hroot trace (fun j hq => ih j hq) i hp)

theorem interpret_mirrors (htext : Suffix d part whole) (hroot : root.Made rules) (trace : Bool)
    (n : Nat) {p : Parser} (i : Nat) (hp : Reaches rules root p) :
    Mirrors rules root (Reply.shift d) (interpret ⟨rules, part, trace⟩ n p i)
      (interpret ⟨rules, whole, trace⟩ n p (d + i)) :=
  Run.mirrors_of_lockstep
    ((interpret_shifts htext hroot trace n i hp).mono fun _ _ hr => hr.eq)

theorem evaluateFrom_exec (rules : Rules) (n : Nat) (p : Parser) (input : String) (trace : Bool)
    (i : Nat) (m : Memory) :
    (evaluateFrom rules n p input trace i).exec m =
      (((interpret ⟨rules, input.toList.toArray, trace⟩ n p i).exec m).1.map (Result.mk input),
        ((interpret ⟨rules, input.toList.toArray, trace⟩ n p i).exec m).2) := by
  simp only [evaluateFrom, Run.exec_bind]
  rcases (interpret ⟨rules, input.toList.toArray, trace⟩ n p i).exec m with ⟨_ | _, _⟩ <;> rfl

theorem evaluateFrom_eq (rules : Rules) (n : Nat) (p : Parser) (input : String) (trace : Bool)
    (i : Nat) (m : Memory) :
    ((evaluateFrom rules n p input trace i).exec m).1 =
      ((interpret ⟨rules, input.toList.toArray, trace⟩ n p i).exec m).1.map (Result.mk input) := by
  rw [evaluateFrom_exec]

/-- A run at an offset of a text and a run on the text that is left there accept, reject and raise
alike, with offsets that differ by the first offset. A reason tells an offset of its own text. -/
theorem evaluateFrom_translates {rules : Rules} {p : Parser} (hp : p.Made rules) (n : Nat)
    (input : String) (trace : Bool) {i : Nat} (hi : i ≤ input.length) {m m' : Memory}
    (hm : m.Settled rules p) (hm' : m'.Settled rules p) :
    let rest := String.ofList (input.toList.drop i)
    let onWhole := ((evaluateFrom rules n p input trace i).exec m).1
    let onRest := ((evaluateFrom rules n p rest trace 0).exec m').1
    (∀ v stop, onWhole = .ok ⟨input, .accept v stop⟩ ↔
      i ≤ stop ∧ onRest = .ok ⟨rest, .accept v (stop - i)⟩) ∧
    (∀ why start, onWhole = .ok ⟨input, .reject why start⟩ ↔
      i ≤ start ∧ ∃ why', why'.shift i = why ∧ onRest = .ok ⟨rest, .reject why' (start - i)⟩) ∧
    ∀ f, onWhole = .error (.fault f) ↔ onRest = .error (.fault f) := by
  intro rest onWhole onRest
  have htext : Suffix i rest.toList.toArray input.toList.toArray := by
    rw [String.toList_ofList]
    exact .drop (by rwa [String.length_toList])
  obtain ⟨-, -, he⟩ := interpret_mirrors htext hp trace n 0 .refl m' m hm' hm
  have hwhole := evaluateFrom_eq rules n p input trace i m
  have hrest := evaluateFrom_eq rules n p rest trace 0 m'
  rw [Nat.add_zero] at he
  rw [he] at hwhole
  change onWhole = _ at hwhole
  change onRest = _ at hrest
  rw [hwhole, hrest]
  have hmoved : ∀ last stop, i + last = stop ↔ i ≤ stop ∧ last = stop - i := by omega
  rcases ((interpret ⟨rules, rest.toList.toArray, trace⟩ n p 0).exec m').1 with
    halt | ⟨u, last⟩ | ⟨because, first⟩
  · refine ⟨fun v stop => ?_, fun why start => ?_, fun f => Iff.rfl⟩
    · simp [Except.map]
    · simp [Except.map]
  · refine ⟨fun v stop => ?_, fun why start => ?_, fun f => ?_⟩
    · simp [Except.map, Reply.shift, hmoved, and_left_comm]
    · simp [Except.map, Reply.shift]
    · simp [Except.map]
  · refine ⟨fun v stop => ?_, fun why start => ?_, fun f => ?_⟩
    · simp [Except.map, Reply.shift]
    · simp [Except.map, Reply.shift, hmoved, and_left_comm]
    · simp [Except.map]

theorem parens_translate :
    ((evaluateFrom [("parens", parens)] 20 parens "x(())" false 1).exec {}).1 =
      .ok ⟨"x(())", .accept (.text "(())") 5⟩ := by
  have hmade : parens.Made [("parens", parens)] := Parser.made_of_static rfl rfl
  have hrun : ((evaluateFrom [("parens", parens)] 20 parens "(())" false 0).exec {}).1 =
      .ok ⟨"(())", .accept (.text "(())") 4⟩ := rfl
  have h := evaluateFrom_translates hmade 20 "x(())" false (i := 1) (by decide) (.empty _ _)
    (.empty _ _)
  exact (h.1 _ _).2 ⟨by decide, hrun⟩

end ParserAlgebra
