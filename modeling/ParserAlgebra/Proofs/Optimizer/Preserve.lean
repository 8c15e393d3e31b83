import ParserAlgebra.Proofs.Optimizer.Again
import ParserAlgebra.Proofs.Reach.Static

/-!
# Optimizing preserves results

The run of a parser is followed by the run of each of its optimized forms, node by node. A chain is
followed by the one look at the text that its test of membership takes, however the chain is nested.
-/

namespace ParserAlgebra

open Run (Growing Follows Passes Arrives Finds Same)
open ParserAlgebra.Parser (Kinded)

/-! ### Chains -/

/-- What a chain of these characters replies, where the last alternative has these words. -/
def Chain.reply (text : Array Char) (i : Nat) (cs : List Char) (words : String) : Reply :=
  match text[i]? with
  | none => .reject (.ended words) i
  | some c =>
    if c ∈ cs then .accept (.text (String.singleton c)) (i + 1) else .reject (.unmatched words i) i

theorem oneChar_eq_reply {text : Array Char} {i : Nat} {test : Char → Except Fault Bool}
    {cs : List Char} {words : String} (h : ∀ c, test c = .ok (cs.contains c)) :
    oneChar text i test words = pure (Chain.reply text i cs words) := by
  unfold oneChar Chain.reply
  cases text[i]? with
  | none => rfl
  | some c =>
    simp only [h, Run.ofExcept, pure_bind, List.contains_iff_mem]
    split <;> rfl

theorem Chain.lastWords_append (front : List (Nat × Char)) {back : List (Nat × Char)}
    (h : back ≠ []) : Chain.lastWords (front ++ back) = Chain.lastWords back := by
  simp only [Chain.lastWords, List.getLast?_append, List.getLast?_eq_some_getLast h,
    Option.some_or]

/-- Where the front accepts, so does the whole, and elsewhere the back decides. -/
theorem Chain.reply_append (text : Array Char) (i : Nat) (cs ds : List Char)
    (words words' : String) :
    Chain.reply text i (cs ++ ds) words' =
      match Chain.reply text i cs words with
      | .accept v stop => .accept v stop
      | .reject _ _ => Chain.reply text i ds words' := by
  unfold Chain.reply
  cases text[i]? with
  | none => rfl
  | some c =>
    by_cases h : c ∈ cs <;> simp [h]

variable {root : Parser}

theorem Linked.write_left {rules : Rules} (w : World rules root) (m m' : Memory) (e : LogEntry)
    (h : Linked w m m') : Linked w (m.write e) m' :=
  h.near ⟨h.left.node, h.left.right⟩ h.right ⟨rfl, fun _ => rfl⟩

theorem call_passes {rules : Rules} (w : World rules root) (n : Nat) {t : Thunk} {p : Parser}
    (ht : t.Plain) (hp : t.target rules = .ok p) :
    Passes Linked (fun _ q => q = p) w (t.call rules n) := by
  have hcall : Finds rules root (.ok p) (t.call rules (n + 1)) := hp ▸ .call ht n
  exact .of_extends (call_extends rules n t) (hcall.follows (fun _ => .pure ()) fun _ _ => rfl)

theorem chain_passes {cx : Context} (hroot : root.Made cx.rules) {p : Parser}
    {cs : List (Nat × Char)} (h : Chain.Chars cx.rules p cs) (w : World cx.rules root) (n i : Nat)
    (hp : Reaches cx.rules root p) :
    Passes Linked (fun _ r => r = Chain.reply cx.text i (cs.map Prod.snd) (Chain.lastWords cs)) w
      (nodeReply cx n (interpret cx n) p i) := by
  -- A choice in the chain is a node of its own, with a bound of its own.
  induction h generalizing n w with
  | char id c =>
    have hone : oneChar cx.text i (fun d => .ok (d == c)) (Parser.describe c) =
        pure (Chain.reply cx.text i [c] (Parser.describe c)) :=
      oneChar_eq_reply fun d => by simp [beq_eq_decide]
    rw [nodeReply, hone]
    exact .pure fun _ _ => rfl
  | @orElse id left q right front back hfront hq hback ihl ihr =>
    have hrun : ∀ (q : Parser) (cs : List (Nat × Char)), q.isBare = false →
        (∀ (w : World cx.rules root) n, Passes Linked
          (fun _ r => r = Chain.reply cx.text i (cs.map Prod.snd) (Chain.lastWords cs)) w
          (nodeReply cx n (interpret cx n) q i)) →
        ∀ (w : World cx.rules root) n, Passes Linked
          (fun _ r => r = Chain.reply cx.text i (cs.map Prod.snd) (Chain.lastWords cs)) w
          (interpret cx n q i) := by
      intro q cs hk hnode w n
      cases n with
      | zero => exact .exhaust _
      | succ n =>
        exact .step Linked.write_left (Parser.unknownTag?_eq_none hk) (fun _ _ _ _ h => h)
          (hnode w n)
    have hl : Reaches cx.rules root left := hp.tail (.child (.head _))
    have hr : Reaches cx.rules root q := hp.tail (.thunk rfl hq)
    refine (hrun left front (hroot.kinded _ hl) (fun w n => ihl w n hl) w n).bind
      fun w₁ reply _ he => ?_
    rw [List.map_append, Chain.reply_append cx.text i _ _ (Chain.lastWords front), ← he,
      Chain.lastWords_append front hback.ne_nil]
    cases reply with
    | accept v stop => exact .pure fun _ _ => rfl
    | reject why start =>
      refine (call_passes w₁ n (hroot.plain hp rfl) hq).bind fun w₂ q' _ he => ?_
      subst he
      exact hrun _ back (hroot.kinded _ hr) (fun w n => ihr w n hr) w₂ n

/-! ### Nodes -/

theorem call_follows {rules : Rules} (w : World rules root) (n : Nat) {t : Thunk} (ht : t.Plain) :
    Follows Linked (fun _ p q => p = q ∧ t.target rules = .ok p) w (t.call rules n)
      fun k => t.call rules k := by
  refine .of_extends (call_extends rules n t) (.of_succ ?_)
  exact Finds.follows_same (.call ht n) (fun k => .call ht k) fun p hp _ _ => ⟨rfl, hp⟩

theorem once_follows {rules : Rules} (hroot : root.Made rules) (w : World rules root) (n : Nat)
    {id : Nat} {t : Thunk} (hr : Reaches rules root (.memoized id t)) :
    Follows Linked (fun _ p q => p = q ∧ t.target rules = .ok p) w
      (Run.once (.node id) (t.call rules n)) fun k => Run.once (.node id) (t.call rules k) := by
  have hfind : ∀ k, Finds rules root (t.target rules)
      (Run.once (.node id) (t.call rules (k + 1))) := fun k =>
    .once (fun {t'} hr' => hroot.single hr' hr) hr (.call (hroot.plain hr rfl) k)
  refine .of_extends (once_extends _ (call_extends rules n t)) (.of_succ ?_)
  exact Finds.follows_same (hfind n) hfind fun p hp _ _ => ⟨rfl, hp⟩

/-- Where the rule of a right side is missing, calling what waits for it in a cell ends in the same
fault: nothing was put into the cell. -/
theorem lazy_raises {rules : Rules} {w : World rules root} {cell : Nat} {t : Thunk} {f : Fault}
    (hw : w.source cell = some t) (hf : t.target rules = .error f)
    {R : World rules root → Parser → Parser → Prop} :
    Follows Linked R w (Run.raise f) fun k => (Thunk.optimized cell t).call rules k := by
  have hplain : t.Plain := by
    cases w.due hw with
    | first ht => exact ht.plain
    | again _ _ hp =>
      rw [Thunk.target, hp] at hf
      cases hf
  intro w₁ h₁ m m' hS _
  have hempty : m'.parserIn? (.right cell) = none := by
    cases hc : m'.parserIn? (.right cell) with
    | none => rfl
    | some q =>
      obtain ⟨p, hp, -⟩ := hS.form (h₁ _ _ hw) hc
      rw [hf] at hp
      cases hp
  obtain ⟨n, hcall, hn, hnear⟩ := Finds.call hplain 0 m' hS.right
  have hexec : ((Thunk.optimized cell t).call rules 2).exec m' = (.error (.fault f), n) := by
    rw [hf] at hcall
    simp only [Thunk.call, Run.once, Run.exec_bind, Run.exec_parserIn?, hempty, hcall]
    rfl
  refine ⟨2, w₁, le_rfl, ?_⟩
  rw [hexec]
  exact ⟨hS.near hS.left hn hnear, .fault f⟩

theorem lazy_follows {rules : Rules} (hroot : root.Made rules) {w : World rules root} (n : Nat)
    {cell : Nat} {t : Thunk} (hw : w.source cell = some t) :
    Follows Linked (fun w p q => t.core.target rules = .ok p ∧ Form rules w ⊤ p q) w
      (t.core.call rules n) fun k => (Thunk.optimized cell t).call rules k := by
  have hcall : Finds rules root (t.target rules) (t.core.call rules (n + 1)) := by
    rw [← t.core_target]
    exact .call (w.due hw).core_plain n
  refine .of_extends (call_extends rules n _) ?_
  cases hp : t.target rules with
  | error f =>
    rw [hp] at hcall
    exact hcall.then_raises (lazy_raises hw hp)
  | ok p =>
    rw [hp] at hcall
    have hcore : t.core.target rules = .ok p := by rw [t.core_target, hp]
    have hleft : Passes Linked (fun _ q => q = p) w (t.core.call rules (n + 1)) :=
      hcall.follows (fun _ => .pure ()) fun _ _ => rfl
    have h : Follows Linked (fun w p q => t.core.target rules = .ok p ∧ Form rules w ⊤ p q) w
        (t.core.call rules (n + 1) >>= pure) fun k => (Thunk.optimized cell t).call rules k := by
      refine hleft.then_follows (fun k => call_extends rules k _) fun w₁ p' h₁ he => ?_
      subst he
      exact (optimized_arrives hroot (h₁ _ _ hw) hp).follows fun _ _ _ hform => ⟨hcore, hform.any⟩
    rwa [bind_pure] at h

theorem oneChar_follows {S : World rules root → Memory → Memory → Prop} {w : World rules root}
    (text : Array Char) (i : Nat) (test : Char → Except Fault Bool) (words : String) :
    Follows S Same w (oneChar text i test words) fun _ => oneChar text i test words := by
  unfold oneChar
  cases text[i]? with
  | none => exact .pure fun _ _ => rfl
  | some c =>
    refine .ofExcept_bind (fun _ => .const _) fun w₁ b _ _ => ?_
    cases b <;> exact .pure fun _ _ => rfl

theorem nodeReply_follows {cx : Context} (hroot : root.Made cx.rules) (n : Nat)
    (hrun : ∀ (w : World cx.rules root) {p q : Parser} (i : Nat), Reaches cx.rules root p →
      Form cx.rules w ⊤ p q →
      Follows Linked Same w (interpret cx n p i) fun k => interpret cx k q i)
    (w : World cx.rules root) {p q : Parser} (i : Nat) (hp : Reaches cx.rules root p)
    (h : Form cx.rules w ⊤ p q) :
    Follows Linked Same w (nodeReply cx n (interpret cx n) p i)
      fun k => nodeReply cx k (interpret cx k) q i := by
  have hg : ∀ q j, Growing fun k => interpret cx k q j := fun q j k =>
    interpret_extends_succ cx k q j
  have hcall : ∀ t : Thunk, Growing fun k => t.call cx.rules k := fun t k =>
    call_extends cx.rules k t
  -- A parser that a thunk or a function gives runs as it is on both sides.
  have hsame : ∀ (w : World cx.rules root) {p : Parser} (j : Nat), Reaches cx.rules root p →
      Follows Linked Same w (interpret cx n p j) fun k => interpret cx k p j := fun w p j hr =>
    hrun w j hr (.refl fun q hq => hroot.kinded q (hr.trans hq))
  have hthunk : ∀ {t : Thunk} {x : Run Parser} {y : Nat → Run Parser}, p.thunk? = some t →
      Follows Linked (fun _ p q => p = q ∧ t.target cx.rules = .ok p) w x y → Growing y →
      Follows Linked Same w (x >>= fun q => interpret cx n q i)
        fun k => y k >>= fun q => interpret cx k q i := by
    intro t x y ht hx hy
    refine .bind hx hy (fun q => hg q i) fun w₁ q q' _ hq => ?_
    obtain ⟨rfl, hq⟩ := hq
    exact hsame w₁ i (hp.tail (.thunk ht hq))
  cases h with
  | atom hk hc =>
    cases p with
    | literal | constant | identity | fail => exact .pure fun _ _ => rfl
    | char | charWhere => exact oneChar_follows cx.text i _ _
    | delayed id t => exact hthunk rfl (call_follows w n (hroot.plain hp rfl)) (hcall t)
    | memoized id t =>
      exact hthunk rfl (once_follows hroot w n hp) fun k => once_extends _ (hcall t k)
    | loop id label next seed =>
      exact .rounds (fun s q j hq => hsame w j (hp.tail (.next rfl hq))) hg n seed i
    | bare => cases hk
    | _ => cases hc
  | @map id id' source source' fn h =>
    refine .andThen (hrun w i (hp.tail (.child (.head _))) h) (hg source' i) (fun _ _ => .const _)
      (fun _ _ _ _ => rfl) fun w₁ v stop _ => ?_
    exact .ofExcept_bind (fun _ => .const _) fun w₂ u _ _ => .pure fun _ _ => rfl
  | @bind id id' source source' label next h =>
    refine .andThen (hrun w i (hp.tail (.child (.head _))) h) (hg source' i)
      (fun v j => .bind (.const _) fun q => hg q j) (fun _ _ _ _ => rfl) fun w₁ v stop _ => ?_
    exact .ofExcept_bind (fun q => hg q stop) fun w₂ q _ hq =>
      hsame w₂ stop (hp.tail (.next rfl hq))
  | @product id id' left left' right right' h h' =>
    refine .andThen (hrun w i (hp.tail (.child (.head _))) h) (hg left' i)
      (fun v j k => andThen_extends (hg right' j k) fun _ _ => .refl _) (fun _ _ _ _ => rfl)
      fun w₁ v stop h₁ => ?_
    exact .andThen (hrun w₁ stop (hp.tail (.child (.tail _ (.head _)))) (h'.grow h₁))
      (hg right' stop) (fun _ _ => .const _) (fun _ _ _ _ => rfl)
      fun w₂ u last _ => .pure fun _ _ => rfl
  | @both id id' left left' right right' combine h h' =>
    refine .andThen (hrun w i (hp.tail (.child (.head _))) h) (hg left' i)
      (fun v j k => andThen_extends (hg right' j k) fun _ _ => .refl _) (fun _ _ _ _ => rfl)
      fun w₁ v stop h₁ => ?_
    refine .andThen (hrun w₁ stop (hp.tail (.child (.tail _ (.head _)))) (h'.grow h₁))
      (hg right' stop) (fun _ _ => .const _) (fun _ _ _ _ => rfl) fun w₂ u last _ => ?_
    exact .ofExcept_bind (fun _ => .const _) fun w₃ x _ _ => .pure fun _ _ => rfl
  | @many id id' source source' identity combine h =>
    exact .bind_same
      (.greedy (fun j => hrun w j (hp.tail (.child (.head _))) h) (hg source') _ _ _ _)
      (fun k => greedy_extends (fun j => hg source' j k) _ _ _ _) (fun _ => .const _)
      fun w₁ r _ => .pure fun _ _ => rfl
  | @manyBetween id id' source source' minimum maximum identity combine h =>
    refine .bind_same
      (.upTo (fun j => hrun w j (hp.tail (.child (.head _))) h) (hg source') _ _ _ _ _)
      (fun k => upTo_extends (fun j => hg source' j k) _ _ _ _ _) (fun _ => .const _)
      fun w₁ r _ => ?_
    dsimp only
    split <;> exact .pure fun _ _ => rfl
  | @collect id id' source source' minimum accumulator h =>
    refine .ofExcept_bind (fun start => .bind (fun k =>
      greedy_extends (fun j => hg source' j k) _ _ _ _) fun _ => .const _) fun w₁ start h₁ _ => ?_
    refine .bind_same (.greedy (fun j => hrun w₁ j (hp.tail (.child (.head _))) (h.grow h₁))
      (hg source') _ _ _ _) (fun k => greedy_extends (fun j => hg source' j k) _ _ _ _)
      (fun _ => .const _) fun w₂ r _ => ?_
    dsimp only
    split
    · exact .pure fun _ _ => rfl
    · exact .ofExcept_bind (fun _ => .const _) fun w₃ x _ _ => .pure fun _ _ => rfl
  | @choice id id' left left' t h _ =>
    exact .orElse (hrun w i (hp.tail (.child (.head _))) h) (hg left' i)
      (.bind (hcall t) fun q => hg q i)
      (hthunk rfl (call_follows w n (hroot.plain hp rfl)) (hcall t))
  | @lazy id id' cell left left' t u h hw hu =>
    subst hu
    refine .orElse (hrun w i (hp.tail (.child (.head _))) h) (hg left' i)
      (.bind (hcall _) fun q => hg q i) ?_
    refine .bind (lazy_follows hroot n hw) (hcall _) (fun q => hg q i) fun w₁ q q' _ hq => ?_
    exact hrun w₁ i (hp.tail (.thunk rfl hq.1)) hq.2
  | @chain id p cs hcs =>
    have hone : oneChar cx.text i (Predicate.memberOf (cs.map Prod.snd)).test (Chain.lastWords cs) =
        pure (Chain.reply cx.text i (cs.map Prod.snd) (Chain.lastWords cs)) :=
      oneChar_eq_reply fun _ => rfl
    simp only [nodeReply, hone]
    exact (chain_passes hroot hcs w n i hp).follows

theorem interpret_follows (cx : Context) (hroot : root.Made cx.rules) (n : Nat)
    (w : World cx.rules root) {p q : Parser} (i : Nat) (hp : Reaches cx.rules root p)
    (h : Form cx.rules w ⊤ p q) :
    Follows Linked Same w (interpret cx n p i) fun k => interpret cx k q i := by
  induction n generalizing w p q i with
  | zero => exact .exhaust _
  | succ n ih =>
    refine .of_succ (.step Linked.write (Parser.unknownTag?_eq_none h.left_isBare)
      (Parser.unknownTag?_eq_none h.right_isBare) (fun k => ?_)
      (nodeReply_follows hroot n (fun w _ _ i => ih w i) w i hp h))
    exact nodeReply_extends cx k (fun q j => interpret_extends_succ cx k q j) q i

theorem evaluate_follows {rules : Rules} {p q : Parser} (hp : p.Made rules) (w : World rules p)
    (h : Form rules w ⊤ p q) (n : Nat) (input : String) (trace : Bool) :
    Follows Linked Same w (evaluate rules n p input trace)
      fun k => evaluate rules k q input trace := by
  let cx : Context := { rules, text := input.toList.toArray, trace }
  have hrun : Follows Linked Same w (interpret cx n p 0) fun k => interpret cx k q 0 :=
    interpret_follows cx hp n w 0 .refl h
  exact .bind_same hrun (fun k => interpret_extends_succ cx k q 0) (fun _ => .const _)
    fun w₂ reply _ => .pure fun _ _ => rfl

/-- Where a run of a parser ends, optimizing the parser ends and a run of what it makes ends in the
same way: in an equal result or in the same fault. -/
theorem optimize_preserves {rules : Rules} {n : Nat} {p : Parser} {input : String} {trace : Bool}
    {m : Memory} (hp : p.Made rules) (hd : p.Defined rules) (hm : m.Settled rules p)
    (hend : ((evaluate rules n p input trace).exec m).1 ≠ .error .exhausted) :
    ∃ k, ((optimize rules k p >>= fun q => evaluate rules k q input trace).exec m).1 =
      ((evaluate rules n p input trace).exec m).1 := by
  have hcalls : Calling rules p (Thunk.call rules) := calling rules p
  have heval : ∀ q, Growing fun k => evaluate rules k q input trace := fun q k =>
    evaluate_extends rules q input trace (Nat.le_succ k)
  have hopt := optimizeWith_arrives hp hcalls p .empty ⟨.refl, hd⟩
  have h : Follows Linked Same (World.empty : World rules p) (evaluate rules n p input trace)
      fun k => optimize rules k p >>= fun q => evaluate rules k q input trace :=
    hopt.then_follows (optimizeWith_growing hcalls p) heval fun w₁ q _ hform =>
      evaluate_follows hp w₁ hform.any n input trace
  obtain ⟨k, _, _, _, hA⟩ := h .empty le_rfl m m (.start hm) hend
  exact ⟨k, hA.eq⟩

def hiss : Rules := [("hiss", .orElse 4 (.char 3 's') (.rule "hiss"))]

def vowelHiss : Parser :=
  .product 7 (.orElse 2 (.char 0 'a') (.const (.char 1 'o')))
    (.orElse 6 (.char 5 'z') (.rule "hiss"))

theorem optimize_preserves_vowelHiss :
    ∃ k, ((optimize hiss k vowelHiss >>= fun q => evaluate hiss k q "os" false).exec {}).1 =
      .ok ⟨"os", .accept (.tuple [.text "o", .text "s"]) 2⟩ := by
  have hmade : vowelHiss.Made hiss := Parser.made_of_static rfl rfl
  have hdefined : vowelHiss.Defined hiss := Parser.defined_of_static rfl rfl
  have hrun : ((evaluate hiss 5 vowelHiss "os" false).exec {}).1 =
      .ok ⟨"os", .accept (.tuple [.text "o", .text "s"]) 2⟩ := rfl
  have hend : ((evaluate hiss 5 vowelHiss "os" false).exec {}).1 ≠ .error .exhausted :=
    hrun ▸ nofun
  rw [← hrun]
  exact optimize_preserves hmade hdefined (.empty _ _) hend

end ParserAlgebra
