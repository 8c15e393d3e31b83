import ParserAlgebra.Proofs.Effect
import ParserAlgebra.Proofs.Optimizer.Preserve

/-!
# Alternatives in a row

A choice among texts, or among characters, takes the first in the order of its list that stands at
the offset, and rejects in the words of the last. The test of membership that optimizing puts in the
place of a choice among characters replies the same.
-/

namespace ParserAlgebra

/-! ### Replies that depend on nothing -/

/-- From every memory the parser gives this reply at the offset, and leaves the cells alone. -/
def Parser.Gives (cx : Context) (p : Parser) (i : Nat) (r : Reply) : Prop :=
  ∀ m o c, Evaluates cx p i m o c ↔ o = .ok r ∧ c = m.cells

section

variable {cx : Context} {p : Parser} {i : Nat} {r : Reply}

theorem Parser.Gives.of_effect (h : p.effect cx i = pure r) : p.Gives cx i r := by
  intro m o c
  calc Evaluates cx p i m o c
      ↔ p.effect cx i m.cells o c := evaluates_cells.symm
    _ ↔ o = .ok r ∧ c = m.cells := by rw [h]; exact Iff.rfl

end

section

variable (cx : Context) (i id : Nat)

@[simp] theorem effect_literal (s : String) :
    (Parser.literal id s).effect cx i = pure (fixedText cx.text i s) :=
  (effect_node cx i rfl).trans (Run.effect_pure _)

@[simp] theorem effect_char (c : Char) :
    (Parser.char id c).effect cx i = pure (Chain.reply cx.text i [c] (Parser.describe c)) := by
  rw [effect_node cx i rfl, ← Run.effect_pure]
  exact congrArg Run.effect (funext fun _ => oneChar_eq_reply fun d => by simp [beq_eq_decide])

@[simp] theorem effect_memberOf (cs : List Char) (words : String) :
    (Parser.charWhere id (.memberOf cs) words).effect cx i =
      pure (Chain.reply cx.text i cs words) := by
  rw [effect_node cx i rfl, ← Run.effect_pure]
  exact congrArg Run.effect (funext fun _ => oneChar_eq_reply fun _ => rfl)

end

/-! ### Texts at an offset -/

/-- The string stands at an offset of the text, which may be the one behind its last character. -/
def StandsAt (text : Array Char) (i : Nat) (s : String) : Prop :=
  i ≤ text.size ∧ s.toList <+: text.toList.drop i

theorem aheadAt_iff (text : Array Char) (i : Nat) (cs : List Char) :
    aheadAt text i cs = true ↔ i ≤ text.size ∧ cs <+: text.toList.drop i := by
  induction cs generalizing i with
  | nil => simp [aheadAt]
  | cons c cs ih =>
    rw [aheadAt, Bool.and_eq_true, ih, beq_iff_eq]
    by_cases hi : i < text.size
    · have hdrop : text.toList.drop i = text[i] :: text.toList.drop (i + 1) := by
        rw [List.drop_eq_getElem_cons (by simpa using hi), Array.getElem_toList]
      rw [hdrop, List.cons_prefix_cons, Array.getElem?_eq_getElem hi, Option.some_inj]
      constructor
      · rintro ⟨hc, -, hcs⟩
        exact ⟨hi.le, hc.symm, hcs⟩
      · rintro ⟨-, hc, hcs⟩
        exact ⟨hc.symm, hi, hcs⟩
    · have hdrop : text.toList.drop i = [] := List.drop_eq_nil_of_le (by simpa using hi)
      simp [hi, hdrop]

instance (text : Array Char) (i : Nat) (s : String) : Decidable (StandsAt text i s) :=
  decidable_of_iff _ (aheadAt_iff text i s.toList)

theorem fixedText_eq (text : Array Char) (i : Nat) (s : String) :
    fixedText text i s = if StandsAt text i s then .accept (.text s) (i + s.length)
      else .reject (.notAhead s i) i :=
  if_congr (aheadAt_iff text i s.toList) rfl rfl

theorem effect_literal_of_standsAt (cx : Context) (i id : Nat) {s : String}
    (h : StandsAt cx.text i s) :
    (Parser.literal id s).effect cx i = pure (.accept (.text s) (i + s.length)) := by
  rw [effect_literal, fixedText_eq, if_pos h]

theorem effect_literal_of_not_standsAt (cx : Context) (i id : Nat) {s : String}
    (h : ¬ StandsAt cx.text i s) :
    (Parser.literal id s).effect cx i = pure (.reject (.notAhead s i) i) := by
  rw [effect_literal, fixedText_eq, if_neg h]

/-! ### Chains of alternatives -/

/-- The first reply if it accepts, and otherwise the second. -/
def Reply.orElse : Reply → Reply → Reply
  | .accept v stop, _ => .accept v stop
  | .reject _ _, r => r

theorem Effect.pure_orElse (r r' : Reply) :
    (pure r : Effect Reply).orElse (pure r') = pure (r.orElse r') := by
  cases r with
  | accept v stop => exact accept_orElse ..
  | reject why start => exact reject_orElse ..

/-- What holds of the parser in front of all alternatives, and goes on holding when a choice is
built of it and one more, holds of the choice among all of them. -/
theorem Build.alternatives_induction {α : Type} (leaf : α → Build Parser)
    {P : List α → Parser → Nat → Prop} {p : Parser} (next : Nat) (hfirst : P [] p next)
    (hnext : ∀ done q next a, P done q next →
      P (done ++ [a]) (.orElse (leaf a next).2 q (.const (leaf a next).1)) ((leaf a next).2 + 1))
    (rest : List α) : ∃ next', P rest
      ((rest.foldlM (fun p a => do Build.orElse p (← leaf a)) p : Build Parser) next).1 next' := by
  suffices hrest : ∀ rest done q next, P done q next → ∃ next', P (done ++ rest)
      ((rest.foldlM (fun p a => do Build.orElse p (← leaf a)) q : Build Parser) next).1 next' from
    hrest rest [] p next hfirst
  intro rest
  induction rest with
  | nil =>
    intro done q next h
    rw [List.append_nil]
    exact ⟨next, h⟩
  | cons a rest ih =>
    intro done q next h
    have hstep := ih _ _ _ (hnext done q next a h)
    rw [List.append_assoc] at hstep
    exact hstep

/-- Alternatives that each give a reply are taken from the left. -/
theorem effect_alternatives {α : Type} {cx : Context} {i : Nat} (leaf : α → Build Parser)
    (reply : α → Reply) (hleaf : ∀ a next, (leaf a next).1.effect cx i = pure (reply a))
    (rest : List α) {p : Parser} {r : Reply} (hp : p.effect cx i = pure r) (next : Nat) :
    ((rest.foldlM (fun p a => do Build.orElse p (← leaf a)) p : Build Parser) next).1.effect cx i
      = pure (rest.foldl (fun r a => r.orElse (reply a)) r) := by
  refine (Build.alternatives_induction leaf
    (P := fun done q _ => q.effect cx i = pure (done.foldl (fun r a => r.orElse (reply a)) r))
    next hp (fun done q next a hq => ?_) rest).elim fun _ h => h
  rw [effect_orElse_const, hq, hleaf, Effect.pure_orElse, List.foldl_concat]

/-- Nothing follows an acceptance. -/
theorem foldl_orElse_accept {α : Type} (reply : α → Reply) (rest : List α) (v : Value)
    (stop : Nat) : rest.foldl (fun r a => Reply.orElse r (reply a)) (.accept v stop) =
      .accept v stop := by
  induction rest with
  | nil => rfl
  | cons a rest ih => exact ih

theorem foldl_fixedText (text : Array Char) (i : Nat) (first : String) (rest : List String) :
    rest.foldl (fun r s => r.orElse (fixedText text i s)) (fixedText text i first) =
      ((first :: rest).find? (StandsAt text i ·)).elim
        (.reject (.notAhead (rest.getLastD first) i) i)
        fun s => .accept (.text s) (i + s.length) := by
  induction rest generalizing first with
  | nil =>
    rw [List.foldl_nil, fixedText_eq]
    by_cases h : StandsAt text i first <;> simp [h]
  | cons s rest ih =>
    rw [List.foldl_cons]
    by_cases h : StandsAt text i first
    · have hfirst : fixedText text i first = .accept (.text first) (i + first.length) := by
        rw [fixedText_eq, if_pos h]
      rw [hfirst, Reply.orElse, foldl_orElse_accept, List.find?_cons_of_pos (by simpa using h),
        Option.elim_some]
    · have hfirst : fixedText text i first = .reject (.notAhead first i) i := by
        rw [fixedText_eq, if_neg h]
      rw [hfirst, Reply.orElse, ih, List.getLastD_cons,
        List.find?_cons_of_neg (a := first) (by simpa using h)]

theorem foldl_reply (text : Array Char) (i : Nat) (cs rest : List Char) (last : Char) :
    rest.foldl (fun r c => r.orElse (Chain.reply text i [c] (Parser.describe c)))
        (Chain.reply text i cs (Parser.describe last)) =
      Chain.reply text i (cs ++ rest) (Parser.describe (rest.getLastD last)) := by
  induction rest generalizing cs last with
  | nil => rw [List.append_nil]; rfl
  | cons c rest ih =>
    have hstep : (Chain.reply text i cs (Parser.describe last)).orElse
        (Chain.reply text i [c] (Parser.describe c)) =
          Chain.reply text i (cs ++ [c]) (Parser.describe c) := by
      rw [Chain.reply_append text i cs [c] (Parser.describe last)]
      cases Chain.reply text i cs (Parser.describe last) <;> rfl
    rw [List.foldl_cons, hstep, ih, List.append_assoc, List.singleton_append, List.getLastD_cons]

theorem Chain.reply_eq (text : Array Char) (i : Nat) (cs : List Char) (words : String) :
    Chain.reply text i cs words = (text[i]?.filter (· ∈ cs)).elim
      (.reject (if i < text.size then .unmatched words i else .ended words) i)
      fun c => .accept (.text (String.singleton c)) (i + 1) := by
  unfold Chain.reply
  by_cases hi : i < text.size
  · rw [Array.getElem?_eq_getElem hi]
    by_cases hc : text[i] ∈ cs <;> simp [hc, hi, Option.filter]
  · rw [Array.getElem?_eq_none (Nat.le_of_not_lt hi)]
    simp [hi]

/-! ### Optimized choices among characters -/

/-- Collecting finds these characters within a bound on the depth of the chain, where every choice
that was met before has an identity from `next` on. -/
def Chain.Listed (p : Parser) (cs : List (Nat × Char)) (k next : Nat) : Prop :=
  ∀ ⦃call : Thunk → Run Parser⦄, (∀ q, call (.const q) = pure q) →
    ∀ n seen, k ≤ n → (∀ id ∈ seen, next ≤ id) →
      ∃ seen', Chain.leaves call n p seen = pure (some (Chain.nodes cs), seen')

namespace Chain.Listed

theorem char (id : Nat) (c : Char) (next : Nat) : Listed (.char id c) [(id, c)] 1 next := by
  intro call _ n seen hn _
  obtain ⟨n, rfl⟩ : ∃ j, n = j + 1 := ⟨n - 1, by omega⟩
  exact ⟨seen, rfl⟩

/-- A choice that is built behind the nodes of its left side has an identity of its own. -/
theorem orElse {p : Parser} {cs : List (Nat × Char)} {k next : Nat} (h : Listed p cs k next)
    (c : Char) : Listed (.orElse (next + 1) p (.const (.char next c))) (cs ++ [(next, c)]) (k + 2)
      (next + 2) := by
  intro call hcall n seen hn hseen
  obtain ⟨n, rfl⟩ : ∃ j, n = j + 2 := ⟨n - 2, by omega⟩
  have hnew : seen.contains (next + 1) = false := by
    rw [List.contains_eq_mem, decide_eq_false_iff_not]
    intro hmem
    exact absurd (hseen _ hmem) (by omega)
  obtain ⟨seen', hleft⟩ := h hcall (n + 1) ((next + 1) :: seen) (by omega) fun id hid => by
    rcases List.mem_cons.1 hid with rfl | hid
    · omega
    · exact (Nat.le_add_right next 2).trans (hseen id hid)
  refine ⟨seen', ?_⟩
  rw [Chain.leaves, hnew, hleft]
  simp [hcall, Chain.leaves, Chain.nodes]

/-- Collecting finds all characters of a choice among them. -/
theorem charIn (first : Char) (rest : List Char) (id : Nat) :
    ∃ cs k next, cs.map Prod.snd = first :: rest ∧
      Listed (Build.result id (Build.charIn first rest)) cs k next := by
  obtain ⟨next, cs, k, hcs, h⟩ := Build.alternatives_induction Build.char
    (P := fun done q next => ∃ cs k, cs.map Prod.snd = first :: done ∧ Listed q cs k next)
    (id + 1) ⟨_, 1, rfl, char id first (id + 1)⟩
    (fun done q next c ⟨cs, k, hcs, h⟩ => ⟨cs ++ [(next, c)], k + 2, by simp [hcs], h.orElse c⟩)
    rest
  exact ⟨cs, k, next, hcs, h⟩

end Chain.Listed

theorem call_const (rules : Rules) (n : Nat) (q : Parser) :
    (Thunk.const q).call rules (n + 1) = pure q := rfl

/-- A choice whose characters collecting finds becomes one test of membership. -/
theorem optimize_listed {rules : Rules} {id : Nat} {left : Parser} {right : Thunk}
    {cs : List (Nat × Char)} {k next : Nat}
    (h : Chain.Listed (.orElse id left right) cs k next) (hcs : cs ≠ []) (m : Memory) {n : Nat}
    (hn : k < n) : (optimize rules n (.orElse id left right)).exec m =
      (.ok (.charWhere m.nextId (.memberOf (cs.map Prod.snd)) (Chain.lastWords cs)),
        { m with nextId := m.nextId + 1 }) := by
  obtain ⟨n, rfl⟩ : ∃ j, n = j + 1 := ⟨n - 1, by omega⟩
  obtain ⟨seen, hleaves⟩ := h (call_const rules n) (n + 1) [] (by omega) (by simp)
  rw [optimize, optimizeWith, hleaves, pure_bind]
  dsimp only
  rw [Chain.charSet_nodes hcs]
  rfl

/-- A choice among characters is a choice unless there is but one. -/
theorem charIn_cases (first : Char) (rest : List Char) (id : Nat) :
    rest = [] ∧ Build.result id (Build.charIn first rest) = .char id first ∨
      ∃ id' left right, Build.result id (Build.charIn first rest) = .orElse id' left right := by
  obtain ⟨_, h⟩ := Build.alternatives_induction Build.char
    (P := fun done q _ => done = [] ∧ q = .char id first ∨
      ∃ id' left right, q = .orElse id' left right)
    (id + 1) (.inl ⟨rfl, rfl⟩) (fun _ _ _ _ _ => .inr ⟨_, _, _, rfl⟩) rest
  exact h

/-- The optimized form of a choice among characters replies as the choice does. -/
theorem optimize_charIn (cx : Context) (first : Char) (rest : List Char) (id : Nat) (m : Memory) :
    ∃ q m' k, (∀ n, k ≤ n →
        (optimize cx.rules n (Build.result id (Build.charIn first rest))).exec m = (.ok q, m')) ∧
      ∀ i, q.effect cx i =
        pure (Chain.reply cx.text i (first :: rest) (Parser.describe (rest.getLastD first))) := by
  obtain ⟨cs, k, next, hcs, hlisted⟩ := Chain.Listed.charIn first rest id
  rcases charIn_cases first rest id with ⟨rfl, hp⟩ | ⟨id', left, right, hp⟩
  · exact ⟨.char id first, m, 0, fun n _ => hp ▸ rfl, fun i => effect_char cx i id first⟩
  · rw [hp] at hlisted
    have hne : cs ≠ [] := by
      rintro rfl
      cases hcs
    have hlast : cs.getLast?.map Prod.snd = some (rest.getLastD first) := by
      rw [← List.getLast?_map, hcs, List.getLastD_eq_getLast?]
      exact List.getLast?_cons
    have hwords : Chain.lastWords cs = Parser.describe (rest.getLastD first) := by
      obtain ⟨c, hc, hcd⟩ := Option.map_eq_some_iff.1 hlast
      rw [Chain.lastWords, hc, ← hcd]
    refine ⟨_, _, k + 1, fun n hn => hp ▸ optimize_listed hlisted hne m hn, fun i => ?_⟩
    rw [hwords, hcs, effect_memberOf]

/-! ### First matches -/

/-- What a choice gives at an offset: the reply for the alternative that was found there, or the
rejection that the last alternative gives there. -/
def GivesFirst {α : Type} (cx : Context) (p : Parser) (i : Nat) (found : Option α)
    (accepted : α → Reply) (last : Parser) : Prop :=
  match found with
  | some a => p.Gives cx i (accepted a)
  | none => ∃ why, p.Gives cx i (.reject why i) ∧ last.Gives cx i (.reject why i)

section

variable {α : Type} {cx : Context} {p last : Parser} {i : Nat} {found : Option α}
  {accepted : α → Reply} {why : Reason}

theorem GivesFirst.of_effect
    (h : p.effect cx i = pure (found.elim (.reject why i) accepted))
    (hlast : found = none → last.effect cx i = pure (.reject why i)) :
    GivesFirst cx p i found accepted last := by
  cases found with
  | some a => exact .of_effect h
  | none => exact ⟨why, .of_effect h, .of_effect (hlast rfl)⟩

end

theorem stringIn_gives (cx : Context) (i id : Nat) (first : String) (rest : List String) :
    GivesFirst cx (Build.result id (Build.stringIn first rest)) i
      ((first :: rest).find? (StandsAt cx.text i ·)) (fun s => .accept (.text s) (i + s.length))
      (Build.result id (Build.literal (rest.getLastD first))) := by
  have heffect := effect_alternatives Build.literal (fixedText cx.text i)
    (fun s next => effect_literal cx i next s) rest (effect_literal cx i id first) (id + 1)
  rw [foldl_fixedText] at heffect
  refine .of_effect heffect fun hnone => ?_
  have hlast : ¬ StandsAt cx.text i (rest.getLastD first) := by
    simpa using List.find?_eq_none.1 hnone _ List.getLastD_mem_cons
  exact effect_literal_of_not_standsAt cx i id hlast

/-- What replies as a chain of these characters gives the one at the offset if it is among them. -/
theorem GivesFirst.of_chain {cx : Context} {p : Parser} {i : Nat} {cs : List Char} {last : Char}
    (hlast : last ∈ cs) (id : Nat)
    (h : p.effect cx i = pure (Chain.reply cx.text i cs (Parser.describe last))) :
    GivesFirst cx p i (cx.text[i]?.filter (· ∈ cs))
      (fun c => .accept (.text (String.singleton c)) (i + 1)) (.char id last) := by
  rw [Chain.reply_eq] at h
  refine .of_effect h fun hnone => ?_
  have hone : cx.text[i]?.filter (· ∈ [last]) = none := by
    rw [Option.filter_eq_none_iff] at hnone ⊢
    intro c hc hmem
    exact hnone c hc (by simp_all)
  rw [effect_char, Chain.reply_eq, hone]
  rfl

/-- A choice among texts accepts with the first of its list that stands at the offset, and a choice
among characters where the character at the offset is in its list, as it is and when it is
optimized. Elsewhere they reject as the last alternative does. -/
theorem alternatives_first_match (cx : Context) (id : Nat) :
    (∀ first rest i, GivesFirst cx (Build.result id (Build.stringIn first rest)) i
      ((first :: rest).find? (StandsAt cx.text i ·)) (fun s => .accept (.text s) (i + s.length))
      (Build.result id (Build.literal (rest.getLastD first)))) ∧
    ∀ first rest m, ∃ q m' k,
      let p := Build.result id (Build.charIn first rest)
      (∀ n, k ≤ n → (optimize cx.rules n p).exec m = (.ok q, m')) ∧
      ∀ i, ∀ r ∈ [p, q], GivesFirst cx r i (cx.text[i]?.filter (· ∈ first :: rest))
        (fun c => .accept (.text (String.singleton c)) (i + 1))
        (Build.result id (Build.char (rest.getLastD first))) := by
  refine ⟨fun first rest i => stringIn_gives cx i id first rest, fun first rest m => ?_⟩
  obtain ⟨q, m', k, hopt, hq⟩ := optimize_charIn cx first rest id m
  refine ⟨q, m', k, hopt, fun i => ?_⟩
  have hlast : rest.getLastD first ∈ first :: rest := List.getLastD_mem_cons
  have hp := effect_alternatives Build.char
    (fun c => Chain.reply cx.text i [c] (Parser.describe c))
    (fun c next => effect_char cx i next c) rest (effect_char cx i id first) (id + 1)
  rw [foldl_reply] at hp
  exact List.forall_mem_cons.2
    ⟨.of_chain hlast id hp, List.forall_mem_singleton.2 (.of_chain hlast id (hq i))⟩

/-- The order of the list counts, not the length of its texts. -/
example : ((interpret ⟨[], #['i', 'n', 't'], false⟩ 9
    (Build.result 0 (Build.stringIn "in" ["int", ""])) 0).exec {}).1 =
      .ok (.accept (.text "in") 2) := by
  rfl

end ParserAlgebra
