import ParserAlgebra.Proofs.Alternatives
import ParserAlgebra.Proofs.Consumed
import ParserAlgebra.Proofs.InTurn

/-!
# Literals that are spelled

A literal accepts where its characters in turn do, and a literal of two texts in a row where the two
literals in a row do. They differ in where they reject: a literal at its beginning, its characters
at the first that is not there.
-/

namespace ParserAlgebra

/-! ### Prefixes -/

/-- The length of the longest common prefix. -/
def LongestCommon (w cs : List Char) (k : Nat) : Prop :=
  IsGreatest {k | k ≤ w.length ∧ w.take k <+: cs} k

theorem LongestCommon.of_break {u v cs : List Char} {d : Char} (hu : u <+: cs)
    (hd : ¬ u ++ [d] <+: cs) : LongestCommon (u ++ d :: v) cs u.length := by
  constructor
  · refine ⟨by simp, ?_⟩
    rwa [List.take_left]
  · rintro k ⟨-, hk⟩
    by_contra hlt
    have htake : (u ++ d :: v).take (u.length + 1) = u ++ [d] := by
      rw [List.take_length_add_append]
      rfl
    refine hd ?_
    rw [← htake]
    exact (List.take_prefix_take_left (by omega)).trans hk

theorem concat_prefix_iff {w cs : List Char} (h : w <+: cs) (c : Char) :
    w ++ [c] <+: cs ↔ cs[w.length]? = some c := by
  obtain ⟨rest, rfl⟩ := h
  rw [List.prefix_append_right_inj, List.getElem?_append_right le_rfl, Nat.sub_self]
  cases rest with
  | nil => simp
  | cons d rest => simp [eq_comm]

theorem standsAt_append (text : Array Char) (i : Nat) (a b : String) :
    StandsAt text i (a ++ b) ↔ StandsAt text i a ∧ StandsAt text (i + a.length) b := by
  unfold StandsAt
  rw [String.toList_append, ← String.length_toList, ← List.drop_drop]
  constructor
  · rintro ⟨hi, rest, hrest⟩
    have hlen := congrArg List.length hrest
    simp only [List.length_append, List.length_drop, Array.length_toList] at hlen
    rw [← hrest, List.append_assoc, List.drop_left]
    exact ⟨⟨hi, List.prefix_append ..⟩, by omega, List.prefix_append ..⟩
  · rintro ⟨⟨hi, rest, hrest⟩, -, hb⟩
    rw [← hrest, List.drop_left] at hb
    rw [← hrest, List.prefix_append_right_inj]
    exact ⟨hi, hb⟩

theorem standsAt_iff_ahead {text : Array Char} {i : Nat} {s : String} (hs : s.toList ≠ []) :
    StandsAt text i s ↔ s.toList <+: text.toList.drop i := by
  refine and_iff_right_of_imp fun h => ?_
  have hlen : s.toList.length ≤ text.size - i := by simpa using h.length_le
  have hpos := List.length_pos_of_ne_nil hs
  omega

/-! ### Characters in turn -/

/-- What the characters in turn give: the tuple of them where all are there, and the rejection of
the first that is not. -/
inductive Spells (cx : Context) (p : Parser) (i : Nat) (w : List Char) : Prop
  | all (h : w <+: cx.text.toList.drop i) (hp : p.effect cx i =
      pure (.accept (.tuple (w.map fun c => .text (String.singleton c))) (i + w.length)))
  | broken {u v : List Char} {d : Char} (hw : w = u ++ d :: v)
      (hu : u <+: cx.text.toList.drop i) (hd : ¬ u ++ [d] <+: cx.text.toList.drop i)
      (hp : ∃ why, p.effect cx i = pure (.reject why (i + u.length)))

theorem effect_char_eq (cx : Context) (i id : Nat) (c : Char) :
    cx.text[i]? = some c ∧ (Parser.char id c).effect cx i =
        pure (.accept (.text (String.singleton c)) (i + 1)) ∨
      cx.text[i]? ≠ some c ∧ ∃ why, (Parser.char id c).effect cx i = pure (.reject why i) := by
  rw [effect_char, Chain.reply]
  cases h : cx.text[i]? with
  | none => exact .inr ⟨nofun, _, rfl⟩
  | some d =>
    by_cases hd : d = c
    · subst hd
      exact .inl ⟨rfl, by simp⟩
    · refine .inr ⟨by simpa using hd, .unmatched (Parser.describe c) i, by simp [hd]⟩

/-- The parser is a node for this character. -/
def CharNode (c : Char) (p : Parser) : Prop := ∃ id, p = .char id c

theorem charNodes_built (cs : List Char) (next : Nat) :
    List.Forall₂ CharNode cs (cs.mapM Build.char next).1 := by
  induction cs generalizing next with
  | nil => exact .nil
  | cons c cs ih =>
    rw [List.mapM_cons]
    exact .cons ⟨next, rfl⟩ (ih (next + 1))

namespace Spells

open Build (single extend extendTuple)

variable {cx : Context} {p : Parser} {i : Nat} {w : List Char}

theorem first (cx : Context) (i id id' : Nat) (c : Char) :
    Spells cx (.map id (.char id' c) single) i [c] := by
  have hnil : [] <+: cx.text.toList.drop i := List.nil_prefix
  have hstep := concat_prefix_iff hnil c
  rw [List.nil_append, List.length_nil, List.getElem?_drop, Nat.add_zero,
    Array.getElem?_toList] at hstep
  rcases effect_char_eq cx i id' c with ⟨hc, hp⟩ | ⟨hc, why, hp⟩
  · refine .all (hstep.2 hc) ?_
    rw [effect_map, hp, Effect.accept_andThen]
    exact Effect.accept_ok ..
  · refine .broken (u := []) rfl hnil (mt hstep.1 hc) ⟨why, ?_⟩
    rw [effect_map, hp, Effect.reject_andThen]
    rfl

theorem extended (h : Spells cx p i w) (id id' id'' : Nat) (c : Char) :
    Spells cx (.map id (.product id' p (.char id'' c)) extend) i (w ++ [c]) := by
  cases h with
  | all hw hp =>
    have hstep := concat_prefix_iff hw c
    rw [List.getElem?_drop, Array.getElem?_toList] at hstep
    rcases effect_char_eq cx (i + w.length) id'' c with ⟨hc, hq⟩ | ⟨hc, why, hq⟩
    · refine .all (hstep.2 hc) ?_
      rw [effect_map, effect_product, hp, Effect.accept_andThen, hq, Effect.accept_andThen,
        Effect.accept_andThen]
      simp [extend, extendTuple, Nat.add_assoc]
    · refine .broken rfl hw (mt hstep.1 hc) ⟨why, ?_⟩
      rw [effect_map, effect_product, hp, Effect.accept_andThen, hq, Effect.reject_andThen,
        Effect.reject_andThen]
  | @broken u v d hw hu hd hp =>
    obtain ⟨why, hp⟩ := hp
    refine .broken (v := v ++ [c]) (by rw [hw]; simp) hu hd ⟨why, ?_⟩
    rw [effect_map, effect_product, hp, Effect.reject_andThen, Effect.reject_andThen]

/-- The tuple that is built of nodes for these characters. -/
theorem tupled (cx : Context) (i id : Nat) {c : Char} {cs : List Char} {first : Parser}
    {rest : List Parser} (hfirst : CharNode c first) (hrest : List.Forall₂ CharNode cs rest) :
    Spells cx (Build.result id (Build.tupled first rest)) i (c :: cs) := by
  refine Build.tupled_induction
    (P := fun q ps => ∀ w, List.Forall₂ CharNode w ps → Spells cx q i w)
    (fun id p w hw => ?_) (fun id id' q ps p h w hw => ?_) first rest id _ (.cons hfirst hrest)
  · rcases hw with _ | ⟨⟨id', rfl⟩, _ | _⟩
    exact .first cx i id id' _
  · have hfront := List.forall₂_take_append w ps [p] hw
    have hback := List.forall₂_drop_append w ps [p] hw
    obtain ⟨c, _, ⟨id'', rfl⟩, hnil, hdrop⟩ := List.forall₂_cons_right_iff.1 hback
    rw [List.forall₂_nil_right_iff] at hnil
    rw [← List.take_append_drop ps.length w, hdrop, hnil]
    exact (h _ hfront).extended id id' id'' c

end Spells

/-! ### Literals -/

theorem join_singletons (cs : List Char) :
    String.join (cs.map String.singleton) = String.ofList cs := by
  induction cs with
  | nil => rfl
  | cons c cs ih => rw [List.map_cons, String.join_cons, ih, ← String.toList_inj]; simp

section

variable (cx : Context) (i id : Nat)

/-- A literal and its characters in turn. -/
theorem spelled_gives (first : Char) (rest : List Char) :
    let s := String.ofList (first :: rest)
    let letters := (first :: rest).map String.singleton
    let fast := Build.result id (Build.literal s)
    let slow := Build.result id do
      Build.tupled (← Build.char first) (← rest.mapM Build.char)
    if StandsAt cx.text i s then
      fast.Gives cx i (.accept (.text s) (i + s.length)) ∧
        slow.Gives cx i (.accept (.tuple (letters.map .text)) (i + s.length))
    else ∃ why why' k, LongestCommon s.toList (cx.text.toList.drop i) k ∧
      fast.Gives cx i (.reject why i) ∧ slow.Gives cx i (.reject why' (i + k)) := by
  intro s letters fast slow
  have hs : s.toList = first :: rest := String.toList_ofList
  have hstands : StandsAt cx.text i s ↔ first :: rest <+: cx.text.toList.drop i := by
    rw [← hs]
    exact standsAt_iff_ahead (by simp [hs])
  have hspells : Spells cx slow i (first :: rest) :=
    .tupled cx i _ ⟨id, rfl⟩ (charNodes_built rest (id + 1))
  cases hspells with
  | all h hslow =>
    rw [if_pos (hstands.2 h), ← String.length_toList, hs, List.map_map]
    refine ⟨.of_effect ?_, .of_effect hslow⟩
    rw [← hs, String.length_toList]
    exact effect_literal_of_standsAt cx i id (hstands.2 h)
  | @broken u v d hw hu hd hslow =>
    obtain ⟨why, hslow⟩ := hslow
    have hnot : ¬ StandsAt cx.text i s := by
      rw [hstands, hw]
      exact fun h => hd (List.IsPrefix.trans ⟨v, by simp⟩ h)
    rw [if_neg hnot, hs, hw]
    exact ⟨_, why, u.length, .of_break hu hd,
      .of_effect (effect_literal_of_not_standsAt cx i id hnot), .of_effect hslow⟩

/-- A literal of two texts and the two literals in a row. -/
theorem joined_gives {combine : Combiner} (hc : combine.Joins) (a b : String) :
    let whole := Build.result id (Build.literal (a ++ b))
    let parts := Build.result id do Build.both (← Build.literal a) (← Build.literal b) combine
    if StandsAt cx.text i (a ++ b) then
      let both := Reply.accept (.text (a ++ b)) (i + (a ++ b).length)
      whole.Gives cx i both ∧ parts.Gives cx i both
    else ∃ why why' start, whole.Gives cx i (.reject why i) ∧
      parts.Gives cx i (.reject why' start) := by
  intro whole parts
  have hparts : parts.effect cx i = ((Parser.literal id a).effect cx i).andThen fun v mid =>
      ((Parser.literal (id + 1) b).effect cx mid).andThen fun w stop =>
        .accept (combine.apply v w) stop := effect_both ..
  have hlength : i + a.length + b.length = i + (a ++ b).length := by
    rw [String.length_append, Nat.add_assoc]
  by_cases ha : StandsAt cx.text i a
  · rw [effect_literal_of_standsAt cx i id ha, Effect.accept_andThen] at hparts
    by_cases hb : StandsAt cx.text (i + a.length) b
    · have hab := (standsAt_append ..).2 ⟨ha, hb⟩
      rw [effect_literal_of_standsAt cx _ _ hb, Effect.accept_andThen, hc, Effect.accept_ok,
        hlength] at hparts
      rw [if_pos hab]
      exact ⟨.of_effect (effect_literal_of_standsAt cx i id hab), .of_effect hparts⟩
    · have hab := mt (standsAt_append cx.text i a b).1 fun h => hb h.2
      rw [effect_literal_of_not_standsAt cx _ _ hb, Effect.reject_andThen] at hparts
      rw [if_neg hab]
      exact ⟨_, _, _, .of_effect (effect_literal_of_not_standsAt cx i id hab), .of_effect hparts⟩
  · have hab := mt (standsAt_append cx.text i a b).1 fun h => ha h.1
    rw [effect_literal_of_not_standsAt cx i id ha, Effect.reject_andThen] at hparts
    rw [if_neg hab]
    exact ⟨_, _, _, .of_effect (effect_literal_of_not_standsAt cx i id hab), .of_effect hparts⟩

end

/-- A literal and the tuple of its characters accept at the same offsets and stop at the same, and
the tuple joined is the value of the literal. Where they reject, the literal does so at its
beginning, and the tuple behind the longest common prefix of the literal and the text ahead. A
literal of two texts in a row accepts where the two literals in a row do, with the same value and
the same stop. -/
theorem literal_spelled (cx : Context) {combine : Combiner} (hc : combine.Joins) (first : Char)
    (rest : List Char) (a b : String) (id i : Nat) :
    let s := String.ofList (first :: rest)
    let letters := (first :: rest).map String.singleton
    let fast := Build.result id (Build.literal s)
    let slow := Build.result id do
      Build.tupled (← Build.char first) (← rest.mapM Build.char)
    let whole := Build.result id (Build.literal (a ++ b))
    let parts := Build.result id do Build.both (← Build.literal a) (← Build.literal b) combine
    String.join letters = s ∧
    (if StandsAt cx.text i s then
      fast.Gives cx i (.accept (.text s) (i + s.length)) ∧
        slow.Gives cx i (.accept (.tuple (letters.map .text)) (i + s.length))
    else ∃ why why' k, LongestCommon s.toList (cx.text.toList.drop i) k ∧
      fast.Gives cx i (.reject why i) ∧ slow.Gives cx i (.reject why' (i + k))) ∧
    if StandsAt cx.text i (a ++ b) then
      let both := Reply.accept (.text (a ++ b)) (i + (a ++ b).length)
      whole.Gives cx i both ∧ parts.Gives cx i both
    else ∃ why why' start, whole.Gives cx i (.reject why i) ∧
      parts.Gives cx i (.reject why' start) :=
  ⟨join_singletons _, spelled_gives cx i id first rest, joined_gives cx i id hc a b⟩

/-- Where the text ahead breaks off in a literal. -/
theorem letters_spelled :
    let cx : Context := ⟨[], #['a', 'b', 'd'], false⟩
    let slow := Build.result 0 do
      Build.tupled (← Build.char 'a') (← ['b', 'c'].mapM Build.char)
    Combiner.add.Joins ∧
    (∃ why why', (Parser.literal 0 (String.ofList ['a', 'b', 'c'])).Gives cx 0 (.reject why 0) ∧
      slow.Gives cx 0 (.reject why' 2)) ∧
    (Parser.literal 0 ("a" ++ "b")).Gives cx 0 (.accept (.text "ab") 2) ∧
    (Parser.both 2 (.literal 0 "a") (.literal 1 "b") .add).Gives cx 0 (.accept (.text "ab") 2) := by
  intro cx slow
  obtain ⟨-, hspelled, hjoined⟩ :=
    literal_spelled cx Combiner.add_joins 'a' ['b', 'c'] "a" "b" 0 0
  rw [if_neg (by simp [StandsAt, cx])] at hspelled
  rw [if_pos (by simp [StandsAt, cx])] at hjoined
  obtain ⟨why, why', k, hk, hfast, hslow⟩ := hspelled
  have hbreak : LongestCommon ['a', 'b', 'c'] ['a', 'b', 'd'] 2 :=
    .of_break (u := ['a', 'b']) (by simp) (by simp)
  rw [String.toList_ofList] at hk
  obtain rfl := hk.unique hbreak
  exact ⟨Combiner.add_joins, ⟨why, why', hfast, hslow⟩, hjoined⟩

end ParserAlgebra
