import ParserAlgebra.Parse
import ParserAlgebra.Proofs.Offset

/-!
# What errors report

The error of a text that has no value tells what the result of parsing it shows: the reason and
place of a rejection, or the character where the parser stopped too early. The column in the words
of such an error is counted from the last line feed and the column of the error from the beginning
of the line, which comes to the same.
-/

namespace ParserAlgebra

open Run (Keeps)
open ParserAlgebra.Parser (Kinded)

/-! ### Columns -/

namespace Text

/-- What is left of a text without the characters behind its last line feed. -/
theorem length_sub_takeWhile (cs : List Char) :
    cs.length - (cs.reverse.takeWhile (· != '\n')).length = (lastFeed? cs).elim 0 Nat.succ := by
  induction cs using List.reverseRecOn with
  | nil => rfl
  | append_singleton cs c ih =>
    rw [lastFeed?_concat, List.reverse_append, List.reverse_singleton, List.singleton_append,
      List.takeWhile_cons, List.length_append, List.length_singleton]
    by_cases hc : c = '\n'
    · simp [hc]
    · rw [if_neg hc, bne_iff_ne.2 hc, if_pos rfl, List.length_cons, Nat.add_sub_add_right, ih]

theorem lineStart_eq (cs : List Char) (start : Nat) :
    lineStart cs start = (lastFeed? (cs.take start)).elim 0 Nat.succ :=
  length_sub_takeWhile (cs.take start)

/-- A line begins behind a line feed, so both ways of counting give the column. -/
theorem feedDistance_eq (cs : List Char) (start : Nat) :
    feedDistance cs start = columnAt cs start := by
  rw [feedDistance, columnAt, lineStart_eq]
  cases hfeed : lastFeed? (cs.take start) with
  | none => rfl
  | some i =>
    have hlt : i < start := (lastFeed?_lt hfeed).trans_le (List.length_take_le start cs)
    simp only [Option.elim_some]
    omega

end Text

/-! ### Errors -/

/-- What an error tells of a result. The message begins with the path and the line; a rejection
passes on its reason, its place, its line and its column, and a parser that stopped too early gives
the character at which it did. -/
structure ParseError.TellsOf (e : ParseError) (r : Result) (path : String) : Prop where
  path_eq : e.path = path
  message_eq : e.message = path ++ ":" ++ toString ((r.input.toList.take e.start).count '\n' + 1)
    ++ " " ++ e.reason.text
  cause : (r.reply = .reject e.reason e.start ∧ e.line = r.line ∧ e.column = r.column) ∨
    ∃ v c, r.reply = .accept v e.start ∧ r.input.toList[e.start]? = some c ∧
      e.reason.text = "Unexpected " ++ Text.JsonString.plain (String.singleton c) ++ " at column "
        ++ toString e.column

namespace Result

variable {r : Result} {path : String} {allowTrailing : Bool}

/-! ### Values of results -/

theorem value_of_reject {why : Reason} {start : Nat} (h : r.reply = .reject why start) :
    r.value path allowTrailing = .error (.noParse (.at r.input path why start)) := by
  simp only [value, h]

theorem value_of_end {v : Value} {stop : Nat} (h : r.reply = .accept v stop)
    (hend : allowTrailing = true ∨ stop = r.input.length) : r.value path allowTrailing = .ok v := by
  have htest : (allowTrailing || stop == r.input.length) = true := by simpa using hend
  simp only [value, h, htest, if_true]

theorem value_of_rest {v : Value} {stop : Nat} {c : Char} (h : r.reply = .accept v stop)
    (hrest : ¬(allowTrailing = true ∨ stop = r.input.length))
    (hc : r.input.toList[stop]? = some c) :
    r.value path allowTrailing = .error (.noParse (.at r.input path
      (.trailing c (Text.feedDistance r.input.toList stop)) stop)) := by
  have htest : (allowTrailing || stop == r.input.length) = false := by simpa using hrest
  simp only [value, h, htest, Bool.false_eq_true, if_false, hc]

theorem value_ok {v : Value} (h : r.value path allowTrailing = .ok v) :
    ∃ stop, r.reply = .accept v stop ∧ (allowTrailing = true ∨ stop = r.input.length) := by
  rcases hreply : r.reply with ⟨w, stop⟩ | ⟨why, start⟩
  · by_cases hend : allowTrailing = true ∨ stop = r.input.length
    · cases (value_of_end hreply hend).symm.trans h
      exact ⟨stop, rfl, hend⟩
    · cases hc : r.input.toList[stop]? with
      | some c => cases (value_of_rest hreply hend hc).symm.trans h
      | none =>
        have htest : (allowTrailing || stop == r.input.length) = false := by simpa using hend
        simp only [value, hreply, htest, Bool.false_eq_true, if_false, hc, reduceCtorEq] at h
  · cases (value_of_reject hreply).symm.trans h

theorem tellsOf_reject {why : Reason} {start : Nat} (h : r.reply = .reject why start) :
    (ParseError.at r.input path why start).TellsOf r path where
  path_eq := rfl
  message_eq := rfl
  cause := .inl ⟨h, by simp only [ParseError.at, line, offset, h],
    by simp only [ParseError.at, column, offset, h]⟩

theorem trailing_text (cs : List Char) (c : Char) (stop : Nat) :
    (Reason.trailing c (Text.feedDistance cs stop)).text =
      "Unexpected " ++ Text.JsonString.plain (String.singleton c) ++ " at column "
        ++ toString (Text.columnAt cs stop) := by
  rw [Text.feedDistance_eq]
  rfl

theorem tellsOf_rest {v : Value} {stop : Nat} {c : Char} (h : r.reply = .accept v stop)
    (hc : r.input.toList[stop]? = some c) :
    (ParseError.at r.input path (.trailing c (Text.feedDistance r.input.toList stop)) stop).TellsOf
      r path where
  path_eq := rfl
  message_eq := rfl
  cause := .inr ⟨v, c, h, hc, trailing_text r.input.toList c stop⟩

/-- A result whose offset is one of its text has a value or an error that tells of it. -/
theorem value_error (hr : r.reply.Within 0 r.input.length) {f : Fault}
    (h : r.value path allowTrailing = .error f) : ∃ e, f = .noParse e ∧ e.TellsOf r path := by
  rcases hreply : r.reply with ⟨v, stop⟩ | ⟨why, start⟩
  · by_cases hend : allowTrailing = true ∨ stop = r.input.length
    · cases (value_of_end hreply hend).symm.trans h
    · -- The offset is inside the text, so there is a character to name.
      rw [hreply] at hr
      have hlt : stop < r.input.toList.length := by
        rw [String.length_toList]
        exact lt_of_le_of_ne hr.2 (not_or.1 hend).2
      have hc := List.getElem?_eq_getElem hlt
      cases (value_of_rest hreply hend hc).symm.trans h
      exact ⟨_, rfl, tellsOf_rest hreply hc⟩
  · cases (value_of_reject hreply).symm.trans h
    exact ⟨_, rfl, tellsOf_reject hreply⟩

end Result

section

variable {rules : Rules} {p : Parser} (hp : p.Kinded rules)
include hp

theorem evaluate_within (depth : Nat) (input : String) (trace : Bool) :
    Keeps (Kinded rules) (evaluate rules depth p input trace) fun r =>
      r.input = input ∧ r.reply.Within 0 r.input.length := by
  let cx : Context := { rules, text := input.toList.toArray, trace }
  have hsize : cx.text.size = input.length := by
    rw [List.size_toArray, String.length_toList]
  refine .bind (interpret_within cx depth hp (Nat.zero_le _)) fun reply hr => .pure ⟨rfl, ?_⟩
  rw [hsize] at hr
  exact hr

theorem parse_within (depth : Nat) (settings : Settings) (input : String) :
    Keeps (Kinded rules) (parse rules depth settings p input) fun r =>
      r.input = input ∧ r.reply.Within 0 r.input.length := by
  unfold parse
  cases settings.optimized with
  | false => exact .bind (.pure hp) fun q hq => evaluate_within hq depth input _
  | true =>
    exact .bind (optimize_everywhere isBare_local depth hp) fun q hq =>
      evaluate_within hq depth input _

end

/-- What parsing a text found is reported. The text has the value of an acceptance that, unless
trailing text is allowed, stopped at the end; otherwise it has an error, that of a text that does
not parse, which tells of the result. -/
theorem parseValue_reports {rules : Rules} {depth : Nat} {settings : Settings} {p : Parser}
    {input : String} {m m' : Memory} {r : Result} (hp : p.Kinded rules)
    (hm : m.Holds (Kinded rules))
    (h : (parse rules depth settings p input).exec m = (.ok r, m')) (path : String)
    (allowTrailing : Bool) :
    r.input = input ∧ ∃ answer,
      (parseValue rules depth settings p input path allowTrailing).exec m = (answer, m') ∧
      (∀ v, answer = .ok v ↔ ∃ stop, r.reply = .accept v stop ∧
        (allowTrailing = true ∨ stop = input.length)) ∧
      ∀ halt, answer = .error halt → ∃ e, halt = .fault (.noParse e) ∧ e.TellsOf r path := by
  obtain ⟨rfl, hwithin⟩ := (parse_within hp depth settings input m hm).2 r (by rw [h])
  refine ⟨rfl, ((Run.ofExcept (r.value path allowTrailing)).exec m').1, ?_, fun v => ?_,
    fun halt hhalt => ?_⟩
  · rw [parseValue, Run.exec_bind, h]
    dsimp only
    cases r.value path allowTrailing <;> rfl
  · constructor
    · intro hv
      cases hvalue : r.value path allowTrailing with
      | error f =>
        rw [hvalue] at hv
        cases hv
      | ok w =>
        rw [hvalue] at hv
        cases hv
        exact Result.value_ok hvalue
    · rintro ⟨stop, hreply, hend⟩
      rw [Result.value_of_end hreply hend]
      rfl
  · cases hvalue : r.value path allowTrailing with
    | ok v =>
      rw [hvalue] at hhalt
      cases hhalt
    | error f =>
      rw [hvalue] at hhalt
      cases hhalt
      obtain ⟨e, rfl, he⟩ := Result.value_error hwithin hvalue
      exact ⟨e, rfl, he⟩

def twoLines : Parser := .literal 0 "one\ntwo"

/-- The parser stops at the end of the second line, and the line feed there is reported. -/
theorem twoLines_reported : twoLines.Kinded [] ∧ ({} : Memory).Holds (Kinded []) ∧
    ∃ r e, (parse [] 1 {} twoLines "one\ntwo\nthree").exec {} = (.ok r, {}) ∧
      (parseValue [] 1 {} twoLines "one\ntwo\nthree" "lines.txt" false).exec {} =
        (.error (.fault (.noParse e)), {}) ∧
      e.TellsOf r "lines.txt" ∧ r.reply = .accept (.text "one\ntwo") 7 ∧ e.start = 7 ∧
      e.message = "lines.txt:2 Unexpected \"\\n\" at column 4" := by
  have hp : twoLines.Kinded [] := Parser.kinded_of_static rfl rfl
  have hm : ({} : Memory).Holds (Kinded []) := fun _ _ h => absurd h (by simp [Memory.parserIn?])
  have hparse : (parse [] 1 {} twoLines "one\ntwo\nthree").exec {} =
      (.ok ⟨"one\ntwo\nthree", .accept (.text "one\ntwo") 7⟩, {}) := rfl
  obtain ⟨-, answer, hanswer, -, herror⟩ := parseValue_reports hp hm hparse "lines.txt" false
  let e : ParseError := .at "one\ntwo\nthree" "lines.txt" (.trailing '\n' 4) 7
  have hvalue : (parseValue [] 1 {} twoLines "one\ntwo\nthree" "lines.txt" false).exec {} =
      (.error (.fault (.noParse e)), {}) := rfl
  rw [hvalue] at hanswer
  cases hanswer
  obtain ⟨e', he', htells⟩ := herror _ rfl
  cases he'
  exact ⟨hp, hm, _, e, hparse, hvalue, htells, rfl, rfl, by decide +kernel⟩

end ParserAlgebra
