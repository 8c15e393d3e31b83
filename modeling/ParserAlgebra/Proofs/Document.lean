import Mathlib.Tactic.IntervalCases
import ParserAlgebra.Expr.Fold
import ParserAlgebra.Proofs.Expr.RoundTrip
import ParserAlgebra.Proofs.Expr.Stacks
import ParserAlgebra.Proofs.Shown

/-!
# Documents can be read back

A reader of JSON texts that knows strings, integers and arrays, with blanks wherever JSON allows
them. It reads back each document from its text, so two documents with one text are one. The
document of an expression tells the expression: what a node is stands first in its array, and a name
is never in the place of a tag.
-/

namespace ParserAlgebra.Json

/-! ### Reading texts -/

def isBlank (c : Char) : Bool := c == ' ' || c == '\n' || c == '\r' || c == '\t'

def hexValue? (c : Char) : Option Nat :=
  if c.isDigit then some (c.toNat - '0'.toNat)
  else if 'a' ≤ c ∧ c ≤ 'f' then some (c.toNat - 'a'.toNat + 10)
  else if 'A' ≤ c ∧ c ≤ 'F' then some (c.toNat - 'A'.toNat + 10)
  else none

/-- The UTF-16 unit that four hexadecimal digits stand for. -/
def unit? : List Char → Option (Nat × List Char)
  | a :: b :: c :: d :: rest => do
    return ((((← hexValue? a) * 16 + (← hexValue? b)) * 16 + (← hexValue? c)) * 16
      + (← hexValue? d), rest)
  | _ => none

/-- The character that a unit begins. A high surrogate needs a low one behind it, and a low one
does not stand alone. -/
def paired? (high : Nat) (rest : List Char) : Option (Char × List Char) :=
  if high < 0xd800 ∨ 0xe000 ≤ high then some (Char.ofNat high, rest)
  else if high < 0xdc00 then
    match rest with
    | '\\' :: 'u' :: rest => do
      let (low, rest) ← unit? rest
      if 0xdc00 ≤ low ∧ low < 0xe000 then
        return (Char.ofNat (0x10000 + (high - 0xd800) * 0x400 + (low - 0xdc00)), rest)
      else none
    | _ => none
  else none

/-- The character behind a backslash. -/
def escaped? : List Char → Option (Char × List Char)
  | '\x22' :: rest => some ('\x22', rest)
  | '\\' :: rest => some ('\\', rest)
  | '/' :: rest => some ('/', rest)
  | 'n' :: rest => some ('\n', rest)
  | 'r' :: rest => some ('\r', rest)
  | 't' :: rest => some ('\t', rest)
  | 'b' :: rest => some ('\x08', rest)
  | 'f' :: rest => some ('\x0c', rest)
  | 'u' :: rest => do
    let (high, rest) ← unit? rest
    paired? high rest
  | _ => none

/-- One character of a string. Control characters do not stand in one. -/
def char? : List Char → Option (Char × List Char)
  | [] => none
  | c :: rest =>
    if c = '\\' then escaped? rest else if c.toNat < 0x20 then none else some (c, rest)

/-- The characters of a string up to its closing quote, at most `fuel` of them. -/
def string? : Nat → List Char → Option (List Char × List Char)
  | 0, _ => none
  | fuel + 1, cs =>
    if cs.head? = some '\x22' then some ([], cs.tail)
    else do
      let (c, rest) ← char? cs
      let (chars, rest) ← string? fuel rest
      return (c :: chars, rest)

/-- A number without a sign. It does not begin with a zero unless it is one. -/
def natural? (cs : List Char) : Option (Nat × List Char) :=
  let digits := cs.takeWhile Char.isDigit
  if digits = [] ∨ (digits.head? = some '0' ∧ digits ≠ ['0']) then none
  else
    some (Text.Decimal.ofDigits (digits.map fun c => c.toNat - '0'.toNat),
      cs.dropWhile Char.isDigit)

def integer? (cs : List Char) : Option (Int × List Char) :=
  if cs.head? = some '-' then (natural? cs.tail).map fun (n, rest) => (-n, rest)
  else (natural? cs).map fun (n, rest) => (n, rest)

mutual

/-- A document and what follows it; arrays nest and go on for at most `fuel` steps. -/
def value? : Nat → List Char → Option (Json × List Char)
  | 0, _ => none
  | fuel + 1, cs =>
    match cs.dropWhile isBlank with
    | [] => none
    | c :: rest =>
      if c = '\x22' then
        (string? (fuel + 1) rest).map fun (s, rest) => (.text (String.ofList s), rest)
      else if c = '[' then
        let rest := rest.dropWhile isBlank
        if rest.head? = some ']' then some (.array [], rest.tail)
        else do
          let (item, rest) ← value? fuel rest
          let (items, rest) ← rest? fuel rest
          return (.array (item :: items), rest)
      else (integer? (c :: rest)).map fun (n, rest) => (.number n, rest)

/-- The items behind the first one of an array, up to its closing bracket. -/
def rest? : Nat → List Char → Option (List Json × List Char)
  | 0, _ => none
  | fuel + 1, cs =>
    match cs.dropWhile isBlank with
    | ']' :: rest => some ([], rest)
    | ',' :: rest => do
      let (item, rest) ← value? fuel rest
      let (items, rest) ← rest? fuel rest
      return (item :: items, rest)
    | _ => none

end

/-- The document that a text holds, with nothing but blanks around it. -/
def read (s : String) : Option Json :=
  match value? s.length s.toList with
  | some (document, rest) => if rest.all isBlank then some document else none
  | none => none

/-! ### Characters -/

open Text.JsonString (asciiChar short? unit units)

theorem hexValue?_digitChar : ∀ d < 16, hexValue? (Nat.digitChar d) = some d := by
  decide

theorem unit?_hexDigits {n : Nat} (hn : n < 0x10000) (rest : List Char) :
    unit? (Text.hexDigits 4 n ++ rest) = some (n, rest) := by
  have hdigit : ∀ m, hexValue? (Nat.digitChar (m % 16)) = some (m % 16) := fun m =>
    hexValue?_digitChar _ (Nat.mod_lt m (by decide))
  have hvalue : ((n / 16 / 16 / 16 % 16 * 16 + n / 16 / 16 % 16) * 16 + n / 16 % 16) * 16 +
      n % 16 = n := by omega
  simp [Text.hexDigits, unit?, hdigit, hvalue]

theorem char?_unit {n : Nat} (hn : n < 0x10000) (rest : List Char) :
    char? (unit n ++ rest) = paired? n rest := by
  simp [unit, char?, escaped?, unit?_hexDigits hn]

theorem toNat_scalar (c : Char) :
    c.toNat < 0xd800 ∨ (0xe000 ≤ c.toNat ∧ c.toNat < 0x110000) := by
  rcases c.valid with h | ⟨h, h'⟩
  · exact .inl h
  · exact .inr ⟨h, h'⟩

theorem paired?_lone {n : Nat} (hn : n < 0xd800 ∨ 0xe000 ≤ n) (rest : List Char) :
    paired? n rest = some (Char.ofNat n, rest) := by
  unfold paired?
  rw [if_pos hn]

theorem paired?_pair {high low : Nat} (hhigh : 0xd800 ≤ high ∧ high < 0xdc00)
    (hlow : 0xdc00 ≤ low ∧ low < 0xe000) (rest : List Char) :
    paired? high (unit low ++ rest) =
      some (Char.ofNat (0x10000 + (high - 0xd800) * 0x400 + (low - 0xdc00)), rest) := by
  have hpaired : ¬(high < 0xd800 ∨ 0xe000 ≤ high) := by omega
  unfold paired? unit
  rw [if_neg hpaired, if_pos hhigh.2]
  simp only [List.cons_append, unit?_hexDigits (by omega : low < 0x10000), Option.bind_eq_bind,
    Option.bind_some, hlow, and_self, if_true, Option.pure_def]

theorem char?_units (c : Char) (rest : List Char) : char? (units c ++ rest) = some (c, rest) := by
  have hscalar := toNat_scalar c
  unfold units
  by_cases hunit : c.toNat < 0x10000
  · rw [if_pos hunit, char?_unit hunit, paired?_lone (by omega), Char.ofNat_toNat]
  · obtain ⟨n, hn⟩ : ∃ n, c.toNat = 0x10000 + n := Nat.exists_eq_add_of_le (by omega)
    have hsum : n / 0x400 * 0x400 + n % 0x400 = n := by omega
    rw [if_neg hunit, List.append_assoc, hn, Nat.add_sub_cancel_left, char?_unit (by omega),
      paired?_pair (by omega) (by omega), Nat.add_sub_cancel_left, Nat.add_sub_cancel_left,
      Nat.add_assoc, hsum, ← hn, Char.ofNat_toNat]

theorem short?_eq_some {c e : Char} (h : short? c = some e) (rest : List Char) :
    escaped? (e :: rest) = some (c, rest) := by
  unfold short? at h
  repeat (split at h; · cases h; subst_vars; rfl)
  cases h

theorem char?_asciiChar (c : Char) (rest : List Char) :
    char? (asciiChar c ++ rest) = some (c, rest) := by
  unfold asciiChar
  cases hshort : short? c with
  | some e => exact short?_eq_some hshort rest
  | none =>
    dsimp only
    split
    · rename_i hprintable
      have hslash : c ≠ '\\' := by
        rintro rfl
        cases hshort
      have hcontrol : ¬c.toNat < 0x20 := by omega
      rw [List.singleton_append, char?, if_neg hslash, if_neg hcontrol]
    · exact char?_units c rest

theorem head?_asciiChar (c : Char) : ∃ d ds, asciiChar c = d :: ds ∧ d ≠ '\x22' := by
  unfold asciiChar
  cases hshort : short? c with
  | some e => exact ⟨_, _, rfl, by decide⟩
  | none =>
    dsimp only
    split
    · refine ⟨_, _, rfl, ?_⟩
      rintro rfl
      cases hshort
    · unfold units unit
      split <;> exact ⟨_, _, rfl, by decide⟩

theorem string?_ascii (cs rest : List Char) {fuel : Nat} (h : cs.length < fuel) :
    string? fuel (cs.flatMap asciiChar ++ '\x22' :: rest) = some (cs, rest) := by
  induction cs generalizing fuel with
  | nil =>
    obtain ⟨fuel, rfl⟩ := Nat.exists_eq_add_one_of_ne_zero (by omega : fuel ≠ 0)
    rfl
  | cons c cs ih =>
    obtain ⟨fuel, rfl⟩ := Nat.exists_eq_add_one_of_ne_zero (by omega : fuel ≠ 0)
    have hrest := ih (by simpa using h)
    obtain ⟨d, ds, hc, hd⟩ := head?_asciiChar c
    have hhead : (asciiChar c ++ (cs.flatMap asciiChar ++ '\x22' :: rest)).head? ≠ some '\x22' := by
      rw [hc]
      simpa using hd
    rw [List.flatMap_cons, List.append_assoc, string?, if_neg hhead, char?_asciiChar]
    simp only [Option.bind_eq_bind, Option.bind_some, hrest]
    rfl

/-! ### Numbers -/

theorem head?_toDigits {n : Nat} (hn : n ≠ 0) : (Nat.toDigits 10 n).head? ≠ some '0' := by
  induction n using Nat.strongRecOn with
  | ind n ih =>
    by_cases hlt : n < 10
    · rw [Nat.toDigits_of_lt_base hlt]
      interval_cases n <;> simp_all [Nat.digitChar]
    · rw [Nat.toDigits_of_base_le (by decide) (by omega)]
      have hfirst := ih (n / 10) (by omega) (by omega)
      rwa [List.head?_append_of_ne_nil _ Nat.toDigits_ne_nil]

theorem natural?_toDigits (n : Nat) {rest : List Char}
    (hrest : ∀ c ∈ rest.head?, c.isDigit = false) :
    natural? (Nat.toDigits 10 n ++ rest) = some (n, rest) := by
  have hdigits : ∀ c ∈ Nat.toDigits 10 n, c.isDigit = true := fun c hc =>
    Nat.isDigit_of_mem_toDigits (by decide) (by decide) hc
  have hstop : rest.takeWhile Char.isDigit = [] ∧ rest.dropWhile Char.isDigit = rest := by
    cases rest with
    | nil => exact ⟨rfl, rfl⟩
    | cons c cs =>
      have hc := hrest c rfl
      simp [hc]
  have htake : (Nat.toDigits 10 n ++ rest).takeWhile Char.isDigit = Nat.toDigits 10 n := by
    rw [List.takeWhile_append_of_pos hdigits, hstop.1, List.append_nil]
  have hdrop : (Nat.toDigits 10 n ++ rest).dropWhile Char.isDigit = rest := by
    rw [List.dropWhile_append_of_pos hdigits, hstop.2]
  have hcanonical : ¬(Nat.toDigits 10 n = [] ∨
      ((Nat.toDigits 10 n).head? = some '0' ∧ Nat.toDigits 10 n ≠ ['0'])) := by
    rintro (hnil | ⟨hzero, hne⟩)
    · exact Nat.toDigits_ne_nil hnil
    · by_cases hn : n = 0
      · subst hn
        exact hne rfl
      · exact head?_toDigits hn hzero
  simp only [natural?, htake, hdrop, if_neg hcanonical, Expr.ofDigits_toDigits]

theorem integer?_toString (n : Int) {rest : List Char}
    (hrest : ∀ c ∈ rest.head?, c.isDigit = false) :
    integer? ((toString n).toList ++ rest) = some (n, rest) := by
  cases n with
  | ofNat n =>
    have hhead : (Nat.toDigits 10 n ++ rest).head? ≠ some '-' := by
      rw [List.head?_append_of_ne_nil _ Nat.toDigits_ne_nil]
      intro hminus
      have hdigit := Nat.isDigit_of_mem_toDigits (by decide) (by decide) (List.mem_of_head? hminus)
      cases hdigit
    rw [Text.toList_ofNat, integer?, if_neg hhead, natural?_toDigits n hrest]
    rfl
  | negSucc n =>
    have hhead : ('-' :: (Nat.toDigits 10 (n + 1) ++ rest)).head? = some '-' := rfl
    rw [Text.toList_negSucc, List.cons_append, integer?, if_pos hhead, List.tail_cons,
      natural?_toDigits (n + 1) hrest]
    rfl

/-! ### Documents -/

theorem toList_pad (level : Nat) : (pad level).toList = List.replicate (2 * level) ' ' :=
  String.toList_ofList

theorem toList_write_text (level : Nat) (s : String) :
    (write level (.text s)).toList = '\x22' :: (s.toList.flatMap asciiChar ++ ['\x22']) := by
  rw [write, Text.JsonString.ascii, String.toList_ofList, List.cons_append]

theorem toList_write_array (level : Nat) (item : Json) (items : List Json) :
    (write level (.array (item :: items))).toList =
      '[' :: '\n' :: ((pad (level + 1)).toList ++ ((write (level + 1) item).toList ++
        ((writeRest (level + 1) items).toList ++ '\n' :: ((pad level).toList ++ [']'])))) := by
  simp only [write, String.toList_append, List.append_assoc]
  rfl

theorem toList_writeRest (level : Nat) (item : Json) (items : List Json) :
    (writeRest level (item :: items)).toList =
      ',' :: '\n' :: ((pad level).toList ++ ((write level item).toList ++
        (writeRest level items).toList)) := by
  simp only [writeRest, String.toList_append, List.append_assoc]
  rfl

theorem isDigit_plain {c : Char} (h : c.isDigit = true) :
    isBlank c = false ∧ c ≠ '\x22' ∧ c ≠ '[' ∧ c ≠ ']' := by
  refine ⟨?_, ?_, ?_, ?_⟩
  · rw [← Bool.not_eq_true]
    intro hblank
    simp only [isBlank, Bool.or_eq_true, beq_iff_eq] at hblank
    rcases hblank with ((rfl | rfl) | rfl) | rfl <;> cases h
  all_goals
    rintro rfl
    cases h

/-- An integer begins with a sign or a digit. -/
theorem head_toString (n : Int) : ∃ c cs, (toString n).toList = c :: cs ∧ isBlank c = false ∧
    c ≠ '\x22' ∧ c ≠ '[' ∧ c ≠ ']' := by
  cases n with
  | ofNat n =>
    cases hdigits : Nat.toDigits 10 n with
    | nil => exact absurd hdigits Nat.toDigits_ne_nil
    | cons c cs =>
      have hc : c.isDigit = true :=
        Nat.isDigit_of_mem_toDigits (by decide) (by decide) (hdigits ▸ List.mem_cons_self)
      exact ⟨c, cs, (Text.toList_ofNat n).trans hdigits, isDigit_plain hc⟩
  | negSucc n => exact ⟨'-', _, Text.toList_negSucc n, rfl, by decide, by decide, by decide⟩

theorem head_write (level : Nat) (d : Json) :
    ∃ c cs, (write level d).toList = c :: cs ∧ isBlank c = false ∧ c ≠ ']' := by
  match d with
  | .text s => exact ⟨_, _, toList_write_text level s, rfl, by decide⟩
  | .number n =>
    obtain ⟨c, cs, hn, hblank, -, -, hclose⟩ := head_toString n
    exact ⟨c, cs, by rw [write, hn], hblank, hclose⟩
  | .array [] => exact ⟨'[', [']'], by rw [write]; rfl, rfl, by decide⟩
  | .array (item :: items) => exact ⟨_, _, toList_write_array level item items, rfl, by decide⟩

theorem dropWhile_write (level : Nat) (d : Json) (rest : List Char) :
    ((write level d).toList ++ rest).dropWhile isBlank = (write level d).toList ++ rest := by
  obtain ⟨c, cs, hchars, hblank, -⟩ := head_write level d
  rw [hchars, List.cons_append, List.dropWhile_cons_of_neg (by simp [hblank])]

theorem dropWhile_line (level : Nat) (cs : List Char) :
    ('\n' :: ((pad level).toList ++ cs)).dropWhile isBlank = cs.dropWhile isBlank := by
  have hpad : ∀ c ∈ '\n' :: (pad level).toList, isBlank c = true := by
    intro c hc
    rw [toList_pad] at hc
    rcases List.mem_cons.1 hc with rfl | hc
    · rfl
    · rw [List.eq_of_mem_replicate hc]
      rfl
  rw [← List.cons_append, List.dropWhile_append_of_pos hpad]

theorem value?_line (fuel level : Nat) (cs : List Char) :
    value? fuel ('\n' :: ((pad level).toList ++ cs)) = value? fuel cs := by
  cases fuel with
  | zero => rfl
  | succ fuel => rw [value?, value?, dropWhile_line]

/-- What stands behind an item is no digit, so a number ends there. -/
theorem head?_behind (level : Nat) (items : List Json) (rest : List Char) :
    ∀ c ∈ ((writeRest level items).toList ++ '\n' :: rest).head?, c.isDigit = false := by
  cases items with
  | nil =>
    rintro c ⟨⟩
    rfl
  | cons item items =>
    rw [toList_writeRest]
    rintro c ⟨⟩
    rfl

/-- An array has at least two characters more in its text than its items have in theirs. -/
theorem length_write_array (level : Nat) (item : Json) (items : List Json) :
    (write (level + 1) item).length + (writeRest (level + 1) items).length + 2 ≤
      (write level (.array (item :: items))).length := by
  simp only [← String.length_toList, toList_write_array, List.length_cons, List.length_append]
  omega

theorem length_writeRest (level : Nat) (item : Json) (items : List Json) :
    (write level item).length + (writeRest level items).length + 2 ≤
      (writeRest level (item :: items)).length := by
  simp only [← String.length_toList, toList_writeRest, List.length_cons, List.length_append]
  omega

theorem length_write_text (level : Nat) (s : String) :
    s.length + 2 ≤ (write level (.text s)).length := by
  have hchars : s.toList.length ≤ (s.toList.flatMap asciiChar).length := by
    induction s.toList with
    | nil => exact Nat.zero_le _
    | cons c cs ih =>
      obtain ⟨d, ds, hc, -⟩ := head?_asciiChar c
      simp only [List.flatMap_cons, List.length_append, List.length_cons, hc]
      omega
  simp only [← String.length_toList, toList_write_text, List.length_cons, List.length_append,
    List.length_nil]
  omega

theorem length_write_pos (level : Nat) (d : Json) : 0 < (write level d).length := by
  obtain ⟨c, cs, hchars, -⟩ := head_write level d
  rw [← String.length_toList, hchars]
  exact Nat.succ_pos _

/-- The document is read back from its text at any level, before anything that does not go on with
a digit. -/
def ReadBack (d : Json) : Prop :=
  ∀ (level fuel : Nat) (rest : List Char), (write level d).length ≤ fuel →
    (∀ c ∈ rest.head?, c.isDigit = false) →
      value? fuel ((write level d).toList ++ rest) = some (d, rest)

theorem readBack_text (s : String) : ReadBack (.text s) := by
  intro level fuel rest hfuel _
  have hlength := length_write_text level s
  obtain ⟨fuel, rfl⟩ := Nat.exists_eq_add_one_of_ne_zero (by omega : fuel ≠ 0)
  have hchars : s.toList.length < fuel + 1 := by
    rw [String.length_toList]
    omega
  have hstring := string?_ascii s.toList rest hchars
  rw [value?, dropWhile_write, toList_write_text, List.cons_append]
  simp only [if_true, List.append_assoc, List.cons_append, List.nil_append, hstring,
    Option.map_some, String.ofList_toList]

theorem readBack_number (n : Int) : ReadBack (.number n) := by
  intro level fuel rest hfuel hrest
  have hpos := length_write_pos level (.number n)
  obtain ⟨fuel, rfl⟩ := Nat.exists_eq_add_one_of_ne_zero (by omega : fuel ≠ 0)
  have hinteger := integer?_toString n hrest
  obtain ⟨c, cs, hchars, -, hquote, hopen, -⟩ := head_toString n
  rw [hchars, List.cons_append] at hinteger
  rw [value?, dropWhile_write, write, hchars, List.cons_append]
  simp only [hquote, hopen, if_false, hinteger, Option.map_some]

/-- The items behind the first one are read back up to the bracket. -/
theorem rest?_writeRest {items : List Json} (h : ∀ item ∈ items, ReadBack item)
    (level outer fuel : Nat) (rest : List Char) (hfuel : (writeRest level items).length < fuel) :
    rest? fuel ((writeRest level items).toList ++ '\n' :: ((pad outer).toList ++ ']' :: rest)) =
      some (items, rest) := by
  obtain ⟨fuel, rfl⟩ := Nat.exists_eq_add_one_of_ne_zero (by omega : fuel ≠ 0)
  induction items generalizing fuel with
  | nil =>
    rw [writeRest, String.toList_empty, List.nil_append, rest?, dropWhile_line]
    rfl
  | cons item items ih =>
    have hlength := length_writeRest level item items
    have hitem := h item List.mem_cons_self level fuel _ (by omega)
      (head?_behind level items ((pad outer).toList ++ ']' :: rest))
    obtain ⟨fuel, rfl⟩ := Nat.exists_eq_add_one_of_ne_zero (by omega : fuel ≠ 0)
    have hitems := ih (fun d hd => h d (.tail _ hd)) fuel (by omega)
    have hcomma : ∀ cs, (',' :: cs).dropWhile isBlank = ',' :: cs := fun cs => rfl
    rw [toList_writeRest, List.cons_append, rest?, hcomma]
    simp only [List.cons_append, List.append_assoc, value?_line, hitem, hitems,
      Option.bind_eq_bind, Option.bind_some, Option.pure_def]

theorem readBack_array {items : List Json} (h : ∀ item ∈ items, ReadBack item) :
    ReadBack (.array items) := by
  intro level fuel rest hfuel _
  have hpos := length_write_pos level (.array items)
  obtain ⟨fuel, rfl⟩ := Nat.exists_eq_add_one_of_ne_zero (by omega : fuel ≠ 0)
  rw [value?, dropWhile_write]
  cases items with
  | nil =>
    rw [write]
    rfl
  | cons item items =>
    have hlength := length_write_array level item items
    have hitem := h item List.mem_cons_self (level + 1) fuel _ (by omega)
      (head?_behind (level + 1) items ((pad level).toList ++ ']' :: rest))
    have hitems := rest?_writeRest (fun d hd => h d (.tail _ hd)) (level + 1) level fuel rest
      (by omega)
    have hskip := dropWhile_write (level + 1) item
      ((writeRest (level + 1) items).toList ++ '\n' :: ((pad level).toList ++ ']' :: rest))
    have hhead : ((write (level + 1) item).toList ++ ((writeRest (level + 1) items).toList ++
        '\n' :: ((pad level).toList ++ ']' :: rest))).head? ≠ some ']' := by
      obtain ⟨c, cs, hchars, -, hclose⟩ := head_write (level + 1) item
      rw [hchars]
      simpa using hclose
    rw [toList_write_array]
    simp only [List.cons_append, List.append_assoc, List.nil_append, dropWhile_line, hskip, hhead,
      hitem, hitems, Char.reduceEq, if_false, if_true, Option.bind_eq_bind, Option.bind_some,
      Option.pure_def]

theorem readBack : ∀ d : Json, ReadBack d
  | .text s => readBack_text s
  | .number n => readBack_number n
  | .array items => readBack_array fun item _ => readBack item

/-- A document is read back from what is printed for it. -/
theorem read_write (d : Json) : read (d.write 0 ++ "\n") = some d := by
  have hvalue := readBack d 0 (d.write 0 ++ "\n").length ['\n'] (by simp)
    (by rintro c ⟨⟩; rfl)
  have hchars : (d.write 0 ++ "\n").toList = (d.write 0).toList ++ ['\n'] := String.toList_append
  rw [read, hchars, hvalue]
  rfl

/-- A name beyond ASCII is written by its UTF-16 units, and by two of them beyond U+FFFF. -/
example : (Json.array [.text "var", .text "é𝔸"]).write 0 =
    "[\n  \"var\",\n  \"\\u00e9\\ud835\\udd38\"\n]" := by
  rfl

end ParserAlgebra.Json

namespace ParserAlgebra.Expr

theorem document_injective {e e' : Expr} (h : e.document = e'.document) : e = e' := by
  induction e generalizing e' with
  | lit n => cases e' <;> simp_all [document]
  | var x => cases e' <;> simp_all [document]
  | add l r hl hr =>
    cases e' with
    | add l' r' =>
      simp only [document, Json.array.injEq, List.cons.injEq, and_true, true_and] at h
      rw [hl h.1, hr h.2]
    | _ => simp [document] at h
  | mul l r hl hr =>
    cases e' with
    | mul l' r' =>
      simp only [document, Json.array.injEq, List.cons.injEq, and_true, true_and] at h
      rw [hl h.1, hr h.2]
    | _ => simp [document] at h

end ParserAlgebra.Expr
