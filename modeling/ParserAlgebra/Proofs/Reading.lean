import Mathlib
import ParserAlgebra.Parse

/-!
# Readings

A reading takes a value from the front of a list of characters and leaves the rest, or finds nothing
there, or ends in a fault.
-/

namespace ParserAlgebra

/-- These are the characters of the text from an offset on. -/
def Ahead (text : Array Char) (i : Nat) (cs : List Char) : Prop :=
  ∃ before, before.length = i ∧ text.toList = before ++ cs

namespace Ahead

variable {text : Array Char} {i : Nat} {cs : List Char}

theorem all (text : Array Char) : Ahead text 0 text.toList := ⟨[], rfl, rfl⟩

theorem size_eq (h : Ahead text i cs) : text.size = i + cs.length := by
  obtain ⟨before, hlen, htext⟩ := h
  rw [← Array.length_toList, htext, List.length_append, hlen]

theorem budget (h : Ahead text i cs) : budgetAt text i = cs.length + 2 := by
  have hsize := h.size_eq
  unfold budgetAt
  omega

theorem getElem? (h : Ahead text i cs) : text[i]? = cs.head? := by
  obtain ⟨before, hlen, htext⟩ := h
  rw [← Array.getElem?_toList, htext, List.getElem?_append_right (Nat.le_of_eq hlen), hlen,
    Nat.sub_self, List.head?_eq_getElem?]

theorem append {w : List Char} (h : Ahead text i (w ++ cs)) : Ahead text (i + w.length) cs := by
  obtain ⟨before, hlen, htext⟩ := h
  exact ⟨before ++ w, by rw [List.length_append, hlen], by rw [htext, List.append_assoc]⟩

theorem tail {c : Char} (h : Ahead text i (c :: cs)) : Ahead text (i + 1) cs :=
  append (w := [c]) h

theorem aheadAt_eq (h : Ahead text i cs) (w : List Char) : aheadAt text i w = w.isPrefixOf cs := by
  induction w generalizing i cs with
  | nil =>
    have hsize := h.size_eq
    have hle : i ≤ text.size := by omega
    simp only [aheadAt, hle, decide_true, List.isPrefixOf]
  | cons d w ih =>
    rw [aheadAt, h.getElem?]
    cases cs with
    | nil => rfl
    | cons c cs =>
      have hbeq : ((c :: cs).head? == some d) = (d == c) := by
        rw [List.head?_cons, Option.some_beq_some, BEq.comm]
      rw [hbeq, ih h.tail]
      rfl

/-- An offset and the characters ahead of it determine one another. -/
theorem eq_iff {j : Nat} {ds : List Char} (h : Ahead text i cs) (h' : Ahead text j ds) :
    j = i ↔ ds.length = cs.length := by
  have hi := h.size_eq
  have hj := h'.size_eq
  omega

end Ahead

/-! ### What readings do -/

abbrev Reading (α : Type) := List Char → Except Fault (Option (α × List Char))

namespace Reading

variable {α β : Type}

def one (test : Char → Bool) : Reading Char
  | [] => .ok none
  | c :: cs => .ok (if test c then some (c, cs) else none)

def skip (w : List Char) : Reading Unit := fun cs =>
  .ok (if w.isPrefixOf cs then some ((), cs.drop w.length) else none)

def bind (f : Reading α) (g : α → Reading β) : Reading β := fun cs =>
  match f cs with
  | .error e => .error e
  | .ok none => .ok none
  | .ok (some (a, rest)) => g a rest

def map (f : Reading α) (g : α → Except Fault β) : Reading β :=
  f.bind fun a rest => (g a).map fun b => some (b, rest)

def andThen (f : Reading α) (g : Reading β) : Reading (α × β) :=
  f.bind fun a => g.bind fun b rest => .ok (some ((a, b), rest))

def orElse (f g : Reading α) : Reading α := fun cs =>
  match f cs with
  | .error e => .error e
  | .ok none => g cs
  | .ok (some found) => .ok (some found)

theorem bind_bind {γ : Type} (f : Reading α) (g : α → Reading β) (h : β → Reading γ) :
    (f.bind g).bind h = f.bind fun a => (g a).bind h := by
  funext cs
  unfold bind
  rcases f cs with e | _ | ⟨a, rest⟩ <;> rfl

/-- As many values as there are, read one after the other while something is consumed. -/
def many (f : Reading α) (cs : List Char) : Except Fault (List α × List Char) :=
  match f cs with
  | .error e => .error e
  | .ok none => .ok ([], cs)
  | .ok (some (a, rest)) =>
    if rest.length < cs.length then (many f rest).map fun (as, rest) => (a :: as, rest)
    else .ok ([], cs)
termination_by cs.length

def atLeast (minimum : Nat) (f : Reading α) : Reading (List α) := fun cs =>
  (many f cs).map fun (as, rest) => if as.length < minimum then none else some (as, rest)

theorem many_one (test : Char → Bool) (cs : List Char) :
    many (one test) cs = .ok (cs.takeWhile test, cs.dropWhile test) := by
  induction cs with
  | nil => rw [many]; rfl
  | cons c cs ih =>
    rw [many, one]
    by_cases h : test c = true
    · have hlt : cs.length < (c :: cs).length := Nat.lt_succ_self _
      simp only [h, if_true, hlt, ih, Except.map, List.takeWhile_cons, List.dropWhile_cons]
    · simp [h]

def word (test : Char → Bool) : Reading (List Char) := fun cs =>
  .ok (if cs.takeWhile test = [] then none else some (cs.takeWhile test, cs.dropWhile test))

theorem atLeast_one (test : Char → Bool) : (one test).atLeast 1 = word test := by
  funext cs
  simp only [atLeast, many_one, Except.map, word, Nat.lt_one_iff, List.length_eq_zero_iff]

theorem one_andThen_atLeast (test : Char → Bool) :
    ((one test).andThen ((one test).atLeast 0)).map (fun x => .ok (x.1 :: x.2)) = word test := by
  funext cs
  cases cs with
  | nil => rfl
  | cons c cs =>
    by_cases h : test c = true
    · simp [map, andThen, bind, one, h, atLeast, many_one, Except.map, word]
    · simp [map, andThen, bind, one, h, word]

theorem word_eq_some {test : Char → Bool} {cs w rest : List Char}
    (h : word test cs = .ok (some (w, rest))) :
    w ≠ [] ∧ (∀ c ∈ w, test c = true) ∧ cs = w ++ rest ∧ ∀ c ∈ rest.head?, test c = false := by
  unfold word at h
  split at h
  · cases h
  · rename_i hne
    cases h
    refine ⟨hne, fun c hc => List.mem_takeWhile_imp hc, List.takeWhile_append_dropWhile.symm,
      fun c hc => ?_⟩
    have hhead := List.head?_dropWhile_not test cs
    rw [hc] at hhead
    simpa using hhead

theorem word_eq_none {test : Char → Bool} {cs : List Char} :
    word test cs = .ok none ↔ ∀ c ∈ cs.head?, test c = false := by
  cases cs with
  | nil => simp [word]
  | cons c cs => by_cases hc : test c = true <;> simp [word, hc]

theorem word_append {test : Char → Bool} {w rest : List Char} (hne : w ≠ [])
    (hw : ∀ c ∈ w, test c = true) (hrest : ∀ c ∈ rest.head?, test c = false) :
    word test (w ++ rest) = .ok (some (w, rest)) := by
  have htake : rest.takeWhile test = [] := by
    cases rest with
    | nil => rfl
    | cons c rest => simp [hrest c rfl]
  have hdrop : rest.dropWhile test = rest := by
    cases rest with
    | nil => rfl
    | cons c rest => simp [hrest c rfl]
  rw [word, List.takeWhile_append_of_pos hw, List.dropWhile_append_of_pos hw, htake, hdrop,
    List.append_nil, if_neg hne]

theorem orElse_one (test test' : Char → Bool) :
    (one test).orElse (one test') = one fun c => test c || test' c := by
  funext cs
  cases cs with
  | nil => rfl
  | cons c cs =>
    simp only [orElse, one]
    by_cases h : test c = true <;> simp [h]

theorem map_ok (f : Reading α) : f.map .ok = f := by
  funext cs
  unfold map bind
  rcases f cs with e | _ | ⟨a, rest⟩ <;> rfl

theorem skip_eq_some {w cs rest : List Char} :
    skip w cs = .ok (some ((), rest)) ↔ cs = w ++ rest := by
  unfold skip
  constructor
  · intro h
    split at h
    · rename_i hw
      obtain ⟨tail, rfl⟩ := List.isPrefixOf_iff_prefix.1 hw
      cases h
      rw [List.drop_left]
    · cases h
  · rintro rfl
    have hw : w.isPrefixOf (w ++ rest) = true := List.isPrefixOf_iff_prefix.2 ⟨rest, rfl⟩
    rw [if_pos hw, List.drop_left]

theorem bind_eq_some {f : Reading α} {g : α → Reading β} {cs rest : List Char} {b : β}
    (h : f.bind g cs = .ok (some (b, rest))) :
    ∃ a mid, f cs = .ok (some (a, mid)) ∧ g a mid = .ok (some (b, rest)) := by
  unfold bind at h
  split at h
  · cases h
  · cases h
  · exact ⟨_, _, ‹_›, h⟩

theorem map_eq_some {f : Reading α} {g : α → Except Fault β} {cs rest : List Char} {b : β}
    (h : f.map g cs = .ok (some (b, rest))) :
    ∃ a, f cs = .ok (some (a, rest)) ∧ g a = .ok b := by
  obtain ⟨a, mid, hf, hg⟩ := bind_eq_some h
  cases ha : g a with
  | error e =>
    rw [ha] at hg
    cases hg
  | ok b' =>
    rw [ha] at hg
    cases hg
    exact ⟨a, hf, ha⟩

theorem andThen_eq_some {f : Reading α} {g : Reading β} {cs rest : List Char} {x : α × β}
    (h : f.andThen g cs = .ok (some (x, rest))) :
    ∃ mid, f cs = .ok (some (x.1, mid)) ∧ g mid = .ok (some (x.2, rest)) := by
  obtain ⟨a, mid, hf, h'⟩ := bind_eq_some h
  obtain ⟨b, rest', hg, hx⟩ := bind_eq_some h'
  cases hx
  exact ⟨mid, hf, hg⟩

theorem orElse_eq_some {f g : Reading α} {cs rest : List Char} {a : α}
    (h : f.orElse g cs = .ok (some (a, rest))) :
    f cs = .ok (some (a, rest)) ∨ f cs = .ok none ∧ g cs = .ok (some (a, rest)) := by
  unfold orElse at h
  split at h
  · cases h
  · exact .inr ⟨‹_›, h⟩
  · rename_i hf
    cases h
    exact .inl hf

theorem orElse_eq_none {f g : Reading α} {cs : List Char} (h : f.orElse g cs = .ok none) :
    f cs = .ok none ∧ g cs = .ok none := by
  unfold orElse at h
  split at h
  · cases h
  · exact ⟨‹_›, h⟩
  · cases h

theorem bind_eq_none {f : Reading α} {g : α → Reading β} {cs : List Char}
    (h : f.bind g cs = .ok none) :
    f cs = .ok none ∨ ∃ a mid, f cs = .ok (some (a, mid)) ∧ g a mid = .ok none := by
  unfold bind at h
  split at h
  · cases h
  · exact .inl ‹_›
  · exact .inr ⟨_, _, ‹_›, h⟩

theorem map_eq_none {f : Reading α} {g : α → Except Fault β} {cs : List Char}
    (h : f.map g cs = .ok none) : f cs = .ok none := by
  rcases bind_eq_none h with hf | ⟨a, mid, -, hg⟩
  · exact hf
  · cases ha : g a with
    | error e =>
      rw [ha] at hg
      cases hg
    | ok b =>
      rw [ha] at hg
      cases hg

/-- A pair whose second part always finds something finds nothing only for want of the first. -/
theorem andThen_eq_none {f : Reading α} {g : Reading β} (hg : ∀ cs, g cs ≠ .ok none)
    {cs : List Char} (h : f.andThen g cs = .ok none) : f cs = .ok none := by
  rcases bind_eq_none h with hf | ⟨a, mid, -, h'⟩
  · exact hf
  · rcases bind_eq_none h' with hnone | ⟨b, rest, -, hx⟩
    · exact absurd hnone (hg mid)
    · cases hx

theorem atLeast_zero_ne_none (f : Reading α) (cs : List Char) : f.atLeast 0 cs ≠ .ok none := by
  unfold atLeast
  cases many f cs with
  | error e => exact nofun
  | ok found => exact nofun

/-! ### What is left -/

/-- Something is taken off the front of the list. -/
def Consumes (f : Reading α) : Prop :=
  ∀ cs a rest, f cs = .ok (some (a, rest)) → ∃ w, w ≠ [] ∧ cs = w ++ rest

theorem Consumes.length_lt {f : Reading α} (hf : Consumes f) {cs rest : List Char} {a : α}
    (h : f cs = .ok (some (a, rest))) : rest.length < cs.length := by
  obtain ⟨w, hne, rfl⟩ := hf cs a rest h
  have hpos : 0 < w.length := List.length_pos_iff.2 hne
  rw [List.length_append]
  omega

theorem one_consumes (test : Char → Bool) : Consumes (one test) := by
  intro cs a rest h
  cases cs with
  | nil => cases h
  | cons c cs =>
    by_cases hc : test c = true
    · simp only [one, hc, if_true] at h
      cases h
      exact ⟨[a], List.cons_ne_nil _ _, rfl⟩
    · simp [one, hc] at h

theorem word_consumes (test : Char → Bool) : Consumes (word test) := by
  intro cs w rest h
  obtain ⟨hne, -, hcs, -⟩ := word_eq_some h
  exact ⟨w, hne, hcs⟩

namespace Consumes

variable {f : Reading α}

theorem map (hf : Consumes f) (g : α → Except Fault β) : Consumes (f.map g) := by
  intro cs b rest h
  obtain ⟨a, ha, -⟩ := map_eq_some h
  exact hf cs a rest ha

theorem andThen {g : Reading β} (hf : Consumes f)
    (hg : ∀ cs b rest, g cs = .ok (some (b, rest)) → ∃ w, cs = w ++ rest) :
    Consumes (f.andThen g) := by
  intro cs x rest h
  obtain ⟨mid, hx, hy⟩ := andThen_eq_some h
  obtain ⟨w, hne, rfl⟩ := hf _ _ _ hx
  obtain ⟨w', rfl⟩ := hg _ _ _ hy
  exact ⟨w ++ w', List.append_ne_nil_of_left_ne_nil hne w', (List.append_assoc ..).symm⟩

theorem orElse {g : Reading α} (hf : Consumes f) (hg : Consumes g) : Consumes (f.orElse g) := by
  intro cs a rest h
  rcases orElse_eq_some h with h | ⟨-, h⟩
  · exact hf _ _ _ h
  · exact hg _ _ _ h

end Consumes

/-! ### Repeating -/

/-- The values that a reading finds one after the other, until it finds nothing. -/
inductive Series (f : Reading α) : List Char → List α → List Char → Prop
  | stop {cs : List Char} (h : f cs = .ok none) : Series f cs [] cs
  | more {cs mid rest : List Char} {a : α} {as : List α} (h : f cs = .ok (some (a, mid)))
      (hrest : Series f mid as rest) : Series f cs (a :: as) rest

theorem series_of_many {f : Reading α} (hf : Consumes f) {cs rest : List Char} {as : List α}
    (h : f.many cs = .ok (as, rest)) : Series f cs as rest := by
  fun_induction many f cs generalizing as rest with
  | case1 cs e he => cases h
  | case2 cs hcs =>
    cases h
    exact .stop hcs
  | case3 cs a mid hcs hlt ih =>
    cases hm : many f mid with
    | error e =>
      rw [hm] at h
      cases h
    | ok found =>
      rw [hm] at h
      cases h
      exact .more hcs (ih hm)
  | case4 cs a mid hcs hnot => exact absurd (hf.length_lt hcs) hnot

theorem many_of_series {f : Reading α} (hf : Consumes f) {cs rest : List Char} {as : List α}
    (h : Series f cs as rest) : f.many cs = .ok (as, rest) := by
  induction h with
  | stop h => rw [many, h]
  | more h _ ih =>
    rw [many, h]
    simp only [hf.length_lt h, if_true, ih]
    rfl

theorem Series.append {f : Reading α} (hf : Consumes f) {cs rest : List Char} {as : List α}
    (h : Series f cs as rest) : ∃ w, cs = w ++ rest := by
  induction h with
  | stop => exact ⟨[], rfl⟩
  | more h _ ih =>
    obtain ⟨w, -, rfl⟩ := hf _ _ _ h
    obtain ⟨w', rfl⟩ := ih
    exact ⟨w ++ w', (List.append_assoc ..).symm⟩

theorem fault_of_many {f : Reading α} (hf : Consumes f) {cs : List Char} {e : Fault}
    (h : f.many cs = .error e) : ∃ w mid, cs = w ++ mid ∧ f mid = .error e := by
  fun_induction many f cs with
  | case1 cs e' he =>
    cases h
    exact ⟨[], cs, rfl, he⟩
  | case2 cs hcs => cases h
  | case3 cs a mid hcs hlt ih =>
    cases hm : many f mid with
    | error e' =>
      rw [hm] at h
      cases h
      obtain ⟨w, mid', rfl, hfault⟩ := ih hm
      obtain ⟨w', -, rfl⟩ := hf _ _ _ hcs
      exact ⟨w' ++ w, mid', (List.append_assoc ..).symm, hfault⟩
    | ok found =>
      rw [hm] at h
      cases h
  | case4 cs a mid hcs hnot => cases h

theorem atLeast_zero_eq_some {f : Reading α} (hf : Consumes f) {cs rest : List Char} {as : List α} :
    f.atLeast 0 cs = .ok (some (as, rest)) ↔ Series f cs as rest := by
  constructor
  · intro h
    cases hm : many f cs with
    | error e => simp [atLeast, hm, Except.map] at h
    | ok found =>
      simp only [atLeast, hm, Except.map, Nat.not_lt_zero, if_false] at h
      cases h
      exact series_of_many hf hm
  · intro h
    simp [atLeast, many_of_series hf h, Except.map]

/-! ### Faults -/

theorem bind_eq_error {f : Reading α} {g : α → Reading β} {cs : List Char} {e : Fault}
    (h : f.bind g cs = .error e) :
    f cs = .error e ∨ ∃ a mid, f cs = .ok (some (a, mid)) ∧ g a mid = .error e := by
  unfold bind at h
  split at h
  · cases h
    exact .inl ‹_›
  · cases h
  · exact .inr ⟨_, _, ‹_›, h⟩

/-- Where the reading ends in a fault, a piece of the list goes with the fault. -/
def Blames (P : List Char → Fault → Prop) (f : Reading α) : Prop :=
  ∀ cs e, f cs = .error e → ∃ ds, ds <:+: cs ∧ P ds e

namespace Blames

variable {P : List Char → Fault → Prop} {f : Reading α}

theorem map (hf : Blames P f) (g : α → β) : Blames P (f.map fun a => .ok (g a)) := by
  intro cs e h
  rcases bind_eq_error h with h | ⟨a, mid, -, h⟩
  · exact hf cs e h
  · cases h

theorem andThen {g : Reading β} (hf : Blames P f)
    (hrest : ∀ cs a rest, f cs = .ok (some (a, rest)) → ∃ w, cs = w ++ rest) (hg : Blames P g) :
    Blames P (f.andThen g) := by
  intro cs e h
  rcases bind_eq_error h with h | ⟨a, mid, ha, h⟩
  · exact hf cs e h
  · rcases bind_eq_error h with h | ⟨b, rest, -, h⟩
    · obtain ⟨ds, hds, hP⟩ := hg mid e h
      obtain ⟨w, rfl⟩ := hrest cs a mid ha
      exact ⟨ds, List.infix_append_of_infix_right hds, hP⟩
    · cases h

theorem orElse {g : Reading α} (hf : Blames P f) (hg : Blames P g) : Blames P (f.orElse g) := by
  intro cs e h
  unfold Reading.orElse at h
  split at h
  · cases h
    exact hf cs _ ‹_›
  · exact hg cs e h
  · cases h

theorem atLeast (hf : Blames P f) (hc : Consumes f) (minimum : Nat) :
    Blames P (f.atLeast minimum) := by
  intro cs e h
  cases hm : many f cs with
  | error e' =>
    obtain rfl : e' = e := by simpa [Reading.atLeast, hm, Except.map] using h
    obtain ⟨w, mid, rfl, hfault⟩ := fault_of_many hc hm
    obtain ⟨ds, hds, hP⟩ := hf mid e' hfault
    exact ⟨ds, List.infix_append_of_infix_right hds, hP⟩
  | ok found => simp [Reading.atLeast, hm, Except.map] at h

theorem skip (w : List Char) : Blames P (skip w) := fun _ _ h => nomatch h

theorem word (test : Char → Bool) : Blames P (word test) := fun _ _ h => nomatch h

end Blames

end Reading

end ParserAlgebra
