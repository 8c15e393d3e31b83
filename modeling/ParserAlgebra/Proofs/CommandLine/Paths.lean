import Mathlib
import ParserAlgebra.Proofs.CommandLine.Output

/-!
# Absolute paths

Making a path absolute takes steps in place out of it in one pass, which leaves a step where two
stood in a row. So an absolute path is its own absolute path unless there were two in a row in the
text that the last pass was made over, and then a file is found under the absolute path exactly when
it is found under the path.
-/

namespace ParserAlgebra

namespace Path

/-- A step in place. -/
def inPlace : List Char := ['/', '.', '/']

/-- Two steps in place in a row. -/
def twiceInPlace : List Char := ['/', '.', '/', '.', '/']

/-- There is no step in place in the path. -/
def Settled (p : List Char) : Prop := ¬ inPlace <:+: p

/-! ### One pass -/

theorem inPlace_prefix_iff {p : List Char} : inPlace <+: p ↔ ∃ cs, p = '/' :: '.' :: '/' :: cs :=
  ⟨fun ⟨cs, h⟩ => ⟨cs, h.symm⟩, fun ⟨cs, h⟩ => ⟨cs, h.symm⟩⟩

theorem settled_nil : Settled [] := by simp [Settled, inPlace]

theorem settled_cons_iff {c : Char} {cs : List Char} :
    Settled (c :: cs) ↔ ¬ inPlace <+: c :: cs ∧ Settled cs := by
  rw [Settled, List.infix_cons_iff, not_or, Settled]

/-- A path that a pass goes past does not begin with a step in place. -/
theorem not_begins_inPlace {c : Char} {cs : List Char}
    (h : ∀ rest, c = '/' → cs = '.' :: '/' :: rest → False) : ¬ inPlace <+: c :: cs := fun hp => by
  obtain ⟨rest, he⟩ := inPlace_prefix_iff.1 hp
  cases he
  exact h rest rfl rfl

theorem length_dropDots_le (p : List Char) : (dropDots p).length ≤ p.length := by
  fun_induction dropDots p with
  | case1 cs ih => simp only [List.length_cons]; omega
  | case2 c cs _ ih => simp only [List.length_cons]; omega
  | case3 => exact le_rfl

/-- A pass changes nothing exactly where there is nothing to do. -/
theorem dropDots_eq_self_iff {p : List Char} : dropDots p = p ↔ Settled p := by
  fun_induction dropDots p with
  | case1 cs ih =>
    have hshort := length_dropDots_le cs
    refine ⟨fun h => ?_, fun h => absurd (inPlace_prefix_iff.2 ⟨cs, rfl⟩).isInfix h⟩
    have hlength := congrArg List.length h
    simp only [List.length_cons] at hlength
    omega
  | case2 c cs hc ih =>
    have hstart := not_begins_inPlace hc
    rw [List.cons.injEq, settled_cons_iff, ih]
    exact ⟨fun h => ⟨hstart, h.2⟩, fun h => ⟨rfl, h.2⟩⟩
  | case3 => exact ⟨fun _ => settled_nil, fun _ => rfl⟩

theorem isAbsolute_dropDots (p : List Char) : isAbsolute (dropDots p) = isAbsolute p := by
  fun_induction dropDots p <;> rfl

theorem slash_prefix_iff {p : List Char} : ['/'] <+: p ↔ isAbsolute p = true := by
  cases p with
  | nil => simp [isAbsolute]
  | cons c cs => simp [isAbsolute, List.cons_prefix_cons, @eq_comm _ c]

/-- A pass does not look behind a dot for the slash in front of it. -/
theorem dot_prefix_dropDots_iff {p : List Char} : ['.', '/'] <+: dropDots p ↔ ['.', '/'] <+: p := by
  fun_induction dropDots p with
  | case1 cs ih => simp
  | case2 c cs _ ih => rw [List.cons_prefix_cons, List.cons_prefix_cons, slash_prefix_iff,
      slash_prefix_iff, isAbsolute_dropDots]
  | case3 => exact Iff.rfl

/-- What a pass leaves has a step in place exactly where two stood in a row. -/
theorem settled_dropDots_iff {p : List Char} :
    Settled (dropDots p) ↔ ¬ twiceInPlace <:+: p := by
  fun_induction dropDots p with
  | case1 cs ih =>
    have htwice : twiceInPlace <:+: '/' :: '.' :: '/' :: cs ↔
        ['.', '/'] <+: cs ∨ twiceInPlace <:+: cs := by
      have hlater : twiceInPlace <+: '/' :: cs → ['.', '/'] <+: cs := fun h =>
        (List.prefix_append ['.', '/'] ['.', '/']).trans (List.cons_prefix_cons.1 h).2
      have hdot : ¬ twiceInPlace <+: '.' :: '/' :: cs := fun h => by
        cases (List.cons_prefix_cons.1 h).1
      simp only [@List.infix_cons_iff _ twiceInPlace, hdot, false_or]
      simp only [twiceInPlace, List.cons_prefix_cons, true_and] at hlater ⊢
      tauto
    rw [settled_cons_iff, ih, htwice, not_or, inPlace, List.cons_prefix_cons,
      dot_prefix_dropDots_iff]
    tauto
  | case2 c cs hc ih =>
    have hstart := not_begins_inPlace hc
    have htwice : ¬ twiceInPlace <+: c :: cs := fun h =>
      hstart ((List.prefix_append inPlace ['.', '/']).trans h)
    have hafter : ¬ inPlace <+: c :: dropDots cs := by
      rw [inPlace, List.cons_prefix_cons, dot_prefix_dropDots_iff, ← List.cons_prefix_cons]
      exact hstart
    rw [settled_cons_iff, ih, List.infix_cons_iff]
    tauto
  | case3 => simp [twiceInPlace, settled_nil]

theorem length_dropDots_lt {p : List Char} (h : ¬ Settled p) : (dropDots p).length < p.length := by
  fun_induction dropDots p with
  | case1 cs ih =>
    have hshort := length_dropDots_le cs
    simp only [List.length_cons]
    omega
  | case2 c cs hc ih =>
    have hcs : ¬ Settled cs := fun hcs => h (settled_cons_iff.2 ⟨not_begins_inPlace hc, hcs⟩)
    exact Nat.succ_lt_succ (ih hcs)
  | case3 => exact absurd settled_nil h

theorem eq_nil_of_dropDots {p : List Char} (h : dropDots p = []) : p = [] := by
  fun_cases dropDots p <;> simp_all [dropDots]

theorem eq_dot_of_dropDots {p : List Char} (h : dropDots p = ['.']) : p = ['.'] := by
  fun_cases dropDots p with
  | case1 cs => cases h
  | case2 c cs hc =>
    rw [dropDots.eq_2 c cs hc] at h
    injection h with hc hcs
    rw [hc, eq_nil_of_dropDots hcs]
  | case3 => cases h

/-- Two texts with no step in place in either do not have two in a row across their border. -/
theorem not_twiceInPlace_append {x y : List Char} (hx : Settled x) (hy : Settled y) :
    ¬ twiceInPlace <:+: x ++ y := by
  have hinside : inPlace <:+: twiceInPlace := ⟨['/', '.'], [], rfl⟩
  induction x with
  | nil => exact fun h => hy (hinside.trans h)
  | cons c x ih =>
    rw [List.cons_append, List.infix_cons_iff, not_or]
    refine ⟨?_, ih (settled_cons_iff.1 hx).2⟩
    rintro ⟨rest, h⟩
    rcases x with _ | ⟨d, _ | ⟨e, x⟩⟩
    · cases h
      exact hy ⟨['.'], rest, rfl⟩
    · cases h
      exact hy ⟨[], rest, rfl⟩
    · have hfront : '/' = c ∧ '.' = d ∧ '/' = e := by
        simp only [twiceInPlace, List.cons_append, List.cons.injEq] at h
        exact ⟨h.1, h.2.1, h.2.2.1⟩
      obtain ⟨rfl, rfl, rfl⟩ := hfront
      exact hx ⟨[], x, rfl⟩

/-! ### Absolute paths -/

theorem addComponent_nil (p : List Char) : addComponent [] p = if p = ['.'] then [] else p := by
  unfold addComponent
  split_ifs <;> simp_all

/-- What holds of a path, of a component and of the two with a slash between holds of the path with
the component added. -/
theorem addComponent_rec {P : List Char → Prop} {p c : List Char} (hp : P p) (hc : P c)
    (hboth : P (p ++ '/' :: c)) : P (addComponent p c) := by
  unfold addComponent
  split_ifs
  exacts [hp, hc, hc, hboth]

/-- The text that the last pass is made over when a path is made absolute. -/
def located (cwd p : List Char) : List Char :=
  if isAbsolute (addComponent [] p) then addComponent [] p
  else addComponent (addComponent [] cwd) (dropDots (addComponent [] p))

theorem absolute_eq (cwd p : List Char) : absolute cwd [p] = dropDots (located cwd p) := by
  simp only [absolute, join, List.foldl, isAbsolute_dropDots, located]
  split <;> rfl

theorem ne_dot_of_isAbsolute {p : List Char} (hp : isAbsolute p = true) : p ≠ ['.'] := by
  rintro rfl
  cases hp

theorem absolute_of_isAbsolute {cwd p : List Char} (hp : isAbsolute p = true) :
    absolute cwd [p] = dropDots p := by
  rw [absolute_eq, located, addComponent_nil, if_neg (ne_dot_of_isAbsolute hp), if_pos hp]

theorem isAbsolute_addComponent {p : List Char} (hp : isAbsolute p = true) (c : List Char) :
    isAbsolute (addComponent p c) = true := by
  obtain ⟨d, p, rfl⟩ := List.exists_cons_of_ne_nil (show p ≠ [] by rintro rfl; cases hp)
  unfold addComponent
  split_ifs with _ hc hnil
  · exact hp
  · exact hc
  · cases hnil
  · exact hp

theorem isAbsolute_located {cwd p : List Char} (h : isAbsolute cwd = true ∨ isAbsolute p = true) :
    isAbsolute (located cwd p) = true := by
  unfold located
  split_ifs with hq
  · exact hq
  · rcases h with hcwd | hp
    · rw [addComponent_nil cwd, if_neg (ne_dot_of_isAbsolute hcwd)]
      exact isAbsolute_addComponent hcwd _
    · rw [addComponent_nil, if_neg (ne_dot_of_isAbsolute hp)] at hq
      exact absurd hp hq

/-- Behind no directory a path is passed over twice. -/
theorem absolute_of_blank {cwd p : List Char} (hcwd : cwd = [] ∨ cwd = ['.'])
    (hp : isAbsolute p = false) (hdot : p ≠ ['.']) :
    absolute cwd [p] = dropDots (dropDots p) := by
  have hnone : addComponent [] cwd = [] := if_pos hcwd
  have hpass : dropDots p ≠ ['.'] := fun h => hdot (eq_dot_of_dropDots h)
  rw [absolute_eq, located, addComponent_nil p, if_neg hdot, hp, if_neg Bool.false_ne_true, hnone,
    addComponent_nil, if_neg hpass]

/-- Paths are put behind an absolute directory or behind none, or this one is absolute itself. -/
def Anchored (cwd p : List Char) : Prop :=
  isAbsolute cwd = true ∨ isAbsolute p = true ∨ cwd = [] ∨ cwd = ['.']

/-- Making a path absolute that is so already is one pass more, or two. -/
theorem absolute_again {cwd p : List Char} (h : Anchored cwd p) :
    absolute cwd [absolute cwd [p]] = dropDots (absolute cwd [p]) ∨
      absolute cwd [absolute cwd [p]] = dropDots (dropDots (absolute cwd [p])) := by
  cases hlocated : isAbsolute (located cwd p) with
  | true =>
    refine .inl (absolute_of_isAbsolute ?_)
    rw [absolute_eq, isAbsolute_dropDots, hlocated]
  | false =>
    have hblank : cwd = [] ∨ cwd = ['.'] := by
      rcases h with hcwd | hp | hblank
      · rw [isAbsolute_located (.inl hcwd)] at hlocated
        cases hlocated
      · rw [isAbsolute_located (.inr hp)] at hlocated
        cases hlocated
      · exact hblank
    refine .inr (absolute_of_blank hblank ?_ fun hdot => ?_)
    · rw [absolute_eq, isAbsolute_dropDots, hlocated]
    · have hnone : addComponent [] cwd = [] := if_pos hblank
      rw [absolute_eq] at hdot
      have hloc := eq_dot_of_dropDots hdot
      rw [located, hnone, addComponent_nil (dropDots _)] at hloc
      split_ifs at hloc with h₁ h₂
      · exact ne_dot_of_isAbsolute h₁ hloc
      · exact h₂ hloc

theorem absolute_absolute_iff {cwd p : List Char} (h : Anchored cwd p) :
    absolute cwd [absolute cwd [p]] = absolute cwd [p] ↔ ¬ twiceInPlace <:+: located cwd p := by
  rw [← settled_dropDots_iff, ← absolute_eq]
  constructor
  · intro heq
    by_contra hns
    have hfirst := length_dropDots_lt hns
    have hsecond := length_dropDots_le (dropDots (absolute cwd [p]))
    have hlength := congrArg List.length heq
    rcases absolute_again h with hagain | hagain <;> rw [hagain] at hlength <;> omega
  · intro hs
    have hpass := dropDots_eq_self_iff.2 hs
    rcases absolute_again h with hagain | hagain
    · rw [hagain, hpass]
    · rw [hagain, hpass, hpass]

/-- In front of the last pass two steps in place stand in a row only if they did in the path, where
the directory has none and does not end in one. -/
theorem not_twiceInPlace_located {cwd p : List Char} (hcwd : Settled (cwd ++ ['/']))
    (hp : ¬ twiceInPlace <:+: p) : ¬ twiceInPlace <:+: located cwd p := by
  have hclear {q : List Char} (hq : Settled q) : ¬ twiceInPlace <:+: q := fun h =>
    hq (.trans ⟨[], ['.', '/'], rfl⟩ h)
  have hfirst : ¬ twiceInPlace <:+: addComponent [] p := by
    rw [addComponent_nil]
    split_ifs
    exacts [hclear settled_nil, hp]
  have hlast : Settled (dropDots (addComponent [] p)) := settled_dropDots_iff.2 hfirst
  have hdir : Settled (addComponent [] cwd ++ ['/']) := by
    rw [addComponent_nil]
    split_ifs
    · simp [Settled, inPlace, List.infix_cons_iff]
    · exact hcwd
  unfold located
  split_ifs with habs
  · exact hfirst
  · refine addComponent_rec (P := fun q => ¬ twiceInPlace <:+: q) (hclear ?_) (hclear hlast) ?_
    · exact fun h => hdir (h.trans (List.prefix_append _ _).isInfix)
    · rw [List.append_cons]
      exact not_twiceInPlace_append hdir hlast

end Path

namespace Host

/-- The host after files are written one after the other, each a path with its contents. -/
def writes (h : Host) (files : List (String × String)) : Host :=
  files.foldl (fun h file => h.write file.1 file.2) h

theorem cwd_writes (h : Host) (files : List (String × String)) : (h.writes files).cwd = h.cwd := by
  induction files generalizing h with
  | nil => rfl
  | cons file files ih => exact ih (h.write file.1 file.2)

theorem toList_absolute (h : Host) (path : String) :
    (h.absolute [path]).toList = Path.absolute h.cwd.toList [path.toList] := by
  simp [absolute]

theorem absolute_eq_iff (h : Host) (path path' : String) :
    h.absolute [path] = h.absolute [path'] ↔
      Path.absolute h.cwd.toList [path.toList] = Path.absolute h.cwd.toList [path'.toList] := by
  rw [← String.toList_inj, toList_absolute, toList_absolute]

theorem read?_write (h : Host) (path contents path' : String) :
    (h.write path contents).read? path' =
      if h.absolute [path'] = h.absolute [path] then some contents else h.read? path' :=
  Files.lookup_put (h.absolute [path]) contents h.files (h.absolute [path'])

theorem read_ok_iff (h : Host) (path contents : String) :
    h.read path = .ok contents ↔ h.read? path = some contents := by
  unfold read
  cases h.read? path <;> simp

/-- A host tells the same of two paths with one absolute path. -/
theorem tells_same {h : Host} {path path' : String}
    (heq : h.absolute [path] = h.absolute [path']) :
    h.exists? path = h.exists? path' ∧ h.read path = h.read path' := by
  simp only [exists?, read, read?, heq, and_self]

theorem absolute_writes (h : Host) (files : List (String × String)) (path : String) :
    (h.writes files).absolute [path] = h.absolute [path] := by
  simp only [absolute, cwd_writes]

end Host

/-- An absolute path is its own absolute path exactly if no two steps in place stand in a row before
the last pass, as none do if there are none in the path and the directory is settled. Then the host
tells the same of the path as of its absolute path whatever was written before, and a file that is
written under the path is found under the absolute path; else it is found there only if a file had
been there before. -/
theorem absolute_settles (h : Host) (path : String)
    (hanchored : Path.Anchored h.cwd.toList path.toList) :
    let there := h.absolute [path]
    let before := Path.located h.cwd.toList path.toList
    (h.absolute [there] = there ↔ ¬ Path.twiceInPlace <:+: before) ∧
    (Path.Settled (h.cwd.toList ++ ['/']) → ¬ Path.twiceInPlace <:+: path.toList →
      ¬ Path.twiceInPlace <:+: before) ∧
    ∀ files, let k := h.writes files
      (¬ Path.twiceInPlace <:+: before →
        k.exists? there = k.exists? path ∧ k.read there = k.read path) ∧
      ∀ contents, (k.write path contents).read there = .ok contents ↔
        ¬ Path.twiceInPlace <:+: before ∨ k.read there = .ok contents := by
  intro there before
  have hidem : h.absolute [there] = there ↔ ¬ Path.twiceInPlace <:+: before := by
    rw [h.absolute_eq_iff, h.toList_absolute]
    exact Path.absolute_absolute_iff hanchored
  refine ⟨hidem, Path.not_twiceInPlace_located, fun files => ?_⟩
  intro k
  have hsame : k.absolute [there] = k.absolute [path] ↔ ¬ Path.twiceInPlace <:+: before := by
    rw [h.absolute_writes, h.absolute_writes]
    exact hidem
  refine ⟨fun hbefore => Host.tells_same (hsame.2 hbefore), fun contents => ?_⟩
  rw [Host.read_ok_iff, Host.read_ok_iff, Host.read?_write, ← hsame]
  split_ifs with hfound
  · simp only [hfound, true_or]
  · simp only [hfound, false_or]

/-- The second of two steps in place behind the directory goes with the last pass. -/
theorem dotted_settles :
    let h : Host := {}
    Path.Anchored h.cwd.toList "a/././b".toList ∧
      ¬ Path.twiceInPlace <:+: Path.located h.cwd.toList "a/././b".toList ∧
      h.absolute [h.absolute ["a/././b"]] = h.absolute ["a/././b"] ∧
      ∀ contents, (h.write "a/././b" contents).read (h.absolute ["a/././b"]) = .ok contents := by
  intro h
  have hanchored : Path.Anchored h.cwd.toList "a/././b".toList := .inl (by decide)
  have hbefore : ¬ Path.twiceInPlace <:+: Path.located h.cwd.toList "a/././b".toList := by decide
  obtain ⟨hidem, -, hfound⟩ := absolute_settles h "a/././b" hanchored
  exact ⟨hanchored, hbefore, hidem.2 hbefore, fun contents =>
    ((hfound []).2 contents).2 (.inl hbefore)⟩

/-- Of two steps in place one is left, and it goes when the path is made absolute again: a file that
is written under the path is not found under its absolute path. -/
theorem dotsInRow_unsettled :
    let h : Host := {}
    h.absolute ["/././x"] = "/./x" ∧ h.absolute [h.absolute ["/././x"]] = "/x" ∧
      (h.write "/././x" "here").read "/././x" = .ok "here" ∧
      (h.write "/././x" "here").exists? (h.absolute ["/././x"]) = false := by
  decide +kernel

end ParserAlgebra
