import Mathlib.Data.List.Forall2
import ParserAlgebra.CommandLine.Options

/-!
# Words that give options

A long name, an equals sign and a value give an option its value, whatever the value is, with one
exception: two dashes are struck. A command line of such words is taken word by word, and
definitions pile up in the order of their words.
-/

namespace ParserAlgebra.CommandLine

theorem cutAtEquals_name {name : List Char} (h : '=' ∉ name) (value : List Char) :
    cutAtEquals (name ++ '=' :: value) = (name, some value) := by
  induction name with
  | nil => rfl
  | cons c name ih =>
    have hc : c ≠ '=' := fun he => h (he ▸ List.mem_cons_self)
    rw [List.cons_append, cutAtEquals, if_neg hc, ih (List.not_mem_of_not_mem_cons h)]

theorem flagOf_spelling : ∀ s ∈ spellings, flagOf s.1.toList = some s.2 := by decide

theorem equals_notMem_spelling : ∀ s ∈ spellings, '=' ∉ s.1.toList := by decide

theorem flagOf_equals {word : List Char} (h : '=' ∈ word) : flagOf word = none := by
  rw [flagOf, List.lookup_eq_none_iff]
  intro s hs
  have hne : String.ofList word ≠ s.1 := by
    intro he
    have hnot := equals_notMem_spelling s hs
    rw [← he, String.toList_ofList] at hnot
    exact hnot h
  simpa using hne

/-- The word that gives a long name this value. -/
def valued (name value : String) : String := "--" ++ name ++ "=" ++ value

theorem valued_toList (name value : String) :
    (valued name value).toList = ("--" ++ name).toList ++ '=' :: value.toList := by
  rw [valued, String.toList_append, String.toList_append, List.append_assoc]
  rfl

theorem valued_ne_separator (name value : String) : valued name value ≠ "--" := by
  intro h
  have hmem : '=' ∈ (valued name value).toList := by
    rw [valued_toList]
    exact List.mem_append_right _ List.mem_cons_self
  rw [h] at hmem
  exact absurd hmem (by decide)

theorem classify_valued {name : String} {flag : Flag} (hname : ("--" ++ name, flag) ∈ spellings)
    (value : String) :
    classify (valued name value) = .ok (.option flag true (some value.toList)) := by
  have hchars := valued_toList name value
  have hhead : (valued name value).toList.head? = some '-' := by
    rw [hchars, String.toList_append]
    rfl
  have hnone : flagOf (valued name value).toList = none :=
    flagOf_equals (hchars ▸ List.mem_append_right _ List.mem_cons_self)
  have hlength : (valued name value).toList.length ≠ 1 := by
    rw [hchars, String.toList_append]
    simp
  have hlong : "--".toList.isPrefixOf (valued name value).toList = true := by
    rw [hchars, String.toList_append]
    rfl
  have hcut : cutAtEquals (valued name value).toList =
      (("--" ++ name).toList, some value.toList) := by
    rw [hchars]
    exact cutAtEquals_name (equals_notMem_spelling _ hname) value.toList
  unfold classify
  dsimp only
  rw [if_neg (not_not_intro hhead), hnone]
  dsimp only
  rw [if_neg hlength, hcut]
  dsimp only
  rw [flagOf_spelling _ hname]
  dsimp only
  rw [hlong]

/-! ### Word by word -/

/-- Takes what a command line asks for, from these options on. -/
def Options.takeArgs (o : Options) (args : List String) : Except Refusal Options :=
  match classifyAll args with
  | .error e => .error (.usage e)
  | .ok words => takeWords o [] words

theorem takeArgs_cons {o o' : Options} {text : String} {flag : Flag} {long : Bool}
    {attached : Option (List Char)} {given : List (Flag × Argument)} (hne : text ≠ "--")
    (hword : classify text = .ok (.option flag long attached))
    (hgroup : groupOf flag long attached = .ok { given := given })
    (htake : o.takeAll given = .ok o') (args : List String) :
    o.takeArgs (text :: args) = o'.takeArgs args := by
  unfold Options.takeArgs
  rw [classifyAll, hword]
  · cases hrest : classifyAll args with
    | error e => rfl
    | ok words =>
      simp only [bind, Except.bind, pure, Except.pure, takeWords, hgroup, htake]
  · exact hne

theorem takeArgs_valued {o o' : Options} {name value : String} (flag : Flag)
    (hname : ("--" ++ name, flag) ∈ spellings) (hvalue : flag.takesValue = true)
    (hne : value ≠ "--") (htake : o.take flag (.text value) = .ok o') (args : List String) :
    o.takeArgs (valued name value :: args) = o'.takeArgs args := by
  have hgroup : groupOf flag true (some value.toList) = .ok { given := [(flag, .text value)] } := by
    rw [groupOf, if_pos hvalue, String.ofList_toList, Argument.ofText, if_neg hne]
  refine takeArgs_cons (valued_ne_separator name value) (classify_valued hname value) hgroup ?_ args
  simp only [Options.takeAll, List.foldlM, bind, Except.bind, htake, pure, Except.pure]

theorem takeArgs_code {text : String} (h : text ≠ "--") (o : Options) (args : List String) :
    o.takeArgs (valued "code" text :: args) =
      Options.takeArgs { o with code := some (.text text) } args :=
  takeArgs_valued .code (by decide) rfl h rfl args

theorem takeArgs_input {path : String} (h : path ≠ "--") (o : Options) (args : List String) :
    o.takeArgs (valued "input" path :: args) =
      Options.takeArgs { o with input := .text path } args :=
  takeArgs_valued .input (by decide) rfl h rfl args

theorem takeArgs_define {text : String} {d : String × Int} (h : definition text = .ok d)
    (o : Options) (args : List String) :
    o.takeArgs (valued "define" text :: args) =
      Options.takeArgs { o with definitions := o.definitions ++ [some d] } args := by
  have hne : text ≠ "--" := by
    rintro rfl
    cases h
  refine takeArgs_valued .define (by decide) rfl hne ?_ args
  simp only [Options.take, h]

theorem takeArgs_defines {texts : List String} {definitions : List (String × Int)}
    (h : List.Forall₂ (fun text d => definition text = .ok d) texts definitions) (o : Options)
    (args : List String) :
    o.takeArgs (texts.map (valued "define") ++ args) =
      Options.takeArgs { o with definitions := o.definitions ++ definitions.map some } args := by
  induction h generalizing o with
  | nil => simp only [List.map_nil, List.append_nil, List.nil_append]
  | cons hd _ ih =>
    rw [List.map_cons, List.cons_append, takeArgs_define hd, ih]
    simp only [List.map_cons, List.append_assoc, List.singleton_append]

/-! ### Command lines that ask for a value -/

/-- The words that ask for a value under definitions, optimized or not, and then others. -/
def evalArgs (optimized : Bool) (definitions args : List String) : List String :=
  "--eval" :: ((if optimized then ["-O"] else []) ++ (definitions.map (valued "define") ++ args))

theorem ofArgs_evalArgs {texts : List String} {definitions : List (String × Int)}
    (h : List.Forall₂ (fun text d => definition text = .ok d) texts definitions) (optimized : Bool)
    (args : List String) :
    Options.ofArgs (evalArgs optimized texts args) =
      Options.takeArgs
        { definitions := definitions.map some, evaluate := true, optimize := optimized } args := by
  have heval : ∀ args, Options.takeArgs {} ("--eval" :: args) =
      Options.takeArgs { evaluate := true } args :=
    takeArgs_cons (by decide) rfl rfl rfl
  have hoptimize : ∀ args, Options.takeArgs { evaluate := true } ("-O" :: args) =
      Options.takeArgs { evaluate := true, optimize := true } args :=
    takeArgs_cons (by decide) rfl rfl rfl
  have hargs : Options.ofArgs (evalArgs optimized texts args) =
      Options.takeArgs {} (evalArgs optimized texts args) := rfl
  rw [hargs, evalArgs, heval]
  cases optimized with
  | false => exact takeArgs_defines h _ args
  | true => exact (hoptimize _).trans (takeArgs_defines h _ args)

end ParserAlgebra.CommandLine
