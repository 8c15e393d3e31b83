import ParserAlgebra.Text.Decimal
import ParserAlgebra.Text.Quoted

/-!
# Options

The options of the command line. Long names may be abbreviated as long as one option fits; short
ones may share a dash, and the last of them may take a value. A value stands behind an equals sign,
directly behind a short name, or in the next word, unless that is an option itself. Behind the
first short option of a word an equals sign means nothing if that option takes no value: more short
options may follow it. Words that look like negative numbers or hold a space are values.
-/

namespace ParserAlgebra.CommandLine

inductive Flag where
  | help
  | code
  | define
  | evaluate
  | input
  | optimize
  | output
  | trace
  | tree
  | version
  deriving DecidableEq

def spellings : List (String × Flag) :=
  [("-h", .help), ("--help", .help), ("-c", .code), ("--code", .code), ("-D", .define),
    ("--define", .define), ("-e", .evaluate), ("--eval", .evaluate), ("-i", .input),
    ("--input", .input), ("-O", .optimize), ("--optimize", .optimize), ("-o", .output),
    ("--output", .output), ("--trace", .trace), ("--tree", .tree), ("-V", .version),
    ("--version", .version)]

def Flag.takesValue : Flag → Bool
  | .code => true
  | .define => true
  | .input => true
  | .output => true
  | _ => false

def Flag.title (f : Flag) : String :=
  String.intercalate "/" ((spellings.filter fun s => s.2 == f).map Prod.fst)

inductive Argument where
  | text (value : String)
  /-- Two dashes in place of a value: the option is given and holds nothing. -/
  | struck
  deriving DecidableEq

def Argument.ofText (value : String) : Argument := if value = "--" then .struck else .text value

/-- What the command line asks for. A definition that was struck stands as nothing. -/
structure Options where
  code : Option Argument := none
  definitions : List (Option (String × Int)) := []
  evaluate : Bool := false
  input : Argument := .text "-"
  optimize : Bool := false
  output : Option Argument := none
  trace : Bool := false
  tree : Bool := false
  version : Bool := false

inductive UsageError where
  | expectedValue (flag : Flag)
  | ignoredValue (flag : Flag) (value : String)
  | ambiguous (word : String) (candidates : List String)
  | notADefinition (text : String)
  | notAnInteger (text : String)
  | unrecognized (words : List String)

def UsageError.message : UsageError → String
  | .expectedValue f => "argument " ++ f.title ++ ": expected one argument"
  | .ignoredValue f value =>
    "argument " ++ f.title ++ ": ignored explicit argument " ++ Text.quoted value
  | .ambiguous word candidates =>
    "ambiguous option: " ++ word ++ " could match " ++ String.intercalate ", " candidates
  | .notADefinition text =>
    "argument " ++ Flag.define.title ++ ": \"" ++ text ++ "\" is not of the form name=value"
  | .notAnInteger text =>
    "argument " ++ Flag.define.title ++ ": \"" ++ text ++ "\" is not an integer"
  | .unrecognized words => "unrecognized arguments: " ++ String.intercalate " " words

/-! ### Words -/

inductive Word where
  /-- The word after which all words are values. -/
  | separator
  | value (text : String)
  /-- An option, by a long name or a short one, and what is written behind it in the word. -/
  | option (flag : Flag) (long : Bool) (attached : Option (List Char))
  /-- A word that looks like an option and is none. -/
  | unknown (text : String)

def cutAtEquals : List Char → List Char × Option (List Char)
  | [] => ([], none)
  | c :: cs =>
    if c = '=' then ([], some cs)
    else
      let (name, value) := cutAtEquals cs
      (c :: name, value)

def flagOf (spelling : List Char) : Option Flag := spellings.lookup (String.ofList spelling)

/-- The options that the beginning of a word may stand for. -/
def candidates (word : List Char) : List (String × Word) :=
  match word with
  | '-' :: '-' :: _ =>
    let (name, value) := cutAtEquals word
    (spellings.filter fun s => name.isPrefixOf s.1.toList).map fun s =>
      (s.1, .option s.2 true value)
  | d :: c :: value =>
    match flagOf [d, c] with
    | some f => [(String.ofList [d, c], .option f false (some value))]
    | none => []
  | _ => []

/-- Whether a word looks like a negative number: a dash and digits, of which the last ones may
follow a point. A line feed at its end does not count. -/
def isNegativeNumber (word : List Char) : Bool :=
  let body := if word.getLast? = some '\n' then word.dropLast else word
  let isDigit (c : Char) := (Text.Decimal.digit? c).isSome
  match body with
  | '-' :: number =>
    match number.dropWhile isDigit with
    | [] => !number.isEmpty
    | '.' :: decimals => !decimals.isEmpty && decimals.all isDigit
    | _ => false
  | _ => false

def classify (text : String) : Except UsageError Word :=
  let word := text.toList
  if word.head? ≠ some '-' then .ok (.value text)
  else
    match flagOf word with
    | some f => .ok (.option f ("--".toList.isPrefixOf word) none)
    | none =>
      if word.length = 1 then .ok (.value text)
      else
        let (name, value) := cutAtEquals word
        match flagOf name, value with
        | some f, some value =>
          .ok (.option f ("--".toList.isPrefixOf word) (some value))
        | _, _ =>
          match candidates word with
          | [(_, w)] => .ok w
          | [] =>
            if isNegativeNumber word || word.contains ' ' then .ok (.value text)
            else .ok (.unknown text)
          | cs => .error (.ambiguous text (cs.map Prod.fst))

def classifyAll : List String → Except UsageError (List (String × Word))
  | [] => .ok []
  | "--" :: rest => .ok (("--", .separator) :: rest.map fun text => (text, .value text))
  | text :: rest => do
    let word ← classify text
    let words ← classifyAll rest
    return (text, word) :: words

/-! ### Options that share a word -/

/-- The options of one word: those given in full, and the one that waits for the next word. -/
structure Group where
  given : List (Flag × Argument) := []
  waiting : Option Flag := none

/-- The options of a short option and the characters behind it. Options without a value go on with
the next character; the first with a value takes what is left as its value. -/
def shortGroup (flag : Flag) : List Char → Except UsageError Group
  | [] =>
    if flag.takesValue then .ok { waiting := some flag } else .ok { given := [(flag, .struck)] }
  | c :: cs =>
    if flag.takesValue then .ok { given := [(flag, .ofText (String.ofList (c :: cs)))] }
    else
      match flagOf ['-', c] with
      | none => .error (.ignoredValue flag (String.ofList (c :: cs)))
      | some next => do
        let group ← shortGroup next cs
        return { group with given := (flag, .struck) :: group.given }

def groupOf (flag : Flag) (long : Bool) : Option (List Char) → Except UsageError Group
  | none => shortGroup flag []
  | some attached =>
    if flag.takesValue then .ok { given := [(flag, .ofText (String.ofList attached))] }
    else if long || attached.isEmpty then
      .error (.ignoredValue flag (String.ofList attached))
    else shortGroup flag attached

/-! ### Taking options -/

def definition (text : String) : Except UsageError (String × Int) :=
  match cutAtEquals text.toList with
  | (name, some value) =>
    if name.isEmpty then .error (.notADefinition text)
    else
      match Text.Decimal.read (String.ofList value) with
      | .number n => .ok (String.ofList name, n)
      | _ => .error (.notAnInteger (String.ofList value))
  | (_, none) => .error (.notADefinition text)

/-- Why the options are not taken: the command line is wrong, or it asks for help. -/
inductive Refusal where
  | usage (error : UsageError)
  | help

def Options.take (o : Options) (flag : Flag) (argument : Argument) : Except Refusal Options :=
  match flag with
  | .help => .error .help
  | .code => .ok { o with code := some argument }
  | .define =>
    match argument with
    | .struck => .ok { o with definitions := o.definitions ++ [none] }
    | .text text =>
      match definition text with
      | .ok d => .ok { o with definitions := o.definitions ++ [some d] }
      | .error e => .error (.usage e)
  | .evaluate => .ok { o with evaluate := true }
  | .input => .ok { o with input := argument }
  | .optimize => .ok { o with optimize := true }
  | .output => .ok { o with output := some argument }
  | .trace => .ok { o with trace := true }
  | .tree => .ok { o with tree := true }
  | .version => .ok { o with version := true }

def Options.takeAll (o : Options) (given : List (Flag × Argument)) : Except Refusal Options :=
  given.foldlM (fun o g => o.take g.1 g.2) o

/-- Takes the options of words in order; `extras` are the words so far that are none. -/
def takeWords (o : Options) (extras : List String) :
    List (String × Word) → Except Refusal Options
  | [] => if extras.isEmpty then .ok o else .error (.usage (.unrecognized extras))
  | (_, .option flag long attached) :: rest =>
    match groupOf flag long attached with
    | .error e => .error (.usage e)
    | .ok group =>
      match group.waiting, rest with
      | none, rest => do takeWords (← o.takeAll group.given) extras rest
      | some last, (_, .value text) :: rest => do
        takeWords (← o.takeAll (group.given ++ [(last, .text text)])) extras rest
      | some last, _ => .error (.usage (.expectedValue last))
  | (text, _) :: rest => takeWords o (extras ++ [text]) rest

def Options.ofArgs (args : List String) : Except Refusal Options :=
  match classifyAll args with
  | .error e => .error (.usage e)
  | .ok words => takeWords {} [] words

end ParserAlgebra.CommandLine
