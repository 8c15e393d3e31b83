import ParserAlgebra.CommandLine.Options
import ParserAlgebra.Expr.Grammar
import ParserAlgebra.Host
import ParserAlgebra.Parser.Outline

/-!
# Running the command line

The tool parses an expression and prints its tree as a document, or its value, or the outline of the
grammar. A run that fails writes to the error output alone; one that succeeds writes its result to
one place, the output or the file that was named.
-/

namespace ParserAlgebra.CommandLine

def program : String := "pycombinator"

def version : String := "0.1.0.dev0"

/-- How deep a document may nest to be printed. -/
def maxNesting : Nat := 980

inductive Exit where
  | status (code : Nat)
  /-- With this status before anything was done, and a message unless help was asked for. -/
  | usage (code : Nat) (message : String)
  deriving DecidableEq

/-- Text without the line feeds at its end. -/
def trimEnd (s : String) : String :=
  String.ofList (s.toList.reverse.dropWhile (· == '\n')).reverse

inductive NoInput where
  | noSuchFile (path : String)
  /-- The input was struck, and nothing is no path. -/
  | noPath
  deriving DecidableEq

def readInput (o : Options) (h : Host) : Except NoInput (Argument × String) :=
  match o.code, o.input with
  | some argument, _ => .ok (argument, "<code>")
  | none, .struck => .error .noPath
  | none, .text path =>
    if path = "-" then .ok (.text (trimEnd h.stdin), "<stdin>")
    else
      match h.read? path with
      | some contents => .ok (.text (trimEnd contents), path)
      | none => .error (.noSuchFile path)

/-- The bindings of definitions, none of which may be struck; `index` is the place of the first. -/
def bindings (index : Nat) : List (Option (String × Int)) → Except Fault (List (String × Int))
  | [] => .ok []
  | none :: _ => .error (.notABinding index)
  | some d :: rest => (bindings (index + 1) rest).map (d :: ·)

/-- The environment of definitions: the last definition of a name counts. -/
def environment (o : Options) : Except Fault (List (String × Int)) :=
  (bindings 0 o.definitions).map List.reverse

def render (o : Options) (e : Expr) : Except Fault String := do
  if o.evaluate then
    let n ← e.evaluate (← environment o)
    match Text.Decimal.write? n with
    | some digits => return digits ++ "\n"
    | none => .error .unwritable
  else
    let document ← e.toJson
    if maxNesting < document.depth then .error .tooDeep
    else return document.write 0 ++ "\n"

/-- What is printed for a text. A struck text is rejected like the empty one, but it has no lines in
which the rejection could be located. -/
def contentsOf (o : Options) (argument : Argument) (path : String) : Run String := do
  let settings : Settings := { optimized := o.optimize, trace := o.trace }
  match argument with
  | .struck =>
    let _ ← parse [] Expr.depth settings Expr.grammar.expression ""
    Run.raise .wrongType
  | .text text =>
    match ← parseValue [] Expr.depth settings Expr.grammar.expression text path false with
    | .expr e => Run.ofExcept (render o e)
    | _ => Run.raise .wrongType

def outline (o : Options) : Run String := do
  let p ← if o.optimize then optimize [] Expr.depth Expr.grammar.expression
    else pure Expr.grammar.expression
  Run.ofExcept (p.dump "  ")

/-- The line that reports a fault which the tool knows. -/
def complaint? (path : String) : Fault → Option String
  | .noParse error => some error.message
  | .unbound name => some (path ++ ": " ++ ((Fault.unbound name).message.getD ""))
  | .tooDeep => some "Error: expression is too deeply nested"
  | _ => none

def logLines (memory : Memory) : String :=
  String.join (memory.log.reverse.map fun entry => program ++ ": " ++ entry.text ++ "\n")

def deliver (o : Options) (h : Host) (contents : String) : Host :=
  match o.output with
  | some (.text path) =>
    if path = "" ∨ path = "-" then h.print contents else h.write path contents
  | some .struck => h.print contents
  | none => h.print contents

def produce (o : Options) (h : Host) (path : String) (work : Run String) :
    Host × Except Halt Exit :=
  let (result, memory) := work.exec Expr.freshMemory
  let h := h.printError (logLines memory)
  match result with
  | .ok contents => (deliver o h contents, .ok (.status 0))
  | .error (.fault f) =>
    match complaint? path f with
    | some line => (h.printError (line ++ "\n"), .ok (.status 1))
    | none => (h, .error (.fault f))
  | .error .exhausted => (h, .error .exhausted)

def perform (o : Options) (h : Host) : Host × Except Halt Exit :=
  if o.version then (h.print (version ++ "\n"), .ok (.status 0))
  else if o.tree then produce o h "" (outline o)
  else
    match readInput o h with
    | .error (.noSuchFile path) =>
      (h.printError ("Error: no such file: \"" ++ path ++ "\"\n"), .ok (.status 1))
    | .error .noPath => (h, .error (.fault (.noAttribute "list" "startswith")))
    | .ok (argument, path) => produce o h path (contentsOf o argument path)

/-- Runs the tool: the host afterwards, and how the run ended or why it did not. -/
def run (args : List String) (h : Host) : Host × Except Halt Exit :=
  match Options.ofArgs args with
  | .error .help => (h, .ok (.usage 0 ""))
  | .error (.usage e) => (h, .ok (.usage 2 (program ++ ": error: " ++ e.message)))
  | .ok o => perform o h

end ParserAlgebra.CommandLine
