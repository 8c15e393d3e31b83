import ParserAlgebra.CommandLine.Run

/-!
# The program

Reads what the command line names, runs the tool on a host in memory, and writes out what the run
left there.
-/

open ParserAlgebra

/-- The file that a command line reads from, if it names one. -/
def inputPath? (args : List String) : Option String :=
  match CommandLine.Options.ofArgs args with
  | .ok { code := none, input := .text path, .. } => if path = "-" then none else some path
  | _ => none

def contentsOf? (path : String) : IO (Option String) := do
  try
    return some (← IO.FS.readFile path)
  catch _ => return none

/-- The input of a command line that reads none of its own from a file or an option. -/
def inputText (args : List String) : IO String := do
  match CommandLine.Options.ofArgs args with
  | .ok o =>
    if o.code.isNone && o.input == .text "-" && !o.version && !o.tree then (← IO.getStdin).readToEnd
    else return ""
  | .error _ => return ""

def main (args : List String) : IO UInt32 := do
  let cwd := (← IO.currentDir).toString
  let host : Host := { cwd, stdin := ← inputText args }
  let before ← match inputPath? args with
    | some path => do
      match ← contentsOf? path with
      | some contents => pure (host.write path contents)
      | none => pure host
    | none => pure host
  let (after, ending) := CommandLine.run args before
  IO.print after.stdout
  IO.eprint after.stderr
  for (path, contents) in after.files do
    if before.files.lookup path != some contents then IO.FS.writeFile path contents
  match ending with
  | .ok (.status code) => return UInt32.ofNat code
  | .ok (.usage code message) =>
    IO.eprintln message
    return UInt32.ofNat code
  | .error (.fault f) =>
    IO.eprintln (f.message.getD "")
    return 1
  | .error .exhausted => return 1
