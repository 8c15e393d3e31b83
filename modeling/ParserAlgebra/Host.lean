import ParserAlgebra.Fault

/-!
# The world of the command line

A host in memory: files by absolute path, a working directory, an input and two outputs. A disk is
the other kind of place for files: a fresh directory without subdirectories, where reading turns
every line ending into a line feed.
-/

namespace ParserAlgebra

/-! ### Paths -/

namespace Path

/-- A path without steps in place. One pass, so a step that only appears in it stays. -/
def dropDots : List Char → List Char
  | '/' :: '.' :: '/' :: cs => '/' :: dropDots cs
  | c :: cs => c :: dropDots cs
  | [] => []

def isAbsolute (p : List Char) : Bool := p.head? == some '/'

/-- A path with one more component. An absolute component begins anew. -/
def addComponent (p c : List Char) : List Char :=
  if c = [] ∨ c = ['.'] then p
  else if isAbsolute c then c
  else if p = [] then c
  else p ++ '/' :: c

def join (components : List (List Char)) : List Char :=
  dropDots (components.foldl addComponent [])

def absolute (cwd : List Char) (components : List (List Char)) : List Char :=
  let p := join components
  if isAbsolute p then p else join [cwd, p]

end Path

/-! ### Named contents -/

/-- Contents by name; of two with one name the first counts. -/
abbrev Files := List (String × String)

/-- The files with the contents of one of them replaced, or with a new one at the end. -/
def Files.put (name contents : String) : Files → Files
  | [] => [(name, contents)]
  | (other, old) :: rest =>
    if other = name then (name, contents) :: rest else (other, old) :: Files.put name contents rest

/-! ### A host in memory -/

structure Host where
  cwd : String := "/tmp"
  files : Files := []
  stdin : String := ""
  stdout : String := ""
  stderr : String := ""

def printed (parts : List String) (finish : String) : String :=
  String.intercalate " " parts ++ finish

namespace Host

def join (components : List String) : String :=
  String.ofList (Path.join (components.map String.toList))

def absolute (h : Host) (components : List String) : String :=
  String.ofList (Path.absolute h.cwd.toList (components.map String.toList))

def read? (h : Host) (path : String) : Option String := h.files.lookup (h.absolute [path])

def exists? (h : Host) (path : String) : Bool := (h.read? path).isSome

def read (h : Host) (path : String) : Except Fault String :=
  match h.read? path with
  | some contents => .ok contents
  | none => .error (.missingKey (h.absolute [path]))

def write (h : Host) (path contents : String) : Host :=
  { h with files := h.files.put (h.absolute [path]) contents }

def print (h : Host) (text : String) : Host := { h with stdout := h.stdout ++ text }

def printError (h : Host) (text : String) : Host := { h with stderr := h.stderr ++ text }

end Host

/-! ### A disk -/

/-- A directory on a disk, with what was printed beside it. -/
structure Disk where
  files : Files := []
  stdout : String := ""

namespace Disk

def components (path : String) : List String :=
  (path.splitOn "/").dropWhile fun c => c == "" || c == "."

/-- Every line ending as a line feed. -/
def lineFeeds : List Char → List Char
  | '\r' :: '\n' :: cs => '\n' :: lineFeeds cs
  | '\r' :: cs => '\n' :: lineFeeds cs
  | c :: cs => c :: lineFeeds cs
  | [] => []

def exists? (d : Disk) (path : String) : Bool :=
  match components path with
  | [] => true
  | [name] => (d.files.lookup name).isSome
  | _ => false

def read (d : Disk) (path : String) : Except Fault String :=
  match components path with
  | [name] =>
    match d.files.lookup name with
    | some contents => .ok (String.ofList (lineFeeds contents.toList))
    | none => .error .noSuchFile
  | _ => .error .noSuchFile

def write (d : Disk) (path contents : String) : Except Fault Disk :=
  match components path with
  | [name] => .ok { d with files := d.files.put name contents }
  | _ => .error .noSuchFile

def print (d : Disk) (text : String) : Disk := { d with stdout := d.stdout ++ text }

end Disk

end ParserAlgebra
