import YeetYoink.Session

/-!
# The command line

With a path the program in that file is run; without one, lines are read and run one after the other
in one session. What goes wrong in a file is told on the error channel and shows in the exit code;
what goes wrong in a line is told among the answers.
-/

namespace YeetYoink

structure Options where
  /-- Show programs after their macros are gone. -/
  debug : Bool := false
  /-- Show the tokens before parsing. -/
  tokens : Bool := false
  deriving DecidableEq, Repr

inductive Invocation where
  | version
  | file (options : Options) (path : String)
  | interactive (options : Options)
  deriving DecidableEq, Repr

namespace Invocation

/-- One short flag; `none` if there is no such flag. -/
def shortFlag (o : Options) : Char → Option Options
  | 'd' => some { o with debug := true }
  | 't' => some { o with tokens := true }
  | _ => none

/-- Short flags written together. -/
def shortFlags : Options → List Char → Option Options
  | o, [] => some o
  | o, c :: cs => (shortFlag o c).bind (shortFlags · cs)

def finish (o : Options) : Option String → Invocation
  | some path => file o path
  | none => interactive o

/-- Only paths are left. -/
def ofPaths (o : Options) : Option String → List String → Option Invocation
  | path, [] => some (finish o path)
  | none, path :: args => ofPaths o (some path) args
  | some _, _ :: _ => none

def ofArgsWith (o : Options) (path : Option String) : List String → Option Invocation
  | [] => some (finish o path)
  | "--" :: args => ofPaths o path args
  | "--version" :: _ | "-V" :: _ => some version
  | "--debug" :: args => ofArgsWith { o with debug := true } path args
  | "--tokens" :: args => ofArgsWith { o with tokens := true } path args
  | arg :: args =>
    match arg.toList with
    | '-' :: c :: cs =>
      match shortFlags o (c :: cs) with
      | some o => ofArgsWith o path args
      | none => none
    | _ =>
      match path with
      | none => ofArgsWith o (some arg) args
      | some _ => none

/-- What the arguments ask for; `none` if they make no sense. -/
def ofArgs? (args : List String) : Option Invocation := ofArgsWith {} none args

end Invocation

/-- What a finished run leaves behind. -/
structure Outcome where
  stdout : String := ""
  stderr : String := ""
  code : Nat := 0
  deriving DecidableEq, Repr

namespace CommandLine

def versionNumber : String := "0.0.1"

def version : String := "yy-runner " ++ versionNumber

def greeting : String := "YeetYoink v" ++ versionNumber

def farewell : String := "CTRL-D"

/-- A file that cannot be read. -/
def unreadable (path cause : String) : Outcome where
  stderr := "error: couldn't read file " ++ path ++ ": " ++ cause ++ "\n"
  code := 1

def showTokens (o : Options) (source : String) (s : Session) : Session :=
  if o.tokens then (Token.lex source).foldl (fun s t => s.print t.listing) s else s

/-- Shows something only when debugging. -/
def showDebug (o : Options) (text : String) (s : Session) : Session :=
  if o.debug then s.print text else s

/-! ### Files -/

def execute (o : Options) (source : String) : Except RunError Value × Session :=
  match (showTokens o source .new).prepare source with
  | (.ok p, s) =>
    (showDebug o ("after macro expansion:\n" ++ p.print ++ "\n") s).evaluate p
  | (.error e, s) => (.error e, s)

/-- Runs the program of a file. -/
def runFile (o : Options) (source : String) : Outcome :=
  match execute o source with
  | (.ok _, s) => { stdout := s.store.printed }
  | (.error e, s) => { stdout := s.store.printed, stderr := e.render source ++ "\n", code := 1 }

/-! ### Lines -/

def indent (text : String) : String := "    " ++ text

def runProgram (o : Options) (p : Program) (s : Session) : Except RunError Value × Session :=
  match s.expand p with
  | (.ok p, s) => (showDebug o (indent p.print) s).evaluate p
  | (.error e, s) => (.error e, s)

/-- Prints the answer to a program. -/
def reply : Except RunError Value × Session → Session
  | (.ok v, s) => s.print (s.store.display v)
  | (.error e, s) => s.print e.message

/-- Runs one line and prints the answer. -/
def runLine (o : Options) (s : Session) (line : String) : Session :=
  let s := showTokens o line s
  match Program.parse line with
  | .ok p => reply (runProgram o p (showDebug o (indent p.print) s))
  | .error es => es.foldl (fun s e => s.print (e.render line)) s

/-- The lines of an input. A line ends with a line break, before which a carriage return is dropped;
what follows the last break is a line if it is not empty. -/
def lines (input : String) : List String :=
  let parts := input.toList.splitOn '\n'
  let parts := if parts.getLast? = some [] then parts.dropLast else parts
  parts.map fun cs => String.ofList (if cs.getLast? = some '\r' then cs.dropLast else cs)

/-- Runs a whole input line by line. -/
def interact (o : Options) (input : String) : Outcome :=
  let s := (lines input).foldl (runLine o) (Session.new.print greeting)
  { stdout := (s.print farewell).store.printed }

end CommandLine

end YeetYoink
