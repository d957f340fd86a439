import YeetYoink.CommandLine

/-!
# The program
-/

namespace YeetYoink.CommandLine

def report (x : Outcome) : IO UInt32 := do
  IO.print x.stdout
  IO.eprint x.stderr
  return x.code.toUInt32

/-- Reads lines and answers them until the input ends. -/
partial def converse (o : Options) (input : IO.FS.Stream) (s : Session) : IO Unit := do
  let (out, s) := s.takePrinted
  IO.print out
  (← IO.getStdout).flush
  let text ← input.getLine
  if text.isEmpty then IO.println farewell
  else converse o input ((lines text).foldl (runLine o) s)

def runPath (o : Options) (path : String) : IO UInt32 := do
  match ← (IO.FS.readFile path).toBaseIO with
  | .ok source => report (runFile o source)
  | .error (.noFileOrDirectory ..) =>
    report (unreadable path "No such file or directory (os error 2)")
  | .error e => report (unreadable path e.toString)

end YeetYoink.CommandLine

open YeetYoink in
def main (args : List String) : IO UInt32 := do
  match Invocation.ofArgs? args with
  | some .version =>
    IO.println CommandLine.version
    return 0
  | some (.file o path) => CommandLine.runPath o path
  | some (.interactive o) =>
    CommandLine.converse o (← IO.getStdin) (Session.new.print CommandLine.greeting)
    return 0
  | none =>
    IO.eprintln "Usage: yy [-d|--debug] [-t|--tokens] [PATH]"
    return 2
