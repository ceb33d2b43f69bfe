import Lox.Command

/-!
# The command line

Reads files and the lines typed at the prompt, and writes what the commands leave behind.
-/

namespace Lox.CommandLine

/-- More steps than a run ever takes. -/
def fuel : Nat := Number.pow2 60

/-- A clock that starts now, in seconds, and moves by a microsecond with each reading. -/
def clockNow : IO Clock := do
  let start := (← IO.monoNanosNow).toFloat / 1000000000
  return { reading := fun n => start + n.toFloat / 1000000 }

/-- The bytes of a file. -/
def readBytes (file : String) : IO (Except SourceFault ByteArray) := do
  try
    return .ok (← IO.FS.readBinFile file)
  catch e =>
    match e with
    | .noFileOrDirectory .. => return .error .missing
    | e => return .error (.unreadable e.toString)

/-- Writes a transcript and gives its exit status. -/
def emit (t : Transcript) : IO UInt32 := do
  IO.print t.stdout
  IO.eprint t.stderr
  return t.exitCode.toUInt32

/-- The bytes of the next line with its newline, after those in `taken`; empty at the end of the
input. -/
partial def nextLine (taken : ByteArray := .empty) : IO ByteArray := do
  let next ← (← IO.getStdin).read 1
  if next.isEmpty || next.toList = [10] then return taken ++ next
  nextLine (taken ++ next)

/-- Shows the prompt, runs a line, and goes on until the input ends. -/
partial def converse (s : Session) : IO UInt32 := do
  let stdout ← IO.getStdout
  stdout.putStr Prompt.mark
  stdout.flush
  match (Prompt.splitLines (← nextLine).toList).map Prompt.readLine with
  | [] => return 0
  | some source :: _ =>
    match Prompt.step fuel { s with machine.clock := ← clockNow } source with
    | some (printed, reported, s) =>
      IO.print printed
      IO.eprint reported
      converse s
    | none => return 1
  | none :: _ =>
    IO.eprint Prompt.notText
    return 1

def usage : String :=
  "usage: lox tokenize FILE [--json] | parse FILE | evaluate FILE | run FILE | repl"

/-- Does what the arguments ask for. -/
def start (args : List String) : IO UInt32 := do
  let clock ← clockNow
  match Invocation.ofArgs? args with
  | some (.onFile c file) =>
    match c.onFile clock fuel file (← readBytes file) with
    | some t => emit t
    | none => return 1
  | some .prompt => converse (.fresh clock)
  | none =>
    IO.eprintln usage
    return 2

end Lox.CommandLine

def main (args : List String) : IO UInt32 := Lox.CommandLine.start args
