import Lox.Session
import Lox.Source
import Lox.Token.Serial
import Lox.Tree.Text

/-!
# Commands

What the program does with a file or with the lines typed at its prompt, as text: what goes to the
two output channels, and the exit status.
-/

namespace Lox

/-- The commands on a file. -/
inductive Command where
  | tokenize (json : Bool)
  | parse
  | evaluate
  | run
deriving DecidableEq, Repr

/-- What a command leaves behind. -/
structure Transcript where
  exitCode : Nat
  stdout   : String := ""
  stderr   : String := ""
deriving DecidableEq, Repr

/-- Texts, each on a line of its own. -/
def lines (texts : List String) : String := String.join (texts.map (· ++ "\n"))

/-- Reports, each on a line of its own. -/
def Reports.lines (r : Reports) : String := Lox.lines (r.held.map Report.text)

/-- The status of reports that kept a command from its result. -/
def Reports.outcome (r : Reports) : Outcome :=
  if r.hadError then .staticError else if r.hadRuntimeError then .runtimeError else .ok

namespace Command

/-- Lists the tokens of a source. -/
def listTokens (json : Bool) (source : String) : Transcript :=
  let tokens := Scan.tokens source
  let reports : Reports := ⟨Scan.reports source, false⟩
  { exitCode := reports.outcome.exitCode
    stdout := if json then Token.serial .indented tokens ++ "\n" else lines (tokens.map Token.text)
    stderr := reports.lines }

/-- Shows the tree of a source that is one expression. -/
def showTree (source : String) : Transcript :=
  let parsed := Parser.single 0 (Scan.tokens source)
  let reports : Reports := ⟨Scan.reports source ++ parsed.reports, false⟩
  let stdout := match parsed.tree with
    | some e => if reports.hadError then "" else e.text ++ "\n"
    | none => ""
  { exitCode := reports.outcome.exitCode, stdout, stderr := reports.lines }

/-- Shows the value of a source that is one expression. -/
def showValue (clock : Clock) (fuel : Nat) (source : String) : Option Transcript := do
  match ← Lox.evaluate clock fuel source with
  | .ok (value, machine) => return { exitCode := 0, stdout := machine.store.text value ++ "\n" }
  | .error reports => return { exitCode := reports.outcome.exitCode, stderr := reports.lines }

/-- Runs a source as a program. -/
def runProgram (clock : Clock) (fuel : Nat) (source : String) : Option Transcript := do
  let (outcome, s) ← (Session.fresh clock).run fuel source
  return { exitCode := outcome.exitCode
           stdout := Text.decodeLossy s.machine.output.written
           stderr := s.reports.lines }

/-- The command on source text; `none` if the fuel does not suffice. -/
def onSource (clock : Clock) (fuel : Nat) (c : Command) (source : String) : Option Transcript :=
  match c with
  | .tokenize json => some (listTokens json source)
  | .parse => some (showTree source)
  | .evaluate => showValue clock fuel source
  | .run => runProgram clock fuel source

/-- What an unreadable file leaves behind. -/
def unreadable (file : String) (fault : SourceFault) : Transcript :=
  { exitCode := 1
    stderr := "Error: Failed to read file " ++ Text.describedName file ++
      "\n\nCaused by:\n    " ++ fault.message ++ "\n" }

/-- The command on a file. -/
def onFile (clock : Clock) (fuel : Nat) (c : Command) (file : String)
    (bytes : Except SourceFault ByteArray) : Option Transcript :=
  match readSource bytes with
  | .ok source => c.onSource clock fuel source
  | .error fault => some (unreadable file fault)

end Command

/-! ## The prompt -/

namespace Prompt

/-- What is shown before a line is read. -/
def mark : String := "> "

/-- The lines of an input. A line ends at a newline, and a carriage return before it is dropped; the
last line needs no newline. -/
def splitLines (bytes : List UInt8) : List (List UInt8) := go [] bytes
where
  /-- Goes on after the bytes of a line, last first. -/
  go (line : List UInt8) : List UInt8 → List (List UInt8)
    | [] => if line.isEmpty then [] else [line.reverse]
    | b :: rest =>
      if b = 10 then
        (match line with
          | 13 :: line => line.reverse
          | line => line.reverse) :: go [] rest
      else go (b :: line) rest

/-- The source text of a line. -/
def readLine (line : List UInt8) : Option String := (Text.decode ⟨line.toArray⟩).toOption

/-- Runs one line: what it prints, what it reports, and the session after it. -/
def step (fuel : Nat) (s : Session) (source : String) : Option (String × String × Session) := do
  let before := s.machine.output.written.size
  let (_, s) ← s.run fuel source
  let printed := s.machine.output.written.extract before s.machine.output.written.size
  return (Text.decodeLossy printed, s.reports.lines, s)

/-- The message for a line that is not text. -/
def notText : String := "Error: stream did not contain valid UTF-8\n"

/-- Runs lines in one session. -/
def converse (fuel : Nat) (s : Session) : List (List UInt8) → Option Transcript
  | [] => some { exitCode := 0, stdout := mark }
  | line :: rest =>
    match readLine line with
    | none => some { exitCode := 1, stdout := mark, stderr := notText }
    | some source => do
      let (printed, reported, s) ← step fuel s source
      let after ← converse fuel s rest
      return { exitCode := after.exitCode
               stdout := mark ++ printed ++ after.stdout
               stderr := reported ++ after.stderr }

/-- The whole conversation over an input. -/
def transcript (clock : Clock) (fuel : Nat) (input : ByteArray) : Option Transcript :=
  converse fuel (.fresh clock) (splitLines input.toList)

end Prompt

/-! ## Invocations -/

/-- What the program is asked to do. -/
inductive Invocation where
  | onFile (c : Command) (file : String)
  | prompt
deriving DecidableEq, Repr

/-- Reads the arguments of the command line. A flag may stand anywhere; `--log` is accepted with any
command and `--json` with `tokenize`. -/
def Invocation.ofArgs? (args : List String) : Option Invocation :=
  let args := args.filter (· ≠ "--log")
  match args.filter (· ≠ "--json") with
  | ["tokenize", file] => some (.onFile (.tokenize (args.contains "--json")) file)
  | words =>
    if args.contains "--json" then none
    else match words with
      | ["parse", file] => some (.onFile .parse file)
      | ["evaluate", file] => some (.onFile .evaluate file)
      | ["run", file] => some (.onFile .run file)
      | ["repl"] => some .prompt
      | _ => none

end Lox
