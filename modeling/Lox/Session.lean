import Lox.Binding.Resolve
import Lox.Machine.Run
import Lox.Parser.Statement
import Lox.Token.Scan

/-!
# Sessions

Sources run one after another against one machine, so that globals survive from one run to the next.
A source with a static report is not executed at all. The identities of nodes go on from one source
to the next: the distances recorded for earlier sources stay good for the closures that are still
alive.
-/

namespace Lox

/-- How a run ends. -/
inductive Outcome where
  | ok
  | staticError
  | runtimeError
deriving DecidableEq, Repr

/-- The exit status that stands for an outcome. -/
def Outcome.exitCode : Outcome → Nat
  | .ok => 0
  | .staticError => 65
  | .runtimeError => 70

structure Session where
  machine  : Machine NodeId
  bindings : Bindings := {}
  nextId   : NodeId := 0
  /-- The reports of the last run. -/
  reports  : Reports := {}

namespace Session

def fresh (clock : Clock) (limit : Option Nat := none) : Session :=
  { machine := .initial clock limit }

/-- Runs a source; `none` if the fuel does not suffice. -/
def run (fuel : Nat) (s : Session) (source : String) : Option (Outcome × Session) :=
  let parsed := Parser.program s.nextId (Scan.tokens source)
  let s := { s with nextId := parsed.nextId, reports := ⟨Scan.reports source ++ parsed.reports, false⟩ }
  if s.reports.hadError then some (.staticError, s)
  else
    let (bindings, scoping) := Resolve.program s.bindings parsed.tree
    let s := { s with bindings, reports := s.reports.add scoping }
    if s.reports.hadError then some (.staticError, s)
    else
      match Exec.interpret s.bindings.find? fuel parsed.tree s.machine with
      | .done _ machine => some (.ok, { s with machine })
      | .failed e machine =>
        let reports := s.reports.addRuntimeError e.blamed e.cause.message
        some (.runtimeError, { s with machine, reports })
      | .outOfFuel => none

end Session

/-- Evaluates a source that is one expression, on a fresh machine and with every name global: its
value and the machine, or the reports of what went wrong. `none` if the fuel does not suffice. -/
def evaluate (clock : Clock) (fuel : Nat) (source : String) :
    Option (Except Reports (Value × Machine NodeId)) :=
  let parsed := Parser.single 0 (Scan.tokens source)
  let reports : Reports := ⟨Scan.reports source ++ parsed.reports, false⟩
  match parsed.tree with
  | none => some (.error reports)
  | some e =>
    if reports.hadError then some (.error reports)
    else
      match Exec.eval (fun _ => none) fuel e (.initial clock) with
      | .done value machine => some (.ok (value, machine))
      | .failed e _ => some (.error (reports.addRuntimeError e.blamed e.cause.message))
      | .outOfFuel => none

end Lox
