import StackLang.Command.Options
import StackLang.Pipeline.Basic

namespace StackLang.Command

inductive Input where
  | path (path : String)
  | stdin
deriving DecidableEq, Repr

def Input.name : Input → String
  | path p => p
  | stdin => "<stdin>"

/-- The machine reads its standard input, unless it is given the name of a file. -/
def input (c : Command) (s : Settings) : Input :=
  match c with
  | vm =>
    match s.file with
    | none | some "" => .stdin
    | some p => .path p
  | compile | run => .path (s.source.getD "")

def textOf (i : Input) (found : Except PathError (List UInt8)) : PipelineM String :=
  match found with
  | .error e => throw (.read (.path i.name e))
  | .ok bytes =>
    match decodeText bytes with
    | .error e => throw (.read e)
    | .ok text => return text

/-- A limit of zero is no limit. -/
def config (c : Command) (s : Settings) : Config where
  maxSteps := if s.maxSteps = 0 then none else some s.maxSteps
  verbose := if c = vm then s.trace else s.verbose
  haltOnReturn := !s.noHalt

def putStack (m : Machine) : PipelineM Unit := do
  let text ← PipelineM.written (showStack m.stack)
  PipelineM.putLine text

def work (budget : Nat) (c : Command) (s : Settings) (text : String) : Pipeline.Bounded Unit :=
  match c with
  | compile => fun t => some ((Pipeline.dumpListing text >>= PipelineM.put).run t)
  | vm =>
    Pipeline.followedBy (Pipeline.executeListing budget text (c.config s) false)
      fun r => putStack r.machine
  | run => Pipeline.followedBy (Pipeline.run budget text (c.config s)) putStack

inductive Ending where
  | exit (code : Nat)
  /-- With a failure that it does not report. -/
  | abort (failure : Failure)
deriving DecidableEq, Repr

structure Outcome where
  ending : Ending
  out : String := ""
  err : String := ""
deriving DecidableEq, Repr

/-- The log as it is shown: warnings always, the rest if the command is verbose. -/
def showLog (verbose : Bool) (log : Array LogLine) : String :=
  String.join ((log.toList.filter fun l => verbose || l.warning).map (·.render ++ "\n"))

/-- A command from its settings and what it found to read, or `none` if the budget of steps is too
small. -/
def perform (budget : Nat) (c : Command) (s : Settings)
    (found : Except PathError (List UInt8)) : Option Outcome :=
  (Pipeline.andThen (textOf (c.input s) found) (c.work budget s) {}).map fun
    | .ok _ t => { ending := .exit 0, out := t.out, err := showLog s.verbose t.log }
    | .error f t =>
      let log := showLog s.verbose t.log
      match f.report? with
      | some message =>
        { ending := .exit 1, out := t.out, err := log ++ "error: " ++ message ++ "\n" }
      | none => { ending := .abort f, out := t.out, err := log }

end StackLang.Command
