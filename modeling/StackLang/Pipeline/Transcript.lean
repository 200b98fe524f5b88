import StackLang.Emitter.Basic
import StackLang.Grammar.Reader
import StackLang.Instruction.Listing
import StackLang.Machine.State
import StackLang.Pipeline.Reading
import StackLang.Token.Scanner

namespace StackLang

inductive Stage where
  | compile | scan | parse | emit | listing | execute
deriving DecidableEq, Repr

def Stage.logger : Stage → String
  | compile => "stackc.api"
  | scan => "stackc.lexer"
  | parse => "stackc.parser"
  | emit => "stackc.codegen"
  | listing => "stackc.ir"
  | execute => "stackc.run"

structure LogLine where
  stage : Stage
  warning : Bool := false
  text : String
deriving DecidableEq, Repr

def LogLine.render (l : LogLine) : String :=
  l.stage.logger ++ ": " ++ l.text

structure Transcript where
  /-- The text written so far. -/
  out : String := ""
  log : Array LogLine := #[]
deriving DecidableEq, Repr

inductive Failure where
  | read (e : ReadError)
  | scan (e : ScanError)
  | parse (e : ParseError)
  | emit (e : EmitError)
  | listing (e : ListingError)
  | execute (e : Fault)
  | unwritable (cause : Unwritable)
deriving DecidableEq, Repr

namespace Failure

def message : Failure → Except Unwritable String
  | read e => .ok e.message
  | scan e => e.message
  | parse e => e.message
  | emit e => e.message
  | listing e => e.message
  | execute e => e.message
  | unwritable cause => .error cause

/-- The failures that a user of the program is answerable for, with their message. The others are
what is no path at all, a tree that is no program, a stack beyond all bounds and a text that cannot
be written. -/
def report? : Failure → Option String
  | read (.path _ .embeddedNull) | emit (.malformed _) | execute .stackTooLarge => none
  | f => f.message.toOption

end Failure

/-- A stage. A failing one leaves behind what it has written and logged. -/
abbrev PipelineM := EStateM Failure Transcript

namespace PipelineM

def info (stage : Stage) (text : String) : PipelineM Unit :=
  modify fun t => { t with log := t.log.push { stage, text } }

def warn (stage : Stage) (text : String) : PipelineM Unit :=
  modify fun t => { t with log := t.log.push { stage, warning := true, text } }

def put (text : String) : PipelineM Unit :=
  modify fun t => { t with out := t.out ++ text }

def putLine (text : String) : PipelineM Unit :=
  put (text ++ "\n")

def written (text : Except Unwritable String) : PipelineM String :=
  match text with
  | .ok s => return s
  | .error cause => throw (.unwritable cause)

end PipelineM

end StackLang
