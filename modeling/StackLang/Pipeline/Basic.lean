import StackLang.Emitter.Generate
import StackLang.Execution.Session
import StackLang.Grammar.Statement
import StackLang.Instruction.Census
import StackLang.Pipeline.Report
import StackLang.Pipeline.Transcript

namespace StackLang.Pipeline

open PipelineM

def scan (source : String) : PipelineM (List Token) :=
  match tokenize source with
  | .error e => throw (.scan e)
  | .ok ts => do
    info .scan ("Lexed " ++ Numeral.text ts.length ++ " tokens")
    return ts

def parse (ts : List Token) : PipelineM Program :=
  match parseProgram ts with
  | .error e => throw (.parse e)
  | .ok p => do
    info .parse ("Parsed " ++ Numeral.text p.length ++ " top-level elements")
    return p

/-- The warnings of code generation are logged whether it succeeds or not. -/
def emit (p : Program) : PipelineM Emitter :=
  match Emitter.generate p.toTree with
  | .error e s => do
    s.warnings.forM (warn .emit)
    throw (.emit e)
  | .ok _ s => do
    s.warnings.forM (warn .emit)
    info .emit ("Generated " ++ Numeral.text s.code.size ++ " instructions for " ++
      Numeral.text s.functions.size ++ " functions")
    return s

def compile (source : String) : PipelineM (List Instruction) := do
  info .compile ("Compiling " ++ Numeral.text source.length ++ " bytes of source")
  let ts ← scan source
  let p ← parse ts
  let s ← emit p
  return s.code.toList

def dumpListing (source : String) : PipelineM String := do
  let program ← compile source
  written (Listing.format program true)

def loadListing (text : String) : PipelineM (List Instruction) :=
  match Listing.parse text with
  | .error e => throw (.listing e)
  | .ok is => do
    info .listing ("Parsed listing with " ++ Numeral.text is.length ++ " instructions")
    return is

/-- A stage that may take more steps than its budget allows; then there is no result. -/
abbrev Bounded (α : Type) := Transcript → Option (EStateM.Result Failure Transcript α)

def andThen {α β : Type} (x : PipelineM α) (f : α → Bounded β) : Bounded β :=
  fun t =>
    match x.run t with
    | .ok a t => f a t
    | .error e t => some (.error e t)

def followedBy {α β : Type} (x : Bounded α) (f : α → PipelineM β) : Bounded β :=
  fun t =>
    (x t).map fun
      | .ok a t => (f a).run t
      | .error e t => .error e t

def execute (budget : Nat) (s : Session) : Bounded Run :=
  fun t =>
    (s.run budget).map fun
      | .error e r => .error (.execute e) { t with out := t.out ++ r.out }
      | .ok _ r =>
        .ok r { t with
          out := t.out ++ r.out
          log := t.log.push
            { stage := .execute
              text := "Executed " ++ Numeral.text r.steps ++ " steps, final stack size " ++
                Numeral.text r.machine.stack.size } }

/-- Executes a listing; printed values are written line by line. -/
def executeListing (budget : Nat) (text : String) (config : Config) (recorded : Bool) :
    Bounded Run :=
  andThen (loadListing text) fun is =>
    execute budget { program := is.toArray, config, sink := Sink.lines, recorded }

def lineCount (source : String) : Nat :=
  let cs := source.toList
  cs.count '\n' + (match cs.getLast? with
    | none | some '\n' => 0
    | some _ => 1)

def showCode (program : List Instruction) : PipelineM Unit := do
  putLine "═══ Listing ═══"
  for (i, address) in program.zipIdx do
    let text ← written i.text
    putLine ("  " ++ Text.padLeft 4 (Numeral.text address) ++ "  " ++ text)
  putLine ""

/-- The stages before execution, with what the report needs to know of them. The stages are pure,
so no time passes in them. -/
def prepare (source : String) (verbose : Bool) : PipelineM (List Instruction × Report) := do
  let ts ← scan source
  let p ← parse ts
  let s ← emit p
  let program := s.code.toList
  if verbose then
    showCode program
  return (program,
    { sourceBytes := source.utf8ByteSize
      sourceLines := lineCount source
      tokens := ts.length
      elements := p.length
      instructions := program.length
      functions := s.functions.size
      callSites := Census.callSites program })

/-- Compiles and executes a source text. A verbose run is framed by the code and the report. -/
def run (budget : Nat) (source : String) (config : Config) : Bounded Machine :=
  andThen (prepare source config.verbose) fun (program, report) =>
    followedBy (execute budget { program := program.toArray, config, sink := Sink.lines })
      fun r => do
        if config.verbose then
          let text ← written { report with steps := r.steps, peak := r.peak }.text
          putLine ""
          putLine text
        return r.machine

end StackLang.Pipeline
