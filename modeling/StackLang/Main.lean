import StackLang.Command.Basic

namespace StackLang

def readFile (path : String) : IO (Except PathError (List UInt8)) := do
  if path.toList.contains '\x00' then
    return .error .embeddedNull
  try
    return .ok (← IO.FS.readBinFile path).toList
  catch
    | .noFileOrDirectory .. => return .error .missing
    | .permissionDenied .. => return .error .forbidden
    | .inappropriateType (some _) _ _ => return .error .notFolder
    | .invalidArgument .. => return .error .tooLong
    | _ => return .error .isFolder

def readInput : Command.Input → IO (Except PathError (List UInt8))
  | .path p => readFile p
  | .stdin => do return .ok (← (← IO.getStdin).readBinToEnd).toList

/-- Runs with larger and larger budgets until one suffices. -/
partial def performWithin (budget : Nat) (c : Command) (s : Command.Settings)
    (found : Except PathError (List UInt8)) : IO Command.Outcome :=
  match c.perform budget s found with
  | some outcome => return outcome
  | none => performWithin (2 * budget) c s found

def runCommand (c : Command) (args : List String) : IO UInt32 := do
  match c.parseArguments args with
  | .error .help =>
    IO.println ("usage: " ++ c.program ++ " [options]" ++ if c.takesSource then " source" else "")
    return 0
  | .error (.usage e) =>
    IO.eprintln (e.message c)
    return 2
  | .ok settings =>
    let outcome ← performWithin 200000 c settings (← readInput (c.input settings))
    IO.print outcome.out
    IO.eprint outcome.err
    match outcome.ending with
    | .exit code => return code.toUInt32
    | .abort _ =>
      IO.eprintln "aborted: the path, an integer or the stack is beyond all bounds"
      return 1

end StackLang

def main (args : List String) : IO UInt32 := do
  match args with
  | "compile" :: rest => StackLang.runCommand .compile rest
  | "vm" :: rest => StackLang.runCommand .vm rest
  | "run" :: rest => StackLang.runCommand .run rest
  | _ =>
    IO.eprintln "usage: compile | vm | run, then the arguments of the command"
    return 2
