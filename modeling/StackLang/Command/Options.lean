import StackLang.Numeral
import StackLang.Text.Quoted

namespace StackLang

inductive Command where
  | compile | vm | run
deriving DecidableEq, Repr

namespace Command

def program : Command → String
  | compile => "stackc-compile"
  | vm => "stackc-vm"
  | run => "stackc-run"

inductive Key where
  | help | verbose | file | trace | maxSteps | noHalt
deriving DecidableEq, Repr

/-- An option: its spellings, and whether a value belongs to it. -/
structure Switch where
  key : Key
  names : List String
  takesValue : Bool := false
deriving DecidableEq, Repr

def helpSwitch : Switch := ⟨.help, ["-h", "--help"], false⟩
def verboseSwitch : Switch := ⟨.verbose, ["--verbose", "-v"], false⟩
def fileSwitch : Switch := ⟨.file, ["--file", "-f"], true⟩
def traceSwitch : Switch := ⟨.trace, ["--trace", "-t"], false⟩
def maxStepsSwitch : Switch := ⟨.maxSteps, ["--max-steps", "-n"], true⟩
def noHaltSwitch : Switch := ⟨.noHalt, ["--no-halt-on-return"], false⟩

def switches : Command → List Switch
  | compile => [helpSwitch, verboseSwitch]
  | vm => [helpSwitch, fileSwitch, traceSwitch, verboseSwitch, maxStepsSwitch, noHaltSwitch]
  | run => [helpSwitch, verboseSwitch, maxStepsSwitch, noHaltSwitch]

def takesSource : Command → Bool
  | vm => false
  | _ => true

def spellings (c : Command) : List (String × Switch) :=
  c.switches.flatMap fun s => s.names.map fun name => (name, s)

def find? (c : Command) (name : String) : Option Switch :=
  c.spellings.lookup name

structure Settings where
  source : Option String := none
  file : Option String := none
  trace : Bool := false
  verbose : Bool := false
  noHalt : Bool := false
  maxSteps : Int := 100000
deriving DecidableEq, Repr

inductive UsageError where
  | ambiguous (arg : String) (candidates : List String)
  | valueMissing (switch : Switch)
  | valueIgnored (switch : Switch) (value : String)
  | notInteger (switch : Switch) (value : String)
  | unrecognized (args : List String)
  | sourceMissing
deriving DecidableEq, Repr

def UsageError.detail : UsageError → String
  | ambiguous arg candidates =>
    "ambiguous option: " ++ arg ++ " could match " ++ ", ".intercalate candidates
  | valueMissing s => named s ++ "expected one argument"
  | valueIgnored s v => named s ++ "ignored explicit argument " ++ Text.quoted v
  | notInteger s v => named s ++ "invalid int value: " ++ Text.quoted v
  | unrecognized args => "unrecognized arguments: " ++ " ".intercalate args
  | sourceMissing => "the following arguments are required: source"
where
  named (s : Switch) : String :=
    "argument " ++ "/".intercalate s.names ++ ": "

def UsageError.message (c : Command) (e : UsageError) : String :=
  c.program ++ ": error: " ++ e.detail

inductive Refusal where
  | usage (e : UsageError)
  | help
deriving DecidableEq, Repr

inductive Argument where
  | plain (text : String)
  | separator
  /-- An option by one of its spellings, and what is attached to it: behind an equals sign, or
  right behind the letter. -/
  | option (switch : Switch) (name : String) (attached : Option String)
  /-- What looks like an option and is none. -/
  | unknown (text : String)
deriving DecidableEq, Repr

def cutEquals (arg : String) : String × Option String :=
  let cs := arg.toList
  let name := String.ofList (cs.takeWhile (· ≠ '='))
  match cs.dropWhile (· ≠ '=') with
  | _ :: value => (name, some (String.ofList value))
  | [] => (name, none)

def isDigit (c : Char) : Bool :=
  (Text.digitValue? c).isSome

/-- A minus sign with digits, or with a fraction; a line feed may follow. -/
def isNegativeNumber (arg : String) : Bool :=
  match arg.toList with
  | '-' :: cs =>
    let cs := if cs.getLast? = some '\n' then cs.dropLast else cs
    match cs.dropWhile isDigit with
    | [] => !cs.isEmpty
    | '.' :: fraction => !fraction.isEmpty && fraction.all isDigit
    | _ => false
  | _ => false

/-- The options that an argument may stand for without being one of their spellings: a long one
that it begins, or a short one with something right behind it. -/
def candidates (c : Command) (arg : String) : List (Switch × String × Option String) :=
  match arg.toList with
  | '-' :: '-' :: _ =>
    let (start, value) := cutEquals arg
    (c.spellings.filter fun (name, _) => start.toList.isPrefixOf name.toList).map
      fun (name, s) => (s, name, value)
  | '-' :: letter :: rest =>
    (c.spellings.filter fun (name, _) => name.toList = ['-', letter]).map
      fun (name, s) => (s, name, some (String.ofList rest))
  | _ => []

def classify (c : Command) (arg : String) : Except UsageError Argument :=
  match arg.toList with
  | [] | ['-'] => .ok (.plain arg)
  | '-' :: _ =>
    match c.find? arg with
    | some s => .ok (.option s arg none)
    | none =>
      match cutEquals arg with
      | (name, some value) =>
        match c.find? name with
        | some s => .ok (.option s name (some value))
        | none => guess arg
      | (_, none) => guess arg
  | _ => .ok (.plain arg)
where
  guess (arg : String) : Except UsageError Argument :=
    match c.candidates arg with
    | [(s, name, attached)] => .ok (.option s name attached)
    | [] =>
      if isNegativeNumber arg || arg.toList.contains ' ' then .ok (.plain arg)
      else .ok (.unknown arg)
    | several => .error (.ambiguous arg (several.map fun (_, name, _) => name))

def classifyAll (c : Command) : List String → Except UsageError (List Argument)
  | [] => .ok []
  | "--" :: args => .ok (.separator :: args.map .plain)
  | arg :: args => do
    let a ← c.classify arg
    let as ← c.classifyAll args
    return a :: as

/-- What has been made of the arguments so far, with those that fit nowhere. -/
structure Progress where
  settings : Settings := {}
  extras : List String := []

def Progress.extra (p : Progress) (args : List String) : Progress :=
  { p with extras := p.extras ++ args }

def isEmptyValue (value : String) : Bool :=
  value = "--"

/-- Applies an option. Of several values the last one counts; without a value there is no file, and
no limit of steps. -/
def Progress.apply (p : Progress) (s : Switch) (value : String) : Except Refusal Progress :=
  match s.key with
  | .help => .error .help
  | .verbose => .ok { p with settings := { p.settings with verbose := true } }
  | .trace => .ok { p with settings := { p.settings with trace := true } }
  | .noHalt => .ok { p with settings := { p.settings with noHalt := true } }
  | .file =>
    let file := if isEmptyValue value then none else some value
    .ok { p with settings := { p.settings with file } }
  | .maxSteps =>
    if isEmptyValue value then .ok { p with settings := { p.settings with maxSteps := 0 } }
    else
      match Numeral.read? value.toList with
      | some n => .ok { p with settings := { p.settings with maxSteps := n } }
      | none => .error (.usage (.notInteger s value))

/-- What one argument asks for: some flags, then an option that may have a value attached. -/
structure Joined where
  flags : List Switch := []
  last : Switch
  value : Option String := none

def isShort (name : String) : Bool :=
  match name.toList with
  | ['-', letter] => letter ≠ '-'
  | _ => false

/-- Takes apart what is attached to the flag `s`. Each letter is an option, up to one that takes
the rest as its value. Where a letter is none, the flag before it has been given a value. -/
def unjoin (c : Command) (s : Switch) : List Char → Except UsageError Joined
  | [] => .error (.valueIgnored s "")
  | letter :: rest =>
    match c.find? (String.ofList ['-', letter]) with
    | none => .error (.valueIgnored s (String.ofList (letter :: rest)))
    | some s' =>
      if rest.isEmpty then .ok { flags := [s], last := s' }
      else if s'.takesValue then
        .ok { flags := [s], last := s', value := some (String.ofList rest) }
      else do
        let j ← c.unjoin s' rest
        return { j with flags := s :: j.flags }

def expand (c : Command) (s : Switch) (name : String) : Option String → Except UsageError Joined
  | none => .ok { last := s }
  | some value =>
    if s.takesValue then .ok { last := s, value := some value }
    else if isShort name then c.unjoin s value.toList
    else .error (.valueIgnored s value)

def Progress.applyFlags (p : Progress) : List Switch → Except Refusal Progress
  | [] => .ok p
  | s :: ss => do
    let p ← p.apply s ""
    p.applyFlags ss

def consume (c : Command) (p : Progress) : List Argument → Except Refusal Progress
  | [] => .ok p
  | .plain arg :: rest =>
    if c.takesSource && p.settings.source.isNone then
      let p := { p with settings := { p.settings with source := some arg } }
      match rest with
      | .separator :: rest => c.consume p rest
      | rest => c.consume p rest
    else c.consume (p.extra [arg]) rest
  | .separator :: rest =>
    if c.takesSource && p.settings.source.isNone && !rest.isEmpty then c.consume p rest
    else c.consume (p.extra ["--"]) rest
  | .unknown arg :: rest => c.consume (p.extra [arg]) rest
  | .option s name attached :: rest =>
    match c.expand s name attached with
    | .error e => .error (.usage e)
    | .ok ⟨flags, last, some value⟩ => do
      let p ← p.applyFlags flags
      let p ← p.apply last value
      c.consume p rest
    | .ok ⟨flags, last, none⟩ =>
      if last.takesValue then
        match rest with
        | .plain value :: rest => do
          let p ← p.applyFlags flags
          let p ← p.apply last value
          c.consume p rest
        | _ => .error (.usage (.valueMissing last))
      else do
        let p ← p.applyFlags (flags ++ [last])
        c.consume p rest

/-- The settings that a list of arguments spells. Options and the source file may come in any
order. A long option may be cut short as long as it stays unambiguous, flags of one letter may be
joined, and behind a lone `--` nothing is an option. A lone `--` that is attached to an option
counts as no value. -/
def parseArguments (c : Command) (args : List String) : Except Refusal Settings :=
  match c.classifyAll args with
  | .error e => .error (.usage e)
  | .ok as => do
    let p ← c.consume {} as
    if c.takesSource && p.settings.source.isNone then
      throw (.usage .sourceMissing)
    if p.extras.isEmpty then return p.settings
    else throw (.usage (.unrecognized p.extras))

end Command

end StackLang
