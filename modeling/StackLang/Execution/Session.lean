import StackLang.Execution.Snapshot
import StackLang.Machine.Execute

namespace StackLang

structure Config where
  /-- The most steps a run may take, if there is a limit. -/
  maxSteps : Option Int := some 100000
  /-- Whether the machine is shown before every step. -/
  verbose : Bool := false
  /-- Whether a return at the top level halts the machine. -/
  haltOnReturn : Bool := true
deriving DecidableEq, Repr

structure Tally where
  steps : Nat
  peak : Nat
  final : Nat
  halted : Bool
deriving DecidableEq, Repr

structure Run where
  machine : Machine := {}
  steps : Nat := 0
  /-- The largest size of the stack after a step. -/
  peak : Nat := 0
  printed : Array Int := #[]
  /-- The text written so far. -/
  out : String := ""
  snapshots : Array Snapshot := #[]
deriving DecidableEq, Repr

/-- Where the next printed value goes, given the values printed before it. -/
abbrev Listener := Array Int → Sink

/-- What a run does not change: the program and how it is executed and watched. -/
structure Session where
  program : Array Instruction
  config : Config := {}
  sink : Sink := Sink.silent
  /-- Whether the snapshots are kept. -/
  recorded : Bool := false

namespace Run

def tally (r : Run) : Tally :=
  ⟨r.steps, r.peak, r.machine.stack.size, r.machine.halted⟩

def snapshot (r : Run) (i : Instruction) : Snapshot :=
  ⟨r.steps, r.machine.pc, r.machine.bp, r.machine.argc, i, r.machine.stack⟩

end Run

namespace Session

/-- The instruction at `pc`, as long as the run goes on. -/
def fetch? (s : Session) (m : Machine) : Option Instruction :=
  if m.halted ∨ m.pc < 0 then none else s.program[m.pc.toNat]?

theorem fetch?_eq_some_iff {s : Session} {m : Machine} {i : Instruction} : s.fetch? m = some i ↔
    m.halted = false ∧ 0 ≤ m.pc ∧ s.program[m.pc.toNat]? = some i := by
  unfold fetch?
  split
  next h => grind
  next h => grind

theorem fetch?_congr {s t : Session} (h : s.program = t.program) (m : Machine) :
    s.fetch? m = t.fetch? m := by
  rw [fetch?, fetch?, h]

def checkLimit (s : Session) : EStateM Fault Run Unit :=
  fun r =>
    match s.config.maxSteps with
    | none => .ok () r
    | some limit =>
      if limit ≤ r.steps then .error (.stepLimit r.steps r.machine.pc) r else .ok () r

/-- Shows and keeps the machine before a step, if that is asked for. -/
def observe (s : Session) (i : Instruction) : EStateM Fault Run Unit :=
  fun r =>
    if s.config.verbose then
      match (r.snapshot i).render with
      | .error cause => .error (.unwritable cause) r
      | .ok text => .ok () (keep { r with out := r.out ++ text ++ "\n" })
    else .ok () (keep r)
where
  keep (r : Run) : Run :=
    if s.recorded then { r with snapshots := r.snapshots.push (r.snapshot i) } else r

/-- Executes an instruction and counts the step. -/
def perform (s : Session) (i : Instruction) : EStateM Fault Run Unit
  | ⟨machine, steps, peak, printed, out, snapshots⟩ =>
    match (Machine.execute s.config.haltOnReturn s.sink s.program.size i).run machine with
    | .error e m => .error e ⟨m, steps, peak, printed, out, snapshots⟩
    | .ok none m => .ok () ⟨m, steps + 1, max peak m.stack.size, printed, out, snapshots⟩
    | .ok (some (v, text)) m =>
      .ok () ⟨m, steps + 1, max peak m.stack.size, printed.push v, out ++ text, snapshots⟩

def step (s : Session) (i : Instruction) : EStateM Fault Run Unit := do
  s.checkLimit
  s.observe i
  s.perform i

def withSink (s : Session) (sink : Sink) : Session :=
  { s with sink }

/-- Steps until the run ends, or `none` if it has not ended within the budget. -/
def loopWith (s : Session) (listener : Listener) :
    Nat → Run → Option (EStateM.Result Fault Run Unit)
  | 0, _ => none
  | budget + 1, r =>
    match s.fetch? r.machine with
    | none => some (.ok () r)
    | some i =>
      match ((s.withSink (listener r.printed)).step i).run r with
      | .error e r => some (.error e r)
      | .ok _ r => s.loopWith listener budget r

def loop (s : Session) : Nat → Run → Option (EStateM.Result Fault Run Unit) :=
  s.loopWith fun _ => s.sink

theorem loop_succ (s : Session) (budget : Nat) (r : Run) :
    s.loop (budget + 1) r =
      match s.fetch? r.machine with
      | none => some (.ok () r)
      | some i =>
        match (s.step i).run r with
        | .error e r => some (.error e r)
        | .ok _ r => s.loop budget r :=
  rfl

/-- A verbose run that ended by itself closes with the number of its steps. -/
def close (s : Session) (r : Run) : Run :=
  if s.config.verbose then
    { r with out := r.out ++ "\n(" ++ Numeral.text r.steps ++ " steps)\n" }
  else r

/-- A whole run, or `none` if it does not end within the budget. -/
def runWith (s : Session) (listener : Listener) (budget : Nat) :
    Option (EStateM.Result Fault Run Unit) :=
  (s.loopWith listener budget {}).map fun
    | .ok _ r => .ok () (s.close r)
    | .error e r => .error e r

def run (s : Session) (budget : Nat) : Option (EStateM.Result Fault Run Unit) :=
  s.runWith (fun _ => s.sink) budget

theorem run_eq (s : Session) (budget : Nat) :
    s.run budget = (s.loop budget {}).map fun
      | .ok _ r => .ok () (s.close r)
      | .error e r => .error e r :=
  rfl

end Session

end StackLang
