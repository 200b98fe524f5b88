import StackLang.Machine.State

namespace StackLang

/-- Where printed values go: the text that is written for a value, or the refusal of it. -/
abbrev Sink := Int → Except Unwritable String

namespace Sink

def silent : Sink :=
  fun _ => .ok ""

def lines : Sink :=
  fun n => (· ++ "\n") <$> Numeral.write n

end Sink

namespace Machine

structure Effect where
  /-- Where to go instead of the next instruction. -/
  target : Option Int := none
  /-- A printed value and what the sink wrote for it. -/
  printed : Option (Int × String) := none
deriving DecidableEq, Repr

/-- The first operand of an operator is the one on top. -/
def operate (op : Operator) : MachineM Unit := do
  let left ← pop
  let right ← pop
  match op.eval? left right with
  | some v => push v
  | none => throw (.divisionByZero op left right)

/-- Return at the top level: the machine halts, with the result in the lowest cell, or nothing
happens. -/
def returnToplevel (halting : Bool) : MachineM Unit := do
  if halting then
    let v ← pop
    write 0 v
    modify fun m => { m with halted := true }

/-- Return from a frame: everything above its result is dropped. Gives the return address. -/
def returnFrame : MachineM Int := do
  let v ← pop
  let cell := (← get).returnCellIndex
  write cell v
  let target ← read (← get).returnAddressIndex
  let bp ← read (← get).bp
  modify fun m => { m with bp := bp }
  truncate cell
  return target

def effect (halting : Bool) (sink : Sink) (i : Instruction) : MachineM Effect := do
  match i.opcode with
  | .push =>
    push i.operand
    return {}
  | .binary op =>
    operate op
    return {}
  | .beq0 =>
    let v ← pop
    return { target := if v = 0 then some i.operand else none }
  | .jmp => return { target := some i.operand }
  | .ret =>
    if (← get).inToplevelFrame then
      returnToplevel halting
      return {}
    else
      let target ← returnFrame
      return { target := some target }
  | .loadl =>
    let v ← read ((← get).localIndex i.operand)
    push v
    return {}
  | .storel =>
    let index := (← get).localIndex i.operand
    let v ← pop
    write index v
    return {}
  | .loada =>
    let v ← read ((← get).paramIndex i.operand)
    push v
    return {}
  | .storea =>
    let index := (← get).paramIndex i.operand
    let v ← pop
    write index v
    return {}
  | .ldbp =>
    push (← get).bp
    return {}
  | .strbp =>
    let v ← pop
    modify fun m => { m with bp := v }
    return {}
  | .ldsp =>
    push (← get).topIndex
    return {}
  | .strsp =>
    let v ← pop
    truncate v
    return {}
  | .ldpc =>
    push ((← get).pc + i.operand)
    return {}
  | .strpc =>
    let v ← pop
    return { target := some v }
  | .ldargc =>
    push (← get).argc
    return {}
  | .strargc =>
    let v ← pop
    modify fun m => { m with argc := v }
    return {}
  | .print =>
    let v ← pop
    match sink v with
    | .ok s => return { printed := some (v, s) }
    | .error cause => throw (.unwritable cause)
  | .unknown mnemonic => throw (.unknownOpcode mnemonic (← get).pc)

/-- A jump must stay in the program; its end is allowed. -/
def jump (op : Opcode) (programSize target : Int) : MachineM Unit :=
  fun m =>
    if 0 ≤ target ∧ target ≤ programSize then .ok () { m with pc := target }
    else .error (.jumpRange op target m.pc programSize) m

/-- Executes one instruction of a program of the given size and sets `pc`, which a failing
instruction leaves alone. Gives what was printed. -/
def execute (halting : Bool) (sink : Sink) (programSize : Int) (i : Instruction) :
    MachineM (Option (Int × String)) := do
  let e ← effect halting sink i
  match e.target with
  | some target => jump i.opcode programSize target
  | none => modify fun m => { m with pc := m.pc + 1 }
  return e.printed

end Machine

end StackLang
