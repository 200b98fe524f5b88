import StackLang.Instruction.Basic
import StackLang.Text.Quoted

namespace StackLang

inductive Fault where
  | stackUnderflow (pc : Int)
  | readRange (index : Int) (size : Nat) (pc : Int)
  | writeRange (index pc : Int)
  | topRange (top : Int) (size : Nat)
  | divisionByZero (op : Operator) (left right : Int)
  | jumpRange (op : Opcode) (target pc programSize : Int)
  | unknownOpcode (mnemonic : String) (pc : Int)
  | stepLimit (steps : Nat) (pc : Int)
  /-- A write so far above the top that no stack could hold the cells between. -/
  | stackTooLarge
  | unwritable (cause : Unwritable)
deriving DecidableEq, Repr

namespace Fault

def message : Fault → Except Unwritable String
  | stackUnderflow pc =>
    ("VMError: Stack underflow: pop from empty stack at pc=" ++ ·) <$> Numeral.write pc
  | readRange index size pc => do
    let index ← Numeral.write index
    let size ← Numeral.write size
    let pc ← Numeral.write pc
    return "VMError: Stack slot out of range: read of index " ++ index ++ " with stack size " ++
      size ++ " at pc=" ++ pc
  | writeRange index pc => do
    let index ← Numeral.write index
    let pc ← Numeral.write pc
    return "VMError: Stack slot out of range: write to index " ++ index ++ " at pc=" ++ pc
  | topRange top size => do
    let top ← Numeral.write top
    let size ← Numeral.write size
    return "VMError: Stack slot out of range: cannot set stack top to " ++ top ++
      " with stack size " ++ size
  | divisionByZero op left right => do
    let left ← Numeral.write left
    let right ← Numeral.write right
    return "VMError: Division by zero: " ++ left ++ " " ++ op.symbol ++ " " ++ right
  | jumpRange op target pc programSize => do
    let target ← Numeral.write target
    let pc ← Numeral.write pc
    let programSize ← Numeral.write programSize
    return "VMError: Invalid jump target: " ++ op.mnemonic ++ " to " ++ target ++ " from pc=" ++
      pc ++ " (program size " ++ programSize ++ ")"
  | unknownOpcode mnemonic pc =>
    (("VMError: Unknown opcode: " ++ Text.quoted mnemonic ++ " at pc=") ++ ·) <$> Numeral.write pc
  | stepLimit steps pc => do
    let steps ← Numeral.write steps
    let pc ← Numeral.write pc
    return "VMError: Step limit exceeded: stopped after " ++ steps ++ " steps at pc=" ++ pc
  | stackTooLarge => .ok "cannot fit 'int' into an index-sized integer"
  | unwritable cause => .error cause

end Fault

/-- One growing stack of integers, and four registers. The stack holds operands, frames and
variables alike. In a frame with `argc` arguments, counted from `bp`:

* `bp - argc - 2` is the cell for the result,
* `bp - argc - 1` the return address,
* `bp - n - 1` parameter `n`,
* `bp` the caller's `bp`,
* `bp + n + 1` local variable `n`.

At the top level `bp` is `0`, and so is the cell for the result. -/
structure Machine where
  /-- The bottom of the stack comes first. -/
  stack : Array Int := #[]
  pc : Int := 0
  bp : Int := 0
  argc : Int := 0
  halted : Bool := false
deriving DecidableEq, Repr

/-- A step of the machine. A failing one leaves behind what it has changed. -/
abbrev MachineM := EStateM Fault Machine

namespace Machine

def localIndex (m : Machine) (slot : Int) : Int :=
  m.bp + slot + 1

def paramIndex (m : Machine) (slot : Int) : Int :=
  m.bp - slot - 1

def returnCellIndex (m : Machine) : Int :=
  m.bp - m.argc - 2

def returnAddressIndex (m : Machine) : Int :=
  m.bp - m.argc - 1

def inToplevelFrame (m : Machine) : Bool :=
  m.bp = 0

/-- The index of the topmost cell, `-1` if there is none. -/
def topIndex (m : Machine) : Int :=
  (m.stack.size : Int) - 1

def push (v : Int) : MachineM Unit :=
  fun m => .ok () { m with stack := m.stack.push v }

def pop : MachineM Int :=
  fun m =>
    match m.stack.back? with
    | some v => .ok v { m with stack := m.stack.pop }
    | none => .error (.stackUnderflow m.pc) m

def read (index : Int) : MachineM Int :=
  fun m =>
    match (if 0 ≤ index then m.stack[index.toNat]? else none) with
    | some v => .ok v m
    | none => .error (.readRange index m.stack.size m.pc) m

/-- The content of a cell that has been skipped by a write above the top. -/
def filler : Int := -1

def maxGrowth : Nat := 1 <<< 63 - 1

/-- Writes a cell; a write above the top fills the cells between. -/
def write (index v : Int) : MachineM Unit :=
  fun m =>
    if index < 0 then .error (.writeRange index m.pc) m
    else
      let i := index.toNat
      if i < m.stack.size then .ok () { m with stack := m.stack.setIfInBounds i v }
      else if maxGrowth < i - m.stack.size + 1 then .error .stackTooLarge m
      else
        .ok () { m with
          stack := (m.stack ++ Array.replicate (i - m.stack.size) filler).push v }

def truncate (top : Int) : MachineM Unit :=
  fun m =>
    if -1 ≤ top ∧ top < m.stack.size then
      .ok () { m with stack := m.stack.shrink (top + 1).toNat }
    else .error (.topRange top m.stack.size) m

@[simp] theorem run_push (v : Int) (m : Machine) :
    (push v).run m = .ok () { m with stack := m.stack.push v } :=
  rfl

theorem run_pop (m : Machine) :
    pop.run m =
      match m.stack.back? with
      | some v => .ok v { m with stack := m.stack.pop }
      | none => .error (.stackUnderflow m.pc) m :=
  rfl

end Machine

end StackLang
