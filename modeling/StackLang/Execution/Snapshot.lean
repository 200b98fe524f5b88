import StackLang.Instruction.Basic

namespace StackLang

structure Snapshot where
  index : Nat
  pc : Int
  bp : Int
  argc : Int
  instruction : Instruction
  stack : Array Int
deriving DecidableEq, Repr

def showStack (stack : Array Int) : Except Unwritable String :=
  ("[" ++ · ++ "]") <$> Numeral.writeAll ", " stack.toList

namespace Snapshot

def separator : String :=
  String.ofList (List.replicate 63 '-')

/-- Registers and instruction, stack, and a rule below. -/
def render (s : Snapshot) : Except Unwritable String := do
  let pc ← Numeral.write s.pc
  let bp ← Numeral.write s.bp
  let argc ← Numeral.write s.argc
  let name ← s.instruction.opcode.name
  let operand ← Numeral.write s.instruction.operand
  let stack ← showStack s.stack
  return "pc = " ++ pc ++ ", bp = " ++ bp ++ ", argc = " ++ argc ++ ", code = " ++
    name ++ ", " ++ operand ++ "\n" ++ stack ++ "\n" ++ separator

end Snapshot

end StackLang
