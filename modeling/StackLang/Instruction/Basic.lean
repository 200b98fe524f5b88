import StackLang.Numeral
import StackLang.Operator

namespace StackLang

inductive Opcode where
  | push
  | binary (op : Operator)
  | beq0 | jmp | ret
  | loadl | storel | loada | storea
  | ldbp | strbp | ldsp | strsp | ldpc | strpc | ldargc | strargc
  | print
  /-- No opcode of the machine; it is refused when it is executed. -/
  | unknown (mnemonic : String)
deriving DecidableEq, Repr

namespace Opcode

def mnemonic : Opcode → String
  | push => "push"
  | binary op => op.name
  | beq0 => "beq0"
  | jmp => "jmp"
  | ret => "ret"
  | loadl => "loadl"
  | storel => "storel"
  | loada => "loada"
  | storea => "storea"
  | ldbp => "ldbp"
  | strbp => "strbp"
  | ldsp => "ldsp"
  | strsp => "strsp"
  | ldpc => "ldpc"
  | strpc => "strpc"
  | ldargc => "ldargc"
  | strargc => "strargc"
  | print => "print"
  | unknown s => s

def name : Opcode → Except Unwritable String
  | unknown _ => .error .unknownOpcode
  | op => .ok op.mnemonic

def known : List Opcode :=
  [push] ++ Operator.all.map binary ++
    [beq0, jmp, ret, loadl, storel, loada, storea, ldbp, strbp, ldsp, strsp, ldpc, strpc, ldargc,
     strargc, print]

def ofMnemonic? (s : String) : Option Opcode :=
  known.find? (·.mnemonic == s)

/-- The opcode of a mnemonic, known or not. -/
def ofMnemonic (s : String) : Opcode :=
  (ofMnemonic? s).getD (unknown s)

/-- Whether the operand means something, and so is part of the text. -/
def hasOperand : Opcode → Bool
  | push | beq0 | jmp | loadl | storel | loada | storea | ldpc => true
  | _ => false

end Opcode

structure Instruction where
  opcode : Opcode
  operand : Int := 0
deriving DecidableEq, Repr

namespace Instruction

def text (i : Instruction) : Except Unwritable String :=
  if i.opcode.hasOperand then ((i.opcode.mnemonic ++ " ") ++ ·) <$> Numeral.write i.operand
  else .ok i.opcode.mnemonic

end Instruction

end StackLang
