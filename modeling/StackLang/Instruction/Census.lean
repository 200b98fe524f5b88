import StackLang.Instruction.Basic

namespace StackLang

namespace Census

def increment (s : String) : List (String × Nat) → List (String × Nat)
  | [] => [(s, 1)]
  | (k, n) :: rest => if k = s then (k, n + 1) :: rest else (k, n) :: increment s rest

/-- How often each mnemonic occurs, in the order of first occurrence. -/
def opcodes (program : List Instruction) : List (String × Nat) :=
  program.foldl (fun counts i => increment i.opcode.mnemonic counts) []

def isBranch : Opcode → Bool
  | .beq0 | .jmp => true
  | _ => false

def insertSorted (n : Int) : List Int → List Int
  | [] => [n]
  | m :: ms =>
    if n < m then n :: m :: ms
    else if n = m then m :: ms
    else m :: insertSorted n ms

def branchTargets (program : List Instruction) : List Int :=
  ((program.filter (isBranch ·.opcode)).map (·.operand)).foldr insertSorted []

/-- Every call saves its return address by one `ldpc`. -/
def callSites (program : List Instruction) : Nat :=
  program.countP (·.opcode = .ldpc)

end Census

end StackLang
