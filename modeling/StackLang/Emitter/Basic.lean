import StackLang.Instruction.Basic
import StackLang.Table
import StackLang.Tree

namespace StackLang

/-- A tree that is no program: the number or the content of its children is wrong. -/
inductive Malformed where
  | notTwoChildren (count : Nat)
  | missingChild
  | missingNumber
deriving DecidableEq, Repr

def Malformed.message : Malformed → Except Unwritable String
  | notTwoChildren n =>
    if n < 2 then
      ("not enough values to unpack (expected 2, got " ++ · ++ ")") <$> Numeral.write n
    else .ok "too many values to unpack (expected 2)"
  | missingChild => .ok "list index out of range"
  | missingNumber => .error .foreignReport

inductive EmitError where
  | strayParameter
  | undeclared (name scope : Label)
  | undefinedFunction (name : Label)
  | argumentCount (name : Label) (expected given : Nat)
  | duplicateFunction (name : Label)
  | missingMain
  | malformed (fault : Malformed)
deriving DecidableEq, Repr

structure FunctionInfo where
  address : Nat
  paramCount : Nat
deriving DecidableEq, Repr

/-- The slots of the names of one function. -/
structure Scope where
  locals : Table Nat := {}
  params : Table Nat := {}
deriving Repr

namespace Scope

/-- The name of the scope outside all functions. -/
def toplevel : Label :=
  some (.word "")

/-- A scope in a message: an empty name stands for the top level. -/
def describe : Label → Except Unwritable String
  | none | some (.word "") | some (.int 0) => .ok "<toplevel>"
  | some l => l.text

end Scope

namespace EmitError

def message : EmitError → Except Unwritable String
  | strayParameter => .ok "CodeGenError: Unknown AST node: NodeKind.PARAMETER"
  | undeclared name scope => do
    let name ← name.text
    let scope ← Scope.describe scope
    return "CodeGenError: Undeclared variable: '" ++ name ++ "' in " ++ scope
  | undefinedFunction name =>
    ("CodeGenError: Call to undefined function: '" ++ · ++ "'") <$> name.text
  | argumentCount name expected given => do
    let name ← name.text
    let expected ← Numeral.write expected
    let given ← Numeral.write given
    return "CodeGenError: Argument count mismatch: '" ++ name ++ "' takes " ++ expected ++
      " arguments, " ++ given ++ " given"
  | duplicateFunction name =>
    ("CodeGenError: Duplicate function definition: '" ++ · ++ "'") <$> name.text
  | missingMain =>
    .ok ("CodeGenError: No 'main' function: " ++
      "declare 'function main() \x7b ... \x7d' as the entry point")
  | malformed fault => fault.message

end EmitError

/-- Generation starts without code, with empty tables, at the top level. -/
structure Emitter where
  code : Array Instruction := #[]
  functions : Table FunctionInfo := {}
  scopes : Table Scope := {}
  /-- The function whose code is generated. -/
  current : Label := Scope.toplevel
  warnings : Array String := #[]
deriving Repr

/-- A step of code generation. A failing one leaves behind what it has registered. -/
abbrev EmitM := EStateM EmitError Emitter

namespace Emitter

/-- The scope of a function; one never entered is empty. -/
def scope (s : Emitter) (function : Label) : Scope :=
  (s.scopes.get? function).getD {}

def here : EmitM Nat :=
  fun s => .ok s.code.size s

def emit (op : Opcode) (operand : Int) : EmitM Nat :=
  fun s => .ok s.code.size { s with code := s.code.push ⟨op, operand⟩ }

def emitPlain (op : Opcode) : EmitM Unit :=
  fun s => .ok () { s with code := s.code.push ⟨op, 0⟩ }

/-- Gives the instruction at `address` its final operand. -/
def patch (address : Nat) (operand : Int) : EmitM Unit :=
  fun s => .ok () { s with code := s.code.modify address fun i => { i with operand := operand } }

@[simp] theorem run_here (s : Emitter) : here.run s = .ok s.code.size s :=
  rfl

@[simp] theorem run_emit (op : Opcode) (operand : Int) (s : Emitter) :
    (emit op operand).run s = .ok s.code.size { s with code := s.code.push ⟨op, operand⟩ } :=
  rfl

@[simp] theorem run_patch (address : Nat) (operand : Int) (s : Emitter) :
    (patch address operand).run s =
      .ok () { s with code := s.code.modify address fun i => { i with operand := operand } } :=
  rfl

/-- What a slot or a cell holds until its first write, and what a branch has for a target until
that is known. -/
def placeholder : Int := -1

end Emitter

end StackLang
