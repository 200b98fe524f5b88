import StackLang.Grammar.Reader
import StackLang.Program

namespace StackLang.Grammar

open MonadTokens

def productOperator? : Token.Kind → Option Operator
  | .star => some .mul
  | .slash => some .div
  | .percent => some .mod
  | _ => none

def sumOperator? : Token.Kind → Option Operator
  | .plus => some .add
  | .minus => some .sub
  | _ => none

def comparison? : Token.Kind → Option Operator
  | .less => some .lt
  | .greater => some .gt
  | _ => none

variable {m : Type → Type} [Monad m] [MonadTokens m]

-- The first argument of each reader is its recursion budget.
mutual

def factor : Nat → m Expr
  | 0 => fail .budget
  | n + 1 => call do
    let t ← next
    match t.kind with
    | .number => return .num t.value
    | .identifier =>
      if (← peek).kind = .lparen then
        let _ ← next
        let args ← arguments n t.value
        return .call t.value args
      else return .var t.value
    | .lparen =>
      let e ← expression n
      expect .groupEnd
      return e
    | _ => fail (.notFactor t)

/-- The arguments of a call, from behind the opening parenthesis to the closing one. -/
def arguments : Nat → Label → m (List Expr)
  | 0, _ => fail .budget
  | n + 1, callee => call do
    if (← peek).kind = .rparen then
      let _ ← next
      return []
    else
      let e ← expression n
      let es ← argumentsRest n
      expect (.callEnd callee)
      return e :: es

def argumentsRest : Nat → m (List Expr)
  | 0 => fail .budget
  | n + 1 => call do
    if (← peek).kind = .comma then
      let _ ← next
      let e ← expression n
      let es ← argumentsRest n
      return e :: es
    else return []

def term : Nat → m Expr
  | 0 => fail .budget
  | n + 1 => call do
    let e ← factor n
    termRest n e

def termRest : Nat → Expr → m Expr
  | 0, _ => fail .budget
  | n + 1, left => call do
    match productOperator? (← peek).kind with
    | some op =>
      let _ ← next
      let e ← factor n
      termRest n (.binary op left e)
    | none => return left

/-- Products and sums associate to the left. -/
def expression : Nat → m Expr
  | 0 => fail .budget
  | n + 1 => call do
    let e ← term n
    expressionRest n e

/-- The terms that follow `left`. A comparison ends them and takes a whole expression. -/
def expressionRest : Nat → Expr → m Expr
  | 0, _ => fail .budget
  | n + 1, left => call do
    let kind := (← peek).kind
    match comparison? kind with
    | some op =>
      let _ ← next
      let e ← expression n
      return .binary op left e
    | none =>
      match sumOperator? kind with
      | some op =>
        let _ ← next
        let e ← term n
        expressionRest n (.binary op left e)
      | none => return left

end

end StackLang.Grammar
