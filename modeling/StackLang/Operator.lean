namespace StackLang

inductive Operator where
  | add | sub | mul | div | mod | lt | gt
deriving DecidableEq, Repr

namespace Operator

def name : Operator → String
  | add => "add"
  | sub => "sub"
  | mul => "mul"
  | div => "div"
  | mod => "mod"
  | lt => "lt"
  | gt => "gt"

def all : List Operator :=
  [add, sub, mul, div, mod, lt, gt]

/-- The value of an operator, if it has one. Quotient and remainder are those of the floor, and a
comparison is `1` or `0`. -/
def eval? : Operator → Int → Int → Option Int
  | add, a, b => some (a + b)
  | sub, a, b => some (a - b)
  | mul, a, b => some (a * b)
  | div, a, b => if b = 0 then none else some (a.fdiv b)
  | mod, a, b => if b = 0 then none else some (a.fmod b)
  | lt, a, b => some (if a < b then 1 else 0)
  | gt, a, b => some (if a > b then 1 else 0)

def symbol : Operator → String
  | add => "+"
  | sub => "-"
  | mul => "*"
  | div => "/"
  | mod => "%"
  | lt => "<"
  | gt => ">"

end Operator

end StackLang
