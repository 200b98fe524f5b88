import StackLang.Program
import StackLang.Table

namespace StackLang

/-- How an evaluation ends. -/
inductive Answer (α : Type) where
  | done (a : α)
  /-- There is no result: a variable without a value, a division by zero, a missing return. -/
  | stuck
  /-- The fuel was not enough. -/
  | exhausted
deriving DecidableEq, Repr

namespace Answer

variable {α β : Type}

def bind (x : Answer α) (f : α → Answer β) : Answer β :=
  match x with
  | done a => f a
  | stuck => stuck
  | exhausted => exhausted

def ofOption : Option α → Answer α
  | some a => done a
  | none => stuck

instance : Monad Answer where
  pure := done
  bind := bind

end Answer

namespace Expr

mutual

/-- The value of an expression, given the values of names and the results of calls. Of two operands
the right one is evaluated first, of several arguments the leftmost. -/
def eval (invoke : Label → List Int → Answer Int) (value : Label → Option Int) :
    Expr → Answer Int
  | num (some (.int n)) => .done n
  | num _ => .stuck
  | var x => .ofOption (value x)
  | call f args => do
    let vs ← evalAll invoke value args
    invoke f vs
  | binary op l r => do
    let b ← eval invoke value r
    let a ← eval invoke value l
    .ofOption (op.eval? a b)

def evalAll (invoke : Label → List Int → Answer Int) (value : Label → Option Int) :
    List Expr → Answer (List Int)
  | [] => .done []
  | e :: es => do
    let v ← eval invoke value e
    let vs ← evalAll invoke value es
    .done (v :: vs)

end

end Expr

/-- How a statement ends that ends at all: with the local variables at its end, or by a return. -/
inductive Completion where
  | normal (env : Table Int)
  | returned (v : Int)

def noteName (names : List Label) (x : Label) : List Label :=
  if x ∈ names then names else names ++ [x]

namespace Stmt

mutual

/-- The names assigned up to the end of a statement, in the order of their first assignments, if
`names` are those assigned before it. -/
def assigned (names : List Label) : Stmt → List Label
  | assign x _ => noteName names x
  | noop => names
  | ifThen _ t => assigned names t
  | ifElse _ t e => assigned (assigned names t) e
  | loop _ b => assigned names b
  | func _ _ _ => names
  | ret _ => names
  | block ss => assignedAll names ss

def assignedAll (names : List Label) : List Stmt → List Label
  | [] => names
  | s :: ss => assignedAll (assigned names s) ss

end

/-- Repeats a loop until its condition is zero or its body returns. -/
def iterate (test : Table Int → Answer Int) (body : Table Int → Answer Completion) :
    Nat → Table Int → Answer Completion
  | 0, _ => .exhausted
  | fuel + 1, env => do
    let v ← test env
    if v = 0 then .done (.normal env)
    else
      match ← body env with
      | .normal env => iterate test body fuel env
      | .returned v => .done (.returned v)

/-- What a name stands for, if `names` have been assigned at or before it in the text: the local
variable if it is one of these, else the parameter. -/
def valueOf (arg : Label → Option Int) (names : List Label) (env : Table Int) (x : Label) :
    Option Int :=
  if x ∈ names then env.get? x else arg x

mutual

/-- Executes a statement in front of which `names` have been assigned in the text. No loop in it is
repeated more than `fuel` times. -/
def exec (invoke : Label → List Int → Answer Int) (fuel : Nat) (arg : Label → Option Int)
    (names : List Label) (env : Table Int) : Stmt → Answer Completion
  | assign x e => do
    let v ← e.eval invoke (valueOf arg (noteName names x) env)
    .done (.normal (env.insert x v))
  | noop => .done (.normal env)
  | ifThen c t => do
    let v ← c.eval invoke (valueOf arg names env)
    if v = 0 then .done (.normal env) else exec invoke fuel arg names env t
  | ifElse c t e => do
    let v ← c.eval invoke (valueOf arg names env)
    if v = 0 then exec invoke fuel arg (assigned names t) env e
    else exec invoke fuel arg names env t
  | loop c b =>
    iterate (fun env => c.eval invoke (valueOf arg names env))
      (fun env => exec invoke fuel arg names env b) fuel env
  | func _ _ _ => .stuck
  | ret e => do
    let v ← e.eval invoke (valueOf arg names env)
    .done (.returned v)
  | block ss => execAll invoke fuel arg names env ss

def execAll (invoke : Label → List Int → Answer Int) (fuel : Nat) (arg : Label → Option Int)
    (names : List Label) (env : Table Int) : List Stmt → Answer Completion
  | [] => .done (.normal env)
  | s :: ss => do
    match ← exec invoke fuel arg names env s with
    | .normal env => execAll invoke fuel arg (assigned names s) env ss
    | .returned v => .done (.returned v)

end

end Stmt

namespace Program

def find? (p : Program) (f : Label) : Option (List Label × List Stmt) :=
  p.findSome? fun
    | .func g params body => if g = f then some (params, body) else none
    | _ => none

/-- The value of a parameter: of several with the same name the first one counts, and without an
argument there is none. -/
def argument (params : List Label) (args : List Int) (x : Label) : Option Int :=
  (params.zip args).lookup x

/-- The result of a call, in which calls are nested less than `fuel` deep and no loop is repeated
more often. A body that ends without a return gives none. -/
def invoke (p : Program) : Nat → Label → List Int → Answer Int
  | 0, _, _ => .exhausted
  | fuel + 1, f, args => do
    let (params, body) ← .ofOption (p.find? f)
    match ← Stmt.execAll (p.invoke fuel) fuel (argument params args) [] {} body with
    | .returned v => .done v
    | .normal _ => .stuck

def mainName : Label :=
  some (.word "main")

/-- The program has a result: its main function, called without arguments, returns it. -/
def Returns (p : Program) (v : Int) : Prop :=
  ∃ fuel, p.invoke fuel mainName [] = .done v

/-- The program runs for ever: no fuel is enough for it. -/
def Diverges (p : Program) : Prop :=
  ∀ fuel, p.invoke fuel mainName [] = .exhausted

end Program

end StackLang
