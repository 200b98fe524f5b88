import StackLang.Grammar.Expression

namespace StackLang.Grammar

open MonadTokens

variable {m : Type → Type} [Monad m] [MonadTokens m]

def assignmentExpression (n : Nat) : m Stmt := call do
  let target ← next
  if target.kind = .identifier then
    expect (.assignSign target.value)
    let e ← expression n
    return .assign target.value e
  else fail (.notTarget target)

def assignment (n : Nat) : m Stmt := call do
  if (← peek).kind = .semi then
    let _ ← next
    return .noop
  else
    let s ← assignmentExpression n
    expect .assignmentEnd
    return s

def condition (n : Nat) (keyword : Token.Kind) : m Expr := call do
  expect (.statementStart keyword)
  expect (.conditionStart keyword)
  let e ← expression n
  expect (.conditionEnd keyword)
  return e

/-- A return may stand only in a function; that is looked at before any token is read. -/
def returnStatement (n : Nat) : m Stmt := call do
  if (← getLevel) = 0 then fail .returnOutside
  else
    expect .returnStart
    let e ← expression n
    expect .returnEnd
    return .ret e

/-- The parameters from the token `t` on, to the closing parenthesis. -/
def parametersFrom : Nat → Label → Token → m (List Label)
  | 0, _, _ => fail .budget
  | n + 1, function, t => call do
    if t.kind = .identifier then
      let separator ← next
      match separator.kind with
      | .rparen => return [t.value]
      | .comma =>
        let ps ← parametersFrom n function (← next)
        return t.value :: ps
      | _ => fail (.parametersOpen function separator)
    else fail (.notParameter function t)

def parameters (n : Nat) (function : Label) : m (List Label) := call do
  let t ← next
  if t.kind = .rparen then return [] else parametersFrom n function t

def startsStatement : Token.Kind → Bool
  | .lbrace | .whileWord | .ifWord | .identifier | .semi | .functionWord | .returnWord => true
  | _ => false

mutual

def statement : Nat → m Stmt
  | 0 => fail .budget
  | n + 1 => call do
    let t ← peek
    match t.kind with
    | .lbrace => return .block (← block n)
    | .whileWord => whileStatement n
    | .ifWord => ifStatement n
    | .identifier | .semi => assignment n
    | .functionWord => functionDeclaration n
    | .returnWord => returnStatement n
    | _ => fail (.notStatement t)

/-- At least one statement in braces. -/
def block : Nat → m (List Stmt)
  | 0 => fail .budget
  | n + 1 => call do
    expect .blockStart
    let s ← statement n
    let ss ← statements n
    expect .blockEnd
    return s :: ss

def statements : Nat → m (List Stmt)
  | 0 => fail .budget
  | n + 1 => call do
    if startsStatement (← peek).kind then
      let s ← statement n
      let ss ← statements n
      return s :: ss
    else return []

/-- An `else` belongs to the nearest open `if`. -/
def ifStatement : Nat → m Stmt
  | 0 => fail .budget
  | n + 1 => call do
    let c ← condition n .ifWord
    let s ← statement n
    if (← peek).kind = .elseWord then
      let _ ← next
      let e ← statement n
      return .ifElse c s e
    else return .ifThen c s

def whileStatement : Nat → m Stmt
  | 0 => fail .budget
  | n + 1 => call do
    let c ← condition n .whileWord
    let s ← statement n
    return .loop c s

/-- The level is raised before anything is read, and it is lowered only when the declaration has
been read to its end. -/
def functionDeclaration : Nat → m Stmt
  | 0 => fail .budget
  | n + 1 => call do
    let level ← getLevel
    if 0 < level then fail .nestedFunction
    else
      setLevel (level + 1)
      expect .declarationStart
      let name ← next
      if name.kind = .identifier then
        expect (.parametersStart name.value)
        let params ← parameters n name.value
        let body ← block n
        setLevel ((← getLevel) - 1)
        return .func name.value params body
      else fail (.notFunctionName name)

end

/-- Assignments and function declarations up to an `eof`, which is not read. Every declaration
starts outside all functions. -/
def elements : Nat → m Program
  | 0 => fail .budget
  | n + 1 => call do
    let t ← peek
    match t.kind with
    | .eof => return []
    | .identifier | .semi =>
      let s ← assignment n
      let ss ← elements n
      return s :: ss
    | .functionWord =>
      setLevel 0
      let s ← functionDeclaration n
      let ss ← elements n
      return s :: ss
    | _ => fail (.notTopLevel t)

inductive Nonterminal where
  | factor | term | expression
  | assignmentExpression | assignment | ifStatement | whileStatement | functionDeclaration
  | returnStatement | block | statement | toplevel
deriving DecidableEq, Repr

/-- Reads with a budget that suffices for the unread tokens. -/
def sufficiently {α : Type} (p : Nat → ParseM α) : ParseM α :=
  fun r => (p r.budget).run r

@[simp] theorem run_sufficiently {α : Type} (p : Nat → ParseM α) (r : Reader) :
    (sufficiently p).run r = (p r.budget).run r :=
  rfl

namespace Nonterminal

def read (n : Nat) : Nonterminal → m Tree
  | factor => do return (← Grammar.factor n).toTree
  | term => do return (← Grammar.term n).toTree
  | expression => do return (← Grammar.expression n).toTree
  | assignmentExpression => do return (← Grammar.assignmentExpression n).toTree
  | assignment => do return (← Grammar.assignment n).toTree
  | ifStatement => do return (← Grammar.ifStatement n).toTree
  | whileStatement => do return (← Grammar.whileStatement n).toTree
  | functionDeclaration => do return (← Grammar.functionDeclaration n).toTree
  | returnStatement => do return (← Grammar.returnStatement n).toTree
  | block => do return Stmt.toTree (.block (← Grammar.block n))
  | statement => do return (← Grammar.statement n).toTree
  | toplevel => do return (← Grammar.elements n).toTree

def parse (E : Nonterminal) : ParseM Tree :=
  sufficiently fun n => E.read n

end Nonterminal

end StackLang.Grammar

namespace StackLang

def parseProgram (ts : List Token) : Except ParseError Program :=
  match (Grammar.sufficiently Grammar.elements).run (Reader.ofTokens ts) with
  | .ok p _ => .ok p
  | .error e _ => .error e

end StackLang
