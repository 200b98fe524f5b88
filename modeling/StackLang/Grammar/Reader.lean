import StackLang.Token.Cursor

namespace StackLang

namespace Grammar

/-- The places where one kind of token has to stand. -/
inductive Place where
  | groupEnd
  | callEnd (callee : Label)
  | assignSign (target : Label)
  | assignmentEnd
  | statementStart (keyword : Token.Kind)
  | conditionStart (keyword : Token.Kind)
  | conditionEnd (keyword : Token.Kind)
  | declarationStart
  | parametersStart (function : Label)
  | returnStart
  | returnEnd
  | blockStart
  | blockEnd
deriving DecidableEq, Repr

namespace Place

def kind : Place → Token.Kind
  | groupEnd | callEnd _ | conditionEnd _ => .rparen
  | assignSign _ => .assign
  | assignmentEnd | returnEnd => .semi
  | statementStart keyword => keyword
  | conditionStart _ | parametersStart _ => .lparen
  | declarationStart => .functionWord
  | returnStart => .returnWord
  | blockStart => .lbrace
  | blockEnd => .rbrace

def context : Place → Except Unwritable String
  | groupEnd => .ok "to close '('"
  | callEnd f => ("after arguments of call to '" ++ · ++ "'") <$> f.text
  | assignSign x => ("after '" ++ · ++ "'") <$> x.text
  | assignmentEnd => .ok "at end of assignment"
  | statementStart _ => .ok "at start of statement"
  | conditionStart keyword => .ok ("after '" ++ keyword.text ++ "'")
  | conditionEnd keyword => .ok ("after '" ++ keyword.text ++ "' condition")
  | declarationStart => .ok "at start of declaration"
  | parametersStart f => ("after function name '" ++ · ++ "'") <$> f.text
  | returnStart => .ok "at start of return"
  | returnEnd => .ok "at end of return"
  | blockStart => .ok "at start of block"
  | blockEnd => .ok "at end of block"

/-- The fault of any other token there. -/
def fault : Place → String
  | groupEnd | callEnd _ | conditionEnd _ => "Missing ')'"
  | assignSign _ => "Expected '='"
  | assignmentEnd | returnEnd => "Missing ';'"
  | statementStart _ | declarationStart | returnStart => "Unexpected token"
  | conditionStart _ | parametersStart _ => "Expected '('"
  | blockStart => "Expected '\x7b'"
  | blockEnd => "Missing '\x7d'"

end Place

end Grammar

inductive ParseError where
  | misplaced (place : Grammar.Place) (got : Token)
  /-- The place cannot be put in words. -/
  | unspoken (place : Grammar.Place)
  | notFactor (got : Token)
  | notTarget (got : Token)
  | notFunctionName (got : Token)
  | notParameter (function : Label) (got : Token)
  | parametersOpen (function : Label) (got : Token)
  | notStatement (got : Token)
  | notTopLevel (got : Token)
  | nestedFunction
  | returnOutside
  /-- The recursion budget ran out, which a budget taken from the unread tokens never does. -/
  | budget
deriving DecidableEq, Repr

namespace ParseError

def message (e : ParseError) : Except Unwritable String :=
  ("ParseError: " ++ ·) <$> detail e
where
  detail : ParseError → Except Unwritable String
    | misplaced place got => do
      let context ← place.context
      let got ← got.text
      return place.fault ++ ": expected '" ++ place.kind.text ++ "' " ++ context ++ ", got " ++ got
    | unspoken place => place.context
    | notFactor got =>
      ("Expected number, identifier or '(': expected number, identifier or '(', got " ++ ·) <$>
        got.text
    | notTarget got =>
      ("Expected identifier: left-hand side of assignment must be a variable, got " ++ ·) <$>
        got.text
    | notFunctionName got =>
      ("Expected identifier: expected function name, got " ++ ·) <$> got.text
    | notParameter f got => do
      let f ← f.text
      let got ← got.text
      return "Expected identifier: expected parameter name in declaration of '" ++ f ++ "', got " ++
        got
    | parametersOpen f got => do
      let f ← f.text
      let got ← got.text
      return "Missing ')': expected ',' or ')' in parameters of '" ++ f ++ "', got " ++ got
    | notStatement got =>
      ("Invalid start of statement: a statement cannot start with " ++ ·) <$> got.text
    | notTopLevel got =>
      ("Only assignments and function declarations allowed at top level: got " ++ ·) <$> got.text
    | nestedFunction =>
      .ok "Nested function declaration: functions may only be declared at top level"
    | returnOutside => .ok "Return outside function: 'return' is only valid inside a function"
    | budget => .error .foreignReport

end ParseError

structure Reader where
  cursor : Cursor
  /-- How many function declarations are open. -/
  level : Nat := 0
deriving DecidableEq, Repr

/-- A reading step. A failing one leaves behind the tokens that it has not read. -/
abbrev ParseM := EStateM ParseError Reader

namespace Reader

def ofTokens (ts : List Token) : Reader :=
  { cursor := Cursor.ofTokens ts }

/-- Enough recursion for any reading of the tokens that are left. -/
def budget (r : Reader) : Nat :=
  4 * r.cursor.pending + 8

end Reader

/-- What the readers of the grammar are made of. -/
class MonadTokens (m : Type → Type) where
  next : m Token
  peek : m Token
  getLevel : m Nat
  setLevel : Nat → m Unit
  fail {α : Type} : ParseError → m α
  /-- Stands around the body of each reader, so that calls can be counted. -/
  call {α : Type} : m α → m α

namespace MonadTokens

instance : MonadTokens ParseM where
  next r := .ok r.cursor.next.1 { r with cursor := r.cursor.next.2 }
  peek r := .ok r.cursor.peek r
  getLevel r := .ok r.level r
  setLevel n r := .ok () { r with level := n }
  fail := throw
  call := id

variable {α : Type}

@[simp] theorem run_next (r : Reader) :
    (next : ParseM Token).run r = .ok r.cursor.next.1 { r with cursor := r.cursor.next.2 } :=
  rfl

@[simp] theorem run_peek (r : Reader) : (peek : ParseM Token).run r = .ok r.cursor.peek r :=
  rfl

@[simp] theorem run_getLevel (r : Reader) : (getLevel : ParseM Nat).run r = .ok r.level r :=
  rfl

@[simp] theorem run_setLevel (n : Nat) (r : Reader) :
    (setLevel n : ParseM Unit).run r = .ok () { r with level := n } :=
  rfl

@[simp] theorem run_call (x : ParseM α) (r : Reader) : (call x).run r = x.run r :=
  rfl

end MonadTokens

namespace Grammar

open MonadTokens

variable {m : Type → Type} [Monad m] [MonadTokens m]

/-- Reads one token, which must be of the kind that the place asks for. The place is put in words
first, whatever the token is. -/
def expect (place : Place) : m Unit :=
  match place.context with
  | .error _ => fail (.unspoken place)
  | .ok _ => do
    let t ← next
    if t.kind = place.kind then return () else fail (.misplaced place t)

end Grammar

end StackLang
