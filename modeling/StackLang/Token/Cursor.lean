import StackLang.Token.Basic

namespace StackLang

/-- A token list that is read one by one, with tokens put back in front. Past its end it goes on
with its terminal token for ever, and that is an `eof`. -/
structure Cursor where
  /-- Tokens put back, the last one first. -/
  pushback : List Token := []
  unread : List Token
  terminal : Token := Token.terminal
  terminal_kind : terminal.kind = .eof := by rfl
deriving DecidableEq, Repr

namespace Cursor

/-- The last token of a list if it is an `eof`, else a plain `eof`. -/
def terminalOf (ts : List Token) : Token :=
  match ts.getLast? with
  | some t => if t.kind = .eof then t else Token.terminal
  | none => Token.terminal

theorem terminalOf_kind (ts : List Token) : (terminalOf ts).kind = .eof := by
  unfold terminalOf
  split
  · split
    next h => exact h
    next => rfl
  · rfl

def ofTokens (ts : List Token) : Cursor :=
  { unread := ts, terminal := terminalOf ts, terminal_kind := terminalOf_kind ts }

def next (c : Cursor) : Token × Cursor :=
  match c.pushback with
  | t :: ts => (t, { c with pushback := ts })
  | [] =>
    match c.unread with
    | t :: ts => (t, { c with unread := ts })
    | [] => (c.terminal, c)

def unget (t : Token) (c : Cursor) : Cursor :=
  { c with pushback := t :: c.pushback }

def peek (c : Cursor) : Token :=
  c.next.1

/-- How many tokens are left in front of the endless terminal ones. -/
def pending (c : Cursor) : Nat :=
  c.pushback.length + c.unread.length

end Cursor

end StackLang
