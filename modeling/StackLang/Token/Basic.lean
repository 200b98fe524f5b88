import StackLang.Label

namespace StackLang

namespace Token

inductive Kind where
  | plus | minus | star | slash | percent | less | greater
  | lparen | rparen | lbrace | rbrace | assign | semi | comma
  | ifWord | elseWord | whileWord | functionWord | returnWord
  | identifier | number | eof
deriving DecidableEq, Repr

namespace Kind

/-- How a kind is spelled: punctuation and reserved words as in a source, the others in capitals. -/
def text : Kind → String
  | plus => "+"
  | minus => "-"
  | star => "*"
  | slash => "/"
  | percent => "%"
  | less => "<"
  | greater => ">"
  | lparen => "("
  | rparen => ")"
  | lbrace => "\x7b"
  | rbrace => "\x7d"
  | assign => "="
  | semi => ";"
  | comma => ","
  | ifWord => "if"
  | elseWord => "else"
  | whileWord => "while"
  | functionWord => "function"
  | returnWord => "return"
  | identifier => "IDENTIFIER"
  | number => "NUMBER"
  | eof => "EOF"

def punctuation : List Kind :=
  [plus, minus, star, slash, percent, less, greater, lparen, rparen, lbrace, rbrace, assign, semi,
   comma]

def reserved : List Kind :=
  [ifWord, elseWord, whileWord, functionWord, returnWord]

def all : List Kind :=
  punctuation ++ reserved ++ [identifier, number, eof]

def ofText? (s : String) : Option Kind :=
  all.find? (·.text == s)

def ofPunctuation? (c : Char) : Option Kind :=
  punctuation.find? (·.text == String.singleton c)

def ofReserved? (s : String) : Option Kind :=
  reserved.find? (·.text == s)

end Kind

end Token

structure Token where
  kind : Token.Kind
  value : Label := none
deriving DecidableEq, Repr

namespace Token

def terminal : Token :=
  ⟨.eof, none⟩

/-- A token in a message: its kind, with its label in parentheses. -/
def text (t : Token) : Except Unwritable String :=
  t.value.tagged t.kind.text "(" ")"

end Token

end StackLang
