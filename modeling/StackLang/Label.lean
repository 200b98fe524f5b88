import StackLang.Numeral

namespace StackLang

inductive Literal where
  | word (s : String)
  | int (n : Int)
deriving DecidableEq, Repr

/-- The literal of a token or a node. Names are labels too: a tree built by hand may leave a name
out or put an integer in its place. -/
abbrev Label := Option Literal

instance : LawfulBEq Label := inferInstance

namespace Literal

def text : Literal → Except Unwritable String
  | word s => .ok s
  | int n => Numeral.write n

end Literal

namespace Label

def text : Label → Except Unwritable String
  | none => .ok "None"
  | some l => l.text

/-- A kind's name, followed by the label if there is one. -/
def tagged (kind opening closing : String) : Label → Except Unwritable String
  | none => .ok kind
  | some l => (kind ++ opening ++ · ++ closing) <$> l.text

end Label

end StackLang
