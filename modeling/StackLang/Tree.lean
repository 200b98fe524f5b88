import StackLang.Label
import StackLang.Operator

namespace StackLang

namespace Tree

inductive Kind where
  | number | identifier | call
  | binary (op : Operator)
  | assignment | noop | ifStmt | whileStmt | functionDecl | parameter | returnStmt | block
  | toplevel
deriving DecidableEq, Repr

namespace Kind

def text : Kind → String
  | number => "number"
  | identifier => "identifier"
  | call => "call"
  | binary op => op.name
  | assignment => "assignment"
  | noop => "noop"
  | ifStmt => "if"
  | whileStmt => "while"
  | functionDecl => "function_decl"
  | parameter => "parameter"
  | returnStmt => "return"
  | block => "block"
  | toplevel => "toplevel"

def all : List Kind :=
  [number, identifier, call] ++ Operator.all.map binary ++
    [assignment, noop, ifStmt, whileStmt, functionDecl, parameter, returnStmt, block, toplevel]

def ofText? (s : String) : Option Kind :=
  all.find? (·.text == s)

end Kind

end Tree

/-- A kind, a label and any number of children. A tree built by hand may have a shape that no source
text has. -/
inductive Tree where
  | node (kind : Tree.Kind) (value : Label) (children : List Tree)
deriving Repr

namespace Tree

def kind : Tree → Kind
  | node k _ _ => k

def value : Tree → Label
  | node _ v _ => v

def children : Tree → List Tree
  | node _ _ cs => cs

def leaf (k : Kind) (v : Label) : Tree :=
  node k v []

mutual

/-- A tree on one line: a leaf is its head, any other node a list in parentheses. -/
def text : Tree → Except Unwritable String
  | node k v cs => do
    let head ← v.tagged k.text ":" ""
    match cs with
    | [] => return head
    | c :: rest =>
      let parts ← textAll (c :: rest)
      return "(" ++ head ++ " " ++ " ".intercalate parts ++ ")"

def textAll : List Tree → Except Unwritable (List String)
  | [] => return []
  | t :: ts => do
    let s ← text t
    let ss ← textAll ts
    return s :: ss

end

end Tree

end StackLang
