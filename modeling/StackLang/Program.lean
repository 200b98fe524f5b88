import StackLang.Tree

namespace StackLang

inductive Expr where
  | num (value : Label)
  | var (name : Label)
  | call (callee : Label) (args : List Expr)
  | binary (op : Operator) (left right : Expr)
deriving Repr

inductive Stmt where
  | assign (target : Label) (value : Expr)
  | noop
  | ifThen (cond : Expr) (thenBranch : Stmt)
  | ifElse (cond : Expr) (thenBranch elseBranch : Stmt)
  | loop (cond : Expr) (body : Stmt)
  | func (name : Label) (params : List Label) (body : List Stmt)
  | ret (value : Expr)
  | block (body : List Stmt)
deriving Repr

/-- The top-level elements in source order. -/
abbrev Program := List Stmt

namespace Expr

mutual

def toTree : Expr → Tree
  | num v => .leaf .number v
  | var x => .leaf .identifier x
  | call f args => .node .call f (toTrees args)
  | binary op l r => .node (.binary op) none [l.toTree, r.toTree]

def toTrees : List Expr → List Tree
  | [] => []
  | e :: es => e.toTree :: toTrees es

end

end Expr

namespace Stmt

mutual

/-- The parameters of a function come after its body. -/
def toTree : Stmt → Tree
  | assign x e => .node .assignment none [.leaf .identifier x, e.toTree]
  | noop => .leaf .noop none
  | ifThen c t => .node .ifStmt none [c.toTree, t.toTree]
  | ifElse c t e => .node .ifStmt none [c.toTree, t.toTree, e.toTree]
  | loop c b => .node .whileStmt none [c.toTree, b.toTree]
  | func f params body =>
    .node .functionDecl f (.node .block none (toTrees body) :: params.map (.leaf .parameter))
  | ret e => .node .returnStmt none [e.toTree]
  | block body => .node .block none (toTrees body)

def toTrees : List Stmt → List Tree
  | [] => []
  | s :: ss => s.toTree :: toTrees ss

end

end Stmt

def Program.toTree (p : Program) : Tree :=
  .node .toplevel none (Stmt.toTrees p)

end StackLang
