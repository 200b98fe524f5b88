import StackLang.Emitter.Generate
import StackLang.Program

namespace StackLang

namespace Scope

/-- Gives a name the next slot, unless it has one. -/
def allot (σ : Scope) (x : Label) : Scope :=
  if σ.locals.contains x then σ else { σ with locals := σ.locals.insert x σ.locals.size }

theorem allot_of_some {σ : Scope} {x : Label} {slot : Nat} (h : σ.locals.get? x = some slot) :
    σ.allot x = σ := by
  simp [allot, Table.contains, h]

theorem allot_of_none {σ : Scope} {x : Label} (h : σ.locals.get? x = none) :
    σ.allot x = { σ with locals := σ.locals.insert x σ.locals.size } := by
  simp [allot, Table.contains, h]

end Scope

/-- What the code at a place of a program depends on: the functions declared so far, the slots of
the names, and how many parameters the surrounding function has. -/
structure Context where
  functions : Table FunctionInfo
  scope : Scope
  argc : Nat

namespace Context

def allot (Γ : Context) (x : Label) : Context :=
  { Γ with scope := Γ.scope.allot x }

def load (Γ : Context) (x : Label) : Instruction :=
  match Γ.scope.locals.get? x with
  | some slot => ⟨.loadl, slot⟩
  | none => ⟨.loada, ((Γ.scope.params.get? x).getD 0 : Nat)⟩

def store (Γ : Context) (x : Label) : Instruction :=
  ⟨.storel, ((Γ.scope.locals.get? x).getD 0 : Nat)⟩

def entry (Γ : Context) (f : Label) : Nat :=
  ((Γ.functions.get? f).map (·.address)).getD 0

end Context

namespace Expr

mutual

/-- The code of an expression. Its length does not depend on where it stands. -/
def code (Γ : Context) : Expr → List Instruction
  | num v => [⟨.push, match v with | some (.int n) => n | _ => 0⟩]
  | var x => [Γ.load x]
  | call f args =>
    let body := codeAll Γ args
    [⟨.push, Emitter.placeholder⟩, ⟨.ldpc, body.length + 7⟩] ++ body ++
      [⟨.push, args.length⟩, ⟨.strargc, 0⟩, ⟨.ldbp, 0⟩, ⟨.ldsp, 0⟩, ⟨.strbp, 0⟩,
       ⟨.jmp, Γ.entry f⟩, ⟨.push, Γ.argc⟩, ⟨.strargc, 0⟩]
  | binary op l r => code Γ r ++ code Γ l ++ [⟨.binary op, 0⟩]

def codeAll (Γ : Context) : List Expr → List Instruction
  | [] => []
  | e :: es => code Γ e ++ codeAll Γ es

end

theorem length_code_call (Γ : Context) (f : Label) (args : List Expr) :
    (code Γ (call f args)).length = 2 + (codeAll Γ args).length + 8 := by
  simp [code]
  omega

mutual

/-- The names of an expression can be resolved: its variables have slots, and its calls name
declared functions and have as many arguments as these have parameters. -/
def Resolved (Γ : Context) : Expr → Prop
  | num v => ∃ n, v = some (.int n)
  | var x => Γ.scope.locals.contains x ∨ Γ.scope.params.contains x
  | call f args =>
    (∃ info, Γ.functions.get? f = some info ∧ args.length = info.paramCount) ∧ ResolvedAll Γ args
  | binary _ l r => Resolved Γ r ∧ Resolved Γ l

def ResolvedAll (Γ : Context) : List Expr → Prop
  | [] => True
  | e :: es => Resolved Γ e ∧ ResolvedAll Γ es

end

end Expr

namespace Stmt

mutual

/-- No function is declared in a statement. -/
def Plain : Stmt → Prop
  | assign _ _ => True
  | noop => True
  | ifThen _ t => Plain t
  | ifElse _ t e => Plain t ∧ Plain e
  | loop _ b => Plain b
  | func _ _ _ => False
  | ret _ => True
  | block ss => PlainAll ss

def PlainAll : List Stmt → Prop
  | [] => True
  | s :: ss => Plain s ∧ PlainAll ss

end

mutual

/-- The context behind a statement: every name assigned in it has a slot. -/
def context (Γ : Context) : Stmt → Context
  | assign x _ => Γ.allot x
  | noop => Γ
  | ifThen _ t => context Γ t
  | ifElse _ t e => context (context Γ t) e
  | loop _ b => context Γ b
  | func _ _ _ => Γ
  | ret _ => Γ
  | block ss => contextAll Γ ss

def contextAll (Γ : Context) : List Stmt → Context
  | [] => Γ
  | s :: ss => contextAll (context Γ s) ss

end

mutual

theorem context_keeps : (Γ : Context) → (s : Stmt) →
    (context Γ s).functions = Γ.functions ∧ (context Γ s).argc = Γ.argc ∧
      (context Γ s).scope.params = Γ.scope.params
  | Γ, assign x _ => by
    refine ⟨rfl, rfl, ?_⟩
    simp only [context, Context.allot, Scope.allot]
    split
    · rfl
    · rfl
  | _, noop => ⟨rfl, rfl, rfl⟩
  | Γ, ifThen _ t => context_keeps Γ t
  | Γ, ifElse _ t e => by
    have ht := context_keeps Γ t
    have he := context_keeps (context Γ t) e
    exact ⟨he.1.trans ht.1, he.2.1.trans ht.2.1, he.2.2.trans ht.2.2⟩
  | Γ, loop _ b => context_keeps Γ b
  | _, func _ _ _ => ⟨rfl, rfl, rfl⟩
  | _, ret _ => ⟨rfl, rfl, rfl⟩
  | Γ, block ss => contextAll_keeps Γ ss

theorem contextAll_keeps : (Γ : Context) → (ss : List Stmt) →
    (contextAll Γ ss).functions = Γ.functions ∧ (contextAll Γ ss).argc = Γ.argc ∧
      (contextAll Γ ss).scope.params = Γ.scope.params
  | _, [] => ⟨rfl, rfl, rfl⟩
  | Γ, s :: ss => by
    have hs := context_keeps Γ s
    have hss := contextAll_keeps (context Γ s) ss
    exact ⟨hss.1.trans hs.1, hss.2.1.trans hs.2.1, hss.2.2.trans hs.2.2⟩

end

mutual

/-- The code of a statement that starts at address `a`. A declaration inside a statement has
none. -/
def code (Γ : Context) (a : Nat) : Stmt → List Instruction
  | assign x e =>
    (if Γ.scope.locals.contains x then [] else [⟨.push, Emitter.placeholder⟩]) ++
      e.code (Γ.allot x) ++ [(Γ.allot x).store x]
  | noop => []
  | ifThen c t =>
    let head := c.code Γ
    let body := code Γ (a + head.length + 1) t
    head ++ [⟨.beq0, (a + head.length + 1 + body.length : Nat)⟩] ++ body
  | ifElse c t e =>
    let head := c.code Γ
    let body := code Γ (a + head.length + 1) t
    let other := code (context Γ t) (a + head.length + 1 + body.length + 1) e
    head ++ [⟨.beq0, (a + head.length + 1 + body.length + 1 : Nat)⟩] ++ body ++
      [⟨.jmp, (a + head.length + 1 + body.length + 1 + other.length : Nat)⟩] ++ other
  | loop c b =>
    let head := c.code Γ
    let body := code Γ (a + head.length + 1) b
    head ++ [⟨.beq0, (a + head.length + 1 + body.length + 1 : Nat)⟩] ++ body ++ [⟨.jmp, a⟩]
  | func _ _ _ => []
  | ret e => e.code Γ ++ [⟨.ret, 0⟩]
  | block ss => codeAll Γ a ss

def codeAll (Γ : Context) (a : Nat) : List Stmt → List Instruction
  | [] => []
  | s :: ss => code Γ a s ++ codeAll (context Γ s) (a + (code Γ a s).length) ss

end

section Ends

variable (Γ : Context) (a : Nat) (c : Expr) (t e : Stmt) {b d : Nat}

theorem end_ifThen (hb : b = a + (c.code Γ).length + 1) :
    a + (code Γ a (ifThen c t)).length = b + (t.code Γ b).length := by
  subst hb
  simp only [code, List.length_append, List.length_singleton]
  omega

theorem end_ifElse (hb : b = a + (c.code Γ).length + 1) (hd : d = b + (t.code Γ b).length + 1) :
    a + (code Γ a (ifElse c t e)).length = d + (e.code (t.context Γ) d).length := by
  subst hd hb
  simp only [code, List.length_append, List.length_singleton]
  omega

theorem end_loop (hb : b = a + (c.code Γ).length + 1) :
    a + (code Γ a (loop c t)).length = b + (t.code Γ b).length + 1 := by
  subst hb
  simp only [code, List.length_append, List.length_singleton]
  omega

end Ends

mutual

/-- The names in a statement can be resolved, each where it stands, and no function is declared in
it. -/
def Resolved (Γ : Context) : Stmt → Prop
  | assign x e => e.Resolved (Γ.allot x)
  | noop => True
  | ifThen c t => c.Resolved Γ ∧ Resolved Γ t
  | ifElse c t e => c.Resolved Γ ∧ Resolved Γ t ∧ Resolved (context Γ t) e
  | loop c b => c.Resolved Γ ∧ Resolved Γ b
  | func _ _ _ => False
  | ret e => e.Resolved Γ
  | block ss => ResolvedAll Γ ss

def ResolvedAll (Γ : Context) : List Stmt → Prop
  | [] => True
  | s :: ss => Resolved Γ s ∧ ResolvedAll (context Γ s) ss

end

/-- The context inside a function that is declared at address `a`. -/
def inside (Γ : Context) (a : Nat) (f : Label) (params : List Label) : Context where
  functions := Γ.functions.insert f ⟨a, params.length⟩
  scope := { params := Emitter.paramSlots params }
  argc := params.length

def elementCode (Γ : Context) (a : Nat) : Stmt → List Instruction
  | func f params body => codeAll (inside Γ a f params) a body
  | s => code Γ a s

/-- The context of the next element. A function whose name is that of the top level leaves its own
scope behind. -/
def elementContext (Γ : Context) (a : Nat) : Stmt → Context
  | func f params body =>
    if f = Scope.toplevel then contextAll (inside Γ a f params) body
    else { Γ with functions := Γ.functions.insert f ⟨a, params.length⟩ }
  | s => context Γ s

/-- An element of a program: an assignment, an empty statement, or a function in whose body no
other one is declared. -/
def Element : Stmt → Prop
  | assign _ _ => True
  | noop => True
  | func _ _ body => PlainAll body
  | _ => False

/-- An element is accepted: a declared function is new, and all names can be resolved. -/
def Accepted (Γ : Context) (a : Nat) : Stmt → Prop
  | func f params body =>
    Γ.functions.get? f = none ∧ ResolvedAll (inside Γ a f params) body
  | s => Resolved Γ s

end Stmt

namespace Program

def elementsCode (Γ : Context) (a : Nat) : List Stmt → List Instruction
  | [] => []
  | s :: ss =>
    s.elementCode Γ a ++
      elementsCode (s.elementContext Γ a) (a + (s.elementCode Γ a).length) ss

def elementsContext (Γ : Context) (a : Nat) : List Stmt → Context
  | [] => Γ
  | s :: ss => elementsContext (s.elementContext Γ a) (a + (s.elementCode Γ a).length) ss

def Accepted (Γ : Context) (a : Nat) : List Stmt → Prop
  | [] => True
  | s :: ss =>
    s.Accepted Γ a ∧ Accepted (s.elementContext Γ a) (a + (s.elementCode Γ a).length) ss

def start : Context where
  functions := {}
  scope := {}
  argc := 0

/-- The code of a program: a cell for the result, the jump to the main function, the elements. -/
def code (p : Program) : List Instruction :=
  ⟨.push, 0⟩ :: ⟨.jmp, (elementsContext start 2 p).entry (some (.word "main"))⟩ ::
    elementsCode start 2 p

end Program

end StackLang
