import StackLang.Emitter.Basic

namespace StackLang.Emitter

/-- The value of a number node. One whose value is a text is refused, even if the text spells an
integer. -/
def number (value : Label) : EmitM Unit :=
  match value with
  | some (.int n) => do let _ ← emit .push n
  | _ => throw (.malformed .missingNumber)

/-- A name means the local variable of that name if there is one by now, else the parameter. -/
def identifier (name : Label) : EmitM Unit := do
  let s ← get
  let scope := s.scope s.current
  match scope.locals.get? name with
  | some slot => do let _ ← emit .loadl slot
  | none =>
    match scope.params.get? name with
    | some slot => do let _ ← emit .loada slot
    | none => throw (.undeclared name s.current)

def callee (name : Label) (argc : Nat) : EmitM FunctionInfo := do
  match (← get).functions.get? name with
  | none => throw (.undefinedFunction name)
  | some info =>
    unless argc = info.paramCount do
      throw (.argumentCount name info.paramCount argc)
    return info

/-- Room for the result, then the return address: gives the address of the `ldpc`. -/
def openCall : EmitM Nat := do
  let _ ← emit .push placeholder
  emit .ldpc placeholder

/-- The jump behind the arguments. Control comes back behind the jump, where the argument count of
the calling function is restored. -/
def closeCall (info : FunctionInfo) (argc ldpcAt : Nat) : EmitM Unit := do
  let _ ← emit .push argc
  emitPlain .strargc
  emitPlain .ldbp
  emitPlain .ldsp
  emitPlain .strbp
  let jumpAt ← emit .jmp info.address
  patch ldpcAt ((jumpAt : Int) - ldpcAt + 1)
  let s ← get
  let _ ← emit .push (((s.functions.get? s.current).map (·.paramCount)).getD 0)
  emitPlain .strargc

/-- The slot of an assigned name. Its first assignment makes room on the stack. -/
def allocate (name : Label) : EmitM Nat := do
  let s ← get
  let scope := s.scope s.current
  match scope.locals.get? name with
  | some slot => return slot
  | none =>
    let slot := scope.locals.size
    set { s with
      scopes := s.scopes.insert s.current { scope with locals := scope.locals.insert name slot } }
    let _ ← emit .push placeholder
    return slot

/-- The slots of the parameters: the last one is next to the frame, and of two parameters with the
same name the one declared first counts. -/
def paramSlots (params : List Label) : Table Nat :=
  (params.reverse.zipIdx).foldl (fun t p => t.insert p.1 p.2) {}

/-- Registers a function at the next address and starts its scope afresh. -/
def declare (name : Label) (params : List Label) : EmitM Unit :=
  modify fun s => { s with
    functions := s.functions.insert name ⟨s.code.size, params.length⟩
    scopes := s.scopes.insert name { params := paramSlots params }
    current := name }

def leave : EmitM Unit :=
  modify fun s => { s with current := Scope.toplevel }

/-- The jump to the main function passes over an assignment at the top level. A warning that cannot
be written is lost. -/
def warnSkipped (assignment : Tree) : EmitM Unit := do
  match assignment.children with
  | [] => throw (.malformed .missingChild)
  | target :: _ =>
    match target.value.text with
    | .error _ => return ()
    | .ok name =>
      modify fun s => { s with
        warnings := s.warnings.push ("Top-level assignment to '" ++ name ++ "' at address " ++
          Numeral.text s.code.size ++ " is skipped by the jump to 'main'") }

mutual

/-- One pass over the tree. A branch is emitted with a placeholder, which is patched as soon as its
target is known. -/
def gen : Tree → EmitM Unit
  | .node kind value children =>
    match kind with
    | .number => number value
    | .identifier => identifier value
    | .call => do
      let info ← callee value children.length
      let ldpcAt ← openCall
      genAll children
      closeCall info children.length ldpcAt
    | .binary op =>
      match children with
      | [left, right] => do
        gen right
        gen left
        emitPlain (.binary op)
      | _ => throw (.malformed (.notTwoChildren children.length))
    | .assignment =>
      match children with
      | [target, e] => do
        let slot ← allocate target.value
        gen e
        let _ ← emit .storel slot
      | _ => throw (.malformed (.notTwoChildren children.length))
    | .noop => return ()
    | .ifStmt =>
      match children with
      | [cond, thenBranch] => do
        gen cond
        let branchAt ← emit .beq0 placeholder
        gen thenBranch
        patch branchAt (← here)
      | cond :: thenBranch :: elseBranch :: _ => do
        gen cond
        let branchAt ← emit .beq0 placeholder
        gen thenBranch
        let skipAt ← emit .jmp placeholder
        patch branchAt (← here)
        gen elseBranch
        patch skipAt (← here)
      | _ => throw (.malformed .missingChild)
    | .whileStmt =>
      match children with
      | [cond, body] => do
        let condAt ← here
        gen cond
        let branchAt ← emit .beq0 placeholder
        gen body
        let _ ← emit .jmp condAt
        patch branchAt (← here)
      | _ => throw (.malformed (.notTwoChildren children.length))
    | .functionDecl => do
      if (← get).functions.contains value then
        throw (.duplicateFunction value)
      match children with
      | [] => throw (.malformed .missingChild)
      | body :: params =>
        declare value (params.map Tree.value)
        gen body
        leave
    | .parameter => throw .strayParameter
    | .returnStmt =>
      match children with
      | [] => throw (.malformed .missingChild)
      | e :: _ => do
        gen e
        emitPlain .ret
    | .block => genAll children
    | .toplevel => do
      let _ ← emit .push 0
      let bootAt ← emit .jmp placeholder
      genElements children
      match (← get).functions.get? (some (.word "main")) with
      | some info => patch bootAt info.address
      | none => throw .missingMain

def genAll : List Tree → EmitM Unit
  | [] => return ()
  | t :: ts => do
    gen t
    genAll ts

def genElements : List Tree → EmitM Unit
  | [] => return ()
  | t :: ts => do
    if t.kind = .assignment then
      warnSkipped t
    gen t
    genElements ts

end

def generate (t : Tree) : EStateM.Result EmitError Emitter Unit :=
  (gen t).run {}

end StackLang.Emitter
