import StackLang.Proofs.Scoping

namespace StackLang

open Session

namespace Program

variable {p before after : List Stmt} {S : Stmt}

theorem elementsCode_append (Γ : Context) (a : Nat) (q r : List Stmt) :
    elementsCode Γ a (q ++ r) = elementsCode Γ a q ++
      elementsCode (elementsContext Γ a q) (a + (elementsCode Γ a q).length) r := by
  induction q generalizing Γ a with
  | nil => rfl
  | cons S q ih =>
    simp only [List.cons_append, elementsCode, elementsContext, ih, List.append_assoc,
      List.length_append, Nat.add_assoc]

theorem elementsContext_append (Γ : Context) (a : Nat) (q r : List Stmt) :
    elementsContext Γ a (q ++ r) =
      elementsContext (elementsContext Γ a q) (a + (elementsCode Γ a q).length) r := by
  induction q generalizing Γ a with
  | nil => rfl
  | cons S q ih =>
    simp only [List.cons_append, elementsCode, elementsContext, ih, List.length_append,
      Nat.add_assoc]

theorem accepted_append {Γ : Context} {a : Nat} {q r : List Stmt} :
    Accepted Γ a (q ++ r) ↔ Accepted Γ a q ∧
      Accepted (elementsContext Γ a q) (a + (elementsCode Γ a q).length) r := by
  induction q generalizing Γ a with
  | nil => simp [Accepted, elementsCode, elementsContext]
  | cons S q ih =>
    simp only [List.cons_append, Accepted, elementsCode, elementsContext, ih, and_assoc,
      List.length_append, Nat.add_assoc]

/-- Where the code of an element starts that stands behind `before`. -/
def addressAfter (before : List Stmt) : Nat :=
  2 + (elementsCode start 2 before).length

/-- The context of an element that stands behind `before`. -/
def contextAfter (before : List Stmt) : Context :=
  elementsContext start 2 before

theorem addressAfter_concat (before : List Stmt) (S : Stmt) :
    addressAfter (before ++ [S]) = addressAfter before +
      (S.elementCode (contextAfter before) (addressAfter before)).length := by
  simp only [addressAfter, contextAfter, elementsCode_append, elementsCode, List.append_nil,
    List.length_append, Nat.add_assoc]

theorem contextAfter_concat (before : List Stmt) (S : Stmt) :
    contextAfter (before ++ [S]) =
      S.elementContext (contextAfter before) (addressAfter before) := by
  simp only [addressAfter, contextAfter, elementsContext_append, elementsContext]

theorem accepted_element (h : Accepted start 2 p) (hS : p = before ++ S :: after) :
    S.Accepted (contextAfter before) (addressAfter before) := by
  rw [hS, accepted_append] at h
  exact h.2.1

theorem holds_element {s : Session} (hc : s.program.toList = code p)
    (hS : p = before ++ S :: after) :
    s.Holds (addressAfter before) (S.elementCode (contextAfter before) (addressAfter before)) := by
  have helements := holds_elements hc
  rw [hS, elementsCode_append] at helements
  exact helements.append.2.append.1

theorem declared_of_get? {f : Label} {info : FunctionInfo}
    (h : (contextAfter before).functions.get? f = some info) :
    ∃ b params body rest, before = b ++ .func f params body :: rest ∧
      info = ⟨addressAfter b, params.length⟩ := by
  induction before using List.reverseRecOn with
  | nil => cases h
  | append_singleton before S ih =>
    have hbefore : (contextAfter before).functions.get? f = some info →
        ∃ b params body rest, before ++ [S] = b ++ .func f params body :: rest ∧
          info = ⟨addressAfter b, params.length⟩ := by
      intro hold
      obtain ⟨b, params, body, rest, rfl, hinfo⟩ := ih hold
      exact ⟨b, params, body, rest ++ [S], by simp, hinfo⟩
    rw [contextAfter_concat] at h
    cases S with
    | func g params body =>
      rw [elementContext_func, Table.get?_insert] at h
      by_cases hfg : f = g
      · rw [if_pos hfg] at h
        cases h
        subst hfg
        exact ⟨before, params, body, [], rfl, rfl⟩
      · rw [if_neg hfg] at h
        exact hbefore h
    | _ =>
      rw [elementContext_of_not_func _ _ (by simp)] at h
      exact hbefore h

/-- No function has the name of the top level. -/
def Named (p : List Stmt) : Prop :=
  ∀ f params body, .func f params body ∈ p → f ≠ Scope.toplevel

theorem named_of_proper (h : Tree.ProperAll (Stmt.toTrees p)) : Named p := by
  rintro f params body hmem rfl
  obtain ⟨w, hw, hne⟩ := (Stmt.proper_of_mem h hmem).1
  cases hw
  exact hne rfl

/-- At the top level there are the names assigned there, and no parameters. -/
theorem contextAfter_toplevel (h : Named before) :
    (contextAfter before).scope.Numbers (Stmt.assignedAll [] before) [] ∧
      (contextAfter before).argc = 0 := by
  induction before using List.reverseRecOn with
  | nil => exact ⟨⟨rfl, rfl⟩, rfl⟩
  | append_singleton before S ih =>
    have hbefore : Named before := fun f params body hmem =>
      h f params body (List.mem_append_left _ hmem)
    obtain ⟨hscope, hargc⟩ := ih hbefore
    rw [contextAfter_concat, Stmt.assignedAll_append]
    have hkeeps : ∀ S : Stmt, (S.context (contextAfter before)).scope.Numbers
        (S.assigned (Stmt.assignedAll [] before)) [] ∧
          (S.context (contextAfter before)).argc = 0 := by
      intro S
      obtain ⟨-, hk, hp⟩ := Stmt.context_keeps (contextAfter before) S
      exact ⟨⟨Stmt.numbers_context S hscope.locals, hp.trans hscope.params⟩, hk.trans hargc⟩
    cases S with
    | func f params body =>
      have hne := h f params body (List.mem_append_right _ List.mem_cons_self)
      rw [Stmt.elementContext, if_neg hne]
      exact ⟨hscope, hargc⟩
    | _ => exact hkeeps _

end Program

namespace Stmt

/-- The expressions of an element behind `before` whose code starts at address `a`. -/
def sitesFrom (before : List Stmt) (a : Nat) : Stmt → List Site
  | func _ _ body => sitesAll [] a body
  | S => sites (assignedAll [] before) a S

/-- The names that are assigned in the scope of an element of `p`. -/
def scopeNames (p : List Stmt) : Stmt → List Label
  | func _ _ body => assignedAll [] body
  | _ => assignedAll [] p

theorem prefix_assignedAll_element {p before after : List Stmt} {S : Stmt}
    (hS : p = before ++ S :: after) :
    S.assigned (assignedAll [] before) <+: assignedAll [] p := by
  rw [hS, assignedAll_append]
  exact prefix_assignedAll after _

end Stmt

/-- The emitter behind the bootstrap. -/
def Emitter.booted : Emitter :=
  { code := #[⟨.push, 0⟩, ⟨.jmp, Emitter.placeholder⟩] }

/-- The elements are generated behind the bootstrap. After them only its jump is patched. -/
theorem generate_elements {p : Program} {s : Emitter} (h : Emitter.generate p.toTree = .ok () s) :
    ∃ s₁ code, (Emitter.genElements (Stmt.toTrees p)).run Emitter.booted = .ok () s₁ ∧
      s = { s₁ with code := code } := by
  rw [Emitter.generate, Program.toTree, Emitter.gen, run_bind_of_ok (Emitter.run_emit _ _ _),
    run_bind_of_ok (Emitter.run_emit _ _ _)] at h
  simp only [run_bind_eq_ok] at h
  obtain ⟨_, s₁, helements, _, _, hget, h⟩ := h
  cases hget
  split at h
  next info hmain =>
    cases h
    exact ⟨s₁, _, helements, rfl⟩
  next => cases h

theorem generate_functions {p : Program} (hp : ∀ S ∈ p, S.Element) {s : Emitter}
    (h : Emitter.generate p.toTree = .ok () s) :
    s.functions = (Program.contextAfter p).functions := by
  obtain ⟨s₁, code, helements, rfl⟩ := generate_elements h
  obtain ⟨-, -, hcontext, -⟩ := Emitter.gen_elements hp rfl helements
  exact congrArg Context.functions hcontext

theorem functions_of_element {p before after : List Stmt} {f : Label} {params : List Label}
    {body : List Stmt} {s : Emitter} (hp : ∀ S ∈ p, S.Element)
    (h : Emitter.generate (Program.toTree p) = .ok () s)
    (hS : p = before ++ .func f params body :: after) :
    s.functions.get? f = some ⟨Program.addressAfter before, params.length⟩ := by
  obtain ⟨-, haccepted, -⟩ := generate_ok hp h
  rw [generate_functions hp h, Program.contextAfter, hS, Program.elementsContext_append]
  rw [hS, Program.accepted_append] at haccepted
  apply elementsContext_grows haccepted.2.2
  rw [elementContext_func, Table.get?_insert, if_pos rfl]
  rfl

/-- Every expression of an element stands at its address. It was made with the functions declared up
to there, the names assigned up to there, and the parameters of the element. -/
theorem element_placed {s : Session} {p before after : List Stmt} {S : Stmt}
    (hc : s.program.toList = Program.code p) (hp : Program.Accepted Program.start 2 p)
    (hn : Program.Named p) (hS : p = before ++ S :: after) :
    ∀ y ∈ S.sitesFrom before (Program.addressAfter before),
      y.Placed s (Program.contextAfter (before ++ [S])).functions
        (Emitter.paramSlots S.parameters) S.parameters.length (S.scopeNames p) := by
  have haccepted := Program.accepted_element hp hS
  have hholds := Program.holds_element hc hS
  have hbefore : Program.Named before := fun f params body hmem =>
    hn f params body (hS ▸ List.mem_append_left _ hmem)
  rw [Program.contextAfter_concat]
  cases S with
  | func f params body =>
    rw [elementContext_func]
    exact Stmt.placedAll body ⟨rfl, rfl, rfl⟩ ⟨Table.numbers_nil, List.nil_prefix⟩
      List.prefix_rfl haccepted.2 hholds
  | _ =>
    rw [elementContext_of_not_func _ _ (by simp)]
    obtain ⟨hscope, hargc⟩ := Program.contextAfter_toplevel hbefore
    have hprefix := Stmt.prefix_assignedAll_element hS
    exact Stmt.placed _ ⟨rfl, hscope.params, hargc⟩
      ⟨hscope.locals, (Stmt.prefix_assigned _ _).trans hprefix⟩ hprefix haccepted hholds

end StackLang
