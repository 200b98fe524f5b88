import StackLang.Proofs.Labels
import StackLang.Proofs.Sites

namespace StackLang

namespace Program

def functionNames (p : List Stmt) : List Label :=
  p.filterMap fun
    | .func f _ _ => some f
    | _ => none

/-- How many parameters a declared function has. -/
def arity (declared : List Stmt) (f : Label) : Option Nat :=
  (find? declared f).map (·.1.length)

end Program

/-- What is wrong with an expression, its parts apart, if the functions `declared` can be called
there and the surrounding function has these parameters. -/
def Site.faults (declared : List Stmt) (params : List Label) (scope : Label) (y : Site) :
    List EmitError :=
  match y.expr with
  | .num _ => []
  | .var x => if x ∈ y.names ∨ x ∈ params then [] else [.undeclared x scope]
  | .call f args =>
    match Program.arity declared f with
    | none => [.undefinedFunction f]
    | some n => if args.length = n then [] else [.argumentCount f n args.length]
  | .binary _ _ _ => []

namespace Stmt

/-- The expressions of an element of a program that stands behind the elements `before`. -/
def elementSites (before : List Stmt) : Stmt → List Site
  | func _ _ body => sitesAll [] 0 body
  | S => sites (assignedAll [] before) 0 S

def parameters : Stmt → List Label
  | func _ params _ => params
  | _ => []

/-- The scope that the names in an element belong to. -/
def scopeName : Stmt → Label
  | func f _ _ => f
  | _ => Scope.toplevel

def clash (before : List Stmt) : Stmt → List EmitError
  | func f _ _ => if f ∈ Program.functionNames before then [.duplicateFunction f] else []
  | _ => []

/-- What is wrong with an element, in the order in which it is found. -/
def faults (before : List Stmt) (S : Stmt) : List EmitError :=
  S.clash before ++
    (S.elementSites before).flatMap (Site.faults (before ++ [S]) S.parameters S.scopeName)

end Stmt

namespace Program

def faultsFrom (before : List Stmt) : List Stmt → List EmitError
  | [] => []
  | S :: ss => S.faults before ++ faultsFrom (before ++ [S]) ss

/-- What is wrong with a program, in the order in which it is found. -/
def faults (p : Program) : List EmitError :=
  faultsFrom [] p ++ if mainName ∈ functionNames p then [] else [.missingMain]

/-- A call may name a function declared before it or the one it stands in, and has as many
arguments as that one has parameters. A name may be read that is a parameter or was assigned in
the text up to there. -/
structure WellFormed (p : Program) : Prop where
  distinct : (functionNames p).Nodup
  main : mainName ∈ functionNames p
  calls : ∀ before S after, p = before ++ S :: after → ∀ y ∈ S.elementSites before,
    ∀ f args, y.expr = .call f args →
      ∃ params body, Stmt.func f params body ∈ before ++ [S] ∧ args.length = params.length
  reads : ∀ before S after, p = before ++ S :: after → ∀ y ∈ S.elementSites before,
    ∀ x, y.expr = .var x → x ∈ y.names ∨ x ∈ S.parameters

end Program

/-- The message of the error can be written, if the counts in it can. -/
def EmitError.Reportable (e : EmitError) : Prop :=
  (∀ f n given, e = .argumentCount f n given → n < 10 ^ maxDigits ∧ given < 10 ^ maxDigits) →
    ∃ text, e.message = .ok ("CodeGenError: " ++ text)

namespace Emitter

/-- Generation ends as the list of what is wrong says: with code if there is nothing, and
otherwise with the first thing. -/
def Answers {α : Type} (r : EStateM.Result EmitError Emitter α) (faults : List EmitError) : Prop :=
  match r with
  | .ok _ _ => faults = []
  | .error e _ => faults.head? = some e ∧ e.Reportable

theorem Answers.bind {α β : Type} {x : EmitM α} {f : α → EmitM β} {s : Emitter}
    {fs gs : List EmitError} (hx : Answers (x.run s) fs)
    (hf : ∀ a s', x.run s = .ok a s' → Answers ((f a).run s') gs) :
    Answers ((x >>= f).run s) (fs ++ gs) := by
  rw [EStateM.run_bind]
  cases hr : x.run s with
  | ok a s' =>
    rw [hr] at hx
    rw [show fs = [] from hx]
    exact hf a s' hr
  | error e s' =>
    rw [hr] at hx
    refine ⟨?_, hx.2⟩
    rw [List.head?_append, hx.1]
    rfl

theorem Answers.bind_last {α β : Type} {x : EmitM α} {f : α → EmitM β} {s : Emitter}
    {fs : List EmitError} (hx : Answers (x.run s) fs)
    (hf : ∀ a s', Answers ((f a).run s') []) : Answers ((x >>= f).run s) fs := by
  have h := hx.bind fun a s' _ => hf a s'
  rwa [List.append_nil] at h

/-- What the emitter knows when an element is generated: the functions that can be called, the
parameters, and the names assigned so far. -/
structure Knows (s : Emitter) (declared : List Stmt) (params : List Label) (scope : Label)
    (names : List Label) : Prop where
  functions : ∀ f, (s.context.functions.get? f).map (·.paramCount) = Program.arity declared f
  params : ∀ x, s.context.scope.params.contains x = true ↔ x ∈ params
  locals : s.context.scope.locals.Numbers names
  current : s.current = scope
  described : ∃ text, Scope.describe scope = .ok text

section Elements

variable {declared : List Stmt} {params : List Label} {scope : Label} {names : List Label}
  {s s' : Emitter}

namespace Knows

theorem contains_locals (h : s.Knows declared params scope names) (x : Label) :
    s.context.scope.locals.contains x = true ↔ x ∈ names :=
  h.locals.contains x

theorem emits {c : List Instruction} {Γ : Context} {names' : List Label}
    (h : s.Knows declared params scope names) (he : Emits s c Γ s')
    (hf : Γ.functions = s.context.functions) (hp : Γ.scope.params = s.context.scope.params)
    (hl : Γ.scope.locals.Numbers names') : s'.Knows declared params scope names' where
  functions f := by
    rw [he.context, hf]
    exact h.functions f
  params x := by
    rw [he.context, hp]
    exact h.params x
  locals := by
    rw [he.context]
    exact hl
  current := he.current.trans h.current
  described := h.described

theorem stay {c : List Instruction} (h : s.Knows declared params scope names)
    (he : Emits s c s.context s') : s'.Knows declared params scope names :=
  h.emits he rfl rfl h.locals

theorem recode (h : s.Knows declared params scope names) (code : Array Instruction)
    (warnings : Array String) :
    Knows { s with code := code, warnings := warnings } declared params scope names :=
  ⟨h.functions, h.params, h.locals, h.current, h.described⟩

theorem context {c : List Instruction} (h : s.Knows declared params scope names) (S : Stmt)
    (he : Emits s c (S.context s.context) s') :
    s'.Knows declared params scope (S.assigned names) := by
  obtain ⟨hf, -, hp⟩ := Stmt.context_keeps s.context S
  exact h.emits he hf hp (Stmt.numbers_context S h.locals)

end Knows

theorem text_name {x : Label} (h : x.Name) : ∃ w, x.text = .ok w := by
  obtain ⟨w, rfl, -⟩ := h
  exact ⟨w, rfl⟩

theorem identifier_answers {x : Label} (hx : x.Name) (h : s.Knows declared params scope names)
    (a : Nat) : Answers ((identifier x).run s)
      (Site.faults declared params scope ⟨.var x, names, a⟩) := by
  have hlocal := h.contains_locals x
  have hparam := h.params x
  simp only [identifier, EStateM.run_bind, EStateM.run_get]
  cases hl : (s.scope s.current).locals.get? x with
  | some slot =>
    have hn : x ∈ names := hlocal.mp (by simp [Emitter.context, Table.contains, hl])
    exact if_pos (.inl hn)
  | none =>
    have hn : x ∉ names := by
      rw [← hlocal]
      simp [Emitter.context, Table.contains, hl]
    cases hp : (s.scope s.current).params.get? x with
    | some slot =>
      have hk : x ∈ params := hparam.mp (by simp [Emitter.context, Table.contains, hp])
      exact if_pos (.inr hk)
    | none =>
      have hk : x ∉ params := by
        rw [← hparam]
        simp [Emitter.context, Table.contains, hp]
      have hfault : Site.faults declared params scope ⟨.var x, names, a⟩ =
          [.undeclared x scope] := if_neg (by simp [hn, hk])
      rw [hfault]
      refine ⟨by rw [h.current]; rfl, fun _ => ?_⟩
      obtain ⟨w, hw⟩ := text_name hx
      obtain ⟨v, hv⟩ := h.described
      refine ⟨"Undeclared variable: '" ++ w ++ "' in " ++ v, ?_⟩
      rw [h.current, EmitError.message, hw, hv]
      simp only [bind, Except.bind, pure, Except.pure, ← String.append_assoc]
      rfl

theorem callee_answers {f : Label} (hf : f.Name) (h : s.Knows declared params scope names)
    (args : List Expr) (a : Nat) : Answers ((callee f args.length).run s)
      (Site.faults declared params scope ⟨.call f args, names, a⟩) := by
  obtain ⟨w, hw⟩ := text_name hf
  have hget := h.functions f
  simp only [callee, EStateM.run_bind, EStateM.run_get, Site.faults, ← hget]
  cases hg : s.functions.get? f with
  | none =>
    simp only [Emitter.context, hg, Option.map_none]
    refine ⟨rfl, fun _ => ⟨"Call to undefined function: '" ++ w ++ "'", ?_⟩⟩
    rw [EmitError.message, hw]
    simp only [← String.append_assoc]
    rfl
  | some info =>
    simp only [Emitter.context, hg, Option.map_some]
    by_cases hn : args.length = info.paramCount
    · simp only [hn, if_true]
      rfl
    · simp only [hn, if_false]
      refine ⟨rfl, fun hcounts => ?_⟩
      obtain ⟨hexpected, hgiven⟩ := hcounts f info.paramCount args.length rfl
      refine ⟨"Argument count mismatch: '" ++ w ++ "' takes " ++ Numeral.text info.paramCount ++
        " arguments, " ++ Numeral.text args.length ++ " given", ?_⟩
      have hwrite : ∀ n : Nat, n < 10 ^ maxDigits → Numeral.write n = .ok (Numeral.text n) := by
        intro n h
        have hn : Numeral.Writable n := Numeral.writable_iff.mpr h
        exact if_pos hn
      rw [EmitError.message, hw, hwrite _ hexpected, hwrite _ hgiven]
      simp only [bind, Except.bind, pure, Except.pure, ← String.append_assoc]
      rfl

mutual

theorem gen_expr_answers : (e : Expr) → e.toTree.Proper → {s : Emitter} →
    s.Knows declared params scope names → (a : Nat) →
    Answers ((gen e.toTree).run s) ((e.sites names a).flatMap (Site.faults declared params scope))
  | .num v, hproper, s, h, a => by
    obtain ⟨n, rfl⟩ := hproper.1
    rw [Expr.toTree, Tree.leaf, gen]
    rfl
  | .var x, hproper, s, h, a => by
    rw [Expr.toTree, Tree.leaf, gen, Expr.sites, List.flatMap_singleton]
    exact identifier_answers hproper.1 h a
  | .call f args, hproper, s, h, a => by
    rw [Expr.toTree, gen, Expr.sites, List.flatMap_cons, Expr.length_toTrees]
    refine (callee_answers hproper.1 h args a).bind fun info s₁ hcallee => ?_
    obtain ⟨rfl, -, -⟩ := callee_ok hcallee
    obtain ⟨ldpcAt, s₂, hopen⟩ : ∃ ldpcAt s₂, openCall.run s₁ = .ok ldpcAt s₂ := ⟨_, _, rfl⟩
    rw [run_bind_of_ok hopen]
    have hargs := gen_exprs_answers args hproper.2 (h.stay (openCall_ok hopen).2) (a + 2)
    exact hargs.bind_last fun _ _ => rfl
  | .binary op l r, hproper, s, h, a => by
    obtain ⟨-, hl, hr, -⟩ := hproper
    rw [Expr.toTree, gen, Expr.sites, List.flatMap_cons, List.flatMap_append]
    refine (gen_expr_answers r hr h a).bind fun _ s₁ hright => ?_
    have h₁ := h.stay (gen_expr r hright).2
    exact (gen_expr_answers l hl h₁ (a + r.size)).bind_last fun _ _ => rfl

theorem gen_exprs_answers : (es : List Expr) → Tree.ProperAll (Expr.toTrees es) → {s : Emitter} →
    s.Knows declared params scope names → (a : Nat) →
    Answers ((genAll (Expr.toTrees es)).run s)
      ((Expr.sitesAll names a es).flatMap (Site.faults declared params scope))
  | [], _, s, _, a => by
    rw [Expr.toTrees, genAll]
    rfl
  | e :: es, hproper, s, h, a => by
    rw [Expr.toTrees, genAll, Expr.sitesAll, List.flatMap_append]
    refine (gen_expr_answers e hproper.1 h a).bind fun _ s₁ hfirst => ?_
    exact gen_exprs_answers es hproper.2 (h.stay (gen_expr e hfirst).2) (a + e.size)

end

theorem exists_allocate (x : Label) (s : Emitter) : ∃ slot s', (allocate x).run s = .ok slot s' := by
  simp only [allocate, EStateM.run_bind, EStateM.run_get]
  cases (s.scope s.current).locals.get? x with
  | some slot => exact ⟨_, _, rfl⟩
  | none => exact ⟨_, _, rfl⟩

mutual

theorem gen_stmt_answers : (S : Stmt) → S.Plain → S.toTree.Proper → {names : List Label} →
    {s : Emitter} → s.Knows declared params scope names → (a : Nat) →
    Answers ((gen S.toTree).run s) ((S.sites names a).flatMap (Site.faults declared params scope))
  | .assign x e, _, hproper, names, s, h, a => by
    obtain ⟨slot, s₁, halloc⟩ := exists_allocate x s
    rw [Stmt.toTree, gen, Tree.leaf, Tree.value, run_bind_of_ok halloc]
    have h₁ := h.context (.assign x e) (allocate_ok halloc).2
    exact (gen_expr_answers e hproper.2.2.1 h₁ _).bind_last fun _ _ => rfl
  | .noop, _, _, _, s, _, a => by
    rw [Stmt.toTree, Tree.leaf, gen]
    rfl
  | .ifThen c t, hplain, hproper, names, s, h, a => by
    obtain ⟨-, hc, ht, -⟩ := hproper
    rw [Stmt.toTree, gen, Stmt.sites, List.flatMap_append]
    refine (gen_expr_answers c hc h a).bind fun _ s₁ hcond => ?_
    rw [run_bind_of_ok (run_emit _ _ _)]
    have h₁ := h.stay (gen_expr c hcond).2
    exact (gen_stmt_answers t hplain ht (h₁.recode _ _) _).bind_last fun _ _ => rfl
  | .ifElse c t e, hplain, hproper, names, s, h, a => by
    obtain ⟨-, hc, ht, he, -⟩ := hproper
    rw [Stmt.toTree, gen, Stmt.sites, List.flatMap_append, List.flatMap_append, List.append_assoc]
    refine (gen_expr_answers c hc h a).bind fun _ s₁ hcond => ?_
    rw [run_bind_of_ok (run_emit _ _ _)]
    have h₁ := h.stay (gen_expr c hcond).2
    refine (gen_stmt_answers t hplain.1 ht (h₁.recode _ _) _).bind fun _ s₂ hthen => ?_
    have h₂ := (h₁.recode _ _).context t (gen_stmt t hplain.1 hthen).2
    rw [run_bind_of_ok (run_emit _ _ _), run_bind_of_ok (run_here _),
      run_bind_of_ok (run_patch _ _ _)]
    exact (gen_stmt_answers e hplain.2 he (h₂.recode _ _) _).bind_last fun _ _ => rfl
  | .loop c b, hplain, hproper, names, s, h, a => by
    obtain ⟨-, hc, hb, -⟩ := hproper
    rw [Stmt.toTree, gen, Stmt.sites, List.flatMap_append, run_bind_of_ok (run_here s)]
    refine (gen_expr_answers c hc h a).bind fun _ s₁ hcond => ?_
    rw [run_bind_of_ok (run_emit _ _ _)]
    have h₁ := h.stay (gen_expr c hcond).2
    exact (gen_stmt_answers b hplain hb (h₁.recode _ _) _).bind_last fun _ _ => rfl
  | .func _ _ _, hplain, _, _, _, _, _ => hplain.elim
  | .ret e, _, hproper, names, s, h, a => by
    rw [Stmt.toTree, gen, Stmt.sites]
    exact (gen_expr_answers e hproper.2.1 h a).bind_last fun _ _ => rfl
  | .block ss, hplain, hproper, names, s, h, a => by
    rw [Stmt.toTree, gen, Stmt.sites]
    exact gen_stmts_answers ss hplain hproper.2 h a

theorem gen_stmts_answers : (ss : List Stmt) → Stmt.PlainAll ss →
    Tree.ProperAll (Stmt.toTrees ss) → {names : List Label} → {s : Emitter} →
    s.Knows declared params scope names → (a : Nat) →
    Answers ((genAll (Stmt.toTrees ss)).run s)
      ((Stmt.sitesAll names a ss).flatMap (Site.faults declared params scope))
  | [], _, _, _, s, _, a => by
    rw [Stmt.toTrees, genAll]
    rfl
  | S :: ss, hplain, hproper, names, s, h, a => by
    rw [Stmt.toTrees, genAll, Stmt.sitesAll, List.flatMap_append]
    refine (gen_stmt_answers S hplain.1 hproper.1 h a).bind fun _ s₁ hfirst => ?_
    have h₁ := h.context S (gen_stmt S hplain.1 hfirst).2
    exact gen_stmts_answers ss hplain.2 hproper.2 h₁ _

end

end Elements

end Emitter

namespace Program

variable {p : List Stmt} {f : Label}

theorem mem_functionNames :
    f ∈ functionNames p ↔ ∃ params body, Stmt.func f params body ∈ p := by
  rw [functionNames, List.mem_filterMap]
  constructor
  · rintro ⟨S, hS, hf⟩
    cases S with
    | func g params body =>
      cases hf
      exact ⟨params, body, hS⟩
    | _ => cases hf
  · rintro ⟨params, body, hS⟩
    exact ⟨_, hS, rfl⟩

theorem arity_append (before after : List Stmt) (f : Label) :
    arity (before ++ after) f = (arity before f).or (arity after f) := by
  rw [arity, find?, List.findSome?_append, Option.map_or]
  rfl

theorem arity_func (g : Label) (params : List Label) (body : List Stmt) (f : Label) :
    arity [.func g params body] f = if f = g then some params.length else none := by
  by_cases h : f = g
  · simp [arity, find?, h]
  · simp [arity, find?, h, Ne.symm h]

theorem exists_func_of_arity {n : Nat} (h : arity p f = some n) :
    ∃ params body, Stmt.func f params body ∈ p ∧ n = params.length := by
  obtain ⟨⟨params, body⟩, hfind, hn⟩ := Option.map_eq_some_iff.mp h
  exact ⟨params, body, mem_of_find? hfind, hn.symm⟩

theorem arity_eq_none : arity p f = none ↔ f ∉ functionNames p := by
  constructor
  · intro h hf
    obtain ⟨params, body, hS⟩ := mem_functionNames.mp hf
    obtain ⟨before, after, rfl⟩ := List.append_of_mem hS
    rw [← List.singleton_append, arity_append, arity_append, arity_func, if_pos rfl] at h
    cases hb : arity before f with
    | none => simp [hb] at h
    | some n => simp [hb] at h
  · intro h
    cases ha : arity p f with
    | none => rfl
    | some n =>
      obtain ⟨params, body, hS, -⟩ := exists_func_of_arity ha
      exact absurd (mem_functionNames.mpr ⟨params, body, hS⟩) h

theorem arity_of_mem (hp : (functionNames p).Nodup) {params : List Label} {body : List Stmt}
    (h : Stmt.func f params body ∈ p) : arity p f = some params.length := by
  obtain ⟨before, after, rfl⟩ := List.append_of_mem h
  have hbefore : f ∉ functionNames before := by
    rw [functionNames, List.filterMap_append] at hp
    intro hf
    exact (List.nodup_append.mp hp).2.2 f hf f (by simp) rfl
  rw [← List.singleton_append, arity_append, arity_append, arity_func, if_pos rfl,
    arity_eq_none.mpr hbefore]
  rfl

end Program

theorem Stmt.assignedAll_append (names : List Label) (ss ts : List Stmt) :
    assignedAll names (ss ++ ts) = assignedAll (assignedAll names ss) ts := by
  induction ss generalizing names with
  | nil => rfl
  | cons S ss ih => exact ih _

theorem contains_paramSlots (params : List Label) (x : Label) :
    (Emitter.paramSlots params).contains x = true ↔ x ∈ params := by
  induction params with
  | nil => simp [Emitter.paramSlots, Table.contains]
  | cons y params ih =>
    rw [Table.contains] at ih
    rw [paramSlots_cons, Table.contains, Table.get?_insert, List.mem_cons]
    by_cases hx : x = y
    · simp [hx]
    · simpa [hx] using ih

namespace Emitter

/-- What the emitter knows between the elements of a program. -/
def KnowsElements (s : Emitter) (before : List Stmt) : Prop :=
  s.Knows before [] Scope.toplevel (Stmt.assignedAll [] before)

variable {before : List Stmt} {s s' : Emitter}

theorem contains_functions (h : s.KnowsElements before) (f : Label) :
    s.functions.contains f = true ↔ f ∈ Program.functionNames before := by
  have hget := h.functions f
  rw [Table.contains, ← not_iff_not, ← Program.arity_eq_none, ← hget]
  simp [context]

theorem KnowsElements.not_func (h : s.KnowsElements before) {S : Stmt}
    (hS : ∀ f params body, S ≠ .func f params body) :
    s.Knows (before ++ [S]) [] Scope.toplevel (Stmt.assignedAll [] before) := by
  refine ⟨fun f => ?_, h.params, h.locals, h.current, h.described⟩
  have hnone : Program.arity [S] f = none := by
    rw [Program.arity, find?_cons_of_ne (hS f)]
    rfl
  rw [h.functions f, Program.arity_append, hnone, Option.or_none]

theorem arity_declare {f : Label} {params : List Label} {body : List Stmt} {a : Nat}
    (h : s.KnowsElements before) (hnew : f ∉ Program.functionNames before) (g : Label) :
    ((s.functions.insert f ⟨a, params.length⟩).get? g).map (·.paramCount) =
      Program.arity (before ++ [.func f params body]) g := by
  rw [Table.get?_insert, Program.arity_append, Program.arity_func]
  by_cases hg : g = f
  · rw [if_pos hg, if_pos hg, hg, Program.arity_eq_none.mpr hnew]
    rfl
  · rw [if_neg hg, if_neg hg, Option.or_none]
    exact h.functions g

theorem describe_name {f : Label} (h : f.Name) : ∃ text, Scope.describe f = .ok text := by
  obtain ⟨w, rfl, hw⟩ := h
  refine ⟨w, ?_⟩
  unfold Scope.describe
  split
  next heq => cases heq
  next heq =>
    cases heq
    exact absurd rfl hw
  next heq => cases heq
  next heq =>
    cases heq
    rfl

theorem KnowsElements.declare (h : s.KnowsElements before) {f : Label} (hf : f.Name)
    (hnew : f ∉ Program.functionNames before) (params : List Label) (body : List Stmt) :
    Knows { s with
      functions := s.functions.insert f ⟨s.code.size, params.length⟩
      scopes := s.scopes.insert f { params := paramSlots params }
      current := f } (before ++ [.func f params body]) params f [] := by
  refine ⟨?_, ?_, ?_, rfl, describe_name hf⟩
  · rw [context_declare]
    exact arity_declare h hnew
  · rw [context_declare]
    exact contains_paramSlots params
  · rw [context_declare]
    rfl

theorem gen_element_answers {S : Stmt} (hS : S.Element) (hproper : S.toTree.Proper)
    (h : s.KnowsElements before) : Answers ((gen S.toTree).run s) (S.faults before) := by
  cases S with
  | assign x e =>
    have hknows := h.not_func (S := .assign x e) fun _ _ _ => nofun
    exact gen_stmt_answers (.assign x e) trivial hproper hknows 0
  | noop =>
    have hknows := h.not_func (S := .noop) fun _ _ _ => nofun
    exact gen_stmt_answers .noop trivial hproper hknows 0
  | func f params body =>
    have hvalues : (params.map (Tree.leaf .parameter)).map Tree.value = params := by
      simp [Tree.leaf, Tree.value, Function.comp_def]
    rw [Stmt.toTree, gen, run_bind_of_ok (EStateM.run_get s), hvalues]
    by_cases hf : f ∈ Program.functionNames before
    · have hclash : (Stmt.func f params body).clash before = [.duplicateFunction f] := if_pos hf
      rw [Stmt.faults, hclash, if_pos ((contains_functions h f).mpr hf)]
      obtain ⟨w, hw⟩ := text_name hproper.1
      refine ⟨rfl, fun _ => ⟨"Duplicate function definition: '" ++ w ++ "'", ?_⟩⟩
      rw [EmitError.message, hw]
      simp only [← String.append_assoc]
      rfl
    · have hclash : (Stmt.func f params body).clash before = [] := if_neg hf
      rw [Stmt.faults, hclash, if_neg fun hc => hf ((contains_functions h f).mp hc)]
      have hbody := gen_stmts_answers body hS hproper.2.1.2 (h.declare hproper.1 hf params body) 0
      have hblock : gen (.node .block none (Stmt.toTrees body)) = genAll (Stmt.toTrees body) := by
        rw [gen]
      rw [← hblock] at hbody
      exact hbody.bind_last fun _ _ => rfl
  | ifThen c t => exact hS.elim
  | ifElse c t e => exact hS.elim
  | loop c b => exact hS.elim
  | ret e => exact hS.elim
  | block ss => exact hS.elim

theorem Knows.element {S : Stmt} (hS : S.Plain) (h : s.KnowsElements before)
    (hrun : (gen S.toTree).run s = .ok () s')
    (hnot : ∀ f params body, S ≠ .func f params body) : s'.KnowsElements (before ++ [S]) := by
  rw [KnowsElements, Stmt.assignedAll_append]
  exact (h.not_func hnot).context S (gen_stmt S hS hrun).2

theorem gen_element_knows {S : Stmt} (hS : S.Element) (hproper : S.toTree.Proper)
    (h : s.KnowsElements before) (hrun : (gen S.toTree).run s = .ok () s') :
    s'.KnowsElements (before ++ [S]) := by
  cases S with
  | assign x e => exact Knows.element trivial h hrun fun _ _ _ => nofun
  | noop => exact Knows.element trivial h hrun fun _ _ _ => nofun
  | func f params body =>
    obtain ⟨⟨hnone, -⟩, -, hcontext, hcurrent⟩ := gen_func hS h.current hrun
    have hnew : f ∉ Program.functionNames before := by
      have hget : s.functions.get? f = none := hnone
      rw [← contains_functions h, Table.contains, hget]
      exact Bool.false_ne_true
    have hne : f ≠ Scope.toplevel := by
      rintro rfl
      obtain ⟨w, hw, hempty⟩ := hproper.1
      cases hw
      exact hempty rfl
    rw [Stmt.elementContext, if_neg hne] at hcontext
    refine ⟨?_, ?_, ?_, hcurrent, h.described⟩
    · rw [hcontext]
      exact arity_declare h hnew
    · rw [hcontext]
      exact h.params
    · rw [hcontext, Stmt.assignedAll_append]
      exact h.locals
  | ifThen c t => exact hS.elim
  | ifElse c t e => exact hS.elim
  | loop c b => exact hS.elim
  | ret e => exact hS.elim
  | block ss => exact hS.elim

/-- A warning can always be written, and changes nothing but the warnings. -/
theorem exists_warnSkipped {x : Label} (hx : x.Name) (e : Tree) (s : Emitter) :
    ∃ warnings, (warnSkipped (.node .assignment none [.leaf .identifier x, e])).run s =
      .ok () { s with warnings := warnings } := by
  obtain ⟨w, rfl, -⟩ := hx
  exact ⟨_, rfl⟩

theorem genElements_cons {S : Stmt} (hproper : S.toTree.Proper) (ss : List Stmt) (s : Emitter) :
    ∃ warnings, (genElements (Stmt.toTrees (S :: ss))).run s =
      (do gen S.toTree; genElements (Stmt.toTrees ss)).run { s with warnings := warnings } := by
  rw [Stmt.toTrees, genElements]
  split
  next hkind =>
    cases S with
    | assign x e =>
      obtain ⟨warnings, hw⟩ := exists_warnSkipped hproper.2.1.1 e.toTree s
      exact ⟨warnings, run_bind_of_ok hw⟩
    | _ => cases hkind
  next => exact ⟨s.warnings, rfl⟩

theorem genElements_answers {ss : List Stmt} (hss : ∀ S ∈ ss, S.Element)
    (hproper : Tree.ProperAll (Stmt.toTrees ss)) (h : s.KnowsElements before) :
    Answers ((genElements (Stmt.toTrees ss)).run s) (Program.faultsFrom before ss) ∧
      ∀ s', (genElements (Stmt.toTrees ss)).run s = .ok () s' →
        s'.KnowsElements (before ++ ss) := by
  induction ss generalizing before s with
  | nil =>
    rw [Stmt.toTrees, genElements, List.append_nil]
    refine ⟨rfl, fun s' hrun => ?_⟩
    cases hrun
    exact h
  | cons S ss ih =>
    have hS := hss S List.mem_cons_self
    have hss := fun T hT => hss T (List.mem_cons_of_mem S hT)
    obtain ⟨warnings, hcons⟩ := genElements_cons hproper.1 ss s
    have hw : KnowsElements { s with warnings := warnings } before := h.recode s.code warnings
    rw [hcons]
    constructor
    · refine (gen_element_answers hS hproper.1 hw).bind fun _ s₁ hrun => ?_
      exact (ih hss hproper.2 (gen_element_knows hS hproper.1 hw hrun)).1
    · intro s' hrun
      obtain ⟨_, s₁, hfirst, hrest⟩ := run_bind_eq_ok.mp hrun
      rw [List.append_cons]
      exact (ih hss hproper.2 (gen_element_knows hS hproper.1 hw hfirst)).2 s' hrest

theorem generate_answers {p : Program} (hp : ∀ S ∈ p, S.Element)
    (hproper : Tree.ProperAll (Stmt.toTrees p)) : Answers (generate p.toTree) p.faults := by
  rw [generate, Program.toTree, gen, run_bind_of_ok (run_emit _ _ _),
    run_bind_of_ok (run_emit _ _ _)]
  have hstart : KnowsElements {} [] := by
    refine ⟨fun f => rfl, fun x => ?_, rfl, rfl, ⟨_, rfl⟩⟩
    simp [context, scope, Table.contains]
  obtain ⟨hanswers, hknows⟩ := genElements_answers hp hproper (hstart.recode _ _)
  refine hanswers.bind fun _ s₁ hrun => ?_
  have h₁ : s₁.KnowsElements p := hknows s₁ hrun
  have hmain := contains_functions h₁ Program.mainName
  rw [run_bind_of_ok (EStateM.run_get s₁), ← Program.mainName]
  rw [Table.contains] at hmain
  cases hget : s₁.functions.get? Program.mainName with
  | some info =>
    rw [hget] at hmain
    exact if_pos (hmain.mp rfl)
  | none =>
    rw [hget] at hmain
    rw [if_neg fun hm => Bool.false_ne_true (hmain.mpr hm)]
    exact ⟨rfl, fun _ => ⟨"No 'main' function: " ++
      "declare 'function main() \x7b ... \x7d' as the entry point", by decide⟩⟩

end Emitter

namespace Program

theorem faultsFrom_eq_nil {before ss : List Stmt} : faultsFrom before ss = [] ↔
    ∀ xs S ys, ss = xs ++ S :: ys → S.faults (before ++ xs) = [] := by
  induction ss generalizing before with
  | nil => simp [faultsFrom]
  | cons T ss ih =>
    rw [faultsFrom, List.append_eq_nil_iff, ih]
    constructor
    · rintro ⟨hT, hss⟩ xs S ys h
      cases xs with
      | nil =>
        cases h
        simpa using hT
      | cons x xs =>
        cases h
        have hS := hss xs S ys rfl
        rwa [List.append_assoc] at hS
    · intro h
      refine ⟨?_, fun xs S ys hss => ?_⟩
      · have hT := h [] T ss rfl
        rwa [List.append_nil] at hT
      · have hS := h (T :: xs) S ys (by rw [hss]; rfl)
        rwa [List.append_assoc]

theorem functionNames_append (p q : List Stmt) :
    functionNames (p ++ q) = functionNames p ++ functionNames q :=
  List.filterMap_append

theorem nodup_functionNames_concat {p : List Stmt} {S : Stmt} :
    (functionNames (p ++ [S])).Nodup ↔ (functionNames p).Nodup ∧ S.clash p = [] := by
  rw [functionNames_append, List.nodup_append]
  cases S with
  | func f params body =>
    have hsingle : functionNames [.func f params body] = [f] := rfl
    rw [hsingle]
    by_cases hf : f ∈ functionNames p
    · simp only [Stmt.clash, if_pos hf, List.cons_ne_nil, and_false, iff_false]
      exact fun h => h.2.2 f hf f List.mem_cons_self rfl
    · have hne : ∀ g ∈ functionNames p, g ≠ f := fun g hg => ne_of_mem_of_not_mem hg hf
      simpa [Stmt.clash, if_neg hf] using fun _ => hne
  | _ => simp [functionNames, Stmt.clash]

theorem nodup_functionNames {p : List Stmt} : (functionNames p).Nodup ↔
    ∀ before S after, p = before ++ S :: after → S.clash before = [] := by
  constructor
  · rintro h before S after rfl
    rw [List.append_cons, functionNames_append] at h
    exact (nodup_functionNames_concat.mp (List.nodup_append.mp h).1).2
  · intro h
    induction p using List.reverseRecOn with
    | nil => exact List.nodup_nil
    | append_singleton p S ih =>
      refine nodup_functionNames_concat.mpr ⟨ih fun before T after hp => ?_, h p S [] rfl⟩
      exact h before T (after ++ [S]) (by simp [hp])

end Program

theorem Site.faults_eq_nil {declared : List Stmt} {params : List Label} {scope : Label} {y : Site} :
    y.faults declared params scope = [] ↔
      (∀ f args, y.expr = .call f args → Program.arity declared f = some args.length) ∧
        ∀ x, y.expr = .var x → x ∈ y.names ∨ x ∈ params := by
  unfold faults
  split
  next hy => simp [hy]
  next x hy =>
    by_cases hx : x ∈ y.names ∨ x ∈ params
    · simp [hy, hx]
    · simp [hy, hx]
  next f args hy =>
    cases ha : Program.arity declared f with
    | none => simp [hy, ha]
    | some n =>
      by_cases hn : args.length = n
      · simp [hy, ha, hn]
      · simp [hy, ha, hn, Ne.symm hn]
  next hy => simp [hy]

namespace Program

variable {p : Program}

theorem arity_eq_iff {declared : List Stmt} (h : (functionNames declared).Nodup) {f : Label}
    {n : Nat} : arity declared f = some n ↔
      ∃ params body, Stmt.func f params body ∈ declared ∧ n = params.length := by
  constructor
  · exact exists_func_of_arity
  · rintro ⟨params, body, hmem, rfl⟩
    exact arity_of_mem h hmem

/-- Nothing is wrong with a program that is well-formed, and with no other. -/
theorem wellFormed_iff : p.WellFormed ↔ p.faults = [] := by
  rw [faults, List.append_eq_nil_iff, faultsFrom_eq_nil]
  simp only [List.nil_append, Stmt.faults, List.append_eq_nil_iff, List.flatMap_eq_nil_iff,
    Site.faults_eq_nil]
  constructor
  · intro h
    refine ⟨fun before S after hp => ?_, if_pos h.main⟩
    refine ⟨nodup_functionNames.mp h.distinct before S after hp, fun y hy => ⟨?_, ?_⟩⟩
    · intro f args hcall
      have hdistinct := h.distinct
      rw [hp, List.append_cons, functionNames_append] at hdistinct
      exact (arity_eq_iff (List.nodup_append.mp hdistinct).1).mpr
        (h.calls before S after hp y hy f args hcall)
    · exact h.reads before S after hp y hy
  · rintro ⟨h, hmain⟩
    refine ⟨nodup_functionNames.mpr fun before S after hp => (h before S after hp).1, ?_, ?_, ?_⟩
    · by_contra hnot
      rw [if_neg hnot] at hmain
      cases hmain
    · intro before S after hp y hy f args hcall
      exact exists_func_of_arity (((h before S after hp).2 y hy).1 f args hcall)
    · exact fun before S after hp y hy => ((h before S after hp).2 y hy).2

end Program

/-- Code is generated for exactly the well-formed programs. For any other one generation stops with
the first thing that is wrong, in the order of generation, and its message can be written if the
counts in it can. -/
theorem generates_iff_wellFormed {ts : List Token} {p : Program} (hts : ∀ t ∈ ts, t.Proper)
    (hp : parseProgram ts = .ok p) :
    ((∃ s, Emitter.generate p.toTree = .ok () s) ↔ p.WellFormed) ∧
      (¬ p.WellFormed → ∃ e s, Emitter.generate p.toTree = .error e s ∧
        p.faults.head? = some e ∧ e.Reportable) := by
  have hanswers := Emitter.generate_answers (parseProgram_element hp) (parseProgram_proper hts hp)
  rw [Program.wellFormed_iff]
  cases hrun : Emitter.generate p.toTree with
  | ok u s =>
    rw [hrun] at hanswers
    have hnone : p.faults = [] := hanswers
    exact ⟨⟨fun _ => hnone, fun _ => ⟨s, rfl⟩⟩, fun h => absurd hnone h⟩
  | error e s =>
    rw [hrun] at hanswers
    obtain ⟨hfirst, hreport⟩ := hanswers
    refine ⟨⟨fun ⟨s', h⟩ => ?_, fun hnone => ?_⟩, fun _ => ⟨e, s, rfl, hfirst, hreport⟩⟩
    · cases h
    · rw [hnone] at hfirst
      cases hfirst

/-- The right operand is looked at first. -/
theorem generates_iff_wellFormed_two_faults :
    ∃ ts p, tokenize "function main(){return y+main(1);}" = .ok ts ∧ parseProgram ts = .ok p ∧
      ¬ p.WellFormed ∧
      ∃ s, Emitter.generate p.toTree = .error (.argumentCount Program.mainName 0 1) s := by
  let y : Label := some (.word "y")
  let ts : List Token :=
    [⟨.functionWord, none⟩, ⟨.identifier, Program.mainName⟩, ⟨.lparen, none⟩, ⟨.rparen, none⟩,
     ⟨.lbrace, none⟩, ⟨.returnWord, none⟩, ⟨.identifier, y⟩, ⟨.plus, none⟩,
     ⟨.identifier, Program.mainName⟩, ⟨.lparen, none⟩, ⟨.number, some (.int 1)⟩, ⟨.rparen, none⟩,
     ⟨.semi, none⟩, ⟨.rbrace, none⟩, ⟨.eof, none⟩]
  let p : Program :=
    [.func Program.mainName []
      [.ret (.binary .add (.var y) (.call Program.mainName [.num (some (.int 1))]))]]
  have hscan : tokenize "function main(){return y+main(1);}" = .ok ts := by decide +kernel
  have hparse : parseProgram ts = .ok p := by cbv
  have hfaults : p.faults = [.argumentCount Program.mainName 0 1, .undeclared y Program.mainName] := by
    decide
  have hp : ¬ p.WellFormed := by
    rw [Program.wellFormed_iff, hfaults]
    exact List.cons_ne_nil _ _
  obtain ⟨e, s, hrun, hfirst, -⟩ :=
    (generates_iff_wellFormed (tokenize_proper hscan) hparse).2 hp
  rw [hfaults] at hfirst
  cases hfirst
  exact ⟨ts, p, hscan, hparse, hp, s, hrun⟩

end StackLang
