import StackLang.Proofs.Patches
import StackLang.Proofs.Symbols

namespace StackLang

namespace Stmt

/-- What an element behind `before` adds to the table of functions. -/
def registration (before : List Stmt) : Stmt → List (Label × FunctionInfo)
  | func f params _ => [(f, ⟨Program.addressAfter before, params.length⟩)]
  | _ => []

theorem toTrees_append (ss us : List Stmt) : toTrees (ss ++ us) = toTrees ss ++ toTrees us := by
  induction ss with
  | nil => rfl
  | cons S ss ih => simp [toTrees, ih]

end Stmt

namespace Program

variable {p before : List Stmt}

def declarationsFrom (before : List Stmt) : List Stmt → List (Label × FunctionInfo)
  | [] => []
  | S :: ss => S.registration before ++ declarationsFrom (before ++ [S]) ss

/-- The functions of a program with their addresses and their numbers of parameters, in the order
of the text. -/
def declarations (p : List Stmt) : List (Label × FunctionInfo) :=
  declarationsFrom [] p

theorem declarationsFrom_append (before ss ts : List Stmt) :
    declarationsFrom before (ss ++ ts) =
      declarationsFrom before ss ++ declarationsFrom (before ++ ss) ts := by
  induction ss generalizing before with
  | nil => simp [declarationsFrom]
  | cons S ss ih => simp [declarationsFrom, ih, List.append_assoc]

theorem declarations_concat (p : List Stmt) (S : Stmt) :
    declarations (p ++ [S]) = declarations p ++ S.registration p := by
  rw [declarations, declarationsFrom_append]
  simp [declarationsFrom, declarations]

theorem map_fst_declarations (p : List Stmt) :
    (declarations p).map Prod.fst = functionNames p := by
  induction p using List.reverseRecOn with
  | nil => rfl
  | append_singleton p S ih =>
    rw [declarations_concat, functionNames_append, List.map_append, ih]
    cases S with
    | func f params body => rfl
    | _ => rfl

theorem entries_contextAfter (h : Accepted start 2 p) :
    (contextAfter p).functions.entries = declarations p := by
  induction p using List.reverseRecOn with
  | nil => rfl
  | append_singleton p S ih =>
    have hbefore := (accepted_append.mp h).1
    have hS := accepted_element h (show p ++ [S] = p ++ S :: [] from rfl)
    rw [contextAfter_concat, declarations_concat]
    cases S with
    | func f params body =>
      rw [elementContext_func, Table.entries_insert hS.1, ih hbefore]
      rfl
    | _ =>
      rw [elementContext_of_not_func _ _ (by simp), ih hbefore]
      exact (List.append_nil _).symm

theorem named_of_tokens {ts : List Token} {p : Program}
    (hts : ∀ t ∈ ts, t.kind = .identifier → t.value ≠ Scope.toplevel)
    (hparse : parseProgram ts = .ok p) : Named p := by
  have hcarries := parseProgram_carries (N := (· ≠ Scope.toplevel)) (M := fun _ => True)
    (fun t ht => ⟨hts t ht, fun _ => trivial⟩) hparse
  clear hparse hts
  intro f params body hmem
  induction p with
  | nil => cases hmem
  | cons S ss ih =>
    rcases List.mem_cons.mp hmem with rfl | hmem
    · exact hcarries.1.1
    · exact ih hcarries.2 hmem

end Program

namespace Emitter

section Changes

variable {α β : Type} {R R' : Emitter → Emitter → Prop}

/-- However the step ends, `R` says how it has changed the emitter. It does not fail for want of a
main function. -/
def Changes (R : Emitter → Emitter → Prop) (x : EmitM α) : Prop :=
  ∀ s, match x.run s with
    | .ok _ s' => R s s'
    | .error e s' => R s s' ∧ e ≠ .missingMain

theorem Changes.bind (htrans : ∀ {s₁ s₂ s₃}, R s₁ s₂ → R s₂ s₃ → R s₁ s₃) {x : EmitM α}
    {f : α → EmitM β} (hx : Changes R x) (hf : ∀ a, Changes R (f a)) : Changes R (x >>= f) := by
  intro s
  have hs := hx s
  rw [EStateM.run_bind]
  cases hrun : x.run s with
  | error e s' =>
    rw [hrun] at hs
    exact hs
  | ok a s' =>
    rw [hrun] at hs
    have hs' := hf a s'
    dsimp only at hs ⊢
    cases hnext : (f a).run s' with
    | error e s'' =>
      rw [hnext] at hs'
      exact ⟨htrans hs hs'.1, hs'.2⟩
    | ok b s'' =>
      rw [hnext] at hs'
      exact htrans hs hs'

theorem Changes.mono (h : ∀ {s s'}, R s s' → R' s s') {x : EmitM α} (hx : Changes R x) :
    Changes R' x := by
  intro s
  have hs := hx s
  cases hrun : x.run s with
  | error e s' =>
    rw [hrun] at hs
    exact ⟨h hs.1, hs.2⟩
  | ok a s' =>
    rw [hrun] at hs
    exact h hs

theorem Changes.of_error {x : EmitM α} (hx : Changes R x) {e : EmitError} {s s' : Emitter}
    (h : x.run s = .error e s') : R s s' ∧ e ≠ .missingMain := by
  have hs := hx s
  rwa [h] at hs

theorem Changes.of_ok {x : EmitM α} (hx : Changes R x) {a : α} {s s' : Emitter}
    (h : x.run s = .ok a s') : R s s' := by
  have hs := hx s
  rwa [h] at hs

end Changes

/-- The two emitters have the same tables and generate for the same function. -/
structure SameTables (s s' : Emitter) : Prop where
  functions : s'.functions = s.functions
  scopes : s'.scopes = s.scopes
  current : s'.current = s.current

/-- From `s` to `s'` at most local slots were given in the current scope. -/
structure Allots (s s' : Emitter) : Prop where
  functions : s'.functions = s.functions
  current : s'.current = s.current
  others : ∀ g, g ≠ s.current → s'.scope g = s.scope g
  params : (s'.scope s.current).params = (s.scope s.current).params

theorem SameTables.trans {s s₁ s₂ : Emitter} (h : SameTables s s₁) (h' : SameTables s₁ s₂) :
    SameTables s s₂ :=
  ⟨h'.functions.trans h.functions, h'.scopes.trans h.scopes, h'.current.trans h.current⟩

theorem SameTables.scope {s s' : Emitter} (h : SameTables s s') (g : Label) :
    s'.scope g = s.scope g := by
  rw [Emitter.scope, Emitter.scope, h.scopes]

theorem SameTables.allots {s s' : Emitter} (h : SameTables s s') : Allots s s' :=
  ⟨h.functions, h.current, fun g _ => h.scope g, by rw [h.scope]⟩

theorem Allots.trans {s s₁ s₂ : Emitter} (h : Allots s s₁) (h' : Allots s₁ s₂) :
    Allots s s₂ where
  functions := h'.functions.trans h.functions
  current := h'.current.trans h.current
  others g hg := (h'.others g (by rwa [h.current])).trans (h.others g hg)
  params := by
    have hparams := h'.params
    rw [h.current] at hparams
    exact hparams.trans h.params

theorem Changes.allots {α : Type} {x : EmitM α} (hx : Changes SameTables x) : Changes Allots x :=
  hx.mono SameTables.allots

section Steps

theorem changes_pure {α : Type} (a : α) : Changes SameTables (pure a) :=
  fun _ => ⟨rfl, rfl, rfl⟩

theorem changes_throw {α : Type} {e : EmitError} (he : e ≠ .missingMain) :
    Changes SameTables (throw e : EmitM α) :=
  fun _ => ⟨⟨rfl, rfl, rfl⟩, he⟩

theorem changes_get : Changes SameTables (get : EmitM Emitter) :=
  fun _ => ⟨rfl, rfl, rfl⟩

theorem changes_here : Changes SameTables here :=
  fun _ => ⟨rfl, rfl, rfl⟩

theorem changes_emit (op : Opcode) (n : Int) : Changes SameTables (emit op n) :=
  fun _ => ⟨rfl, rfl, rfl⟩

theorem changes_emitPlain (op : Opcode) : Changes SameTables (emitPlain op) :=
  fun _ => ⟨rfl, rfl, rfl⟩

theorem changes_patch (address : Nat) (n : Int) : Changes SameTables (patch address n) :=
  fun _ => ⟨rfl, rfl, rfl⟩

theorem changes_openCall : Changes SameTables openCall :=
  fun _ => ⟨rfl, rfl, rfl⟩

theorem changes_closeCall (info : FunctionInfo) (argc ldpcAt : Nat) :
    Changes SameTables (closeCall info argc ldpcAt) :=
  fun _ => ⟨rfl, rfl, rfl⟩

theorem changes_number (v : Label) : Changes SameTables (number v) := by
  unfold number
  split
  next n => exact (changes_emit .push n).bind .trans fun _ => changes_pure ()
  next => exact changes_throw (by simp)

theorem changes_identifier (x : Label) : Changes SameTables (identifier x) := by
  refine changes_get.bind .trans fun s => ?_
  dsimp only
  split
  next slot _ => exact (changes_emit .loadl slot).bind .trans fun _ => changes_pure ()
  next =>
    split
    next slot _ => exact (changes_emit .loada slot).bind .trans fun _ => changes_pure ()
    next => exact changes_throw (by simp)

theorem changes_callee (f : Label) (n : Nat) : Changes SameTables (callee f n) := by
  refine changes_get.bind .trans fun s => ?_
  split
  next => exact changes_throw (by simp)
  next =>
    split
    next => exact changes_pure _
    next => exact (changes_throw (by simp)).bind .trans fun _ => changes_pure _

theorem changes_warnSkipped (t : Tree) : Changes SameTables (warnSkipped t) := by
  unfold warnSkipped
  split
  next => exact changes_throw (by simp)
  next =>
    split
    next => exact changes_pure ()
    next => exact fun _ => ⟨rfl, rfl, rfl⟩

end Steps

mutual

/-- An expression leaves the tables as they are, also where it fails. -/
theorem changes_expr : (e : Expr) → Changes SameTables (gen e.toTree)
  | .num v => by
    rw [Expr.toTree, Tree.leaf, gen]
    exact changes_number v
  | .var x => by
    rw [Expr.toTree, Tree.leaf, gen]
    exact changes_identifier x
  | .call f args => by
    rw [Expr.toTree, gen]
    refine (changes_callee f _).bind .trans fun info => ?_
    refine changes_openCall.bind .trans fun ldpcAt => ?_
    exact (changes_exprs args).bind .trans fun _ => changes_closeCall info _ ldpcAt
  | .binary op l r => by
    rw [Expr.toTree, gen]
    refine (changes_expr r).bind .trans fun _ => ?_
    exact (changes_expr l).bind .trans fun _ => changes_emitPlain _

theorem changes_exprs : (es : List Expr) → Changes SameTables (genAll (Expr.toTrees es))
  | [] => by
    rw [Expr.toTrees, genAll]
    exact changes_pure ()
  | e :: es => by
    rw [Expr.toTrees, genAll]
    exact (changes_expr e).bind .trans fun _ => changes_exprs es

end

theorem changes_allocate (x : Label) : Changes Allots (allocate x) := by
  intro s
  obtain ⟨slot, s', hrun⟩ := exists_allocate x s
  rw [hrun]
  obtain ⟨-, he⟩ := allocate_ok hrun
  have hparams : (s.context.allot x).scope.params = s.context.scope.params :=
    (Stmt.context_keeps s.context (.assign x (.var x))).2.2
  refine ⟨congrArg Context.functions he.context, he.current, he.others, ?_⟩
  have hscope : s'.scope s.current = s'.context.scope := by rw [context, he.current]
  rw [hscope, he.context, hparams]
  rfl

mutual

/-- A statement gives local slots in the current scope, as far as it comes. -/
theorem changes_stmt : (S : Stmt) → S.Plain → Changes Allots (gen S.toTree)
  | .assign x e, _ => by
    rw [Stmt.toTree, gen, Tree.leaf, Tree.value]
    refine (changes_allocate x).bind .trans fun slot => .allots ?_
    refine (changes_expr e).bind .trans fun _ => ?_
    exact (changes_emit _ _).bind .trans fun _ => changes_pure ()
  | .noop, _ => by
    rw [Stmt.toTree, Tree.leaf, gen]
    exact (changes_pure ()).allots
  | .ifThen c t, hplain => by
    rw [Stmt.toTree, gen]
    refine (changes_expr c).allots.bind .trans fun _ => ?_
    refine (changes_emit _ _).allots.bind .trans fun branchAt => ?_
    refine (changes_stmt t hplain).bind .trans fun _ => .allots ?_
    exact changes_here.bind .trans fun _ => changes_patch _ _
  | .ifElse c t e, hplain => by
    rw [Stmt.toTree, gen]
    refine (changes_expr c).allots.bind .trans fun _ => ?_
    refine (changes_emit _ _).allots.bind .trans fun branchAt => ?_
    refine (changes_stmt t hplain.1).bind .trans fun _ => ?_
    refine (changes_emit _ _).allots.bind .trans fun skipAt => ?_
    refine changes_here.allots.bind .trans fun _ => ?_
    refine (changes_patch _ _).allots.bind .trans fun _ => ?_
    refine (changes_stmt e hplain.2).bind .trans fun _ => .allots ?_
    exact changes_here.bind .trans fun _ => changes_patch _ _
  | .loop c b, hplain => by
    rw [Stmt.toTree, gen]
    refine changes_here.allots.bind .trans fun _ => ?_
    refine (changes_expr c).allots.bind .trans fun _ => ?_
    refine (changes_emit _ _).allots.bind .trans fun branchAt => ?_
    refine (changes_stmt b hplain).bind .trans fun _ => .allots ?_
    refine (changes_emit _ _).bind .trans fun _ => ?_
    exact changes_here.bind .trans fun _ => changes_patch _ _
  | .func _ _ _, hplain => hplain.elim
  | .ret e, _ => by
    rw [Stmt.toTree, gen]
    refine .allots ?_
    exact (changes_expr e).bind .trans fun _ => changes_emitPlain _
  | .block ss, hplain => by
    rw [Stmt.toTree, gen]
    exact changes_stmts ss hplain

theorem changes_stmts : (ss : List Stmt) → Stmt.PlainAll ss →
    Changes Allots (genAll (Stmt.toTrees ss))
  | [], _ => by
    rw [Stmt.toTrees, genAll]
    exact (changes_pure ()).allots
  | S :: ss, hplain => by
    rw [Stmt.toTrees, genAll]
    exact (changes_stmt S hplain.1).bind .trans fun _ => changes_stmts ss hplain.2

end

section Elements

variable {ss : List Stmt} {s s' : Emitter} {e : EmitError}

theorem genElements_error (h : (genElements (Stmt.toTrees ss)).run s = .error e s') :
    ∃ before S after s₁, ss = before ++ S :: after ∧
      (genElements (Stmt.toTrees before)).run s = .ok () s₁ ∧
      (genElements [S.toTree]).run s₁ = .error e s' := by
  induction ss generalizing s with
  | nil =>
    rw [Stmt.toTrees, genElements] at h
    cases h
  | cons S ss ih =>
    have hsplit := genElements_append [S.toTree] (Stmt.toTrees ss)
    rw [Stmt.toTrees, ← List.singleton_append, hsplit, run_bind_eq_error] at h
    rcases h with h | ⟨_, s₁, hS, h⟩
    · exact ⟨[], S, ss, s, rfl, by rw [Stmt.toTrees, genElements]; rfl, h⟩
    · obtain ⟨before, T, after, s₂, rfl, hbefore, hT⟩ := ih h
      refine ⟨S :: before, T, after, s₂, rfl, ?_, hT⟩
      rw [Stmt.toTrees, ← List.singleton_append, genElements_append, run_bind_of_ok hS]
      exact hbefore

theorem genElement_error {t : Tree} (h : (genElements [t]).run s = .error e s') :
    (t.kind = .assignment ∧ SameTables s s' ∧ e ≠ .missingMain) ∨
      ∃ s₁, SameTables s s₁ ∧ s₁.code = s.code ∧ (gen t).run s₁ = .error e s' := by
  rw [genElements_cons_eq, run_bind_eq_error] at h
  rcases h with h | ⟨_, s₁, hw, h⟩
  · split at h
    next hkind => exact .inl ⟨hkind, (changes_warnSkipped t).of_error h⟩
    next => cases h
  · have hsame : Changes SameTables (if t.kind = .assignment then warnSkipped t else pure ()) := by
      split
      next => exact changes_warnSkipped t
      next => exact changes_pure ()
    have hcode : s₁.code = s.code := by simp [(warned_ok hw).code]
    rw [run_bind_eq_error] at h
    rcases h with h | ⟨_, _, -, h⟩
    · exact .inr ⟨s₁, hsame.of_ok hw, hcode, h⟩
    · rw [genElements] at h
      cases h

/-- A failed assignment gives its target a slot, or nothing. -/
theorem genElement_assign_error {x : Label} {v : Expr}
    (h : (genElements [(Stmt.assign x v).toTree]).run s = .error e s') :
    s'.functions = s.functions ∧ (∀ g, g ≠ s.current → s'.scope g = s.scope g) ∧
      (s'.scope s.current = s.scope s.current ∨
        s'.scope s.current = (s.scope s.current).allot x) ∧ e ≠ .missingMain := by
  rcases genElement_error h with ⟨-, hsame, he⟩ | ⟨s₁, hsame, -, h⟩
  · exact ⟨hsame.functions, fun g _ => hsame.scope g, .inl (hsame.scope _), he⟩
  · rw [Stmt.toTree, gen, Tree.leaf, Tree.value] at h
    obtain ⟨slot, s₂, hslot⟩ := exists_allocate x s₁
    obtain ⟨-, halloc⟩ := allocate_ok hslot
    have hrest : Changes SameTables (do gen v.toTree; let _ ← emit .storel slot) :=
      (changes_expr v).bind .trans fun _ =>
        (changes_emit _ _).bind .trans fun _ => changes_pure ()
    rw [run_bind_of_ok hslot] at h
    obtain ⟨hlast, he⟩ := hrest.of_error h
    have hfunctions : s₂.functions = s₁.functions := congrArg Context.functions halloc.context
    have hcurrent : s₂.scope s.current = (s₁.scope s.current).allot x := calc
      s₂.scope s.current = s₂.context.scope := by rw [context, halloc.current, hsame.current]
      _ = (s₁.context.allot x).scope := congrArg Context.scope halloc.context
      _ = (s₁.scope s.current).allot x := by rw [← hsame.current]; rfl
    refine ⟨?_, fun g hg => ?_, .inr ?_, he⟩
    · rw [hlast.functions, hfunctions, hsame.functions]
    · rw [hlast.scope, halloc.others g (by rwa [hsame.current]), hsame.scope]
    · rw [hlast.scope, hcurrent, hsame.scope]

/-- A failed declaration has registered the function with its parameters, unless there was one of
its name. -/
theorem genElement_func_error {f : Label} {params : List Label} {body : List Stmt}
    (hplain : Stmt.PlainAll body)
    (h : (genElements [(Stmt.func f params body).toTree]).run s = .error e s') :
    e ≠ .missingMain ∧
      if s.functions.contains f then
        e = .duplicateFunction f ∧ SameTables s s'
      else
        s'.functions = s.functions.insert f ⟨s.code.size, params.length⟩ ∧
          (s'.scope f).params = paramSlots params ∧ ∀ g, g ≠ f → s'.scope g = s.scope g := by
  rcases genElement_error h with ⟨hkind, -, -⟩ | ⟨s₁, hsame, hcode, h⟩
  · cases hkind
  · rw [Stmt.toTree, gen] at h
    have hvalues : (params.map (Tree.leaf .parameter)).map Tree.value = params := by
      simp [Tree.leaf, Tree.value, Function.comp_def]
    simp only [hvalues] at h
    rw [run_bind_of_ok (EStateM.run_get _), hsame.functions] at h
    by_cases hf : s.functions.contains f = true
    · rw [if_pos hf] at h ⊢
      cases h
      exact ⟨by simp, rfl, hsame⟩
    · rw [if_neg hf] at h ⊢
      simp only [run_bind_eq_error] at h
      -- Neither the registration nor what follows the body can fail.
      rcases h with h | ⟨_, _, hdeclare, h | ⟨_, _, -, h⟩⟩
      · cases h
      · cases hdeclare
        rw [gen] at h
        obtain ⟨hbody, he⟩ := (changes_stmts body hplain).of_error h
        refine ⟨he, ?_, ?_, fun g hg => ?_⟩
        · rw [hbody.functions]
          simp [hsame.functions, hcode]
        · rw [hbody.params]
          simp [scope, Table.get?_insert]
        · rw [hbody.others g hg]
          simp [scope, Table.get?_insert, hg, hsame.scopes]
      · cases h

end Elements

section Programs

variable {p before : List Stmt} {s s₀ : Emitter} {e : EmitError}

/-- The tables hold the elements of `p`, and nothing else. -/
structure Registers (s : Emitter) (p : List Stmt) : Prop where
  functions : s.functions.entries = Program.declarations p
  scope : ∀ f params body, .func f params body ∈ p →
    (s.scope f).Numbers (Stmt.assignedAll [] body) params
  toplevel : (s.scope Scope.toplevel).Numbers (Stmt.assignedAll [] p) []

/-- The elements of `p` have been generated, with the tables of `s` as their result. There may be no
main function among them. -/
def Completes (p : List Stmt) (s : Emitter) : Prop :=
  generate (Program.toTree p) = .ok () s ∨ generate (Program.toTree p) = .error .missingMain s

/-- What the tables of `s` have, behind the elements `before` with the tables of `s₀`, from an
element that has failed. -/
def Leaves (before : List Stmt) (s₀ s : Emitter) (e : EmitError) : Stmt → Prop
  | .func f params _ =>
    f ≠ Scope.toplevel ∧
      if f ∈ Program.functionNames before then
        e = .duplicateFunction f ∧ s.functions = s₀.functions ∧ ∀ g, s.scope g = s₀.scope g
      else
        s.functions.entries =
            s₀.functions.entries ++ [(f, ⟨Program.addressAfter before, params.length⟩)] ∧
          (∀ x, (s.scope f).params.get? x =
            if x ∈ params then some (params.length - 1 - params.idxOf x) else none) ∧
          ∀ g, g ≠ f → s.scope g = s₀.scope g
  | .assign x _ =>
    s.functions = s₀.functions ∧ (∀ g, g ≠ Scope.toplevel → s.scope g = s₀.scope g) ∧
      (s.scope Scope.toplevel = s₀.scope Scope.toplevel ∨
        s.scope Scope.toplevel = (s₀.scope Scope.toplevel).allot x)
  | _ => False

/-- The functions of `before` have in `s` what they have in `s₀`, in the same order. -/
structure Keeps (before : List Stmt) (s₀ s : Emitter) : Prop where
  functions : s₀.functions.entries <+: s.functions.entries
  info : ∀ f ∈ Program.functionNames before, s.functions.get? f = s₀.functions.get? f
  scope : ∀ f ∈ Program.functionNames before, s.scope f = s₀.scope f

theorem generate_eq (p : List Stmt) :
    generate (Program.toTree p) = (do
      genElements (Stmt.toTrees p)
      match (← get).functions.get? Program.mainName with
      | some info => patch 1 info.address
      | none => throw .missingMain : EmitM Unit).run booted := by
  rw [generate, Program.toTree, gen]
  rfl

theorem completes_of_elements (h : (genElements (Stmt.toTrees p)).run booted = .ok () s) :
    ∃ code, Completes p { s with code := code } := by
  have hrest := generate_eq p
  rw [run_bind_of_ok h, run_bind_of_ok (EStateM.run_get _)] at hrest
  split at hrest
  next info _ => exact ⟨_, .inl (hrest.trans (run_patch 1 info.address s))⟩
  next => exact ⟨s.code, .inr hrest⟩

theorem generate_of_elements_error (h : (genElements (Stmt.toTrees p)).run booted = .error e s) :
    generate (Program.toTree p) = .error e s := by
  rw [generate_eq, run_bind_eq_error]
  exact .inl h

theorem generate_error (h : generate (Program.toTree p) = .error e s) :
    (genElements (Stmt.toTrees p)).run booted = .error e s ∨
      e = .missingMain ∧ (genElements (Stmt.toTrees p)).run booted = .ok () s ∧
        s.functions.get? Program.mainName = none := by
  rw [generate_eq, run_bind_eq_error] at h
  rcases h with h | ⟨_, s₁, helements, h⟩
  · exact .inl h
  · rw [run_bind_of_ok (EStateM.run_get _)] at h
    split at h
    next => cases h
    next hnone =>
      cases h
      exact .inr ⟨rfl, helements, hnone⟩

theorem registers_of_elements (hp : ∀ S ∈ p, S.Element) (hn : Program.Named p)
    (h : (genElements (Stmt.toTrees p)).run booted = .ok () s) : s.Registers p := by
  obtain ⟨htop, hscope⟩ := elements_scopes hp hn h
  obtain ⟨haccepted, -, hcontext, -⟩ := gen_elements hp rfl h
  have hfunctions : s.functions = (Program.contextAfter p).functions :=
    congrArg Context.functions hcontext
  exact ⟨hfunctions ▸ Program.entries_contextAfter haccepted, hscope, htop⟩

theorem registers_of_generate (hp : ∀ S ∈ p, S.Element) (hn : Program.Named p)
    (h : generate (Program.toTree p) = .ok () s) : s.Registers p := by
  obtain ⟨s₁, code, helements, rfl⟩ := generate_elements h
  have h₁ := registers_of_elements hp hn helements
  exact ⟨h₁.functions, h₁.scope, h₁.toplevel⟩

theorem Registers.get?_eq_none_iff (h : s.Registers p) {f : Label} :
    s.functions.get? f = none ↔ f ∉ Program.functionNames p := by
  rw [Table.get?_eq_none_iff, h.functions, Program.map_fst_declarations]

/-- What is left of a failed element changes nothing about the functions before it. -/
theorem Leaves.keeps (hn : Program.Named before) (h : s₀.Registers before) {S : Stmt}
    (hS : Leaves before s₀ s e S) : Keeps before s₀ s := by
  cases S with
  | assign x v =>
    obtain ⟨hfunctions, hothers, -⟩ := hS
    refine ⟨by rw [hfunctions], fun f _ => by rw [hfunctions], fun f hf => hothers f ?_⟩
    obtain ⟨params, body, hmem⟩ := Program.mem_functionNames.mp hf
    exact hn f params body hmem
  | func f params body =>
    obtain ⟨-, hcase⟩ := hS
    by_cases hf : f ∈ Program.functionNames before
    · rw [if_pos hf] at hcase
      obtain ⟨-, hfunctions, hscopes⟩ := hcase
      exact ⟨by rw [hfunctions], fun g _ => by rw [hfunctions], fun g _ => hscopes g⟩
    · rw [if_neg hf] at hcase
      obtain ⟨hentries, -, hothers⟩ := hcase
      refine ⟨⟨_, hentries.symm⟩, fun g hg => ?_, fun g hg => hothers g ?_⟩
      -- The new entry stands behind the one of `g`, where a lookup does not come.
      · have hget : (s₀.functions.get? g).isSome := by
          rw [Option.isSome_iff_ne_none, ne_eq, h.get?_eq_none_iff, not_not]
          exact hg
        rw [Table.get?, hentries, List.lookup_append]
        exact Option.or_of_isSome hget
      · rintro rfl
        exact hf hg
  | _ => exact hS.elim

theorem leaves_of_error {S : Stmt} (hp : ∀ T ∈ before ++ [S], T.Element)
    (hn : Program.Named (before ++ [S]))
    (hbefore : (genElements (Stmt.toTrees before)).run booted = .ok () s₀)
    (h₀ : s₀.Registers before) (h : (genElements [S.toTree]).run s₀ = .error e s) :
    Leaves before s₀ s e S ∧ e ≠ .missingMain := by
  have hS := hp S (List.mem_append_right _ List.mem_cons_self)
  obtain ⟨-, hcode, -, hcurrent⟩ :=
    gen_elements (fun T hT => hp T (List.mem_append_left _ hT)) rfl hbefore
  cases S with
  | assign x v =>
    obtain ⟨hfunctions, hothers, hcase, he⟩ := genElement_assign_error h
    rw [hcurrent] at hothers hcase
    exact ⟨⟨hfunctions, hothers, hcase⟩, he⟩
  | noop =>
    rcases genElement_error h with ⟨hkind, -⟩ | ⟨s₁, -, -, h⟩
    · cases hkind
    · rw [Stmt.toTree, Tree.leaf, gen] at h
      cases h
  | func f params body =>
    obtain ⟨he, hcase⟩ := genElement_func_error hS h
    refine ⟨⟨hn f params body (List.mem_append_right _ List.mem_cons_self), ?_⟩, he⟩
    have hcontains : s₀.functions.contains f = true ↔ f ∈ Program.functionNames before := by
      rw [Table.contains, Option.isSome_iff_ne_none, ne_eq, h₀.get?_eq_none_iff, not_not]
    by_cases hf : f ∈ Program.functionNames before
    · rw [if_pos (hcontains.mpr hf)] at hcase
      rw [if_pos hf]
      exact ⟨hcase.1, hcase.2.functions, hcase.2.scope⟩
    · rw [if_neg (mt hcontains.mp hf)] at hcase
      rw [if_neg hf]
      obtain ⟨hfunctions, hparams, hothers⟩ := hcase
      refine ⟨?_, fun x => by rw [hparams, get?_paramSlots], hothers⟩
      have hsize : s₀.code.size = Program.addressAfter before := by
        rw [hcode, Array.size_append, List.size_toArray]
        rfl
      rw [hfunctions, Table.entries_insert (h₀.get?_eq_none_iff.mpr hf), hsize]
  | _ => exact hS.elim

end Programs

end Emitter

/-- A program whose generation fails has all its elements registered if only the main function is
missing. Otherwise it fails in one of them. The functions before it are registered as in the program
that ends there. From the failed one there is nothing if it declares a function a second time, one
more function with all its parameters if it declares a new one, and at most a slot for its target if
it is an assignment. -/
theorem failed_generation_registers {ts : List Token} {p : Program} {e : EmitError} {s : Emitter}
    (hts : ∀ t ∈ ts, t.kind = .identifier → t.value ≠ Scope.toplevel)
    (hparse : parseProgram ts = .ok p) (h : Emitter.generate p.toTree = .error e s) :
    (e = .missingMain ∧ Program.mainName ∉ Program.functionNames p ∧ s.Registers p) ∨
      e ≠ .missingMain ∧ ∃ before S after s₀, p = before ++ S :: after ∧
        Emitter.generate (Program.toTree (before ++ [S])) = .error e s ∧
        Emitter.Completes before s₀ ∧ s₀.Registers before ∧
        Emitter.Keeps before s₀ s ∧ Emitter.Leaves before s₀ s e S := by
  have hp := parseProgram_element hparse
  have hn := Program.named_of_tokens hts hparse
  rcases Emitter.generate_error h with h | ⟨he, helements, hmain⟩
  · obtain ⟨before, S, after, s₁, rfl, hbefore, hS⟩ := Emitter.genElements_error h
    have hsub : ∀ T ∈ before ++ [S], T ∈ before ++ S :: after := fun T hT => by
      rw [List.append_cons]
      exact List.mem_append_left after hT
    have hp' : ∀ T ∈ before ++ [S], T.Element := fun T hT => hp T (hsub T hT)
    have hn' : Program.Named (before ++ [S]) :=
      fun f params body hmem => hn f params body (hsub _ hmem)
    have hnbefore : Program.Named before :=
      fun f params body hmem => hn' f params body (List.mem_append_left _ hmem)
    have h₁ := Emitter.registers_of_elements (fun T hT => hp' T (List.mem_append_left _ hT))
      hnbefore hbefore
    obtain ⟨hleaves, he⟩ := Emitter.leaves_of_error hp' hn' hbefore h₁ hS
    obtain ⟨code, hcompletes⟩ := Emitter.completes_of_elements hbefore
    refine .inr ⟨he, before, S, after, { s₁ with code := code }, rfl, ?_, hcompletes,
      ⟨h₁.functions, h₁.scope, h₁.toplevel⟩, ?_, ?_⟩
    · apply Emitter.generate_of_elements_error
      rw [Stmt.toTrees_append, Emitter.genElements_append, run_bind_of_ok hbefore]
      exact hS
    · obtain ⟨hfunctions, hinfo, hscope⟩ := hleaves.keeps hnbefore h₁
      exact ⟨hfunctions, hinfo, hscope⟩
    · exact hleaves
  · have hregisters := Emitter.registers_of_elements hp hn helements
    exact .inl ⟨he, hregisters.get?_eq_none_iff.mp hmain, hregisters⟩

/-- The second function reads a name that is never assigned. Of the program, the function and the
assignment before it stay registered. -/
theorem failed_generation_registers_undeclared :
    let f : Label := some (.word "f")
    let g : Label := some (.word "g")
    let x : Label := some (.word "x")
    let y : Label := some (.word "y")
    let z : Label := some (.word "z")
    let p : Program :=
      [.func f [x] [.ret (.var x)], .assign y (.num (some (.int 1))),
       .func g [x, z] [.assign y (.var x), .ret (.var f)], .func Program.mainName [] [.noop]]
    ∃ (ts : List Token) (s : Emitter),
      tokenize "function f(x){return x;}y=1;function g(x,z){y=x;return f;}function main(){;}" =
        .ok ts ∧
      parseProgram ts = .ok p ∧ Emitter.generate p.toTree = .error (.undeclared f g) s ∧
      ∃ before S after s₀, p = before ++ S :: after ∧
        Emitter.generate (Program.toTree (before ++ [S])) = .error (.undeclared f g) s ∧
        Emitter.Completes before s₀ ∧ s₀.Registers before ∧
        Emitter.Keeps before s₀ s ∧ Emitter.Leaves before s₀ s (.undeclared f g) S := by
  intro f g x y z p
  let name (x : Label) : Token := ⟨.identifier, x⟩
  let ts : List Token :=
    [⟨.functionWord, none⟩, name f, ⟨.lparen, none⟩, name x, ⟨.rparen, none⟩, ⟨.lbrace, none⟩,
     ⟨.returnWord, none⟩, name x, ⟨.semi, none⟩, ⟨.rbrace, none⟩,
     name y, ⟨.assign, none⟩, ⟨.number, some (.int 1)⟩, ⟨.semi, none⟩,
     ⟨.functionWord, none⟩, name g, ⟨.lparen, none⟩, name x, ⟨.comma, none⟩, name z,
     ⟨.rparen, none⟩, ⟨.lbrace, none⟩, name y, ⟨.assign, none⟩, name x, ⟨.semi, none⟩,
     ⟨.returnWord, none⟩, name f, ⟨.semi, none⟩, ⟨.rbrace, none⟩,
     ⟨.functionWord, none⟩, name Program.mainName, ⟨.lparen, none⟩, ⟨.rparen, none⟩,
     ⟨.lbrace, none⟩, ⟨.semi, none⟩, ⟨.rbrace, none⟩, ⟨.eof, none⟩]
  have hscan :
      tokenize "function f(x){return x;}y=1;function g(x,z){y=x;return f;}function main(){;}" =
        .ok ts := by decide +kernel
  have hparse : parseProgram ts = .ok p := by cbv
  obtain ⟨s, hs⟩ := exists_of_run_error (x := Emitter.gen p.toTree) (s := {})
    (e := .undeclared f g) (by decide +kernel)
  refine ⟨ts, s, hscan, hparse, hs, ?_⟩
  rcases failed_generation_registers (by decide +kernel) hparse hs with ⟨he, -⟩ | ⟨-, hfailed⟩
  · cases he
  · exact hfailed

end StackLang
