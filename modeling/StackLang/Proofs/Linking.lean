import StackLang.Proofs.Simulation

namespace StackLang

open Session Machine

variable {s : Session} {p : Program}

section Functions

theorem elementContext_func (Γ : Context) (a : Nat) (f : Label) (params : List Label)
    (body : List Stmt) : ((Stmt.func f params body).elementContext Γ a).functions =
      Γ.functions.insert f ⟨a, params.length⟩ := by
  rw [Stmt.elementContext]
  split
  · rw [(Stmt.contextAll_keeps _ body).1]
    rfl
  · rfl

theorem elementContext_of_not_func (Γ : Context) (a : Nat) {st : Stmt}
    (h : ∀ f params body, st ≠ .func f params body) :
    (st.elementContext Γ a).functions = Γ.functions := by
  cases st with
  | func f params body => exact absurd rfl (h f params body)
  | _ => exact (Stmt.context_keeps Γ _).1

/-- A function keeps its entry, because no other one has its name. -/
theorem elementContext_grows {Γ : Context} {a : Nat} {st : Stmt} (hst : st.Accepted Γ a) {f : Label}
    {info : FunctionInfo} (h : Γ.functions.get? f = some info) :
    (st.elementContext Γ a).functions.get? f = some info := by
  cases st with
  | func g params body =>
    have hne : f ≠ g := by
      rintro rfl
      rw [hst.1] at h
      cases h
    rw [elementContext_func, Table.get?_insert, if_neg hne, h]
  | _ => rwa [elementContext_of_not_func Γ a (by simp)]

theorem elementsContext_grows {Γ : Context} {a : Nat} {q : List Stmt}
    (hq : Program.Accepted Γ a q) {f : Label} {info : FunctionInfo}
    (h : Γ.functions.get? f = some info) :
    (Program.elementsContext Γ a q).functions.get? f = some info := by
  induction q generalizing Γ a with
  | nil => exact h
  | cons st q ih => exact ih hq.2 (elementContext_grows hq.1 h)

/-- The code of a function stands at its address. It was made with the functions declared up to it
itself, and these are what they are in the whole program. -/
def Linked (s : Session) (q : List Stmt) (functions : Table FunctionInfo) (f : Label)
    (info : FunctionInfo) : Prop :=
  ∃ Γ params body, Program.find? q f = some (params, body) ∧ info.paramCount = params.length ∧
    (∀ g i, (Stmt.inside Γ info.address f params).functions.get? g = some i →
      functions.get? g = some i) ∧
    Stmt.ResolvedAll (Stmt.inside Γ info.address f params) body ∧
    s.Holds info.address (Stmt.codeAll (Stmt.inside Γ info.address f params) info.address body)

theorem find?_cons_of_ne {q : List Stmt} {st : Stmt} {f : Label}
    (h : ∀ params body, st ≠ .func f params body) :
    Program.find? (st :: q) f = Program.find? q f := by
  cases st with
  | func g params body =>
    have hne : g ≠ f := by
      rintro rfl
      exact h params body rfl
    simp [Program.find?, hne]
  | _ => simp [Program.find?]

theorem elements_linked {Γ : Context} {a : Nat} {q : List Stmt} (hq : Program.Accepted Γ a q)
    (hc : s.Holds a (Program.elementsCode Γ a q)) {f : Label} {info : FunctionInfo}
    (h : (Program.elementsContext Γ a q).functions.get? f = some info) :
    Γ.functions.get? f = some info ∨ Γ.functions.get? f = none ∧
      Linked s q (Program.elementsContext Γ a q).functions f info := by
  induction q generalizing Γ a with
  | nil => exact .inl h
  | cons st q ih =>
    obtain ⟨hst, hq⟩ := hq
    obtain ⟨hcst, hcq⟩ := hc.append
    rcases ih hq hcq h with hold | ⟨hnew, Δ, params, body, hfind, hlinked⟩
    · -- `f` is declared up to `st`
      cases st with
      | func g params body =>
        rw [elementContext_func, Table.get?_insert] at hold
        by_cases hfg : f = g
        · rw [if_pos hfg] at hold
          cases hold
          subst hfg
          refine .inr ⟨hst.1, Γ, params, body, by simp [Program.find?], rfl, ?_, hst.2, hcst⟩
          intro g i hg
          apply elementsContext_grows hq
          rw [elementContext_func]
          exact hg
        · rw [if_neg hfg] at hold
          exact .inl hold
      | _ =>
        rw [elementContext_of_not_func Γ a (by simp)] at hold
        exact .inl hold
    · -- `f` is declared behind `st`
      have hne : ∀ params body, st ≠ .func f params body := by
        rintro params body rfl
        rw [elementContext_func, Table.get?_insert, if_pos rfl] at hnew
        cases hnew
      have hnone : Γ.functions.get? f = none := by
        cases hg : Γ.functions.get? f with
        | none => rfl
        | some i =>
          rw [elementContext_grows hst hg] at hnew
          cases hnew
      exact .inr ⟨hnone, Δ, params, body, by rw [find?_cons_of_ne hne, hfind], hlinked⟩

end Functions

theorem CallsFollow.mono {fuel : Nat} {functions functions' : Table FunctionInfo}
    (h : CallsFollow s p fuel functions)
    (hsub : ∀ f info, functions'.get? f = some info → functions.get? f = some info) :
    CallsFollow s p fuel functions' :=
  fun f info hf => h f info (hsub f info hf)

/-- Every function assigns fewer names than a stack can grow by at once. -/
def Program.Bounded (p : Program) : Prop :=
  ∀ f params body, .func f params body ∈ p → (Stmt.assignedAll [] body).length < 2 ^ 63

theorem mem_of_find? {f : Label} {params : List Label} {body : List Stmt}
    (h : p.find? f = some (params, body)) : .func f params body ∈ p := by
  obtain ⟨st, hst, h⟩ := List.exists_of_findSome?_eq_some h
  split at h
  next g _ _ =>
    split at h
    next hg =>
      cases h
      rwa [← hg]
    next => cases h
  next => cases h

section Activations

variable {functions : Table FunctionInfo} {fuel : Nat}

theorem body_follows (hp : p.Bounded) (hcalls : CallsFollow s p fuel functions) {f : Label}
    {info : FunctionInfo} (hf : Linked s p functions f info) :
    ∃ params body a, p.find? f = some (params, body) ∧ info.paramCount = params.length ∧
      info.address ≤ s.program.size ∧
      ∀ {arg b argc st}, Frame (Stmt.assignedAll [] body) (Emitter.paramSlots params) arg {} b st →
        s.Follows fuel (running info.address b argc st)
          (Stmt.execAll (p.invoke fuel) fuel arg [] {} body)
          (Ends s (Stmt.assignedAll [] body) (Emitter.paramSlots params) arg params.length b a argc
            st) := by
  obtain ⟨Γ, params, body, hfind, hcount, hsub, hr, hc⟩ := hf
  have haddress := hc.le
  refine ⟨params, body, info.address + (Stmt.codeAll (Stmt.inside Γ info.address f params)
    info.address body).length, hfind, hcount, by omega, fun hframe => ?_⟩
  exact stmts_follow (hcalls.mono hsub) (hp f params body (mem_of_find? hfind)) body
    ⟨rfl, rfl, rfl⟩ ⟨Table.numbers_nil, List.nil_prefix⟩ List.prefix_rfl hr hc hframe

theorem eq_append_of_take {st st' : List Int} {b : Nat} (h : st.take (b + 1) = st') :
    ∃ X, st = st' ++ X :=
  ⟨st.drop (b + 1), by rw [← h, List.take_append_drop]⟩

/-- A return finds the frame of its activation, because nothing below the locals has changed. -/
theorem execute_ret_keeps (halting : Bool) (sink : Sink) {size pc n target : Nat}
    {S args st : List Int} {cell saved argc v : Int} (hn : args.length = n)
    (ht : target ≤ size)
    (hk : Keeps n (S.length + 2 + args.length) args.length
      (S ++ cell :: (target : Int) :: (args ++ [saved])) argc st) :
    (execute halting sink size ⟨.ret, 0⟩).run
        (running pc ((S.length + 2 + args.length : Nat) : Int) argc (st ++ [v])) =
      .ok none (running target saved args.length (S ++ [v])) := by
  have hargc : argc = args.length := by rw [hk.argc (by rw [hn]), hn]
  have hframe : (S ++ cell :: (target : Int) :: (args ++ [saved])).length =
      S.length + 2 + args.length + 1 := by
    simp only [List.length_append, List.length_cons, List.length_nil]
    omega
  obtain ⟨X, rfl⟩ := eq_append_of_take (hk.below.trans (List.take_of_length_le hframe.le))
  have hstack : S ++ cell :: (target : Int) :: (args ++ [saved]) ++ X ++ [v] =
      S ++ cell :: (target : Int) :: (args ++ saved :: X) ++ [v] := by simp
  rw [hargc, hstack]
  exact execute_ret _ _ _ rfl rfl ht

/-- The machine follows calls that are nested less than `fuel` deep. The jump is the step that the
depth of the nesting is paid with. -/
theorem calls_follow (hp : p.Bounded)
    (hlinked : ∀ f info, functions.get? f = some info → Linked s p functions f info) (fuel : Nat) :
    CallsFollow s p fuel functions := by
  induction fuel with
  | zero => exact fun _ _ _ _ _ _ _ _ _ _ _ _ _ => ⟨0, _, Nat.le_refl 0, .refl _⟩
  | succ fuel ih =>
    intro f info hf pc target code S args cell saved hjump htarget hargs
    obtain ⟨params, body, a, hfind, hcount, haddress, hbody⟩ :=
      body_follows hp ih (hlinked f info hf)
    rw [hcount] at hargs
    rw [Program.invoke, hfind]
    apply (hjump.step (execute_jmp _ _ _ haddress)).moves.follows _ (Nat.add_comm fuel 1).le
    apply (hbody (Frame.enter hargs S cell target saved)).bind
    rintro (env | v) m hm
    · trivial
    · obtain ⟨pc', code', argc', st', hret, rfl, hb, hk⟩ := hm
      exact ⟨1, _, (hret.step (execute_ret_keeps _ _ hargs htarget hk)).moves, rfl⟩

/-- From the start of a program on the machine follows the call of its main function, and halts with
the result in the cell that was put on the stack for it. -/
theorem main_follows (hp : p.Bounded) (hhalt : s.config.haltOnReturn = true)
    (hlinked : ∀ f info, functions.get? f = some info → Linked s p functions f info)
    {info : FunctionInfo} (hmain : functions.get? Program.mainName = some info)
    (hboot : s.Holds 0 [⟨.push, 0⟩, ⟨.jmp, info.address⟩]) (fuel : Nat) :
    s.Follows fuel (running 0 0 0 []) (p.invoke fuel Program.mainName []) fun v m =>
      ∃ pc argc st, m = { running pc 0 argc (v :: st) with halted := true } := by
  cases fuel with
  | zero => exact ⟨0, _, Nat.le_refl 0, .refl _⟩
  | succ fuel =>
    obtain ⟨params, body, a, hfind, -, haddress, hbody⟩ :=
      body_follows hp (calls_follow hp hlinked fuel) (hlinked _ info hmain)
    rw [Program.invoke, hfind]
    apply (hboot.step (execute_push _ _ _ 0)).follows
    apply (hboot.tail.step (execute_jmp _ _ _ haddress)).moves.follows _ (Nat.add_comm fuel 1).le
    apply (hbody (Frame.initial params 0)).bind
    rintro (env | v) m hm
    · trivial
    · obtain ⟨pc, code, argc, st, hret, rfl, hb, -⟩ := hm
      obtain ⟨x, st, rfl⟩ := List.exists_cons_of_length_pos hb
      refine ⟨1, _, (hret.step ?_).moves, pc + 1, argc, st, rfl⟩
      rw [hhalt]
      exact execute_ret_toplevel _ _

end Activations

theorem holds_elements (hc : s.program.toList = p.code) :
    s.Holds 2 (Program.elementsCode Program.start 2 p) :=
  ⟨p.code.take 2, [], by simp [hc, Program.code], rfl⟩

/-- A session whose program is the code of an accepted program links all its functions, and the
main function is one of them. -/
theorem code_linked (hp : Program.Accepted Program.start 2 p) (hc : s.program.toList = p.code) :
    ∀ f info, (Program.elementsContext Program.start 2 p).functions.get? f = some info →
      Linked s p (Program.elementsContext Program.start 2 p).functions f info := by
  intro f info hf
  rcases elements_linked hp (holds_elements hc) hf with h | ⟨-, h⟩
  · cases h
  · exact h

theorem code_boot (hc : s.program.toList = p.code) {info : FunctionInfo}
    (hmain : (Program.elementsContext Program.start 2 p).functions.get? Program.mainName =
      some info) : s.Holds 0 [⟨.push, 0⟩, ⟨.jmp, info.address⟩] := by
  have hentry : (Program.elementsContext Program.start 2 p).entry Program.mainName =
      info.address := by
    simp [Context.entry, hmain]
  refine ⟨[], Program.elementsCode Program.start 2 p, ?_, rfl⟩
  rw [hc, Program.code, ← hentry]
  rfl

end StackLang
