import StackLang.Proofs.Frames
import Mathlib.Algebra.Group.Nat.Defs

namespace StackLang

open Session Machine

variable {s : Session} {p : Program} {fuel : Nat}

/-- From the jump of any call of one of these functions on, the machine follows the call. The frame
has been built: the cell for the result, the return address, the arguments, the caller's base. -/
def CallsFollow (s : Session) (p : Program) (fuel : Nat) (functions : Table FunctionInfo) : Prop :=
  ∀ f info, functions.get? f = some info →
    ∀ (pc target : Nat) (code : List Instruction) (S args : List Int) (cell saved : Int),
      s.Holds pc (⟨.jmp, info.address⟩ :: code) → target ≤ s.program.size →
      args.length = info.paramCount →
      s.Follows fuel
        (running pc ((S.length + 2 + args.length : Nat) : Int) args.length
          (S ++ cell :: (target : Int) :: (args ++ [saved])))
        (p.invoke fuel f args)
        fun v m => m = running target saved args.length (S ++ [v])

/-- The instructions in front of the jump of a call build the frame: above the arguments stands the
caller's base, at the new base. -/
theorem moves_frame {pc n : Nat} {bp argc : Int} {st : List Int} {code : List Instruction}
    (hc : s.Holds pc (⟨.push, n⟩ :: ⟨.strargc, 0⟩ :: ⟨.ldbp, 0⟩ :: ⟨.ldsp, 0⟩ :: ⟨.strbp, 0⟩ ::
      code)) :
    s.Moves 5 (running pc bp argc st) (running (pc + 5) st.length n (st ++ [bp])) := by
  have htop : ((st ++ [bp]).length : Int) - 1 = st.length := by simp
  have hsp : (execute s.config.haltOnReturn s.sink s.program.size ⟨.ldsp, 0⟩).run
      (running (pc + 1 + 1 + 1) bp n (st ++ [bp])) = _ := execute_ldsp _ _ _
  rw [htop] at hsp
  exact .step (hc.step (execute_push _ _ _ n)) <|
    .step (hc.tail.step (execute_strargc _ _ _ n)) <|
    .step (hc.tail.tail.step (execute_ldbp _ _ _)) <|
    .step (hc.tail.tail.tail.step hsp) <|
    (hc.tail.tail.tail.tail.step (execute_strbp _ _ _ _)).moves

theorem moves_epilogue {pc k : Nat} {bp argc : Int} {st : List Int} {code : List Instruction}
    (hc : s.Holds pc (⟨.push, k⟩ :: ⟨.strargc, 0⟩ :: code)) :
    s.Moves 2 (running pc bp argc st) (running (pc + 2) bp k st) :=
  .step (hc.step (execute_push _ _ _ k)) (hc.tail.step (execute_strargc _ _ _ k)).moves

/-- A call whose arguments have been evaluated replaces them, the return address and the cell for
the result by the result. -/
theorem call_follows {functions : Table FunctionInfo} (hcalls : CallsFollow s p fuel functions)
    {f : Label} {info : FunctionInfo} (hf : functions.get? f = some info) {pc k : Nat}
    {bp argc cell : Int} {st vs : List Int} {code : List Instruction}
    (hn : vs.length = info.paramCount)
    (hc : s.Holds pc (⟨.push, vs.length⟩ :: ⟨.strargc, 0⟩ :: ⟨.ldbp, 0⟩ :: ⟨.ldsp, 0⟩ ::
      ⟨.strbp, 0⟩ :: ⟨.jmp, info.address⟩ :: ⟨.push, k⟩ :: ⟨.strargc, 0⟩ :: code)) :
    s.Follows fuel (running pc bp argc (st ++ cell :: ((pc + 6 : Nat) : Int) :: vs))
      (p.invoke fuel f vs) fun v m => m = running (pc + 8) bp k (st ++ [v]) := by
  have hjump := hc.tail.tail.tail.tail.tail
  have hback := hjump.tail.le
  have hframe : s.Moves 5 (running pc bp argc (st ++ cell :: ((pc + 6 : Nat) : Int) :: vs))
      (running (pc + 5) ((st.length + 2 + vs.length : Nat) : Int) vs.length
        (st ++ cell :: ((pc + 6 : Nat) : Int) :: (vs ++ [bp]))) := by
    have h : s.Moves 5 (running pc bp argc (st ++ cell :: ((pc + 6 : Nat) : Int) :: vs)) _ :=
      moves_frame hc
    have hlength : (st ++ cell :: ((pc + 6 : Nat) : Int) :: vs).length =
        st.length + 2 + vs.length := by
      simp only [List.length_append, List.length_cons]
      omega
    rwa [hlength, List.append_assoc] at h
  apply hframe.follows _ (Nat.le_add_left fuel 5)
  apply (hcalls f info hf _ (pc + 6) _ st vs cell bp hjump (by omega) hn).moves
  rintro v m rfl
  exact ⟨2, _, moves_epilogue hjump.tail, rfl⟩

section Expressions

variable {Γ : Context} {names all : List Label} {arg : Label → Option Int} {env : Table Int}
  {b : Nat}

/-- The value is on top of the stack and the code has been left at its end. The argument count is
that of the function if it was so before. -/
def Yields (Γ : Context) (b : Nat) (a : Nat) (argc : Int) (st : List Int) (vs : List Int)
    (m : Machine) : Prop :=
  ∃ argc' : Int, m = running a b argc' (st ++ vs) ∧ (argc = Γ.argc → argc' = Γ.argc)

mutual

theorem expr_follows (hcalls : CallsFollow s p fuel Γ.functions) (hn : Γ.Names names all) :
    (e : Expr) → {a : Nat} → {argc : Int} → {st : List Int} → e.Resolved Γ →
    s.Holds a (e.code Γ) → Frame all Γ.scope.params arg env b st →
    s.Follows fuel (running a b argc st) (e.eval (p.invoke fuel) (Stmt.valueOf arg names env))
      fun v => Yields Γ b (a + (e.code Γ).length) argc st [v]
  | .num v, a, argc, st, hr, hc, _ => by
    obtain ⟨n, rfl⟩ := hr
    exact (hc.step (execute_push _ _ _ n)).follows (.done ⟨argc, rfl, id⟩)
  | .var x, a, argc, st, _, hc, hf => by
    rw [Expr.eval]
    cases hv : Stmt.valueOf arg names env x with
    | none => trivial
    | some v => exact (hc.step (hf.execute_load hn hv _ _ _)).follows (.done ⟨argc, rfl, id⟩)
  | .binary op l r, a, argc, st, hr, hc, hf => by
    rw [Expr.code] at hc
    obtain ⟨hc, hop⟩ := hc.append
    obtain ⟨hcr, hcl⟩ := hc.append
    rw [Expr.eval]
    apply (expr_follows hcalls hn r hr.1 hcr hf).bind
    rintro y m ⟨argc₁, rfl, h₁⟩
    apply (expr_follows hcalls hn l hr.2 hcl (hf.append [y])).bind
    rintro x m ⟨argc₂, rfl, h₂⟩
    cases hv : op.eval? x y with
    | none => trivial
    | some v =>
      rw [List.length_append, ← Nat.add_assoc] at hop
      apply (hop.step (execute_binary _ _ _ hv)).follows
      exact .done ⟨argc₂, by simp [Expr.code, Nat.add_assoc], fun h => h₂ (h₁ h)⟩
  | .call f args, a, argc, st, hr, hc, hf => by
    obtain ⟨⟨info, hinfo, hcount⟩, hrargs⟩ := hr
    have hentry : Γ.entry f = info.address := by simp [Context.entry, hinfo]
    rw [Expr.code, hentry] at hc
    obtain ⟨hc, hclose⟩ := hc.append
    obtain ⟨hopen, hcargs⟩ := hc.append
    rw [List.length_append, ← Nat.add_assoc] at hclose
    rw [Expr.eval]
    -- the return address is that of the epilogue
    have hldpc : (execute s.config.haltOnReturn s.sink s.program.size
        ⟨.ldpc, (Expr.codeAll Γ args).length + 7⟩).run
        (running (a + 1) b argc (st ++ [Emitter.placeholder])) = _ :=
      execute_ldpc _ _ _ ((Expr.codeAll Γ args).length + 7)
    apply (hopen.step (execute_push _ _ _ _)).follows
    apply (hopen.tail.step hldpc).follows
    apply (exprs_follow hcalls hn args hrargs hcargs ((hf.append _).append _)).bind
    rintro vs m ⟨hl, argc₁, rfl, -⟩
    rw [← hl] at hclose hcount
    have hreturn : a + 1 + ((Expr.codeAll Γ args).length + 7) =
        a + 2 + (Expr.codeAll Γ args).length + 6 := by omega
    rw [hreturn, List.append_assoc, List.append_assoc]
    apply (call_follows hcalls hinfo hcount hclose).moves
    rintro v m rfl
    have hend : a + 2 + (Expr.codeAll Γ args).length + 8 =
        a + (Expr.code Γ (.call f args)).length := by
      rw [Expr.length_code_call]
      omega
    exact ⟨0, _, .refl _, Γ.argc, congrArg (running · b Γ.argc (st ++ [v])) hend, fun _ => rfl⟩

theorem exprs_follow (hcalls : CallsFollow s p fuel Γ.functions) (hn : Γ.Names names all) :
    (es : List Expr) → {a : Nat} → {argc : Int} → {st : List Int} → Expr.ResolvedAll Γ es →
    s.Holds a (Expr.codeAll Γ es) → Frame all Γ.scope.params arg env b st →
    s.Follows fuel (running a b argc st)
      (Expr.evalAll (p.invoke fuel) (Stmt.valueOf arg names env) es)
      fun vs m => vs.length = es.length ∧
        Yields Γ b (a + (Expr.codeAll Γ es).length) argc st vs m
  | [], a, argc, st, _, _, _ => .done ⟨rfl, argc, by simp [Expr.codeAll], id⟩
  | e :: es, a, argc, st, hr, hc, hf => by
    obtain ⟨hce, hces⟩ := hc.append
    rw [Expr.evalAll]
    apply (expr_follows hcalls hn e hr.1 hce hf).bind
    rintro v m ⟨argc₁, rfl, h₁⟩
    apply (exprs_follow hcalls hn es hr.2 hces (hf.append [v])).bind
    rintro vs m ⟨hl, argc₂, rfl, h₂⟩
    exact .done ⟨by simp [hl], argc₂, by simp [Expr.codeAll, Nat.add_assoc],
      fun h => h₂ (h₁ h)⟩

end

end Expressions

section Placement

variable {Γ : Context} {a b d : Nat} {c : Expr} {t e : Stmt}

theorem Session.Holds.ifThen (h : s.Holds a (Stmt.code Γ a (.ifThen c t)))
    (hb : b = a + (c.code Γ).length + 1) :
    s.Holds a (c.code Γ) ∧
      s.Holds (a + (c.code Γ).length) [⟨.beq0, (b + (t.code Γ b).length : Nat)⟩] ∧
      s.Holds b (t.code Γ b) := by
  subst hb
  obtain ⟨hhead, hbody⟩ := h.append
  obtain ⟨hcond, hbranch⟩ := hhead.append
  rw [List.length_append, List.length_singleton, ← Nat.add_assoc] at hbody
  exact ⟨hcond, hbranch, hbody⟩

theorem Session.Holds.ifElse (h : s.Holds a (Stmt.code Γ a (.ifElse c t e)))
    (hb : b = a + (c.code Γ).length + 1) (hd : d = b + (t.code Γ b).length + 1) :
    s.Holds a (c.code Γ) ∧ s.Holds (a + (c.code Γ).length) [⟨.beq0, d⟩] ∧
      s.Holds b (t.code Γ b) ∧
      s.Holds (b + (t.code Γ b).length) [⟨.jmp, (d + (e.code (t.context Γ) d).length : Nat)⟩] ∧
      s.Holds d (e.code (t.context Γ) d) := by
  subst hd hb
  obtain ⟨h, hother⟩ := h.append
  obtain ⟨h, hjump⟩ := h.append
  obtain ⟨hhead, hbody⟩ := h.append
  obtain ⟨hcond, hbranch⟩ := hhead.append
  simp only [List.length_append, List.length_singleton, ← Nat.add_assoc] at hbody hjump hother
  exact ⟨hcond, hbranch, hbody, hjump, hother⟩

theorem Session.Holds.loop (h : s.Holds a (Stmt.code Γ a (.loop c t)))
    (hb : b = a + (c.code Γ).length + 1) :
    s.Holds a (c.code Γ) ∧
      s.Holds (a + (c.code Γ).length) [⟨.beq0, (b + (t.code Γ b).length + 1 : Nat)⟩] ∧
      s.Holds b (t.code Γ b) ∧ s.Holds (b + (t.code Γ b).length) [⟨.jmp, a⟩] := by
  subst hb
  obtain ⟨h, hjump⟩ := h.append
  obtain ⟨hhead, hbody⟩ := h.append
  obtain ⟨hcond, hbranch⟩ := hhead.append
  simp only [List.length_append, List.length_singleton, ← Nat.add_assoc] at hbody hjump
  exact ⟨hcond, hbranch, hbody, hjump⟩

end Placement

section Statements

variable {functions : Table FunctionInfo} {params : Table Nat} {k : Nat} {all : List Label}
  {arg : Label → Option Int} {b : Nat}

/-- What lies below the locals of a frame stays, and so does the argument count if it was that of
the function. -/
structure Keeps (k b : Nat) (argc : Int) (st : List Int) (argc' : Int) (st' : List Int) :
    Prop where
  below : st'.take (b + 1) = st.take (b + 1)
  argc : argc = k → argc' = k

theorem Keeps.trans {argc argc₁ argc₂ : Int} {st st₁ st₂ : List Int}
    (h : Keeps k b argc st argc₁ st₁) (h' : Keeps k b argc₁ st₁ argc₂ st₂) :
    Keeps k b argc st argc₂ st₂ :=
  ⟨h'.below.trans h.below, fun ha => h'.argc (h.argc ha)⟩

/-- The code of a statement has been left: at its end with new values of the variables, or at a
return with the result on the stack. -/
def Ends (s : Session) (all : List Label) (params : Table Nat) (arg : Label → Option Int)
    (k b a : Nat) (argc : Int) (st : List Int) : Completion → Machine → Prop
  | .normal env, m => ∃ argc' st', m = running a b argc' st' ∧ Frame all params arg env b st' ∧
      Keeps k b argc st argc' st'
  | .returned v, m => ∃ pc code argc' st', s.Holds pc (⟨.ret, 0⟩ :: code) ∧
      m = running pc b argc' (st' ++ [v]) ∧ b < st'.length ∧ Keeps k b argc st argc' st'

theorem Keeps.ends {a : Nat} {argc argc₁ : Int} {st st₁ : List Int} {c : Completion} {m : Machine}
    (h : Keeps k b argc st argc₁ st₁) (he : Ends s all params arg k b a argc₁ st₁ c m) :
    Ends s all params arg k b a argc st c m := by
  cases c with
  | normal env =>
    obtain ⟨argc₂, st₂, hm, hf, hk⟩ := he
    exact ⟨argc₂, st₂, hm, hf, h.trans hk⟩
  | returned v =>
    obtain ⟨pc, code, argc₂, st₂, hc, hm, hb, hk⟩ := he
    exact ⟨pc, code, argc₂, st₂, hc, hm, hb, h.trans hk⟩

/-- Only the slots of local variables differ between the contexts of a function. -/
structure Context.In (Γ : Context) (functions : Table FunctionInfo) (params : Table Nat)
    (k : Nat) : Prop where
  functions : Γ.functions = functions
  params : Γ.scope.params = params
  argc : Γ.argc = k

theorem Context.In.context {Γ : Context} (h : Γ.In functions params k) (st : Stmt) :
    (st.context Γ).In functions params k := by
  obtain ⟨hf, ha, hp⟩ := Stmt.context_keeps Γ st
  exact ⟨hf.trans h.functions, hp.trans h.params, ha.trans h.argc⟩

theorem expr_follows_in (hcalls : CallsFollow s p fuel functions) {Γ : Context}
    {names : List Label} {env : Table Int} (hΓ : Γ.In functions params k) (hn : Γ.Names names all)
    (e : Expr) {a : Nat} {argc : Int} {st : List Int} (hr : e.Resolved Γ)
    (hc : s.Holds a (e.code Γ)) (hf : Frame all params arg env b st) :
    s.Follows fuel (running a b argc st) (e.eval (p.invoke fuel) (Stmt.valueOf arg names env))
      fun v m => ∃ argc', m = running (a + (e.code Γ).length) b argc' (st ++ [v]) ∧
        Keeps k b argc st argc' st := by
  rw [← hΓ.functions] at hcalls
  rw [← hΓ.params] at hf
  apply (expr_follows hcalls hn e hr hc hf).moves
  rintro v m ⟨argc', rfl, h⟩
  rw [hΓ.argc] at h
  exact ⟨0, _, .refl _, argc', rfl, rfl, h⟩

theorem moves_cell {cell : List Instruction}
    (hcell : cell = [] ∨ cell = [⟨.push, Emitter.placeholder⟩])
    {a : Nat} {env : Table Int} {st : List Int} (hc : s.Holds a cell)
    (hf : Frame all params arg env b st) (argc : Int) :
    ∃ n st', s.Moves n (running a b argc st) (running (a + cell.length) b argc st') ∧
      Frame all params arg env b st' ∧ st'.take (b + 1) = st.take (b + 1) := by
  rcases hcell with rfl | rfl
  · exact ⟨0, st, .refl _, hf, rfl⟩
  · refine ⟨1, st ++ [Emitter.placeholder], (hc.step (execute_push _ _ _ _)).moves, hf.append _, ?_⟩
    rw [List.take_append_of_le_length hf.base]

/-- A loop is followed iteration by iteration; the jump back is a step for each. -/
theorem iterate_follows {test : Table Int → Answer Int} {body : Table Int → Answer Completion}
    {a c d e : Nat}
    (htest : ∀ {env argc st}, Frame all params arg env b st →
      s.Follows fuel (running a b argc st) (test env) fun v m =>
        ∃ argc', m = running c b argc' (st ++ [v]) ∧ Keeps k b argc st argc' st)
    (hbranch : s.Holds c [⟨.beq0, e⟩])
    (hbody : ∀ {env argc st}, Frame all params arg env b st →
      s.Follows fuel (running (c + 1) b argc st) (body env) (Ends s all params arg k b d argc st))
    (hjump : s.Holds d [⟨.jmp, a⟩]) (ha : a ≤ s.program.size) (he : e ≤ s.program.size)
    (n : Nat) (hn : n ≤ fuel)
    {env : Table Int} {argc : Int} {st : List Int} (hf : Frame all params arg env b st) :
    s.Follows n (running a b argc st) (Stmt.iterate test body n env)
      (Ends s all params arg k b e argc st) := by
  induction n generalizing env argc st with
  | zero => exact ⟨0, _, Nat.le_refl 0, .refl _⟩
  | succ n ih =>
    rw [Stmt.iterate]
    apply ((htest hf).mono hn).bind
    rintro v m ⟨argc₁, rfl, hk₁⟩
    by_cases hv : v = 0
    · rw [if_pos hv, hv]
      apply (hbranch.step (execute_beq0_zero _ _ _ he)).follows
      exact .done ⟨argc₁, st, rfl, hf, hk₁⟩
    · rw [if_neg hv]
      apply (hbranch.step (execute_beq0_ne _ _ _ hv)).follows
      apply ((hbody hf).mono hn).bind
      rintro (env | v) m hm
      · obtain ⟨argc₂, st₂, rfl, hf₂, hk₂⟩ := hm
        apply (hjump.step (execute_jmp _ _ _ ha)).moves.follows _ (Nat.add_comm n 1).le
        apply (ih (by omega) hf₂).moves
        exact fun c m hm => ⟨0, m, .refl m, (hk₁.trans hk₂).ends hm⟩
      · exact .done (hk₁.ends hm)

mutual

theorem stmt_follows (hcalls : CallsFollow s p fuel functions) (hall : all.length < 2 ^ 63) :
    (S : Stmt) → {Γ : Context} → {names : List Label} → {env : Table Int} → {a : Nat} →
    {argc : Int} → {st : List Int} → Γ.In functions params k → Γ.Names names all →
    S.assigned names <+: all → S.Resolved Γ → s.Holds a (S.code Γ a) →
    Frame all params arg env b st →
    s.Follows fuel (running a b argc st) (S.exec (p.invoke fuel) fuel arg names env)
      (Ends s all params arg k b (a + (S.code Γ a).length) argc st)
  | .noop, Γ, names, env, a, argc, st, _, _, _, _, _, hf =>
    .done ⟨argc, st, rfl, hf, rfl, id⟩
  | .func _ _ _, _, _, _, _, _, _, _, _, _, hr, _, _ => hr.elim
  | .ret e, Γ, names, env, a, argc, st, hΓ, hn, _, hr, hc, hf => by
    obtain ⟨hce, hret⟩ := hc.append
    rw [Stmt.exec]
    apply (expr_follows_in hcalls hΓ hn e hr hce hf).bind
    rintro v m ⟨argc', rfl, hk⟩
    exact .done ⟨_, _, argc', st, hret, rfl, hf.base, hk⟩
  | .block ss, Γ, names, env, a, argc, st, hΓ, hn, hs, hr, hc, hf =>
    stmts_follow hcalls hall ss hΓ hn hs hr hc hf
  | .ifThen c t, Γ, names, env, a, argc, st, hΓ, hn, hs, hr, hc, hf => by
    obtain ⟨hcond, hbranch, hbody⟩ := hc.ifThen rfl
    rw [Stmt.exec, Stmt.end_ifThen Γ a c t rfl]
    apply (expr_follows_in hcalls hΓ hn c hr.1 hcond hf).bind
    rintro v m ⟨argc', rfl, hk⟩
    by_cases hv : v = 0
    · rw [if_pos hv, hv]
      apply (hbranch.step (execute_beq0_zero _ _ _ hbody.le)).follows
      exact .done ⟨argc', st, rfl, hf, hk⟩
    · rw [if_neg hv]
      apply (hbranch.step (execute_beq0_ne _ _ _ hv)).follows
      apply (stmt_follows hcalls hall t hΓ hn hs hr.2 hbody hf).moves
      exact fun e m hm => ⟨0, m, .refl m, hk.ends hm⟩
  | .ifElse c t e, Γ, names, env, a, argc, st, hΓ, hn, hs, hr, hc, hf => by
    obtain ⟨hcond, hbranch, hbody, hjump, hother⟩ := hc.ifElse rfl rfl
    have ht := (Stmt.prefix_assigned e (t.assigned names)).trans hs
    rw [Stmt.exec, Stmt.end_ifElse Γ a c t e rfl rfl]
    apply (expr_follows_in hcalls hΓ hn c hr.1 hcond hf).bind
    rintro v m ⟨argc', rfl, hk⟩
    by_cases hv : v = 0
    · rw [if_pos hv, hv]
      have htarget := hother.le
      apply (hbranch.step (execute_beq0_zero _ _ _ (by omega))).follows
      apply (stmt_follows hcalls hall e (hΓ.context t) (hn.context ht) hs hr.2.2 hother hf).moves
      exact fun e m hm => ⟨0, m, .refl m, hk.ends hm⟩
    · rw [if_neg hv]
      apply (hbranch.step (execute_beq0_ne _ _ _ hv)).follows
      apply (stmt_follows hcalls hall t hΓ hn ht hr.2.1 hbody hf).moves
      rintro (env | v) m hm
      · obtain ⟨argc₂, st₂, rfl, hf₂, hk₂⟩ := hm
        exact ⟨1, _, (hjump.step (execute_jmp _ _ _ hother.le)).moves, argc₂, st₂, rfl, hf₂,
          hk.trans hk₂⟩
      · exact ⟨0, m, .refl m, hk.ends hm⟩
  | .loop c d, Γ, names, env, a, argc, st, hΓ, hn, hs, hr, hc, hf => by
    obtain ⟨hcond, hbranch, hbody, hjump⟩ := hc.loop rfl
    rw [Stmt.exec, Stmt.end_loop Γ a c d rfl]
    have ha := hcond.le
    exact iterate_follows (fun hf => expr_follows_in hcalls hΓ hn c hr.1 hcond hf) hbranch
      (fun hf => stmt_follows hcalls hall d hΓ hn hs hr.2 hbody hf) hjump (by omega) hjump.le
      fuel (Nat.le_refl fuel) hf
  | .assign x e, Γ, names, env, a, argc, st, hΓ, hn, hs, hr, hc, hf => by
    obtain ⟨hc, hstore⟩ := hc.append
    obtain ⟨hcell, hce⟩ := hc.append
    have hn' := hn.allot hs
    have hx := Stmt.mem_noteName names x
    have hstored : (Γ.allot x).store x = ⟨.storel, (all.idxOf x : Nat)⟩ := by
      simp [Context.store, hn'.slot hx]
    rw [hstored, List.length_append, ← Nat.add_assoc] at hstore
    have hslot : all.idxOf x + 1 ≤ maxGrowth := by
      have := List.idxOf_lt_length_iff.mpr (hs.subset hx)
      simp only [maxGrowth]
      omega
    rw [Stmt.exec]
    obtain ⟨n, st', hm, hf', hbelow⟩ := moves_cell (ite_eq_or_eq _ _ _) hcell hf argc
    apply hm.follows _ (Nat.le_add_left fuel n)
    apply (expr_follows_in hcalls (hΓ.context (.assign x e)) hn' e hr hce hf').bind
    rintro v m ⟨argc', rfl, hk⟩
    apply (hstore.step (execute_storel _ _ _ v hf'.base hslot)).follows
    refine .done ⟨argc', _, ?_, hf'.write (hs.subset hx) v, ?_, hk.argc⟩
    · rw [Stmt.code, List.length_append, List.length_append, ← Nat.add_assoc, ← Nat.add_assoc]
      rfl
    · rw [take_written (by omega) hf'.base, hbelow]

theorem stmts_follow (hcalls : CallsFollow s p fuel functions) (hall : all.length < 2 ^ 63) :
    (ss : List Stmt) → {Γ : Context} → {names : List Label} → {env : Table Int} → {a : Nat} →
    {argc : Int} → {st : List Int} → Γ.In functions params k → Γ.Names names all →
    Stmt.assignedAll names ss <+: all → Stmt.ResolvedAll Γ ss →
    s.Holds a (Stmt.codeAll Γ a ss) → Frame all params arg env b st →
    s.Follows fuel (running a b argc st) (Stmt.execAll (p.invoke fuel) fuel arg names env ss)
      (Ends s all params arg k b (a + (Stmt.codeAll Γ a ss).length) argc st)
  | [], Γ, names, env, a, argc, st, _, _, _, _, _, hf =>
    .done ⟨argc, st, rfl, hf, rfl, id⟩
  | S :: ss, Γ, names, env, a, argc, st, hΓ, hn, hs, hr, hc, hf => by
    obtain ⟨hcS, hcss⟩ := hc.append
    have hS := (Stmt.prefix_assignedAll ss (S.assigned names)).trans hs
    rw [Stmt.execAll]
    apply (stmt_follows hcalls hall S hΓ hn hS hr.1 hcS hf).bind
    rintro (env | v) m hm
    · obtain ⟨argc', st', rfl, hf', hk⟩ := hm
      apply (stmts_follow hcalls hall ss (hΓ.context S) (hn.context hS) hs hr.2 hcss hf').moves
      intro c m hm
      refine ⟨0, m, .refl m, hk.ends ?_⟩
      rw [Stmt.codeAll, List.length_append, ← Nat.add_assoc]
      exact hm
    · exact .done hm

end

end Statements

end StackLang
