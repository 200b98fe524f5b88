import StackLang.Proofs.Layout
import StackLang.Proofs.Sequencing
import Mathlib.Data.List.Basic

namespace StackLang

theorem modify_append_cons {α : Type} (xs : List α) (y : α) (ys : List α) (f : α → α) :
    (xs ++ y :: ys).modify xs.length f = xs ++ f y :: ys := by
  induction xs with
  | nil => rfl
  | cons x xs ih => simp [ih]

theorem Expr.length_toTrees (es : List Expr) : (Expr.toTrees es).length = es.length := by
  induction es with
  | nil => rfl
  | cons e es ih => simp [Expr.toTrees, ih]

namespace Emitter

/-- The context in which the next construct is generated. -/
def context (s : Emitter) : Context where
  functions := s.functions
  scope := s.scope s.current
  argc := ((s.functions.get? s.current).map (·.paramCount)).getD 0

/-- Between `s` and `s'` the code `c` was generated in the current scope, and `Γ` is the context
behind it. -/
structure Emits (s : Emitter) (c : List Instruction) (Γ : Context) (s' : Emitter) : Prop where
  code : s'.code = s.code ++ c.toArray
  context : s'.context = Γ
  current : s'.current = s.current
  others : ∀ f, f ≠ s.current → s'.scope f = s.scope f

namespace Emits

theorem refl (s : Emitter) : Emits s [] s.context s where
  code := by simp
  context := rfl
  current := rfl
  others _ _ := rfl

theorem trans {s s₁ s₂ : Emitter} {c c' : List Instruction} {Γ Γ' : Context}
    (h : Emits s c Γ s₁) (h' : Emits s₁ c' Γ' s₂) : Emits s (c ++ c') Γ' s₂ where
  code := by simp [h'.code, h.code, Array.append_assoc]
  context := h'.context
  current := h'.current.trans h.current
  others f hf := (h'.others f (by rwa [h.current])).trans (h.others f hf)

theorem emit (s : Emitter) (op : Opcode) (n : Int) :
    Emits s [⟨op, n⟩] s.context { s with code := s.code.push ⟨op, n⟩ } where
  code := by simp
  context := rfl
  current := rfl
  others _ _ := rfl

theorem size {s s' : Emitter} {c : List Instruction} {Γ : Context} (h : Emits s c Γ s') :
    s'.code.size = s.code.size + c.length := by
  simp [h.code]

theorem emit_ok {s s₁ s' : Emitter} {c : List Instruction} {Γ : Context} {op : Opcode} {n : Int}
    {a : Nat} (he : Emits s c Γ s₁) (h : (Emitter.emit op n).run s₁ = .ok a s') :
    a = s.code.size + c.length ∧ Emits s (c ++ [⟨op, n⟩]) Γ s' := by
  cases h
  have hs := he.trans (emit s₁ op n)
  rw [he.context] at hs
  exact ⟨he.size, hs⟩

theorem emitPlain_ok {s s₁ s' : Emitter} {c : List Instruction} {Γ : Context} {op : Opcode}
    (he : Emits s c Γ s₁) (h : (emitPlain op).run s₁ = .ok () s') :
    Emits s (c ++ [⟨op, 0⟩]) Γ s' := by
  cases h
  exact (he.emit_ok rfl).2

theorem patch_ok {s s₁ s' : Emitter} {c c' : List Instruction} {op : Opcode} {m n : Int}
    {Γ : Context} {address : Nat} (he : Emits s (c ++ ⟨op, m⟩ :: c') Γ s₁)
    (h : (Emitter.patch address n).run s₁ = .ok () s') (ha : address = s.code.size + c.length) :
    Emits s (c ++ ⟨op, n⟩ :: c') Γ s' := by
  cases h
  refine ⟨?_, he.context, he.current, he.others⟩
  apply Array.toList_inj.mp
  have hm := modify_append_cons (s.code.toList ++ c) ⟨op, m⟩ c' fun i => { i with operand := n }
  simpa [he.code, ha, List.append_assoc] using hm

end Emits

theorem identifier_ok {x : Label} {s s' : Emitter} (h : (identifier x).run s = .ok () s') :
    (Expr.var x).Resolved s.context ∧ Emits s ((Expr.var x).code s.context) s.context s' := by
  simp only [identifier, EStateM.run_bind, EStateM.run_get] at h
  cases hl : (s.scope s.current).locals.get? x with
  | some slot =>
    simp only [hl, EStateM.run_bind, run_emit] at h
    cases h
    refine ⟨Or.inl (by simp [context, Table.contains, hl]), ?_⟩
    simpa [Expr.code, Context.load, context, hl] using Emits.emit s .loadl slot
  | none =>
    simp only [hl] at h
    cases hp : (s.scope s.current).params.get? x with
    | some slot =>
      simp only [hp, EStateM.run_bind, run_emit] at h
      cases h
      refine ⟨Or.inr (by simp [context, Table.contains, hp]), ?_⟩
      simpa [Expr.code, Context.load, context, hl, hp] using Emits.emit s .loada slot
    | none =>
      simp only [hp] at h
      cases h

theorem callee_ok {f : Label} {n : Nat} {info : FunctionInfo} {s s' : Emitter}
    (h : (callee f n).run s = .ok info s') :
    s' = s ∧ s.functions.get? f = some info ∧ n = info.paramCount := by
  simp only [callee, EStateM.run_bind, EStateM.run_get] at h
  cases hf : s.functions.get? f with
  | none =>
    simp only [hf] at h
    cases h
  | some found =>
    simp only [hf] at h
    split at h
    next hn =>
      cases h
      exact ⟨rfl, rfl, hn⟩
    next => cases h

theorem openCall_ok {s s' : Emitter} {ldpcAt : Nat} (h : openCall.run s = .ok ldpcAt s') :
    ldpcAt = s.code.size + 1 ∧
      Emits s [⟨.push, placeholder⟩, ⟨.ldpc, placeholder⟩] s.context s' := by
  simp only [openCall, run_bind_eq_ok] at h
  obtain ⟨_, s₁, hp, hl⟩ := h
  exact ((Emits.refl s).emit_ok hp).2.emit_ok hl

theorem argc_eq {s : Emitter} :
    ((s.functions.get? s.current).map fun i => (i.paramCount : Int)).getD 0 = s.context.argc := by
  simp only [context]
  cases s.functions.get? s.current with
  | none => rfl
  | some info => rfl

theorem closeCall_ok {s s₁ s' : Emitter} {Γ : Context} {c : List Instruction} {f : Label}
    {info : FunctionInfo} {n ldpcAt : Nat}
    (he : Emits s ([⟨.push, placeholder⟩, ⟨.ldpc, placeholder⟩] ++ c) Γ s₁)
    (hf : Γ.functions.get? f = some info) (hat : ldpcAt = s.code.size + 1)
    (h : (closeCall info n ldpcAt).run s₁ = .ok () s') :
    Emits s ([⟨.push, placeholder⟩, ⟨.ldpc, c.length + 7⟩] ++ c ++
      [⟨.push, n⟩, ⟨.strargc, 0⟩, ⟨.ldbp, 0⟩, ⟨.ldsp, 0⟩, ⟨.strbp, 0⟩, ⟨.jmp, Γ.entry f⟩,
       ⟨.push, Γ.argc⟩, ⟨.strargc, 0⟩]) Γ s' := by
  simp only [closeCall, run_bind_eq_ok] at h
  obtain ⟨_, s₂, h₂, _, s₃, h₃, _, s₄, h₄, _, s₅, h₅, _, s₆, h₆, jumpAt, s₇, h₇, _, s₈, h₈,
    _, s₉, h₉, _, s₁₀, h₁₀, h₁₁⟩ := h
  cases h₉
  have hentry : Γ.entry f = info.address := by simp [Context.entry, hf]
  have e₆ := (((((he.emit_ok h₂).2.emitPlain_ok h₃).emitPlain_ok h₄).emitPlain_ok h₅).emitPlain_ok
    h₆)
  obtain ⟨hjump, e₇⟩ := e₆.emit_ok h₇
  simp only [List.append_assoc, List.cons_append, List.nil_append] at e₇
  have e₈ := Emits.patch_ok (c := [⟨.push, placeholder⟩]) e₇ h₈ hat
  rw [argc_eq, e₈.context] at h₁₀
  have e := (e₈.emit_ok h₁₀).2.emitPlain_ok h₁₁
  have hoffset : (jumpAt : Int) - ldpcAt + 1 = c.length + 7 := by
    simp only [hjump, hat, List.length_append, List.length_cons, List.length_nil]
    omega
  simpa [hentry, hoffset] using e

mutual

theorem gen_expr : (e : Expr) → {s s' : Emitter} → (gen e.toTree).run s = .ok () s' →
    e.Resolved s.context ∧ Emits s (e.code s.context) s.context s'
  | .num v, s, s', h => by
    rw [Expr.toTree, Tree.leaf, gen] at h
    unfold number at h
    split at h
    next n =>
      cases h
      exact ⟨⟨n, rfl⟩, Emits.emit s .push n⟩
    next => cases h
  | .var x, s, s', h => by
    rw [Expr.toTree, Tree.leaf, gen] at h
    exact identifier_ok h
  | .call f args, s, s', h => by
    rw [Expr.toTree, gen] at h
    simp only [run_bind_eq_ok] at h
    obtain ⟨info, s₁, hc, ldpcAt, s₂, ho, _, s₃, hargs, hclose⟩ := h
    obtain ⟨rfl, hf, hn⟩ := callee_ok hc
    obtain ⟨hat, eo⟩ := openCall_ok ho
    obtain ⟨hr, ea⟩ := gen_exprs args hargs
    rw [eo.context] at hr ea
    exact ⟨⟨⟨info, hf, by simpa [Expr.length_toTrees] using hn⟩, hr⟩, by
      simpa [Expr.length_toTrees, Expr.code] using closeCall_ok (eo.trans ea) hf hat hclose⟩
  | .binary op l r, s, s', h => by
    rw [Expr.toTree, gen] at h
    simp only [run_bind_eq_ok] at h
    obtain ⟨_, s₁, hr, _, s₂, hl, hop⟩ := h
    obtain ⟨rr, er⟩ := gen_expr r hr
    obtain ⟨rl, el⟩ := gen_expr l hl
    rw [er.context] at rl el
    exact ⟨⟨rr, rl⟩, (er.trans el).emitPlain_ok hop⟩

theorem gen_exprs : (es : List Expr) → {s s' : Emitter} →
    (genAll (Expr.toTrees es)).run s = .ok () s' →
    Expr.ResolvedAll s.context es ∧ Emits s (Expr.codeAll s.context es) s.context s'
  | [], s, s', h => by
    rw [Expr.toTrees, genAll] at h
    cases h
    exact ⟨trivial, Emits.refl s⟩
  | e :: es, s, s', h => by
    rw [Expr.toTrees, genAll] at h
    simp only [run_bind_eq_ok] at h
    obtain ⟨_, s₁, he, hes⟩ := h
    obtain ⟨re, ee⟩ := gen_expr e he
    obtain ⟨res, ees⟩ := gen_exprs es hes
    rw [ee.context] at res ees
    exact ⟨⟨re, res⟩, ee.trans ees⟩

end

theorem allocate_ok {x : Label} {slot : Nat} {s s' : Emitter}
    (h : (allocate x).run s = .ok slot s') :
    (s.context.allot x).store x = ⟨.storel, slot⟩ ∧
      Emits s (if s.context.scope.locals.contains x then [] else [⟨.push, placeholder⟩])
        (s.context.allot x) s' := by
  simp only [allocate, EStateM.run_bind, EStateM.run_get] at h
  cases hx : (s.scope s.current).locals.get? x with
  | some old =>
    simp only [hx] at h
    cases h
    have ha : s.context.allot x = s.context := by
      rw [Context.allot, Scope.allot_of_some (σ := s.context.scope) hx]
    rw [ha, if_pos (by simp [context, Table.contains, hx])]
    exact ⟨by simp [Context.store, context, hx], Emits.refl s⟩
  | none =>
    simp only [hx, EStateM.run_bind, EStateM.run_set, run_emit] at h
    cases h
    rw [Context.allot, Scope.allot_of_none (σ := s.context.scope) hx,
      if_neg (by simp [context, Table.contains, hx])]
    refine ⟨by simp [Context.store, Table.get?_insert, context], by simp, ?_, rfl, ?_⟩
    · simp [context, scope, Table.get?_insert]
    · intro f hf
      simp only [scope, Table.get?_insert, if_neg hf]

mutual

theorem gen_stmt : (st : Stmt) → st.Plain → {s s' : Emitter} →
    (gen st.toTree).run s = .ok () s' →
    st.Resolved s.context ∧ Emits s (st.code s.context s.code.size) (st.context s.context) s'
  | .assign x e, _, s, s', h => by
    rw [Stmt.toTree, gen, Tree.leaf, Tree.value] at h
    simp only [run_bind_eq_ok] at h
    obtain ⟨slot, s₁, ha, _, s₂, he, _, _, hs, hp⟩ := h
    cases hp
    obtain ⟨hstore, ea⟩ := allocate_ok ha
    obtain ⟨re, ee⟩ := gen_expr e he
    rw [ea.context] at re ee
    refine ⟨re, ?_⟩
    rw [Stmt.code, Stmt.context, hstore]
    exact ((ea.trans ee).emit_ok hs).2
  | .noop, _, s, s', h => by
    rw [Stmt.toTree, Tree.leaf, gen] at h
    cases h
    exact ⟨trivial, Emits.refl s⟩
  | .ifThen c t, hplain, s, s', h => by
    rw [Stmt.toTree, gen] at h
    simp only [run_bind_eq_ok] at h
    obtain ⟨_, s₁, hc, branchAt, s₂, hb, _, s₃, ht, _, _, hh, hpatch⟩ := h
    cases hh
    obtain ⟨rc, ec⟩ := gen_expr c hc
    obtain ⟨hat, eb⟩ := ec.emit_ok hb
    obtain ⟨rt, et⟩ := gen_stmt t hplain ht
    have hbody : s₂.code.size = s.code.size + (c.code s.context).length + 1 := by
      simp [eb.size, Nat.add_assoc]
    rw [eb.context, hbody] at et
    rw [eb.context] at rt
    have hend := et.size
    have e := eb.trans et
    simp only [List.append_assoc, List.cons_append, List.nil_append] at e
    rw [hend, hbody] at hpatch
    refine ⟨⟨rc, rt⟩, ?_⟩
    simpa [Stmt.code, Stmt.context] using e.patch_ok hpatch hat
  | .ifElse c t e, hplain, s, s', h => by
    rw [Stmt.toTree, gen] at h
    simp only [run_bind_eq_ok] at h
    obtain ⟨_, s₁, hc, branchAt, s₂, hb, _, s₃, ht, skipAt, s₄, hk, _, _, hh, _, s₆, hpatch,
      _, s₇, he, _, _, hh', hpatch'⟩ := h
    cases hh
    cases hh'
    obtain ⟨rc, ec⟩ := gen_expr c hc
    obtain ⟨hat, eb⟩ := ec.emit_ok hb
    obtain ⟨rt, et⟩ := gen_stmt t hplain.1 ht
    have hbody : s₂.code.size = s.code.size + (c.code s.context).length + 1 := by
      simp [eb.size, Nat.add_assoc]
    rw [eb.context, hbody] at et
    rw [eb.context] at rt
    obtain ⟨hskip, ek⟩ := (eb.trans et).emit_ok hk
    have hother := (et.emit_ok hk).2.size
    simp only [List.length_append, List.length_cons, List.length_nil, Nat.zero_add,
      ← Nat.add_assoc] at hother
    rw [hbody] at hother
    rw [hother] at hpatch
    simp only [List.append_assoc, List.cons_append, List.nil_append] at ek
    have ep := ek.patch_ok hpatch hat
    obtain ⟨re, ee⟩ := gen_stmt e hplain.2 he
    have hsame : s₆.code.size = s₄.code.size := by simp [ep.size, ek.size]
    rw [ep.context, hsame, hother] at ee
    rw [ep.context] at re
    have hend := ee.size
    rw [hsame, hother] at hend
    rw [hend] at hpatch'
    have e' := ep.trans ee
    simp only [List.append_assoc, List.cons_append, List.nil_append] at e'
    -- the skipping jump is reached by taking the code up to the end of the first branch together
    rw [← List.cons_append, ← List.append_assoc] at e'
    have e'' := e'.patch_ok hpatch' (by simpa [Nat.add_assoc] using hskip)
    refine ⟨⟨rc, rt, re⟩, ?_⟩
    simpa [Stmt.code, Stmt.context] using e''
  | .loop c b, hplain, s, s', h => by
    rw [Stmt.toTree, gen] at h
    simp only [run_bind_eq_ok] at h
    obtain ⟨_, _, hh, _, s₂, hc, branchAt, s₃, hb, _, s₄, ht, _, s₅, hj, _, _, hh', hpatch⟩ := h
    cases hh
    cases hh'
    obtain ⟨rc, ec⟩ := gen_expr c hc
    obtain ⟨hat, eb⟩ := ec.emit_ok hb
    obtain ⟨rt, et⟩ := gen_stmt b hplain ht
    have hbody : s₃.code.size = s.code.size + (c.code s.context).length + 1 := by
      simp [eb.size, Nat.add_assoc]
    rw [eb.context, hbody] at et
    rw [eb.context] at rt
    have hend := (et.emit_ok hj).2.size
    simp only [List.length_append, List.length_cons, List.length_nil, Nat.zero_add,
      ← Nat.add_assoc] at hend
    rw [hend, hbody] at hpatch
    have e := ((eb.trans et).emit_ok hj).2
    simp only [List.append_assoc, List.cons_append, List.nil_append] at e
    refine ⟨⟨rc, rt⟩, ?_⟩
    simpa [Stmt.code, Stmt.context] using e.patch_ok hpatch hat
  | .func _ _ _, hplain, _, _, _ => hplain.elim
  | .ret e, _, s, s', h => by
    rw [Stmt.toTree, gen] at h
    simp only [run_bind_eq_ok] at h
    obtain ⟨_, s₁, he, hr⟩ := h
    obtain ⟨re, ee⟩ := gen_expr e he
    exact ⟨re, ee.emitPlain_ok hr⟩
  | .block ss, hplain, s, s', h => by
    rw [Stmt.toTree, gen] at h
    exact gen_stmts ss hplain h

theorem gen_stmts : (ss : List Stmt) → Stmt.PlainAll ss → {s s' : Emitter} →
    (genAll (Stmt.toTrees ss)).run s = .ok () s' →
    Stmt.ResolvedAll s.context ss ∧
      Emits s (Stmt.codeAll s.context s.code.size ss) (Stmt.contextAll s.context ss) s'
  | [], _, s, s', h => by
    rw [Stmt.toTrees, genAll] at h
    cases h
    exact ⟨trivial, Emits.refl s⟩
  | st :: ss, hplain, s, s', h => by
    rw [Stmt.toTrees, genAll] at h
    simp only [run_bind_eq_ok] at h
    obtain ⟨_, s₁, hst, hss⟩ := h
    obtain ⟨rs, es⟩ := gen_stmt st hplain.1 hst
    obtain ⟨rss, ess⟩ := gen_stmts ss hplain.2 hss
    rw [es.context] at rss ess
    rw [es.size] at ess
    exact ⟨⟨rs, rss⟩, es.trans ess⟩

end

/-- What an element of a program does to the emitter at the top level. -/
structure EmitsElement (s : Emitter) (c : List Instruction) (Γ : Context) (s' : Emitter) :
    Prop where
  code : s'.code = s.code ++ c.toArray
  context : s'.context = Γ
  current : s'.current = Scope.toplevel

theorem Emits.element {s s' : Emitter} {c : List Instruction} {Γ : Context} (h : Emits s c Γ s')
    (hs : s.current = Scope.toplevel) : EmitsElement s c Γ s' :=
  ⟨h.code, h.context, h.current.trans hs⟩

theorem context_declare (s : Emitter) (f : Label) (params : List Label) :
    context { s with
      functions := s.functions.insert f ⟨s.code.size, params.length⟩
      scopes := s.scopes.insert f { params := paramSlots params }
      current := f } = Stmt.inside s.context s.code.size f params := by
  simp [context, Stmt.inside, scope, Table.get?_insert]

theorem gen_func {f : Label} {params : List Label} {body : List Stmt} {s s' : Emitter}
    (hplain : Stmt.PlainAll body) (hs : s.current = Scope.toplevel)
    (h : (gen (Stmt.func f params body).toTree).run s = .ok () s') :
    (Stmt.func f params body).Accepted s.context s.code.size ∧
      EmitsElement s ((Stmt.func f params body).elementCode s.context s.code.size)
        ((Stmt.func f params body).elementContext s.context s.code.size) s' := by
  rw [Stmt.toTree, gen] at h
  have hvalues : (params.map (Tree.leaf .parameter)).map Tree.value = params := by
    simp [Tree.leaf, Tree.value, Function.comp_def]
  simp only [run_bind_eq_ok, hvalues] at h
  obtain ⟨_, _, hget, h⟩ := h
  cases hget
  split at h
  next => cases h
  next hnew =>
    simp only [run_bind_eq_ok] at h
    obtain ⟨_, _, hdeclare, _, s₂, hbody, hleave⟩ := h
    cases hdeclare
    rw [gen] at hbody
    obtain ⟨rb, eb⟩ := gen_stmts body hplain hbody
    rw [context_declare] at rb eb
    cases hleave
    have hnone : s.functions.get? f = none := by simpa [Table.contains] using hnew
    refine ⟨⟨hnone, rb⟩, eb.code, ?_, rfl⟩
    have hkeep := Stmt.contextAll_keeps (Stmt.inside s.context s.code.size f params) body
    have hfunctions : s₂.functions = s.functions.insert f ⟨s.code.size, params.length⟩ := by
      have hc := congrArg Context.functions eb.context
      exact hc.trans hkeep.1
    by_cases hf : f = Scope.toplevel
    · simp only [Stmt.elementContext, if_pos hf]
      rw [← eb.context]
      simp only [context, eb.current, hf]
      rfl
    · have hscope : s₂.scope Scope.toplevel = s.scope Scope.toplevel := by
        rw [eb.others _ (Ne.symm hf)]
        simp only [scope, Table.get?_insert, if_neg (Ne.symm hf)]
      simp only [Stmt.elementContext, if_neg hf, context, hs, hfunctions, Table.get?_insert,
        if_neg (Ne.symm hf)]
      simpa [scope] using hscope

theorem warnSkipped_ok {t : Tree} {s s' : Emitter} (h : (warnSkipped t).run s = .ok () s') :
    Emits s [] s.context s' := by
  unfold warnSkipped at h
  split at h
  next => cases h
  next =>
    split at h
    next =>
      cases h
      exact Emits.refl s
    next =>
      cases h
      exact ⟨by simp, rfl, rfl, fun _ _ => rfl⟩

theorem genElements_cons_eq (t : Tree) (ts : List Tree) :
    genElements (t :: ts) =
      (do (if t.kind = .assignment then warnSkipped t else pure ()); gen t; genElements ts) := by
  rw [genElements]
  split
  next => rfl
  next => exact (pure_bind () fun _ => do gen t; genElements ts).symm

theorem warned_ok {t : Tree} {s s' : Emitter}
    (h : (if t.kind = .assignment then warnSkipped t else pure ()).run s = .ok () s') :
    Emits s [] s.context s' := by
  split at h
  next => exact warnSkipped_ok h
  next =>
    cases h
    exact Emits.refl s

theorem gen_element {st : Stmt} {s s' : Emitter} (hst : st.Element)
    (hs : s.current = Scope.toplevel) (h : (gen st.toTree).run s = .ok () s') :
    st.Accepted s.context s.code.size ∧
      EmitsElement s (st.elementCode s.context s.code.size)
        (st.elementContext s.context s.code.size) s' := by
  cases st with
  | assign x e =>
    obtain ⟨r, e⟩ := gen_stmt (.assign x e) trivial h
    exact ⟨r, e.element hs⟩
  | noop =>
    obtain ⟨r, e⟩ := gen_stmt .noop trivial h
    exact ⟨r, e.element hs⟩
  | func f params body => exact gen_func hst hs h
  | ifThen c t => exact hst.elim
  | ifElse c t e => exact hst.elim
  | loop c b => exact hst.elim
  | ret e => exact hst.elim
  | block ss => exact hst.elim

theorem gen_elements {ss : List Stmt} {s s' : Emitter} (hss : ∀ st ∈ ss, st.Element)
    (hs : s.current = Scope.toplevel)
    (h : (genElements (Stmt.toTrees ss)).run s = .ok () s') :
    Program.Accepted s.context s.code.size ss ∧
      EmitsElement s (Program.elementsCode s.context s.code.size ss)
        (Program.elementsContext s.context s.code.size ss) s' := by
  induction ss generalizing s with
  | nil =>
    rw [Stmt.toTrees, genElements] at h
    cases h
    exact ⟨trivial, by simp [Program.elementsCode], rfl, hs⟩
  | cons st ss ih =>
    rw [Stmt.toTrees, genElements_cons_eq] at h
    simp only [run_bind_eq_ok] at h
    obtain ⟨_, s₁, hw, _, s₂, hst, hrest⟩ := h
    have ew := warned_ok hw
    obtain ⟨ast, est⟩ := gen_element (hss st (by simp)) (ew.current.trans hs) hst
    have hsize : s₁.code.size = s.code.size := by simp [ew.size]
    rw [ew.context, hsize] at ast est
    obtain ⟨arest, erest⟩ := ih (fun x hx => hss x (by simp [hx])) est.current hrest
    have hnext : s₂.code.size = s.code.size + (st.elementCode s.context s.code.size).length := by
      simp [est.code, hsize]
    rw [est.context, hnext] at arest erest
    refine ⟨⟨ast, arest⟩, ?_, erest.context, erest.current⟩
    simp [erest.code, est.code, ew.code, Program.elementsCode]

end Emitter

/-- The code that is generated for a program is its code written down directly, every name in it
can be resolved, and there is a main function. -/
theorem generate_ok {p : Program} (hp : ∀ st ∈ p, st.Element) {s : Emitter}
    (h : Emitter.generate p.toTree = .ok () s) :
    s.code.toList = p.code ∧ Program.Accepted Program.start 2 p ∧
      ∃ info, (Program.elementsContext Program.start 2 p).functions.get? (some (.word "main")) =
        some info := by
  rw [Emitter.generate, Program.toTree, Emitter.gen] at h
  simp only [run_bind_eq_ok] at h
  obtain ⟨_, s₁, hpush, bootAt, s₂, hjump, _, s₃, helements, _, _, hget, h⟩ := h
  cases hget
  have e₁ := ((Emitter.Emits.refl {}).emit_ok hpush).2
  obtain ⟨hboot, e₂⟩ := e₁.emit_ok hjump
  obtain ⟨ha, e₃⟩ := Emitter.gen_elements hp e₂.current helements
  have hstart : Emitter.context {} = Program.start := rfl
  have hsize : s₂.code.size = 2 := by simp [e₂.size]
  rw [e₂.context, hstart, hsize] at ha e₃
  have hfunctions : s₃.functions = (Program.elementsContext Program.start 2 p).functions :=
    congrArg Context.functions e₃.context
  split at h
  next info hmain =>
    cases h
    rw [hfunctions] at hmain
    refine ⟨?_, ha, info, hmain⟩
    have hentry : (Program.elementsContext Program.start 2 p).entry (some (.word "main")) =
        info.address := by simp [Context.entry, hmain]
    simp [e₃.code, e₂.code, hboot, Program.code, hentry]
  next => cases h

end StackLang
