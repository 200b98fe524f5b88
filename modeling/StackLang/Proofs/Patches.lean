import StackLang.Proofs.Fragments
import StackLang.Proofs.Reading
import StackLang.Token.Scanner
import Mathlib.Data.List.Permutation
import Mathlib.Logic.Relation

namespace StackLang

/-- The parts of a tree that are generated with it. The target of an assignment and the parameters
of a function have no code. -/
def Tree.parts : Tree → List Tree
  | .node kind _ children =>
    match kind with
    | .call | .binary _ | .whileStmt | .block | .toplevel => children
    | .assignment => children.drop 1
    | .ifStmt => children.take 3
    | .functionDecl | .returnStmt => children.take 1
    | .number | .identifier | .noop | .parameter => []

/-- A tree is generated in the course of another one. -/
def Tree.Contains : Tree → Tree → Prop :=
  Relation.ReflTransGen fun T t => t ∈ T.parts

namespace Emitter

/-- From `s` to `s'` the instructions stay as they are, but for the operands at `holes`. -/
def Preserves (holes : List Nat) (s s' : Emitter) : Prop :=
  ∀ a i, s.code.toList[a]? = some i →
    ∃ n, s'.code.toList[a]? = some ⟨i.opcode, n⟩ ∧ (a ∉ holes → n = i.operand)

section Preserves

variable {s s₁ s' : Emitter} {holes more : List Nat}

theorem Preserves.refl (holes : List Nat) (s : Emitter) : Preserves holes s s :=
  fun _ i hi => ⟨i.operand, hi, fun _ => rfl⟩

theorem Preserves.append (h : Preserves holes s s₁) (h' : Preserves more s₁ s') :
    Preserves (holes ++ more) s s' := by
  intro a i hi
  obtain ⟨n, hn, hsame⟩ := h a i hi
  obtain ⟨n', hn', hsame'⟩ := h' a _ hn
  refine ⟨n', hn', fun ha => ?_⟩
  rw [List.mem_append, not_or] at ha
  exact (hsame' ha.2).trans (hsame ha.1)

theorem Preserves.getElem? (h : Preserves holes s s') {a : Nat} {i : Instruction}
    (hi : s.code.toList[a]? = some i) (ha : a ∉ holes) : s'.code.toList[a]? = some i := by
  obtain ⟨n, hn, hsame⟩ := h a i hi
  rw [hn, hsame ha]

theorem Preserves.appends {c : List Instruction} (h : Preserves holes s s₁) (ha : Appends s₁ c s') :
    Preserves holes s s' := by
  intro a i hi
  obtain ⟨n, hn, hsame⟩ := h a i hi
  refine ⟨n, ?_, hsame⟩
  rw [ha.code, Array.toList_append, List.getElem?_append_left (List.getElem?_eq_some_iff.mp hn).1]
  exact hn

theorem Preserves.finishes (h : Preserves holes s s₁) (hf : Finishes s₁ s') :
    Preserves holes s s' := by
  obtain ⟨c, hc, -⟩ := hf
  exact h.appends hc

theorem Preserves.gen {t : Tree} (h : Preserves holes s s₁) (hrun : (gen t).run s₁ = .ok () s') :
    Preserves holes s s' :=
  h.finishes (gen_finishes t hrun)

theorem Preserves.genAll {ts : List Tree} (h : Preserves holes s s₁)
    (hrun : (genAll ts).run s₁ = .ok () s') : Preserves holes s s' :=
  h.finishes (genAll_finishes (fun t _ => gen_finishes t) hrun)

theorem Preserves.genElements {ts : List Tree} (h : Preserves holes s s₁)
    (hrun : (genElements ts).run s₁ = .ok () s') : Preserves holes s s' :=
  h.finishes (genElements_finishes (fun t _ => gen_finishes t) hrun)

theorem Preserves.emit {op : Opcode} {n : Int} {a : Nat} (h : Preserves holes s s₁)
    (hrun : (emit op n).run s₁ = .ok a s') : Preserves holes s s' :=
  h.appends ((Appends.refl s₁).emit_ok hrun).2

theorem Preserves.emitPlain {op : Opcode} (h : Preserves holes s s₁)
    (hrun : (emitPlain op).run s₁ = .ok () s') : Preserves holes s s' :=
  h.appends ((Appends.refl s₁).emitPlain_ok hrun)

theorem Preserves.patch {address : Nat} {n : Int} (h : Preserves holes s s₁)
    (hrun : (patch address n).run s₁ = .ok () s')
    (ha : address ∈ holes ∨ s.code.size ≤ address) : Preserves holes s s' := by
  cases hrun
  intro a i hi
  obtain ⟨m, hm, hsame⟩ := h a i hi
  simp only [Array.toList_modify, List.getElem?_modify, hm]
  by_cases heq : address = a
  · subst heq
    have hsize := (List.getElem?_eq_some_iff.mp hi).1
    rw [Array.length_toList] at hsize
    have hmem : address ∈ holes := ha.resolve_right (by omega)
    exact ⟨n, by simp, fun hnot => absurd hmem hnot⟩
  · exact ⟨m, by simp [heq], hsame⟩

theorem Preserves.size_le (h : Preserves holes s s') : s.code.size ≤ s'.code.size := by
  by_contra hlt
  obtain ⟨n, hn, -⟩ := h s'.code.size _ (List.getElem?_eq_getElem (by simpa using hlt))
  have hsize := (List.getElem?_eq_some_iff.mp hn).1
  simp at hsize

end Preserves

/-- A construct `T` that is generated from `s` comes to generate its part `t` from `s₁`, and has an
operand open at `own` meanwhile. -/
inductive Enters : Tree → Emitter → List Nat → Tree → Emitter → Prop where
  | argument {f : Label} {done rest : List Tree} {t : Tree} {info : FunctionInfo} {ldpcAt : Nat}
      {s s₁ s₂ : Emitter} :
      (callee f (done ++ t :: rest).length).run s = .ok info s →
      openCall.run s = .ok ldpcAt s₁ → (genAll done).run s₁ = .ok () s₂ →
      Enters (.node .call f (done ++ t :: rest)) s [ldpcAt] t s₂
  | right {op : Operator} {v : Label} {l r : Tree} {s : Emitter} :
      Enters (.node (.binary op) v [l, r]) s [] r s
  | left {op : Operator} {v : Label} {l r : Tree} {s s₁ : Emitter} :
      (gen r).run s = .ok () s₁ → Enters (.node (.binary op) v [l, r]) s [] l s₁
  | assigned {v : Label} {target e : Tree} {slot : Nat} {s s₁ : Emitter} :
      (allocate target.value).run s = .ok slot s₁ →
      Enters (.node .assignment v [target, e]) s [] e s₁
  | condition {v : Label} {c t : Tree} {rest : List Tree} {s : Emitter} :
      Enters (.node .ifStmt v (c :: t :: rest)) s [] c s
  | thenBranch {v : Label} {c t : Tree} {rest : List Tree} {branchAt : Nat} {s s₁ s₂ : Emitter} :
      (gen c).run s = .ok () s₁ → (emit .beq0 placeholder).run s₁ = .ok branchAt s₂ →
      Enters (.node .ifStmt v (c :: t :: rest)) s [branchAt] t s₂
  | elseBranch {v : Label} {c t e : Tree} {rest : List Tree} {branchAt skipAt : Nat}
      {s s₁ s₂ s₃ s₄ s₅ : Emitter} :
      (gen c).run s = .ok () s₁ → (emit .beq0 placeholder).run s₁ = .ok branchAt s₂ →
      (gen t).run s₂ = .ok () s₃ → (emit .jmp placeholder).run s₃ = .ok skipAt s₄ →
      (patch branchAt s₄.code.size).run s₄ = .ok () s₅ →
      Enters (.node .ifStmt v (c :: t :: e :: rest)) s [skipAt] e s₅
  | loopCondition {v : Label} {c b : Tree} {s : Emitter} :
      Enters (.node .whileStmt v [c, b]) s [] c s
  | loopBody {v : Label} {c b : Tree} {branchAt : Nat} {s s₁ s₂ : Emitter} :
      (gen c).run s = .ok () s₁ → (emit .beq0 placeholder).run s₁ = .ok branchAt s₂ →
      Enters (.node .whileStmt v [c, b]) s [branchAt] b s₂
  | functionBody {f : Label} {b : Tree} {params : List Tree} {s s₁ : Emitter} :
      s.functions.get? f = none → (declare f (params.map Tree.value)).run s = .ok () s₁ →
      Enters (.node .functionDecl f (b :: params)) s [] b s₁
  | returned {v : Label} {e : Tree} {rest : List Tree} {s : Emitter} :
      Enters (.node .returnStmt v (e :: rest)) s [] e s
  | member {v : Label} {done rest : List Tree} {t : Tree} {s s₁ : Emitter} :
      (genAll done).run s = .ok () s₁ → Enters (.node .block v (done ++ t :: rest)) s [] t s₁
  | element {v : Label} {done rest : List Tree} {t : Tree} {a bootAt : Nat}
      {s s₁ s₂ s₃ s₄ : Emitter} :
      (emit .push 0).run s = .ok a s₁ → (emit .jmp placeholder).run s₁ = .ok bootAt s₂ →
      (genElements done).run s₂ = .ok () s₃ →
      (if t.kind = .assignment then warnSkipped t else pure ()).run s₃ = .ok () s₄ →
      Enters (.node .toplevel v (done ++ t :: rest)) s [bootAt] t s₄

/-- While `T` is generated from `s`, the tree `t` inside it is generated from `s₁`, and the
constructs around it have operands open at `pending`, the innermost first. -/
inductive Visits (T : Tree) (s : Emitter) : List Nat → Tree → Emitter → Prop where
  | root : Visits T s [] T s
  | part {pending own : List Nat} {t u : Tree} {s₁ s₂ : Emitter} :
      Visits T s pending t s₁ → Enters t s₁ own u s₂ → Visits T s (own ++ pending) u s₂

theorem genAll_append (ts us : List Tree) : genAll (ts ++ us) = (do genAll ts; genAll us) := by
  induction ts with
  | nil =>
    rw [List.nil_append, genAll]
    exact (pure_bind () fun _ => genAll us).symm
  | cons t ts ih => rw [List.cons_append, genAll, genAll, ih, bind_assoc]

theorem genElements_append (ts us : List Tree) :
    genElements (ts ++ us) = (do genElements ts; genElements us) := by
  induction ts with
  | nil =>
    rw [List.nil_append, genElements]
    exact (pure_bind () fun _ => genElements us).symm
  | cons t ts ih =>
    simp only [List.cons_append, genElements_cons_eq, ih, bind_assoc]

theorem emit_getElem? {op : Opcode} {n : Int} {a : Nat} {s s' : Emitter}
    (h : (emit op n).run s = .ok a s') : s'.code.toList[a]? = some ⟨op, n⟩ := by
  cases h
  simp

theorem emit_address {op : Opcode} {n : Int} {a : Nat} {s s' : Emitter}
    (h : (emit op n).run s = .ok a s') : s.code.size = a := by
  cases h
  rfl

theorem closeCall_preserves {info : FunctionInfo} {n ldpcAt : Nat} {s s₁ s' : Emitter}
    {holes : List Nat} (h : Preserves holes s s₁) (hat : ldpcAt ∈ holes)
    (hrun : (closeCall info n ldpcAt).run s₁ = .ok () s') : Preserves holes s s' := by
  simp only [closeCall, run_bind_eq_ok] at hrun
  obtain ⟨_, _, h₁, _, _, h₂, _, _, h₃, _, _, h₄, _, _, h₅, jumpAt, _, h₆, _, _, h₇, _, _, h₈,
    _, _, h₉, h₁₀⟩ := hrun
  cases h₈
  have hframe := ((((h.emit h₁).emitPlain h₂).emitPlain h₃).emitPlain h₄).emitPlain h₅
  exact (((hframe.emit h₆).patch h₇ (.inl hat)).emit h₉).emitPlain h₁₀

namespace Enters

variable {T t : Tree} {own : List Nat} {s s₁ s' : Emitter}

/-- A part is generated to its end, and then its construct changes only the operand that it has left
open. -/
theorem run (h : Enters T s own t s₁) (hrun : (gen T).run s = .ok () s') :
    ∃ s₂, (gen t).run s₁ = .ok () s₂ ∧ Preserves own s₂ s' := by
  cases h with
  | argument hc ho hd =>
    rw [gen, run_bind_of_ok hc, run_bind_of_ok ho, genAll_append, bind_assoc, run_bind_of_ok hd,
      genAll] at hrun
    simp only [run_bind_eq_ok] at hrun
    obtain ⟨_, s₃, ⟨_, s₂, ht, hrest⟩, hclose⟩ := hrun
    exact ⟨s₂, ht, closeCall_preserves ((Preserves.refl _ s₂).genAll hrest) (by simp) hclose⟩
  | right =>
    rw [gen] at hrun
    simp only [run_bind_eq_ok] at hrun
    obtain ⟨_, s₂, hr, _, s₃, hl, hop⟩ := hrun
    exact ⟨s₂, hr, ((Preserves.refl _ s₂).gen hl).emitPlain hop⟩
  | left hr =>
    rw [gen, run_bind_of_ok hr] at hrun
    obtain ⟨_, s₂, hl, hop⟩ := run_bind_eq_ok.mp hrun
    exact ⟨s₂, hl, (Preserves.refl _ s₂).emitPlain hop⟩
  | assigned ha =>
    rw [gen, run_bind_of_ok ha] at hrun
    simp only [run_bind_eq_ok] at hrun
    obtain ⟨_, s₂, he, _, _, hs, hp⟩ := hrun
    cases hp
    exact ⟨s₂, he, (Preserves.refl _ s₂).emit hs⟩
  | @condition v c t rest _ =>
    cases rest with
    | nil =>
      rw [gen] at hrun
      simp only [run_bind_eq_ok] at hrun
      obtain ⟨_, s₂, hc, branchAt, s₃, hb, _, s₄, ht, _, _, hh, hp⟩ := hrun
      cases hh
      have hthen := ((Preserves.refl [] s₂).emit hb).gen ht
      exact ⟨s₂, hc, hthen.patch hp (.inr (Nat.le_of_eq (emit_address hb)))⟩
    | cons e rest =>
      rw [gen] at hrun
      simp only [run_bind_eq_ok] at hrun
      obtain ⟨_, s₂, hc, branchAt, s₃, hb, _, s₄, ht, skipAt, s₅, hk, _, _, hh, _, s₆, hp,
        _, s₇, he, _, _, hh', hp'⟩ := hrun
      cases hh
      cases hh'
      have hthen := ((Preserves.refl [] s₂).emit hb).gen ht
      have hskip : s₂.code.size ≤ skipAt := emit_address hk ▸ hthen.size_le
      have helse := ((hthen.emit hk).patch hp (.inr (Nat.le_of_eq (emit_address hb)))).gen he
      exact ⟨s₂, hc, helse.patch hp' (.inr hskip)⟩
  | @thenBranch v c t rest branchAt _ _ _ hc hb =>
    cases rest with
    | nil =>
      rw [gen, run_bind_of_ok hc, run_bind_of_ok hb] at hrun
      simp only [run_bind_eq_ok] at hrun
      obtain ⟨_, s₂, ht, _, _, hh, hp⟩ := hrun
      cases hh
      exact ⟨s₂, ht, (Preserves.refl _ s₂).patch hp (.inl (by simp))⟩
    | cons e rest =>
      rw [gen, run_bind_of_ok hc, run_bind_of_ok hb] at hrun
      simp only [run_bind_eq_ok] at hrun
      obtain ⟨_, s₂, ht, skipAt, s₃, hk, _, _, hh, _, s₄, hp, _, s₅, he, _, _, hh', hp'⟩ := hrun
      cases hh
      cases hh'
      have helse := (((Preserves.refl [branchAt] s₂).emit hk).patch hp (.inl (by simp))).gen he
      exact ⟨s₂, ht, helse.patch hp' (.inr (Nat.le_of_eq (emit_address hk)))⟩
  | elseBranch hc hb ht hk hp =>
    rw [gen, run_bind_of_ok hc, run_bind_of_ok hb, run_bind_of_ok ht, run_bind_of_ok hk,
      run_bind_of_ok (run_here _), run_bind_of_ok hp] at hrun
    simp only [run_bind_eq_ok] at hrun
    obtain ⟨_, s₂, he, _, _, hh, hp'⟩ := hrun
    cases hh
    exact ⟨s₂, he, (Preserves.refl _ s₂).patch hp' (.inl (by simp))⟩
  | loopCondition =>
    rw [gen] at hrun
    simp only [run_bind_eq_ok] at hrun
    obtain ⟨_, _, hh, _, s₂, hc, branchAt, s₃, hb, _, s₄, ht, _, s₅, hj, _, _, hh', hp⟩ := hrun
    cases hh
    cases hh'
    have hjump := (((Preserves.refl [] s₂).emit hb).gen ht).emit hj
    exact ⟨s₂, hc, hjump.patch hp (.inr (Nat.le_of_eq (emit_address hb)))⟩
  | loopBody hc hb =>
    rw [gen, run_bind_of_ok (run_here _), run_bind_of_ok hc, run_bind_of_ok hb] at hrun
    simp only [run_bind_eq_ok] at hrun
    obtain ⟨_, s₂, ht, _, s₃, hj, _, _, hh, hp⟩ := hrun
    cases hh
    exact ⟨s₂, ht, ((Preserves.refl _ s₂).emit hj).patch hp (.inl (by simp))⟩
  | functionBody hnew hd =>
    rw [gen, EStateM.run_bind, EStateM.run_get] at hrun
    simp only [Table.contains, hnew, Option.isSome_none, Bool.false_eq_true, if_false] at hrun
    rw [run_bind_of_ok hd] at hrun
    obtain ⟨_, s₂, hb, hleave⟩ := run_bind_eq_ok.mp hrun
    cases hleave
    exact ⟨s₂, hb, Preserves.refl _ s₂⟩
  | returned =>
    rw [gen] at hrun
    obtain ⟨_, s₂, he, hr⟩ := run_bind_eq_ok.mp hrun
    exact ⟨s₂, he, (Preserves.refl _ s₂).emitPlain hr⟩
  | member hd =>
    rw [gen, genAll_append, run_bind_of_ok hd, genAll] at hrun
    obtain ⟨_, s₂, ht, hrest⟩ := run_bind_eq_ok.mp hrun
    exact ⟨s₂, ht, (Preserves.refl _ s₂).genAll hrest⟩
  | @element _ _ _ _ _ bootAt _ _ _ _ _ hpush hjump hd hw =>
    rw [gen, run_bind_of_ok hpush, run_bind_of_ok hjump, genElements_append, genElements_cons_eq,
      bind_assoc, run_bind_of_ok hd, bind_assoc, run_bind_of_ok hw, bind_assoc] at hrun
    simp only [run_bind_eq_ok] at hrun
    obtain ⟨_, s₂, ht, _, s₃, hrest, _, _, hget, hboot⟩ := hrun
    cases hget
    have hkeep := (Preserves.refl [bootAt] s₂).genElements hrest
    split at hboot
    next => exact ⟨s₂, ht, hkeep.patch hboot (.inl (by simp))⟩
    next => cases hboot

/-- Up to a part, a construct changes nothing that stood before it, and what it leaves open is the
target of a branch or a return address. -/
theorem opened (h : Enters T s own t s₁) :
    Preserves [] s s₁ ∧ ∀ a ∈ own, ∃ op ∈ [Opcode.beq0, .jmp, .ldpc],
      s₁.code.toList[a]? = some ⟨op, placeholder⟩ := by
  cases h with
  | argument _ ho hd =>
    simp only [openCall, run_bind_eq_ok] at ho
    obtain ⟨_, s₂, hp, hl⟩ := ho
    refine ⟨(((Preserves.refl _ s).emit hp).emit hl).genAll hd, List.forall_mem_singleton.mpr ?_⟩
    exact ⟨.ldpc, by simp, ((Preserves.refl [] _).genAll hd).getElem? (emit_getElem? hl) (by simp)⟩
  | right | condition | loopCondition | returned => exact ⟨Preserves.refl _ s, nofun⟩
  | left hr => exact ⟨(Preserves.refl _ s).gen hr, nofun⟩
  | assigned ha => exact ⟨(Preserves.refl _ s).finishes (allocate_finishes ha), nofun⟩
  | thenBranch hc hb =>
    refine ⟨((Preserves.refl _ s).gen hc).emit hb, List.forall_mem_singleton.mpr ?_⟩
    exact ⟨.beq0, by simp, emit_getElem? hb⟩
  | @elseBranch _ _ _ _ _ branchAt skipAt _ s₁ s₂ s₃ s₄ _ hc hb ht hk hp =>
    have hcond := (Preserves.refl [] s).gen hc
    have hthen := (Preserves.refl [] s₂).gen ht
    have hbranch : s.code.size ≤ branchAt := emit_address hb ▸ hcond.size_le
    have hne : skipAt ∉ [branchAt] := by
      have hsize := hthen.size_le
      cases hb
      cases hk
      simp only [Array.size_push] at hsize
      simp only [List.mem_singleton]
      omega
    refine ⟨(((hcond.emit hb).gen ht).emit hk).patch hp (.inr hbranch),
      List.forall_mem_singleton.mpr ⟨.jmp, by simp, ?_⟩⟩
    exact ((Preserves.refl [branchAt] s₄).patch hp (.inl (by simp))).getElem? (emit_getElem? hk) hne
  | loopBody hc hb =>
    refine ⟨((Preserves.refl _ s).gen hc).emit hb, List.forall_mem_singleton.mpr ?_⟩
    exact ⟨.beq0, by simp, emit_getElem? hb⟩
  | functionBody hnew hd => exact ⟨(Preserves.refl _ s).appends (declare_appends hnew hd), nofun⟩
  | member hd => exact ⟨(Preserves.refl _ s).genAll hd, nofun⟩
  | element hpush hjump hd hw =>
    have hwarned := (warned_ok hw).appends rfl
    refine ⟨((((Preserves.refl _ s).emit hpush).emit hjump).genElements hd).appends hwarned,
      List.forall_mem_singleton.mpr ⟨.jmp, by simp, ?_⟩⟩
    have hkeep := ((Preserves.refl [] _).genElements hd).appends hwarned
    exact hkeep.getElem? (emit_getElem? hjump) (by simp)

theorem exists_of_mem_parts (hrun : (gen T).run s = .ok () s') (ht : t ∈ T.parts) :
    ∃ own s₁, Enters T s own t s₁ := by
  obtain ⟨kind, v, cs⟩ := T
  rw [gen.eq_def] at hrun
  cases kind with
  | number | identifier | noop | parameter => cases ht
  | call =>
    obtain ⟨done, rest, rfl⟩ := List.append_of_mem (show t ∈ cs from ht)
    simp only [genAll_append, run_bind_eq_ok] at hrun
    obtain ⟨info, _, hc, ldpcAt, s₁, ho, _, _, ⟨_, s₂, hd, -⟩, -⟩ := hrun
    obtain ⟨rfl, -, -⟩ := callee_ok hc
    exact ⟨_, s₂, .argument hc ho hd⟩
  | binary op =>
    dsimp only at hrun
    split at hrun
    next l r =>
      obtain ⟨_, s₁, hr, -⟩ := run_bind_eq_ok.mp hrun
      rcases List.mem_pair.mp (show t ∈ [l, r] from ht) with rfl | rfl
      · exact ⟨_, s₁, .left hr⟩
      · exact ⟨_, s, .right⟩
    next => cases hrun
  | assignment =>
    dsimp only at hrun
    split at hrun
    next target e =>
      obtain ⟨slot, s₁, ha, -⟩ := run_bind_eq_ok.mp hrun
      obtain rfl := List.mem_singleton.mp (show t ∈ [e] from ht)
      exact ⟨_, s₁, .assigned ha⟩
    next => cases hrun
  | ifStmt =>
    dsimp only at hrun
    split at hrun
    next c b =>
      simp only [run_bind_eq_ok] at hrun
      obtain ⟨_, s₁, hc, branchAt, s₂, hb, -⟩ := hrun
      rcases List.mem_pair.mp (show t ∈ [c, b] from ht) with rfl | rfl
      · exact ⟨_, s, .condition⟩
      · exact ⟨_, s₂, .thenBranch hc hb⟩
    next c b e rest =>
      simp only [run_bind_eq_ok] at hrun
      obtain ⟨_, s₁, hc, branchAt, s₂, hb, _, s₃, hthen, skipAt, s₄, hk, _, _, hh, _, s₅, hp, -⟩ :=
        hrun
      cases hh
      rcases List.mem_cons.mp (show t ∈ [c, b, e] from ht) with rfl | ht
      · exact ⟨_, s, .condition⟩
      · rcases List.mem_pair.mp ht with rfl | rfl
        · exact ⟨_, s₂, .thenBranch hc hb⟩
        · exact ⟨_, s₅, .elseBranch hc hb hthen hk hp⟩
    next => cases hrun
  | whileStmt =>
    dsimp only at hrun
    split at hrun
    next c b =>
      simp only [run_bind_eq_ok] at hrun
      obtain ⟨_, _, hh, _, s₁, hc, branchAt, s₂, hb, -⟩ := hrun
      cases hh
      rcases List.mem_pair.mp (show t ∈ [c, b] from ht) with rfl | rfl
      · exact ⟨_, s, .loopCondition⟩
      · exact ⟨_, s₂, .loopBody hc hb⟩
    next => cases hrun
  | functionDecl =>
    simp only [run_bind_eq_ok] at hrun
    obtain ⟨_, _, hget, hrun⟩ := hrun
    cases hget
    split at hrun
    next => cases hrun
    next hnew =>
      split at hrun
      next => cases hrun
      next b params =>
        obtain ⟨_, s₁, hd, -⟩ := run_bind_eq_ok.mp hrun
        obtain rfl := List.mem_singleton.mp (show t ∈ [b] from ht)
        exact ⟨_, s₁, .functionBody (by simpa [Table.contains] using hnew) hd⟩
  | returnStmt =>
    dsimp only at hrun
    split at hrun
    next => cases hrun
    next e rest =>
      obtain rfl := List.mem_singleton.mp (show t ∈ [e] from ht)
      exact ⟨_, s, .returned⟩
  | block =>
    obtain ⟨done, rest, rfl⟩ := List.append_of_mem (show t ∈ cs from ht)
    simp only [genAll_append, run_bind_eq_ok] at hrun
    obtain ⟨_, s₁, hd, -⟩ := hrun
    exact ⟨_, s₁, .member hd⟩
  | toplevel =>
    obtain ⟨done, rest, rfl⟩ := List.append_of_mem (show t ∈ cs from ht)
    simp only [genElements_append, genElements_cons_eq, run_bind_eq_ok] at hrun
    obtain ⟨_, _, hpush, bootAt, _, hjump, _, _, ⟨_, _, hd, _, s₁, hw, -⟩, -⟩ := hrun
    exact ⟨_, s₁, .element hpush hjump hd hw⟩

end Enters

namespace Visits

variable {T t : Tree} {pending : List Nat} {s s₁ s' : Emitter}

/-- What is generated inside a tree is generated to its end. From then on the constructs around it
fill in what they have open, and change nothing else. -/
theorem run (h : Visits T s pending t s₁) (hrun : (gen T).run s = .ok () s') :
    ∃ s₂, (gen t).run s₁ = .ok () s₂ ∧ Preserves pending s₂ s' := by
  induction h with
  | root => exact ⟨s', hrun, Preserves.refl _ s'⟩
  | part _ hpart ih =>
    obtain ⟨s₂, ht, hkeep⟩ := ih
    obtain ⟨s₃, hu, hown⟩ := hpart.run ht
    exact ⟨s₃, hu, hown.append hkeep⟩

/-- What is open has been emitted with a placeholder, and still has it. -/
theorem opened (h : Visits T s pending t s₁) :
    ∀ a ∈ pending, ∃ op ∈ [Opcode.beq0, .jmp, .ldpc],
      s₁.code.toList[a]? = some ⟨op, placeholder⟩ := by
  induction h with
  | root => nofun
  | part _ hpart ih =>
    obtain ⟨hkeep, hown⟩ := hpart.opened
    intro a ha
    rcases List.mem_append.mp ha with ha | ha
    · exact hown a ha
    · obtain ⟨op, hop, hget⟩ := ih a ha
      exact ⟨op, hop, hkeep.getElem? hget (by simp)⟩

theorem exists_of_contains (hrun : (gen T).run s = .ok () s') (ht : T.Contains t) :
    ∃ pending s₁, Visits T s pending t s₁ := by
  induction ht with
  | refl => exact ⟨[], s, .root⟩
  | tail _ hpart ih =>
    obtain ⟨pending, s₁, hvisit⟩ := ih
    obtain ⟨s₂, hu, -⟩ := hvisit.run hrun
    obtain ⟨own, s₃, henter⟩ := Enters.exists_of_mem_parts hu hpart
    exact ⟨own ++ pending, s₃, hvisit.part henter⟩

end Visits

/-- Code that stands when a tree comes to be generated is not touched by it. -/
theorem gen_code_prefix {t : Tree} {s s' : Emitter} (h : (gen t).run s = .ok () s') :
    s.code.toList <+: s'.code.toList := by
  obtain ⟨c, hc, -⟩ := gen_finishes t h
  exact ⟨c, by simp [hc.code]⟩

end Emitter

open Emitter

/-- The code of a program is its code written down directly, in which nothing is patched. Generation
of a tree touches nothing that stands before it, and once a tree inside the program is done, its
code and all that stands before it is final, but for the operands that the constructs around it
still have open: each of these is the placeholder of a branch or of a return address. -/
theorem generates_layout {ts : List Token} {p : Program} {s : Emitter}
    (hparse : parseProgram ts = .ok p) (h : generate p.toTree = .ok () s) :
    s.code.toList = p.code ∧
    (∀ t s₁ s₂, (gen t).run s₁ = .ok () s₂ → s₁.code.toList <+: s₂.code.toList) ∧
    (∀ t, p.toTree.Contains t → ∃ pending s₁, Visits p.toTree {} pending t s₁) ∧
    ∀ pending t s₁, Visits p.toTree {} pending t s₁ →
      (∀ a ∈ pending, ∃ op ∈ [Opcode.beq0, .jmp, .ldpc],
        s₁.code.toList[a]? = some ⟨op, placeholder⟩) ∧
      ∃ s₂, (gen t).run s₁ = .ok () s₂ ∧ Preserves pending s₂ s := by
  refine ⟨(generate_ok (parseProgram_element hparse) h).1, fun t s₁ s₂ hrun => gen_code_prefix hrun,
    fun t ht => Visits.exists_of_contains h ht, fun pending t s₁ hvisit => ?_⟩
  exact ⟨hvisit.opened, hvisit.run h⟩

/-- An argument of an argument of a call in a branch inside a loop. -/
theorem generates_layout_nested :
    ∃ (ts : List Token) (p : Program) (s : Emitter),
      tokenize "function f(n){return n;}function main(){while(1)if(2)return f(f(3));else x=4;}" =
        .ok ts ∧
      parseProgram ts = .ok p ∧ generate p.toTree = .ok () s ∧ s.code.toList = p.code ∧
      ∃ pending s₁ s₂, Visits p.toTree {} pending (.leaf .number (some (.int 3))) s₁ ∧
        (∀ a ∈ pending, ∃ op ∈ [Opcode.beq0, .jmp, .ldpc],
          s₁.code.toList[a]? = some ⟨op, placeholder⟩) ∧
        (gen (.leaf .number (some (.int 3)))).run s₁ = .ok () s₂ ∧ Preserves pending s₂ s := by
  let f : Label := some (.word "f")
  let n : Label := some (.word "n")
  let x : Label := some (.word "x")
  let main : Label := some (.word "main")
  let number (k : Int) : Token := ⟨.number, some (.int k)⟩
  let ts : List Token :=
    [⟨.functionWord, none⟩, ⟨.identifier, f⟩, ⟨.lparen, none⟩, ⟨.identifier, n⟩, ⟨.rparen, none⟩,
     ⟨.lbrace, none⟩, ⟨.returnWord, none⟩, ⟨.identifier, n⟩, ⟨.semi, none⟩, ⟨.rbrace, none⟩,
     ⟨.functionWord, none⟩, ⟨.identifier, main⟩, ⟨.lparen, none⟩, ⟨.rparen, none⟩,
     ⟨.lbrace, none⟩, ⟨.whileWord, none⟩, ⟨.lparen, none⟩, number 1, ⟨.rparen, none⟩,
     ⟨.ifWord, none⟩, ⟨.lparen, none⟩, number 2, ⟨.rparen, none⟩, ⟨.returnWord, none⟩,
     ⟨.identifier, f⟩, ⟨.lparen, none⟩, ⟨.identifier, f⟩, ⟨.lparen, none⟩, number 3,
     ⟨.rparen, none⟩, ⟨.rparen, none⟩, ⟨.semi, none⟩, ⟨.elseWord, none⟩, ⟨.identifier, x⟩,
     ⟨.assign, none⟩, number 4, ⟨.semi, none⟩, ⟨.rbrace, none⟩, ⟨.eof, none⟩]
  let three : Expr := .num (some (.int 3))
  let inner : Stmt := .ret (.call f [.call f [three]])
  let branch : Stmt := .ifElse (.num (some (.int 2))) inner (.assign x (.num (some (.int 4))))
  let body : List Stmt := [.loop (.num (some (.int 1))) branch]
  let p : Program := [.func f [n] [.ret (.var n)], .func main [] body]
  have hscan :
      tokenize "function f(n){return n;}function main(){while(1)if(2)return f(f(3));else x=4;}" =
        .ok ts := by
    decide +kernel
  have hparse : parseProgram ts = .ok p := by cbv
  obtain ⟨_, s, hs⟩ := exists_of_run_ok (x := gen p.toTree) (s := {}) (by decide +kernel)
  -- the second function, its body, the loop, the branch, the statement, the calls, the number
  have hinside : p.toTree.Contains three.toTree :=
    Relation.ReflTransGen.refl |>.tail (.tail _ (.head _)) |>.tail (.head _) |>.tail (.head _)
      |>.tail (.tail _ (.head _)) |>.tail (.tail _ (.head _)) |>.tail (.head _) |>.tail (.head _)
      |>.tail (.head _)
  obtain ⟨hcode, -, hvisited, hpatched⟩ := generates_layout hparse hs
  obtain ⟨pending, s₁, hvisit⟩ := hvisited _ hinside
  obtain ⟨hopen, s₂, hrun, hkeep⟩ := hpatched _ _ _ hvisit
  exact ⟨ts, p, s, hscan, hparse, hs, hcode, pending, s₁, s₂, hvisit, hopen, hrun, hkeep⟩

end StackLang
