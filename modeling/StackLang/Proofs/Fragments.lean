import StackLang.Proofs.Generation

namespace StackLang

@[elab_as_elim] theorem Tree.childInduction {P : Tree → Prop}
    (node : ∀ kind value children, (∀ t ∈ children, P t) → P (.node kind value children))
    (t : Tree) : P t :=
  match t with
  | .node kind value children => node kind value children fun u _ => childInduction node u
termination_by sizeOf t

/-- Opcodes that lead to no address of the code and set no frame. -/
def straightOpcodes : List Opcode :=
  [.push] ++ Operator.all.map .binary ++ [.ret, .loadl, .storel, .loada, .ldbp, .ldsp, .strargc]

/-- An instruction that is emitted with its final operand, whatever stands around it. -/
def Instruction.Straight (i : Instruction) : Prop :=
  i.opcode ∈ straightOpcodes ∧ (i.opcode.hasOperand = false → i.operand = 0)

theorem straight_binary (op : Operator) : Instruction.Straight ⟨.binary op, 0⟩ :=
  ⟨by cases op <;> decide, fun _ => rfl⟩

theorem straight_operand {op : Opcode} (hop : op ∈ [.push, .loadl, .storel, .loada]) (n : Int) :
    Instruction.Straight ⟨op, n⟩ := by
  have hmem : ∀ op ∈ [Opcode.push, .loadl, .storel, .loada],
      op ∈ straightOpcodes ∧ op.hasOperand = true := by decide
  obtain ⟨hstraight, hoperand⟩ := hmem op hop
  exact ⟨hstraight, fun hnone => absurd (hoperand.symm.trans hnone) nofun⟩

/-- The code of a call with `n` arguments, whose code is `c`, of the function at `entry`. The
calling function has `k` parameters. -/
def callCode (c : List Instruction) (n entry k : Nat) : List Instruction :=
  [⟨.push, Emitter.placeholder⟩, ⟨.ldpc, c.length + 7⟩] ++ c ++
    [⟨.push, n⟩, ⟨.strargc, 0⟩, ⟨.ldbp, 0⟩, ⟨.ldsp, 0⟩, ⟨.strbp, 0⟩, ⟨.jmp, entry⟩, ⟨.push, k⟩,
     ⟨.strargc, 0⟩]

/-- Finished code in a program of at least this size, with these functions. -/
inductive Fragment (functions : Table FunctionInfo) (size : Nat) : List Instruction → Prop where
  | nil : Fragment functions size []
  | straight {i : Instruction} : i.Straight → Fragment functions size [i]
  | branch {op : Opcode} {target : Nat} : op = .beq0 ∨ op = .jmp → target ≤ size →
      Fragment functions size [⟨op, target⟩]
  | boot {f : Label} {info : FunctionInfo} : functions.get? f = some info →
      Fragment functions size [⟨.jmp, info.address⟩]
  | append {c c' : List Instruction} : Fragment functions size c → Fragment functions size c' →
      Fragment functions size (c ++ c')
  | call {c : List Instruction} {f : Label} {info : FunctionInfo} (n k : Nat) :
      functions.get? f = some info → Fragment functions size c →
      Fragment functions size (callCode c n info.address k)

theorem Fragment.mono {functions functions' : Table FunctionInfo} {size size' : Nat}
    {c : List Instruction} (h : Fragment functions size c)
    (hf : ∀ f info, functions.get? f = some info → functions'.get? f = some info)
    (hsize : size ≤ size') : Fragment functions' size' c := by
  induction h with
  | nil => exact .nil
  | straight hi => exact .straight hi
  | branch hop ht => exact .branch hop (Nat.le_trans ht hsize)
  | boot hget => exact .boot (hf _ _ hget)
  | append _ _ ih ih' => exact .append ih ih'
  | call n k hget _ ih => exact .call n k (hf _ _ hget) ih

/-- Finished code is made of straight instructions, branches, jumps to functions, and what calls
need besides. -/
theorem Fragment.all_of {functions : Table FunctionInfo} {size : Nat} {c : List Instruction}
    (h : Fragment functions size c) {P : Instruction → Prop}
    (straight : ∀ i : Instruction, i.Straight → P i)
    (branch : ∀ op (target : Nat), op = .beq0 ∨ op = .jmp → target ≤ size → P ⟨op, target⟩)
    (jump : ∀ f info, functions.get? f = some info → P ⟨.jmp, info.address⟩)
    (ldpc : ∀ n, P ⟨.ldpc, n⟩) (strbp : P ⟨.strbp, 0⟩) : ∀ i ∈ c, P i := by
  induction h with
  | nil => nofun
  | straight hi => exact fun i hmem => List.mem_singleton.mp hmem ▸ straight _ hi
  | branch hop ht => exact fun i hmem => List.mem_singleton.mp hmem ▸ branch _ _ hop ht
  | boot hget => exact fun i hmem => List.mem_singleton.mp hmem ▸ jump _ _ hget
  | append _ _ ih ih' =>
    intro i hmem
    rcases List.mem_append.mp hmem with hmem | hmem
    · exact ih i hmem
    · exact ih' i hmem
  | call n k hget _ ih =>
    have hpush : ∀ n, P ⟨.push, n⟩ := fun n => straight _ (straight_operand (by simp) n)
    have hplain : ∀ op ∈ [Opcode.strargc, .ldbp, .ldsp], P ⟨op, 0⟩ := fun op hop =>
      straight _ ⟨by revert op; decide, fun _ => rfl⟩
    intro i hmem
    simp only [callCode, List.mem_append, List.mem_cons, List.not_mem_nil, or_false] at hmem
    rcases hmem with ((rfl | rfl) | hmem) | rfl | rfl | rfl | rfl | rfl | rfl | rfl | rfl
    · exact hpush _
    · exact ldpc _
    · exact ih i hmem
    · exact hpush _
    · exact hplain _ (by simp)
    · exact hplain _ (by simp)
    · exact hplain _ (by simp)
    · exact strbp
    · exact jump _ _ hget
    · exact hpush _
    · exact hplain _ (by simp)

namespace Emitter

/-- No function starts behind the code. -/
def Anchored (s : Emitter) : Prop :=
  ∀ f info, s.functions.get? f = some info → info.address ≤ s.code.size

/-- Between `s` and `s'` the code `c` was appended, and no function was taken away. -/
structure Appends (s : Emitter) (c : List Instruction) (s' : Emitter) : Prop where
  code : s'.code = s.code ++ c.toArray
  functions : ∀ f info, s.functions.get? f = some info → s'.functions.get? f = some info
  anchored : s.Anchored → s'.Anchored

namespace Appends

variable {s s₁ s₂ s' : Emitter} {c c' d : List Instruction} {op : Opcode} {m n : Int}

theorem size (h : Appends s c s') : s'.code.size = s.code.size + c.length := by
  simp [h.code]

theorem of_functions_eq (hcode : s'.code = s.code ++ c.toArray)
    (hfunctions : s'.functions = s.functions) : Appends s c s' := by
  refine ⟨hcode, fun f info hf => by rwa [hfunctions], fun h f info hf => ?_⟩
  rw [hfunctions] at hf
  have haddress := h f info hf
  rw [hcode]
  simp only [Array.size_append, List.size_toArray]
  omega

theorem refl (s : Emitter) : Appends s [] s :=
  of_functions_eq (by simp) rfl

theorem trans (h : Appends s c s₁) (h' : Appends s₁ c' s₂) : Appends s (c ++ c') s₂ where
  code := by simp [h'.code, h.code, Array.append_assoc]
  functions f info hf := h'.functions f info (h.functions f info hf)
  anchored hs := h'.anchored (h.anchored hs)

theorem emit_ok {a : Nat} (he : Appends s c s₁) (h : (emit op n).run s₁ = .ok a s') :
    a = s.code.size + c.length ∧ Appends s (c ++ [⟨op, n⟩]) s' := by
  cases h
  exact ⟨he.size, he.trans (of_functions_eq (by simp) rfl)⟩

theorem emitPlain_ok (he : Appends s c s₁) (h : (emitPlain op).run s₁ = .ok () s') :
    Appends s (c ++ [⟨op, 0⟩]) s' := by
  cases h
  exact he.trans (of_functions_eq (by simp) rfl)

theorem patch_ok {address : Nat} (he : Appends s (c ++ ⟨op, m⟩ :: c') s₁)
    (h : (patch address n).run s₁ = .ok () s') (ha : address = s.code.size + c.length) :
    Appends s (c ++ ⟨op, n⟩ :: c') s' := by
  cases h
  refine ⟨?_, he.functions, fun hs f info hf => ?_⟩
  · apply Array.toList_inj.mp
    have hm := modify_append_cons (s.code.toList ++ c) ⟨op, m⟩ c' fun i => { i with operand := n }
    simpa [he.code, ha, List.append_assoc] using hm
  · have haddress := he.anchored hs f info hf
    simpa using haddress

end Appends

/-- From `s` to `s'` nothing was taken away. -/
structure Grows (s s' : Emitter) : Prop where
  functions : ∀ f info, s.functions.get? f = some info → s'.functions.get? f = some info
  size : s.code.size ≤ s'.code.size

theorem Grows.trans {s s₁ s₂ : Emitter} (h : Grows s s₁) (h' : Grows s₁ s₂) : Grows s s₂ where
  functions f info hf := h'.functions f info (h.functions f info hf)
  size := Nat.le_trans h.size h'.size

theorem Appends.grows {s s' : Emitter} {c : List Instruction} (h : Appends s c s') : Grows s s' :=
  ⟨h.functions, by rw [h.size]; omega⟩

theorem grows_emit {s s' : Emitter} {op : Opcode} {n : Int} {a : Nat}
    (h : (emit op n).run s = .ok a s') : Grows s s' :=
  ((Appends.refl s).emit_ok h).2.grows

theorem grows_patch {s s' : Emitter} {address : Nat} {n : Int}
    (h : (patch address n).run s = .ok () s') : Grows s s' := by
  cases h
  exact ⟨fun _ _ hf => hf, by simp⟩

theorem Grows.fragment {s s' : Emitter} {c : List Instruction} (h : Grows s s')
    (hc : Fragment s.functions s.code.size c) : Fragment s'.functions s'.code.size c :=
  hc.mono h.functions h.size

theorem Emits.appends {s s' : Emitter} {c : List Instruction} {Γ : Context} (h : Emits s c Γ s')
    (hΓ : Γ.functions = s.functions) : Appends s c s' :=
  .of_functions_eq h.code ((congrArg Context.functions h.context).trans hΓ)

/-- The code that was appended between `s` and `s'` is finished. -/
def Finishes (s s' : Emitter) : Prop :=
  ∃ c, Appends s c s' ∧ Fragment s'.functions s'.code.size c

section Trees

variable {s s₁ s₂ s' : Emitter}

theorem Finishes.refl (s : Emitter) : Finishes s s :=
  ⟨[], .refl s, .nil⟩

theorem Finishes.trans (h : Finishes s s₁) (h' : Finishes s₁ s₂) : Finishes s s₂ := by
  obtain ⟨c, hc, hf⟩ := h
  obtain ⟨c', hc', hf'⟩ := h'
  exact ⟨c ++ c', hc.trans hc', .append (hc'.grows.fragment hf) hf'⟩

theorem Finishes.emit {op : Opcode} {n : Int} {a : Nat} (h : Finishes s s₁)
    (hrun : (emit op n).run s₁ = .ok a s') (hi : Instruction.Straight ⟨op, n⟩) :
    Finishes s s' := by
  refine h.trans ⟨[⟨op, n⟩], ?_, .straight hi⟩
  exact ((Appends.refl s₁).emit_ok hrun).2

theorem Finishes.emitPlain {op : Opcode} (h : Finishes s s₁)
    (hrun : (emitPlain op).run s₁ = .ok () s') (hi : Instruction.Straight ⟨op, 0⟩) :
    Finishes s s' := by
  refine h.trans ⟨[⟨op, 0⟩], ?_, .straight hi⟩
  exact (Appends.refl s₁).emitPlain_ok hrun

theorem identifier_finishes {x : Label} (h : (identifier x).run s = .ok () s') :
    Finishes s s' := by
  refine ⟨_, (identifier_ok h).2.appends rfl, .straight ?_⟩
  unfold Context.load
  split
  next => exact straight_operand (by simp) _
  next => exact straight_operand (by simp) _

theorem allocate_finishes {x : Label} {slot : Nat} (h : (allocate x).run s = .ok slot s') :
    Finishes s s' := by
  refine ⟨_, (allocate_ok h).2.appends rfl, ?_⟩
  split
  next => exact .nil
  next => exact .straight (straight_operand (by simp) _)

theorem closeCall_grows {info : FunctionInfo} {n ldpcAt : Nat}
    (h : (closeCall info n ldpcAt).run s = .ok () s') : Grows s s' := by
  cases h
  refine ⟨fun _ _ hf => hf, ?_⟩
  simp only [Array.size_push, Array.size_modify]
  omega

theorem call_finishes {info : FunctionInfo} {f : Label} {n ldpcAt : Nat}
    (hf : s.functions.get? f = some info) (hopen : openCall.run s = .ok ldpcAt s₁)
    (hargs : Finishes s₁ s₂) (hclose : (closeCall info n ldpcAt).run s₂ = .ok () s') :
    Finishes s s' := by
  obtain ⟨hat, eo⟩ := openCall_ok hopen
  obtain ⟨c, ec, hc⟩ := hargs
  have hgrows := closeCall_grows hclose
  simp only [closeCall, run_bind_eq_ok] at hclose
  obtain ⟨_, _, h₂, _, _, h₃, _, _, h₄, _, _, h₅, _, _, h₆, jumpAt, _, h₇, _, s₈, h₈, _, _, h₉,
    _, _, h₁₀, h₁₁⟩ := hclose
  cases h₉
  have e₆ := ((((((eo.appends rfl).trans ec).emit_ok h₂).2.emitPlain_ok h₃).emitPlain_ok
    h₄).emitPlain_ok h₅).emitPlain_ok h₆
  obtain ⟨hjump, e₇⟩ := e₆.emit_ok h₇
  simp only [List.append_assoc, List.cons_append, List.nil_append] at e₇
  have e₈ := Appends.patch_ok (c := [⟨.push, placeholder⟩]) e₇ h₈ hat
  rw [argc_eq] at h₁₀
  have e := (e₈.emit_ok h₁₀).2.emitPlain_ok h₁₁
  have hoffset : (jumpAt : Int) - ldpcAt + 1 = c.length + 7 := by
    simp only [hjump, hat, List.length_append, List.length_cons, List.length_nil]
    omega
  rw [hoffset] at e
  refine ⟨callCode c n info.address s₈.context.argc, by simpa [callCode] using e, ?_⟩
  exact .call n _ (e.functions f info hf) (hgrows.fragment hc)

theorem patch_finishes {c c' : List Instruction} {op : Opcode} {m n : Int} {address : Nat}
    (he : Appends s (c ++ ⟨op, m⟩ :: c') s₁) (hrun : (patch address n).run s₁ = .ok () s')
    (ha : address = s.code.size + c.length) (hc : Fragment s₁.functions s₁.code.size c)
    (hi : Fragment s₁.functions s₁.code.size [⟨op, n⟩])
    (hc' : Fragment s₁.functions s₁.code.size c') : Finishes s s' :=
  ⟨_, he.patch_ok hrun ha, (grows_patch hrun).fragment (.append hc (.append hi hc'))⟩

theorem ifThen_finishes {branchAt : Nat} (hc : Finishes s s₁)
    (hb : (Emitter.emit .beq0 placeholder).run s₁ = .ok branchAt s₂) {s₃ : Emitter}
    (ht : Finishes s₂ s₃) (hp : (patch branchAt s₃.code.size).run s₃ = .ok () s') :
    Finishes s s' := by
  obtain ⟨c, ec, fc⟩ := hc
  obtain ⟨d, ed, fd⟩ := ht
  obtain ⟨hat, eb⟩ := ec.emit_ok hb
  have e := eb.trans ed
  rw [List.append_assoc, List.singleton_append] at e
  have hgrows := (grows_emit hb).trans ed.grows
  exact patch_finishes e hp hat (hgrows.fragment fc) (.branch (.inl rfl) (Nat.le_refl _)) fd

theorem ifElse_finishes {branchAt skipAt : Nat} (hc : Finishes s s₁)
    (hb : (Emitter.emit .beq0 placeholder).run s₁ = .ok branchAt s₂) {s₃ s₄ s₅ s₆ : Emitter}
    (ht : Finishes s₂ s₃) (hk : (Emitter.emit .jmp placeholder).run s₃ = .ok skipAt s₄)
    (hp : (patch branchAt s₄.code.size).run s₄ = .ok () s₅) (he : Finishes s₅ s₆)
    (hp' : (patch skipAt s₆.code.size).run s₆ = .ok () s') : Finishes s s' := by
  obtain ⟨c, ec, fc⟩ := hc
  obtain ⟨d, ed, fd⟩ := ht
  obtain ⟨d', ed', fd'⟩ := he
  obtain ⟨hat, eb⟩ := ec.emit_ok hb
  obtain ⟨hskip, ek⟩ := (eb.trans ed).emit_ok hk
  simp only [List.append_assoc, List.cons_append, List.nil_append] at ek
  have e := (ek.patch_ok hp hat).trans ed'
  -- the skipping jump stands behind the code up to the end of the first branch
  have hcode : c ++ ⟨.beq0, s₄.code.size⟩ :: (d ++ [⟨.jmp, placeholder⟩]) ++ d' =
      c ++ ⟨.beq0, s₄.code.size⟩ :: d ++ ⟨.jmp, placeholder⟩ :: d' := by simp
  rw [hcode] at e
  have hgrows := (grows_emit hk).trans ((grows_patch hp).trans ed'.grows)
  have hgrows' := (grows_emit hb).trans (ed.grows.trans hgrows)
  have hbranch : s₄.code.size ≤ s₆.code.size := ((grows_patch hp).trans ed'.grows).size
  refine patch_finishes e hp' (by simpa [Nat.add_assoc] using hskip) ?_
    (.branch (.inr rfl) (Nat.le_refl _)) fd'
  exact .append (hgrows'.fragment fc)
    (.append (c := [_]) (.branch (.inl rfl) hbranch) (hgrows.fragment fd))

theorem loop_finishes {branchAt jumpAt : Nat} (hc : Finishes s s₁)
    (hb : (Emitter.emit .beq0 placeholder).run s₁ = .ok branchAt s₂) {s₃ s₄ : Emitter}
    (ht : Finishes s₂ s₃) (hj : (Emitter.emit .jmp s.code.size).run s₃ = .ok jumpAt s₄)
    (hp : (patch branchAt s₄.code.size).run s₄ = .ok () s') : Finishes s s' := by
  obtain ⟨c, ec, fc⟩ := hc
  obtain ⟨d, ed, fd⟩ := ht
  obtain ⟨hat, eb⟩ := ec.emit_ok hb
  obtain ⟨-, ej⟩ := (eb.trans ed).emit_ok hj
  simp only [List.append_assoc, List.cons_append, List.nil_append] at ej
  have hgrows := (grows_emit hb).trans (ed.grows.trans (grows_emit hj))
  have hstart : s.code.size ≤ s₄.code.size := ej.grows.size
  exact patch_finishes ej hp hat (hgrows.fragment fc) (.branch (.inl rfl) (Nat.le_refl _))
    (.append ((grows_emit hj).fragment fd) (.branch (.inr rfl) hstart))

theorem toplevel_finishes {a bootAt : Nat} {f : Label} {info : FunctionInfo} {s₃ : Emitter}
    (hpush : (Emitter.emit .push 0).run s = .ok a s₁)
    (hjump : (Emitter.emit .jmp placeholder).run s₁ = .ok bootAt s₂) (hrest : Finishes s₂ s₃)
    (hf : s₃.functions.get? f = some info)
    (hp : (patch bootAt info.address).run s₃ = .ok () s') : Finishes s s' := by
  obtain ⟨c, ec, fc⟩ := hrest
  obtain ⟨-, e₁⟩ := (Appends.refl s).emit_ok hpush
  obtain ⟨hat, e₂⟩ := e₁.emit_ok hjump
  exact patch_finishes (c := [⟨.push, 0⟩]) (e₂.trans ec) hp hat
    (.straight (straight_operand (by simp) 0)) (.boot hf) fc

theorem declare_appends {f : Label} {params : List Label} (hnew : s.functions.get? f = none)
    (h : (declare f params).run s = .ok () s') : Appends s [] s' := by
  cases h
  refine ⟨by simp, fun g info hg => ?_, fun hs g info hg => ?_⟩
  · have hne : g ≠ f := by
      rintro rfl
      rw [hnew] at hg
      cases hg
    rw [Table.get?_insert, if_neg hne, hg]
  · rw [Table.get?_insert] at hg
    split at hg
    next =>
      cases hg
      exact Nat.le_refl _
    next => exact hs g info hg

theorem leave_finishes (h : Finishes s s₁) (hrun : leave.run s₁ = .ok () s') : Finishes s s' := by
  cases hrun
  exact h.trans ⟨[], .of_functions_eq (by simp) rfl, .nil⟩

theorem genAll_finishes {ts : List Tree}
    (ih : ∀ t ∈ ts, ∀ {s s' : Emitter}, (gen t).run s = .ok () s' → Finishes s s')
    (h : (genAll ts).run s = .ok () s') : Finishes s s' := by
  induction ts generalizing s with
  | nil =>
    rw [genAll] at h
    cases h
    exact .refl _
  | cons t ts ihts =>
    rw [genAll] at h
    obtain ⟨_, s₁, ht, hts⟩ := run_bind_eq_ok.mp h
    have hrest := ihts (fun u hu => ih u (List.mem_cons_of_mem t hu)) hts
    exact (ih t List.mem_cons_self ht).trans hrest

theorem genElements_finishes {ts : List Tree}
    (ih : ∀ t ∈ ts, ∀ {s s' : Emitter}, (gen t).run s = .ok () s' → Finishes s s')
    (h : (genElements ts).run s = .ok () s') : Finishes s s' := by
  induction ts generalizing s with
  | nil =>
    rw [genElements] at h
    cases h
    exact .refl _
  | cons t ts ihts =>
    rw [genElements_cons_eq] at h
    simp only [run_bind_eq_ok] at h
    obtain ⟨_, s₁, hw, _, s₂, ht, hts⟩ := h
    have hwarned : Finishes s s₁ := ⟨[], (warned_ok hw).appends rfl, .nil⟩
    have hrest := ihts (fun u hu => ih u (List.mem_cons_of_mem t hu)) hts
    exact hwarned.trans ((ih t List.mem_cons_self ht).trans hrest)

/-- What is generated for a tree is finished. -/
theorem gen_finishes (t : Tree) :
    ∀ {s s' : Emitter}, (gen t).run s = .ok () s' → Finishes s s' := by
  induction t using Tree.childInduction with
  | node kind v cs ih =>
    intro s s' h
    rw [gen.eq_def] at h
    cases kind with
    | number =>
      dsimp only at h
      unfold number at h
      split at h
      next n =>
        obtain ⟨_, _, he, hp⟩ := run_bind_eq_ok.mp h
        cases hp
        exact (Finishes.refl s).emit he (straight_operand (by simp) n)
      next => cases h
    | identifier => exact identifier_finishes h
    | call =>
      simp only [run_bind_eq_ok] at h
      obtain ⟨info, _, hc, ldpcAt, s₂, ho, _, s₃, hargs, hclose⟩ := h
      obtain ⟨rfl, hf, -⟩ := callee_ok hc
      exact call_finishes hf ho (genAll_finishes ih hargs) hclose
    | binary op =>
      dsimp only at h
      split at h
      next l r =>
        simp only [run_bind_eq_ok] at h
        obtain ⟨_, s₁, hr, _, s₂, hl, hop⟩ := h
        have hboth := (ih r (by simp) hr).trans (ih l (by simp) hl)
        exact hboth.emitPlain hop (straight_binary op)
      next => cases h
    | assignment =>
      dsimp only at h
      split at h
      next x e =>
        simp only [run_bind_eq_ok] at h
        obtain ⟨slot, s₁, ha, _, s₂, he, _, _, hs, hp⟩ := h
        cases hp
        exact ((allocate_finishes ha).trans (ih e (by simp) he)).emit hs
          (straight_operand (by simp) slot)
      next => cases h
    | noop =>
      cases h
      exact .refl s
    | ifStmt =>
      dsimp only at h
      split at h
      next c t =>
        simp only [run_bind_eq_ok] at h
        obtain ⟨_, s₁, hc, branchAt, s₂, hb, _, s₃, ht, _, _, hh, hpatch⟩ := h
        cases hh
        exact ifThen_finishes (ih c (by simp) hc) hb (ih t (by simp) ht) hpatch
      next c t e rest =>
        simp only [run_bind_eq_ok] at h
        obtain ⟨_, s₁, hc, branchAt, s₂, hb, _, s₃, ht, skipAt, s₄, hk, _, _, hh, _, s₆, hpatch,
          _, s₇, he, _, _, hh', hpatch'⟩ := h
        cases hh
        cases hh'
        exact ifElse_finishes (ih c (by simp) hc) hb (ih t (by simp) ht) hk hpatch
          (ih e (by simp) he) hpatch'
      next => cases h
    | whileStmt =>
      dsimp only at h
      split at h
      next c b =>
        simp only [run_bind_eq_ok] at h
        obtain ⟨_, _, hh, _, s₂, hc, branchAt, s₃, hb, _, s₄, ht, _, s₅, hj, _, _, hh', hpatch⟩ := h
        cases hh
        cases hh'
        exact loop_finishes (ih c (by simp) hc) hb (ih b (by simp) ht) hj hpatch
      next => cases h
    | functionDecl =>
      simp only [run_bind_eq_ok] at h
      obtain ⟨_, _, hget, h⟩ := h
      cases hget
      split at h
      next => cases h
      next hnew =>
        split at h
        next => cases h
        next b params =>
          simp only [run_bind_eq_ok] at h
          obtain ⟨_, s₁, hdeclare, _, s₂, hbody, hleave⟩ := h
          have hnone : s.functions.get? v = none := by simpa [Table.contains] using hnew
          have hd : Finishes s s₁ := ⟨[], declare_appends hnone hdeclare, .nil⟩
          exact leave_finishes (hd.trans (ih b (by simp) hbody)) hleave
    | parameter => cases h
    | returnStmt =>
      dsimp only at h
      split at h
      next => cases h
      next e rest =>
        simp only [run_bind_eq_ok] at h
        obtain ⟨_, s₁, he, hr⟩ := h
        exact (ih e (by simp) he).emitPlain hr ⟨by decide, fun _ => rfl⟩
    | block => exact genAll_finishes ih h
    | toplevel =>
      simp only [run_bind_eq_ok] at h
      obtain ⟨_, s₁, hpush, bootAt, s₂, hjump, _, s₃, helements, _, _, hget, h⟩ := h
      cases hget
      split at h
      next info hmain =>
        exact toplevel_finishes hpush hjump (genElements_finishes ih helements) hmain h
      next => cases h

end Trees

end Emitter

end StackLang
