import StackLang.Machine.Execute

namespace StackLang

/-- The fault is found by an instruction, and it is no division by zero. -/
def Fault.Plain : Fault → Prop
  | stepLimit _ _ | divisionByZero _ _ _ => False
  | _ => True

namespace Machine

/-- The machine with further cells on its stack. -/
def pile (m : Machine) (cells : List Int) : Machine :=
  { m with stack := m.stack ++ cells.toArray }

theorem pile_nil (m : Machine) : m.pile [] = m := by
  simp [pile]

theorem pile_pile (m : Machine) (cells cells' : List Int) :
    (m.pile cells).pile cells' = m.pile (cells ++ cells') := by
  simp [pile]

section Ends

variable {α β : Type} {x : MachineM α} {m m' : Machine} {a : α} {e : Fault} {index v : Int}
  {P : α → Machine → Prop} {Q : β → Machine → Prop} {F : Fault → Machine → Prop}

/-- From `m` on, the step succeeds as `P` says or fails as `F` says. -/
def Ends (x : MachineM α) (m : Machine) (P : α → Machine → Prop) (F : Fault → Machine → Prop) :
    Prop :=
  match x.run m with
  | .ok a m' => P a m'
  | .error e m' => F e m'

namespace Ends

theorem ok (h : Ends x m P F) (hrun : x.run m = .ok a m') : P a m' := by
  rwa [Ends, hrun] at h

theorem error (h : Ends x m P F) (hrun : x.run m = .error e m') : F e m' := by
  rwa [Ends, hrun] at h

theorem bind {f : α → MachineM β} (hx : Ends x m P F) (hf : ∀ a m', P a m' → Ends (f a) m' Q F) :
    Ends (x >>= f) m Q F := by
  simp only [Ends, EStateM.run_bind] at hx ⊢
  cases hrun : x.run m with
  | ok a m' =>
    rw [hrun] at hx
    exact hf a m' hx
  | error e m' =>
    rw [hrun] at hx
    exact hx

theorem pure (h : P a m) : Ends (Pure.pure a) m P F :=
  h

theorem fail (h : F e m) : Ends (throw e) m P F :=
  h

theorem get : Ends MonadState.get m (fun a m' => a = m ∧ m' = m) F :=
  ⟨rfl, rfl⟩

theorem update {f : Machine → Machine} : Ends (modify f) m (fun _ m' => m' = f m) F :=
  rfl

theorem push : Ends (Machine.push v) m (fun _ m' => m' = { m with stack := m.stack.push v }) F :=
  rfl

theorem pop (hempty : F (.stackUnderflow m.pc) m) :
    Ends Machine.pop m (fun v m' => m = m'.pile [v]) F := by
  rw [Ends, run_pop]
  cases hback : m.stack.back? with
  | none => exact hempty
  | some v =>
    obtain ⟨stack, pc, bp, argc, halted⟩ := m
    obtain ⟨st, rfl⟩ := Array.back?_eq_some_iff.mp hback
    simp [pile]

theorem read (hrange : F (.readRange index m.stack.size m.pc) m) :
    Ends (Machine.read index) m (fun _ m' => m' = m) F := by
  cases hcell : (if 0 ≤ index then m.stack[index.toNat]? else none) with
  | none =>
    simp only [Ends, EStateM.run, Machine.read, hcell]
    exact hrange
  | some v => simp only [Ends, EStateM.run, Machine.read, hcell]

theorem write (hrange : ∀ e : Fault, e.Plain → F e m) :
    Ends (Machine.write index v) m
      (fun _ m' => ∃ st, st[index.toNat]? = some v ∧ m' = { m with stack := st }) F := by
  by_cases hneg : index < 0
  · simp only [Ends, EStateM.run, Machine.write, if_pos hneg]
    exact hrange _ trivial
  by_cases hlt : index.toNat < m.stack.size
  · simp only [Ends, EStateM.run, Machine.write, if_neg hneg, if_pos hlt]
    exact ⟨_, by simp [hlt], rfl⟩
  by_cases hgrowth : maxGrowth < index.toNat - m.stack.size + 1
  · simp only [Ends, EStateM.run, Machine.write, if_neg hneg, if_neg hlt, if_pos hgrowth]
    exact hrange _ trivial
  · simp only [Ends, EStateM.run, Machine.write, if_neg hneg, if_neg hlt, if_neg hgrowth]
    have hsize : (m.stack ++ Array.replicate (index.toNat - m.stack.size) filler).size =
        index.toNat := by
      simp only [Array.size_append, Array.size_replicate]
      omega
    exact ⟨_, by rw [Array.getElem?_push, if_pos hsize.symm], rfl⟩

theorem truncate (hrange : F (.topRange index m.stack.size) m) :
    Ends (Machine.truncate index) m (fun _ m' => ∃ st, m' = { m with stack := st }) F := by
  by_cases hi : -1 ≤ index ∧ index < m.stack.size
  · simp only [Ends, EStateM.run, Machine.truncate, if_pos hi]
    exact ⟨_, rfl⟩
  · simp only [Ends, EStateM.run, Machine.truncate, if_neg hi]
    exact hrange

theorem jump {op : Opcode} {size target : Int} (hrange : F (.jumpRange op target m.pc size) m) :
    Ends (Machine.jump op size target) m
      (fun _ m' => 0 ≤ target ∧ target ≤ size ∧ m' = { m with pc := target }) F := by
  by_cases ht : 0 ≤ target ∧ target ≤ size
  · simp only [Ends, EStateM.run, Machine.jump, if_pos ht]
    exact ⟨ht.1, ht.2, trivial⟩
  · simp only [Ends, EStateM.run, Machine.jump, if_neg ht]
    exact hrange

end Ends

end Ends

end Machine

/-- Whether an instruction can fail after it has taken a value from the stack. -/
def Opcode.risksValue : Opcode → Bool
  | binary _ | beq0 | storel | storea | strsp | strpc | print => true
  | _ => false

/-- The cells that an instruction may have taken from the stack when it fails, the lowest first. -/
inductive Opcode.Loses : Opcode → Fault → List Int → Prop where
  | nothing {op : Opcode} {e : Fault} : e.Plain → Loses op e []
  | value {op : Opcode} {e : Fault} {v : Int} : e.Plain → op.risksValue = true → Loses op e [v]
  | operands {op : Operator} {left : Int} : op = .div ∨ op = .mod →
      Loses (.binary op) (.divisionByZero op left 0) [0, left]

namespace Opcode.Loses

variable {op : Opcode} {e : Fault} {cells : List Int}

theorem length_le (h : op.Loses e cells) : cells.length ≤ 2 := by
  cases h with
  | _ => simp

theorem length_eq_two_iff (h : op.Loses e cells) :
    cells.length = 2 ↔ ∃ o left, (o = .div ∨ o = .mod) ∧ op = .binary o ∧ cells = [0, left] ∧
      e = .divisionByZero o left 0 := by
  cases h with
  | nothing => simp
  | value => simp
  | @operands o left ho => exact ⟨fun _ => ⟨o, left, ho, rfl, rfl, rfl⟩, fun _ => rfl⟩

theorem eq_nil (h : op.Loses e cells) (hop : op.risksValue = false) : cells = [] := by
  cases h with
  | nothing => rfl
  | value _ hop' => rw [hop] at hop'; cases hop'
  | operands => cases hop

theorem ne_stepLimit {steps : Nat} {pc : Int} (h : op.Loses e cells) : e ≠ .stepLimit steps pc := by
  rintro rfl
  cases h with
  | nothing hplain => exact hplain
  | value hplain => exact hplain

end Opcode.Loses

namespace Machine

/-- How an instruction that is no return fails. -/
def Fails (i : Instruction) (m : Machine) (e : Fault) (m' : Machine) : Prop :=
  ∃ cells, i.opcode.Loses e cells ∧ m = m'.pile cells

theorem Fails.nothing {i : Instruction} {e : Fault} {m : Machine} (he : e.Plain) : Fails i m e m :=
  ⟨[], .nothing he, m.pile_nil.symm⟩

theorem Fails.value {i : Instruction} {e : Fault} {m : Machine} {v : Int} (he : e.Plain)
    (hi : i.opcode.risksValue = true) : Fails i (m.pile [v]) e m :=
  ⟨[v], .value he hi, rfl⟩

/-- What an instruction that is no return asks for. -/
inductive Asks (i : Instruction) (m : Machine) (e : Effect) (m' : Machine) : Prop where
  | next : i.opcode ≠ .jmp → e.target = none → m'.pc = m.pc → m'.halted = m.halted → Asks i m e m'
  | branch {target : Int} : e.target = some target →
      i.opcode = .strpc ∨ (i.opcode = .jmp ∨ i.opcode = .beq0) ∧ target = i.operand →
      m'.halted = m.halted → (∀ e : Fault, e.Plain → Fails i m e m') → Asks i m e m'

variable {halting : Bool} {sink : Sink} {size : Int} {i : Instruction}

theorem operate_ends {op : Operator} {n : Int} {m : Machine} :
    Ends (operate op) m (fun _ m' => m'.pc = m.pc ∧ m'.halted = m.halted)
      (Fails ⟨.binary op, n⟩ m) := by
  refine .bind (.pop (.nothing trivial)) ?_
  rintro left m₁ rfl
  refine .bind (.pop (.value trivial rfl)) ?_
  rintro right m₂ rfl
  cases hv : op.eval? left right with
  | some v => exact ⟨rfl, rfl⟩
  | none =>
    have hzero : right = 0 ∧ (op = .div ∨ op = .mod) := by
      cases op with
      | div | mod => simp_all [Operator.eval?]
      | _ => cases hv
    obtain ⟨rfl, hop⟩ := hzero
    exact .fail ⟨_, .operands hop, pile_pile _ _ _⟩

theorem effect_ends (hret : i.opcode ≠ .ret) (m : Machine) :
    Ends (effect halting sink i) m (Asks i m) (Fails i m) := by
  obtain ⟨op, n⟩ := i
  cases op with
  | ret => exact absurd rfl hret
  | push =>
    refine .bind .push ?_
    rintro _ _ rfl
    exact .pure (.next (by rintro ⟨⟩) rfl rfl rfl)
  | binary op =>
    refine .bind operate_ends ?_
    rintro _ m' ⟨hpc, hhalted⟩
    exact .pure (.next (by rintro ⟨⟩) rfl hpc hhalted)
  | jmp => exact .pure (.branch rfl (.inr ⟨.inl rfl, rfl⟩) rfl fun e he => .nothing he)
  | beq0 =>
    refine .bind (.pop (.nothing trivial)) ?_
    rintro v m' rfl
    refine .pure ?_
    by_cases hv : v = 0
    · exact .branch (if_pos hv) (.inr ⟨.inr rfl, rfl⟩) rfl fun e he => .value he rfl
    · exact .next (by rintro ⟨⟩) (if_neg hv) rfl rfl
  | strpc =>
    refine .bind (.pop (.nothing trivial)) ?_
    rintro v m' rfl
    exact .pure (.branch rfl (.inl rfl) rfl fun e he => .value he rfl)
  | loadl | loada =>
    refine .bind .get ?_
    rintro _ _ ⟨rfl, rfl⟩
    refine .bind (.read (.nothing trivial)) ?_
    rintro v _ rfl
    refine .bind .push ?_
    rintro _ _ rfl
    exact .pure (.next (by rintro ⟨⟩) rfl rfl rfl)
  | storel | storea =>
    refine .bind .get ?_
    rintro _ _ ⟨rfl, rfl⟩
    refine .bind (.pop (.nothing trivial)) ?_
    rintro v m' rfl
    refine .bind (.write fun e he => .value he rfl) ?_
    rintro _ _ ⟨st, -, rfl⟩
    exact .pure (.next (by rintro ⟨⟩) rfl rfl rfl)
  | ldbp | ldsp | ldpc | ldargc =>
    refine .bind .get ?_
    rintro _ _ ⟨rfl, rfl⟩
    refine .bind .push ?_
    rintro _ _ rfl
    exact .pure (.next (by rintro ⟨⟩) rfl rfl rfl)
  | strbp | strargc =>
    refine .bind (.pop (.nothing trivial)) ?_
    rintro v m' rfl
    refine .bind .update ?_
    rintro _ _ rfl
    exact .pure (.next (by rintro ⟨⟩) rfl rfl rfl)
  | strsp =>
    refine .bind (.pop (.nothing trivial)) ?_
    rintro v m' rfl
    refine .bind (.truncate (.value trivial rfl)) ?_
    rintro _ _ ⟨st, rfl⟩
    exact .pure (.next (by rintro ⟨⟩) rfl rfl rfl)
  | print =>
    refine .bind (.pop (.nothing trivial)) ?_
    rintro v m' rfl
    cases sink v with
    | ok text => exact .pure (.next (by rintro ⟨⟩) rfl rfl rfl)
    | error cause => exact .fail (.value trivial rfl)
  | unknown mnemonic =>
    refine .bind .get ?_
    rintro _ _ ⟨rfl, rfl⟩
    exact .fail (.nothing trivial)

/-- Where control is after an instruction that is no return. -/
inductive Goes (i : Instruction) (size : Int) (m m' : Machine) : Prop where
  | next : i.opcode ≠ .jmp → m'.pc = m.pc + 1 → m'.halted = m.halted → Goes i size m m'
  | jump : i.opcode = .strpc ∨ (i.opcode = .jmp ∨ i.opcode = .beq0) ∧ m'.pc = i.operand →
      0 ≤ m'.pc → m'.pc ≤ size → m'.halted = m.halted → Goes i size m m'

theorem execute_ends (hret : i.opcode ≠ .ret) (m : Machine) :
    Ends (execute halting sink size i) m (fun _ m' => Goes i size m m') (Fails i m) := by
  refine .bind (effect_ends hret m) ?_
  rintro e m₁ (⟨hjmp, htarget, hpc, hhalted⟩ | ⟨htarget, hi, hhalted, hfails⟩)
  · rw [htarget]
    refine .bind .update ?_
    rintro _ _ rfl
    exact .pure (.next hjmp (congrArg (· + 1) hpc) hhalted)
  · rw [htarget]
    refine .bind (.jump (hfails _ trivial)) ?_
    rintro _ _ ⟨hlow, hhigh, rfl⟩
    exact .pure (.jump hi hlow hhigh hhalted)

/-- How a return fails: the stack and `bp` may have changed. -/
def Balks (m : Machine) (e : Fault) (m' : Machine) : Prop :=
  e.Plain ∧ m'.pc = m.pc ∧ m'.argc = m.argc ∧ m'.halted = m.halted

/-- Where control is after a return. -/
inductive Returns (halting : Bool) (size : Int) (m m' : Machine) : Prop where
  | ignored : halting = false → m'.pc = m.pc + 1 → m'.halted = m.halted → Returns halting size m m'
  | halts {v : Int} : halting = true → m.bp = 0 → m'.bp = 0 → m'.pc = m.pc + 1 →
      m.stack.back? = some v → m'.stack[0]? = some v → Returns halting size m m'
  | leaves : 0 ≤ m'.pc → m'.pc ≤ size → m'.halted = m.halted → Returns halting size m m'

theorem returnFrame_ends (m : Machine) :
    Ends returnFrame m (fun _ m' => m'.pc = m.pc ∧ m'.argc = m.argc ∧ m'.halted = m.halted)
      (Balks m) := by
  refine .bind (.pop ⟨trivial, rfl, rfl, rfl⟩) ?_
  rintro v m₁ rfl
  refine .bind .get ?_
  rintro _ _ ⟨rfl, rfl⟩
  refine .bind (.write fun e he => ⟨he, rfl, rfl, rfl⟩) ?_
  rintro _ _ ⟨st, -, rfl⟩
  refine .bind .get ?_
  rintro _ _ ⟨rfl, rfl⟩
  refine .bind (.read ⟨trivial, rfl, rfl, rfl⟩) ?_
  rintro target _ rfl
  refine .bind .get ?_
  rintro _ _ ⟨rfl, rfl⟩
  refine .bind (.read ⟨trivial, rfl, rfl, rfl⟩) ?_
  rintro bp _ rfl
  refine .bind .update ?_
  rintro _ _ rfl
  refine .bind (.truncate ⟨trivial, rfl, rfl, rfl⟩) ?_
  rintro _ _ ⟨st', rfl⟩
  exact .pure ⟨rfl, rfl, rfl⟩

/-- The result of a program is the topmost value, and goes to the lowest cell. -/
theorem returnToplevel_ends (m : Machine) :
    Ends (returnToplevel halting) m
      (fun _ m' => m'.pc = m.pc ∧ m'.bp = m.bp ∧ if halting
        then ∃ v, m.stack.back? = some v ∧ m'.stack[0]? = some v
        else m'.halted = m.halted) (Balks m) := by
  cases halting with
  | false => exact .pure ⟨rfl, rfl, rfl⟩
  | true =>
    refine .bind (.pop ⟨trivial, rfl, rfl, rfl⟩) ?_
    rintro v m₁ rfl
    refine .bind (.write fun e he => ⟨he, rfl, rfl, rfl⟩) ?_
    rintro _ _ ⟨st, hst, rfl⟩
    exact ⟨rfl, rfl, v, by simp [pile], hst⟩

theorem execute_ret_ends (hret : i.opcode = .ret) (m : Machine) :
    Ends (execute halting sink size i) m (fun _ m' => Returns halting size m m') (Balks m) := by
  obtain ⟨op, n⟩ := i
  subst hret
  simp only [execute, effect, bind_assoc]
  refine .bind .get ?_
  rintro _ m ⟨rfl, rfl⟩
  by_cases hbp : m.bp = 0
  · have hframe : m.inToplevelFrame = true := decide_eq_true hbp
    simp only [hframe, if_true, bind_assoc, pure_bind]
    refine .bind (returnToplevel_ends m) ?_
    rintro _ m₁ ⟨hpc, hbp₁, hcase⟩
    refine .bind .update ?_
    rintro _ _ rfl
    cases halting with
    | false => exact .pure (.ignored rfl (congrArg (· + 1) hpc) hcase)
    | true =>
      obtain ⟨v, hback, hcell⟩ := hcase
      exact .pure (.halts rfl hbp (hbp₁.trans hbp) (congrArg (· + 1) hpc) hback hcell)
  · have hframe : m.inToplevelFrame = false := decide_eq_false hbp
    simp only [hframe, Bool.false_eq_true, if_false, bind_assoc, pure_bind]
    refine .bind (returnFrame_ends m) ?_
    rintro target m₁ ⟨hpc, hargc, hhalted⟩
    refine .bind (.jump ⟨trivial, hpc, hargc, hhalted⟩) ?_
    rintro _ _ ⟨hlow, hhigh, rfl⟩
    exact .pure (.leaves hlow hhigh hhalted)

theorem execute_error_keeps {e : Fault} {m m' : Machine}
    (h : (execute halting sink size i).run m = .error e m') :
    m'.pc = m.pc ∧ m'.argc = m.argc ∧ m'.halted = m.halted := by
  by_cases hret : i.opcode = .ret
  · exact ((execute_ret_ends hret m).error h).2
  · obtain ⟨cells, -, rfl⟩ := (execute_ends hret m).error h
    exact ⟨rfl, rfl, rfl⟩

theorem execute_error_ne_stepLimit {e : Fault} {m m' : Machine} {steps : Nat} {pc : Int}
    (h : (execute halting sink size i).run m = .error e m') : e ≠ .stepLimit steps pc := by
  by_cases hret : i.opcode = .ret
  · rintro rfl
    exact ((execute_ret_ends hret m).error h).1
  · obtain ⟨cells, hcells, -⟩ := (execute_ends hret m).error h
    exact hcells.ne_stepLimit

/-- An instruction that fails leaves `pc`, `argc` and `halted` alone. If it is no return, it leaves
`bp` alone too and has only taken cells from the top of the stack: both operands in a division by
zero, at most one cell otherwise, and none if it is one of those named or unknown. -/
theorem failed_instruction_pops {e : Fault} {m m' : Machine}
    (h : (execute halting sink size i).run m = .error e m') :
    m'.pc = m.pc ∧ m'.argc = m.argc ∧ m'.halted = m.halted ∧
      (i.opcode ≠ .ret → m'.bp = m.bp ∧ ∃ cells : List Int,
        m.stack.toList = m'.stack.toList ++ cells ∧ cells.length ≤ 2 ∧
        (cells.length = 2 ↔ ∃ op left, (op = .div ∨ op = .mod) ∧ i.opcode = .binary op ∧
          cells = [0, left] ∧ e = .divisionByZero op left 0) ∧
        (i.opcode ∈ [.push, .jmp, .loadl, .loada, .ldpc] ∨ (∃ s, i.opcode = .unknown s) →
          cells = [])) := by
  obtain ⟨hpc, hargc, hhalted⟩ := execute_error_keeps h
  refine ⟨hpc, hargc, hhalted, fun hret => ?_⟩
  obtain ⟨cells, hcells, rfl⟩ := (execute_ends hret m).error h
  refine ⟨rfl, cells, by simp [pile], hcells.length_le, hcells.length_eq_two_iff, fun hop => ?_⟩
  apply hcells.eq_nil
  rcases hop with hop | ⟨s, hs⟩
  · simp only [List.mem_cons, List.not_mem_nil, or_false] at hop
    rcases hop with hop | hop | hop | hop | hop
    all_goals rw [hop]; rfl
  · rw [hs]
    rfl

/-- A remainder by zero in a halted machine whose registers mean nothing. -/
theorem failed_instruction_pops_modulo :
    (execute true Sink.silent 100 ⟨.binary .mod, 9⟩).run ⟨#[7, 0, 5], -3, -2, 4, true⟩ =
        .error (.divisionByZero .mod 5 0) ⟨#[7], -3, -2, 4, true⟩ ∧
      ∃ cells : List Int, [7, 0, 5] = [7] ++ cells ∧ cells.length = 2 := by
  have h : (execute true Sink.silent 100 ⟨.binary .mod, 9⟩).run ⟨#[7, 0, 5], -3, -2, 4, true⟩ =
      .error (.divisionByZero .mod 5 0) ⟨#[7], -3, -2, 4, true⟩ := rfl
  obtain ⟨-, -, -, hpops⟩ := failed_instruction_pops h
  obtain ⟨-, cells, hcells, -, htwo, -⟩ := hpops (by rintro ⟨⟩)
  have hboth : cells = [0, 5] := by simpa using hcells.symm
  exact ⟨h, cells, hcells, htwo.mpr ⟨.mod, 5, .inr rfl, rfl, hboth, rfl⟩⟩

end Machine

end StackLang
