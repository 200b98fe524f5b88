import StackLang.Proofs.Effects
import StackLang.Proofs.Instructions
import StackLang.Proofs.Sequencing

namespace StackLang.Machine

section Outcomes

variable {halting : Bool} {sink : Sink} {size pc : Nat} {i : Instruction} {m m' : Machine}
  {bp argc : Int} {st : List Int} {o : Option (Int × String)}

theorem execute_pc (hret : i.opcode ≠ .ret) (hstrpc : i.opcode ≠ .strpc)
    (h : (execute halting sink size i).run m = .ok o m') :
    m'.pc = m.pc + 1 ∧ i.opcode ≠ .jmp ∨
      (i.opcode = .jmp ∨ i.opcode = .beq0) ∧ m'.pc = i.operand := by
  cases (execute_ends hret m).ok h with
  | next hjmp hpc => exact .inl ⟨hpc, hjmp⟩
  | jump hi =>
    rcases hi with hi | hi
    · exact absurd hi hstrpc
    · exact .inr hi

theorem run_load_ok {index : Int} {e : Effect}
    (h : EStateM.run (do
      let v ← read index
      push v
      return {}) (running pc bp argc st) = .ok e m') :
    e = {} ∧ ∃ v, m' = running pc bp argc (st ++ [v]) := by
  obtain ⟨v, m₁, hread, h⟩ := run_bind_eq_ok.mp h
  simp only [EStateM.run, read] at hread
  split at hread
  next =>
    cases hread
    rw [run_bind_of_ok (run_push_running v)] at h
    cases h
    exact ⟨rfl, v, rfl⟩
  next => cases hread

/-- A variable that can be read at all has its value on top afterwards. -/
theorem execute_load_ok {slot : Int} (hi : i = ⟨.loadl, slot⟩ ∨ i = ⟨.loada, slot⟩)
    (h : (execute halting sink size i).run (running pc bp argc st) = .ok o m') :
    ∃ v, m' = running (pc + 1) bp argc (st ++ [v]) := by
  obtain ⟨e, m₁, heffect, h⟩ := run_bind_eq_ok.mp h
  have hload : e = {} ∧ ∃ v, m₁ = running pc bp argc (st ++ [v]) := by
    rcases hi with rfl | rfl
    · exact run_load_ok heffect
    · exact run_load_ok heffect
  obtain ⟨rfl, v, rfl⟩ := hload
  cases h
  exact ⟨v, rfl⟩

theorem execute_binary_ok {op : Operator} {a b : Int}
    (h : (execute halting sink size ⟨.binary op, 0⟩).run
      (running pc bp argc (st ++ [b] ++ [a])) = .ok o m') :
    ∃ v, m' = running (pc + 1) bp argc (st ++ [v]) := by
  cases hv : op.eval? a b with
  | some v =>
    rw [execute_binary halting sink size hv] at h
    cases h
    exact ⟨v, rfl⟩
  | none =>
    simp only [execute, effect, operate, EStateM.run_bind, run_pop_running, hv] at h
    cases h

theorem run_write_ok {index : Nat} {v : Int} {u : Unit}
    (h : (write index v).run (running pc bp argc st) = .ok u m') :
    m' = running pc bp argc (written st index v) := by
  by_cases hgrowth : index - st.length + 1 ≤ maxGrowth
  · rw [run_write_running v hgrowth] at h
    cases h
    rfl
  · have hlength : ¬ index < st.length := by
      intro hlt
      have hone : 1 ≤ maxGrowth := by decide
      omega
    have hindex : ¬ (index : Int) < 0 := by omega
    simp only [EStateM.run, write, running, Int.toNat_natCast, List.size_toArray, if_neg hindex,
      if_neg hlength, if_pos (Nat.lt_of_not_le hgrowth)] at h
    cases h

theorem execute_storel_ok {b slot : Nat} {v : Int}
    (h : (execute halting sink size ⟨.storel, slot⟩).run (running pc b argc (st ++ [v])) =
      .ok o m') : m' = running (pc + 1) b argc (written st (b + slot + 1) v) := by
  have hi : (running pc b argc (st ++ [v])).localIndex slot = ((b + slot + 1 : Nat) : Int) := by
    simp [running, localIndex]
  obtain ⟨e, m₁, heffect, h⟩ := run_bind_eq_ok.mp h
  obtain ⟨m, _, hget, heffect⟩ := run_bind_eq_ok.mp heffect
  cases hget
  rw [hi, run_bind_of_ok (run_pop_running v)] at heffect
  obtain ⟨u, m₂, hwrite, heffect⟩ := run_bind_eq_ok.mp heffect
  cases run_write_ok hwrite
  cases heffect
  cases h
  rfl

end Outcomes

end StackLang.Machine
