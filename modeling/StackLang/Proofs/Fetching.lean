import StackLang.Proofs.Effects
import StackLang.Proofs.Rounds

namespace StackLang

namespace Machine

variable {halting : Bool} {sink : Sink} {size : Int} {i : Instruction} {m m' : Machine}
  {o : Option (Int × String)}

theorem execute_within (hlow : 0 ≤ m.pc) (hhigh : m.pc < size)
    (h : (execute halting sink size i).run m = .ok o m') : 0 ≤ m'.pc ∧ m'.pc ≤ size := by
  by_cases hret : i.opcode = .ret
  · cases (execute_ret_ends hret m).ok h with
    | ignored _ hpc => omega
    | halts _ _ _ hpc => omega
    | leaves hlow' hhigh' => exact ⟨hlow', hhigh'⟩
  · cases (execute_ends hret m).ok h with
    | next _ hpc => omega
    | jump _ hlow' hhigh' => exact ⟨hlow', hhigh'⟩

theorem execute_halts (hrunning : m.halted = false) (hhalted : m'.halted = true)
    (h : (execute halting sink size i).run m = .ok o m') :
    i.opcode = .ret ∧ halting = true ∧ m'.bp = 0 ∧ m'.pc = m.pc + 1 ∧
      ∃ v, m.stack.back? = some v ∧ m'.stack[0]? = some v := by
  by_cases hret : i.opcode = .ret
  · cases (execute_ret_ends hret m).ok h with
    | ignored _ _ hsame =>
      rw [hhalted, hrunning] at hsame
      cases hsame
    | @halts v hhalting _ hbp hpc hback hcell =>
      exact ⟨hret, hhalting, hbp, hpc, v, hback, hcell⟩
    | leaves _ _ hsame =>
      rw [hhalted, hrunning] at hsame
      cases hsame
  · have hsame : m'.halted = m.halted := by
      cases (execute_ends hret m).ok h with
      | next _ _ hsame => exact hsame
      | jump _ _ _ hsame => exact hsame
    rw [hhalted, hrunning] at hsame
    cases hsame

end Machine

namespace Session

variable {s : Session} {listener : Listener} {n : Nat} {r : Run}

/-- The machine `m'` was halted by the return at the address of `m`, whose topmost value is now in
the lowest cell. -/
structure HaltedBy (s : Session) (m m' : Machine) : Prop where
  halting : s.config.haltOnReturn = true
  base : m'.bp = 0
  address : m.pc = m'.pc - 1
  instruction : ∃ i, s.program[(m'.pc - 1).toNat]? = some i ∧ i.opcode = .ret
  result : ∃ v, m.stack.back? = some v ∧ m'.stack[0]? = some v

theorem Visits.within (h : s.Visits listener n r) :
    0 ≤ r.machine.pc ∧ r.machine.pc ≤ s.program.size := by
  induction h with
  | start => exact ⟨Int.le_refl 0, Int.natCast_nonneg _⟩
  | next _ hfetch hstep =>
    obtain ⟨-, hlow, hget⟩ := fetch?_eq_some_iff.mp hfetch
    obtain ⟨hsize, -⟩ := Array.getElem?_eq_some_iff.mp hget
    obtain ⟨o, hrun, -⟩ := (round_of_step hstep).executes
    exact Machine.execute_within hlow (by omega) hrun

theorem Visits.haltedBy (h : s.Visits listener n r) (hhalted : r.machine.halted = true) :
    ∃ k r₀, n = k + 1 ∧ s.Visits listener k r₀ ∧ s.HaltedBy r₀.machine r.machine := by
  cases h with
  | start => cases hhalted
  | @next k i r₀ _ hvisits hfetch hstep =>
    obtain ⟨hrunning, -, hget⟩ := fetch?_eq_some_iff.mp hfetch
    obtain ⟨o, hrun, -⟩ := (round_of_step hstep).executes
    obtain ⟨hret, hhalting, hbp, hpc, hresult⟩ := Machine.execute_halts hrunning hhalted hrun
    have haddress : r₀.machine.pc = r.machine.pc - 1 := by omega
    exact ⟨k, r₀, rfl, hvisits, hhalting, hbp, haddress, ⟨i, haddress ▸ hget, hret⟩, hresult⟩

/-- At any point the loop goes on exactly if control is in the program and the machine has not
halted. -/
theorem Visits.fetches_iff (h : s.Visits listener n r) :
    (∃ i, s.fetch? r.machine = some i) ↔
      r.machine.pc < s.program.size ∧ r.machine.halted = false := by
  have hlow := h.within.1
  constructor
  · rintro ⟨i, hfetch⟩
    obtain ⟨hrunning, -, hget⟩ := fetch?_eq_some_iff.mp hfetch
    obtain ⟨hsize, -⟩ := Array.getElem?_eq_some_iff.mp hget
    exact ⟨by omega, hrunning⟩
  · rintro ⟨hhigh, hrunning⟩
    have hsize : r.machine.pc.toNat < s.program.size := by omega
    exact ⟨_, fetch?_eq_some_iff.mpr ⟨hrunning, hlow, Array.getElem?_eq_getElem hsize⟩⟩

theorem Stop.keeps {i : Instruction} {e : Fault} {r r' : Run} (h : s.Stop i r e r') :
    r'.machine.pc = r.machine.pc ∧ r'.machine.halted = r.machine.halted := by
  cases h with
  | limit => exact ⟨rfl, rfl⟩
  | unshown => exact ⟨rfl, rfl⟩
  | instruction _ _ hrun =>
    obtain ⟨hpc, -, hhalted⟩ := Machine.execute_error_keeps hrun
    exact ⟨hpc, hhalted⟩

/-- Control is always in the program or right behind it. So the loop finds an instruction whenever
it looks for one; a run that does not fail ends behind the program or has halted; and it has halted
only by the return that it has just executed at the top level, with the result in the lowest
cell. -/
theorem fetch_in_range (s : Session) (listener : Listener) :
    (∀ n r, s.Visits listener n r →
      (0 ≤ r.machine.pc ∧ r.machine.pc ≤ s.program.size) ∧
      ((∃ i, s.fetch? r.machine = some i) ↔
        r.machine.pc < s.program.size ∧ r.machine.halted = false) ∧
      (∀ i, s.fetch? r.machine = some i → s.program[r.machine.pc.toNat]? = some i) ∧
      (r.machine.halted = true → ∃ k r₀, n = k + 1 ∧ s.Visits listener k r₀ ∧
        s.HaltedBy r₀.machine r.machine)) ∧
    (∀ budget r, s.runWith listener budget = some (.ok () r) →
      (∃ n r₁, s.Visits listener n r₁ ∧ r₁.machine = r.machine) ∧
      (r.machine.pc = s.program.size ∨ r.machine.halted = true)) ∧
    (∀ budget e r, s.runWith listener budget = some (.error e r) →
      0 ≤ r.machine.pc ∧ r.machine.pc < s.program.size ∧ r.machine.halted = false) := by
  refine ⟨fun n r hvisits => ⟨hvisits.within, hvisits.fetches_iff, fun i hfetch => ?_,
    hvisits.haltedBy⟩, fun budget r h => ?_, fun budget e r h => ?_⟩
  · exact (fetch?_eq_some_iff.mp hfetch).2.2
  · obtain ⟨n, r₁, out, hvisits, hnone, rfl⟩ := runWith_ok h
    refine ⟨⟨n, r₁, hvisits, rfl⟩, ?_⟩
    have hstop : ¬ (r₁.machine.pc < s.program.size ∧ r₁.machine.halted = false) := by
      rw [← hvisits.fetches_iff, hnone]
      rintro ⟨i, ⟨⟩⟩
    cases hhalted : r₁.machine.halted with
    | true => exact .inr rfl
    | false =>
      have hend : ¬ r₁.machine.pc < s.program.size := fun hlt => hstop ⟨hlt, hhalted⟩
      exact .inl (Int.le_antisymm hvisits.within.2 (Int.not_lt.mp hend))
  · obtain ⟨n, r₁, i, hvisits, hfetch, hstep⟩ := runWith_error h
    obtain ⟨hpc, hhalted⟩ := (stop_of_step hstep).keeps
    obtain ⟨hhigh, hrunning⟩ := hvisits.fetches_iff.mp ⟨i, hfetch⟩
    rw [hpc, hhalted]
    exact ⟨hvisits.within.1, hhigh, hrunning⟩

/-- A program that jumps to an address it has computed and returns there, and one whose jump would
leave the program. -/
theorem fetch_in_range_computed_jump :
    let s : Session :=
      { program := #[⟨.ldpc, 4⟩, ⟨.strpc, 0⟩, ⟨.jmp, 9⟩, ⟨.print, 0⟩, ⟨.push, 5⟩, ⟨.ret, 0⟩] }
    let t : Session := { program := #[⟨.push, -1⟩, ⟨.strpc, 0⟩] }
    (∃ r, s.Visits (fun _ => Sink.lines) 4 r ∧ r.machine.halted = true ∧
      ∃ k r₀, 4 = k + 1 ∧ s.Visits (fun _ => Sink.lines) k r₀ ∧
        s.HaltedBy r₀.machine r.machine) ∧
    (∃ r, s.runWith (fun _ => Sink.lines) 5 = some (.ok () r) ∧
      (r.machine.pc = s.program.size ∨ r.machine.halted = true)) ∧
    ∃ r, t.runWith (fun _ => Sink.lines) 2 = some (.error (.jumpRange .strpc (-1) 1 2) r) ∧
      0 ≤ r.machine.pc ∧ r.machine.pc < t.program.size := by
  intro s t
  have hvisits : s.Visits (fun _ => Sink.lines) 4 _ :=
    .next (.next (.next (.next .start rfl rfl) rfl rfl) rfl rfl) rfl rfl
  have hends : s.runWith (fun _ => Sink.lines) 5 = some (.ok () _) := rfl
  have hfails : t.runWith (fun _ => Sink.lines) 2 = some (.error _ _) := rfl
  obtain ⟨-, -, -, hhalted⟩ := (fetch_in_range s (fun _ => Sink.lines)).1 4 _ hvisits
  obtain ⟨-, hend⟩ := (fetch_in_range s (fun _ => Sink.lines)).2.1 5 _ hends
  obtain ⟨hlow, hhigh, -⟩ := (fetch_in_range t (fun _ => Sink.lines)).2.2 2 _ _ hfails
  exact ⟨⟨_, hvisits, rfl, hhalted rfl⟩, ⟨_, hends, hend⟩, ⟨_, hfails, hlow, hhigh⟩⟩

end Session

end StackLang
