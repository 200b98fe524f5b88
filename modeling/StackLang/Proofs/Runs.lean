import StackLang.Proofs.Moves
import StackLang.Proofs.Rounds

namespace StackLang.Session

variable {s : Session} {n : Nat} {m m' : Machine} {r : Run}

/-- The run has come to the machine `m` in `n` further steps, and nothing was printed or written. -/
structure Run.Reaches (r : Run) (n : Nat) (m : Machine) (r' : Run) : Prop where
  machine : r'.machine = m
  steps : r'.steps = r.steps + n
  printed : r'.printed = r.printed
  out : r'.out = r.out

theorem loop_step (hv : s.config.verbose = false) (h : s.Step r.machine m)
    (hl : s.Allows (r.steps + 1)) :
    ∃ r', Run.Reaches r 1 m r' ∧ ∀ budget, s.loop (budget + 1) r = s.loop budget r' := by
  obtain ⟨i, hfetch, hexecute⟩ := h
  obtain ⟨out, hout, hstep⟩ := step_of_shows hl (shows_of_quiet (i := i) hv)
  simp only [EStateM.run, perform] at hexecute hstep
  rw [hexecute] at hstep
  obtain ⟨r', hr', hreaches⟩ : ∃ r', (s.step i).run r = .ok () r' ∧ Run.Reaches r 1 m r' :=
    ⟨_, hstep, rfl, rfl, rfl, hout hv⟩
  refine ⟨r', hreaches, fun budget => ?_⟩
  simp only [loop_succ, hfetch, hr']

theorem loop_moves (hv : s.config.verbose = false) (h : s.Moves n m m') (hm : r.machine = m)
    (hl : s.Allows (r.steps + n)) :
    ∃ r', Run.Reaches r n m' r' ∧ ∀ budget, s.loop (budget + n) r = s.loop budget r' := by
  induction h generalizing r with
  | refl m => exact ⟨r, ⟨hm, rfl, rfl, rfl⟩, fun _ => rfl⟩
  | @step n m m₁ m₂ hs _ ih =>
    subst hm
    have hone : s.Allows (r.steps + 1) := by
      intro limit hlimit
      have := hl limit hlimit
      omega
    obtain ⟨r₁, hr₁, hloop₁⟩ := loop_step hv hs hone
    have hrest : s.Allows (r₁.steps + n) := by
      rw [hr₁.steps, Nat.add_right_comm]
      exact hl
    obtain ⟨r₂, hr₂, hloop₂⟩ := ih hr₁.machine hrest
    refine ⟨r₂, ⟨hr₂.machine, ?_, hr₂.printed.trans hr₁.printed, hr₂.out.trans hr₁.out⟩, ?_⟩
    · rw [hr₂.steps, hr₁.steps]
      omega
    · intro budget
      rw [← Nat.add_assoc, hloop₁, hloop₂]

theorem run_of_halts (hv : s.config.verbose = false) (h : s.Moves n {} m)
    (hhalt : m.halted = true) (hl : s.Allows n) :
    ∃ r, Run.Reaches {} n m r ∧ ∀ budget, n < budget → s.run budget = some (.ok () r) := by
  obtain ⟨r, hr, hloop⟩ := loop_moves hv h (r := {}) rfl (by simpa using hl)
  refine ⟨r, hr, fun budget hbudget => ?_⟩
  obtain ⟨k, rfl⟩ : ∃ k, budget = k + 1 + n := ⟨budget - n - 1, by omega⟩
  have hfetch : s.fetch? r.machine = none := by simp [fetch?, hr.machine, hhalt]
  have hend : s.loop (k + 1) r = some (.ok () r) := by simp only [loop_succ, hfetch]
  simp [run_eq, hloop, hend, close, hv]

/-- A run that could go on beyond its limit is stopped there. -/
theorem run_of_limit (hv : s.config.verbose = false) {limit : Int}
    (hlimit : s.config.maxSteps = some limit) (h : s.Moves limit.toNat {} m)
    {i : Instruction} (hi : s.fetch? m = some i) :
    ∃ r, Run.Reaches {} limit.toNat m r ∧ ∀ budget, limit.toNat < budget →
      s.run budget = some (.error (.stepLimit limit.toNat m.pc) r) := by
  have hl : s.Allows limit.toNat := by
    intro limit' h'
    rw [hlimit] at h'
    cases h'
    exact Nat.le_refl _
  obtain ⟨r, hr, hloop⟩ := loop_moves hv h (r := {}) rfl (by simpa using hl)
  refine ⟨r, hr, fun budget hbudget => ?_⟩
  obtain ⟨k, rfl⟩ : ∃ k, budget = k + 1 + limit.toNat := ⟨budget - limit.toNat - 1, by omega⟩
  have hsteps : r.steps = limit.toNat := by simpa using hr.steps
  have hcut : (s.step i).run r = .error (.stepLimit limit.toNat m.pc) r := by
    rw [← hsteps, ← hr.machine]
    refine step_of_not_allows fun h => ?_
    have := h limit hlimit
    omega
  have hend : s.loop (k + 1) r = some (.error (.stepLimit limit.toNat m.pc) r) := by
    simp only [loop_succ, hr.machine, hi, hcut]
  simp [run_eq, hloop, hend]

end StackLang.Session
