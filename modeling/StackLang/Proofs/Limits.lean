import StackLang.Proofs.Fetching
import StackLang.Proofs.Numerals
import Mathlib.Data.ENat.Basic

namespace StackLang.Session

variable {s : Session} {listener : Listener} {a : ℕ∞} {n : Nat} {limit : Int}

/-- The number of instructions that the run attempts, one that fails included. -/
inductive Attempts (s : Session) (listener : Listener) : ℕ∞ → Prop where
  | ended {budget : Nat} {r : Run} : s.runWith listener budget = some (.ok () r) →
      Attempts s listener r.steps
  | failed {budget : Nat} {e : Fault} {r : Run} :
      s.runWith listener budget = some (.error e r) → Attempts s listener (r.steps + 1)
  | endless : (∀ budget, s.runWith listener budget = none) → Attempts s listener ⊤

theorem exists_attempts (s : Session) (listener : Listener) : ∃ a, s.Attempts listener a := by
  by_cases h : ∀ budget, s.runWith listener budget = none
  · exact ⟨⊤, .endless h⟩
  · obtain ⟨budget, hbudget⟩ := not_forall.mp h
    obtain ⟨result, hresult⟩ := Option.ne_none_iff_exists'.mp hbudget
    cases result with
    | ok u r => exact ⟨_, .ended hresult⟩
    | error e r => exact ⟨_, .failed hresult⟩

theorem Stop.steps {i : Instruction} {e : Fault} {r r' : Run} (h : s.Stop i r e r') :
    r'.steps = r.steps := by
  cases h with
  | limit => rfl
  | unshown => rfl
  | instruction _ _ _ hsteps => exact hsteps

theorem Attempts.lt_iff (h : s.Attempts listener a) (n : Nat) :
    n < a ↔ ∃ r i, s.Visits listener n r ∧ s.fetch? r.machine = some i := by
  cases h with
  | @ended budget r hrun =>
    obtain ⟨k, r₁, out, hvisits, hnone, rfl⟩ := runWith_ok hrun
    have hsteps : r₁.steps = k := hvisits.steps
    simp only [hsteps, Nat.cast_lt]
    constructor
    · intro hlt
      obtain ⟨r₀, i, -, h₀, hfetch, -⟩ := hvisits.before hlt
      exact ⟨r₀, i, h₀, hfetch⟩
    · rintro ⟨r', i, hvisits', hfetch⟩
      have hle : n ≤ k := hvisits.le_of_last (by simp [hnone]) hvisits'
      refine Nat.lt_of_le_of_ne hle ?_
      rintro rfl
      rw [← hvisits.unique hvisits', hnone] at hfetch
      cases hfetch
  | @failed budget e r hrun =>
    obtain ⟨k, r₁, i, hvisits, hfetch, hstep⟩ := runWith_error hrun
    have hsteps : r.steps = k := (stop_of_step hstep).steps.trans hvisits.steps
    simp only [hsteps, ← Nat.cast_succ, Nat.cast_lt]
    constructor
    · intro hlt
      by_cases hn : n < k
      · obtain ⟨r₀, j, -, h₀, hfetch₀, -⟩ := hvisits.before hn
        exact ⟨r₀, j, h₀, hfetch₀⟩
      · cases show n = k by omega
        exact ⟨r₁, i, hvisits, hfetch⟩
    · rintro ⟨r', j, hvisits', -⟩
      refine Nat.lt_succ_of_le (hvisits.le_of_last ?_ hvisits')
      intro j r₂ hj
      rw [hfetch] at hj
      cases hj
      simp [hstep]
  | endless hnone =>
    simp only [ENat.natCast_lt_top, true_iff]
    obtain ⟨r, hvisits⟩ := visits_of_unfinished (hnone (n + 1))
    obtain ⟨r₀, i, -, h₀, hfetch, -⟩ := hvisits.before (Nat.lt_succ_self n)
    exact ⟨r₀, i, h₀, hfetch⟩

def withLimit (s : Session) (limit : Int) : Session :=
  { s with config := { s.config with maxSteps := some limit } }

theorem allows_withLimit : (s.withLimit limit).Allows n ↔ n ≤ limit.toNat := by
  constructor
  · intro h
    exact h limit rfl
  · rintro h _ ⟨⟩
    exact h

theorem allows_of_unlimited (h : s.config.maxSteps = none) (n : Nat) : s.Allows n := by
  intro limit hlimit
  rw [h] at hlimit
  cases hlimit

theorem step_withLimit {i : Instruction} {r : Run} (hquiet : s.config.verbose = false)
    (hs : s.Allows (r.steps + 1)) (hlimit : r.steps + 1 ≤ limit.toNat) :
    ((s.withLimit limit).step i).run r = (s.step i).run r := by
  obtain ⟨out, hout, hstep⟩ := step_of_shows (i := i) hs (shows_of_quiet hquiet)
  obtain ⟨out', hout', hstep'⟩ := step_of_shows (s := s.withLimit limit) (i := i)
    (allows_withLimit.mpr hlimit) (shows_of_quiet hquiet)
  have hperform : (s.withLimit limit).perform i = s.perform i := rfl
  rw [hstep, hstep', hout hquiet, hout' hquiet, hperform]
  rfl

theorem Visits.withLimit {r : Run} (hquiet : s.config.verbose = false)
    (h : s.Visits listener n r) (hn : n ≤ limit.toNat) :
    (s.withLimit limit).Visits listener n r := by
  induction h with
  | start => exact .start
  | @next n i r r' hvisits hfetch hstep ih =>
    refine .next (ih (by omega)) hfetch ?_
    have hsteps := hvisits.steps
    rw [← hstep]
    exact step_withLimit (s := s.withSink (listener r.printed)) hquiet
      (round_of_step hstep).allows (by omega)

theorem Visits.cut {r : Run} {i : Instruction} (hquiet : s.config.verbose = false)
    (h : s.Visits listener limit.toNat r) (hfetch : s.fetch? r.machine = some i) {budget : Nat}
    (hbudget : limit.toNat < budget) :
    (s.withLimit limit).runWith listener budget =
      some (.error (.stepLimit limit.toNat r.machine.pc) r) := by
  refine (h.withLimit hquiet (Nat.le_refl _)).runWith_eq hfetch ?_ hbudget
  have hsteps := h.steps
  rw [← hsteps]
  refine step_of_not_allows fun hallows => ?_
  have hle := allows_withLimit.mp hallows
  omega

theorem Attempts.outcome_eq (h : s.Attempts listener a) (hunlimited : s.config.maxSteps = none)
    (hquiet : s.config.verbose = false) (hlimit : a ≤ limit.toNat) (budget : Nat) :
    ((s.withLimit limit).runWith listener budget).map outcome =
      (s.runWith listener budget).map outcome := by
  rw [outcome_runWith, outcome_runWith]
  congr 1
  refine (loop_bare (s := s) (t := s.withLimit limit) rfl ?_ .start rfl budget).symm
  intro n r r' i hvisits hbare hfetch
  have hn : n < limit.toNat := by
    have hlt := (h.lt_iff n).mpr ⟨r, i, hvisits, hfetch⟩
    exact_mod_cast hlt.trans_le hlimit
  have hsteps := hvisits.steps
  have hallows : s.Allows (r.steps + 1) ↔ (s.withLimit limit).Allows (r.steps + 1) :=
    iff_of_true (allows_of_unlimited hunlimited _) (allows_withLimit.mpr (by omega))
  exact step_bare (s := s) (t := s.withLimit limit) rfl rfl hallows
    (fun _ => shows_of_quiet hquiet) (fun _ => shows_of_quiet hquiet) hbare _

/-- The run is stopped by its limit, and the message that says so can be written. -/
def IsCut (s : Session) (listener : Listener) : Prop :=
  ∃ budget steps pc r text,
    s.runWith listener budget = some (.error (.stepLimit steps pc) r) ∧
      (Fault.stepLimit steps pc).message = .ok text

theorem runWith_ne_stepLimit (hunlimited : s.config.maxSteps = none)
    {budget : Nat} {steps : Nat} {pc : Int} {r : Run} :
    s.runWith listener budget ≠ some (.error (.stepLimit steps pc) r) := by
  intro hrun
  obtain ⟨k, r₁, i, -, -, hstep⟩ := runWith_error hrun
  cases stop_of_step hstep with
  | limit hallows => exact hallows (allows_of_unlimited hunlimited _)
  | instruction _ _ hexecute => exact Machine.execute_error_ne_stepLimit hexecute rfl

/-- The message of a limit can be written as long as the addresses of the program can. -/
theorem stepLimit_message {r : Run} (h : s.Visits listener n r) (hn : n < 10 ^ maxDigits)
    (hsize : s.program.size < 10 ^ maxDigits) :
    ∃ text, (Fault.stepLimit n r.machine.pc).message = .ok text := by
  obtain ⟨hlow, hhigh⟩ := h.within
  have hsteps : Numeral.Writable n := Numeral.writable_iff.mpr hn
  have hpc : Numeral.Writable r.machine.pc :=
    Numeral.writable_iff.mpr (Nat.lt_of_le_of_lt (by omega) hsize)
  simp only [Fault.message, Numeral.write, if_pos hsteps, if_pos hpc]
  exact ⟨_, rfl⟩

theorem Attempts.isCut_iff (h : s.Attempts listener a) (hunlimited : s.config.maxSteps = none)
    (hquiet : s.config.verbose = false) (hlimit : limit.toNat < 10 ^ maxDigits)
    (hsize : s.program.size < 10 ^ maxDigits) :
    (s.withLimit limit).IsCut listener ↔ limit.toNat < a := by
  constructor
  · rintro ⟨budget, steps, pc, r, -, hrun, -⟩
    by_contra hge
    have houtcome := h.outcome_eq hunlimited hquiet (not_lt.mp hge) budget
    rw [hrun] at houtcome
    obtain ⟨result, hresult, heq⟩ := Option.map_eq_some_iff.mp houtcome.symm
    cases result with
    | ok u r' => cases heq
    | error e r' =>
      cases (Prod.mk.inj heq).1
      exact runWith_ne_stepLimit hunlimited hresult
  · intro hlt
    obtain ⟨r, i, hvisits, hfetch⟩ := (h.lt_iff _).mp hlt
    obtain ⟨text, htext⟩ := stepLimit_message hvisits hlimit hsize
    exact ⟨_, _, _, r, text, hvisits.cut hquiet hfetch (Nat.lt_succ_self _), htext⟩

/-- A limit cuts a run short exactly if more instructions would be attempted than it allows, and
then it does so behind the last allowed one; otherwise the outcome is that of the unlimited run. So
any two limits that do not cut the run give the same outcome. -/
theorem limit_cuts_at_boundary (s : Session) (listener : Listener)
    (hunlimited : s.config.maxSteps = none) (hquiet : s.config.verbose = false)
    (hsize : s.program.size < 10 ^ maxDigits) :
    (∃ a, s.Attempts listener a) ∧
    (∀ a, s.Attempts listener a → ∀ limit : Int, limit.toNat < 10 ^ maxDigits →
      ((s.withLimit limit).IsCut listener ↔ limit.toNat < a) ∧
      (limit.toNat < a → ∃ r, r.steps = limit.toNat ∧
        s.Executes listener limit.toNat r.machine r.printed ∧
        ∀ budget, limit.toNat < budget → (s.withLimit limit).runWith listener budget =
          some (.error (.stepLimit limit.toNat r.machine.pc) r)) ∧
      (¬ limit.toNat < a → ∀ budget, ((s.withLimit limit).runWith listener budget).map outcome =
        (s.runWith listener budget).map outcome)) ∧
    ∀ limit limit' : Int, limit.toNat < 10 ^ maxDigits → limit'.toNat < 10 ^ maxDigits →
      ¬ (s.withLimit limit).IsCut listener → ¬ (s.withLimit limit').IsCut listener →
      ∀ budget, ((s.withLimit limit).runWith listener budget).map outcome =
        ((s.withLimit limit').runWith listener budget).map outcome := by
  refine ⟨s.exists_attempts listener, fun a ha limit hlimit => ⟨?_, ?_, ?_⟩, ?_⟩
  · exact ha.isCut_iff hunlimited hquiet hlimit hsize
  · intro hlt
    obtain ⟨r, i, hvisits, hfetch⟩ := (ha.lt_iff _).mp hlt
    exact ⟨r, hvisits.steps, hvisits.executes, fun budget => hvisits.cut hquiet hfetch⟩
  · intro hge
    exact ha.outcome_eq hunlimited hquiet (not_lt.mp hge)
  · intro limit limit' hlimit hlimit' huncut huncut' budget
    obtain ⟨a, ha⟩ := s.exists_attempts listener
    rw [ha.isCut_iff hunlimited hquiet hlimit hsize, not_lt] at huncut
    rw [ha.isCut_iff hunlimited hquiet hlimit' hsize, not_lt] at huncut'
    rw [ha.outcome_eq hunlimited hquiet huncut, ha.outcome_eq hunlimited hquiet huncut']

/-- A loop that prints until its third value is refused, which is the eighth instruction. -/
theorem limit_cuts_at_boundary_refusal :
    let s : Session :=
      { program := #[⟨.push, 7⟩, ⟨.print, 0⟩, ⟨.jmp, 0⟩], config := { maxSteps := none } }
    let listener : Listener := fun printed _ =>
      if printed.size < 2 then .ok "" else .error .tooManyDigits
    s.Attempts listener 8 ∧ (s.withLimit 7).IsCut listener ∧ ¬ (s.withLimit 8).IsCut listener ∧
      (∃ r, s.Executes listener 7 r.machine #[7, 7] ∧
        (s.withLimit 7).runWith listener 8 = some (.error (.stepLimit 7 r.machine.pc) r)) ∧
      ((s.withLimit 8).runWith listener 8).map outcome =
        some (.error (.unwritable .tooManyDigits), #[7, 7]) := by
  intro s listener
  have hfails : s.runWith listener 8 = some (.error (.unwritable .tooManyDigits) _) := rfl
  have hattempts : s.Attempts listener 8 := .failed hfails
  have hpower : 10 ^ 4 ≤ 10 ^ maxDigits := Nat.pow_le_pow_right (by decide) (by decide)
  obtain ⟨-, hlimits, -⟩ := limit_cuts_at_boundary s listener rfl rfl
    (Nat.lt_of_lt_of_le (by decide) hpower)
  obtain ⟨hiff, hcut, -⟩ := hlimits 8 hattempts 7 (Nat.lt_of_lt_of_le (by decide) hpower)
  obtain ⟨hiff', -, huncut⟩ := hlimits 8 hattempts 8 (Nat.lt_of_lt_of_le (by decide) hpower)
  have hlt : ((7 : Int).toNat : ℕ∞) < 8 := by decide
  have hge : ¬ ((8 : Int).toNat : ℕ∞) < 8 := by decide
  refine ⟨hattempts, hiff.mpr hlt, fun h => hge (hiff'.mp h), ?_, ?_⟩
  · obtain ⟨r, -, hexecutes, hrun⟩ := hcut hlt
    have hrun' := hrun 8 (by decide)
    have hprinted : some #[7, 7] = some r.printed :=
      congrArg (Option.map fun result => (outcome result).2) hrun'
    exact ⟨r, Option.some.inj hprinted ▸ hexecutes, hrun'⟩
  · rw [huncut hge, hfails]
    rfl

end StackLang.Session
