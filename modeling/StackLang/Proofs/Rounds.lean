import StackLang.Execution.Session
import StackLang.Proofs.Sequencing

namespace StackLang

/-- A run apart from what it has shown and kept. -/
def Run.bare (r : Run) : Run :=
  { r with out := "", snapshots := #[] }

namespace Session

section Steps

variable {s : Session} {i : Instruction} {r r' : Run} {e : Fault}

/-- The limit of the session allows so many steps. -/
def Allows (s : Session) (n : Nat) : Prop :=
  ∀ limit, s.config.maxSteps = some limit → n ≤ limit.toNat

theorem checkLimit_ok (h : s.Allows (r.steps + 1)) : s.checkLimit.run r = .ok () r := by
  simp only [EStateM.run, checkLimit]
  split
  next => rfl
  next limit hlimit =>
    have := h limit hlimit
    rw [if_neg (by omega)]

theorem checkLimit_error (h : ¬ s.Allows (r.steps + 1)) :
    s.checkLimit.run r = .error (.stepLimit r.steps r.machine.pc) r := by
  simp only [Allows, Classical.not_forall] at h
  obtain ⟨limit, hlimit, hlt⟩ := h
  simp only [EStateM.run, checkLimit, hlimit]
  rw [if_pos (by omega)]

/-- The machine can be shown before the step, if that is asked for. -/
def Shows (s : Session) (i : Instruction) (r : Run) : Prop :=
  s.config.verbose = true → ∃ text, (r.snapshot i).render = .ok text

theorem shows_of_quiet (h : s.config.verbose = false) : s.Shows i r := by
  intro hv
  rw [h] at hv
  cases hv

theorem observe_ok (h : s.Shows i r) : ∃ out, (s.config.verbose = false → out = r.out) ∧
    (s.observe i).run r = .ok () { r with
      out
      snapshots := if s.recorded then r.snapshots.push (r.snapshot i) else r.snapshots } := by
  have hkeep : ∀ out, observe.keep s i { r with out } = { r with
      out
      snapshots := if s.recorded then r.snapshots.push (r.snapshot i) else r.snapshots } := by
    intro out
    unfold observe.keep
    split
    · rfl
    · rfl
  cases hv : s.config.verbose with
  | false =>
    refine ⟨r.out, fun _ => rfl, ?_⟩
    rw [← hkeep]
    simp [EStateM.run, observe, hv]
  | true =>
    obtain ⟨text, htext⟩ := h hv
    refine ⟨r.out ++ text ++ "\n", fun h => (by cases h), ?_⟩
    rw [← hkeep]
    simp [EStateM.run, observe, hv, htext]

theorem step_of_not_allows (h : ¬ s.Allows (r.steps + 1)) :
    (s.step i).run r = .error (.stepLimit r.steps r.machine.pc) r := by
  rw [step, EStateM.run_bind, checkLimit_error h]

theorem step_of_not_shows (hallows : s.Allows (r.steps + 1)) (h : ¬ s.Shows i r) :
    ∃ cause, s.config.verbose = true ∧ (r.snapshot i).render = .error cause ∧
      (s.step i).run r = .error (.unwritable cause) r := by
  simp only [Shows, Classical.not_forall] at h
  obtain ⟨hv, hrender⟩ := h
  cases htext : (r.snapshot i).render with
  | ok text => exact absurd ⟨text, htext⟩ hrender
  | error cause =>
    have hobserve : (s.observe i).run r = .error (.unwritable cause) r := by
      simp [EStateM.run, observe, hv, htext]
    refine ⟨cause, hv, rfl, ?_⟩
    rw [step, run_bind_of_ok (checkLimit_ok hallows), EStateM.run_bind, hobserve]

theorem step_of_shows (hallows : s.Allows (r.steps + 1)) (h : s.Shows i r) :
    ∃ out, (s.config.verbose = false → out = r.out) ∧
      (s.step i).run r = (s.perform i).run { r with
        out
        snapshots := if s.recorded then r.snapshots.push (r.snapshot i) else r.snapshots } := by
  obtain ⟨out, hout, hobserve⟩ := observe_ok h
  refine ⟨out, hout, ?_⟩
  rw [step, run_bind_of_ok (checkLimit_ok hallows), run_bind_of_ok hobserve]

/-- What a step from `r` to `r'` has done. -/
structure Round (s : Session) (i : Instruction) (r r' : Run) : Prop where
  allows : s.Allows (r.steps + 1)
  shows : s.Shows i r
  executes : ∃ o, (Machine.execute s.config.haltOnReturn s.sink s.program.size i).run r.machine =
    .ok o r'.machine ∧ r'.printed = r.printed ++ (o.map Prod.fst).toArray
  steps : r'.steps = r.steps + 1
  peak : r'.peak = max r.peak r'.machine.stack.size
  snapshots : r'.snapshots = if s.recorded then r.snapshots.push (r.snapshot i) else r.snapshots

/-- How a step fails. -/
inductive Stop (s : Session) (i : Instruction) (r : Run) : Fault → Run → Prop where
  | limit : ¬ s.Allows (r.steps + 1) → Stop s i r (.stepLimit r.steps r.machine.pc) r
  | unshown {cause : Unwritable} : s.Allows (r.steps + 1) → s.config.verbose = true →
      (r.snapshot i).render = .error cause → Stop s i r (.unwritable cause) r
  | instruction {e : Fault} {r' : Run} : s.Allows (r.steps + 1) → s.Shows i r →
      (Machine.execute s.config.haltOnReturn s.sink s.program.size i).run r.machine =
        .error e r'.machine →
      r'.steps = r.steps → r'.printed = r.printed → Stop s i r e r'

theorem round_of_step (h : (s.step i).run r = .ok () r') : s.Round i r r' := by
  by_cases hallows : s.Allows (r.steps + 1)
  case neg =>
    rw [step_of_not_allows hallows] at h
    cases h
  by_cases hshows : s.Shows i r
  case neg =>
    obtain ⟨cause, -, -, hstep⟩ := step_of_not_shows hallows hshows
    rw [hstep] at h
    cases h
  obtain ⟨out, -, hstep⟩ := step_of_shows hallows hshows
  rw [hstep] at h
  simp only [EStateM.run, perform] at h
  split at h
  next => cases h
  next m hrun =>
    cases h
    exact ⟨hallows, hshows, ⟨none, hrun, by simp⟩, rfl, rfl, rfl⟩
  next v text m hrun =>
    cases h
    exact ⟨hallows, hshows, ⟨some (v, text), hrun, by simp⟩, rfl, rfl, rfl⟩

theorem stop_of_step (h : (s.step i).run r = .error e r') : s.Stop i r e r' := by
  by_cases hallows : s.Allows (r.steps + 1)
  case neg =>
    rw [step_of_not_allows hallows] at h
    cases h
    exact .limit hallows
  by_cases hshows : s.Shows i r
  case neg =>
    obtain ⟨cause, hv, hrender, hstep⟩ := step_of_not_shows hallows hshows
    rw [hstep] at h
    cases h
    exact .unshown hallows hv hrender
  obtain ⟨out, -, hstep⟩ := step_of_shows hallows hshows
  rw [hstep] at h
  simp only [EStateM.run, perform] at h
  split at h
  next hrun =>
    cases h
    exact .instruction hallows hshows hrun rfl rfl
  next => cases h
  next => cases h

end Steps

section Visits

variable {s : Session} {listener : Listener} {n : Nat} {i : Instruction} {r r' : Run} {e : Fault}

/-- The run has come to this point after so many rounds of the loop. -/
inductive Visits (s : Session) (listener : Listener) : Nat → Run → Prop where
  | start : Visits s listener 0 {}
  | next {n : Nat} {i : Instruction} {r r' : Run} : Visits s listener n r →
      s.fetch? r.machine = some i →
      ((s.withSink (listener r.printed)).step i).run r = .ok () r' → Visits s listener (n + 1) r'

namespace Visits

theorem steps (h : s.Visits listener n r) : r.steps = n := by
  induction h with
  | start => rfl
  | next _ _ hstep ih => rw [(round_of_step hstep).steps, ih]

theorem unique (h : s.Visits listener n r) (h' : s.Visits listener n r') : r = r' := by
  induction h generalizing r' with
  | start =>
    cases h' with
    | start => rfl
  | next _ hfetch hstep ih =>
    cases h' with
    | next hprevious hfetch' hstep' =>
      cases ih hprevious
      rw [hfetch] at hfetch'
      cases hfetch'
      rw [hstep] at hstep'
      cases hstep'
      rfl

/-- A run comes to every point before one that it comes to, and goes on there. -/
theorem before {k : Nat} (h : s.Visits listener n r) (hk : k < n) :
    ∃ r₀ i r₁, s.Visits listener k r₀ ∧ s.fetch? r₀.machine = some i ∧
      ((s.withSink (listener r₀.printed)).step i).run r₀ = .ok () r₁ := by
  induction h with
  | start => omega
  | @next n i r r' hvisits hfetch hstep ih =>
    by_cases hkn : k = n
    · subst hkn
      exact ⟨r, i, r', hvisits, hfetch, hstep⟩
    · exact ih (by omega)

theorem loop_eq (h : s.Visits listener n r) (budget : Nat) :
    s.loopWith listener (budget + n) {} = s.loopWith listener budget r := by
  induction h generalizing budget with
  | start => rfl
  | @next n i r r' _ hfetch hstep ih =>
    rw [show budget + (n + 1) = budget + 1 + n by omega, ih]
    simp only [loopWith, hfetch, hstep]

/-- A run does not come beyond a point where no step succeeds. -/
theorem le_of_last {k : Nat} (h : s.Visits listener k r)
    (hlast : ∀ i r₁, s.fetch? r.machine = some i →
      ((s.withSink (listener r.printed)).step i).run r ≠ .ok () r₁)
    (h' : s.Visits listener n r') : n ≤ k := by
  refine Nat.le_of_not_lt fun hlt => ?_
  obtain ⟨r₀, i, r₁, hvisits, hfetch, hstep⟩ := h'.before hlt
  cases h.unique hvisits
  exact hlast i r₁ hfetch hstep

end Visits

/-- Within its budget the loop comes to a point where the run ends, to a step that fails, or to no
end. -/
inductive Course (s : Session) (listener : Listener) (budget : Nat) :
    Option (EStateM.Result Fault Run Unit) → Prop where
  | ended {n : Nat} {r : Run} : n < budget → s.Visits listener n r → s.fetch? r.machine = none →
      Course s listener budget (some (.ok () r))
  | stopped {n : Nat} {i : Instruction} {e : Fault} {r r' : Run} : n < budget →
      s.Visits listener n r → s.fetch? r.machine = some i →
      ((s.withSink (listener r.printed)).step i).run r = .error e r' →
      Course s listener budget (some (.error e r'))
  | unfinished {r : Run} : s.Visits listener budget r → Course s listener budget none

theorem course_of_visits (h : s.Visits listener n r) (budget : Nat) :
    s.Course listener (n + budget) (s.loopWith listener budget r) := by
  induction budget generalizing n r with
  | zero => exact .unfinished h
  | succ budget ih =>
    rw [loopWith]
    split
    next hfetch => exact .ended (by omega) h hfetch
    next i hfetch =>
      split
      next hstep => exact .stopped (by omega) h hfetch hstep
      next u r₁ hstep =>
        have hnext := ih (.next h hfetch hstep)
        rwa [Nat.add_right_comm, Nat.add_assoc] at hnext

theorem course (s : Session) (listener : Listener) (budget : Nat) :
    s.Course listener budget (s.loopWith listener budget {}) := by
  have hstart : s.Visits listener 0 {} := .start
  simpa using course_of_visits hstart budget

theorem close_eq (s : Session) (r : Run) : ∃ out, s.close r = { r with out } := by
  unfold close
  split
  · exact ⟨_, rfl⟩
  · exact ⟨r.out, rfl⟩

theorem runWith_ok {budget : Nat} (h : s.runWith listener budget = some (.ok () r)) :
    ∃ n r₁ out, s.Visits listener n r₁ ∧ s.fetch? r₁.machine = none ∧ r = { r₁ with out } := by
  obtain ⟨result, hloop, hresult⟩ := Option.map_eq_some_iff.mp h
  have hcourse := s.course listener budget
  rw [hloop] at hcourse
  cases hcourse with
  | @ended n r₁ _ hvisits hfetch =>
    cases hresult
    obtain ⟨out, hclose⟩ := s.close_eq r₁
    exact ⟨n, r₁, out, hvisits, hfetch, hclose⟩
  | stopped => cases hresult

theorem runWith_error {budget : Nat} (h : s.runWith listener budget = some (.error e r)) :
    ∃ n r₁ i, s.Visits listener n r₁ ∧ s.fetch? r₁.machine = some i ∧
      ((s.withSink (listener r₁.printed)).step i).run r₁ = .error e r := by
  obtain ⟨result, hloop, hresult⟩ := Option.map_eq_some_iff.mp h
  have hcourse := s.course listener budget
  rw [hloop] at hcourse
  cases hcourse with
  | ended => cases hresult
  | @stopped n i e r₁ r _ hvisits hfetch hstep =>
    cases hresult
    exact ⟨n, r₁, i, hvisits, hfetch, hstep⟩

theorem Visits.runWith_eq {budget : Nat} (h : s.Visits listener n r)
    (hfetch : s.fetch? r.machine = some i)
    (hstep : ((s.withSink (listener r.printed)).step i).run r = .error e r') (hn : n < budget) :
    s.runWith listener budget = some (.error e r') := by
  obtain ⟨k, rfl⟩ : ∃ k, budget = k + 1 + n := ⟨budget - n - 1, by omega⟩
  have hloop : s.loopWith listener (k + 1) r = some (.error e r') := by
    simp only [loopWith, hfetch, hstep]
  rw [runWith, h.loop_eq, hloop]
  rfl

theorem visits_of_unfinished {budget : Nat} (h : s.runWith listener budget = none) :
    ∃ r, s.Visits listener budget r := by
  have hloop : s.loopWith listener budget {} = none := Option.map_eq_none_iff.mp h
  have hcourse := s.course listener budget
  rw [hloop] at hcourse
  cases hcourse with
  | unfinished hvisits => exact ⟨_, hvisits⟩

/-- So many instructions lead from the start to the machine, and they print these values. Limits
and what is shown have no part in it. -/
inductive Executes (s : Session) (listener : Listener) : Nat → Machine → Array Int → Prop where
  | start : Executes s listener 0 {} #[]
  | next {n : Nat} {i : Instruction} {m m' : Machine} {printed : Array Int}
      {o : Option (Int × String)} : Executes s listener n m printed → s.fetch? m = some i →
      (Machine.execute s.config.haltOnReturn (listener printed) s.program.size i).run m =
        .ok o m' →
      Executes s listener (n + 1) m' (printed ++ (o.map Prod.fst).toArray)

theorem Visits.executes (h : s.Visits listener n r) :
    s.Executes listener n r.machine r.printed := by
  induction h with
  | start => exact .start
  | next _ hfetch hstep ih =>
    obtain ⟨o, hrun, hprinted⟩ := (round_of_step hstep).executes
    rw [hprinted]
    exact .next ih hfetch hrun

end Visits

section Lockstep

variable {s t : Session} {listener : Listener} {i : Instruction} {r r' : Run}

/-- What an ending says apart from what the run has shown and kept. -/
def bare : EStateM.Result Fault Run Unit → EStateM.Result Fault Run Unit
  | .ok _ r => .ok () r.bare
  | .error e r => .error e r.bare

theorem perform_bare (hprogram : s.program = t.program)
    (hhalt : s.config.haltOnReturn = t.config.haltOnReturn) (hsink : s.sink = t.sink)
    (h : r.bare = r'.bare) :
    bare ((s.perform i).run r) = bare ((t.perform i).run r') := by
  obtain ⟨machine, steps, peak, printed, out, snapshots⟩ := r
  obtain ⟨machine', steps', peak', printed', out', snapshots'⟩ := r'
  cases h
  simp only [EStateM.run, perform, hprogram, hhalt, hsink]
  split
  next => rfl
  next => rfl
  next => rfl

theorem step_bare (hprogram : s.program = t.program)
    (hhalt : s.config.haltOnReturn = t.config.haltOnReturn)
    (hallows : s.Allows (r.steps + 1) ↔ t.Allows (r.steps + 1))
    (hs : s.Allows (r.steps + 1) → s.Shows i r) (ht : t.Allows (r'.steps + 1) → t.Shows i r')
    (h : r.bare = r'.bare) (sink : Sink) :
    bare (((s.withSink sink).step i).run r) = bare (((t.withSink sink).step i).run r') := by
  have hsteps : r.steps = r'.steps := (congrArg Run.steps h :)
  have hpc : r.machine.pc = r'.machine.pc := (congrArg (·.machine.pc) h :)
  by_cases ha : s.Allows (r.steps + 1)
  · have ha' : t.Allows (r'.steps + 1) := hsteps ▸ hallows.mp ha
    obtain ⟨out, -, hstep⟩ := step_of_shows (s := s.withSink sink) ha (hs ha)
    obtain ⟨out', -, hstep'⟩ := step_of_shows (s := t.withSink sink) ha' (ht ha')
    rw [hstep, hstep']
    exact perform_bare hprogram hhalt rfl h
  · have ha' : ¬ t.Allows (r'.steps + 1) := fun ha' => ha (hallows.mpr (hsteps ▸ ha'))
    rw [step_of_not_allows (s := s.withSink sink) ha, step_of_not_allows (s := t.withSink sink) ha']
    simp only [bare, hsteps, hpc, h]

theorem loop_bare (hprogram : s.program = t.program)
    (hstep : ∀ n r r' i, s.Visits listener n r → r.bare = r'.bare → s.fetch? r.machine = some i →
      bare (((s.withSink (listener r.printed)).step i).run r) =
        bare (((t.withSink (listener r.printed)).step i).run r'))
    {n : Nat} (hvisits : s.Visits listener n r) (h : r.bare = r'.bare) (budget : Nat) :
    (s.loopWith listener budget r).map bare = (t.loopWith listener budget r').map bare := by
  induction budget generalizing n r r' with
  | zero => rfl
  | succ budget ih =>
    have hmachine : r.machine = r'.machine := (congrArg Run.machine h :)
    have hprinted : r.printed = r'.printed := (congrArg Run.printed h :)
    rw [loopWith, loopWith, ← hmachine, ← hprinted, ← fetch?_congr hprogram]
    cases hfetch : s.fetch? r.machine with
    | none => simp only [Option.map_some, bare, h]
    | some i =>
      have hround := hstep n r r' i hvisits h hfetch
      cases hs : ((s.withSink (listener r.printed)).step i).run r with
      | error e r₁ =>
        rw [hs] at hround
        cases ht : ((t.withSink (listener r.printed)).step i).run r' with
        | error e' r₁' =>
          rw [ht] at hround
          simp only [hs, ht, Option.map_some, hround]
        | ok u r₁' =>
          rw [ht] at hround
          cases hround
      | ok u r₁ =>
        rw [hs] at hround
        cases ht : ((t.withSink (listener r.printed)).step i).run r' with
        | error e' r₁' =>
          rw [ht] at hround
          cases hround
        | ok u' r₁' =>
          rw [ht] at hround
          have hbare : r₁.bare = r₁'.bare := by injection hround
          simp only [hs, ht]
          exact ih (.next hvisits hfetch hs) hbare

/-- What is compared of runs: the machine and the statistics at the end, or the fault, and the
values printed until then. -/
def outcome : EStateM.Result Fault Run Unit → Except Fault (Machine × Tally) × Array Int
  | .ok _ r => (.ok (r.machine, r.tally), r.printed)
  | .error e r => (.error e, r.printed)

theorem outcome_runWith (s : Session) (listener : Listener) (budget : Nat) :
    (s.runWith listener budget).map outcome =
      ((s.loopWith listener budget {}).map bare).map outcome := by
  rw [runWith, Option.map_map, Option.map_map]
  congr 1
  funext result
  cases result with
  | ok u r =>
    simp only [Function.comp, close]
    split
    next => rfl
    next => rfl
  | error e r => rfl

end Lockstep

end Session

end StackLang
