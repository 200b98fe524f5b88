import StackLang.Proofs.Rounds
import Mathlib.Order.Bounds.Defs

namespace StackLang

namespace Numeral

/-- There is a result unless one of the integers that are written for it is too long. -/
def Writes {α : Type} (zs : List Int) (x : Except Unwritable α) : Prop :=
  (∃ a, x = .ok a) ∨ (∃ z ∈ zs, ¬ Writable z) ∧ x = .error .tooManyDigits

namespace Writes

variable {α β : Type} {zs : List Int}

theorem pure (a : α) : Writes zs (Pure.pure a) :=
  .inl ⟨a, rfl⟩

theorem bind {x : Except Unwritable α} {f : α → Except Unwritable β} (hx : Writes zs x)
    (hf : ∀ a, Writes zs (f a)) : Writes zs (x >>= f) := by
  rcases hx with ⟨a, rfl⟩ | ⟨hlong, rfl⟩
  · exact hf a
  · exact .inr ⟨hlong, rfl⟩

theorem write {n : Int} (h : n ∈ zs) : Writes zs (write n) := by
  by_cases hn : Writable n
  · exact .inl ⟨text n, if_pos hn⟩
  · exact .inr ⟨⟨n, h, hn⟩, if_neg hn⟩

theorem mapM {ns : List Int} (h : ∀ n ∈ ns, n ∈ zs) : Writes zs (ns.mapM Numeral.write) := by
  induction ns with
  | nil => exact .pure []
  | cons n ns ih =>
    rw [List.mapM_cons]
    refine .bind (.write (h n List.mem_cons_self)) fun head => ?_
    refine .bind (ih fun m hm => h m (List.mem_cons_of_mem n hm)) fun tail => ?_
    exact .pure (head :: tail)

end Writes

end Numeral

theorem Opcode.name_of_known {op : Opcode} (h : op ∈ known) : op.name = .ok op.mnemonic := by
  cases op with
  | unknown s => simp [known] at h
  | _ => rfl

namespace Snapshot

/-- The machine of a snapshot, which is taken only as long as the machine has not halted. -/
def machine (x : Snapshot) : Machine where
  stack := x.stack
  pc := x.pc
  bp := x.bp
  argc := x.argc

/-- The integers that are shown. -/
def integers (x : Snapshot) : List Int :=
  x.pc :: x.bp :: x.argc :: x.instruction.operand :: x.stack.toList

theorem render_writes {x : Snapshot} (h : x.instruction.opcode ∈ Opcode.known) :
    Numeral.Writes x.integers x.render := by
  have hstack : Numeral.Writes x.integers (showStack x.stack) := by
    rw [showStack, Numeral.writeAll, map_eq_pure_bind, map_eq_pure_bind]
    refine .bind (.bind (.mapM fun n hn => ?_) fun _ => .pure _) fun _ => .pure _
    simp [integers, hn]
  rw [render, Opcode.name_of_known h]
  refine .bind (.write (by simp [integers])) fun pc => ?_
  refine .bind (.write (by simp [integers])) fun bp => ?_
  refine .bind (.write (by simp [integers])) fun argc => ?_
  refine .bind (.inl ⟨_, rfl⟩) fun name => ?_
  refine .bind (.write (by simp [integers])) fun operand => ?_
  exact .bind hstack fun stack => .pure _

end Snapshot

namespace Session

section Watching

variable {s : Session} {listener : Listener} {i : Instruction} {r r' : Run}

/-- The session with its machines shown or not, and kept or not. -/
def watched (s : Session) (verbose recorded : Bool) : Session :=
  { s with config := { s.config with verbose }, recorded }

theorem step_recorded (s : Session) (verbose : Bool) (h : r.bare = r'.bare) (sink : Sink) :
    bare ((((s.watched verbose true).withSink sink).step i).run r) =
      bare ((((s.watched verbose false).withSink sink).step i).run r') := by
  have hsteps : r.steps = r'.steps := (congrArg Run.steps h :)
  have hmachine : r.machine = r'.machine := (congrArg Run.machine h :)
  have hsnapshot : r.snapshot i = r'.snapshot i := by simp only [Run.snapshot, hsteps, hmachine]
  have hshows : (s.watched verbose true).Shows i r ↔ (s.watched verbose false).Shows i r' := by
    rw [Shows, Shows, hsnapshot]
    rfl
  by_cases hunshown : s.Allows (r.steps + 1) ∧ ¬ (s.watched verbose true).Shows i r
  · obtain ⟨hallows, hnot⟩ := hunshown
    obtain ⟨cause, -, hrender, hstep⟩ :=
      step_of_not_shows (s := (s.watched verbose true).withSink sink) hallows hnot
    obtain ⟨cause', -, hrender', hstep'⟩ :=
      step_of_not_shows (s := (s.watched verbose false).withSink sink) (hsteps ▸ hallows)
        (fun hs => hnot (hshows.mpr hs))
    rw [hsnapshot, hrender'] at hrender
    cases hrender
    rw [hstep, hstep', bare, bare, h]
  · have hshown : s.Allows (r.steps + 1) → (s.watched verbose true).Shows i r := by grind
    exact step_bare (s := s.watched verbose true) (t := s.watched verbose false) rfl rfl Iff.rfl
      hshown (fun hallows => hshows.mp (hshown (hsteps ▸ hallows))) h sink

theorem outcome_recorded (s : Session) (listener : Listener) (verbose : Bool) (budget : Nat) :
    ((s.watched verbose true).runWith listener budget).map outcome =
      ((s.watched verbose false).runWith listener budget).map outcome := by
  rw [outcome_runWith, outcome_runWith]
  congr 1
  refine loop_bare (s := s.watched verbose true) (t := s.watched verbose false) rfl ?_ .start rfl
    budget
  intro n r r' i _ h _
  exact s.step_recorded verbose h (listener r.printed)

/-- If all machines of a run can be shown, showing them makes no difference to the run. -/
theorem outcome_verbose (recorded : Bool)
    (hshows : ∀ n r i, (s.watched true recorded).Visits listener n r →
      s.fetch? r.machine = some i → s.Allows (n + 1) → (s.watched true recorded).Shows i r)
    (budget : Nat) :
    ((s.watched true recorded).runWith listener budget).map outcome =
      ((s.watched false recorded).runWith listener budget).map outcome := by
  rw [outcome_runWith, outcome_runWith]
  congr 1
  refine loop_bare (s := s.watched true recorded) (t := s.watched false recorded) rfl ?_ .start rfl
    budget
  intro n r r' i hvisits h hfetch
  exact step_bare (s := s.watched true recorded) (t := s.watched false recorded) rfl rfl Iff.rfl
    (fun hallows => hshows n r i hvisits hfetch (hvisits.steps ▸ hallows))
    (fun _ => shows_of_quiet rfl) h (listener r.printed)

/-- The run stops before a machine that cannot be shown, as one of its integers is too long. -/
def StopsUnshown (s : Session) (listener : Listener) : Prop :=
  ∃ n r i, s.Visits listener n r ∧ s.fetch? r.machine = some i ∧ s.Allows (n + 1) ∧
    (∃ z ∈ (r.snapshot i).integers, ¬ Numeral.Writable z) ∧
    ∀ budget, n < budget →
      s.runWith listener budget = some (.error (.unwritable .tooManyDigits) r)

theorem outcome_verbose_or_stopsUnshown (recorded : Bool)
    (hknown : ∀ i ∈ s.program, i.opcode ∈ Opcode.known) :
    (∀ budget, ((s.watched true recorded).runWith listener budget).map outcome =
      ((s.watched false recorded).runWith listener budget).map outcome) ∨
      (s.watched true recorded).StopsUnshown listener := by
  by_cases hshows : ∀ n r i, (s.watched true recorded).Visits listener n r →
      s.fetch? r.machine = some i → s.Allows (n + 1) → (s.watched true recorded).Shows i r
  · exact .inl (outcome_verbose recorded hshows)
  · simp only [Classical.not_forall] at hshows
    obtain ⟨n, r, i, hvisits, hfetch, hallows, hnot⟩ := hshows
    have hmem : i ∈ s.program := Array.mem_of_getElem? (fetch?_eq_some_iff.mp hfetch).2.2
    obtain ⟨cause, -, hrender, hstep⟩ := step_of_not_shows
      (s := (s.watched true recorded).withSink (listener r.printed)) (hvisits.steps.symm ▸ hallows)
      hnot
    rcases Snapshot.render_writes (x := r.snapshot i) (hknown i hmem) with
      ⟨text, htext⟩ | ⟨hlong, herror⟩
    · rw [htext] at hrender
      cases hrender
    · rw [herror] at hrender
      cases hrender
      exact .inr ⟨n, r, i, hvisits, hfetch, hallows, hlong,
        fun _ => hvisits.runWith_eq hfetch hstep⟩

end Watching

section Replay

variable {s : Session} {listener : Listener} {n k : Nat} {i : Instruction} {r r₀ : Run}

theorem machine_snapshot (h : s.fetch? r.machine = some i) :
    (r.snapshot i).machine = r.machine := by
  obtain ⟨hhalted, -, -⟩ := fetch?_eq_some_iff.mp h
  rw [Snapshot.machine, Run.snapshot, ← hhalted]

theorem Round.snapshots_push {sink : Sink} {r' : Run} (h : (s.withSink sink).Round i r r')
    (hrecorded : s.recorded = true) : r'.snapshots = r.snapshots.push (r.snapshot i) :=
  h.snapshots.trans (if_pos hrecorded)

namespace Visits

theorem snapshots_size (h : s.Visits listener n r) (hrecorded : s.recorded = true) :
    r.snapshots.size = n := by
  induction h with
  | start => rfl
  | next _ _ hstep ih =>
    rw [(round_of_step hstep).snapshots_push hrecorded, Array.size_push, ih]

/-- A snapshot is kept of every point that the run has gone on from. -/
theorem snapshot_kept (h : s.Visits listener n r) (hrecorded : s.recorded = true) (hk : k < n)
    (h₀ : s.Visits listener k r₀) (hfetch₀ : s.fetch? r₀.machine = some i) :
    r.snapshots[k]? = some (r₀.snapshot i) := by
  induction h with
  | start => omega
  | @next n j r r' hvisits hfetch hstep ih =>
    have hsize := hvisits.snapshots_size hrecorded
    rw [(round_of_step hstep).snapshots_push hrecorded]
    by_cases hkn : k = n
    · subst hkn
      cases hvisits.unique h₀
      rw [hfetch] at hfetch₀
      cases hfetch₀
      rw [← hsize, Array.getElem?_push_size]
    · rw [Array.getElem?_push, if_neg (by omega)]
      exact ih (by omega)

theorem of_snapshot {x : Snapshot} (h : s.Visits listener n r) (hrecorded : s.recorded = true)
    (hx : r.snapshots[k]? = some x) :
    ∃ r₀ i r₁, k < n ∧ s.Visits listener k r₀ ∧ s.fetch? r₀.machine = some i ∧
      ((s.withSink (listener r₀.printed)).step i).run r₀ = .ok () r₁ ∧ x = r₀.snapshot i := by
  obtain ⟨hk, -⟩ := Array.getElem?_eq_some_iff.mp hx
  rw [h.snapshots_size hrecorded] at hk
  obtain ⟨r₀, i, r₁, hvisits, hfetch, hstep⟩ := h.before hk
  rw [h.snapshot_kept hrecorded hk hvisits hfetch] at hx
  cases hx
  exact ⟨r₀, i, r₁, hk, hvisits, hfetch, hstep, rfl⟩

theorem peak (h : s.Visits listener n r) :
    IsGreatest {size | ∃ k r₀, k ≤ n ∧ s.Visits listener k r₀ ∧ r₀.machine.stack.size = size}
      r.peak := by
  induction h with
  | start =>
    refine ⟨⟨0, {}, Nat.le_refl 0, .start, rfl⟩, ?_⟩
    rintro size ⟨k, r₀, hk, hvisits, rfl⟩
    cases Nat.le_zero.mp hk
    cases hvisits
    exact Nat.le_refl 0
  | @next n i r r' hvisits hfetch hstep ih =>
    obtain ⟨⟨k, r₀, hk, hvisits₀, hsize⟩, hupper⟩ := ih
    have hnext : s.Visits listener (n + 1) r' := .next hvisits hfetch hstep
    rw [(round_of_step hstep).peak]
    constructor
    · rcases Nat.le_total r.peak r'.machine.stack.size with hle | hle
      · exact ⟨n + 1, r', Nat.le_refl _, hnext, (Nat.max_eq_right hle).symm⟩
      · exact ⟨k, r₀, by omega, hvisits₀, by rw [hsize, Nat.max_eq_left hle]⟩
    · rintro size ⟨k, r₀, hk, hvisits₀, rfl⟩
      by_cases hkn : k ≤ n
      · exact Nat.le_trans (hupper ⟨k, r₀, hkn, hvisits₀, rfl⟩) (Nat.le_max_left _ _)
      · obtain rfl : k = n + 1 := by omega
        cases hnext.unique hvisits₀
        exact Nat.le_max_right _ _

theorem points_eq (h : s.Visits listener n r) (hrecorded : s.recorded = true) :
    {size | (∃ x ∈ r.snapshots, x.stack.size = size) ∨ size = r.machine.stack.size} =
      {size | ∃ k r₀, k ≤ n ∧ s.Visits listener k r₀ ∧ r₀.machine.stack.size = size} := by
  ext size
  constructor
  · rintro (⟨x, hx, rfl⟩ | rfl)
    · obtain ⟨k, hk⟩ := Array.mem_iff_getElem?.mp hx
      obtain ⟨r₀, i, -, hlt, hvisits, -, -, rfl⟩ := h.of_snapshot hrecorded hk
      exact ⟨k, r₀, Nat.le_of_lt hlt, hvisits, rfl⟩
    · exact ⟨n, r, Nat.le_refl n, h, rfl⟩
  · rintro ⟨k, r₀, hk, hvisits, rfl⟩
    by_cases hkn : k = n
    · subst hkn
      rw [hvisits.unique h]
      exact .inr rfl
    · have hlt : k < n := by omega
      obtain ⟨r₁, i, -, hvisits₁, hfetch, -⟩ := h.before hlt
      cases hvisits.unique hvisits₁
      have hkept := h.snapshot_kept hrecorded hlt hvisits hfetch
      exact .inl ⟨_, Array.mem_of_getElem? hkept, rfl⟩

end Visits

/-- A snapshot with the number `k` shows the machine after `k` instructions and the instruction at
its `pc`, which leads to the machine of the next snapshot, or from the last one to the machine at
the end. -/
structure Retraces (s : Session) (listener : Listener) (r : Run) (k : Nat) (x : Snapshot) :
    Prop where
  index : x.index = k
  instruction : 0 ≤ x.pc ∧ s.program[x.pc.toNat]? = some x.instruction
  leads : ∃ printed o m, s.Executes listener k x.machine printed ∧
    (Machine.execute s.config.haltOnReturn (listener printed) s.program.size x.instruction).run
      x.machine = .ok o m ∧
    (∀ y, r.snapshots[k + 1]? = some y → m = y.machine) ∧
    (k + 1 = r.snapshots.size → m = r.machine)

/-- The snapshots that a run has kept replay it, and its statistics are read off them and the
machine at the end. -/
structure Replays (s : Session) (listener : Listener) (r : Run) : Prop where
  size : r.snapshots.size = r.tally.steps
  entry : ∀ k x, r.snapshots[k]? = some x → s.Retraces listener r k x
  executes : s.Executes listener r.tally.steps r.machine r.printed
  peak : IsGreatest {size | (∃ x ∈ r.snapshots, x.stack.size = size) ∨ size = r.machine.stack.size}
    r.tally.peak
  final : r.tally.final = r.machine.stack.size
  halted : r.tally.halted = r.machine.halted

theorem Visits.retraces {x : Snapshot} (h : s.Visits listener n r) (hrecorded : s.recorded = true)
    (hx : r.snapshots[k]? = some x) : s.Retraces listener r k x := by
  obtain ⟨r₀, i, r₁, hk, hvisits, hfetch, hstep, rfl⟩ := h.of_snapshot hrecorded hx
  have hnext : s.Visits listener (k + 1) r₁ := .next hvisits hfetch hstep
  obtain ⟨-, hpc, hi⟩ := fetch?_eq_some_iff.mp hfetch
  obtain ⟨o, hrun, -⟩ := (round_of_step hstep).executes
  refine ⟨hvisits.steps, ⟨hpc, hi⟩, r₀.printed, o, r₁.machine, ?_, ?_, ?_, ?_⟩
  · rw [machine_snapshot hfetch]
    exact hvisits.executes
  · rw [machine_snapshot hfetch]
    exact hrun
  · intro y hy
    obtain ⟨r₂, j, -, -, hvisits₂, hfetch₂, -, rfl⟩ := h.of_snapshot hrecorded hy
    cases hnext.unique hvisits₂
    rw [machine_snapshot hfetch₂]
  · intro hlast
    rw [h.snapshots_size hrecorded] at hlast
    subst hlast
    rw [hnext.unique h]

theorem Visits.replays (h : s.Visits listener n r) (hrecorded : s.recorded = true) :
    s.Replays listener r := by
  refine ⟨?_, fun k x hx => h.retraces hrecorded hx, ?_, ?_, rfl, rfl⟩
  · rw [h.snapshots_size hrecorded, Run.tally, h.steps]
  · rw [Run.tally, h.steps]
    exact h.executes
  · rw [h.points_eq hrecorded]
    exact h.peak

theorem replays_of_runWith {budget : Nat} (hrecorded : s.recorded = true)
    (h : s.runWith listener budget = some (.ok () r)) : s.Replays listener r := by
  obtain ⟨n, r₁, out, hvisits, -, rfl⟩ := runWith_ok h
  -- What is written at the close is no part of it.
  obtain ⟨hsize, hentry, hexecutes, hpeak, hfinal, hhalted⟩ := hvisits.replays hrecorded
  refine ⟨hsize, fun k x hx => ?_, hexecutes, hpeak, hfinal, hhalted⟩
  obtain ⟨hindex, hinstruction, hleads⟩ := hentry k x hx
  exact ⟨hindex, hinstruction, hleads⟩

/-- Keeping the snapshots makes no difference to a run, showing them makes one only where an
integer is too long, and the snapshots of a run that ends replay it. -/
theorem watched_run_replays (s : Session) (listener : Listener) :
    (∀ verbose budget, ((s.watched verbose true).runWith listener budget).map outcome =
      ((s.watched verbose false).runWith listener budget).map outcome) ∧
    ((∀ i ∈ s.program, i.opcode ∈ Opcode.known) → ∀ recorded,
      (∀ budget, ((s.watched true recorded).runWith listener budget).map outcome =
        ((s.watched false recorded).runWith listener budget).map outcome) ∨
        (s.watched true recorded).StopsUnshown listener) ∧
    ∀ verbose budget r, (s.watched verbose true).runWith listener budget = some (.ok () r) →
      (s.watched verbose true).Replays listener r := by
  refine ⟨s.outcome_recorded listener, fun hknown recorded => ?_, fun verbose budget r h => ?_⟩
  · exact outcome_verbose_or_stopsUnshown recorded hknown
  · exact replays_of_runWith rfl h

/-- A program whose first operand is too long to be shown. It runs to its end as long as it is not
shown, and stops at once if it is. -/
theorem watched_run_replays_long_operand :
    let z : Int := Nat.pow 10 maxDigits
    let s : Session := { program := #[⟨.push, z⟩, ⟨.push, 4⟩, ⟨.print, 0⟩, ⟨.ret, 0⟩] }
    let listener : Listener := fun _ => Sink.silent
    (∀ i ∈ s.program, i.opcode ∈ Opcode.known) ∧
      (s.watched true true).StopsUnshown listener ∧
      ∃ r, (s.watched false true).runWith listener 5 = some (.ok () r) ∧
        r.tally = ⟨4, 2, 1, true⟩ ∧ r.printed = #[4] ∧
        (s.watched false true).Replays listener r := by
  intro z s listener
  have hknown : ∀ i ∈ s.program, i.opcode ∈ Opcode.known := by
    simp [s, Opcode.known, Operator.all]
  have hloud : (((s.watched true true).runWith listener 5).map outcome).map Prod.snd =
      some #[] := by decide +kernel
  have hquiet : (((s.watched false true).runWith listener 5).map outcome).map
      (fun o => (o.1.toOption.map Prod.snd, o.2)) = some (some ⟨4, 2, 1, true⟩, #[4]) := by
    decide +kernel
  -- From here on it does not matter which integer it is, and it is not evaluated again.
  clear_value z
  obtain ⟨r, hends⟩ : ∃ r, (s.watched false true).runWith listener 5 = some (.ok () r) := ⟨_, rfl⟩
  rw [hends] at hquiet
  obtain ⟨htally, hprinted⟩ := Prod.mk.inj (Option.some.inj hquiet)
  obtain ⟨-, hverbose, hreplays⟩ := watched_run_replays s listener
  refine ⟨hknown, ?_, r, hends, Option.some.inj htally, hprinted, hreplays false 5 r hends⟩
  rcases hverbose hknown true with hsame | hstops
  · rw [hsame 5, hends] at hloud
    have hnothing : r.printed = #[] := Option.some.inj hloud
    rw [show r.printed = #[4] from hprinted] at hnothing
    cases hnothing
  · exact hstops

end Replay

end Session

end StackLang
