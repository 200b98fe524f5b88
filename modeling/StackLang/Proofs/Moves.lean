import StackLang.Execution.Session
import StackLang.Proofs.Evaluation
import StackLang.Proofs.Instructions

namespace StackLang.Session

/-- The code `c` stands in the program at address `a`. -/
def Holds (s : Session) (a : Nat) (c : List Instruction) : Prop :=
  ∃ before after, s.program.toList = before ++ c ++ after ∧ before.length = a

theorem Holds.append {s : Session} {a : Nat} {c c' : List Instruction} (h : s.Holds a (c ++ c')) :
    s.Holds a c ∧ s.Holds (a + c.length) c' := by
  obtain ⟨before, after, hp, ha⟩ := h
  refine ⟨⟨before, c' ++ after, ?_, ha⟩, ⟨before ++ c, after, ?_, ?_⟩⟩
  · simpa using hp
  · simpa using hp
  · simp [ha]

theorem Holds.tail {s : Session} {a : Nat} {i : Instruction} {c : List Instruction}
    (h : s.Holds a (i :: c)) : s.Holds (a + 1) c :=
  (Holds.append (c := [i]) h).2

theorem Holds.le {s : Session} {a : Nat} {c : List Instruction} (h : s.Holds a c) :
    a + c.length ≤ s.program.size := by
  obtain ⟨before, after, hp, ha⟩ := h
  have hl := congrArg List.length hp
  simp only [Array.length_toList, List.length_append] at hl
  omega

theorem Holds.getElem? {s : Session} {a : Nat} {i : Instruction} {c : List Instruction}
    (h : s.Holds a (i :: c)) : s.program[a]? = some i := by
  obtain ⟨before, after, hp, ha⟩ := h
  rw [← Array.getElem?_toList, hp, ← ha]
  simp

/-- One step, in which nothing is printed. -/
def Step (s : Session) (m m' : Machine) : Prop :=
  ∃ i, s.fetch? m = some i ∧
    (Machine.execute s.config.haltOnReturn s.sink s.program.size i).run m = .ok none m'

theorem fetch?_running {s : Session} {pc : Nat} {i : Instruction} (h : s.program[pc]? = some i)
    (bp argc : Int) (st : List Int) : s.fetch? (Machine.running pc bp argc st) = some i := by
  simp [fetch?, Machine.running, h]

/-- The step of a running machine is that of the instruction at its address. -/
theorem Holds.step {s : Session} {pc : Nat} {i : Instruction} {c : List Instruction}
    {bp argc : Int} {st : List Int} {m : Machine} (h : s.Holds pc (i :: c))
    (he : (Machine.execute s.config.haltOnReturn s.sink s.program.size i).run
      (Machine.running pc bp argc st) = .ok none m) :
    s.Step (Machine.running pc bp argc st) m :=
  ⟨i, fetch?_running h.getElem? bp argc st, he⟩

/-- So many steps lead from one machine to the other. -/
inductive Moves (s : Session) : Nat → Machine → Machine → Prop where
  | refl (m : Machine) : Moves s 0 m m
  | step {n : Nat} {m m₁ m₂ : Machine} : s.Step m m₁ → Moves s n m₁ m₂ → Moves s (n + 1) m m₂

theorem Moves.trans {s : Session} {n k : Nat} {m m₁ m₂ : Machine} (h : s.Moves n m m₁)
    (h' : s.Moves k m₁ m₂) : s.Moves (n + k) m m₂ := by
  induction h with
  | refl m => simpa using h'
  | @step n m m₁ m₂ hs _ ih =>
    rw [Nat.add_right_comm]
    exact .step hs (ih h')

theorem Moves.split {s : Session} {n k : Nat} {m m' : Machine} (h : s.Moves (n + k) m m') :
    ∃ m₁, s.Moves n m m₁ ∧ s.Moves k m₁ m' := by
  induction n generalizing m with
  | zero => exact ⟨m, .refl m, by simpa using h⟩
  | succ n ih =>
    rw [Nat.add_right_comm] at h
    cases h with
    | step hs h =>
      obtain ⟨m₁, hm, hm'⟩ := ih h
      exact ⟨m₁, .step hs hm, hm'⟩

theorem Step.fetch {s : Session} {m m' : Machine} (h : s.Step m m') :
    ∃ i pc, s.fetch? m = some i ∧ m.pc = (pc : Nat) ∧ pc < s.program.size := by
  obtain ⟨i, hi, -⟩ := h
  obtain ⟨-, hlow, hget⟩ := fetch?_eq_some_iff.mp hi
  exact ⟨i, m.pc.toNat, hi, by omega, (Array.getElem?_eq_some_iff.mp hget).1⟩

theorem Step.moves {s : Session} {m m' : Machine} (h : s.Step m m') : s.Moves 1 m m' :=
  .step h (.refl m')

section

variable {α β : Type} {s : Session} {m m' : Machine} {fuel k : Nat}

/-- From `m` on the machine follows an evaluation with so much fuel: where that gives a result, the
machine comes to a state that fits it, and where the fuel does not suffice, the machine makes at
least as many steps. -/
def Follows (s : Session) (fuel : Nat) (m : Machine) (x : Answer α) (Q : α → Machine → Prop) :
    Prop :=
  match x with
  | .done a => ∃ n m', s.Moves n m m' ∧ Q a m'
  | .stuck => True
  | .exhausted => ∃ n m', fuel ≤ n ∧ s.Moves n m m'

theorem Follows.done {a : α} {Q : α → Machine → Prop} (h : Q a m) :
    s.Follows fuel m (.done a) Q :=
  ⟨0, m, .refl m, h⟩

/-- Steps in front of an evaluation count for its fuel. -/
theorem Moves.follows {n : Nat} {x : Answer α} {Q : α → Machine → Prop} (hm : s.Moves n m m')
    (h : s.Follows fuel m' x Q) (hk : k ≤ n + fuel) : s.Follows k m x Q := by
  cases x with
  | done a =>
    obtain ⟨n', m'', hm', hq⟩ := h
    exact ⟨n + n', m'', hm.trans hm', hq⟩
  | stuck => trivial
  | exhausted =>
    obtain ⟨n', m'', hn, hm'⟩ := h
    exact ⟨n + n', m'', by omega, hm.trans hm'⟩

theorem Follows.mono {x : Answer α} {Q : α → Machine → Prop} (h : s.Follows fuel m x Q)
    (hk : k ≤ fuel) : s.Follows k m x Q :=
  (Moves.refl m).follows h (by omega)

theorem Step.follows {x : Answer α} {Q : α → Machine → Prop} (hs : s.Step m m')
    (h : s.Follows fuel m' x Q) : s.Follows fuel m x Q :=
  hs.moves.follows h (by omega)

theorem Follows.moves {x : Answer α} {Q Q' : α → Machine → Prop} (h : s.Follows fuel m x Q)
    (hq : ∀ a m', Q a m' → ∃ n m'', s.Moves n m' m'' ∧ Q' a m'') : s.Follows fuel m x Q' := by
  cases x with
  | done a =>
    obtain ⟨n, m', hm, h⟩ := h
    obtain ⟨n', m'', hm', h'⟩ := hq a m' h
    exact ⟨n + n', m'', hm.trans hm', h'⟩
  | stuck => trivial
  | exhausted => exact h

theorem Follows.bind {x : Answer α} {f : α → Answer β} {Q : α → Machine → Prop}
    {Q' : β → Machine → Prop} (h : s.Follows fuel m x Q)
    (hf : ∀ a m', Q a m' → s.Follows fuel m' (f a) Q') : s.Follows fuel m (x >>= f) Q' := by
  cases x with
  | done a =>
    obtain ⟨n, m', hm, hq⟩ := h
    exact hm.follows (hf a m' hq) (by omega)
  | stuck => trivial
  | exhausted => exact h

end

end StackLang.Session
