import StackLang.Proofs.Passages

namespace StackLang

open Session Machine

/-- What has become of the local variables of an activation. -/
structure Activation where
  /-- The value most recently stored in a slot. -/
  stored : Nat → Option Int := fun _ => none
  /-- The number of slots for which there are cells. -/
  room : Nat := 0

namespace Activation

/-- A first assignment puts a cell on the stack. -/
def grow (A : Activation) : Activation :=
  { A with room := A.room + 1 }

/-- A store above the cells makes all those in between. -/
def store (A : Activation) (slot : Nat) (v : Int) : Activation where
  stored j := if j = slot then some v else A.stored j
  room := max A.room (slot + 1)

/-- What a slot stands for: the value most recently stored, or the placeholder. -/
def value (A : Activation) (slot : Nat) : Int :=
  (A.stored slot).getD Emitter.placeholder

/-- Slots in which something was stored have cells, and if names are never assigned for the first
time where that can be passed over, all names assigned so far have cells. -/
structure Fits (A : Activation) (upfront : Prop) (names : List Label) : Prop where
  stored : ∀ j v, A.stored j = some v → j < A.room
  names : upfront → names.length ≤ A.room

/-- The cells are on the stack, above the base of the frame. -/
def Held (A : Activation) (b : Nat) (st : List Int) : Prop :=
  ∀ j, j < A.room → st[b + j + 1]? = some (A.value j)

/-- The cells are on the stack, and there is nothing above them. -/
structure Lodged (A : Activation) (b : Nat) (st : List Int) : Prop where
  height : st.length = b + 1 + A.room
  held : A.Held b st

variable {A : Activation} {upfront : Prop} {names : List Label} {b : Nat} {st : List Int}

theorem Held.append (h : A.Held b st) (cells : List Int) : A.Held b (st ++ cells) :=
  fun j hj => getElem?_append_of_some (h j hj) cells

theorem Lodged.base (h : A.Lodged b st) : b < st.length := by
  have hheight := h.height
  omega

theorem Fits.value_of_le (h : A.Fits upfront names) {j : Nat} (hj : A.room ≤ j) :
    A.value j = Emitter.placeholder := by
  cases hs : A.stored j with
  | none => rw [value, hs, Option.getD_none]
  | some v =>
    have hlt := h.stored j v hs
    omega

theorem Fits.mono {names' : List Label} (h : A.Fits upfront names')
    (hn : upfront → names.length ≤ names'.length) : A.Fits upfront names where
  stored := h.stored
  names hu := (hn hu).trans (h.names hu)

theorem Fits.grow (h : A.Fits upfront names) (x : Label) :
    A.grow.Fits upfront (names ++ [x]) where
  stored j v hj := Nat.lt_succ_of_lt (h.stored j v hj)
  names hu := by
    rw [List.length_append]
    exact Nat.succ_le_succ (h.names hu)

theorem Lodged.grow (h : A.Lodged b st) (hf : A.Fits upfront names) :
    A.grow.Lodged b (st ++ [Emitter.placeholder]) where
  height := by
    have hheight := h.height
    simp only [List.length_append, List.length_singleton, Activation.grow]
    omega
  held j hj := by
    have hlast : j < A.room ∨ j = A.room := Nat.lt_succ_iff_lt_or_eq.mp hj
    rcases hlast with hlt | rfl
    · exact getElem?_append_of_some (h.held j hlt) _
    · have hindex : b + A.room + 1 = st.length := by
        have hheight := h.height
        omega
      rw [hindex, List.getElem?_concat_length]
      exact congrArg some (hf.value_of_le (Nat.le_refl _)).symm

theorem Fits.store (h : A.Fits upfront names) (slot : Nat) (v : Int) :
    (A.store slot v).Fits upfront names where
  stored j w hj := by
    simp only [Activation.store] at hj ⊢
    split at hj
    next hslot => omega
    next =>
      have hlt := h.stored j w hj
      omega
  names hu := (h.names hu).trans (Nat.le_max_left _ _)

theorem getElem?_written_between {index j : Nat} (hj : st.length ≤ j) (hi : j < index) (v : Int) :
    (written st index v)[j]? = some filler := by
  have hlength : ¬ index < st.length := by omega
  rw [written, if_neg hlength, List.append_assoc, List.getElem?_append_right hj,
    List.getElem?_append_left (by rw [List.length_replicate]; omega)]
  exact List.getElem?_replicate_of_lt (by omega)

theorem Lodged.store (h : A.Lodged b st) (hf : A.Fits upfront names) (slot : Nat) (v : Int) :
    (A.store slot v).Lodged b (written st (b + slot + 1) v) where
  height := by
    have hheight := h.height
    unfold written
    split
    next hlt =>
      simp only [List.length_set, Activation.store]
      omega
    next hge =>
      simp only [List.length_append, List.length_replicate, List.length_singleton, Activation.store]
      omega
  held j hj := by
    have hheight := h.height
    simp only [Activation.store, value] at hj ⊢
    by_cases hslot : j = slot
    · rw [hslot, if_pos rfl]
      exact getElem?_written_self _ _ _
    · rw [if_neg hslot]
      by_cases hroom : j < A.room
      · exact getElem?_written_of_ne (h.held j hroom) (by omega) v
      · have hvalue : A.value j = Emitter.placeholder := hf.value_of_le (by omega)
        rw [value] at hvalue
        rw [hvalue]
        exact getElem?_written_between (by omega) (by omega) v

end Activation

namespace Session

/-- The instruction makes a cell for a local variable: it pushes a placeholder, and not the one for
the result of a call. -/
def MakesCell (s : Session) (pc : Int) : Prop :=
  s.program[pc.toNat]? = some ⟨.push, Emitter.placeholder⟩ ∧
    s.program[pc.toNat + 1]?.map (·.opcode) ≠ some .ldpc

instance (s : Session) (pc : Int) : Decidable (s.MakesCell pc) :=
  inferInstanceAs (Decidable (_ ∧ _))

/-- The activations after an instruction, the innermost first. One begins when the base of its frame
is set, and ends with a return. -/
def record (s : Session) (m : Machine) (i : Instruction) (g : List Activation) :
    List Activation :=
  match i.opcode with
  | .push => if s.MakesCell m.pc then g.modifyHead Activation.grow else g
  | .storel => g.modifyHead fun A => A.store i.operand.toNat (m.stack.back?.getD 0)
  | .strbp => {} :: g
  | .ret => g.tail
  | _ => g

/-- The run has come to this point, with these activations, and none of its steps was a bad one. -/
inductive Recorded (s : Session) (bad : Machine → Machine → Prop) :
    Run → List Activation → Prop where
  | start : Recorded s bad {} [{}]
  | step {r r' : Run} {g : List Activation} {i : Instruction} : Recorded s bad r g →
      s.fetch? r.machine = some i → (s.step i).run r = .ok () r' →
      ¬ bad r.machine r'.machine → Recorded s bad r' (s.record r.machine i g)

end Session

namespace Stmt

mutual

/-- No name is assigned for the first time in a branch or in a loop. -/
def Upfront (names : List Label) : Stmt → Prop
  | assign _ _ => True
  | noop => True
  | ifThen _ t => t.assigned names = names
  | ifElse _ t e => t.assigned names = names ∧ e.assigned names = names
  | loop _ b => b.assigned names = names
  | func _ _ _ => True
  | ret _ => True
  | block ss => UpfrontAll names ss

def UpfrontAll (names : List Label) : List Stmt → Prop
  | [] => True
  | S :: ss => Upfront names S ∧ UpfrontAll (S.assigned names) ss

end

theorem assigned_eq_of_assigned {S T : Stmt} {names : List Label}
    (h : T.assigned (S.assigned names) = names) : S.assigned names = names := by
  have hT := prefix_assigned T (S.assigned names)
  rw [h] at hT
  exact hT.eq_of_length_le (prefix_assigned S names).length_le

mutual

theorem upfront_of_assigned_eq : (S : Stmt) → {names : List Label} → S.assigned names = names →
    S.Upfront names
  | assign _ _, _, _ => trivial
  | noop, _, _ => trivial
  | ifThen _ t, _, h => h
  | ifElse _ t e, names, h => by
    have ht : t.assigned names = names := assigned_eq_of_assigned h
    rw [assigned, ht] at h
    exact ⟨ht, h⟩
  | loop _ b, _, h => h
  | func _ _ _, _, _ => trivial
  | ret _, _, _ => trivial
  | block ss, _, h => upfrontAll_of_assignedAll_eq ss h

theorem upfrontAll_of_assignedAll_eq : (ss : List Stmt) → {names : List Label} →
    assignedAll names ss = names → UpfrontAll names ss
  | [], _, _ => trivial
  | S :: ss, names, h => by
    have hS : S.assigned names = names := assigned_eq_of_assigned (T := .block ss) h
    rw [assignedAll, hS] at h
    refine ⟨upfront_of_assigned_eq S hS, ?_⟩
    rw [hS]
    exact upfrontAll_of_assignedAll_eq ss h

end

end Stmt

/-- Control is in a function in which no name is assigned for the first time in a branch or in a
loop. -/
def Program.UpfrontAt (p : Program) (pc : Int) : Prop :=
  ∃ x ∈ p.spans, ∃ params body, x.Declares params body ∧ x.Covers pc ∧ Stmt.UpfrontAll [] body

/-- A function is left at its end, or the main function is left by a return that does not halt the
machine. -/
def Strays (s : Session) (p : Program) (m m' : Machine) : Prop :=
  FallsOff s p m m' ∨ s.config.haltOnReturn = false ∧ s.IsReturn m.pc ∧ m.bp = 0

/-- A slot is read as its activation says. -/
structure SlotRead (s : Session) (p : Program) (m : Machine) (A : Activation) (slot : Nat) :
    Prop where
  stored : ∀ v, A.stored slot = some v → slot < A.room
  upfront : p.UpfrontAt m.pc → slot < A.room
  pushes : slot < A.room →
    (execute s.config.haltOnReturn s.sink s.program.size ⟨.loadl, slot⟩).run m =
      .ok none { m with stack := m.stack.push (A.value slot), pc := m.pc + 1 }

/-- If the next instruction reads a local variable, it is one of the innermost activation. -/
def ReadsOwn (s : Session) (p : Program) (m : Machine) (g : List Activation) : Prop :=
  ∀ n, s.fetch? m = some ⟨.loadl, n⟩ →
    ∃ A outer slot, g = A :: outer ∧ n = ((slot : Nat) : Int) ∧ SlotRead s p m A slot

/-- For so many steps local variables are read as their activations say, until `Q` holds or control
strays. -/
def Watched (s : Session) (p : Program) :
    Nat → Machine → List Activation → (Machine → List Activation → Prop) → Prop
  | 0, _, _, _ => True
  | k + 1, m, g, Q => Q m g ∨ ReadsOwn s p m g ∧ ∀ i o m', s.fetch? m = some i →
      (execute s.config.haltOnReturn s.sink s.program.size i).run m = .ok o m' →
      ¬ Strays s p m m' → Watched s p k m' (s.record m i g) Q

section Watching

variable {s : Session} {p : Program} {k j : Nat} {m : Machine} {g : List Activation}
  {Q Q' : Machine → List Activation → Prop}

theorem watched_of (h : Q m g) : Watched s p k m g Q := by
  cases k with
  | zero => trivial
  | succ k => exact .inl h

theorem Watched.bind_le (h : Watched s p k m g Q) (hj : j ≤ k)
    (hq : ∀ i ≤ j, ∀ m' g', Q m' g' → Watched s p i m' g' Q') : Watched s p j m g Q' := by
  induction j generalizing k m g with
  | zero => trivial
  | succ j ih =>
    obtain ⟨k, rfl⟩ : ∃ k', k = k' + 1 := ⟨k - 1, by omega⟩
    rcases h with h | ⟨hreads, h⟩
    · exact hq (j + 1) (Nat.le_refl _) m g h
    · refine .inr ⟨hreads, fun i o m' hi hrun hno => ?_⟩
      exact ih (h i o m' hi hrun hno) (by omega) fun i hi => hq i (by omega)

theorem Watched.mono (h : Watched s p k m g Q) (hj : j ≤ k) : Watched s p j m g Q :=
  h.bind_le hj fun _ _ _ _ hm => watched_of hm

theorem Watched.bind (h : Watched s p k m g Q)
    (hq : ∀ m' g', Q m' g' → Watched s p k m' g' Q') : Watched s p k m g Q' :=
  h.bind_le (Nat.le_refl k) fun _ hi m' g' hm => (hq m' g' hm).mono hi

theorem watched_halted (h : m.halted = true) : Watched s p k m g Q := by
  have hnone : s.fetch? m = none := by simp [fetch?, h]
  cases k with
  | zero => trivial
  | succ k =>
    refine .inr ⟨fun n hn => ?_, fun i o m' hi => ?_⟩
    · rw [hnone] at hn
      cases hn
    · rw [hnone] at hi
      cases hi

end Watching

section Steps

variable {s : Session} {p : Program} {k : Nat} {Q : Machine → List Activation → Prop} {x : Span}
  {params : List Label} {body : List Stmt} {pc t : Nat} {i : Instruction} {c : List Instruction}
  {bp bp' argc argc' : Int} {st st' : List Int} {g : List Activation}

theorem readsOwn_of_ne (hi : s.program[pc]? = some i) (hne : i.opcode ≠ .loadl) :
    ReadsOwn s p (running pc bp argc st) g := by
  intro n hn
  rw [fetch?_running hi] at hn
  cases hn
  exact absurd rfl hne

theorem Session.Holds.watched_execute (hc : s.Holds pc (i :: c))
    (hreads : ReadsOwn s p (running pc bp argc st) g)
    (h : ∀ o m', (execute s.config.haltOnReturn s.sink s.program.size i).run
        (running pc bp argc st) = .ok o m' → ¬ Strays s p (running pc bp argc st) m' →
      ∀ j < k, Watched s p j m' (s.record (running pc bp argc st) i g) Q) :
    Watched s p k (running pc bp argc st) g Q := by
  cases k with
  | zero => trivial
  | succ k =>
    refine .inr ⟨hreads, fun j o m' hj hrun hno => ?_⟩
    rw [fetch?_running hc.getElem?] at hj
    cases hj
    exact h o m' hrun hno k (Nat.lt_succ_self k)

/-- An instruction in a function that is neither a call nor a return goes on in the function, or
strays. -/
theorem Session.Holds.watched (hx : x ∈ p.spans) (hd : x.Declares params body)
    (hc : s.Holds pc (i :: c)) (hlow : x.first ≤ pc) (hhigh : pc < x.stop)
    (hret : i.opcode ≠ .ret) (hcall : ¬ s.IsCall pc)
    (hreads : ReadsOwn s p (running pc bp argc st) g)
    (h : ∀ o m', (execute s.config.haltOnReturn s.sink s.program.size i).run
        (running pc bp argc st) = .ok o m' →
      m'.pc = x.stop ∨ ∀ j < k, Watched s p j m' (s.record (running pc bp argc st) i g) Q) :
    Watched s p k (running pc bp argc st) g Q := by
  refine hc.watched_execute hreads fun o m' hrun hno => ?_
  rcases h o m' hrun with hstop | hnext
  · have hm : x.Covers (running pc bp argc st).pc := covers_running hlow hhigh
    have hreturn : ¬ s.IsReturn pc := not_isReturn_of_ne hc.getElem? hret
    exact absurd (.inl (.atEnd hx hd hm hstop hreturn hcall)) hno
  · exact hnext

theorem Session.Holds.watched_step (hx : x ∈ p.spans) (hd : x.Declares params body)
    (hc : s.Holds pc (i :: c)) (hlow : x.first ≤ pc) (hhigh : pc < x.stop)
    (hret : i.opcode ≠ .ret) (hcall : ¬ s.IsCall pc) (hload : i.opcode ≠ .loadl)
    (he : (execute s.config.haltOnReturn s.sink s.program.size i).run (running pc bp argc st) =
      .ok none (running t bp' argc' st')) (ht : t ≤ x.stop)
    (h : t < x.stop → Watched s p k (running t bp' argc' st')
      (s.record (running pc bp argc st) i g) Q) :
    Watched s p k (running pc bp argc st) g Q := by
  refine hc.watched hx hd hlow hhigh hret hcall (readsOwn_of_ne hc.getElem? hload) ?_
  intro o m' hrun
  rw [he] at hrun
  cases hrun
  by_cases hstop : t = x.stop
  · exact .inl (congrArg Nat.cast hstop)
  · exact .inr fun j hj => (h (by omega)).mono hj.le

theorem Session.Holds.watched_next (hx : x ∈ p.spans) (hd : x.Declares params body)
    (hc : s.Holds pc (i :: c)) (hlow : x.first ≤ pc) (hhigh : pc + 1 < x.stop)
    (hret : i.opcode ≠ .ret) (hjmp : i.opcode ≠ .jmp) (hload : i.opcode ≠ .loadl)
    (he : (execute s.config.haltOnReturn s.sink s.program.size i).run (running pc bp argc st) =
      .ok none (running (pc + 1) bp' argc' st'))
    (h : Watched s p k (running (pc + 1) bp' argc' st') (s.record (running pc bp argc st) i g) Q) :
    Watched s p k (running pc bp argc st) g Q :=
  hc.watched_step hx hd hlow (by omega) hret (not_isCall_of_ne hc.getElem? hjmp) hload he hhigh.le
    fun _ => h

theorem record_push {n : Int} (h : ¬ s.MakesCell pc) :
    s.record (running pc bp argc st) ⟨.push, n⟩ g = g :=
  if_neg h

theorem not_makesCell {n : Nat} (h : s.program[pc]? = some ⟨.push, n⟩) : ¬ s.MakesCell pc := by
  rintro ⟨hi, -⟩
  rw [Int.toNat_natCast, h] at hi
  have hn := congrArg Instruction.operand (Option.some.inj hi)
  simp only [Emitter.placeholder] at hn
  omega

theorem not_makesCell_of_ldpc {n : Int} (hc : s.Holds pc (i :: ⟨.ldpc, n⟩ :: c)) :
    ¬ s.MakesCell pc := by
  rintro ⟨-, hnext⟩
  rw [Int.toNat_natCast, hc.tail.getElem?] at hnext
  exact hnext rfl

end Steps

end StackLang
