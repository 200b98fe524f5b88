import StackLang.Machine.Execute
import Mathlib.Data.List.Basic

namespace StackLang.Machine

/-- A machine that has not halted. -/
def running (pc : Nat) (bp argc : Int) (st : List Int) : Machine where
  stack := st.toArray
  pc := pc
  bp := bp
  argc := argc

@[simp] theorem running_bp (pc : Nat) (bp argc : Int) (st : List Int) :
    (running pc bp argc st).bp = bp :=
  rfl

theorem running_setBp (pc : Nat) (bp b argc : Int) (st : List Int) :
    { running pc bp argc st with bp := b } = running pc b argc st :=
  rfl

/-- A stack after a write: a write above the top fills the cells between. -/
def written (st : List Int) (index : Nat) (v : Int) : List Int :=
  if index < st.length then st.set index v
  else st ++ List.replicate (index - st.length) filler ++ [v]

theorem getElem?_written_self (st : List Int) (index : Nat) (v : Int) :
    (written st index v)[index]? = some v := by
  unfold written
  split
  next h => simp [h]
  next h =>
    have hl : (st ++ List.replicate (index - st.length) filler).length = index := by
      simp only [List.length_append, List.length_replicate]
      omega
    rw [List.getElem?_append_right (by omega), hl]
    simp

theorem getElem?_written_of_ne {st : List Int} {index j : Nat} {w : Int} (h : st[j]? = some w)
    (hj : j ≠ index) (v : Int) : (written st index v)[j]? = some w := by
  have hlt : j < st.length := (List.getElem?_eq_some_iff.mp h).1
  unfold written
  split
  next => rwa [List.getElem?_set_ne (Ne.symm hj)]
  next => rwa [List.append_assoc, List.getElem?_append_left hlt]

theorem length_le_written (st : List Int) (index : Nat) (v : Int) :
    st.length ≤ (written st index v).length := by
  unfold written
  split
  next => simp
  next =>
    simp only [List.length_append]
    omega

theorem take_written {st : List Int} {index k : Nat} (h : k ≤ index) (hk : k ≤ st.length)
    (v : Int) : (written st index v).take k = st.take k := by
  unfold written
  split
  next => rw [List.take_set_of_le h]
  next => rw [List.append_assoc, List.take_append_of_le_length hk]

variable (halting : Bool) (sink : Sink) (size : Nat)

section Effects

variable {halting sink size} {i : Instruction} {m : Machine} {pc : Nat} {bp argc : Int}
  {st : List Int}

theorem execute_of_effect (h : (effect halting sink i).run m = .ok {} (running pc bp argc st)) :
    (execute halting sink size i).run m = .ok none (running (pc + 1) bp argc st) := by
  simp only [execute, EStateM.run_bind, h]
  rfl

theorem execute_of_target {target : Nat} (ht : target ≤ size)
    (h : (effect halting sink i).run m = .ok { target := some target } (running pc bp argc st)) :
    (execute halting sink size i).run m = .ok none (running target bp argc st) := by
  have hj : (jump i.opcode size target).run (running pc bp argc st) =
      .ok () (running target bp argc st) := if_pos ⟨by omega, by omega⟩
  simp only [execute, EStateM.run_bind, h, hj]
  rfl

theorem run_push_running (v : Int) :
    (push v).run (running pc bp argc st) = .ok () (running pc bp argc (st ++ [v])) := by
  simp [running]

theorem run_pop_running (v : Int) :
    pop.run (running pc bp argc (st ++ [v])) = .ok v (running pc bp argc st) := by
  simp [run_pop, running]

theorem run_read_running {index : Nat} {v : Int} (h : st[index]? = some v) :
    (read index).run (running pc bp argc st) = .ok v (running pc bp argc st) := by
  have hr : (if (0 : Int) ≤ index then (running pc bp argc st).stack[(index : Int).toNat]?
      else none) = some v := by
    simpa [running] using h
  simp only [EStateM.run, read, hr]

theorem run_write_running {index : Nat} (v : Int) (h : index - st.length + 1 ≤ maxGrowth) :
    (write index v).run (running pc bp argc st) =
      .ok () (running pc bp argc (written st index v)) := by
  simp only [EStateM.run, write, running, Int.toNat_natCast, List.size_toArray]
  rw [if_neg (by omega)]
  unfold written
  split
  next => simp
  next =>
    rw [if_neg (by omega)]
    simp

theorem run_truncate_running {k : Nat} (h : k < st.length) :
    (truncate k).run (running pc bp argc st) = .ok () (running pc bp argc (st.take (k + 1))) := by
  have ht : -1 ≤ (k : Int) ∧ (k : Int) < (running pc bp argc st).stack.size := by
    simp only [running, List.size_toArray]
    omega
  simp only [EStateM.run, truncate, if_pos ht]
  simp [running]

end Effects

variable {pc : Nat} {bp argc : Int} {st : List Int}

theorem execute_push (n : Int) :
    (execute halting sink size ⟨.push, n⟩).run (running pc bp argc st) =
      .ok none (running (pc + 1) bp argc (st ++ [n])) := by
  apply execute_of_effect
  simp only [effect, EStateM.run_bind, run_push_running, EStateM.run_pure]

theorem execute_binary {op : Operator} {a b v : Int} (h : op.eval? a b = some v) :
    (execute halting sink size ⟨.binary op, 0⟩).run (running pc bp argc (st ++ [b] ++ [a])) =
      .ok none (running (pc + 1) bp argc (st ++ [v])) := by
  apply execute_of_effect
  simp only [effect, operate, EStateM.run_bind, run_pop_running, h, run_push_running,
    EStateM.run_pure]

theorem execute_beq0_zero {target : Nat} (h : target ≤ size) :
    (execute halting sink size ⟨.beq0, target⟩).run (running pc bp argc (st ++ [0])) =
      .ok none (running target bp argc st) := by
  apply execute_of_target h
  simp only [effect, EStateM.run_bind, run_pop_running, if_true, EStateM.run_pure]
  rfl

theorem execute_beq0_ne {target : Int} {v : Int} (h : v ≠ 0) :
    (execute halting sink size ⟨.beq0, target⟩).run (running pc bp argc (st ++ [v])) =
      .ok none (running (pc + 1) bp argc st) := by
  apply execute_of_effect
  simp only [effect, EStateM.run_bind, run_pop_running, if_neg h, EStateM.run_pure]

theorem execute_jmp {target : Nat} (h : target ≤ size) :
    (execute halting sink size ⟨.jmp, target⟩).run (running pc bp argc st) =
      .ok none (running target bp argc st) :=
  execute_of_target h rfl

theorem execute_loadl {b slot : Nat} {v : Int} (h : st[b + slot + 1]? = some v) :
    (execute halting sink size ⟨.loadl, slot⟩).run (running pc b argc st) =
      .ok none (running (pc + 1) b argc (st ++ [v])) := by
  apply execute_of_effect
  have hi : (running pc b argc st).localIndex slot = ((b + slot + 1 : Nat) : Int) := by
    simp [running, localIndex]
  simp only [effect, EStateM.run_bind, EStateM.run_get, hi, run_read_running h, run_push_running,
    EStateM.run_pure]

theorem execute_loada {b slot : Nat} {v : Int} (hb : slot < b) (h : st[b - slot - 1]? = some v) :
    (execute halting sink size ⟨.loada, slot⟩).run (running pc b argc st) =
      .ok none (running (pc + 1) b argc (st ++ [v])) := by
  apply execute_of_effect
  have hi : (running pc b argc st).paramIndex slot = ((b - slot - 1 : Nat) : Int) := by
    simp only [running, paramIndex]
    omega
  simp only [effect, EStateM.run_bind, EStateM.run_get, hi, run_read_running h, run_push_running,
    EStateM.run_pure]

theorem execute_ldbp :
    (execute halting sink size ⟨.ldbp, 0⟩).run (running pc bp argc st) =
      .ok none (running (pc + 1) bp argc (st ++ [bp])) := by
  apply execute_of_effect
  simp only [effect, EStateM.run_bind, EStateM.run_get, run_push_running, EStateM.run_pure]
  rfl

theorem execute_ldsp :
    (execute halting sink size ⟨.ldsp, 0⟩).run (running pc bp argc st) =
      .ok none (running (pc + 1) bp argc (st ++ [(st.length : Int) - 1])) := by
  apply execute_of_effect
  simp only [effect, EStateM.run_bind, EStateM.run_get, run_push_running, EStateM.run_pure]
  rfl

theorem execute_strbp (v : Int) :
    (execute halting sink size ⟨.strbp, 0⟩).run (running pc bp argc (st ++ [v])) =
      .ok none (running (pc + 1) v argc st) := by
  apply execute_of_effect
  simp only [effect, EStateM.run_bind, run_pop_running, EStateM.run_pure]
  rfl

theorem execute_ldpc (n : Nat) :
    (execute halting sink size ⟨.ldpc, n⟩).run (running pc bp argc st) =
      .ok none (running (pc + 1) bp argc (st ++ [((pc + n : Nat) : Int)])) := by
  apply execute_of_effect
  simp only [effect, EStateM.run_bind, EStateM.run_get, run_push_running, EStateM.run_pure]
  rfl

theorem execute_strargc (v : Int) :
    (execute halting sink size ⟨.strargc, 0⟩).run (running pc bp argc (st ++ [v])) =
      .ok none (running (pc + 1) bp v st) := by
  apply execute_of_effect
  simp only [effect, EStateM.run_bind, run_pop_running, EStateM.run_pure]
  rfl

theorem execute_storel {b slot : Nat} (v : Int) (hb : b < st.length) (hs : slot + 1 ≤ maxGrowth) :
    (execute halting sink size ⟨.storel, slot⟩).run (running pc b argc (st ++ [v])) =
      .ok none (running (pc + 1) b argc (written st (b + slot + 1) v)) := by
  apply execute_of_effect
  have hi : (running pc b argc (st ++ [v])).localIndex slot = ((b + slot + 1 : Nat) : Int) := by
    simp [running, localIndex]
  have hw : (write ((b + slot + 1 : Nat) : Int) v).run (running pc b argc st) =
      .ok () (running pc b argc (written st (b + slot + 1) v)) := run_write_running v (by omega)
  simp only [effect, EStateM.run_bind, EStateM.run_get, hi, run_pop_running, hw, EStateM.run_pure]

theorem run_returnFrame {n b : Nat} {S args X : List Int} {cell target saved v : Int}
    (hb : b = S.length + 2 + n) (hn : args.length = n) :
    returnFrame.run (running pc b n (S ++ cell :: target :: (args ++ saved :: X) ++ [v])) =
      .ok target (running pc saved n (S ++ [v])) := by
  have hcell : (running pc b n (S ++ cell :: target :: (args ++ saved :: X))).returnCellIndex =
      (S.length : Int) := by
    simp only [returnCellIndex, running]
    omega
  have hwrite : (write (S.length : Int) v).run
        (running pc b n (S ++ cell :: target :: (args ++ saved :: X))) =
      .ok () (running pc b n (S ++ v :: target :: (args ++ saved :: X))) := by
    rw [run_write_running v (by simp [maxGrowth])]
    simp [written]
  have haddress : (running pc b n (S ++ v :: target :: (args ++ saved :: X))).returnAddressIndex =
      ((S.length + 1 : Nat) : Int) := by
    simp only [returnAddressIndex, running]
    omega
  have htarget : (read ((S.length + 1 : Nat) : Int)).run
        (running pc b n (S ++ v :: target :: (args ++ saved :: X))) =
      .ok target (running pc b n (S ++ v :: target :: (args ++ saved :: X))) :=
    run_read_running (by simp)
  have hsaved : (read (b : Int)).run
        (running pc b n (S ++ v :: target :: (args ++ saved :: X))) =
      .ok saved (running pc b n (S ++ v :: target :: (args ++ saved :: X))) := by
    apply run_read_running
    rw [hb, List.getElem?_append_right (by omega)]
    simp [← hn, show S.length + 2 + args.length - S.length = args.length + 1 + 1 by omega]
  have htruncate : (truncate (S.length : Int)).run
        (running pc saved n (S ++ v :: target :: (args ++ saved :: X))) =
      .ok () (running pc saved n (S ++ [v])) := by
    rw [run_truncate_running (by simp), List.append_cons, List.take_left' (by simp)]
  simp only [returnFrame, EStateM.run_bind, run_pop_running, EStateM.run_get, hcell, hwrite,
    haddress, htarget, running_bp, hsaved, EStateM.run_modify, running_setBp, htruncate,
    EStateM.run_pure]

/-- Return from a frame with `n` arguments, whatever stands above its base. -/
theorem execute_ret {n target b : Nat} {S args X : List Int} {cell saved v : Int}
    (hb : b = S.length + 2 + n) (hn : args.length = n) (ht : target ≤ size) :
    (execute halting sink size ⟨.ret, 0⟩).run
        (running pc b n (S ++ cell :: (target : Int) :: (args ++ saved :: X) ++ [v])) =
      .ok none (running target saved n (S ++ [v])) := by
  apply execute_of_target ht
  have hframe : (running pc b n (S ++ cell :: (target : Int) :: (args ++ saved :: X) ++
      [v])).inToplevelFrame = false := by
    have hne : b ≠ 0 := by omega
    simp [inToplevelFrame, hne]
  simp only [effect, EStateM.run_bind, EStateM.run_get, hframe, Bool.false_eq_true, if_false,
    run_returnFrame hb hn]
  rfl

theorem execute_ret_toplevel {x v : Int} :
    (execute true sink size ⟨.ret, 0⟩).run (running pc 0 argc (x :: st ++ [v])) =
      .ok none { running (pc + 1) 0 argc (v :: st) with halted := true } := by
  have hframe : (running pc 0 argc (x :: st ++ [v])).inToplevelFrame = true := rfl
  have hwrite : (write 0 v).run (running pc 0 argc (x :: st)) =
      .ok () (running pc 0 argc (v :: st)) := by
    have h : (write (0 : Nat) v).run (running pc 0 argc (x :: st)) =
        .ok () (running pc 0 argc (written (x :: st) 0 v)) :=
      run_write_running v (by simp [maxGrowth])
    simpa [written] using h
  simp only [execute, effect, EStateM.run_bind, EStateM.run_get, hframe, returnToplevel, if_true,
    run_pop_running, hwrite]
  rfl

end StackLang.Machine
