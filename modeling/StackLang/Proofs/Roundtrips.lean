import StackLang.Proofs.Targets
import StackLang.Proofs.Transfer
import Mathlib.Data.Nat.Digits.Lemmas

namespace StackLang

theorem Numeral.writable_iff_digits {n : Int} :
    Writable n ↔ (Nat.digits 10 n.natAbs).length ≤ maxDigits := by
  rw [writable_iff, Nat.digits_length_le_iff (by decide)]

namespace Instruction

/-- The operand would be written, and it is too long. -/
def Overlong (i : Instruction) : Prop :=
  i.opcode.hasOperand = true ∧ maxDigits < (Nat.digits 10 i.operand.natAbs).length

theorem overlong_or_text (i : Instruction) :
    (i.Overlong ∧ i.text = .error .tooManyDigits) ∨ (¬ i.Overlong ∧ ∃ line, i.text = .ok line) := by
  unfold Overlong text
  split
  next hop =>
    by_cases hw : Numeral.Writable i.operand
    · have hshort := Numeral.writable_iff_digits.mp hw
      refine .inr ⟨fun h => by omega, i.opcode.mnemonic ++ " " ++ Numeral.text i.operand, ?_⟩
      rw [Numeral.write, if_pos hw]
      rfl
    · have hlong := Nat.lt_of_not_le (mt Numeral.writable_iff_digits.mpr hw)
      refine .inl ⟨⟨hop, hlong⟩, ?_⟩
      rw [Numeral.write, if_neg hw]
      rfl
  next hop => exact .inr ⟨fun h => hop h.1, _, rfl⟩

theorem map_normal {is : List Instruction}
    (h : ∀ i ∈ is, i.opcode.hasOperand = false → i.operand = 0) : is.map normal = is := by
  have hnormal : ∀ i ∈ is, i.normal = i := by
    intro i hi
    unfold normal
    split
    next => rfl
    next hop => rw [← h i hi (by simpa using hop)]
  rw [List.map_congr_left hnormal, List.map_id']

end Instruction

namespace Listing

theorem overlong_or_texts (is : List Instruction) :
    ((∃ i ∈ is, i.Overlong) ∧ is.mapM Instruction.text = .error .tooManyDigits) ∨
      ((¬ ∃ i ∈ is, i.Overlong) ∧ ∃ ls, is.mapM Instruction.text = .ok ls) := by
  induction is with
  | nil => exact .inr ⟨by simp, [], rfl⟩
  | cons i is ih =>
    simp only [List.mapM_cons, List.exists_mem_cons_iff, not_or]
    rcases i.overlong_or_text with ⟨hi, htext⟩ | ⟨hi, line, htext⟩
    · rw [htext]
      exact .inl ⟨.inl hi, rfl⟩
    · rw [htext]
      rcases ih with ⟨his, hrest⟩ | ⟨his, ls, hrest⟩
      · rw [hrest]
        exact .inl ⟨.inr his, rfl⟩
      · rw [hrest]
        exact .inr ⟨⟨hi, his⟩, line :: ls, rfl⟩

/-- A program has a listing unless an operand is too long, closed or not. -/
theorem overlong_or_format (is : List Instruction) (close : Bool) :
    ((∃ i ∈ is, i.Overlong) ∧ format is close = .error .tooManyDigits) ∨
      ((¬ ∃ i ∈ is, i.Overlong) ∧ ∃ text, format is close = .ok text) := by
  unfold format
  rcases overlong_or_texts is with ⟨hlong, htexts⟩ | ⟨hshort, ls, htexts⟩
  · rw [htexts]
    exact .inl ⟨hlong, rfl⟩
  · rw [htexts]
    exact .inr ⟨hshort, _, rfl⟩

end Listing

namespace Pipeline

open PipelineM

variable {source : String} {t t' : Transcript} {code : List Instruction}

theorem compile_normal (h : (compile source).run t = .ok code t') :
    code.map Instruction.normal = code := by
  simp only [compile, run_bind_eq_ok] at h
  obtain ⟨_, _, _, ts, _, -, p, _, -, s, _, hemit, h⟩ := h
  cases h
  have hfragment := (generate_fragment (emit_ok hemit)).1
  exact Instruction.map_normal fun i hi => (hfragment.opcode i hi).2

theorem dumpListing_eq (h : (compile source).run t = .ok code t') :
    (dumpListing source).run t = (written (Listing.format code true)).run t' :=
  run_bind_of_ok h

end Pipeline

/-- A program can be written as a listing, closed or not, unless an operand has too many digits, and
the listing reads back as the program without its operands that mean nothing. Compiled code has no
such operands, so the listing of a source text reads back as its code. -/
theorem listing_reads_back :
    (∀ (is : List Instruction) (close : Bool), (∀ i ∈ is, i.opcode ∈ Opcode.known) →
      (Listing.format is close = .error .tooManyDigits ↔ ∃ i ∈ is, i.Overlong) ∧
      ((¬ ∃ i ∈ is, i.Overlong) → ∃ text, Listing.format is close = .ok text ∧
        Listing.parse text = .ok (is.map Instruction.normal))) ∧
    ∀ (source : String) (t : Transcript),
      (∀ text t', (Pipeline.dumpListing source).run t = .ok text t' →
        ∃ code t₁, (Pipeline.compile source).run t = .ok code t₁ ∧
          (Pipeline.loadListing text).Gives code) ∧
      ∀ code t₁, (Pipeline.compile source).run t = .ok code t₁ → (¬ ∃ i ∈ code, i.Overlong) →
        ∃ text t', (Pipeline.dumpListing source).run t = .ok text t' := by
  refine ⟨fun is close hknown => ?_, fun source t => ⟨fun text t' hdump => ?_, ?_⟩⟩
  · rcases Listing.overlong_or_format is close with ⟨hlong, hformat⟩ | ⟨hshort, text, hformat⟩
    · exact ⟨iff_of_true hformat hlong, fun hshort => absurd hlong hshort⟩
    · have hne : Listing.format is close ≠ .error .tooManyDigits := by simp [hformat]
      exact ⟨iff_of_false hne hshort, fun _ => ⟨text, hformat, Listing.parse_format hknown hformat⟩⟩
  · obtain ⟨code, t₁, hcompile, hformat⟩ := Pipeline.dumpListing_ok hdump
    have hparse := Listing.parse_format (Pipeline.compile_known hcompile) hformat
    rw [Pipeline.compile_normal hcompile] at hparse
    exact ⟨code, t₁, hcompile, Pipeline.loadListing_gives hparse⟩
  · intro code t₁ hcompile hshort
    rcases Listing.overlong_or_format code true with ⟨hlong, -⟩ | ⟨-, text, hformat⟩
    · exact absurd hlong hshort
    · refine ⟨text, t₁, ?_⟩
      rw [Pipeline.dumpListing_eq hcompile, hformat]
      rfl

/-- An integer that is too long keeps no listing from being written as a stray operand, but does so
as an operand that means something. -/
theorem listing_reads_back_long_operand :
    let z : Int := Nat.pow 10 maxDigits
    (∃ text, Listing.format [⟨.push, -12⟩, ⟨.print, z⟩] false = .ok text ∧
      Listing.parse text = .ok [⟨.push, -12⟩, ⟨.print, 0⟩]) ∧
    Listing.format [⟨.print, 0⟩, ⟨.push, -z⟩] true = .error .tooManyDigits ∧
    (∃ text, Listing.format [] false = .ok text ∧ Listing.parse text = .ok []) ∧
    ∃ text t', (Pipeline.dumpListing "function main(){return 1;}").run {} = .ok text t' ∧
      ∃ code t₁, (Pipeline.compile "function main(){return 1;}").run {} = .ok code t₁ ∧
        (Pipeline.loadListing text).Gives code := by
  intro z
  have hlong : Instruction.Overlong ⟨.push, -z⟩ := by
    have habs : z.natAbs = Nat.pow 10 maxDigits := Int.natAbs_natCast (Nat.pow 10 maxDigits)
    refine ⟨rfl, Nat.lt_of_not_le fun hshort => ?_⟩
    have hwritable : Numeral.Writable (-z) := Numeral.writable_iff_digits.mpr hshort
    rw [Numeral.Writable, Int.natAbs_neg, habs] at hwritable
    exact Nat.lt_irrefl _ hwritable
  clear_value z
  have hprinted : ¬ ∃ i ∈ ([⟨.push, -12⟩, ⟨.print, z⟩] : List Instruction), i.Overlong := by
    have hpush : ¬ Instruction.Overlong ⟨.push, -12⟩ := fun h => absurd h.2 (by simp [maxDigits])
    have hprint : ¬ Instruction.Overlong ⟨.print, z⟩ := fun h => Bool.false_ne_true h.1
    simp [hpush, hprint]
  obtain ⟨hformats, hdumps⟩ := listing_reads_back
  obtain ⟨text, t', hdump⟩ := exists_of_run_ok
    (x := Pipeline.dumpListing "function main(){return 1;}") (s := {}) (by decide +kernel)
  refine ⟨?_, ?_, ?_, text, t', hdump, (hdumps _ _).1 text t' hdump⟩
  · exact (hformats [⟨.push, -12⟩, ⟨.print, z⟩] false (by simp [Opcode.known])).2 hprinted
  · exact (hformats [⟨.print, 0⟩, ⟨.push, -z⟩] true (by simp [Opcode.known])).1.mpr
      ⟨_, List.mem_cons_of_mem _ List.mem_cons_self, hlong⟩
  · exact (hformats [] false (by simp)).2 (by simp)

end StackLang
