import StackLang.Instruction.Listing
import StackLang.Proofs.Numerals

namespace StackLang

namespace Text

theorem isBlank_of_isLineBreak {c : Char} (h : isLineBreak c = true) : isBlank c = true := by
  simp only [isLineBreak, inRanges, lineBreakRanges, List.any_cons, List.any_nil, Bool.or_false,
    Bool.or_eq_true, Bool.and_eq_true, decide_eq_true_eq] at h
  simp only [isBlank, inRanges, blankRanges, List.any_cons, List.any_nil, Bool.or_false,
    Bool.or_eq_true, Bool.and_eq_true, decide_eq_true_eq]
  omega

theorem words_append {w : List Char} (hne : w ≠ []) (hw : ∀ c ∈ w, isBlank c = false)
    (rest : List Char) : words (w ++ ' ' :: rest) = w :: words rest := by
  induction w with
  | nil => exact absurd rfl hne
  | cons c w ih =>
    have hc : isBlank c = false := hw c List.mem_cons_self
    cases w with
    | nil =>
      have hspace : isBlank ' ' = true := by decide
      simp only [List.cons_append, List.nil_append, words, hc, hspace, Bool.false_eq_true, if_true,
        if_false]
    | cons d w =>
      have hd : isBlank d = false := hw d (by simp)
      have hrest := ih (by simp) fun x hx => hw x (List.mem_cons_of_mem c hx)
      rw [List.cons_append, List.cons_append, words]
      rw [List.cons_append] at hrest
      simp only [hc, hd, hrest, Bool.false_eq_true, if_false]

theorem words_single {w : List Char} (hne : w ≠ []) (hw : ∀ c ∈ w, isBlank c = false) :
    words w = [w] := by
  induction w with
  | nil => exact absurd rfl hne
  | cons c w ih =>
    have hc : isBlank c = false := hw c List.mem_cons_self
    cases w with
    | nil => simp [words, hc]
    | cons d w =>
      have hd : isBlank d = false := hw d (by simp)
      have hrest := ih (by simp) fun x hx => hw x (List.mem_cons_of_mem c hx)
      rw [words]
      simp only [hc, hd, hrest, Bool.false_eq_true, if_false]

theorem lines_append {l : List Char} (hl : ∀ c ∈ l, isLineBreak c = false) (rest : List Char) :
    lines (l ++ '\n' :: rest) = l :: lines rest := by
  induction l with
  | nil =>
    have hfeed : isLineBreak '\n' = true := by decide
    rw [List.nil_append, lines, if_pos hfeed]
    exact fun cs h => nomatch h
  | cons c l ih =>
    have hc : isLineBreak c = false := hl c List.mem_cons_self
    have hreturn : c ≠ '\r' := by
      rintro rfl
      exact absurd hc (by decide)
    have hrest := ih fun x hx => hl x (List.mem_cons_of_mem c hx)
    rw [List.cons_append, lines, hrest, hc]
    · rfl
    · exact fun cs h => absurd h hreturn

theorem lines_join {ls : List String} (hls : ∀ l ∈ ls, ∀ c ∈ l.toList, isLineBreak c = false) :
    lines (String.join (ls.map (· ++ "\n"))).toList = ls.map String.toList := by
  rw [String.toList_join, List.flatMap_map]
  induction ls with
  | nil => rfl
  | cons l ls ih =>
    have hl := lines_append (hls l List.mem_cons_self)
    rw [List.flatMap_cons, List.map_cons, String.toList_append,
      ← ih fun x hx => hls x (List.mem_cons_of_mem l hx), ← hl, List.append_assoc]
    rfl

end Text

namespace Opcode

theorem ofMnemonic?_mnemonic : ∀ op ∈ known, ofMnemonic? op.mnemonic = some op := by
  decide

theorem mnemonic_plain : ∀ op ∈ known, op.mnemonic.toList ≠ [] ∧
    (∀ c ∈ op.mnemonic.toList, Text.isBlank c = false) ∧ op.mnemonic ≠ Listing.closing := by
  -- Computed over the characters of each mnemonic, not over all characters.
  have hknown : ∀ op ∈ known, op.mnemonic.toList ≠ [] ∧
      (op.mnemonic.toList.all fun c => !Text.isBlank c) = true ∧ op.mnemonic ≠ Listing.closing := by
    decide
  intro op hop
  obtain ⟨hne, hplain, hclosing⟩ := hknown op hop
  refine ⟨hne, fun c hc => ?_, hclosing⟩
  simpa using List.all_eq_true.mp hplain c hc

end Opcode

namespace Instruction

/-- The instruction without an operand that means nothing. -/
def normal (i : Instruction) : Instruction :=
  if i.opcode.hasOperand then i else ⟨i.opcode, 0⟩

variable {i : Instruction} {line : String}

theorem text_cases (h : i.text = .ok line) :
    (i.opcode.hasOperand = true ∧ Numeral.Writable i.operand ∧
      line.toList = i.opcode.mnemonic.toList ++ ' ' :: (Numeral.text i.operand).toList) ∨
    (i.opcode.hasOperand = false ∧ line.toList = i.opcode.mnemonic.toList) := by
  unfold text at h
  split at h
  next hop =>
    left
    unfold Numeral.write at h
    split at h
    next hw =>
      cases h
      refine ⟨hop, hw, ?_⟩
      rw [String.toList_append, String.toList_append, List.append_assoc]
      rfl
    next => cases h
  next hop =>
    cases h
    exact .inr ⟨by simpa using hop, rfl⟩

theorem isLineBreak_of_mem_text (hi : i.opcode ∈ Opcode.known) (h : i.text = .ok line) {c : Char}
    (hc : c ∈ line.toList) : Text.isLineBreak c = false := by
  have hplain : Text.isBlank c = false → Text.isLineBreak c = false := by
    intro hb
    rw [← Bool.not_eq_true] at hb ⊢
    exact fun hl => hb (Text.isBlank_of_isLineBreak hl)
  obtain ⟨-, hm, -⟩ := Opcode.mnemonic_plain i.opcode hi
  rcases text_cases h with ⟨-, -, hline⟩ | ⟨-, hline⟩
  · rw [hline] at hc
    rcases List.mem_append.mp hc with hc | hc
    · exact hplain (hm c hc)
    · rcases List.mem_cons.mp hc with rfl | hc
      · decide
      · exact hplain (Numeral.isBlank_of_mem_text hc)
  · rw [hline] at hc
    exact hplain (hm c hc)

/-- A line has no blanks at its ends, and it is not the closing one. -/
theorem trim_text (hi : i.opcode ∈ Opcode.known) (h : i.text = .ok line) :
    Text.trim line.toList = line.toList ∧ line.toList ≠ [] ∧
      line.toList ≠ Listing.closing.toList := by
  obtain ⟨hne, hm, hclosing⟩ := Opcode.mnemonic_plain i.opcode hi
  rcases text_cases h with ⟨-, -, hline⟩ | ⟨-, hline⟩
  · rw [hline]
    refine ⟨Text.trimBy_eq_self (fun c hc => ?_) fun c hc => ?_, by simp, fun hstack => ?_⟩
    · rw [List.head?_append_of_ne_nil _ hne] at hc
      exact hm c (List.mem_of_head? hc)
    · rw [List.getLast?_append_of_ne_nil _ (by simp), List.getLast?_cons_of_ne_nil
        (Numeral.text_ne_nil _)] at hc
      exact Numeral.isBlank_of_mem_text (List.mem_of_getLast? hc)
    · have hspace : ' ' ∈ Listing.closing.toList := by
        rw [← hstack]
        simp
      exact absurd hspace (by decide)
  · rw [hline]
    refine ⟨Text.trimBy_eq_self (fun c hc => ?_) fun c hc => ?_, hne, fun hstack => ?_⟩
    · exact hm c (List.mem_of_head? hc)
    · exact hm c (List.mem_of_getLast? hc)
    · exact hclosing (String.toList_inj.mp hstack)

end Instruction

namespace Listing

theorem opcode_mnemonic {op : Opcode} (h : op ∈ Opcode.known) (n : Int) :
    parseLine.opcode n op.mnemonic.toList = .ok op := by
  rw [parseLine.opcode, String.ofList_toList, Opcode.ofMnemonic?_mnemonic op h]

theorem parseLine_text {i : Instruction} {line : String} (hi : i.opcode ∈ Opcode.known)
    (h : i.text = .ok line) (n : Int) : parseLine n line.toList = .ok i.normal := by
  obtain ⟨hne, hm, -⟩ := Opcode.mnemonic_plain i.opcode hi
  rcases Instruction.text_cases h with ⟨hop, hw, hline⟩ | ⟨hop, hline⟩
  · have hwords : Text.words line.toList =
        [i.opcode.mnemonic.toList, (Numeral.text i.operand).toList] := by
      rw [hline, Text.words_append hne hm, Text.words_single (Numeral.text_ne_nil _)
        fun c hc => Numeral.isBlank_of_mem_text hc]
    rw [parseLine, hwords]
    simp only [opcode_mnemonic hi, Numeral.read?_text hw]
    rw [Instruction.normal, if_pos hop]
    rfl
  · rw [parseLine, hline, Text.words_single hne hm]
    simp only [opcode_mnemonic hi]
    rw [Instruction.normal, if_neg (by simp [hop])]
    rfl

theorem texts_of_mapM {is : List Instruction} {ls : List String}
    (h : is.mapM Instruction.text = .ok ls) :
    List.Forall₂ (fun i l => i.text = .ok l) is ls := by
  induction is generalizing ls with
  | nil =>
    cases h
    exact .nil
  | cons i is ih =>
    rw [List.mapM_cons] at h
    cases htext : i.text with
    | error e =>
      rw [htext] at h
      cases h
    | ok line =>
      cases hrest : is.mapM Instruction.text with
      | error e =>
        rw [htext, hrest] at h
        cases h
      | ok rest =>
        rw [htext, hrest] at h
        cases h
        exact .cons htext (ih hrest)

section Texts

variable {is : List Instruction} {ls : List String}

theorem isLineBreak_of_mem_texts (h : List.Forall₂ (fun i l => i.text = .ok l) is ls)
    (hknown : ∀ i ∈ is, i.opcode ∈ Opcode.known) :
    ∀ l ∈ ls, ∀ c ∈ l.toList, Text.isLineBreak c = false := by
  induction h with
  | nil => nofun
  | cons htext _ ih =>
    intro l hl c hc
    rcases List.mem_cons.mp hl with rfl | hl
    · exact Instruction.isLineBreak_of_mem_text (hknown _ List.mem_cons_self) htext hc
    · exact ih (fun x hx => hknown x (List.mem_cons_of_mem _ hx)) l hl c hc

theorem parseLines_texts (h : List.Forall₂ (fun i l => i.text = .ok l) is ls)
    (hknown : ∀ i ∈ is, i.opcode ∈ Opcode.known) {tail : List (List Char)}
    (htail : ∀ n, parseLines n tail = .ok []) (n : Nat) :
    parseLines n (ls.map String.toList ++ tail) = .ok (is.map Instruction.normal) := by
  induction h generalizing n with
  | nil => exact htail n
  | @cons i line is ls htext _ ih =>
    have hi := hknown i List.mem_cons_self
    obtain ⟨htrim, hne, hclosing⟩ := Instruction.trim_text hi htext
    have hrest := ih (fun x hx => hknown x (List.mem_cons_of_mem i hx)) (n + 1)
    rw [List.map_cons, List.cons_append, parseLines]
    simp only [htrim, if_neg hne, if_neg hclosing, parseLine_text hi htext, hrest]
    rfl

end Texts

theorem isLineBreak_of_mem_closing {c : Char} (hc : c ∈ closing.toList) :
    Text.isLineBreak c = false := by
  have hplain : (closing.toList.all fun c => !Text.isLineBreak c) = true := by decide
  simpa using List.all_eq_true.mp hplain c hc

/-- Reading a listing inverts writing it, but for operands that mean nothing. -/
theorem parse_format {is : List Instruction} (hknown : ∀ i ∈ is, i.opcode ∈ Opcode.known)
    {close : Bool} {text : String} (h : format is close = .ok text) :
    parse text = .ok (is.map Instruction.normal) := by
  unfold format at h
  cases hmap : is.mapM Instruction.text with
  | error e =>
    rw [hmap] at h
    cases h
  | ok ls =>
    rw [hmap] at h
    cases h
    have htexts := texts_of_mapM hmap
    have hlast : (∀ l ∈ if close then [closing] else [], ∀ c ∈ l.toList,
        Text.isLineBreak c = false) ∧
        ∀ n, parseLines n ((if close then [closing] else []).map String.toList) = .ok [] := by
      cases close with
      | false => exact ⟨nofun, fun _ => rfl⟩
      | true =>
        refine ⟨fun l hl c hc => ?_, fun _ => rfl⟩
        rw [List.mem_singleton.mp hl] at hc
        exact isLineBreak_of_mem_closing hc
    have hbreaks := List.forall_mem_append.mpr
      ⟨isLineBreak_of_mem_texts htexts hknown, hlast.1⟩
    rw [parse, Text.lines_join hbreaks, List.map_append]
    exact parseLines_texts htexts hknown hlast.2 1

end Listing

end StackLang
