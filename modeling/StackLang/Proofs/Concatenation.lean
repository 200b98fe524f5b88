import StackLang.Proofs.Listings

namespace StackLang

namespace Text

/-- The text consists of whole lines: it is empty or ends with a line break. -/
def EndsLine (cs : List Char) : Prop :=
  ∀ c ∈ cs.getLast?, isLineBreak c = true

instance (cs : List Char) : Decidable (EndsLine cs) :=
  Option.decidableForallMem cs.getLast?

/-- Between the two texts a carriage return meets a line feed. -/
def Meet (a b : List Char) : Prop :=
  '\r' ∈ a.getLast? ∧ '\n' ∈ b.head?

instance (a b : List Char) : Decidable (Meet a b) :=
  inferInstanceAs (Decidable (_ ∧ _))

theorem EndsLine.tail {c : Char} {cs : List Char} (h : EndsLine (c :: cs)) : EndsLine cs := by
  intro d hd
  apply h d
  rw [List.getLast?_cons, Option.mem_def.mp hd]
  rfl

theorem Meet.cons {c : Char} {a b : List Char} (h : Meet a b) : Meet (c :: a) b := by
  refine ⟨?_, h.2⟩
  rw [List.getLast?_cons, Option.mem_def.mp h.1]
  rfl

theorem lines_ne_nil {cs : List Char} (h : cs ≠ []) : lines cs ≠ [] := by
  fun_cases lines cs with
  | case1 => exact absurd rfl h
  | case2 cs => exact List.cons_ne_nil _ _
  | case3 c cs _ hbreak => exact List.cons_ne_nil _ _
  | case4 c cs _ _ hrest => exact List.cons_ne_nil _ _
  | case5 c cs _ _ l ls hrest => exact List.cons_ne_nil _ _

theorem no_newline_append {c : Char} {a b : List Char}
    (h : ∀ cs, c = '\r' → a = '\n' :: cs → False) (hmeet : ¬ Meet (c :: a) b) :
    ∀ cs, c = '\r' → a ++ b = '\n' :: cs → False := by
  intro cs hc hcs
  cases a with
  | nil =>
    apply hmeet
    rw [hc, show b = '\n' :: cs from hcs]
    exact ⟨rfl, rfl⟩
  | cons d a =>
    obtain ⟨rfl, -⟩ := List.cons.inj hcs
    exact h a hc rfl

theorem lines_append_lines {a b : List Char} (ha : EndsLine a) (hmeet : ¬ Meet a b) :
    lines (a ++ b) = lines a ++ lines b := by
  fun_induction lines a with
  | case1 => rfl
  | case2 a ih =>
    have hrest := ih ha.tail.tail fun h => hmeet h.cons.cons
    rw [List.cons_append, List.cons_append, lines, hrest, List.cons_append]
  | case3 c a hcrlf hbreak ih =>
    have hrest := ih ha.tail fun h => hmeet h.cons
    rw [List.cons_append, lines, if_pos hbreak, hrest, List.cons_append]
    exact no_newline_append hcrlf hmeet
  | case4 c a _ hbreak hnil ih =>
    -- The last character of the text would be no line break.
    have hempty : a = [] := by
      by_contra hne
      exact lines_ne_nil hne hnil
    subst hempty
    exact absurd (ha c rfl) hbreak
  | case5 c a hcrlf hbreak l ls hcons ih =>
    have hrest := ih ha.tail fun h => hmeet h.cons
    rw [hcons, List.cons_append] at hrest
    rw [List.cons_append, lines, if_neg hbreak, hrest]
    · rfl
    · exact no_newline_append hcrlf hmeet

end Text

namespace ListingError

def numbered (n : Int) : ListingError → ListingError
  | wordCount _ s => wordCount n s
  | mnemonic _ s => mnemonic n s
  | operand _ s => operand n s

/-- The error with `k` more lines in front. -/
def lowered (k : Nat) (e : ListingError) : ListingError :=
  e.numbered (e.line + k)

@[simp] theorem line_numbered (n : Int) (e : ListingError) : (e.numbered n).line = n := by
  cases e with
  | _ => rfl

@[simp] theorem numbered_numbered (m n : Int) (e : ListingError) :
    (e.numbered m).numbered n = e.numbered n := by
  cases e with
  | _ => rfl

/-- What is said of the error if its line has number `n`. -/
def textAt (n : Int) : ListingError → String
  | wordCount _ s => "ListingError: Malformed instruction listing: line " ++ Numeral.text n ++
      ": expected 'mnemonic [operand]', got " ++ Text.quoted s
  | mnemonic _ s => "ListingError: Unknown opcode: line " ++ Numeral.text n ++
      ": unknown mnemonic " ++ Text.quoted s
  | operand _ s => "ListingError: Malformed instruction listing: line " ++ Numeral.text n ++
      ": operand " ++ Text.quoted s ++ " is not an integer"

theorem textAt_numbered (m n : Int) (e : ListingError) :
    (e.numbered m).textAt n = e.textAt n := by
  cases e with
  | _ => rfl

theorem message_of_line {e : ListingError} (h : Numeral.Writable e.line) :
    e.message = .ok (e.textAt e.line) := by
  rw [message, Numeral.write, if_pos h]
  cases e with
  | _ => rfl

theorem textAt_lowered (k : Nat) (e : ListingError) :
    (e.lowered k).textAt (e.lowered k).line = e.textAt (e.line + k) := by
  rw [lowered, line_numbered, textAt_numbered]

end ListingError

namespace Listing

theorem parseLine_numbered (n : Int) (line : List Char) :
    parseLine n line = (parseLine 0 line).mapError (·.numbered n) := by
  have hopcode : ∀ word, parseLine.opcode n word =
      (parseLine.opcode 0 word).mapError (·.numbered n) := by
    intro word
    unfold parseLine.opcode
    split
    next => rfl
    next => rfl
  unfold parseLine
  split
  next word _ =>
    rw [hopcode]
    cases parseLine.opcode 0 word with
    | error e => rfl
    | ok op => rfl
  next word operand _ =>
    rw [hopcode]
    cases parseLine.opcode 0 word with
    | error e => rfl
    | ok op =>
      cases Numeral.read? operand with
      | none => rfl
      | some z => rfl
  next => rfl

/-- One of the lines ends the listing. -/
def Closes (ls : List (List Char)) : Prop :=
  ∃ l ∈ ls, Text.trim l = closing.toList

instance (ls : List (List Char)) : Decidable (Closes ls) :=
  List.decidableBEx (fun l => Text.trim l = closing.toList) ls

section Lines

variable {l : List Char} {ls : List (List Char)} {n : Nat}

theorem closes_cons : Closes (l :: ls) ↔ Text.trim l = closing.toList ∨ Closes ls := by
  simp [Closes]

theorem parseLines_blank (h : Text.trim l = []) :
    parseLines n (l :: ls) = parseLines (n + 1) ls := by
  simp only [parseLines, if_pos h]

theorem parseLines_closing (h : Text.trim l = closing.toList) :
    parseLines n (l :: ls) = .ok [] := by
  have hne : ¬ closing.toList = [] := by decide
  simp only [parseLines, h, if_neg hne, if_true]

theorem parseLines_instruction (hblank : ¬ Text.trim l = [])
    (hclosing : ¬ Text.trim l = closing.toList) :
    parseLines n (l :: ls) =
      parseLine n (Text.trim l) >>= fun i => (i :: ·) <$> parseLines (n + 1) ls := by
  simp only [parseLines, if_neg hblank, if_neg hclosing]
  rfl

end Lines

/-- More lines are read behind the first ones, unless these end the listing or do not parse. -/
theorem parseLines_append (n : Nat) (ls ms : List (List Char)) :
    parseLines n (ls ++ ms) = parseLines n ls >>= fun is =>
      if Closes ls then .ok is else (is ++ ·) <$> parseLines (n + ls.length) ms := by
  induction ls generalizing n with
  | nil =>
    have hopen : ¬ Closes [] := by decide
    show parseLines n ms = if Closes [] then Except.ok [] else ([] ++ ·) <$> parseLines n ms
    rw [if_neg hopen]
    exact (id_map _).symm
  | cons l ls ih =>
    have hcount : n + (l :: ls).length = n + 1 + ls.length := by
      rw [List.length_cons]
      omega
    rw [List.cons_append, hcount]
    by_cases hblank : Text.trim l = []
    · have hcloses : Closes (l :: ls) ↔ Closes ls := by
        rw [closes_cons, hblank]
        exact or_iff_right (by decide)
      rw [parseLines_blank hblank, parseLines_blank hblank, ih]
      simp only [hcloses]
    · by_cases hclosing : Text.trim l = closing.toList
      · have hcloses : Closes (l :: ls) := closes_cons.mpr (.inl hclosing)
        rw [parseLines_closing hclosing, parseLines_closing hclosing]
        exact (if_pos hcloses).symm
      · have hcloses : Closes (l :: ls) ↔ Closes ls := by
          rw [closes_cons]
          exact or_iff_right hclosing
        rw [parseLines_instruction hblank hclosing, parseLines_instruction hblank hclosing, ih]
        simp only [hcloses]
        cases parseLine n (Text.trim l) with
        | error e => rfl
        | ok i =>
          cases parseLines (n + 1) ls with
          | error e => rfl
          | ok is =>
            split
            next => rfl
            next =>
              cases parseLines (n + 1 + ls.length) ms with
              | error e => rfl
              | ok js => rfl

theorem parseLines_lowered (n k : Nat) (ls : List (List Char)) :
    parseLines (n + k) ls = (parseLines n ls).mapError (·.lowered k) := by
  induction ls generalizing n with
  | nil => rfl
  | cons l ls ih =>
    have hrest : parseLines (n + k + 1) ls = (parseLines (n + 1) ls).mapError (·.lowered k) := by
      rw [← ih, Nat.add_right_comm]
    by_cases hblank : Text.trim l = []
    · rw [parseLines_blank hblank, parseLines_blank hblank, hrest]
    · by_cases hclosing : Text.trim l = closing.toList
      · rw [parseLines_closing hclosing, parseLines_closing hclosing]
        rfl
      · rw [parseLines_instruction hblank hclosing, parseLines_instruction hblank hclosing, hrest,
          parseLine_numbered, parseLine_numbered n]
        cases parseLine 0 (Text.trim l) with
        | error e =>
          show Except.error (e.numbered (n + k : Nat)) = Except.error ((e.numbered n).lowered k)
          rw [ListingError.lowered, ListingError.line_numbered, ListingError.numbered_numbered,
            Int.natCast_add]
        | ok i =>
          cases parseLines (n + 1) ls with
          | error e => rfl
          | ok is => rfl

theorem line_of_parseLines {n : Nat} {ls : List (List Char)} {e : ListingError}
    (h : parseLines n ls = .error e) : n ≤ e.line ∧ e.line < n + ls.length := by
  induction ls generalizing n with
  | nil => cases h
  | cons l ls ih =>
    rw [List.length_cons]
    by_cases hblank : Text.trim l = []
    · rw [parseLines_blank hblank] at h
      have hline := ih h
      omega
    · by_cases hclosing : Text.trim l = closing.toList
      · rw [parseLines_closing hclosing] at h
        cases h
      · rw [parseLines_instruction hblank hclosing, parseLine_numbered] at h
        cases hparse : parseLine 0 (Text.trim l) with
        | error e' =>
          rw [hparse] at h
          cases h
          rw [ListingError.line_numbered]
          omega
        | ok i =>
          cases hrest : parseLines (n + 1) ls with
          | error e' =>
            rw [hparse, hrest] at h
            cases h
            have hline := ih hrest
            omega
          | ok is =>
            rw [hparse, hrest] at h
            cases h

theorem parse_error_message {text : String} {e : ListingError}
    (hlines : (Text.lines text.toList).length < 10 ^ maxDigits) (h : parse text = .error e) :
    e.message = .ok (e.textAt e.line) := by
  have hline := line_of_parseLines h
  apply ListingError.message_of_line
  exact Numeral.writable_iff.mpr (Nat.lt_of_le_of_lt (by omega) hlines)

theorem parse_append_eq {a b : String} (ha : Text.EndsLine a.toList)
    (hmeet : ¬ Text.Meet a.toList b.toList) :
    parse (a ++ b) = parse a >>= fun is =>
      if Closes (Text.lines a.toList) then .ok is
      else (is ++ ·) <$> (parse b).mapError (·.lowered (Text.lines a.toList).length) := by
  unfold parse
  rw [String.toList_append, Text.lines_append_lines ha hmeet, parseLines_append,
    parseLines_lowered]

/-- A listing is read line by line: an error or a closing line in the whole lines in front settles
the result. Otherwise the rest is read as if it stood alone, but for the numbers of its lines, also
in what is said of an error. -/
theorem parse_line_by_line {a b : String} (ha : Text.EndsLine a.toList)
    (hmeet : ¬ Text.Meet a.toList b.toList)
    (hlines : (Text.lines (a ++ b).toList).length < 10 ^ maxDigits) :
    (∀ e, parse a = .error e → parse (a ++ b) = .error e ∧
      e.message = .ok (e.textAt e.line)) ∧
    ∀ is, parse a = .ok is →
      (Closes (Text.lines a.toList) → parse (a ++ b) = .ok is) ∧
      (¬ Closes (Text.lines a.toList) →
        (∀ js, parse b = .ok js → parse (a ++ b) = .ok (is ++ js)) ∧
        ∀ e, parse b = .error e →
          parse (a ++ b) = .error (e.lowered (Text.lines a.toList).length) ∧
            (e.lowered (Text.lines a.toList).length).message =
              .ok (e.textAt (e.line + (Text.lines a.toList).length))) := by
  have happend := parse_append_eq ha hmeet
  refine ⟨fun e he => ?_, fun is his => ⟨fun hcloses => ?_, fun hopen => ⟨fun js hjs => ?_, ?_⟩⟩⟩
  · rw [he] at happend
    exact ⟨happend, parse_error_message hlines happend⟩
  · rw [happend, his]
    exact if_pos hcloses
  · rw [happend, his, hjs]
    exact if_neg hopen
  · intro e he
    rw [his, he] at happend
    have herror := happend.trans (if_neg hopen)
    rw [← ListingError.textAt_lowered]
    exact ⟨herror, parse_error_message hlines herror⟩

/-- Three lines in front, ended by three kinds of line break, of which two are blank; and a closing
line between blanks, with no listing behind it. -/
theorem parse_line_by_line_breaks :
    let a := "push 1\r\n\x0b  \u2028"
    parse (a ++ "\tjmp x\nstack") = .error (.operand 4 "x") ∧
      (ListingError.operand 4 "x").message =
        .ok "ListingError: Malformed instruction listing: line 4: operand 'x' is not an integer" ∧
      parse (a ++ "print\x85stack") = .ok [⟨.push, 1⟩, ⟨.print, 0⟩] ∧
      parse ("ret\r stack\x1d" ++ "no listing here") = .ok [⟨.ret, 0⟩] ∧
      parse ("ret 1 2\n" ++ "add") = .error (.wordCount 1 "ret 1 2") := by
  intro a
  have hpower : 10 ^ 4 ≤ 10 ^ maxDigits := Nat.pow_le_pow_right (by decide) (by decide)
  have hlimit : ∀ {k : Nat}, k < 10 ^ 4 → k < 10 ^ maxDigits :=
    fun hk => Nat.lt_of_lt_of_le hk hpower
  have ha : parse a = .ok [⟨.push, 1⟩] := by decide +kernel
  rw [← and_assoc]
  refine ⟨?_, ?_, ?_, ?_⟩
  · have hlines := parse_line_by_line (a := a) (b := "\tjmp x\nstack") (by decide +kernel)
      (by decide +kernel) (hlimit (by decide +kernel))
    have herror := ((hlines.2 _ ha).2 (by decide +kernel)).2 (.operand 1 "x") (by decide +kernel)
    have hcount : (Text.lines a.toList).length = 3 := by decide +kernel
    have htext : (ListingError.operand 1 "x").textAt (1 + (3 : Nat)) =
        "ListingError: Malformed instruction listing: line 4: operand 'x' is not an integer" := by
      decide +kernel
    rw [hcount] at herror
    exact ⟨herror.1, herror.2.trans (congrArg Except.ok htext)⟩
  · have hlines := parse_line_by_line (a := a) (b := "print\x85stack") (by decide +kernel)
      (by decide +kernel) (hlimit (by decide +kernel))
    exact ((hlines.2 _ ha).2 (by decide +kernel)).1 [⟨.print, 0⟩] (by decide +kernel)
  · have hlines := parse_line_by_line (a := "ret\r stack\x1d") (b := "no listing here")
      (by decide +kernel) (by decide +kernel) (hlimit (by decide +kernel))
    exact (hlines.2 _ (by decide +kernel)).1 (by decide +kernel)
  · have hlines := parse_line_by_line (a := "ret 1 2\n") (b := "add") (by decide +kernel)
      (by decide +kernel) (hlimit (by decide +kernel))
    exact (hlines.1 (.wordCount 1 "ret 1 2") (by decide +kernel)).1

end Listing

end StackLang
