import StackLang.Proofs.Spellings
import Mathlib.Data.List.DropRight

namespace StackLang

namespace Scanner

/-- The scanner that has read the text `before` and comes to `rest`. -/
def behind (before rest : List Char) : Scanner where
  rest := rest
  line := 1 + before.count '\n'
  column := 1 + (before.rtakeWhile (· ≠ '\n')).length

variable {before rest w : List Char} {c : Char}

theorem behind_concat_newline (before rest : List Char) :
    behind (before ++ ['\n']) rest = ⟨rest, (behind before rest).line + 1, 1⟩ := by
  simp [behind, List.count_append, Nat.add_assoc]

theorem behind_concat (before rest : List Char) (hc : c ≠ '\n') :
    behind (before ++ [c]) rest =
      ⟨rest, (behind before rest).line, (behind before rest).column + 1⟩ := by
  simp [behind, List.count_append, hc, Nat.add_assoc]

theorem skip_behind_cons {p : Char → Bool} (hp : p c = true) (before rest : List Char) :
    (behind before (c :: rest)).skip p = (behind (before ++ [c]) rest).skip p := by
  by_cases hc : c = '\n'
  · subst hc
    rw [behind_concat_newline]
    simp [skip, behind, skipWhile, hp]
  · rw [behind_concat before rest hc]
    simp [skip, behind, skipWhile, hp, hc]

/-- Whatever is passed over, line and column are those of the text that has been read. -/
theorem skip_behind (p : Char → Bool) (before rest : List Char) :
    (behind before rest).skip p =
      behind (before ++ rest.takeWhile p) (rest.dropWhile p) := by
  induction rest generalizing before with
  | nil => simp [skip, skipWhile, behind]
  | cons c rest ih =>
    by_cases hp : p c = true
    · rw [skip_behind_cons hp, ih, List.takeWhile_cons_of_pos hp, List.dropWhile_cons_of_pos hp,
        List.append_assoc, List.singleton_append]
    · rw [List.takeWhile_cons_of_neg hp, List.dropWhile_cons_of_neg hp, List.append_nil]
      simp [skip, behind, skipWhile, hp]

theorem takeWhile_append_of_stop {p : Char → Bool} (hw : ∀ d ∈ w, p d = true)
    (hrest : ∀ d ∈ rest.head?, ¬ p d = true) :
    (w ++ rest).takeWhile p = w ∧ (w ++ rest).dropWhile p = rest := by
  rw [List.takeWhile_append_of_pos hw, List.dropWhile_append_of_pos hw]
  cases rest with
  | nil => exact ⟨List.append_nil w, rfl⟩
  | cons d rest =>
    have hd := hrest d rfl
    rw [List.takeWhile_cons_of_neg hd, List.dropWhile_cons_of_neg hd]
    exact ⟨List.append_nil w, rfl⟩

theorem skip_behind_append {p : Char → Bool} (before : List Char) (hw : ∀ d ∈ w, p d = true)
    (hrest : ∀ d ∈ rest.head?, ¬ p d = true) :
    (behind before (w ++ rest)).skip p = behind (before ++ w) rest := by
  obtain ⟨htake, hdrop⟩ := takeWhile_append_of_stop hw hrest
  rw [skip_behind, htake, hdrop]

theorem lexeme_symbol {k : Token.Kind} (hk : k ∈ Token.Kind.punctuation)
    (hw : w = k.text.toList) :
    (behind before (w ++ rest)).lexeme = .ok ⟨k, none⟩ (behind (before ++ w) rest) := by
  have hkinds : ∀ k ∈ Token.Kind.punctuation,
      k.text.toList.head?.bind Token.Kind.ofPunctuation? = some k := by
    decide
  obtain ⟨c, hc, htext⟩ := Token.Kind.text_of_punctuation hk
  have hkind : Token.Kind.ofPunctuation? c = some k := by
    have hfirst := hkinds k hk
    rw [htext] at hfirst
    exact hfirst
  have hnewline : c ≠ '\n' := by
    intro heq
    exact (plain_of_mem_symbols hc).2 (by rw [heq]; decide)
  rw [hw, htext, behind_concat before rest hnewline]
  simp only [lexeme, behind, List.singleton_append, hkind]

theorem lexeme_word (hfirst : w.head?.any Char.isAlpha = true)
    (hall : w.all Char.isAlphanum = true) (hrest : ∀ d ∈ rest.head?, ¬ d.isAlphanum = true) :
    (behind before (w ++ rest)).lexeme = .ok (wordToken w) (behind (before ++ w) rest) := by
  obtain ⟨c, cs, rfl, halpha⟩ := exists_cons_of_any_head? hfirst
  rw [List.all_eq_true] at hall
  have hsymbol : c ∉ symbols := fun h => (plain_of_mem_symbols h).1 (hall c List.mem_cons_self)
  simp only [← isWordChar_eq] at hall hrest
  unfold lexeme
  rw [skip_behind_append before hall hrest]
  simp only [behind, List.cons_append, ofPunctuation?_eq_none hsymbol, isLetter_eq, halpha, if_true]
  rw [← List.cons_append, (takeWhile_append_of_stop hall hrest).1]

theorem lexeme_number (hne : w ≠ []) (hall : ∀ d ∈ w, d.isDigit = true)
    (hrest : ∀ d ∈ rest.head?, ¬ d.isDigit = true) :
    (behind before (w ++ rest)).lexeme = .ok (numberToken w) (behind (before ++ w) rest) := by
  obtain ⟨c, cs, rfl⟩ := List.exists_cons_of_ne_nil hne
  have hdigit := hall c List.mem_cons_self
  have hsymbol : c ∉ symbols := fun h =>
    (plain_of_mem_symbols h).1 (isAlphanum_iff.mpr (.inr hdigit))
  have halpha : ¬ c.isAlpha = true := fun h => not_isDigit_of_isAlpha h hdigit
  simp only [← isDigit_eq] at hall hrest hdigit
  unfold lexeme
  rw [skip_behind_append before hall hrest]
  simp only [behind, List.cons_append, ofPunctuation?_eq_none hsymbol, isLetter_eq, halpha, hdigit,
    Bool.false_eq_true, if_true, if_false]
  rw [← List.cons_append, (takeWhile_append_of_stop hall hrest).1]

theorem wordToken_reserved : ∀ k ∈ Token.Kind.reserved, wordToken k.text.toList = ⟨k, none⟩ := by
  decide

theorem wordToken_name {x : String} (hx : Token.IsName x) :
    wordToken x.toList = ⟨.identifier, some (.word x)⟩ := by
  have hfree : Token.Kind.ofReserved? x = none := by
    rw [Token.Kind.ofReserved?, List.find?_eq_none]
    intro k hk heq
    exact hx.free k hk (beq_iff_eq.mp heq).symm
  simp only [wordToken, String.ofList_toList, hfree]

theorem numberToken_digits {ds : List Nat} (hsmall : ∀ d ∈ ds, d < 10) :
    numberToken (ds.map Nat.digitChar) =
      ⟨.number, some (.int ((Nat.ofDigits 10 ds.reverse : Nat) : Int))⟩ := by
  have hvalue : (ds.map Nat.digitChar).foldl (fun n c => 10 * n + (c.toNat - '0'.toNat)) 0 =
      Nat.ofDigits 10 ds.reverse := by
    induction ds using List.reverseRecOn with
    | nil => rfl
    | append_singleton ds d ih =>
      have hdigit : ∀ d, d < 10 → (Nat.digitChar d).toNat - '0'.toNat = d := by decide
      have hd := hdigit d (hsmall d (by simp))
      rw [List.map_append, List.foldl_append, ih fun x hx => hsmall x (by simp [hx]),
        List.reverse_concat, Nat.ofDigits_cons]
      simp only [List.map_cons, List.map_nil, List.foldl_cons, List.foldl_nil, hd]
      omega
  rw [numberToken, hvalue]

/-- A spelling that ends where what follows does not go on with it is read as its token. -/
theorem lexeme_spelled {t : Token} (ht : t.Lexical) (hw : t.Spelled w)
    (hstops : t.kind.Stops rest) :
    (behind before (w ++ rest)).lexeme = .ok t (behind (before ++ w) rest) := by
  cases ht with
  | symbol hk => exact lexeme_symbol hk hw
  | reserved hk =>
    obtain ⟨-, hfirst, hall⟩ := Token.Kind.text_of_reserved _ hk
    have hw : w = _ := hw
    rw [hw, ← wordToken_reserved _ hk]
    refine lexeme_word hfirst hall fun d hd => ?_
    exact fun halpha => hstops d hd ((Token.Kind.continues_word (.inr hk)).mpr halpha)
  | @name x hx =>
    have hw : w = _ := hw
    rw [hw, ← wordToken_name hx]
    refine lexeme_word hx.first hx.all fun d hd => ?_
    exact fun halpha => hstops d hd ((Token.Kind.continues_word (.inl rfl)).mpr halpha)
  | number n =>
    obtain ⟨ds, hne, hsmall, rfl, hn⟩ := hw
    rw [hn, ← numberToken_digits hsmall]
    refine lexeme_number (by simpa using hne) ?_ fun d hd => ?_
    · intro c hc
      obtain ⟨d, hd, rfl⟩ := List.mem_map.mp hc
      exact Token.isDigit_digitChar d (hsmall d hd)
    · exact fun hdigit => hstops d hd (Token.Kind.continues_number.mpr hdigit)

theorem lexeme_unrecognized (hc : ¬ Recognized c) :
    (behind before (c :: rest)).lexeme =
      .error ⟨c, (behind before []).line, (behind before []).column⟩
        (behind before (c :: rest)) := by
  simp only [Recognized, not_or] at hc
  obtain ⟨-, halpha, hdigit, hsymbol⟩ := hc
  simp only [lexeme, behind, ofPunctuation?_eq_none hsymbol, isLetter_eq, isDigit_eq, halpha,
    hdigit, Bool.false_eq_true, if_false]

theorem tokens_of_error {s s' : Scanner} {e : ScanError} (h : next.run s = .error e s') :
    s.tokens = .error e := by
  rw [tokens]
  split
  next e' s'' h' =>
    rw [h] at h'
    cases h'
    rfl
  next t s'' h' =>
    rw [h] at h'
    cases h'

theorem tokens_of_ok {s s' : Scanner} {t : Token} (h : next.run s = .ok t s') :
    s.tokens = if t.kind = .eof then .ok [t] else (t :: ·) <$> s'.tokens := by
  rw [tokens]
  split
  next e s'' h' =>
    rw [h] at h'
    cases h'
  next u s'' h' =>
    rw [h] at h'
    cases h'
    exact dite_eq_ite

theorem tokens_blank (hw : Text.Blank w) :
    (behind before (w ++ rest)).tokens = (behind (before ++ w) rest).tokens := by
  have hnext : next.run (behind before (w ++ rest)) = next.run (behind (before ++ w) rest) := by
    rw [run_next, run_next, skip_behind, skip_behind, List.takeWhile_append_of_pos hw,
      List.dropWhile_append_of_pos hw, List.append_assoc]
  cases hrun : next.run (behind (before ++ w) rest) with
  | error e s' => rw [tokens_of_error hrun, tokens_of_error (hnext.trans hrun)]
  | ok t s' => rw [tokens_of_ok hrun, tokens_of_ok (hnext.trans hrun)]

theorem run_next_of_not_blank (hrest : ∀ d ∈ rest.head?, ¬ Text.isBlank d = true) :
    next.run (behind before rest) = (behind before rest).lexeme := by
  have hskip : (behind before ([] ++ rest)).skip Text.isBlank = behind (before ++ []) rest :=
    skip_behind_append before (by simp) hrest
  rw [List.nil_append, List.append_nil] at hskip
  rw [run_next, hskip]

theorem tokens_lexeme (l : Lexeme) (hstops : l.token.kind.Stops rest) :
    (behind before (l.text ++ rest)).tokens =
      (l.token :: ·) <$> (behind (before ++ l.text) rest).tokens := by
  obtain ⟨c, cs, hspelling, hblank, -⟩ := l.lexical.startsWith l.spelled
  have hfirst : ∀ d ∈ (l.spelling ++ rest).head?, ¬ Text.isBlank d = true := by
    intro d hd
    rw [hspelling] at hd
    cases hd
    exact hblank
  have hrun : next.run (behind (before ++ l.gap) (l.spelling ++ rest)) =
      .ok l.token (behind (before ++ l.gap ++ l.spelling) rest) := by
    rw [run_next_of_not_blank hfirst, lexeme_spelled l.lexical l.spelled hstops]
  rw [Lexeme.text, List.append_assoc, tokens_blank l.blank, tokens_of_ok hrun,
    if_neg l.lexical.kind_ne_eof, List.append_assoc]

/-- What a text splits into is read from it, up to its end or to a strange character. -/
theorem tokens_splits {cs : List Char} {ts : List Token} (before : List Char) (h : Splits cs ts)
    (hrest : ∀ d ∈ rest.head?, ¬ Recognized d) :
    (behind before (cs ++ rest)).tokens = (ts ++ ·) <$> (behind (before ++ cs) rest).tokens := by
  induction ts generalizing before cs with
  | nil =>
    rw [tokens_blank (splits_nil_iff.mp h)]
    exact (id_map _).symm
  | cons t ts ih =>
    obtain ⟨l, cs, rfl, rfl, hcs, hstops⟩ := splits_cons_iff.mp h
    -- Behind the last token comes the end or a strange character, which continues no token.
    have hstops' : l.token.kind.Stops (cs ++ rest) := by
      cases cs with
      | nil =>
        intro d hd hcontinues
        exact hrest d hd (recognized_of_isAlphanum hcontinues.isAlphanum)
      | cons d cs => exact hstops
    rw [List.append_assoc, tokens_lexeme l hstops', ih _ hcs, List.append_assoc]
    exact (comp_map _ _ _).symm

theorem tokens_end : (behind before []).tokens = .ok [Token.terminal] := by
  have hrun : next.run (behind before []) = .ok Token.terminal (behind before []) := by
    rw [run_next_of_not_blank (by simp)]
    rfl
  rw [tokens_of_ok hrun]
  rfl

theorem tokens_unrecognized (hc : ¬ Recognized c) :
    (behind before (c :: rest)).tokens =
      .error ⟨c, (behind before []).line, (behind before []).column⟩ := by
  have hblank : ∀ d ∈ (c :: rest).head?, ¬ Text.isBlank d = true := by
    intro d hd hblank
    cases hd
    exact hc (.inl hblank)
  exact tokens_of_error ((run_next_of_not_blank hblank).trans (lexeme_unrecognized hc))

end Scanner

open Scanner

theorem tokenize_eq (source : String) : tokenize source = (behind [] source.toList).tokens :=
  rfl

/-- Scanning undoes writing. Blanks are needed only where two words, a word and a number behind it,
or two numbers would run together. -/
theorem tokenize_of_splits {source : String} {ts : List Token} (h : Splits source.toList ts) :
    tokenize source = .ok (ts ++ [Token.terminal]) := by
  have htokens : (behind [] (source.toList ++ [])).tokens =
      (ts ++ ·) <$> (behind ([] ++ source.toList) []).tokens := tokens_splits [] h (by simp)
  rw [List.append_nil, ← tokenize_eq, tokens_end] at htokens
  exact htokens

/-- A number with leading zeros and a word right behind it, and a name that starts with a reserved
word. -/
theorem tokenize_of_splits_tight :
    let source := "007if\x1fifx2(0\u2003\n12 "
    let ts : List Token :=
      [⟨.number, some (.int 7)⟩, ⟨.ifWord, none⟩, ⟨.identifier, some (.word "ifx2")⟩,
       ⟨.lparen, none⟩, ⟨.number, some (.int 0)⟩, ⟨.number, some (.int 12)⟩]
    Splits source.toList ts ∧ tokenize source = .ok (ts ++ [Token.terminal]) := by
  intro source ts
  have hsplits : Splits source.toList ts :=
    ⟨[⟨[], _, "007".toList, by decide, .number 7, [0, 0, 7], by decide⟩,
      ⟨[], ⟨.ifWord, none⟩, "if".toList, by decide, .reserved (by decide), rfl⟩,
      ⟨['\x1f'], _, "ifx2".toList, by decide, .name ⟨by decide, by decide, by decide⟩, rfl⟩,
      ⟨[], ⟨.lparen, none⟩, "(".toList, by decide, .symbol (by decide), rfl⟩,
      ⟨[], _, "0".toList, by decide, .number 0, [0], by decide⟩,
      ⟨['\u2003', '\n'], _, "12".toList, by decide, .number 12, [1, 2], by decide⟩],
      [' '], rfl, by decide, by decide, by decide⟩
  exact ⟨hsplits, tokenize_of_splits hsplits⟩

theorem ScanError.message_of_lt {e : ScanError} (hline : e.line < 10 ^ maxDigits)
    (hcolumn : e.column < 10 ^ maxDigits) :
    e.message = .ok ("LexError: Unrecognized character: " ++
      Text.quoted (String.singleton e.char) ++ " at line " ++ Numeral.text e.line ++ ", column " ++
      Numeral.text e.column) := by
  have hline : Numeral.Writable e.line := Numeral.writable_iff.mpr hline
  have hcolumn : Numeral.Writable e.column := Numeral.writable_iff.mpr hcolumn
  simp only [message, Numeral.write, if_pos hline, if_pos hcolumn]
  rfl

theorem tokenize_cases (source : String) :
    ((∀ c ∈ source.toList, Recognized c) ∧
      ∃ ts, Splits source.toList ts ∧ tokenize source = .ok (ts ++ [Token.terminal])) ∨
    ∃ before c after, source.toList = before ++ c :: after ∧ (∀ d ∈ before, Recognized d) ∧
      ¬ Recognized c ∧
      tokenize source = .error ⟨c, (behind before []).line, (behind before []).column⟩ := by
  let p : Char → Bool := fun c => decide (Recognized c)
  have hsource : source.toList.takeWhile p ++ source.toList.dropWhile p = source.toList :=
    List.takeWhile_append_dropWhile
  have hbefore : ∀ c ∈ source.toList.takeWhile p, Recognized c := by
    intro c hc
    have hp : p c = true := List.mem_takeWhile_imp hc
    exact of_decide_eq_true hp
  have hrest : ∀ c ∈ (source.toList.dropWhile p).head?, ¬ Recognized c := by
    intro c hc h
    exact not_of_mem_head?_dropWhile hc (decide_eq_true h)
  obtain ⟨ts, hts⟩ := exists_splits hbefore
  have htokens := tokens_splits [] hts hrest
  rw [hsource, List.nil_append, ← tokenize_eq] at htokens
  cases hafter : source.toList.dropWhile p with
  | nil =>
    rw [hafter, List.append_nil] at hsource
    rw [hafter, tokens_end] at htokens
    rw [hsource] at hbefore hts
    exact .inl ⟨hbefore, ts, hts, htokens⟩
  | cons c after =>
    have hc : ¬ Recognized c := hrest c (by rw [hafter]; rfl)
    rw [hafter] at hsource
    rw [hafter, tokens_unrecognized hc] at htokens
    exact .inr ⟨_, c, after, hsource.symm, hbefore, hc, htokens⟩

/-- A text can be scanned if and only if it has no strange character, and then all of it is blanks
and spellings of the tokens that are found. Otherwise the error is the first strange character, at
its line and column. -/
theorem tokenize_stops_at_first_strange (source : String)
    (hlength : source.length < 10 ^ maxDigits) :
    ((∃ ts, tokenize source = .ok ts) ↔ ∀ c ∈ source.toList, Recognized c) ∧
    (∀ ts, tokenize source = .ok ts →
      ∃ us, ts = us ++ [Token.terminal] ∧ Splits source.toList us) ∧
    ∀ e, tokenize source = .error e → ∃ before c after,
      source.toList = before ++ c :: after ∧ (∀ d ∈ before, Recognized d) ∧ ¬ Recognized c ∧
      e = ⟨c, 1 + before.count '\n', 1 + (before.rtakeWhile (· ≠ '\n')).length⟩ ∧
      e.message = .ok ("LexError: Unrecognized character: " ++
        Text.quoted (String.singleton c) ++ " at line " ++ Numeral.text e.line ++ ", column " ++
        Numeral.text e.column) := by
  rcases tokenize_cases source with ⟨hall, ts, hts, hok⟩ | ⟨before, c, after, hsource, hbefore,
    hc, herror⟩
  · refine ⟨⟨fun _ => hall, fun _ => ⟨_, hok⟩⟩, fun us hus => ?_, fun e he => ?_⟩
    · rw [hok] at hus
      cases hus
      exact ⟨ts, rfl, hts⟩
    · rw [hok] at he
      cases he
  · refine ⟨⟨fun ⟨us, hus⟩ => ?_, fun hall => ?_⟩, fun us hus => ?_, fun e he => ?_⟩
    · rw [herror] at hus
      cases hus
    · exact absurd (hall c (by simp [hsource])) hc
    · rw [herror] at hus
      cases hus
    · rw [herror] at he
      cases he
      have hsize : before.length < source.length := by
        rw [← String.length_toList, hsource, List.length_append, List.length_cons]
        omega
      have hline : before.count '\n' ≤ before.length := List.count_le_length
      have hcolumn : (before.rtakeWhile (· ≠ '\n')).length ≤ before.length :=
        (List.rtakeWhile_suffix _ before).length_le
      refine ⟨before, c, after, hsource, hbefore, hc, rfl, ScanError.message_of_lt ?_ ?_⟩
      · exact Nat.lt_of_le_of_lt (show 1 + _ ≤ source.length by omega) hlength
      · exact Nat.lt_of_le_of_lt (show 1 + _ ≤ source.length by omega) hlength

/-- The line separator and the carriage return are blanks that start no line. -/
theorem tokenize_stops_at_first_strange_separator :
    let source := "x\u2028=\r\n y @ 1 #"
    tokenize source = .error ⟨'@', 2, 4⟩ ∧
      (ScanError.mk '@' 2 4).message =
        .ok "LexError: Unrecognized character: '@' at line 2, column 4" ∧
      ∃ us, tokenize "if1+2" = .ok (us ++ [Token.terminal]) ∧ Splits "if1+2".toList us := by
  intro source
  have hpower : 10 ^ 4 ≤ 10 ^ maxDigits := Nat.pow_le_pow_right (by decide) (by decide)
  have herror : tokenize source = .error ⟨'@', 2, 4⟩ := by decide +kernel
  obtain ⟨-, -, herrors⟩ := tokenize_stops_at_first_strange source
    (Nat.lt_of_lt_of_le (by decide) hpower)
  obtain ⟨before, c, after, -, -, -, he, hmessage⟩ := herrors _ herror
  obtain ⟨hok, hsplits, -⟩ := tokenize_stops_at_first_strange "if1+2"
    (Nat.lt_of_lt_of_le (by decide) hpower)
  have hall : ("if1+2".toList.all fun c => decide (Recognized c)) = true := by decide
  obtain ⟨ts, hts⟩ := hok.mpr (by simpa using hall)
  obtain ⟨us, rfl, hus⟩ := hsplits ts hts
  refine ⟨herror, ?_, us, hts, hus⟩
  have hc : '@' = c := congrArg ScanError.char he
  rw [hmessage, ← hc]
  decide +kernel

end StackLang
