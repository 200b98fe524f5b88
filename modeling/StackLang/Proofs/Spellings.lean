import StackLang.Proofs.Numerals
import StackLang.Token.Scanner
import Mathlib.Data.List.Chain
import Mathlib.Data.List.TakeWhile
import Mathlib.Data.Nat.Digits.Defs

namespace StackLang

def Text.Blank (cs : List Char) : Prop :=
  ∀ c ∈ cs, isBlank c = true

instance (cs : List Char) : Decidable (Text.Blank cs) :=
  List.decidableBAll (fun c => Text.isBlank c = true) cs

/-- The text is a row of decimal digits of the value `n`. Zeros in front are digits like others. -/
def Numeral.Denotes (cs : List Char) (n : Int) : Prop :=
  ∃ ds : List Nat, ds ≠ [] ∧ (∀ d ∈ ds, d < 10) ∧ cs = ds.map Nat.digitChar ∧
    n = ((Nat.ofDigits 10 ds.reverse : Nat) : Int)

namespace Token

/-- A letter with letters and digits behind it that is not reserved. -/
structure IsName (w : String) : Prop where
  first : w.toList.head?.any Char.isAlpha = true
  all : w.toList.all Char.isAlphanum = true
  free : ∀ k ∈ Kind.reserved, w ≠ k.text

inductive Lexical : Token → Prop
  | symbol {k : Kind} (hk : k ∈ Kind.punctuation) : Lexical ⟨k, none⟩
  | reserved {k : Kind} (hk : k ∈ Kind.reserved) : Lexical ⟨k, none⟩
  | name {w : String} (hw : IsName w) : Lexical ⟨.identifier, some (.word w)⟩
  | number (n : Nat) : Lexical ⟨.number, some (.int n)⟩

/-- The text is a spelling of the token: a number has many, any other token has one. -/
def Spelled : Token → List Char → Prop
  | ⟨k, none⟩, cs => cs = k.text.toList
  | ⟨_, some (.word w)⟩, cs => cs = w.toList
  | ⟨_, some (.int n)⟩, cs => Numeral.Denotes cs n

namespace Kind

def IsWord (k : Kind) : Prop :=
  k = .identifier ∨ k ∈ reserved

instance (k : Kind) : Decidable k.IsWord :=
  inferInstanceAs (Decidable (_ ∨ _))

/-- A token of the second kind cannot stand right behind one of the first: the two would be read as
one word or as one number. -/
def Joins (k l : Kind) : Prop :=
  (k.IsWord ∧ (l.IsWord ∨ l = .number)) ∨ (k = .number ∧ l = .number)

instance (k l : Kind) : Decidable (k.Joins l) :=
  inferInstanceAs (Decidable (_ ∨ _))

/-- The character goes on with a token of the kind. -/
def Continues (k : Kind) (c : Char) : Prop :=
  (k.IsWord ∧ c.isAlphanum = true) ∨ (k = .number ∧ c.isDigit = true)

/-- What follows does not go on with a token of the kind. -/
def Stops (k : Kind) (rest : List Char) : Prop :=
  ∀ c ∈ rest.head?, ¬ k.Continues c

end Kind

end Token

/-- A token as it stands in a text, behind some blanks. -/
structure Lexeme where
  gap : List Char
  token : Token
  spelling : List Char
  blank : Text.Blank gap
  lexical : token.Lexical
  spelled : token.Spelled spelling

namespace Lexeme

def text (l : Lexeme) : List Char :=
  l.gap ++ l.spelling

/-- There are blanks between the two neighbours where they need some. -/
def Apart (l m : Lexeme) : Prop :=
  l.token.kind.Joins m.token.kind → m.gap ≠ []

instance (l m : Lexeme) : Decidable (l.Apart m) :=
  inferInstanceAs (Decidable (_ → _))

end Lexeme

/-- The text consists of spellings of the tokens in their order, with blanks before, between and
behind them. Neighbours that need no blanks between them may have none. -/
def Splits (cs : List Char) (ts : List Token) : Prop :=
  ∃ (ls : List Lexeme) (tail : List Char), ls.map Lexeme.token = ts ∧
    ls.IsChain Lexeme.Apart ∧ Text.Blank tail ∧ cs = ls.flatMap Lexeme.text ++ tail

namespace Scanner

def symbols : List Char :=
  "+-*/%<>()\x7b\x7d=;,".toList

/-- The characters that a text may have. Any other character is a strange one. -/
def Recognized (c : Char) : Prop :=
  Text.isBlank c = true ∨ c.isAlpha = true ∨ c.isDigit = true ∨ c ∈ symbols

instance (c : Char) : Decidable (Recognized c) :=
  inferInstanceAs (Decidable (_ ∨ _ ∨ _ ∨ _))

theorem isAlpha_iff {c : Char} : c.isAlpha = true ↔
    (65 ≤ c.toNat ∧ c.toNat ≤ 90) ∨ (97 ≤ c.toNat ∧ c.toNat ≤ 122) := by
  have halpha : c.isAlpha = (decide (c.val ≥ 'A'.val ∧ c.val ≤ 'Z'.val) ||
      decide (c.val ≥ 'a'.val) && decide (c.val ≤ 'z'.val)) := rfl
  rw [halpha]
  simp only [Bool.or_eq_true, Bool.and_eq_true, decide_eq_true_eq, UInt32.le_iff_toNat_le,
    ge_iff_le]
  exact Iff.rfl

theorem isDigit_iff {c : Char} : c.isDigit = true ↔ 48 ≤ c.toNat ∧ c.toNat ≤ 57 := by
  simp only [Char.isDigit, Bool.and_eq_true, decide_eq_true_eq, UInt32.le_iff_toNat_le, ge_iff_le]
  exact Iff.rfl

theorem isLetter_eq (c : Char) : isLetter c = c.isAlpha := by
  rw [Bool.eq_iff_iff, isAlpha_iff]
  simp only [isLetter, Bool.or_eq_true, Bool.and_eq_true, decide_eq_true_eq]
  exact or_comm

theorem isDigit_eq (c : Char) : isDigit c = c.isDigit :=
  rfl

theorem isWordChar_eq (c : Char) : isWordChar c = c.isAlphanum := by
  rw [isWordChar, isLetter_eq, isDigit_eq, Char.isAlphanum]

theorem isAlphanum_iff {c : Char} :
    c.isAlphanum = true ↔ c.isAlpha = true ∨ c.isDigit = true := by
  rw [Char.isAlphanum, Bool.or_eq_true]

theorem recognized_of_isAlphanum {c : Char} (h : c.isAlphanum = true) : Recognized c := by
  rcases isAlphanum_iff.mp h with h | h
  · exact .inr (.inl h)
  · exact .inr (.inr (.inl h))

theorem not_isDigit_of_isAlpha {c : Char} (h : c.isAlpha = true) : ¬ c.isDigit = true := by
  rw [isAlpha_iff] at h
  rw [isDigit_iff]
  omega

theorem not_isBlank_of_isAlphanum {c : Char} (h : c.isAlphanum = true) :
    ¬ Text.isBlank c = true := by
  simp only [isAlphanum_iff, isAlpha_iff, isDigit_iff] at h
  simp only [Text.isBlank, Text.inRanges, Text.blankRanges, List.any_cons, List.any_nil,
    Bool.or_false, Bool.or_eq_true, Bool.and_eq_true, decide_eq_true_eq]
  omega

theorem plain_of_mem_symbols {c : Char} (h : c ∈ symbols) :
    ¬ c.isAlphanum = true ∧ ¬ Text.isBlank c = true := by
  -- Computed over the symbols, not over all characters.
  have hall : (symbols.all fun c => !c.isAlphanum && !Text.isBlank c) = true := by decide
  simpa using List.all_eq_true.mp hall c h

theorem texts_punctuation :
    Token.Kind.punctuation.map (·.text) = symbols.map String.singleton := by
  decide

theorem text_eq_singleton_iff {c : Char} :
    (∃ k ∈ Token.Kind.punctuation, k.text = String.singleton c) ↔ c ∈ symbols := by
  rw [← List.mem_map, texts_punctuation, List.mem_map]
  constructor
  · rintro ⟨d, hd, heq⟩
    have hlist := congrArg String.toList heq
    simp only [String.toList_singleton, List.cons.injEq, and_true] at hlist
    exact hlist ▸ hd
  · exact fun h => ⟨c, h, rfl⟩

theorem exists_cons_of_any_head? {p : Char → Bool} {w : List Char} (h : w.head?.any p = true) :
    ∃ c rest, w = c :: rest ∧ p c = true := by
  obtain ⟨c, hc, hp⟩ := (Option.any_eq_true ..).mp h
  obtain ⟨rest, rfl⟩ := List.head?_eq_some_iff.mp hc
  exact ⟨c, rest, rfl, hp⟩

theorem ofPunctuation?_eq_none {c : Char} (h : c ∉ symbols) :
    Token.Kind.ofPunctuation? c = none := by
  rw [Token.Kind.ofPunctuation?, List.find?_eq_none]
  intro k hk heq
  exact h (text_eq_singleton_iff.mp ⟨k, hk, by simpa using heq⟩)

end Scanner

open Scanner

namespace Token

variable {t : Token} {cs : List Char}

theorem Kind.not_isWord_of_punctuation :
    ∀ k ∈ Kind.punctuation, ¬ k.IsWord ∧ k ≠ .number := by
  decide

theorem Kind.text_of_punctuation {k : Kind} (hk : k ∈ Kind.punctuation) :
    ∃ c ∈ symbols, k.text.toList = [c] := by
  have htext : k.text ∈ symbols.map String.singleton := by
    rw [← texts_punctuation]
    exact List.mem_map_of_mem hk
  obtain ⟨c, hc, htext⟩ := List.mem_map.mp htext
  exact ⟨c, hc, by rw [← htext, String.toList_singleton]⟩

theorem Kind.text_of_reserved : ∀ k ∈ Kind.reserved,
    k ≠ .number ∧ k.text.toList.head?.any Char.isAlpha = true ∧
      k.text.toList.all Char.isAlphanum = true := by
  decide

theorem isDigit_digitChar : ∀ d, d < 10 → (Nat.digitChar d).isDigit = true := by
  decide

theorem Lexical.kind_ne_eof (ht : t.Lexical) : t.kind ≠ .eof := by
  have hkinds : ∀ k ∈ Kind.punctuation ++ Kind.reserved, k ≠ .eof := by decide
  cases ht with
  | symbol hk => exact hkinds _ (List.mem_append_left _ hk)
  | reserved hk => exact hkinds _ (List.mem_append_right _ hk)
  | name _ => exact Kind.noConfusion
  | number _ => exact Kind.noConfusion

/-- What the first character of a spelling tells about the kind of its token. -/
def Kind.StartsWith (k : Kind) (c : Char) : Prop :=
  ¬ Text.isBlank c = true ∧ (k.IsWord ↔ c.isAlpha = true) ∧ (k = .number ↔ c.isDigit = true)

theorem Kind.startsWith_letter {k : Kind} (hk : k.IsWord) (hnumber : k ≠ .number) {c : Char}
    (hc : c.isAlpha = true) : k.StartsWith c := by
  have hblank := not_isBlank_of_isAlphanum (isAlphanum_iff.mpr (.inl hc))
  exact ⟨hblank, iff_of_true hk hc, iff_of_false hnumber (not_isDigit_of_isAlpha hc)⟩

theorem Kind.startsWith_digit {c : Char} (hc : c.isDigit = true) : Kind.number.StartsWith c := by
  have hblank := not_isBlank_of_isAlphanum (isAlphanum_iff.mpr (.inr hc))
  have halpha : ¬ c.isAlpha = true := fun h => not_isDigit_of_isAlpha h hc
  exact ⟨hblank, iff_of_false (by decide) halpha, iff_of_true rfl hc⟩

theorem Kind.startsWith_symbol {k : Kind} (hk : k ∈ Kind.punctuation) {c : Char}
    (hc : c ∈ symbols) : k.StartsWith c := by
  obtain ⟨hword, hnumber⟩ := Kind.not_isWord_of_punctuation k hk
  obtain ⟨halpha, hblank⟩ := plain_of_mem_symbols hc
  rw [isAlphanum_iff, not_or] at halpha
  exact ⟨hblank, iff_of_false hword halpha.1, iff_of_false hnumber halpha.2⟩

/-- The first character tells a word, a number and a symbol apart. -/
theorem Lexical.startsWith (ht : t.Lexical) (h : t.Spelled cs) :
    ∃ c rest, cs = c :: rest ∧ t.kind.StartsWith c := by
  cases ht with
  | symbol hk =>
    obtain ⟨c, hc, htext⟩ := Kind.text_of_punctuation hk
    exact ⟨c, [], h.trans htext, Kind.startsWith_symbol hk hc⟩
  | reserved hk =>
    obtain ⟨hnumber, hfirst, -⟩ := Kind.text_of_reserved _ hk
    obtain ⟨c, rest, htext, hc⟩ := exists_cons_of_any_head? hfirst
    exact ⟨c, rest, h.trans htext, Kind.startsWith_letter (.inr hk) hnumber hc⟩
  | name hw =>
    obtain ⟨c, rest, htext, hc⟩ := exists_cons_of_any_head? hw.first
    exact ⟨c, rest, h.trans htext, Kind.startsWith_letter (.inl rfl) Kind.noConfusion hc⟩
  | number n =>
    obtain ⟨ds, hne, hsmall, rfl, -⟩ := h
    obtain ⟨d, ds, rfl⟩ := List.exists_cons_of_ne_nil hne
    have hdigit := isDigit_digitChar d (hsmall d List.mem_cons_self)
    exact ⟨_, _, rfl, Kind.startsWith_digit hdigit⟩

/-- Two neighbours need a blank between them just if the second one starts with a character that
goes on with the first one. -/
theorem Lexical.joins_iff_continues (ht : t.Lexical) (h : t.Spelled cs) (k : Kind) :
    k.Joins t.kind ↔ ∃ c ∈ cs.head?, k.Continues c := by
  obtain ⟨c, rest, rfl, -, hword, hnumber⟩ := ht.startsWith h
  simp only [Kind.Joins, Kind.Continues, hword, hnumber, isAlphanum_iff, List.head?_cons,
    Option.mem_def, Option.some.injEq, exists_eq_left']

theorem Kind.Continues.isAlphanum {k : Kind} {c : Char} (h : k.Continues c) :
    c.isAlphanum = true := by
  rcases h with ⟨-, h⟩ | ⟨-, h⟩
  · exact h
  · exact isAlphanum_iff.mpr (.inr h)

theorem Kind.stops_of_isBlank {k : Kind} {c : Char} (h : Text.isBlank c = true)
    (rest : List Char) : k.Stops (c :: rest) := by
  intro d hd hcontinues
  cases hd
  exact not_isBlank_of_isAlphanum hcontinues.isAlphanum h

theorem Kind.stops_blank {k : Kind} (h : Text.Blank cs) : k.Stops cs := by
  cases cs with
  | nil => nofun
  | cons c rest => exact stops_of_isBlank (h c List.mem_cons_self) rest

end Token

/-- A lexeme does not go on with the token before it if and only if the two are apart. -/
theorem Lexeme.stops_iff (m : Lexeme) (k : Token.Kind) (rest : List Char) :
    k.Stops (m.text ++ rest) ↔ (k.Joins m.token.kind → m.gap ≠ []) := by
  have hjoins := m.lexical.joins_iff_continues m.spelled k
  obtain ⟨c, cs, hspelling, -⟩ := m.lexical.startsWith m.spelled
  cases hgap : m.gap with
  | nil =>
    simp only [text, hgap, hjoins, hspelling, Token.Kind.Stops, List.nil_append, List.cons_append,
      List.head?_cons, Option.mem_def, Option.some.injEq, forall_eq', exists_eq_left', ne_eq,
      not_true, imp_false]
  | cons d ds =>
    have hd : Text.isBlank d = true := m.blank d (by simp [hgap])
    simp only [text, hgap, List.cons_append]
    exact iff_of_true (Token.Kind.stops_of_isBlank hd _) (fun _ => List.cons_ne_nil d ds)

theorem splits_nil_iff {cs : List Char} : Splits cs [] ↔ Text.Blank cs := by
  constructor
  · rintro ⟨ls, tail, hls, -, htail, rfl⟩
    obtain rfl := List.map_eq_nil_iff.mp hls
    exact htail
  · exact fun h => ⟨[], cs, rfl, .nil, h, rfl⟩

theorem splits_cons_iff {cs : List Char} {t : Token} {ts : List Token} :
    Splits cs (t :: ts) ↔ ∃ (l : Lexeme) (rest : List Char), l.token = t ∧
      cs = l.text ++ rest ∧ Splits rest ts ∧ t.kind.Stops rest := by
  constructor
  · rintro ⟨ls, tail, hls, hchain, htail, rfl⟩
    obtain ⟨l, ls, rfl, rfl, rfl⟩ := List.map_eq_cons_iff.mp hls
    rw [List.isChain_cons] at hchain
    refine ⟨l, _, rfl, by rw [List.flatMap_cons, List.append_assoc],
      ⟨ls, tail, rfl, hchain.2, htail, rfl⟩, ?_⟩
    cases ls with
    | nil => exact Token.Kind.stops_blank htail
    | cons m ls =>
      rw [List.flatMap_cons, List.append_assoc, m.stops_iff]
      exact hchain.1 m rfl
  · rintro ⟨l, rest, rfl, rfl, ⟨ls, tail, rfl, hchain, htail, rfl⟩, hstops⟩
    refine ⟨l :: ls, tail, rfl, List.isChain_cons.mpr ⟨fun m hm => ?_, hchain⟩, htail, ?_⟩
    · obtain ⟨ms, rfl⟩ := List.head?_eq_some_iff.mp hm
      rw [List.flatMap_cons, List.append_assoc, m.stops_iff] at hstops
      exact hstops
    · rw [List.flatMap_cons, List.append_assoc]

theorem not_of_mem_head?_dropWhile {p : Char → Bool} {cs : List Char} {c : Char}
    (h : c ∈ (cs.dropWhile p).head?) : ¬ p c = true := by
  have hfirst := List.head?_dropWhile_not p cs
  rw [Option.mem_def.mp h] at hfirst
  simpa using hfirst

namespace Token

theorem Kind.continues_word {k : Kind} (hk : k.IsWord) {c : Char} :
    k.Continues c ↔ c.isAlphanum = true :=
  ⟨Continues.isAlphanum, fun h => .inl ⟨hk, h⟩⟩

theorem Kind.continues_number {c : Char} : Kind.number.Continues c ↔ c.isDigit = true := by
  have hword : ¬ Kind.number.IsWord := by decide
  simp [Continues, hword]

theorem exists_spelled_word {w : List Char} (hfirst : w.head?.any Char.isAlpha = true)
    (hall : w.all Char.isAlphanum = true) :
    ∃ t : Token, t.Lexical ∧ t.Spelled w ∧ t.kind.IsWord := by
  by_cases hreserved : ∃ k ∈ Kind.reserved, k.text.toList = w
  · obtain ⟨k, hk, htext⟩ := hreserved
    exact ⟨⟨k, none⟩, .reserved hk, htext.symm, .inr hk⟩
  · have hname : IsName (String.ofList w) := by
      refine ⟨?_, ?_, fun k hk heq => hreserved ⟨k, hk, ?_⟩⟩
      · rw [String.toList_ofList]
        exact hfirst
      · rw [String.toList_ofList]
        exact hall
      · rw [← heq, String.toList_ofList]
    have hspelled : Spelled ⟨.identifier, some (.word (String.ofList w))⟩ w :=
      String.toList_ofList.symm
    exact ⟨_, .name hname, hspelled, .inl rfl⟩

theorem exists_spelled_number {w : List Char} (hne : w ≠ []) (hall : ∀ c ∈ w, c.isDigit = true) :
    ∃ n : Nat, Spelled ⟨.number, some (.int n)⟩ w := by
  have hdigits : ∃ ds : List Nat, (∀ d ∈ ds, d < 10) ∧ w = ds.map Nat.digitChar := by
    clear hne
    induction w with
    | nil => exact ⟨[], nofun, rfl⟩
    | cons c w ih =>
      obtain ⟨ds, hsmall, rfl⟩ := ih fun d hd => hall d (List.mem_cons_of_mem c hd)
      have hrange := isDigit_iff.mp (hall c List.mem_cons_self)
      have hchar : ∀ d, d < 10 → Nat.digitChar d = Char.ofNat (48 + d) := by decide
      have hc : c = Nat.digitChar (c.toNat - 48) := by
        rw [hchar _ (by omega), Nat.add_sub_cancel' hrange.1, Char.ofNat_toNat]
      exact ⟨(c.toNat - 48) :: ds, List.forall_mem_cons.mpr ⟨by omega, hsmall⟩, by
        rw [List.map_cons, ← hc]⟩
  obtain ⟨ds, hsmall, rfl⟩ := hdigits
  exact ⟨_, ds, by simpa using hne, hsmall, rfl, rfl⟩

/-- A text that starts neither with a blank nor with a strange character starts with a token. -/
theorem exists_spelled {c : Char} (hc : Recognized c) (hblank : ¬ Text.isBlank c = true)
    (cs : List Char) :
    ∃ (t : Token) (w rest : List Char), t.Lexical ∧ t.Spelled w ∧ c :: cs = w ++ rest ∧
      t.kind.Stops rest := by
  rcases hc with hc | halpha | hdigit | hsymbol
  · exact absurd hc hblank
  · have hfirst : ((c :: cs).takeWhile Char.isAlphanum).head?.any Char.isAlpha = true := by
      rw [List.takeWhile_cons_of_pos (isAlphanum_iff.mpr (.inl halpha))]
      exact halpha
    have hall : ((c :: cs).takeWhile Char.isAlphanum).all Char.isAlphanum = true :=
      List.all_eq_true.mpr fun d hd => List.mem_takeWhile_imp hd
    obtain ⟨t, ht, hspelled, hword⟩ := exists_spelled_word hfirst hall
    refine ⟨t, _, _, ht, hspelled, List.takeWhile_append_dropWhile.symm, fun d hd => ?_⟩
    rw [Kind.continues_word hword]
    exact not_of_mem_head?_dropWhile hd
  · have hne : (c :: cs).takeWhile Char.isDigit ≠ [] := by
      rw [List.takeWhile_cons_of_pos hdigit]
      exact List.cons_ne_nil _ _
    obtain ⟨n, hspelled⟩ := exists_spelled_number hne fun d hd => List.mem_takeWhile_imp hd
    refine ⟨_, _, _, .number n, hspelled, List.takeWhile_append_dropWhile.symm, fun d hd => ?_⟩
    rw [Kind.continues_number]
    exact not_of_mem_head?_dropWhile hd
  · obtain ⟨k, hk, htext⟩ := text_eq_singleton_iff.mpr hsymbol
    have hspelled : Spelled ⟨k, none⟩ [c] := by
      rw [Spelled, htext, String.toList_singleton]
    obtain ⟨hword, hnumber⟩ := Kind.not_isWord_of_punctuation k hk
    refine ⟨_, [c], cs, .symbol hk, hspelled, rfl, fun d _ hd => ?_⟩
    rcases hd with ⟨hd, -⟩ | ⟨hd, -⟩
    · exact hword hd
    · exact hnumber hd

end Token

/-- A text without a strange character splits into tokens. -/
theorem exists_splits {cs : List Char} (h : ∀ c ∈ cs, Recognized c) : ∃ ts, Splits cs ts := by
  -- Blanks and one token are taken from the front; the recursion is on the length of the rest.
  have hsplit : cs.takeWhile Text.isBlank ++ cs.dropWhile Text.isBlank = cs :=
    List.takeWhile_append_dropWhile
  have hgap : Text.Blank (cs.takeWhile Text.isBlank) := fun c hc => List.mem_takeWhile_imp hc
  cases hbody : cs.dropWhile Text.isBlank with
  | nil =>
    rw [hbody, List.append_nil] at hsplit
    exact ⟨[], splits_nil_iff.mpr (hsplit ▸ hgap)⟩
  | cons c body =>
    have hblank : ¬ Text.isBlank c = true := not_of_mem_head?_dropWhile (by rw [hbody]; rfl)
    rw [hbody] at hsplit
    have hc : Recognized c := h c (by rw [← hsplit]; simp)
    obtain ⟨t, w, rest, ht, hspelled, hrest, hstops⟩ := Token.exists_spelled hc hblank body
    obtain ⟨d, ds, hw, -⟩ := ht.startsWith hspelled
    rw [hrest] at hsplit
    have hlength : rest.length < cs.length := by
      rw [← hsplit, hw]
      simp only [List.length_append, List.length_cons]
      omega
    have hrecognized : ∀ e ∈ rest, Recognized e := fun e he => h e (by rw [← hsplit]; simp [he])
    obtain ⟨ts, hts⟩ := exists_splits hrecognized
    refine ⟨t :: ts, splits_cons_iff.mpr ?_⟩
    refine ⟨⟨_, t, w, hgap, ht, hspelled⟩, rest, rfl, ?_, hts, hstops⟩
    rw [Lexeme.text, List.append_assoc]
    exact hsplit.symm
termination_by cs.length

end StackLang
