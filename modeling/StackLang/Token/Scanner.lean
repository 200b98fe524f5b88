import StackLang.Text.Quoted
import StackLang.Token.Basic

namespace StackLang

/-- A character that starts no token, at its line and column. -/
structure ScanError where
  char : Char
  line : Nat
  column : Nat
deriving DecidableEq, Repr

def ScanError.message (e : ScanError) : Except Unwritable String := do
  let line ← Numeral.write e.line
  let column ← Numeral.write e.column
  return "LexError: Unrecognized character: " ++ Text.quoted (String.singleton e.char) ++
    " at line " ++ line ++ ", column " ++ column

structure Scanner where
  rest : List Char
  line : Nat := 1
  column : Nat := 1
deriving DecidableEq, Repr

namespace Scanner

def ofString (source : String) : Scanner :=
  { rest := source.toList }

def isLetter (c : Char) : Bool :=
  ('a' ≤ c && c ≤ 'z') || ('A' ≤ c && c ≤ 'Z')

def isDigit (c : Char) : Bool :=
  '0' ≤ c && c ≤ '9'

def isWordChar (c : Char) : Bool :=
  isLetter c || isDigit c

/-- Passes over the characters in front that satisfy `p`. Only a line feed starts a line. -/
def skipWhile (p : Char → Bool) : List Char → Nat → Nat → Scanner
  | [], line, column => ⟨[], line, column⟩
  | c :: cs, line, column =>
    if p c then
      if c = '\n' then skipWhile p cs (line + 1) 1
      else skipWhile p cs line (column + 1)
    else ⟨c :: cs, line, column⟩

def skip (p : Char → Bool) (s : Scanner) : Scanner :=
  skipWhile p s.rest s.line s.column

def wordToken (word : List Char) : Token :=
  let s := String.ofList word
  match Token.Kind.ofReserved? s with
  | some kind => ⟨kind, none⟩
  | none => ⟨.identifier, some (.word s)⟩

def numberToken (digits : List Char) : Token :=
  ⟨.number, some (.int (digits.foldl (fun n c => 10 * n + (c.toNat - '0'.toNat)) 0 : Nat))⟩

/-- Reads the next token of a text that starts with no blank. -/
def lexeme (s : Scanner) : EStateM.Result ScanError Scanner Token :=
  match s.rest with
  | [] => .ok Token.terminal s
  | c :: cs =>
    match Token.Kind.ofPunctuation? c with
    | some kind => .ok ⟨kind, none⟩ ⟨cs, s.line, s.column + 1⟩
    | none =>
      if isLetter c then .ok (wordToken (s.rest.takeWhile isWordChar)) (s.skip isWordChar)
      else if isDigit c then .ok (numberToken (s.rest.takeWhile isDigit)) (s.skip isDigit)
      else .error ⟨c, s.line, s.column⟩ s

/-- Reads the next token. Blanks in front of it are passed over even when no token follows them,
and the end of the text is an `eof` token as often as it is asked for. -/
def next : EStateM ScanError Scanner Token :=
  fun s => (s.skip Text.isBlank).lexeme

@[simp] theorem run_next (s : Scanner) : next.run s = (s.skip Text.isBlank).lexeme :=
  rfl

theorem length_skipWhile_le (p : Char → Bool) (cs : List Char) (line column : Nat) :
    (skipWhile p cs line column).rest.length ≤ cs.length := by
  induction cs generalizing line column with
  | nil => simp [skipWhile]
  | cons c cs ih =>
    simp only [skipWhile]
    split
    · split
      · exact Nat.le_succ_of_le (ih _ _)
      · exact Nat.le_succ_of_le (ih _ _)
    · simp

theorem length_skip_le (p : Char → Bool) (s : Scanner) :
    (s.skip p).rest.length ≤ s.rest.length :=
  length_skipWhile_le p s.rest s.line s.column

theorem length_skip_lt {p : Char → Bool} {s : Scanner} {c : Char} {cs : List Char}
    (h : s.rest = c :: cs) (hp : p c = true) : (s.skip p).rest.length < s.rest.length := by
  have hle (line column : Nat) := length_skipWhile_le p cs line column
  simp only [skip, h, skipWhile, hp, if_true, List.length_cons]
  split
  · exact Nat.lt_succ_of_le (hle _ _)
  · exact Nat.lt_succ_of_le (hle _ _)

theorem length_lexeme_lt {s s' : Scanner} {t : Token} (h : s.lexeme = .ok t s')
    (ht : t.kind ≠ .eof) : s'.rest.length < s.rest.length := by
  unfold lexeme at h
  split at h
  next =>
    cases h
    exact absurd rfl ht
  next c cs hr =>
    split at h
    next =>
      cases h
      simp [hr]
    next =>
      split at h
      next hl =>
        cases h
        exact length_skip_lt hr (by simp [isWordChar, hl])
      next =>
        split at h
        next hd =>
          cases h
          exact length_skip_lt hr hd
        next => cases h

/-- Every token but the last one takes some of the text. -/
theorem length_next_lt {s s' : Scanner} {t : Token} (h : next.run s = .ok t s')
    (ht : t.kind ≠ .eof) : s'.rest.length < s.rest.length :=
  Nat.lt_of_lt_of_le (length_lexeme_lt h ht) (length_skip_le _ s)

/-- All tokens of the text, the last one being its only `eof`. -/
def tokens (s : Scanner) : Except ScanError (List Token) :=
  match _h : next.run s with
  | .error e _ => .error e
  | .ok t s' =>
    if _ht : t.kind = .eof then .ok [t]
    else (t :: ·) <$> tokens s'
termination_by s.rest.length
decreasing_by exact length_next_lt ‹_› ‹_›

end Scanner

def tokenize (source : String) : Except ScanError (List Token) :=
  (Scanner.ofString source).tokens

end StackLang
