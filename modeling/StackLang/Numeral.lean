import StackLang.Text.Blank

namespace StackLang

namespace Text

/-- The zero of each row of ten decimal digits. -/
def digitZeros : List Nat :=
  [0x30, 0x660, 0x6f0, 0x7c0, 0x966, 0x9e6, 0xa66, 0xae6, 0xb66, 0xbe6, 0xc66, 0xce6, 0xd66, 0xde6,
   0xe50, 0xed0, 0xf20, 0x1040, 0x1090, 0x17e0, 0x1810, 0x1946, 0x19d0, 0x1a80, 0x1a90, 0x1b50,
   0x1bb0, 0x1c40, 0x1c50, 0xa620, 0xa8d0, 0xa900, 0xa9d0, 0xa9f0, 0xaa50, 0xabf0, 0xff10, 0x104a0,
   0x10d30, 0x11066, 0x110f0, 0x11136, 0x111d0, 0x112f0, 0x11450, 0x114d0, 0x11650, 0x116c0,
   0x11730, 0x118e0, 0x11950, 0x11c50, 0x11d50, 0x11da0, 0x16a60, 0x16ac0, 0x16b50, 0x1d7ce,
   0x1d7d8, 0x1d7e2, 0x1d7ec, 0x1d7f6, 0x1e140, 0x1e2f0, 0x1e950, 0x1fbf0]

def digitValue? (c : Char) : Option Nat :=
  (digitZeros.find? fun z => z ≤ c.toNat && c.toNat ≤ z + 9).map (c.toNat - ·)

end Text

/-- The most digits that an integer may have to be written or read. -/
def maxDigits : Nat := 4300

inductive Unwritable where
  /-- It holds an integer of more than `maxDigits` digits. -/
  | tooManyDigits
  /-- It shows an opcode that the machine does not have. -/
  | unknownOpcode
  /-- It is the report of a check that is not part of this program. -/
  | foreignReport
deriving DecidableEq, Repr

namespace Numeral

def digitsOnto (n : Nat) (tail : List Char) : List Char :=
  if n < 10 then Nat.digitChar n :: tail
  else digitsOnto (n / 10) (Nat.digitChar (n % 10) :: tail)
termination_by n

def digits (n : Nat) : List Char :=
  digitsOnto n []

theorem digitsOnto_eq (n : Nat) (tail : List Char) : digitsOnto n tail = digits n ++ tail := by
  induction n using Nat.strongRecOn generalizing tail with
  | ind n ih =>
    by_cases h : n < 10
    · simp [digits, digitsOnto, h]
    · have hn : n / 10 < n := by omega
      unfold digits
      rw [digitsOnto, if_neg h, ih _ hn]
      rw [digitsOnto, if_neg h, ih _ hn, List.append_assoc]
      rfl

theorem digits_of_lt {n : Nat} (h : n < 10) : digits n = [Nat.digitChar n] := by
  rw [digits, digitsOnto, if_pos h]

theorem digits_of_le {n : Nat} (h : 10 ≤ n) :
    digits n = digits (n / 10) ++ [Nat.digitChar (n % 10)] := by
  rw [digits, digitsOnto, if_neg (by omega), digitsOnto_eq]

def Writable (n : Int) : Prop :=
  n.natAbs < Nat.pow 10 maxDigits

instance (n : Int) : Decidable (Writable n) :=
  inferInstanceAs (Decidable (_ < _))

def text (n : Int) : String :=
  String.ofList (if n < 0 then '-' :: digits n.natAbs else digits n.natAbs)

/-- The decimal text of an integer that is not too long to be written. -/
def write (n : Int) : Except Unwritable String :=
  if Writable n then .ok (text n) else .error .tooManyDigits

def writeAll (separator : String) (ns : List Int) : Except Unwritable String :=
  separator.intercalate <$> ns.mapM write

/-- The digits of a numeral; a single underscore may stand between two of them. -/
def digitList? : List Char → Option (List Nat)
  | [] => none
  | [c] => (Text.digitValue? c).map fun d => [d]
  | c :: '_' :: cs => do
    let d ← Text.digitValue? c
    let ds ← digitList? cs
    return d :: ds
  | c :: cs => do
    let d ← Text.digitValue? c
    let ds ← digitList? cs
    return d :: ds

def ofDigits (ds : List Nat) : Nat :=
  ds.foldl (fun n d => 10 * n + d) 0

def unsigned? (cs : List Char) : Option Nat := do
  let ds ← digitList? cs
  if ds.length ≤ maxDigits then some (ofDigits ds) else none

/-- What may stand around a numeral: blanks, but not the four information separators. -/
def isPadding (c : Char) : Bool :=
  Text.isBlank c && !Text.inRanges [(0x1c, 0x1f)] c

/-- Reads an integer: padding around it, one sign, digits. -/
def read? (cs : List Char) : Option Int :=
  match Text.trimBy isPadding cs with
  | '+' :: rest => (unsigned? rest).map fun n => (n : Int)
  | '-' :: rest => (unsigned? rest).map fun n => -(n : Int)
  | rest => (unsigned? rest).map fun n => (n : Int)

end Numeral

end StackLang
