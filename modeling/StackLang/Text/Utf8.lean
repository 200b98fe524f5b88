namespace StackLang.Text

namespace Utf8

inductive Reason where
  | invalidStart
  | invalidContinuation
  | unexpectedEnd
deriving DecidableEq, Repr

/-- A sequence of `length` bytes from `start` on that encodes nothing. -/
structure Fault where
  start : Nat
  length : Nat
  lead : UInt8
  reason : Reason
deriving DecidableEq, Repr

/-- What a lead byte announces: the size of its sequence, the range of the second byte, and its own
share of the code point. -/
structure Lead where
  size : Nat
  low : UInt8
  high : UInt8
  payload : Nat

/-- Overlong forms, surrogates and code points above the last one are cut off by the range of the
second byte. -/
def Lead.of? (b : UInt8) : Option Lead :=
  if b < 0xc2 then none
  else if b < 0xe0 then some ⟨2, 0x80, 0xbf, b.toNat - 0xc0⟩
  else if b = 0xe0 then some ⟨3, 0xa0, 0xbf, 0⟩
  else if b = 0xed then some ⟨3, 0x80, 0x9f, 0xd⟩
  else if b < 0xf0 then some ⟨3, 0x80, 0xbf, b.toNat - 0xe0⟩
  else if b = 0xf0 then some ⟨4, 0x90, 0xbf, 0⟩
  else if b < 0xf4 then some ⟨4, 0x80, 0xbf, b.toNat - 0xf0⟩
  else if b = 0xf4 then some ⟨4, 0x80, 0x8f, 4⟩
  else none

def isContinuation (b : UInt8) : Bool :=
  0x80 ≤ b && b ≤ 0xbf

def extend (n : Nat) (b : UInt8) : Nat :=
  64 * n + (b.toNat - 0x80)

def decodeFrom (start : Nat) : List UInt8 → Except Fault (List Char)
  | [] => .ok []
  | b :: rest =>
    let fault (length : Nat) (reason : Reason) : Except Fault (List Char) :=
      .error ⟨start, length, b, reason⟩
    if b < 0x80 then (Char.ofNat b.toNat :: ·) <$> decodeFrom (start + 1) rest
    else
      match Lead.of? b with
      | none => fault 1 .invalidStart
      | some lead =>
        match rest with
        | [] => fault 1 .unexpectedEnd
        | b1 :: rest1 =>
          let n1 := extend lead.payload b1
          if b1 < lead.low ∨ lead.high < b1 then fault 1 .invalidContinuation
          else if lead.size = 2 then (Char.ofNat n1 :: ·) <$> decodeFrom (start + 2) rest1
          else
            match rest1 with
            | [] => fault 2 .unexpectedEnd
            | b2 :: rest2 =>
              let n2 := extend n1 b2
              if !isContinuation b2 then fault 2 .invalidContinuation
              else if lead.size = 3 then (Char.ofNat n2 :: ·) <$> decodeFrom (start + 3) rest2
              else
                match rest2 with
                | [] => fault 3 .unexpectedEnd
                | b3 :: rest3 =>
                  if !isContinuation b3 then fault 3 .invalidContinuation
                  else (Char.ofNat (extend n2 b3) :: ·) <$> decodeFrom (start + 4) rest3

def decode (bytes : List UInt8) : Except Fault (List Char) :=
  decodeFrom 0 bytes

end Utf8

end StackLang.Text
