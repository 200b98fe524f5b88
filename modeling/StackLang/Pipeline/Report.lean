import StackLang.Numeral

namespace StackLang

namespace Text

/-- The integer nearest to `num / den`; a half goes to the even neighbour. -/
def roundDiv (num den : Nat) : Nat :=
  let q := num / den
  let r := num % den
  if 2 * r < den then q
  else if den < 2 * r then q + 1
  else q + q % 2

/-- `mantissa * 2 ^ exponent` in tenths, rounded to the nearest. -/
def tenths (mantissa : Nat) (exponent : Int) : Nat :=
  if 0 ≤ exponent then (10 * mantissa) <<< exponent.toNat
  else roundDiv (10 * mantissa) (1 <<< (-exponent).toNat)

/-- One decimal place, rounded from the exact binary value. -/
def oneDecimal (x : Float) : String :=
  let bits := x.toBits.toNat
  let sign := if bits >>> 63 = 1 then "-" else ""
  let biased : Nat := bits >>> 52 % 1 <<< 11
  let fraction : Nat := bits % 1 <<< 52
  if biased = 2047 then
    if fraction = 0 then sign ++ "inf" else "nan"
  else
    let n :=
      if biased = 0 then tenths fraction (-1074)
      else tenths (fraction + 1 <<< 52) ((biased : Int) - 1075)
    sign ++ toString (n / 10) ++ "." ++ toString (n % 10)

end Text

/-- Times are in seconds. -/
structure Report where
  sourceBytes : Int := 0
  sourceLines : Int := 0
  scanTime : Float := 0
  parseTime : Float := 0
  emitTime : Float := 0
  executionTime : Float := 0
  totalTime : Float := 0
  tokens : Int := 0
  elements : Int := 0
  instructions : Int := 0
  functions : Int := 0
  callSites : Int := 0
  steps : Int := 0
  peak : Int := 0

namespace Report

def milliseconds (t : Float) : String :=
  Text.padLeft 8 (Text.oneDecimal (t * 1000)) ++ "ms"

def row (stage time output : String) : String :=
  "  " ++ Text.padRight 20 stage ++ " " ++ Text.padLeft 10 time ++ "  " ++ Text.padLeft 30 output

def rule : String :=
  let line (n : Nat) : String := String.ofList (List.replicate n '─')
  row (line 20) (line 10) (line 30)

def text (r : Report) : Except Unwritable String := do
  let lines ← Numeral.write r.sourceLines
  let bytes ← Numeral.write r.sourceBytes
  let tokens ← Numeral.write r.tokens
  let elements ← Numeral.write r.elements
  let instructions ← Numeral.write r.instructions
  let functions ← Numeral.write r.functions
  let steps ← Numeral.write r.steps
  let callSites ← Numeral.write r.callSites
  let peak ← Numeral.write r.peak
  return "\n".intercalate
    ["═══ Pipeline Statistics ═══",
     "  Source: " ++ lines ++ " lines, " ++ bytes ++ " bytes",
     "",
     row "Stage" "Time" "Output",
     rule,
     row "Lex" (milliseconds r.scanTime) (tokens ++ " tokens"),
     row "Parse" (milliseconds r.parseTime) (elements ++ " top-level elements"),
     row "Generate" (milliseconds r.emitTime)
       (instructions ++ " instructions, " ++ functions ++ " functions"),
     row "Execute (VM)" (milliseconds r.executionTime) (steps ++ " steps"),
     rule,
     "  " ++ Text.padRight 20 "Total" ++ " " ++ milliseconds r.totalTime,
     "",
     "  Call sites: " ++ callSites,
     "  Peak stack size: " ++ peak]

end Report

end StackLang
