import StackLang.Instruction.Basic
import StackLang.Text.Quoted

namespace StackLang

inductive ListingError where
  | wordCount (line : Int) (text : String)
  | mnemonic (line : Int) (word : String)
  | operand (line : Int) (word : String)
deriving DecidableEq, Repr

namespace ListingError

def line : ListingError → Int
  | wordCount n _ | mnemonic n _ | operand n _ => n

def message (e : ListingError) : Except Unwritable String := do
  let n ← Numeral.write e.line
  match e with
  | wordCount _ s =>
    return "ListingError: Malformed instruction listing: line " ++ n ++
      ": expected 'mnemonic [operand]', got " ++ Text.quoted s
  | mnemonic _ s =>
    return "ListingError: Unknown opcode: line " ++ n ++ ": unknown mnemonic " ++ Text.quoted s
  | operand _ s =>
    return "ListingError: Malformed instruction listing: line " ++ n ++ ": operand " ++
      Text.quoted s ++ " is not an integer"

end ListingError

namespace Listing

/-- The line behind the last instruction. -/
def closing : String := "stack"

/-- Every line ends with a line feed. -/
def format (program : List Instruction) (close : Bool) : Except Unwritable String := do
  let lines ← program.mapM Instruction.text
  return String.join ((lines ++ if close then [closing] else []).map (· ++ "\n"))

/-- Reads one line, a mnemonic with or without an operand. -/
def parseLine (number : Int) (line : List Char) : Except ListingError Instruction :=
  match Text.words line with
  | [word] => (⟨·, 0⟩) <$> opcode word
  | [word, operand] => do
    let op ← opcode word
    match Numeral.read? operand with
    | some n => return ⟨op, n⟩
    | none => throw (.operand number (String.ofList operand))
  | _ => .error (.wordCount number (String.ofList line))
where
  opcode (word : List Char) : Except ListingError Opcode :=
    match Opcode.ofMnemonic? (String.ofList word) with
    | some op => .ok op
    | none => .error (.mnemonic number (String.ofList word))

/-- Reads the lines from number `n` on. Blank ones are passed over, and the closing line ends the
program whatever follows. -/
def parseLines (n : Nat) : List (List Char) → Except ListingError (List Instruction)
  | [] => .ok []
  | l :: ls =>
    let line := Text.trim l
    if line = [] then parseLines (n + 1) ls
    else if line = closing.toList then .ok []
    else do
      let i ← parseLine n line
      let is ← parseLines (n + 1) ls
      return i :: is

def parse (text : String) : Except ListingError (List Instruction) :=
  parseLines 1 (Text.lines text.toList)

end Listing

end StackLang
