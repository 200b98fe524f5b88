import StackLang.Disk
import StackLang.Numeral
import StackLang.Text.Utf8

namespace StackLang

inductive ReadError where
  | path (path : String) (e : PathError)
  | encoding (f : Text.Utf8.Fault)
deriving DecidableEq, Repr

namespace ReadError

def encodingMessage (f : Text.Utf8.Fault) : String :=
  let start := Numeral.text f.start
  let subject :=
    if f.length = 1 then
      "byte 0x" ++ String.ofList (Text.hex 2 f.lead.toNat) ++ " in position " ++ start
    else "bytes in position " ++ start ++ "-" ++ Numeral.text (f.start + f.length - 1 : Nat)
  let reason :=
    match f.reason with
    | .invalidStart => "invalid start byte"
    | .invalidContinuation => "invalid continuation byte"
    | .unexpectedEnd => "unexpected end of data"
  "'utf-8' codec can't decode " ++ subject ++ ": " ++ reason

def message : ReadError → String
  | path p e => e.message p
  | encoding f => encodingMessage f

end ReadError

/-- The text that some bytes encode in UTF-8. Its line ends become line feeds. -/
def decodeText (bytes : List UInt8) : Except ReadError String :=
  match Text.Utf8.decode bytes with
  | .error f => .error (.encoding f)
  | .ok cs => .ok (String.ofList (Text.unifyNewlines cs))

end StackLang
