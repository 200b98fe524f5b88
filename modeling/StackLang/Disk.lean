import StackLang.Text.Quoted

namespace StackLang

inductive PathError where
  | missing
  | isFolder
  /-- The path goes on behind a file. -/
  | notFolder
  | forbidden
  | tooLong
  /-- No path holds a null character. -/
  | embeddedNull
deriving DecidableEq, Repr

def PathError.message (path : String) : PathError → String
  | missing => "[Errno 2] No such file or directory: " ++ Text.quoted path
  | isFolder => "[Errno 21] Is a directory: " ++ Text.quoted path
  | notFolder => "[Errno 20] Not a directory: " ++ Text.quoted path
  | forbidden => "[Errno 13] Permission denied: " ++ Text.quoted path
  | tooLong => "[Errno 36] File name too long: " ++ Text.quoted path
  | embeddedNull => "embedded null byte"

namespace Disk

/-- The names from an entry up to the root, its own name first. -/
abbrev Position := List String

inductive Entry where
  | file (bytes : List UInt8)
  | folder
deriving DecidableEq, Repr

def maxNameBytes : Nat := 255

def maxPathBytes : Nat := 4095

/-- The names of a path. Neighbouring slashes have an empty name between them. -/
def names : List Char → List (List Char)
  | [] => [[]]
  | '/' :: cs => [] :: names cs
  | c :: cs =>
    match names cs with
    | [] => [[c]]
    | first :: rest => (c :: first) :: rest

end Disk

structure Disk where
  /-- The folder where a path begins that does not begin at the root. -/
  current : Disk.Position
  /-- Whatever is below the root. -/
  entries : List (Disk.Position × Disk.Entry)

namespace Disk

def entry? (d : Disk) : Position → Option Entry
  | [] => some .folder
  | here => d.entries.lookup here

def enter (d : Disk) (here : Position) (name : String) : Except PathError Position :=
  match d.entry? here with
  | some .folder =>
    if name = "" ∨ name = "." then .ok here
    else if name = ".." then .ok here.tail
    else if maxNameBytes < name.utf8ByteSize then .error .tooLong
    else if (d.entry? (name :: here)).isSome then .ok (name :: here)
    else .error .missing
  | some (.file _) => .error .notFolder
  | none => .error .missing

def follow (d : Disk) (here : Position) : List String → Except PathError Position
  | [] => .ok here
  | name :: rest => do
    let here ← d.enter here name
    d.follow here rest

/-- Where a path leads to, from the root or from the current folder. Every name is looked up in a
folder: behind a file nothing follows, not even a closing slash. -/
def resolve (d : Disk) (path : String) : Except PathError Position :=
  let cs := path.toList
  let start := if cs.head? = some '/' then [] else d.current
  if cs.contains '\x00' then .error .embeddedNull
  else if cs.isEmpty then .error .missing
  else if maxPathBytes < path.utf8ByteSize then .error .tooLong
  else d.follow start ((names cs).map String.ofList)

def read (d : Disk) (path : String) : Except PathError (List UInt8) := do
  let here ← d.resolve path
  match d.entry? here with
  | some (.file bytes) => .ok bytes
  | some .folder => .error .isFolder
  | none => .error .missing

end Disk

end StackLang
