import Mathlib.Data.Stream.Init
import StackLang.Token.Cursor

namespace StackLang.Cursor

/-- The tokens that are read from now on. -/
def stream (c : Cursor) : Stream' Token :=
  (c.pushback ++ c.unread) ++ₛ Stream'.const c.terminal

/-- The tokens of a list and then, for ever, the last one if it is an `eof`, else a plain `eof`. -/
def endless (ts : List Token) : Stream' Token :=
  ts ++ₛ Stream'.const ((ts.getLast?.filter (·.kind = .eof)).getD Token.terminal)

theorem stream_ofTokens (ts : List Token) : (ofTokens ts).stream = endless ts := by
  have hterminal : terminalOf ts = (ts.getLast?.filter (·.kind = .eof)).getD Token.terminal := by
    unfold terminalOf
    cases ts.getLast? with
    | none => rfl
    | some t =>
      dsimp only [Option.filter]
      by_cases ht : t.kind = .eof
      · simp [ht]
      · simp [ht]
  rw [endless, ← hterminal]
  rfl

@[simp] theorem stream_unget (t : Token) (c : Cursor) :
    (c.unget t).stream = Stream'.cons t c.stream :=
  rfl

/-- Reading takes the head. Past the end the tail is the sequence itself. -/
theorem cons_stream_next (c : Cursor) : Stream'.cons c.next.1 c.next.2.stream = c.stream := by
  obtain ⟨pushback, unread, terminal⟩ := c
  rcases pushback with _ | ⟨t, pushback⟩
  · rcases unread with _ | ⟨t, unread⟩
    · exact (Stream'.const_eq terminal).symm
    · rfl
  · rfl

theorem head_stream (c : Cursor) : c.stream.head = c.next.1 := by
  rw [← cons_stream_next, Stream'.head_cons]

theorem tail_stream (c : Cursor) : c.stream.tail = c.next.2.stream := by
  rw [← cons_stream_next, Stream'.tail_cons]

/-- What is done with a cursor. A token is looked at in place by `peek`, and by `probe` in that it
is read and put back. -/
inductive Operation where
  | next
  | peek
  | probe
  | unget (t : Token)
deriving DecidableEq, Repr

namespace Operation

/-- The answer of an operation, and the cursor behind it. -/
def onCursor : Operation → Cursor → Option Token × Cursor
  | next, c => (some c.next.1, c.next.2)
  | peek, c => (some c.peek, c)
  | probe, c => (some c.next.1, c.next.2.unget c.next.1)
  | unget t, c => (none, c.unget t)

def onStream : Operation → Stream' Token → Option Token × Stream' Token
  | next, s => (some s.head, s.tail)
  | peek, s | probe, s => (some s.head, s)
  | unget t, s => (none, Stream'.cons t s)

def replies {σ : Type} (perform : Operation → σ → Option Token × σ) :
    σ → List Operation → List (Option Token)
  | _, [] => []
  | s, op :: ops => (perform op s).1 :: replies perform (perform op s).2 ops

theorem onStream_stream (op : Operation) (c : Cursor) :
    op.onStream c.stream = ((op.onCursor c).1, (op.onCursor c).2.stream) := by
  cases op with
  | next => rw [onStream, onCursor, head_stream, tail_stream]
  | peek => rw [onStream, onCursor, head_stream, Cursor.peek]
  | probe => rw [onStream, onCursor, head_stream, stream_unget, cons_stream_next]
  | unget t => rfl

theorem replies_stream (c : Cursor) (ops : List Operation) :
    replies onCursor c ops = replies onStream c.stream ops := by
  induction ops generalizing c with
  | nil => rfl
  | cons op ops ih =>
    have hstep := onStream_stream op c
    rw [replies, replies, hstep, ih]

end Operation

/-- However tokens are read, looked at and put back, a cursor over a list answers like the list
with its terminal tokens behind it: reading takes the head off, looking leaves all as it is, and
putting back puts in front. -/
theorem replies_endless (ts : List Token) (ops : List Operation) :
    Operation.replies Operation.onCursor (ofTokens ts) ops =
      Operation.replies Operation.onStream (endless ts) ops := by
  rw [Operation.replies_stream, stream_ofTokens]

/-- A look past the end leaves a token behind, which is read after the one put in front of it. -/
theorem replies_endless_past_end :
    let last : Token := ⟨.eof, some (.int 7)⟩
    let ts : List Token := [⟨.semi, none⟩, last]
    let ops : List Operation :=
      [.next, .next, .probe, .unget ⟨.comma, none⟩, .peek, .next, .next, .next]
    (Operation.onCursor .probe ⟨[], [], last, rfl⟩).2 = ⟨[last], [], last, rfl⟩ ∧
      Operation.replies Operation.onStream (endless ts) ops =
        [some ⟨.semi, none⟩, some last, some last, none, some ⟨.comma, none⟩,
          some ⟨.comma, none⟩, some last, some last] := by
  intro last ts ops
  refine ⟨rfl, ?_⟩
  rw [← replies_endless]
  decide

end StackLang.Cursor
