import WordMachine.Fault

/-!
# `Machine.Console` — line input and output of a running program

Input arrives in chunks and is read through a buffer; output goes to a sink, directly or through a
buffer. A sink may have limited room.

Contents:
* `Input.take`: what the source delivers when it is asked for bytes;
* `Sink.write`, `Output.write`, `Output.flush`;
* `Console.readLine`, `Console.rewind`.
-/

namespace WordMachine

/-- The size of both buffers. -/
def bufferSize : Nat := 4096

theorem bufferSize_pos : 0 < bufferSize := by decide

/-! ## Input -/

/-- A source of bytes: the chunks it still delivers, one for each read, and whether it fails after them instead
of ending. -/
structure Input where
  chunks : List Bytes
  fails : Bool := false

namespace Input

/-- A source that delivers a text as one chunk. -/
def ofBytes (text : Bytes) (fails : Bool) : Input := ⟨[text], fails⟩

/-- All bytes still to come. -/
def remaining (i : Input) : Bytes := i.chunks.flatten

/-- How many reads in a row may bring nothing before a source is given up. -/
def patience : Nat := 100

/-- What comes of asking a source for bytes, with the chunks that are left. -/
inductive Delivery where
  | bytes (data : Bytes) (rest : List Bytes)
  | ended
  | stalled (rest : List Bytes)

/-- Ask for at most `count` bytes by at most so many reads. An empty chunk is a read that brings nothing. -/
def take (count : Nat) : Nat → List Bytes → Delivery
  | 0, chunks => .stalled chunks
  | _ + 1, [] => .ended
  | reads + 1, [] :: rest => take count reads rest
  | _ + 1, (b :: chunk) :: rest =>
      if (b :: chunk).length ≤ count then .bytes (b :: chunk) rest
      else .bytes ((b :: chunk).take count) ((b :: chunk).drop count :: rest)

/-- The number of bytes in some chunks. -/
def volume (chunks : List Bytes) : Nat := chunks.flatten.length

/-- Taking bytes leaves fewer of them. -/
theorem volume_lt_of_take {count reads : Nat} (hc : 0 < count) {chunks rest : List Bytes} {data : Bytes}
    (h : take count reads chunks = .bytes data rest) : volume rest < volume chunks := by
  fun_induction take count reads chunks with
  | case1 | case2 => cases h
  | case3 reads chunks ih => exact ih h
  | case4 reads b chunk chunks hle =>
      cases h
      simp only [volume, List.flatten_cons, List.length_append, List.length_cons]
      omega
  | case5 reads b chunk chunks hlt =>
      cases h
      simp only [volume, List.flatten_cons, List.length_append, List.length_drop, List.length_cons]
      omega

/-- The failure after the last chunk. -/
def ending (i : Input) : HostFailure := if i.fails then .device else .inputClosed

end Input

/-! ## Output -/

/-- A sink with the bytes it has received; limited ones refuse a write beyond their room. -/
structure Sink where
  received : Array UInt8 := #[]
  room : Option Nat := none

namespace Sink

/-- Take all bytes, or refuse them all. -/
def write (s : Sink) (data : Bytes) : Sink × Option HostFailure :=
  if s.room.all fun room => s.received.size + data.length ≤ room then
    ({ s with received := s.received ++ data.toArray }, none)
  else (s, some .device)

end Sink

/-- Where console output goes. -/
inductive Output where
  /-- Nowhere. -/
  | discard
  /-- To a sink, write by write. -/
  | direct (sink : Sink)
  /-- To a sink through a buffer; the first failure sticks. -/
  | buffered (sink : Sink) (pending : Bytes) (failure : Option HostFailure)

namespace Output

/-- The bytes that have reached the sink. -/
def received : Output → Array UInt8
  | .discard => #[]
  | .direct sink => sink.received
  | .buffered sink .. => sink.received

/-- Bring pending bytes to the sink. -/
def flush : Output → Output × Option HostFailure
  | .buffered sink pending (some failure) => (.buffered sink pending (some failure), some failure)
  | .buffered sink pending none =>
      if pending.isEmpty then (.buffered sink pending none, none)
      else
        match sink.write pending with
        | (sink, none) => (.buffered sink [] none, none)
        | (sink, some failure) => (.buffered sink pending (some failure), some failure)
  | out => (out, none)

/-- Write through a buffer: bytes that fit are kept; more fill the buffer, which then goes to the sink,
and with nothing pending they go to the sink at once. The count tells the bytes taken. The fuel bounds
the number of passes, of which there are at most two. -/
def writeBuffered (sink : Sink) (pending : Bytes) :
    Nat → Nat → Bytes → Output × Nat × Option HostFailure
  | 0, taken, data => (.buffered sink (pending ++ data) none, taken + data.length, none)
  | fuel + 1, taken, data =>
      let free := bufferSize - pending.length
      if data.length ≤ free then (.buffered sink (pending ++ data) none, taken + data.length, none)
      else if pending.isEmpty then
        match sink.write data with
        | (sink, none) => (.buffered sink [] none, taken + data.length, none)
        | (sink, some failure) => (.buffered sink [] (some failure), taken, some failure)
      else
        match sink.write (pending ++ data.take free) with
        | (sink, none) => writeBuffered sink [] fuel (taken + free) (data.drop free)
        | (sink, some failure) =>
            (.buffered sink (pending ++ data.take free) (some failure), taken + free, some failure)

/-- Write bytes; the count tells how many were taken. -/
def write (out : Output) (data : Bytes) : Output × Nat × Option HostFailure :=
  match out with
  | .discard => (.discard, data.length, none)
  | .direct sink =>
      match sink.write data with
      | (sink, none) => (.direct sink, data.length, none)
      | (sink, some failure) => (.direct sink, 0, some failure)
  | .buffered sink pending (some failure) => (.buffered sink pending (some failure), 0, some failure)
  | .buffered sink pending none => writeBuffered sink pending 2 0 data

end Output

/-! ## The console -/

/-- The console of a program: a source if there is one, the bytes taken from it and not yet read, and
the output. -/
structure Console where
  input : Option Input := none
  buffer : Bytes := []
  output : Output := .discard

namespace Console

/-- Why a read stops. -/
inductive Stop where
  | newline
  | ended
  | stalled

/-- What remains of a read: the bytes of the line, why there are no more, the buffer and the chunks after
it. -/
structure Reading where
  line : Bytes
  stop : Stop
  buffer : Bytes
  chunks : List Bytes

/-- The bytes that stay in a buffer before it is filled: none if it is full. -/
def kept (buffer : Bytes) : Bytes := if buffer.length < bufferSize then buffer else []

/-- The bytes that leave a buffer before it is filled. -/
def moved (buffer : Bytes) : Bytes := if buffer.length < bufferSize then [] else buffer

theorem room_pos (buffer : Bytes) : 0 < bufferSize - (kept buffer).length := by
  unfold kept
  split
  next hlt => exact Nat.sub_pos_of_lt hlt
  · exact bufferSize_pos

/-- Read up to a newline. The buffer is searched first; without a newline in it more bytes are taken
from the source into its free space, after a full buffer has been moved to the line. -/
def readUntilNewline (line buffer : Bytes) (chunks : List Bytes) : Reading :=
  match Bytes.cut? Ascii.newline buffer with
  | some (before, after) => ⟨line ++ before, .newline, after, chunks⟩
  | none =>
      match h : Input.take (bufferSize - (kept buffer).length) Input.patience chunks with
      | .bytes data rest =>
          have := Input.volume_lt_of_take (room_pos buffer) h
          readUntilNewline (line ++ moved buffer) (kept buffer ++ data) rest
      | .ended => ⟨line ++ buffer, .ended, [], []⟩
      | .stalled rest => ⟨line ++ buffer, .stalled, [], rest⟩
termination_by Input.volume chunks

/-- Write to the output. -/
def write (c : Console) (data : Bytes) : Console × Nat × Option HostFailure :=
  let (output, taken, failure) := c.output.write data
  ({ c with output := output }, taken, failure)

/-- Bring pending output to the sink. -/
def flush (c : Console) : Console × Option HostFailure :=
  let (output, failure) := c.output.flush
  ({ c with output := output }, failure)

/-- What a read returns: a line without its newline and one carriage return before it. A last line without
newline counts if it holds a byte. Bytes read before a failure are returned with it. -/
def Reading.result (r : Reading) (input : Input) : Bytes × Option HostFailure :=
  match r.stop with
  | .newline => (Bytes.dropReturn r.line, none)
  | .ended =>
      if r.line.isEmpty || input.fails then (r.line, some input.ending) else (Bytes.dropReturn r.line, none)
  | .stalled => (r.line, some .noProgress)

/-- Read a line, after pending output has been flushed. -/
def readLine (c : Console) : Console × Bytes × Option HostFailure :=
  match c.flush with
  | (c, some failure) => (c, [], some failure)
  | (c, none) =>
      match c.input with
      | none => (c, [], some .inputClosed)
      | some input =>
          let r := readUntilNewline [] c.buffer input.chunks
          ({ c with buffer := r.buffer, input := some { input with chunks := r.chunks } }, r.result input)

/-- Drop the bytes that were taken from the source and not read. -/
def rewind (c : Console) : Console := { c with buffer := [] }

end Console

end WordMachine
