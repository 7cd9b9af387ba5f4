import Align.HttpDecoderSplit

/-! The streaming half of the response decoder. Body bytes go to a window of the
caller's that may fill at any point; what was not consumed waits for the next
read. A reader interleaves deliveries from the wire with reads of any positive
size. -/
namespace Align.Http
open Segments Feeding

/-- The caller's output buffer with what was written so far. -/
structure Window where
  capacity : Nat
  written : Bytes
deriving DecidableEq, Repr

def Window.space (w : Window) : Nat := w.capacity - w.written.length

def Window.write (w : Window) (bytes : Bytes) : Window := { w with written := w.written ++ bytes }

/-- What one turn of the streaming loop did; `more` is false where the loop is left. -/
structure StreamTurn where
  taken : Nat
  decoder : HttpResponseDecoder
  window : Window
  more : Bool
deriving DecidableEq, Repr

/-- The states that only framing bytes can leave. -/
def HttpDecodeState.betweenChunks : HttpDecodeState → Bool
  | .chunkSize => true
  | .chunkDataCrLf _ => true
  | _ => false

namespace HttpResponseDecoder

def headMachine : Machine HttpResponseDecoder UInt8 HttpParseErr :=
  { step := headStep, halted := fun d => d.state != .head }

/-- Advance over head bytes only, up to the first byte after the final head. -/
def feedHead (d : HttpResponseDecoder) (input : Bytes) :
    Except HttpParseErr (Nat × HttpResponseDecoder) :=
  headMachine.feed d input

def resetStreamFramingAllowance (d : HttpResponseDecoder) : HttpResponseDecoder :=
  { d with chunkFramingBytes := 0 }

def streamChargePayload (d : HttpResponseDecoder) (count : Nat) :
    Except HttpParseErr HttpResponseDecoder :=
  if 2 ^ 64 ≤ d.streamedBodyLen + count then .error .invalid
  else if d.explicitBodyLimit.any (· < d.streamedBodyLen + count) then .error .bodyLimit
  else .ok { d with streamedBodyLen := d.streamedBodyLen + count }

/-- Payload bytes into the window, as many as were framed, delivered and fit. -/
def streamPayload (d : HttpResponseDecoder) (w : Window) (framed : Nat)
    (after : Nat → HttpDecodeState) (rest : Bytes) : Except HttpParseErr StreamTurn :=
  if w.space = 0 then .ok { taken := 0, decoder := d, window := w, more := false }
  else
    let take := min (min framed rest.length) w.space
    (d.streamChargePayload take).map fun d =>
      { taken := take, decoder := d.setState (after (framed - take))
        window := w.write (rest.take take), more := true }

def streamChunkSize (d : HttpResponseDecoder) (w : Window) (rest : Bytes) :
    Except HttpParseErr StreamTurn :=
  let allowance := httpMaxChunkFraming - d.chunkFramingBytes
  if allowance = 0 then .error .invalid
  else
    let line := lineTake rest
    let take := min line allowance
    (d.feedChunkLine (rest.take take)).bind fun d =>
      if take < line ∨ (d.chunkFramingBytes = httpMaxChunkFraming ∧ d.state.betweenChunks = true) then
        .error .invalid
      else .ok { taken := take, decoder := d, window := w, more := true }

def streamCrLf (d : HttpResponseDecoder) (w : Window) (seen : Nat) (b : UInt8) :
    Except HttpParseErr StreamTurn :=
  if d.chunkFramingBytes = httpMaxChunkFraming then
    if w.written = [] then .error .invalid
    else .ok { taken := 0, decoder := d, window := w, more := false }
  else if (seen = 0 ∧ b ≠ Http.cr) ∨ (seen = 1 ∧ b ≠ lf) then .error .invalid
  else
    let d := d.chargeFraming 1
    let d := if seen = 1 then (d.setLine resetChunkLine).setState .chunkSize
      else d.setState (.chunkDataCrLf 1)
    if d.chunkFramingBytes = httpMaxChunkFraming then
      if w.written = [] then .error .invalid
      else .ok { taken := 1, decoder := d, window := w, more := false }
    else .ok { taken := 1, decoder := d, window := w, more := true }

def streamStep (d : HttpResponseDecoder) (w : Window) (rest : Bytes) :
    Except HttpParseErr StreamTurn :=
  match d.state, rest with
  | .complete, _ => .ok { taken := 0, decoder := d, window := w, more := false }
  | _, [] => .ok { taken := 0, decoder := d, window := w, more := false }
  | .head, _ => .error .invalid
  | .fixed remaining, rest =>
      d.streamPayload w remaining (fun left => if left = 0 then .complete else .fixed left) rest
  | .closeDelimited, rest => d.streamPayload w rest.length (fun _ => .closeDelimited) rest
  | .chunkSize, rest => d.streamChunkSize w rest
  | .chunkData remaining, rest =>
      d.streamPayload w remaining
        (fun left => if left = 0 then .chunkDataCrLf 0 else .chunkData left) rest
  | .chunkDataCrLf seen, b :: _ => d.streamCrLf w seen b
  | .trailers, b :: _ =>
      (d.feedTrailerByte b).map fun d => { taken := 1, decoder := d, window := w, more := true }

def streamLoop : Nat → HttpResponseDecoder → Window → Bytes →
    Except HttpParseErr (Nat × HttpResponseDecoder × Window)
  | 0, d, w, _ => .ok (0, d, w)
  | fuel + 1, d, w, rest =>
      if rest.isEmpty || d.complete then .ok (0, d, w)
      else
        (d.streamStep w rest).bind fun turn =>
          if turn.more then
            (streamLoop fuel turn.decoder turn.window (rest.drop turn.taken)).map
              fun (n, d, w) => (turn.taken + n, d, w)
          else .ok (turn.taken, turn.decoder, turn.window)

/-- Bytes consumed, the decoder and the window afterwards. -/
def feedStream (d : HttpResponseDecoder) (input : Bytes) (w : Window) :
    Except HttpParseErr (Nat × HttpResponseDecoder × Window) :=
  streamLoop (2 * input.length + 1) d w input

end HttpResponseDecoder

inductive StreamEvent where
  /-- The wire delivers bytes. -/
  | deliver (piece : Bytes)
  /-- The caller starts a read into a window of this size. -/
  | read (size : Nat)
  /-- The read goes on with the bytes delivered since. -/
  | resume
deriving DecidableEq, Repr

/-- A response being read: bytes received and not consumed, the window of the latest
read and what the reads before it gave out. -/
structure StreamReader where
  decoder : HttpResponseDecoder
  pending : Bytes
  consumed : Nat
  given : Bytes
  window : Window
deriving DecidableEq, Repr

namespace StreamReader

def new (methodIsHead : Bool) (limit : Option Nat) : StreamReader :=
  { decoder := .newStreaming methodIsHead limit, pending := [], consumed := 0, given := []
    window := { capacity := 0, written := [] } }

def output (r : StreamReader) : Bytes := r.given ++ r.window.written

/-- Until the final head is known every delivery goes to the head grammar. -/
def deliver (r : StreamReader) (piece : Bytes) : Except HttpParseErr StreamReader :=
  if r.decoder.state = .head then
    (r.decoder.feedHead (r.pending ++ piece)).map fun (n, d) =>
      { r with decoder := d, pending := (r.pending ++ piece).drop n, consumed := r.consumed + n }
  else .ok { r with pending := r.pending ++ piece }

/-- The pending bytes into the current window. -/
def pump (r : StreamReader) : Except HttpParseErr StreamReader :=
  if r.decoder.state = .head then .ok r
  else
    (r.decoder.feedStream r.pending r.window).map fun (n, d, w) =>
      { r with decoder := d, pending := r.pending.drop n, consumed := r.consumed + n, window := w }

/-- A new read: a fresh window and a fresh allowance for framing bytes. -/
def open_ (r : StreamReader) (size : Nat) : StreamReader :=
  { r with
    decoder := r.decoder.resetStreamFramingAllowance, given := r.output
    window := { capacity := size, written := [] } }

def step (r : StreamReader) : StreamEvent → Except HttpParseErr StreamReader
  | .deliver piece => r.deliver piece
  | .read size => (r.open_ size).pump
  | .resume => r.pump

def run (r : StreamReader) (events : List StreamEvent) : Except HttpParseErr StreamReader :=
  events.foldlM step r

end StreamReader

end Align.Http
