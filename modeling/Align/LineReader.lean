import Align.Refills

/-! Buffered line reading. The loop looks for a line feed in the lookahead, takes a
lookahead without one whole, and refills; a carriage return at the end of a lookahead
is held back until the next byte says what it was. -/
namespace Align.LineReader
open Refills List

abbrev Bytes := List UInt8

def lf : UInt8 := 10

def cr : UInt8 := 13

structure Reader where
  lookahead : Bytes
  refills : List (Refill Nat UInt8)

/-- What a call returns, with the buffer's body: the source's negative results are
`Invalid` and the status of a failed refill. -/
inductive Outcome where
  | line (consumed : Nat) (body : Bytes)
  | invalid
  | failed (status : Nat)
deriving DecidableEq

/-- `strip_suffix(b"\r").unwrap_or(span)`. -/
def stripCr (span : Bytes) : Bytes := if span.getLast? = some cr then span.dropLast else span

def appendLineBody (data : Bytes) (pendingCr : Bool) (span : Bytes) (cap : Nat) : Option Bytes :=
  if cap < data.length + pendingCr.toNat + span.length then none
  else some (data ++ ((if pendingCr then [cr] else []) ++ span))

structure Held where
  data : Bytes
  pendingCr : Bool
  consumed : Nat

/-- The lookahead has a line feed at `rel`. -/
def endLine (cap : Nat) (held : Held) (hay : Bytes) (rel : Nat) : Outcome :=
  let span := hay.take rel
  match appendLineBody held.data (held.pendingCr && !span.isEmpty) (stripCr span) cap with
  | none => .invalid
  | some data => .line (held.consumed + (rel + 1)) data

def takeHay (cap : Nat) (held : Held) (hay : Bytes) : Option Held :=
  if hay.isEmpty then some held
  else (appendLineBody held.data held.pendingCr (stripCr hay) cap).map fun data =>
    ⟨data, hay.getLast? == some cr, held.consumed + hay.length⟩

/-- With no line feed to come, a held carriage return is body. -/
def endStream (cap : Nat) (held : Held) : Outcome :=
  match if held.pendingCr then appendLineBody held.data true [] cap else some held.data with
  | none => .invalid
  | some data => .line held.consumed data

def readLineLoop (cap : Nat) : List (Refill Nat UInt8) → Bytes → Held → Outcome × Reader
  | refills, hay, held =>
    match hay.findIdx? (· == lf) with
    | some rel => (endLine cap held hay rel, ⟨hay.drop (rel + 1), refills⟩)
    | none =>
      match takeHay cap held hay with
      | none => (.invalid, ⟨[], refills⟩)
      | some held =>
        match refills with
        | [] => (endStream cap held, ⟨[], []⟩)
        | .failed status :: refills => (.failed status, ⟨[], refills⟩)
        | .items first others :: refills => readLineLoop cap refills (first :: others) held

def readLineWithCap (cap : Nat) (r : Reader) : Outcome × Reader :=
  readLineLoop cap r.refills r.lookahead ⟨[], false, 0⟩

def Held.text (held : Held) : Bytes := held.data ++ if held.pendingCr then [cr] else []

/-- What the locals say about the part of the line that was read. -/
structure Held.Ok (cap : Nat) (held : Held) : Prop where
  fits : held.data.length ≤ cap
  free : lf ∉ held.text
  plain : held.pendingCr = false → held.data.getLast? ≠ some cr
  count : held.consumed = held.text.length

variable {cap : Nat} {held : Held}

def calls (cap : Nat) : Nat → Reader → List Outcome
  | 0, _ => []
  | n + 1, r => (readLineWithCap cap r).1 :: calls cap n (readLineWithCap cap r).2

end Align.LineReader
