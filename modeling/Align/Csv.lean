import Align.Scan

/-! The CSV reader: cells as extents of the input, the record parser with its
visitor, and the searches it runs on. The parser holds a position in the input;
a visitor holds a state of its own and may stop the record with a status. -/
namespace Align.Csv
open Scan

abbrev Bytes := List UInt8

def quote : UInt8 := 0x22
def comma : UInt8 := 0x2C
def cr : UInt8 := 0x0D
def lf : UInt8 := 0x0A

inductive Status where
  | ok
  | invalid
  | limit
  | badAbi
deriving DecidableEq, Repr

inductive Eol where
  | crlf
  | lf
deriving DecidableEq, Repr

/-! Searches. The `memchr` routines return the first occurrence. -/

def nextQuote (input : Bytes) : Option Nat :=
  match (input.take 16).findIdx? (· == quote) with
  | some index => some index
  | none =>
      if input.length ≤ 16 then none
      else ((input.drop 16).findIdx? (· == quote)).map (16 + ·)

def isDelimiter (b : UInt8) : Bool := b == comma || b == cr || b == lf

def isBoundary (b : UInt8) : Bool := isDelimiter b || b == quote

/-- Chunks of 256 bytes; a quote in front of the chunk's first delimiter wins. -/
def unquotedBoundaryTail : Nat → Nat → Bytes → Option Nat
  | 0, _, _ => none
  | fuel + 1, offset, input =>
      if input = [] then none
      else
        let chunk := input.take 256
        let delimiter := (chunk.findIdx? isDelimiter).getD chunk.length
        match (chunk.take delimiter).findIdx? (· == quote) with
        | some found => some (offset + found)
        | none =>
            if delimiter < chunk.length then some (offset + delimiter)
            else unquotedBoundaryTail fuel (offset + chunk.length) (input.drop 256)

def nextUnquotedBoundary (input : Bytes) : Option Nat :=
  match (input.take 16).findIdx? isBoundary with
  | some index => some index
  | none =>
      if input.length ≤ 16 then none
      else (unquotedBoundaryTail (input.length + 1) 0 (input.drop 16)).map (16 + ·)

structure Cell where
  start : Nat
  stop : Nat
  escaped : Bool
deriving DecidableEq, Repr

/-- `src[start..stop]`. -/
def slice (src : Bytes) (start stop : Nat) : Bytes := (src.take stop).drop start

def decodedLenLoop (src : Bytes) (stop : Nat) : Nat → Nat → Nat → Option Nat
  | 0, _, _ => none
  | fuel + 1, p, n =>
      match nextQuote (slice src p stop) with
      | none => some n
      | some offset =>
          let q := p + offset
          if q + 1 ≥ stop ∨ src[q + 1]? ≠ some quote then none
          else decodedLenLoop src stop fuel (q + 2) (n - 1)

def Cell.decodedLen (cell : Cell) (src : Bytes) : Option Nat :=
  if cell.stop < cell.start then none
  else if ¬ cell.escaped then some (cell.stop - cell.start)
  else decodedLenLoop src cell.stop (cell.stop + 1) cell.start (cell.stop - cell.start)

/-- The chunks handed to the callback; the open run starts where the search does. -/
def chunksLoop (src : Bytes) (stop : Nat) : Nat → Nat → Option (List Bytes)
  | 0, _ => none
  | fuel + 1, p =>
      match nextQuote (slice src p stop) with
      | none => some [slice src p stop]
      | some offset =>
          let q := p + offset
          if q + 1 ≥ stop ∨ src[q + 1]? ≠ some quote then none
          else (chunksLoop src stop fuel (q + 2)).map fun rest => slice src p q :: [quote] :: rest

def Cell.chunks (cell : Cell) (src : Bytes) : Option (List Bytes) :=
  if ¬ cell.escaped then some [slice src cell.start cell.stop]
  else chunksLoop src cell.stop (cell.stop + 1) cell.start

/-- The bytes `copy_decoded` writes. -/
def Cell.decoded (cell : Cell) (src : Bytes) : Option Bytes := (cell.chunks src).map List.flatten

def bom : Bytes := [0xEF, 0xBB, 0xBF]

def parserStart (src : Bytes) : Nat := if bom.isPrefixOf src then 3 else 0

/-- The length of the line ending at `p`, if one stands there. -/
def atEol (src : Bytes) (eol : Eol) (p : Nat) : Except Unit (Option Nat) :=
  match eol with
  | .lf =>
      if src[p]? = some lf then .ok (some 1)
      else if src[p]? = some cr then .error ()
      else .ok none
  | .crlf =>
      if src[p]? = some cr ∧ src[p + 1]? = some lf then .ok (some 2)
      else if src[p]? = some cr ∨ src[p]? = some lf then .error ()
      else .ok none

/-- A quoted field from behind its opening quote; the position behind the closing one. -/
def quotedLoop (src : Bytes) (start : Nat) : Nat → Nat → Bool → Except Status (Cell × Nat)
  | 0, _, _ => .error .invalid
  | fuel + 1, pos, escaped =>
      match src[pos]? with
      | none => .error .invalid
      | some byte =>
          let p := if byte = quote then pos
            else pos + (nextQuote (src.drop pos)).getD (src.drop pos).length
          if byte ≠ quote ∧ p = src.length then .error .invalid
          else if src[p + 1]? = some quote then quotedLoop src start fuel (p + 2) true
          else .ok (⟨start, p, escaped⟩, p + 1)

def unquotedLoop (src : Bytes) (eol : Eol) : Nat → Nat → Except Status Nat
  | 0, _ => .error .invalid
  | fuel + 1, pos =>
      match src[pos]? with
      | none => .ok pos
      | some byte =>
          if byte = comma then .ok pos
          else match atEol src eol pos with
            | .error _ => .error .invalid
            | .ok (some _) => .ok pos
            | .ok none =>
                if byte = quote then .error .invalid
                else unquotedLoop src eol fuel
                  (pos + (nextUnquotedBoundary (src.drop pos)).getD (src.drop pos).length)

def field (src : Bytes) (eol : Eol) (pos : Nat) : Except Status (Cell × Nat) :=
  if src[pos]? = some quote then quotedLoop src (pos + 1) (src.length + 1) (pos + 1) false
  else match unquotedLoop src eol (src.length + 1) pos with
    | .error status => .error status
    | .ok stop => .ok (⟨pos, stop, false⟩, stop)

section Record
variable {σ : Type} (src : Bytes) (eol : Eol) (fieldLimit : Option (Nat × Status))
  (visit : Nat → Cell → σ → Except Status σ)

def recordLoop : Nat → Nat → Nat → σ → Except Status (Nat × Nat × σ)
  | 0, _, _, _ => .error .invalid
  | fuel + 1, ordinal, pos, state =>
      match fieldLimit.filter (·.1 = ordinal) with
      | some (_, status) => .error status
      | none =>
          match field src eol pos with
          | .error status => .error status
          | .ok (cell, pos) =>
              match visit ordinal cell state with
              | .error status => .error status
              | .ok state =>
                  if pos = src.length then .ok (ordinal + 1, pos, state)
                  else if src[pos]? = some comma then recordLoop fuel (ordinal + 1) (pos + 1) state
                  else match atEol src eol pos with
                    | .ok (some width) => .ok (ordinal + 1, pos + width, state)
                    | _ => .error .invalid

/-- One record: how many fields it had, the position behind it and the visitor's
state; nothing at the end of the input. -/
def record (pos : Nat) (state : σ) : Except Status (Option (Nat × Nat × σ)) :=
  if pos = src.length then .ok none
  else match recordLoop src eol fieldLimit visit (src.length + 1) 0 pos state with
    | .error status => .error status
    | .ok result => .ok (some result)

end Record

def collect (_ : Nat) (cell : Cell) (cells : List Cell) : Except Status (List Cell) :=
  .ok (cells ++ [cell])

def recordCells (src : Bytes) (eol : Eol) (pos : Nat) : Except Status (Option (Nat × Nat × List Cell)) :=
  record src eol none collect pos []

/-- Record after record until the end of the input. -/
def recordsLoop (src : Bytes) (eol : Eol) : Nat → Nat → Except Status (List (List Cell))
  | 0, _ => .error .invalid
  | fuel + 1, pos =>
      match recordCells src eol pos with
      | .error status => .error status
      | .ok none => .ok []
      | .ok (some (_, pos, cells)) =>
          match recordsLoop src eol fuel pos with
          | .error status => .error status
          | .ok rest => .ok (cells :: rest)

def records (src : Bytes) (eol : Eol) : Except Status (List (List Cell)) :=
  recordsLoop src eol (src.length + 1) (parserStart src)

theorem nextQuote_eq (input : Bytes) : nextQuote input = input.findIdx? (· == quote) :=
  findIdx?_split _ _ _

theorem boundary_chunk (chunk : Bytes) :
    (match (chunk.take ((chunk.findIdx? isDelimiter).getD chunk.length)).findIdx? (· == quote) with
      | some found => some found
      | none => chunk.findIdx? isDelimiter) = chunk.findIdx? isBoundary :=
  findIdx?_either _ _ _

theorem unquotedBoundaryTail_eq (offset : Nat) (input : Bytes) (enough : input.length < fuel) :
    unquotedBoundaryTail fuel offset input = (input.findIdx? isBoundary).map (offset + ·) := by
  induction fuel generalizing offset input with
  | zero => omega
  | succ fuel ih =>
    by_cases empty : input = []
    · simp [unquotedBoundaryTail, empty]
    have shorter : (input.drop 256).length < fuel := by
      have filled := List.length_pos_of_ne_nil empty
      rw [List.length_drop]
      omega
    have chunk := boundary_chunk (input.take 256)
    rw [unquotedBoundaryTail, if_neg empty, ← findIdx?_split _ _ _, ← chunk]
    simp only
    cases (List.take ((List.findIdx? isDelimiter (input.take 256)).getD (input.take 256).length)
      (input.take 256)).findIdx? (· == quote) with
    | some found => rfl
    | none =>
      cases marked : (input.take 256).findIdx? isDelimiter with
      | some found =>
        have inside := (List.findIdx?_eq_some_iff_getElem.mp marked).1
        simp only [Option.getD_some, inside, ↓reduceIte, Option.map_some]
      | none =>
        simp only [Option.getD_none, Nat.lt_irrefl, ↓reduceIte]
        rw [ih _ _ shorter]
        split_ifs with short
        · simp [List.drop_eq_nil_of_le short]
        have full : (input.take 256).length = 256 := List.length_take_of_le (by omega)
        rw [full, Option.map_map]
        congr 1
        funext index
        exact Nat.add_assoc _ _ _

theorem nextUnquotedBoundary_eq (input : Bytes) :
    nextUnquotedBoundary input = input.findIdx? isBoundary := by
  have shift : ∀ found : Option Nat, found.map (0 + ·) = found := by
    intro found
    cases found <;> simp
  rw [nextUnquotedBoundary, unquotedBoundaryTail_eq _ _ (by rw [List.length_drop]; omega), shift]
  exact findIdx?_split _ _ _

end Align.Csv
