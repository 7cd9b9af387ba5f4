import Align.Simd
import Align.JsonParser

/-! The JSON string writer. A builder collects bytes under an optional ceiling;
the first write that would pass it sets a sticky flag and nothing is written any
more. Four body writers copy clean runs in bulk and escape the bytes between
them: byte by byte, and over blocks classified by SSE2, AVX2 or NEON. All four
ask the builder for the same writes in the same order, so they leave the same
builder even when the ceiling cuts the text short. Allocation itself is taken to
succeed: the runtime aborts the process when it does not. -/
namespace Align.JsonEscape
open BitMasks Simd JsonText JsonParser List

structure BuilderBuf where
  bytes : Bytes
  limit : Option Nat
  encodeFailed : Bool
deriving DecidableEq, Repr

namespace BuilderBuf

/-- Whether `additional` more bytes may be written, and the builder afterwards. -/
def reserve (buf : BuilderBuf) (additional : Nat) : Bool × BuilderBuf :=
  if buf.encodeFailed then (false, buf)
  else if buf.limit.any (fun limit => buf.bytes.length + additional > limit) then
    (false, { buf with encodeFailed := true })
  else (true, buf)

def extendFromSlice (buf : BuilderBuf) (slice : Bytes) : BuilderBuf :=
  if slice = [] then buf
  else match buf.reserve slice.length with
    | (false, buf) => buf
    | (true, buf) => { buf with bytes := buf.bytes ++ slice }

def push (buf : BuilderBuf) (byte : UInt8) : BuilderBuf := buf.extendFromSlice [byte]

end BuilderBuf

open BuilderBuf

def jsonNeedsEscape (c : UInt8) : Bool := c == 0x22 || c == 0x5C || c < 0x20

def hexLower (n : UInt8) : UInt8 := if n < 10 then 0x30 + n else 0x61 + (n - 10)

def writeJsonEscape (buf : BuilderBuf) (c : UInt8) : BuilderBuf :=
  if c = 0x22 then buf.extendFromSlice [0x5C, 0x22]
  else if c = 0x5C then buf.extendFromSlice [0x5C, 0x5C]
  else if c = 0x08 then buf.extendFromSlice [0x5C, 0x62]
  else if c = 0x0C then buf.extendFromSlice [0x5C, 0x66]
  else if c = 0x0A then buf.extendFromSlice [0x5C, 0x6E]
  else if c = 0x0D then buf.extendFromSlice [0x5C, 0x72]
  else if c = 0x09 then buf.extendFromSlice [0x5C, 0x74]
  else ((buf.extendFromSlice [0x5C, 0x75, 0x30, 0x30]).push (hexLower (c >>> 4))).push
    (hexLower (c &&& 0xF))

/-- The builder, and the first byte of the clean run not written yet. -/
structure Run where
  buf : BuilderBuf
  start : Nat

/-- Write the open run up to `p`, then the escape of the byte there. -/
def flushEscape (bytes : Bytes) (run : Run) (p : Nat) : Run :=
  let flushed :=
    if run.start < p then run.buf.extendFromSlice ((bytes.take p).drop run.start) else run.buf
  ⟨writeJsonEscape flushed (bytes.getD p 0), p + 1⟩

/-- One byte of the scalar loops. A failed builder ends the loop; here it leaves
every later step without effect. -/
def scalarStep (bytes : Bytes) (run : Run) (i : Nat) : Run :=
  if run.buf.encodeFailed then run
  else if jsonNeedsEscape (bytes.getD i 0) then flushEscape bytes run i
  else run

def finishRun (bytes : Bytes) (run : Run) : BuilderBuf :=
  if run.buf.encodeFailed then run.buf
  else if run.start < bytes.length then run.buf.extendFromSlice (bytes.drop run.start)
  else run.buf

def writeJsonStrTail (buf : BuilderBuf) (bytes : Bytes) (start i : Nat) : BuilderBuf :=
  finishRun bytes ((List.range' i (bytes.length - i)).foldl (scalarStep bytes) ⟨buf, start⟩)

def writeJsonStrScalar (buf : BuilderBuf) (bytes : Bytes) : BuilderBuf :=
  finishRun bytes ((List.range bytes.length).foldl (scalarStep bytes) ⟨buf, 0⟩)

/-- `0xFF` in the lanes that need an escape. A control byte is one from which
subtracting `0x1F` with saturation leaves zero. -/
def escapeHits {n : Nat} (v : Lanes n) : Lanes n :=
  let quotes := cmpeq v (splat n 0x22)
  let slashes := cmpeq v (splat n 0x5C)
  let ctrl := cmpeq (subs v (splat n 0x1F)) (splat n 0)
  or (or quotes slashes) ctrl

def jsonEscapeMaskAvx2 (bytes : Bytes) (i : Nat) : BitVec 32 :=
  movemask (escapeHits (load 32 bytes i))

def jsonEscapeMaskSse2 (bytes : Bytes) (i : Nat) : BitVec 16 :=
  movemask (escapeHits (load 16 bytes i))

def jsonEscapeMapNeon (bytes : Bytes) (i : Nat) : BitVec 64 :=
  vgetLaneU64 (vshrn (escapeHits (load 16 bytes i)) 4)

def escapeLane (bytes : Bytes) (i : Nat) (run : Run) (lane : Nat) : Run :=
  if run.buf.encodeFailed then run else flushEscape bytes run (i + lane)

/-- Whole blocks from `i` on, then the scalar tail. `lanes` lists the lanes of
the block at an offset that its classifier marks, lowest first. -/
def blockLoop (width : Nat) (lanes : Nat → List Nat) (bytes : Bytes) :
    Nat → Run → Nat → BuilderBuf
  | 0, run, i => writeJsonStrTail run.buf bytes run.start i
  | fuel + 1, run, i =>
      if i + width ≤ bytes.length then
        if run.buf.encodeFailed then run.buf
        else blockLoop width lanes bytes fuel ((lanes i).foldl (escapeLane bytes i) run) (i + width)
      else writeJsonStrTail run.buf bytes run.start i

def writeJsonStrAvx2 (buf : BuilderBuf) (bytes : Bytes) : BuilderBuf :=
  blockLoop 32 (fun i => drain 32 (jsonEscapeMaskAvx2 bytes i)) bytes bytes.length ⟨buf, 0⟩ 0

def writeJsonStrSse2 (buf : BuilderBuf) (bytes : Bytes) : BuilderBuf :=
  blockLoop 16 (fun i => drain 16 (jsonEscapeMaskSse2 bytes i)) bytes bytes.length ⟨buf, 0⟩ 0

def writeJsonStrNeon (buf : BuilderBuf) (bytes : Bytes) : BuilderBuf :=
  blockLoop 16 (fun i => drainNibbles 16 (jsonEscapeMapNeon bytes i)) bytes bytes.length ⟨buf, 0⟩ 0

inductive Target where
  | x86 (avx2 : Bool)
  | aarch64
  | other
deriving DecidableEq, Repr

def writeJsonStrBody (target : Target) (buf : BuilderBuf) (bytes : Bytes) : BuilderBuf :=
  if buf.encodeFailed then buf
  else match target with
    | .x86 avx2 =>
        if 32 ≤ bytes.length then
          if avx2 then writeJsonStrAvx2 buf bytes else writeJsonStrSse2 buf bytes
        else writeJsonStrScalar buf bytes
    | .aarch64 =>
        if 16 ≤ bytes.length then writeJsonStrNeon buf bytes else writeJsonStrScalar buf bytes
    | .other => writeJsonStrScalar buf bytes

def builderWriteJsonStr (target : Target) (buf : BuilderBuf) (bytes : Bytes) : BuilderBuf :=
  if buf.encodeFailed then buf
  else
    let opened := buf.push quote
    let written := if 0 < bytes.length then writeJsonStrBody target opened bytes else opened
    written.push quote

theorem subs_control (v : Lanes n) (k : Fin n) :
    (subs v (splat n 0x1F) k == splat n 0 k) = decide (v k < 0x20) := by
  rw [Bool.eq_iff_iff, beq_iff_eq, decide_eq_true_eq, UInt8.lt_iff_toNat_lt, ← UInt8.toNat_inj]
  change (if (0x1F : UInt8) ≤ v k then v k - 0x1F else 0).toNat = 0 ↔ (v k).toNat < 0x20
  split
  case isTrue large =>
    rw [UInt8.toNat_sub_of_le _ _ large]
    change (v k).toNat - 0x1F = 0 ↔ _
    omega
  case isFalse small =>
    change ¬ 0x1F ≤ (v k).toNat at small
    change 0 = 0 ↔ _
    omega

theorem escapeHits_lanes (v : Lanes n) :
    escapeHits v = boolLanes fun k => jsonNeedsEscape (lane v k) := by
  funext k
  simp only [escapeHits, Simd.or, cmpeq, boolLanes, jsonNeedsEscape, lane_of_lt _ _ k.isLt, subs_control]
  change ((bif v k == 0x22 then 0xFF else 0) ||| (bif v k == 0x5C then 0xFF else 0)) ||| _ = _
  cases v k == 0x22 <;> cases v k == 0x5C <;> cases decide (v k < 0x20) <;> rfl

/-- The lanes of a block that need an escape, lowest first. -/
def escapeLanes (width : Nat) (bytes : Bytes) (i : Nat) : List Nat :=
  (List.range width).filter fun k => jsonNeedsEscape (bytes.getD (i + k) 0)

variable (width : Nat) (bytes : Bytes) (i : Nat)

theorem movemask_escapeLanes :
    drain width (movemask (escapeHits (load width bytes i))) = escapeLanes width bytes i := by
  rw [drain_positions, positions, escapeLanes, escapeHits_lanes]
  apply filter_congr
  intro k member
  have inside := mem_range.mp member
  rw [movemask_boolLanes _ inside, lane_load i inside]

theorem neon_escapeLanes :
    drainNibbles 16 (jsonEscapeMapNeon bytes i) = escapeLanes 16 bytes i := by
  rw [jsonEscapeMapNeon, escapeHits_lanes,
    drainNibbles_positions (fun k => jsonNeedsEscape (lane (load 16 bytes i) k)) _ (vshrn_boolLanes _)]
  apply filter_congr
  intro k member
  rw [lane_load i (mem_range.mp member)]

theorem escapeLanes_scalar (run : Run) (i : Nat) :
    (escapeLanes width bytes i).foldl (escapeLane bytes i) run =
      (List.range' i width).foldl (scalarStep bytes) run := by
  have shifted : List.range' i width = (List.range width).map (i + ·) := by
    rw [range'_eq_map_range]
  rw [shifted, foldl_map, escapeLanes, foldl_filter]
  congr 1
  funext run k
  simp only [escapeLane, scalarStep]
  split <;> split <;> rfl

theorem scalar_failed (failed : run.buf.encodeFailed = true) (steps : List Nat) : steps.foldl (scalarStep bytes) run = run := by
  induction steps with
  | nil => rfl
  | cons i rest ih => rw [foldl_cons, scalarStep, if_pos failed, ih]

theorem tail_failed (run : Run) (i : Nat) (failed : run.buf.encodeFailed = true) :
    writeJsonStrTail run.buf bytes run.start i = run.buf := by
  rw [writeJsonStrTail, scalar_failed _ failed, finishRun, if_pos failed]

theorem blockLoop_scalar (fuel : Nat) (bytes : Bytes) (run : Run) (i : Nat) :
    blockLoop width (escapeLanes width bytes) bytes fuel run i =
      writeJsonStrTail run.buf bytes run.start i := by
  induction fuel generalizing run i with
  | zero => rfl
  | succ fuel ih =>
    rw [blockLoop]
    split
    case isFalse => rfl
    case isTrue whole =>
      split
      case isTrue failed => exact (tail_failed _ _ i failed).symm
      case isFalse =>
        have span : List.range' i (bytes.length - i) =
          List.range' i width ++ List.range' (i + width) (bytes.length - (i + width)) := by
          have count : bytes.length - i = width + (bytes.length - (i + width)) := by omega
          rw [count, ← range'_append_1]
        rw [ih, escapeLanes_scalar, writeJsonStrTail, writeJsonStrTail, span, foldl_append]

variable (buf : BuilderBuf) (bytes : Bytes)

theorem tail_scalar :
    writeJsonStrTail buf bytes 0 0 = writeJsonStrScalar buf bytes := by
  rw [writeJsonStrTail, writeJsonStrScalar, range_eq_range', Nat.sub_zero]

theorem avx2_scalar :
    writeJsonStrAvx2 buf bytes = writeJsonStrScalar buf bytes := by
  simp only [writeJsonStrAvx2, jsonEscapeMaskAvx2, movemask_escapeLanes, blockLoop_scalar, tail_scalar]

theorem sse2_scalar :
    writeJsonStrSse2 buf bytes = writeJsonStrScalar buf bytes := by
  simp only [writeJsonStrSse2, jsonEscapeMaskSse2, movemask_escapeLanes, blockLoop_scalar, tail_scalar]

theorem neon_scalar :
    writeJsonStrNeon buf bytes = writeJsonStrScalar buf bytes := by
  simp only [writeJsonStrNeon, neon_escapeLanes, blockLoop_scalar, tail_scalar]

variable (target : Target) (buf : BuilderBuf) (bytes : Bytes)

theorem body_scalar (sound : buf.encodeFailed = false) :
    writeJsonStrBody target buf bytes = writeJsonStrScalar buf bytes := by
  cases target with
  | x86 avx2 => cases avx2 <;> simp [writeJsonStrBody, sound, avx2_scalar, sse2_scalar]
  | aarch64 => simp [writeJsonStrBody, sound, neon_scalar]
  | other => simp [writeJsonStrBody, sound]

def escapeText (c : UInt8) : Bytes :=
  if c = 0x22 then [0x5C, 0x22]
  else if c = 0x5C then [0x5C, 0x5C]
  else if c = 0x08 then [0x5C, 0x62]
  else if c = 0x0C then [0x5C, 0x66]
  else if c = 0x0A then [0x5C, 0x6E]
  else if c = 0x0D then [0x5C, 0x72]
  else if c = 0x09 then [0x5C, 0x74]
  else [0x5C, 0x75, 0x30, 0x30, hexLower (c >>> 4), hexLower (c &&& 0xF)]

/-- The body of the literal for `text`. -/
def escaped (text : Bytes) : Bytes :=
  text.flatMap fun c => if jsonNeedsEscape c then escapeText c else [c]

/-- The builder has not failed and takes `count` more bytes. -/
def Room (buf : BuilderBuf) (count : Nat) : Prop :=
  buf.encodeFailed = false ∧ ∀ limit, buf.limit = some limit → buf.bytes.length + count ≤ limit

def appended (buf : BuilderBuf) (text : Bytes) : BuilderBuf :=
  { buf with bytes := buf.bytes ++ text }

@[simp]
theorem appended_nil : appended buf [] = buf := by
  simp [appended]

@[simp]
theorem appended_append (first second : Bytes) :
    appended (appended buf first) second = appended buf (first ++ second) := by
  simp [appended]

theorem Room.mono {buf : BuilderBuf} (room : Room buf more) (fewer : less ≤ more) :
    Room buf less :=
  ⟨room.1, fun limit bound => by have := room.2 limit bound; omega⟩

theorem Room.after {buf : BuilderBuf} {text : Bytes} {count : Nat}
    (room : Room buf (text.length + count)) : Room (appended buf text) count := by
  constructor
  · exact room.1
  · intro limit bound
    have := room.2 limit bound
    rw [appended, length_append]
    omega

theorem extend_room (slice : Bytes) (room : Room buf slice.length) :
    buf.extendFromSlice slice = appended buf slice := by
  by_cases empty : slice = []
  · simp [extendFromSlice, empty]
  have fits : buf.limit.any (fun limit => buf.bytes.length + slice.length > limit) = false := by
    cases limit : buf.limit with
    | none => rfl
    | some bound => simpa using room.2 bound limit
  simp [extendFromSlice, empty, reserve, room.1, fits, appended]

theorem extend_extend (room : Room buf (first ++ second).length) :
    (buf.extendFromSlice first).extendFromSlice second = appended buf (first ++ second) := by
  rw [length_append] at room
  rw [extend_room _ _ (room.mono (Nat.le_add_right _ _)), extend_room _ _ room.after,
    appended_append]

theorem escape_room (room : Room buf (escapeText c).length) :
    writeJsonEscape buf c = appended buf (escapeText c) := by
  unfold writeJsonEscape
  unfold escapeText at room ⊢
  split_ifs at room ⊢
  case neg =>
    -- The six-byte form is three writes.
    rw [push, push, extend_extend _ (room.mono (by simp)), extend_room, appended_append]
    · rfl
    · exact @Room.after buf _ 1 room
  all_goals exact extend_room _ _ room

theorem escaped_append (first second : Bytes) :
    escaped (first ++ second) = escaped first ++ escaped second := by
  simp [escaped]

theorem escaped_clean (clean : ∀ c ∈ text, jsonNeedsEscape c = false) :
    escaped text = text := by
  induction text with
  | nil => rfl
  | cons c rest ih =>
    have head := clean c mem_cons_self
    have tail := ih fun b member => clean b (mem_cons_of_mem c member)
    rw [escaped, flatMap_cons, ← escaped, tail, head]
    rfl

theorem escaped_byte (needs : jsonNeedsEscape c = true) : escaped [c] = escapeText c := by
  simp [escaped, needs]

theorem escaped_take_length (i : Nat) :
    (escaped (bytes.take i)).length ≤ (escaped bytes).length := by
  have parts := escaped_append (bytes.take i) (bytes.drop i)
  rw [take_append_drop] at parts
  rw [parts, length_append]
  omega

/-- After the bytes before `i`: the text up to the open run is written and the
run holds no byte that needs an escape. -/
structure Scanned (buf : BuilderBuf) (bytes : Bytes) (i : Nat) (run : Run) : Prop where
  written : run.buf = appended buf (escaped (bytes.take run.start))
  open_le : run.start ≤ i
  clean : ∀ c ∈ (bytes.take i).drop run.start, jsonNeedsEscape c = false

theorem Scanned.text {buf : BuilderBuf} {bytes : Bytes} {i : Nat} (scanned : Scanned buf bytes i run) :
    escaped (bytes.take i) = escaped (bytes.take run.start) ++ (bytes.take i).drop run.start := by
  have parts : bytes.take i = bytes.take run.start ++ (bytes.take i).drop run.start := by
    have taken : (bytes.take i).take run.start = bytes.take run.start := by
      rw [take_take, Nat.min_eq_left scanned.open_le]
    rw [← taken, take_append_drop]
  rw [parts, escaped_append, escaped_clean scanned.clean, ← parts]

theorem scalarStep_scanned (i : Nat) (inside : i < bytes.length)
    (room : Room buf (escaped bytes).length) (scanned : Scanned buf bytes i run) :
    Scanned buf bytes (i + 1) (scalarStep bytes run i) := by
  have sound : ¬ run.buf.encodeFailed = true := by
    rw [scanned.written]
    simp [appended, room.1]
  have here : bytes.take (i + 1) = bytes.take i ++ [bytes.getD i 0] := by
    rw [take_succ_eq_append_getElem inside, getD_eq_getElem?_getD, getElem?_eq_getElem inside,
      Option.getD_some]
  rw [scalarStep, if_neg sound]
  split
  case isTrue needs =>
    have upTo := escaped_take_length bytes (i + 1)
    rw [here, escaped_append, escaped_byte needs] at upTo
    have flushed : (if run.start < i then run.buf.extendFromSlice ((bytes.take i).drop run.start)
      else run.buf) = appended buf (escaped (bytes.take i)) := by
      rw [scanned.text, ← appended_append, ← scanned.written]
      split
      case isTrue =>
        apply extend_room
        rw [scanned.written]
        apply Room.after
        rw [← length_append, ← scanned.text]
        exact room.mono (escaped_take_length _ i)
      case isFalse closed =>
        have empty : (bytes.take i).drop run.start = [] := by simp; omega
        rw [empty, appended_nil]
    constructor
    · simp only [flushEscape]
      rw [flushed, escape_room, appended_append, here, escaped_append, escaped_byte needs]
      exact ((room.mono upTo).mono (by simp)).after
    · exact Nat.le_refl _
    · simp [flushEscape, drop_take_self]
  case isFalse clean =>
    refine ⟨scanned.written, Nat.le_succ_of_le scanned.open_le, ?_⟩
    intro c member
    have reached := scanned.open_le
    rw [here, drop_append_of_le_length (by simp; omega)] at member
    rcases mem_append.mp member with earlier | last
    · exact scanned.clean c earlier
    · rw [mem_singleton.mp last]
      simpa using clean

theorem scan_scanned {i : Nat} (inside : i ≤ bytes.length) (room : Room buf (escaped bytes).length) :
    Scanned buf bytes i ((List.range i).foldl (scalarStep bytes) ⟨buf, 0⟩) := by
  induction i with
  | zero => exact ⟨by simp [escaped], Nat.le_refl 0, by simp⟩
  | succ i ih =>
    rw [range_succ, foldl_append]
    exact scalarStep_scanned _ _ i inside room (ih (Nat.le_of_succ_le inside))

theorem scalar_written (room : Room buf (escaped bytes).length) :
    writeJsonStrScalar buf bytes = appended buf (escaped bytes) := by
  have scanned := scan_scanned _ _ (Nat.le_refl _) room
  rw [writeJsonStrScalar]
  generalize (List.range bytes.length).foldl (scalarStep bytes) ⟨buf, 0⟩ = run at scanned
  have text := scanned.text
  rw [take_length] at text
  have sound : ¬ run.buf.encodeFailed = true := by
    rw [scanned.written]
    simp [appended, room.1]
  rw [finishRun, if_neg sound]
  split
  case isTrue =>
    rw [text, length_append] at room
    rw [text, ← appended_append, ← scanned.written]
    apply extend_room
    rw [scanned.written]
    exact room.after
  case isFalse closed =>
    rw [text, drop_eq_nil_of_le (Nat.le_of_not_lt closed), append_nil, ← scanned.written]

theorem writer_written (room : Room buf (quoted (escaped text)).length) :
    builderWriteJsonStr target buf text = appended buf (quoted (escaped text)) := by
  have opened : buf.push quote = appended buf [quote] :=
    extend_room _ [quote] (room.mono (by simp [quoted]))
  have inner : Room (appended buf [quote]) ((escaped text ++ [quote]).length) :=
    Room.after (room.mono (by simp [quoted]; omega))
  have body : (if 0 < text.length then writeJsonStrBody target (appended buf [quote]) text
    else appended buf [quote]) = appended buf (quote :: escaped text) := by
    split
    case isTrue =>
      rw [body_scalar _ _ _ inner.1, scalar_written _ _ (inner.mono (by simp)),
        appended_append]
      rfl
    case isFalse empty =>
      have none : text = [] := eq_nil_of_length_eq_zero (by omega)
      rw [none]
      rfl
  rw [builderWriteJsonStr, if_neg (by simp [room.1]), opened]
  simp only [body]
  rw [push, extend_room, appended_append]
  · rfl
  · exact Room.after (room.mono (by simp [quoted]))

theorem control_escape (c : UInt8) (control : c < 0x20) :
    hex4 0x30 0x30 (hexLower (c >>> 4)) (hexLower (c &&& 0xF)) = some c.toNat ∧
      utf8 c.toNat = [c] := by
  have table : ∀ n < 0x20, hex4 0x30 0x30 (hexLower (UInt8.ofNat n >>> 4))
    (hexLower (UInt8.ofNat n &&& 0xF)) = some n ∧ utf8 n = [UInt8.ofNat n] := by
    decide
  have found := table c.toNat (UInt8.lt_iff_toNat_lt.mp control)
  rwa [UInt8.ofNat_toNat] at found

theorem escapeText_body (needs : jsonNeedsEscape c = true)
    (rest : Body raw text) : Body (escapeText c ++ raw) (c :: text) := by
  unfold escapeText
  split_ifs with quotes slashes backspace feed newline return_ tab
  case neg =>
    have control : c < 0x20 := by simpa [jsonNeedsEscape, quotes, slashes] using needs
    obtain ⟨hex, spelled⟩ := control_escape c control
    have small : c.toNat < 0x20 := UInt8.lt_iff_toNat_lt.mp control
    have unit := Body.unit _ _ _ _ c.toNat raw text hex (fun high => by have := high.1; omega)
      (fun low => by have := low.1; omega) rest
    rwa [spelled] at unit
  all_goals
    subst c
    exact Body.short _ _ raw text rfl rest

theorem escaped_body (text : Bytes) : Body (escaped text) text := by
  induction text with
  | nil => exact Body.nil
  | cons c rest ih =>
    rw [escaped, flatMap_cons, ← escaped]
    split
    case isTrue needs => exact escapeText_body needs ih
    case isFalse clean =>
      have plain : IsPlain c := by
        simpa [jsonNeedsEscape, IsPlain, quote, backslash, and_comm, and_assoc] using clean
      exact Body.plain c _ rest plain ih

theorem rfcBody_printable (body : RfcBody raw) : ∀ b ∈ raw, 0x20 ≤ b := by
  have short : ∀ e v, shortEscape e = some v → 0x20 ≤ e := by
    intro e v found
    unfold shortEscape at found
    split_ifs at found <;> (subst e; decide)
  have digit : ∀ b n, hexDigit b = some n → 0x20 ≤ b := by
    intro b n found
    unfold hexDigit at found
    split_ifs at found with decimal lower upper
    · exact UInt8.le_trans (by decide) decimal.1
    · exact UInt8.le_trans (by decide) lower.1
    · exact UInt8.le_trans (by decide) upper.1
  induction body with
  | nil => simp
  | plain b raw ok _ ih =>
    rintro c (_ | ⟨_, later⟩)
    · exact ok.1
    · exact ih c later
  | short e v raw ok _ ih =>
    rintro c (_ | ⟨_, _ | ⟨_, later⟩⟩)
    · decide
    · exact short e v ok
    · exact ih c later
  | unit a b c d cp raw hex _ ih =>
    simp only [hex4, bind, Option.bind_eq_some_iff] at hex
    obtain ⟨_, first, _, second, _, third, _, fourth, _⟩ := hex
    rintro x (_ | ⟨_, _ | ⟨_, _ | ⟨_, _ | ⟨_, _ | ⟨_, _ | ⟨_, later⟩⟩⟩⟩⟩⟩)
    · decide
    · decide
    · exact digit _ _ first
    · exact digit _ _ second
    · exact digit _ _ third
    · exact digit _ _ fourth
    · exact ih x later

theorem body_rfc (text : Bytes) (body : Body raw text) : RfcBody raw := by
  induction body with
  | nil => exact RfcBody.nil
  | plain b raw text ok _ ih => exact RfcBody.plain b raw ok ih
  | short e v raw text ok _ ih => exact RfcBody.short e v raw ok ih
  | unit a b c d cp raw text hex _ _ _ ih => exact RfcBody.unit a b c d cp raw hex ih
  | pair a b c d a' b' c' d' high low raw text hex _ hex' _ _ ih =>
    exact RfcBody.unit a b c d high _ hex (RfcBody.unit a' b' c' d' low raw hex' ih)

/-- The four body writers leave the same builder, whatever it was. Where the
literal fits, the writer appends one whose body has no raw quote, no control
byte and no backslash outside an escape; the reader's span ends at its closing
quote whatever follows, and unescaping the span gives the text back. -/
theorem string_writers_round_trip (target : Target) (buf : BuilderBuf) (text : Bytes)
    (room : Room buf (quoted (escaped text)).length) :
    (∀ any : BuilderBuf, writeJsonStrAvx2 any text = writeJsonStrScalar any text ∧
      writeJsonStrSse2 any text = writeJsonStrScalar any text ∧
      writeJsonStrNeon any text = writeJsonStrScalar any text) ∧
    ∃ raw, builderWriteJsonStr target buf text = appended buf (quoted raw) ∧
      RfcBody raw ∧ (∀ b ∈ raw, 0x20 ≤ b) ∧
      (∀ rest, stringBody (quoted raw ++ rest) = some (raw, rest)) ∧
      (jsonUnescapedLen raw).bind (jsonUnescapeTo raw) = some text := by
  have body := escaped_body text
  have grammar := body_rfc text body
  constructor
  · intro any
    exact ⟨avx2_scalar any text, sse2_scalar any text, neon_scalar any text⟩
  · refine ⟨escaped text, writer_written target buf room, grammar, rfcBody_printable grammar,
      fun rest => stringBody_complete rest body, ?_⟩
    rw [unescapedLen_body _ body, Option.bind_some, unescapeTo_body _ body]

theorem string_writers_accented :
    builderWriteJsonStr .other ⟨[], none, false⟩ [0x61, 0x22, 0x0A, 0xC3, 0xA9] =
        ⟨[0x22, 0x61, 0x5C, 0x22, 0x5C, 0x6E, 0xC3, 0xA9, 0x22], none, false⟩ ∧
      ∃ raw, builderWriteJsonStr .other ⟨[], none, false⟩ [0x61, 0x22, 0x0A, 0xC3, 0xA9] =
          appended ⟨[], none, false⟩ (quoted raw) ∧
        (jsonUnescapedLen raw).bind (jsonUnescapeTo raw) = some [0x61, 0x22, 0x0A, 0xC3, 0xA9] := by
  have room : Room ⟨[], none, false⟩ (quoted (escaped [0x61, 0x22, 0x0A, 0xC3, 0xA9])).length :=
    ⟨rfl, fun _ bounded => nomatch bounded⟩
  obtain ⟨_, raw, written, _, _, _, back⟩ :=
    string_writers_round_trip .other ⟨[], none, false⟩ [0x61, 0x22, 0x0A, 0xC3, 0xA9] room
  exact ⟨by decide, raw, written, back⟩

end Align.JsonEscape
