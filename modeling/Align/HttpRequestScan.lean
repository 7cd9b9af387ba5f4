import Align.HttpFields

/-! The server's request-head scan. One scan value is advanced over a buffer
that grows between calls; it keeps the position of the next line, how much of
that line was already searched, and what the finished lines gave. A resumed scan
answers as a fresh one because a finished line reads the same in every longer
buffer and the bytes already searched hold no line end. -/
namespace Align.Http
open Segments List

structure HttpRequestLineParts where
  methodStart : Nat
  methodLen : Nat
  targetStart : Nat
  targetLen : Nat
  http11 : Bool
deriving DecidableEq, Repr

structure HttpRequestHead where
  methodStart : Nat
  methodLen : Nat
  targetStart : Nat
  targetLen : Nat
  headers : List HttpHeaderSpan
  bodyStart : Nat
  contentLength : Option Nat
  http11 : Bool
deriving DecidableEq, Repr

structure HttpRequestHeadScan where
  pos : Nat
  scanned : Nat
  line : Option HttpRequestLineParts
  headers : List HttpHeaderSpan
  contentLength : Option Nat
  spent : Bool
deriving DecidableEq, Repr

namespace HttpRequestHeadScan

def new : HttpRequestHeadScan :=
  { pos := 0, scanned := 0, line := none, headers := [], contentLength := none, spent := false }

/-- A line is its start, its length without the line end, and the next position. -/
def nextLine (scan : HttpRequestHeadScan) (src : Bytes) :
    Except HttpParseErr (Nat × Nat × Nat) × HttpRequestHeadScan :=
  if src.length < scan.pos then (.error .incomplete, scan)
  else
    let start := min (scan.pos + scan.scanned) src.length
    match memchr lf (src.drop start) with
    | none => (.error .incomplete, { scan with scanned := src.length - scan.pos })
    | some rel =>
        let nl := start + rel
        if nl = scan.pos ∨ src[nl - 1]? ≠ some cr then (.error .invalid, scan)
        else (.ok (scan.pos, nl - 1 - scan.pos, nl + 1), scan)

def commitLine (scan : HttpRequestHeadScan) (next : Nat) : HttpRequestHeadScan :=
  { scan with pos := next, scanned := 0 }

end HttpRequestHeadScan

/-- The request line in `src` from `start`, `len` bytes long. -/
def requestLine (src : Bytes) (start len : Nat) : Except HttpParseErr HttpRequestLineParts :=
  let line := slice src start (start + len)
  match memchr blank line with
  | none => .error .invalid
  | some sp1 =>
      let method := line.take sp1
      let rest := line.drop (sp1 + 1)
      match memchr blank rest with
      | none => .error .invalid
      | some sp2 =>
          let target := rest.take sp2
          let version := rest.drop (sp2 + 1)
          if !httpIsToken method then .error .invalid
          else if target.isEmpty || !httpRequestLineFieldClean target then .error .invalid
          else if target.head? ≠ some 47 then .error .invalid
          else if version ≠ ascii "HTTP/1.1" ∧ version ≠ ascii "HTTP/1.0" then .error .invalid
          else .ok
            { methodStart := start, methodLen := method.length
              targetStart := start + sp1 + 1, targetLen := target.length
              http11 := version == ascii "HTTP/1.1" }

/-- What the field says about the body's length, given what earlier fields said. -/
def contentLengthField (name value : Bytes) (previous : Option Nat) :
    Except HttpParseErr (Option Nat) :=
  if eqIgnoreAsciiCase name (ascii "content-length") then
    if value.isEmpty || !value.all isDigit then .error .invalid
    else if 2 ^ 64 ≤ decimalValue value then .error .invalid
    else if previous.any (· != decimalValue value) then .error .invalid
    else .ok (some (decimalValue value))
  else if eqIgnoreAsciiCase name (ascii "transfer-encoding") then .error .invalid
  else .ok previous

/-- The header line in `src` from `start`, after `count` accepted fields. -/
def headerLine (src : Bytes) (count : Nat) (previous : Option Nat) (start len : Nat) :
    Except HttpParseErr (HttpHeaderSpan × Option Nat) :=
  if httpMaxHeaders ≤ count then .error .invalid
  else
    let line := slice src start (start + len)
    match memchr colon line with
    | none => .error .invalid
    | some colonAt =>
        let name := line.take colonAt
        if !httpIsToken name then .error .invalid
        else
          let (valueStart, valueLen) := httpTrimOws src (start + colonAt + 1) (len - colonAt - 1)
          let value := slice src valueStart (valueStart + valueLen)
          if !httpFieldIsClean value then .error .invalid
          else
            match contentLengthField name value previous with
            | .error e => .error e
            | .ok contentLength =>
                .ok ({ nameStart := start, nameLen := colonAt, valueStart, valueLen }, contentLength)

variable {len start : Nat}

namespace HttpRequestHeadScan

def pushHeader (scan : HttpRequestHeadScan) (span : HttpHeaderSpan) (contentLength : Option Nat) :
    HttpRequestHeadScan :=
  { scan with headers := scan.headers ++ [span], contentLength }

def setLine (scan : HttpRequestHeadScan) (line : HttpRequestLineParts) : HttpRequestHeadScan :=
  { scan with line := some line }

/-- Header lines up to the blank one. A turn moves past at least one byte, so the
length of the buffer bounds the turns; running out answers as an empty rest. -/
def headerLoop (src : Bytes) : Nat → HttpRequestHeadScan →
    Except HttpParseErr Nat × HttpRequestHeadScan
  | 0, scan => (.error .incomplete, scan)
  | fuel + 1, scan =>
      match scan.nextLine src with
      | (.error e, scan) => (.error e, scan)
      | (.ok (start, len, next), scan) =>
          if len = 0 then (.ok next, scan)
          else
            match headerLine src scan.headers.length scan.contentLength start len with
            | .error e => (.error e, scan)
            | .ok (span, contentLength) =>
                headerLoop src fuel ((scan.pushHeader span contentLength).commitLine next)

def readHeaders (scan : HttpRequestHeadScan) (src : Bytes) (line : HttpRequestLineParts) :
    Except HttpParseErr HttpRequestHead × HttpRequestHeadScan :=
  match headerLoop src (src.length + 1) scan with
  | (.error e, scan) => (.error e, scan)
  | (.ok bodyStart, scan) =>
      (.ok
        { methodStart := line.methodStart, methodLen := line.methodLen
          targetStart := line.targetStart, targetLen := line.targetLen
          headers := scan.headers, bodyStart, contentLength := scan.contentLength
          http11 := line.http11 },
        { scan with spent := true, headers := [] })

def advance (scan : HttpRequestHeadScan) (src : Bytes) :
    Except HttpParseErr HttpRequestHead × HttpRequestHeadScan :=
  if scan.spent then (.error .invalid, scan)
  else
    match scan.line with
    | some line => scan.readHeaders src line
    | none =>
        match scan.nextLine src with
        | (.error e, scan) => (.error e, scan)
        | (.ok (start, len, next), scan) =>
            match requestLine src start len with
            | .error e => (.error e, scan)
            | .ok line => ((scan.setLine line).commitLine next).readHeaders src line

/-- The answers of one scan advanced over a sequence of buffers. -/
def advanceAll (scan : HttpRequestHeadScan) : List Bytes → List (Except HttpParseErr HttpRequestHead)
  | [] => []
  | src :: rest => (scan.advance src).1 :: (scan.advance src).2.advanceAll rest

section Line
variable {scan after : HttpRequestHeadScan} {src : Bytes} (inside : scan.pos + scan.scanned ≤ src.length)
include inside

theorem nextLine_none (miss : memchr lf (src.drop (scan.pos + scan.scanned)) = none) :
    scan.nextLine src = (.error .incomplete, { scan with scanned := src.length - scan.pos }) := by
  rw [nextLine, if_neg (by omega), Nat.min_eq_left inside]
  dsimp only
  rw [miss]

theorem nextLine_some {rel : Nat} (hit : memchr lf (src.drop (scan.pos + scan.scanned)) = some rel) :
    scan.nextLine src =
      if scan.pos + scan.scanned + rel = scan.pos ∨
          src[scan.pos + scan.scanned + rel - 1]? ≠ some cr then (.error .invalid, scan)
      else
        (.ok (scan.pos, scan.pos + scan.scanned + rel - 1 - scan.pos,
          scan.pos + scan.scanned + rel + 1), scan) := by
  rw [nextLine, if_neg (by omega), Nat.min_eq_left inside]
  dsimp only
  rw [hit]

theorem nextLine_extend {next : Nat} (found : scan.nextLine src = (.ok (start, len, next), after)) (more : Bytes) :
    scan.nextLine (src ++ more) = (.ok (start, len, next), after) ∧ after = scan ∧
      start + len ≤ src.length ∧ scan.pos < next ∧ next ≤ src.length := by
  rcases hit : memchr lf (src.drop (scan.pos + scan.scanned)) with _ | rel
  · rw [nextLine_none inside hit] at found
    cases found
  have bound := memchr_lt hit
  rw [length_drop] at bound
  have longer : scan.pos + scan.scanned ≤ (src ++ more).length := by
    rw [length_append]
    omega
  have hit' : memchr lf ((src ++ more).drop (scan.pos + scan.scanned)) = some rel := by
    rw [drop_append_of_le_length inside, memchr_append_some _ hit]
  have byte : (src ++ more)[scan.pos + scan.scanned + rel - 1]? =
    src[scan.pos + scan.scanned + rel - 1]? := getElem?_append_left (by omega)
  rw [nextLine_some inside hit] at found
  rw [nextLine_some longer hit', byte]
  split_ifs at found ⊢
  · cases found
  · cases found
    exact ⟨rfl, rfl, by omega, by omega, by omega⟩

/-- An unfinished line leaves the scan where the search stopped, and searching on
from there finds the line end that a search from the line's start finds. -/
theorem nextLine_resume (cut : scan.nextLine src = (.error .incomplete, after)) (more : Bytes) :
    after = { scan with scanned := src.length - scan.pos } ∧
      (scan.nextLine (src ++ more)).1 = (after.nextLine (src ++ more)).1 ∧
      (scan.nextLine (src ++ more)).2.commitLine 0 =
        (after.nextLine (src ++ more)).2.commitLine 0 := by
  have longer : scan.pos + scan.scanned ≤ (src ++ more).length := by
    rw [length_append]
    omega
  cases hit : memchr lf (src.drop (scan.pos + scan.scanned)) with
  | some rel =>
    rw [nextLine_some inside hit] at cut
    split_ifs at cut <;> cases cut
  | none =>
    rw [nextLine_none inside hit] at cut
    cases cut
    refine ⟨rfl, ?_⟩
    have stopped : scan.pos + (src.length - scan.pos) = src.length := by omega
    have longer' : scan.pos + (src.length - scan.pos) ≤ (src ++ more).length := by
      rw [length_append]
      omega
    have early : memchr lf ((src ++ more).drop (scan.pos + scan.scanned)) =
      (memchr lf more).map (· + (src.drop (scan.pos + scan.scanned)).length) := by
      rw [drop_append_of_le_length inside, memchr_append_none _ hit]
    have late : memchr lf ((src ++ more).drop (scan.pos + (src.length - scan.pos))) = memchr lf more := by
      rw [stopped, drop_left]
    cases rest : memchr lf more with
    | none =>
      rw [rest] at early late
      rw [nextLine_none longer early, nextLine_none longer' late]
      exact ⟨rfl, rfl⟩
    | some rel =>
      rw [rest] at early late
      have same : scan.pos + scan.scanned +
        (rel + (src.drop (scan.pos + scan.scanned)).length) = src.length + rel := by
        rw [length_drop]
        omega
      have left := nextLine_some longer early
      have right := @nextLine_some { scan with scanned := src.length - scan.pos } _ longer' _ late
      rw [same] at left
      rw [stopped] at right
      rw [left, right]
      split_ifs
      · exact ⟨rfl, rfl⟩
      · exact ⟨rfl, rfl⟩

end Line

end HttpRequestHeadScan

theorem requestLine_extend (inside : start + len ≤ src.length)
    (more : Bytes) : requestLine (src ++ more) start len = requestLine src start len := by
  rw [requestLine, requestLine, slice_append_right _ _ _ inside]

theorem headerLine_extend (inside : start + len ≤ src.length)
    (count : Nat) (previous : Option Nat) (more : Bytes) :
    headerLine (src ++ more) count previous start len =
      headerLine src count previous start len := by
  rw [headerLine, headerLine]
  split_ifs
  · rfl
  rw [slice_append_right _ _ _ inside]
  dsimp only
  rcases mark : memchr colon (slice src start (start + len)) with _ | colonAt
  · rfl
  have bound := memchr_lt mark
  rw [slice_length _ _ inside] at bound
  have room : start + colonAt + 1 + (len - colonAt - 1) ≤ src.length := by omega
  have trim := httpTrimOws_eq _ _ _ room
  dsimp only
  rw [httpTrimOws_append _ _ _ room, slice_append_right _ _ _ (Nat.le_trans trim.1 room)]

theorem headerLine_settled (src : Bytes) (count : Nat) (start len : Nat) :
    headerLine src count previous start len ≠ .error .incomplete := by
  grind [headerLine, contentLengthField]

theorem requestLine_settled (src : Bytes) (start len : Nat) :
    requestLine src start len ≠ .error .incomplete := by
  grind [requestLine]

namespace HttpRequestHeadScan

/-- Answers and scans that differ at most in how much of a line was searched. -/
def Same {α : Type} (a b : Except HttpParseErr α × HttpRequestHeadScan) : Prop :=
  a.1 = b.1 ∧ a.2.commitLine 0 = b.2.commitLine 0

theorem same_cases {a b : Except HttpParseErr α × HttpRequestHeadScan} (same : Same a b) :
    ∃ answer after after', a = (answer, after) ∧ b = (answer, after') ∧
      after.commitLine 0 = after'.commitLine 0 ∧
      after.headers = after'.headers ∧ after.contentLength = after'.contentLength :=
  ⟨a.1, a.2, b.2, rfl, Prod.ext same.1.symm rfl, same.2,
    (congrArg headers same.2 :), (congrArg contentLength same.2 :)⟩

theorem headerLoop_fuel (src : Bytes) (scan : HttpRequestHeadScan) (f g : Nat)
    (inside : scan.pos + scan.scanned ≤ src.length) (enough : src.length < scan.pos + f)
    (enough' : src.length < scan.pos + g) : headerLoop src f scan = headerLoop src g scan := by
  induction f generalizing scan g with
  | zero => omega
  | succ f ih =>
    cases g with
    | zero => omega
    | succ g =>
      rw [headerLoop, headerLoop]
      rcases line : scan.nextLine src with ⟨answer, after⟩
      rcases answer with e | ⟨start, len, next⟩
      · rfl
      rcases nextLine_extend inside line [] with ⟨_, _, _, forward, inner⟩
      dsimp only
      split_ifs
      · rfl
      cases headerLine src after.headers.length after.contentLength start len with
      | error e => rfl
      | ok field =>
        apply ih
        · exact inner
        · exact (by omega : src.length < next + f)
        · exact (by omega : src.length < next + g)

variable {other : HttpRequestHeadScan}

theorem headerLoop_same (same : Same (scan.nextLine src) (other.nextLine src)) :
    Same (headerLoop src (fuel + 1) scan) (headerLoop src (fuel + 1) other) := by
  obtain ⟨answer, after, after', left, right, scans, headers, length⟩ := same_cases same
  rw [headerLoop, headerLoop, left, right]
  rcases answer with e | ⟨start, len, next⟩
  · exact ⟨rfl, scans⟩
  dsimp only
  split_ifs
  · exact ⟨rfl, scans⟩
  rw [headers, length]
  cases headerLine src after'.headers.length after'.contentLength start len with
  | error e => exact ⟨rfl, scans⟩
  | ok field =>
    -- Committing the line forgets the search, so the two scans meet here.
    have meet : (after.pushHeader field.1 field.2).commitLine next =
      (after'.pushHeader field.1 field.2).commitLine next := by
      have shift : ∀ s : HttpRequestHeadScan, (s.pushHeader field.1 field.2).commitLine next =
        ((s.commitLine 0).pushHeader field.1 field.2).commitLine next := fun _ => rfl
      rw [shift, scans, ← shift]
    dsimp only
    rw [meet]
    exact ⟨rfl, rfl⟩

/-- What a call that asked for more bytes leaves behind: every longer buffer gets
the answer the scan before the call would have given. -/
structure Resumes (scan after : HttpRequestHeadScan) (src : Bytes) : Prop where
  inside : after.pos + after.scanned ≤ src.length
  spent : after.spent = scan.spent
  answer : ∀ more, Same (headerLoop (src ++ more) ((src ++ more).length + 1) scan)
    (headerLoop (src ++ more) ((src ++ more).length + 1) after)

theorem headerLoop_resume (scan after : HttpRequestHeadScan)
    (inside : scan.pos + scan.scanned ≤ src.length) (enough : src.length < scan.pos + fuel)
    (cut : headerLoop src fuel scan = (.error .incomplete, after)) :
    Resumes scan after src ∧ after.line = scan.line := by
  induction fuel generalizing scan with
  | zero => omega
  | succ fuel ih =>
    rw [headerLoop] at cut
    rcases line : scan.nextLine src with ⟨answer, behind⟩
    rw [line] at cut
    rcases answer with e | ⟨start, len, next⟩
    · -- The search ran into the end of the buffer.
      cases cut
      have stopped := (nextLine_resume inside line []).1
      refine ⟨⟨?_, ?_, fun more => ?_⟩, ?_⟩
      · rw [stopped]
        dsimp only
        omega
      · rw [stopped]
      · exact headerLoop_same (nextLine_resume inside line _).2
      · rw [stopped]
    · rcases nextLine_extend inside line [] with ⟨_, unchanged, within, forward, inner⟩
      subst unchanged
      dsimp only at cut
      split_ifs at cut with blankLine
      · cases cut
      rcases field : headerLine src behind.headers.length behind.contentLength start len with _ | read
      · rw [field] at cut
        cases cut
        exact absurd field (headerLine_settled _ _ _ _)
      rw [field] at cut
      rcases ih ((behind.pushHeader read.1 read.2).commitLine next) inner
        (by dsimp only [commitLine]; omega) cut with ⟨rest, line_⟩
      refine ⟨⟨rest.inside, rest.spent, fun more => ?_⟩, line_⟩
      have step : headerLoop (src ++ more) ((src ++ more).length + 1) behind =
        headerLoop (src ++ more) (src ++ more).length
          ((behind.pushHeader read.1 read.2).commitLine next) := by
        rw [headerLoop, (nextLine_extend inside line _).1]
        dsimp only
        rw [if_neg blankLine, headerLine_extend within, field]
      have long : next ≤ (src ++ more).length := by
        rw [length_append]
        omega
      have fuels := headerLoop_fuel _
        ((behind.pushHeader read.1 read.2).commitLine next) (src ++ more).length
        ((src ++ more).length + 1) long (by dsimp only [commitLine]; omega)
        (by dsimp only [commitLine]; omega)
      rw [step, fuels]
      exact rest.answer more

theorem readHeaders_same (line : HttpRequestLineParts)
    (same : Same (headerLoop src (src.length + 1) scan) (headerLoop src (src.length + 1) other)) :
    (scan.readHeaders src line).1 = (other.readHeaders src line).1 := by
  obtain ⟨answer, after, after', left, right, -, headers, length⟩ := same_cases same
  rw [readHeaders, readHeaders, left, right]
  cases answer with
  | error e => rfl
  | ok bodyStart =>
    dsimp only
    rw [headers, length]

theorem advance_same {scan : HttpRequestHeadScan} (open_ : scan.spent ≠ true)
    (spent : other.spent = scan.spent) (first : scan.line = none) (first' : other.line = none)
    (same : Same (scan.nextLine src) (other.nextLine src)) :
    (scan.advance src).1 = (other.advance src).1 := by
  obtain ⟨answer, after, after', left, right, scans, -⟩ := same_cases same
  rw [advance, advance, spent, if_neg open_, if_neg open_, first, first', left, right]
  rcases answer with e | ⟨start, len, next⟩
  · rfl
  dsimp only
  cases requestLine src start len with
  | error e => rfl
  | ok line =>
    have meet : ((after.setLine line).commitLine next) = ((after'.setLine line).commitLine next) := by
      have shift : ∀ s : HttpRequestHeadScan, ((s.setLine line).commitLine next) =
        (((s.commitLine 0).setLine line).commitLine next) := fun _ => rfl
      rw [shift, scans, ← shift]
    dsimp only
    rw [meet]

variable {scan after : HttpRequestHeadScan} {src : Bytes}

theorem readHeaders_resume (line : HttpRequestLineParts)
    (inside : scan.pos + scan.scanned ≤ src.length) (open_ : scan.spent ≠ true)
    (held : scan.line = some line) (cut : scan.readHeaders src line = (.error .incomplete, after)) :
    after.pos + after.scanned ≤ src.length ∧
      ∀ more, (after.advance (src ++ more)).1 = (scan.readHeaders (src ++ more) line).1 := by
  rw [readHeaders] at cut
  rcases loop : headerLoop src (src.length + 1) scan with ⟨answer, behind⟩
  rw [loop] at cut
  cases answer with
  | ok bodyStart => cases cut
  | error e =>
    cases cut
    rcases headerLoop_resume _ _ inside (by omega) loop with ⟨resumes, kept⟩
    refine ⟨resumes.inside, fun more => ?_⟩
    rw [advance, resumes.spent, if_neg open_, kept, held]
    exact (readHeaders_same _ (resumes.answer more)).symm

/-- A call that asked for more bytes can be forgotten: the scan it left answers
every longer buffer as the scan it was made on would have. -/
theorem advance_resume (inside : scan.pos + scan.scanned ≤ src.length)
    (cut : scan.advance src = (.error .incomplete, after)) :
    after.pos + after.scanned ≤ src.length ∧
      ∀ more, (after.advance (src ++ more)).1 = (scan.advance (src ++ more)).1 := by
  rw [advance] at cut
  split_ifs at cut with spent
  · cases cut
  cases held : scan.line with
  | some line =>
    rw [held] at cut
    rcases readHeaders_resume _ inside spent held cut with ⟨room, answers⟩
    refine ⟨room, fun more => ?_⟩
    rw [answers more, advance, if_neg spent, held]
  | none =>
    rw [held] at cut
    rcases found : scan.nextLine src with ⟨answer, behind⟩
    rw [found] at cut
    rcases answer with e | ⟨start, len, next⟩
    · cases cut
      have stopped := (nextLine_resume inside found []).1
      constructor
      · rw [stopped]
        dsimp only
        omega
      · intro more
        apply (advance_same spent _ held _ (nextLine_resume inside found _).2).symm
        · rw [stopped]
        · rw [stopped]
          exact held
    · rcases nextLine_extend inside found [] with ⟨_, unchanged, within, forward, inner⟩
      subst unchanged
      dsimp only at cut
      rcases read : requestLine src start len with _ | line
      · rw [read] at cut
        cases cut
        exact absurd read (requestLine_settled _ _ _)
      rw [read] at cut
      have resumed := @readHeaders_resume ((behind.setLine line).commitLine next)
        after src line inner spent rfl cut
      refine ⟨resumed.1, fun more => ?_⟩
      rw [resumed.2 more, advance, if_neg spent, held]
      rw [(nextLine_extend inside found _).1]
      dsimp only
      rw [requestLine_extend within, read]

theorem advance_spent (spent : scan.spent = true) (src : Bytes) :
    scan.advance src = (.error .invalid, scan) := by
  rw [advance, if_pos spent]

variable {head : HttpRequestHead}

theorem readHeaders_ok {line : HttpRequestLineParts}
    (done : scan.readHeaders src line = (.ok head, after)) : after.spent = true := by
  rw [readHeaders] at done
  rcases loop : headerLoop src (src.length + 1) scan with ⟨answer, behind⟩
  rw [loop] at done
  cases answer with
  | error e => cases done
  | ok bodyStart =>
    cases done
    rfl

theorem advance_ok (done : scan.advance src = (.ok head, after)) : after.spent = true := by
  grind [advance, readHeaders_ok]

/-- The scan answers every buffer of the sequence as a fresh one would. -/
def Follows (word : Bytes) (scan : HttpRequestHeadScan) (cuts : List Nat) : Prop :=
  ∀ cut ∈ cuts, scan.pos + scan.scanned ≤ (word.take cut).length ∧
    (scan.advance (word.take cut)).1 = (new.advance (word.take cut)).1

theorem follows_step (growing : (cut :: rest).Pairwise (· ≤ ·)) (follows : Follows word scan (cut :: rest))
    (asked : scan.advance (word.take cut) = (.error .incomplete, after)) :
    Follows word after rest := by
  intro later inRest
  have order : cut ≤ later := rel_of_pairwise_cons growing inRest
  have longer : word.take later = word.take cut ++ (word.drop cut).take (later - cut) := by
    rw [← take_add, Nat.add_sub_cancel' order]
  have here := follows cut mem_cons_self
  have there := follows later (mem_cons_of_mem _ inRest)
  rcases advance_resume here.1 asked with ⟨room, answers⟩
  constructor
  · rw [longer, length_append]
    omega
  · rw [← there.2, longer]
    exact answers _

theorem advanceAll_follows (scan : HttpRequestHeadScan)
    (growing : cuts.Pairwise (· ≤ ·)) (follows : Follows word scan cuts) (k : Nat) (asked : ∀ j, j < k →
      (scan.advanceAll (cuts.map word.take))[j]? = some (.error .incomplete)) :
    (scan.advanceAll (cuts.map word.take))[k]? =
      cuts[k]?.map fun cut => (new.advance (word.take cut)).1 := by
  induction cuts generalizing scan k with
  | nil => rfl
  | cons cut rest ih =>
    cases k with
    | zero => exact congrArg some (follows cut mem_cons_self).2
    | succ k =>
      have first := Option.some.inj (asked 0 (Nat.succ_pos k))
      apply ih (scan.advance (word.take cut)).2 growing.of_cons
      · exact follows_step growing follows (Prod.ext first rfl)
      · intro j before
        exact asked (j + 1) (Nat.succ_lt_succ before)

theorem advanceAll_spent (scan : HttpRequestHeadScan) (spent : scan.spent = true) (buffers : List Bytes) :
    scan.advanceAll buffers = buffers.map fun _ => .error .invalid := by
  induction buffers with
  | nil => rfl
  | cons src rest ih => rw [advanceAll, advance_spent spent, ih, map_cons]

theorem advanceAll_after_ok (scan : HttpRequestHeadScan) (j k : Nat) (before : j < k)
    (accepted : (scan.advanceAll buffers)[j]? = some (.ok head))
    (later : (scan.advanceAll buffers)[k]? = some answer) : answer = .error .invalid := by
  induction buffers generalizing scan j k with
  | nil => cases accepted
  | cons src rest ih =>
    rw [advanceAll] at accepted later
    cases k with
    | zero => omega
    | succ k =>
      cases j with
      | zero =>
        have spent := advance_ok (Prod.ext (Option.some.inj accepted) rfl :
          scan.advance src = (.ok head, (scan.advance src).2))
        rw [getElem?_cons_succ, advanceAll_spent _ spent, getElem?_map, Option.map_eq_some_iff] at later
        rcases later with ⟨_, _, same⟩
        exact same.symm
      | succ j => exact ih _ j k (Nat.lt_of_succ_lt_succ before) accepted later

/-- One scan advanced over growing prefixes of a byte string gives, call by call, the
answer of a fresh scan of that prefix, as long as every earlier call asked for
more bytes; after a head was given every call is refused. -/
theorem advanceAll_one_shot (word : Bytes) (cuts : List Nat) (growing : cuts.Pairwise (· ≤ ·)) :
    (∀ k : Nat, (∀ j : Nat, j < k →
        (new.advanceAll (cuts.map word.take))[j]? = some (.error .incomplete)) →
      (new.advanceAll (cuts.map word.take))[k]? =
        cuts[k]?.map fun cut => (new.advance (word.take cut)).1) ∧
    ∀ (j k : Nat) (head : HttpRequestHead) (answer : Except HttpParseErr HttpRequestHead), j < k →
      (new.advanceAll (cuts.map word.take))[j]? = some (.ok head) →
      (new.advanceAll (cuts.map word.take))[k]? = some answer → answer = .error .invalid := by
  constructor
  · intro k asked
    apply advanceAll_follows new growing _ k asked
    intro cut _
    exact ⟨Nat.zero_le _, rfl⟩
  · intro j k head answer before accepted later
    exact advanceAll_after_ok new j k before accepted later

/-- A request cut inside its line end, at its end, and asked again. -/
theorem advanceAll_one_shot_split :
    [17, 18, 18].Pairwise (· ≤ ·) ∧
      (new.advanceAll ([17, 18, 18].map (ascii "GET / HTTP/1.1\r\n\r\n").take))[1]? =
        some (new.advance (ascii "GET / HTTP/1.1\r\n\r\n")).1 := by
  refine ⟨by decide, ?_⟩
  apply (advanceAll_one_shot (ascii "GET / HTTP/1.1\r\n\r\n") [17, 18, 18] (by decide)).1 1
  intro j first
  rw [Nat.lt_one_iff.mp first]
  decide

end HttpRequestHeadScan

end Align.Http
