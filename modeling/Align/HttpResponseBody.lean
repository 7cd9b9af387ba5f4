import Align.HttpResponseRead

/-! The body behind a serialized head. A declared length is taken as one run; a
chunked body frame by frame, each frame charging its size line and its line end to
the framing budget, until the terminator. -/
namespace Align.Http
open Segments Feeding Numerals List

/-- What one frame adds to the framing budget. -/
def frameCost (n : Nat) : Nat := (httpChunkSizeLine n).length + 2

def framingCost (chunks : List Bytes) : Nat := (chunks.map fun chunk => frameCost chunk.length).sum

def frameBytes (chunk : Bytes) : Bytes := httpChunkSizeLine chunk.length ++ (chunk ++ [cr, lf])

theorem hexDigit_read (digit : d < 16) :
    isAsciiHexdigit (hexDigit d) = true ∧ hexValue (hexDigit d) = d ∧ hexDigit d ≠ lf ∧ hexDigit d ≠ cr := by
  revert d
  decide

theorem numeral_length (base width n : Nat) (written : List Nat) :
    (numeral base width n written).length ≤ width + written.length := by
  induction width generalizing n written with
  | zero => rw [numeral, Nat.zero_add]
  | succ width ih =>
    rw [numeral]
    by_cases single : n / base = 0
    · rw [if_pos single, length_cons]
      omega
    · have longer := ih (n / base) (n % base :: written)
      rw [if_neg single]
      rw [length_cons] at longer
      omega

namespace HttpResponseDecoder

/-- A decoder behind a head, with nothing of the body read. -/
structure Ready (d : HttpResponseDecoder) (head : HttpHead) : Prop where
  capacity : d.acc.capacity = httpMaxResponseLogical
  small : d.acc.bytes.length ≤ httpMaxHeaderBlock
  accepted : d.finalHead = some head
  start : head.bodyStart = d.acc.bytes.length
  trailer : d.trailer.bytes = 0

/-- The buffered decoder after more of the body, with its framing charge and its state. -/
def received (d : HttpResponseDecoder) (body : Bytes) (framing : Nat) (state : HttpDecodeState) :
    HttpResponseDecoder :=
  { d with
    acc := { d.acc with bytes := d.acc.bytes ++ body }, boundedBody := none
    explicitBodyLimit := none, streaming := false, line := resetChunkLine
    chunkFramingBytes := framing, state }

/-- The size line with these digits behind it. -/
def sizeLine (len : Nat) (hasDigit : Bool) (size : Nat) : ChunkLine :=
  { state := .size, len, hasDigit, size, magnitudeOk := true }

section Body
variable {d : HttpResponseDecoder} {head : HttpHead} {body : Bytes} {framing : Nat}
  {state : HttpDecodeState}

theorem received_valid (open_ : state ≠ .closeDelimited) (past : state ≠ .head) :
    Valid (d.received body framing state) :=
  ⟨rfl, fun _ => rfl, fun here => absurd here open_, fun here => absurd here open_,
    fun here => absurd here past⟩

theorem received_running (open_ : state ≠ .complete) :
    (d.received body framing state).complete = false := beq_false_of_ne open_

theorem Ready.bodyLen (ready : Ready d head) :
    (d.received body framing state).bodyLen = .ok body.length := by
  have stored : (d.received body framing state).acc.bytes.length =
    d.acc.bytes.length + body.length := length_append
  rw [HttpResponseDecoder.bodyLen, show (d.received body framing state).streaming = false from rfl,
    if_neg Bool.false_ne_true, show (d.received body framing state).boundedBody = none from rfl,
    show (d.received body framing state).finalHead = some head from ready.accepted]
  dsimp only
  rw [stored, ready.start, if_pos (Nat.le_add_right _ _), Nat.add_sub_cancel_left]

theorem Ready.bodyRun (ready : Ready d head) (more : Bytes) (done : HttpDecodeState)
    (going : Nat → HttpDecodeState) (room : (body ++ more).length ≤ httpMaxBody) :
    (d.received body framing state).bodyRun more.length done going more =
      .ok (more.length, d.received (body ++ more) framing done) := by
  have small := ready.small
  rw [length_append] at room
  have fits : (d.received body framing state).acc.bytes.length + more.length ≤
    (d.received body framing state).acc.capacity := by
    have stored : (d.received body framing state).acc.bytes.length =
      d.acc.bytes.length + body.length := length_append
    rw [stored, show (d.received body framing state).acc.capacity = httpMaxResponseLogical from
      ready.capacity, httpMaxResponseLogical]
    omega
  have joined : (d.received body framing state).acc.bytes ++ more = d.acc.bytes ++ (body ++ more) :=
    append_assoc _ _ _
  rw [HttpResponseDecoder.bodyRun, Nat.min_self, take_length, appendBody,
    show (d.received body framing state).boundedBody = none from rfl]
  rw [HttpResponseAccumulator.extendFromSlice, if_pos fits, Nat.sub_self, if_pos rfl, joined]
  rfl

theorem Ready.feed_fixed (ready : Ready d head) (some_ : body ≠ []) (room : body.length ≤ httpMaxBody) :
    (d.received [] framing (.fixed body.length)).feed body =
      .ok (body.length, d.received body framing .complete) := by
  have valid : Valid (d.received [] framing (.fixed body.length)) := received_valid nofun nofun
  apply feed_turn valid some_ (received_running nofun)
  rw [feedStep_fixed some_ rfl]
  exact ready.bodyRun _ _ _ room

variable (e : HttpResponseDecoder)

theorem chunkLineByte_digit (buffered : e.streaming = false) (size : Nat)
    (hex : digit < 16) (fits : size * 16 + digit ≤ httpMaxBody) :
    (e.setLine (sizeLine len has size)).chunkLineByte (hexDigit digit) =
      .ok (e.setLine (sizeLine (len + 1) true (size * 16 + digit))) := by
  rcases hexDigit_read hex with ⟨isHex, reads, notLf, notCr⟩
  have below := digit_fits (by decide) fits
  rw [not_or] at below
  have ceiling : (e.setLine (sizeLine len has size)).sizeCeiling = httpMaxBody := by
    rw [sizeCeiling, show (e.setLine (sizeLine len has size)).streaming = false from buffered,
      if_neg Bool.false_ne_true]
  rw [chunkLineByte, if_neg (show ¬ (e.setLine (sizeLine len has size)).line.state = .cr by rintro ⟨⟩), if_neg notLf,
    if_neg notCr, ceiling, chunkLineNext]
  dsimp only [setLine, sizeLine, ChunkLine.counted]
  rw [if_pos isHex, chunkSizeDigit]
  rw [if_pos rfl, reads, if_neg below.2]
  rfl

theorem foldlM_digits (buffered : e.streaming = false) (digits : List Nat) (len size : Nat)
    (has : Bool) (hex : ∀ digit ∈ digits, digit < 16) (fits : value 16 size digits ≤ httpMaxBody) :
    (digits.map hexDigit).foldlM chunkLineByte (e.setLine (sizeLine len has size)) =
      .ok (e.setLine (sizeLine (len + digits.length) (has || !digits.isEmpty) (value 16 size digits))) := by
  induction digits generalizing len size has with
  | nil =>
    rw [isEmpty_nil, Bool.not_true, Bool.or_false]
    rfl
  | cons digit digits ih =>
    have now := hex digit mem_cons_self
    have first : size * 16 + digit ≤ httpMaxBody :=
      Nat.le_trans (le_value _ _ _ (by decide)) fits
    rw [map_cons, foldlM_cons, chunkLineByte_digit e buffered _ now first]
    dsimp only [bind, Except.bind]
    rw [ih (len + 1) (size * 16 + digit) true
      (fun other mem => hex other (mem_cons_of_mem digit mem)) fits, length_cons, Nat.add_assoc,
      Nat.add_comm 1, Bool.true_or, isEmpty_cons, Bool.not_false, Bool.or_true]
    rfl

theorem foldlM_sizeLine (buffered : e.streaming = false) (clear : e.line = resetChunkLine)
    (cap : n ≤ httpMaxBody) :
    (httpChunkSizeLine n).foldlM chunkLineByte e =
      (e.setLine
        { sizeLine (httpChunkSizeLine n).length true n with state := .cr }).finishChunkLine := by
  have short : n < 16 ^ 16 := Nat.lt_of_le_of_lt cap (by decide)
  have number : value 16 0 (numeral 16 16 n []) = n := value_numeral _ _ n [] short
  have hex := numeral_digits 16 16 n [] (by decide) (by simp)
  have some_ : (numeral 16 16 n []).isEmpty = false :=
    isEmpty_eq_false_iff.mpr (numeral_ne_nil _ _ n [] (Or.inr (by decide)))
  have blank_ : e.setLine (sizeLine 0 false 0) = e := by
    rw [setLine, show sizeLine 0 false 0 = resetChunkLine from rfl, ← clear]
  have digits := foldlM_digits e buffered (numeral 16 16 n []) 0 0 false hex (by
    rw [number]
    exact cap)
  rw [blank_, number, some_] at digits
  have length : (httpChunkSizeLine n).length = 0 + (numeral 16 16 n []).length + 1 + 1 := by
    rw [httpChunkSizeLine, length_append, length_map, Nat.zero_add]
    rfl
  have ended : (e.setLine (sizeLine (0 + (numeral 16 16 n []).length) true n)).chunkLineByte Http.cr =
    .ok (e.setLine
      { sizeLine (0 + (numeral 16 16 n []).length + 1) true n with state := .cr }) := rfl
  rw [length, httpChunkSizeLine, foldlM_append, digits]
  dsimp only [bind, Except.bind]
  rw [foldlM_cons, show (false || !false) = true from rfl, ended]
  dsimp only [bind, Except.bind]
  exact bind_pure _

theorem sizeLine_length (n : Nat) : 3 ≤ (httpChunkSizeLine n).length ∧ (httpChunkSizeLine n).length ≤ 18 := by
  have most := numeral_length 16 16 n []
  have some_ := length_pos_of_ne_nil (numeral_ne_nil 16 16 n [] (Or.inr (by decide)))
  rw [httpChunkSizeLine, length_append, length_map, length_cons, length_singleton]
  rw [length_nil] at most
  omega

theorem sizeLine_inner (n : Nat) : lf ∉ (numeral 16 16 n []).map hexDigit ++ [Http.cr] := by
  rw [mem_append, not_or, mem_singleton]
  refine ⟨fun inside => ?_, by decide⟩
  rcases mem_map.mp inside with ⟨digit, mem, same⟩
  exact (hexDigit_read (numeral_digits _ _ n [] (by decide) (by simp) digit mem)).2.2.1 same

theorem lineTake_sizeLine (n : Nat) : lineTake (httpChunkSizeLine n) = (httpChunkSizeLine n).length := by
  have split : httpChunkSizeLine n = ((numeral 16 16 n []).map hexDigit ++ [Http.cr]) ++ lf :: [] := by
    rw [httpChunkSizeLine, append_assoc]
    rfl
  rw [lineTake, split, memchr_at (sizeLine_inner n)]
  rw [length_append, length_singleton, length_append, length_append]
  rfl

/-- Where a size line leads: to the chunk's data, or past the last chunk. -/
def afterSize (n : Nat) : HttpDecodeState := if n = 0 then .trailers else .chunkData n

/-- The decoder there. The trailers start over behind the last chunk. -/
def sized (d : HttpResponseDecoder) (n : Nat) : HttpResponseDecoder :=
  { d with trailer := { d.trailer with state := if n = 0 then .start else d.trailer.state } }

theorem Ready.finishChunkLine (ready : Ready d head) (line : ChunkLine) (intact : line.magnitudeOk = true)
    (room : body.length + line.size ≤ httpMaxBody) :
    ((d.received body framing .chunkSize).setLine line).finishChunkLine =
      .ok ((d.sized line.size).received body framing (afterSize line.size)) := by
  have bodyLen : ((d.received body framing .chunkSize).setLine line).bodyLen = .ok body.length :=
    @Ready.bodyLen d head body framing .chunkSize ready
  have cap : ((d.received body framing .chunkSize).setLine line).bodyCap = httpMaxBody :=
    bodyCap_default rfl rfl
  have word : body.length + line.size < 2 ^ 64 := Nat.lt_of_le_of_lt room (by decide)
  rw [HttpResponseDecoder.finishChunkLine, bodyLen, cap,
    show ((d.received body framing .chunkSize).setLine line).line = line from rfl, intact, Bool.not_true,
    if_neg Bool.false_ne_true]
  dsimp only [Except.bind]
  rw [if_neg (by omega)]
  by_cases last : line.size = 0
  · rw [startChunk, if_neg (not_not.mpr last), if_pos last, afterSize, if_pos last, sized, if_pos last]
    rfl
  · rw [startChunk, if_pos last, if_neg last, afterSize, if_neg last, sized, if_neg last]
    rfl

theorem Ready.feed_sizeLine (ready : Ready d head) (n : Nat) (room : body.length + n ≤ httpMaxBody)
    (budget : framing + (httpChunkSizeLine n).length ≤ httpMaxChunkFraming)
    (more : n ≠ 0 → framing + (httpChunkSizeLine n).length ≠ httpMaxChunkFraming) :
    (d.received body framing .chunkSize).feed (httpChunkSizeLine n) =
      .ok ((httpChunkSizeLine n).length,
        (d.sized n).received body (framing + (httpChunkSizeLine n).length) (afterSize n)) := by
  rcases sizeLine_length n with ⟨least, most⟩
  have some_ : httpChunkSizeLine n ≠ [] := ne_nil_of_length_pos (by omega)
  have valid : Valid (d.received body framing .chunkSize) := received_valid (by simp) (by simp)
  have short : ¬ (httpMaxChunkFraming < framing + (httpChunkSizeLine n).length ∨
    httpMaxChunkLine < 0 + (httpChunkSizeLine n).length) := by
    rw [httpMaxChunkLine]
    omega
  have read : (d.received body framing .chunkSize).feedChunkLine (httpChunkSizeLine n) =
    .ok ((d.sized n).received body (framing + (httpChunkSizeLine n).length) (afterSize n)) := by
    rw [feedChunkLine, show (d.received body framing .chunkSize).chunkFramingBytes = framing from rfl,
      show (d.received body framing .chunkSize).line.len = 0 from rfl, if_neg short,
      foldlM_sizeLine _ rfl rfl (by omega)]
    exact @Ready.finishChunkLine d head body (framing + (httpChunkSizeLine n).length) ready _ rfl room
  have onward : ¬ (framing + (httpChunkSizeLine n).length = httpMaxChunkFraming ∧
    afterSize n ≠ .trailers) := by
    rintro ⟨full, data⟩
    apply data
    rw [afterSize, if_pos (by_contra fun some_ => more some_ full)]
  apply feed_turn valid some_ (received_running (by simp))
  rw [feedStep_chunkSize some_ rfl, chunkSizeStep, lineTake_sizeLine, take_length, read]
  exact if_neg onward

theorem crLfByte_cr :
    (d.received body framing (.chunkDataCrLf 0)).crLfByte 0 Http.cr =
      if httpMaxChunkFraming < framing + 1 ∨ (0 = 0 ∧ Http.cr ≠ Http.cr) ∨ (0 = 1 ∧ Http.cr ≠ lf) then
        .error .invalid
      else if framing + 1 = httpMaxChunkFraming then .error .invalid
      else .ok (d.received body (framing + 1) (.chunkDataCrLf 1)) := rfl

theorem feed_cr (budget : framing + 1 < httpMaxChunkFraming) :
    (d.received body framing (.chunkDataCrLf 0)).feed [Http.cr] =
      .ok (1, d.received body (framing + 1) (.chunkDataCrLf 1)) := by
  have valid : Valid (d.received body framing (.chunkDataCrLf 0)) := received_valid nofun nofun
  have within : ¬ (httpMaxChunkFraming < framing + 1 ∨ (0 = 0 ∧ Http.cr ≠ Http.cr) ∨
    (0 = 1 ∧ Http.cr ≠ lf)) := by
    rintro (past | ⟨_, other⟩ | ⟨absurd_, _⟩)
    · omega
    · exact other rfl
    · cases absurd_
  apply feed_turn valid (cons_ne_nil _ _) (received_running nofun)
  rw [feedStep_chunkDataCrLf rfl, crLfByte_cr, if_neg within, if_neg (by omega)]
  rfl

theorem feed_lf (budget : framing + 1 < httpMaxChunkFraming) :
    (d.received body framing (.chunkDataCrLf 1)).feed [lf] =
      .ok (1, d.received body (framing + 1) .chunkSize) := by
  have valid : Valid (d.received body framing (.chunkDataCrLf 1)) := received_valid nofun nofun
  have form : (d.received body framing (.chunkDataCrLf 1)).crLfByte 1 lf =
    if httpMaxChunkFraming < framing + 1 ∨ (1 = 0 ∧ lf ≠ Http.cr) ∨ (1 = 1 ∧ lf ≠ lf) then
      .error .invalid
    else if framing + 1 = httpMaxChunkFraming then .error .invalid
    else .ok (d.received body (framing + 1) .chunkSize) := rfl
  have within : ¬ (httpMaxChunkFraming < framing + 1 ∨ (1 = 0 ∧ lf ≠ Http.cr) ∨ (1 = 1 ∧ lf ≠ lf)) := by
    rintro (past | ⟨absurd_, _⟩ | ⟨_, other⟩)
    · omega
    · cases absurd_
    · exact other rfl
  apply feed_turn valid (cons_ne_nil _ _) (received_running nofun)
  rw [feedStep_chunkDataCrLf rfl, form, if_neg within, if_neg (by omega)]
  rfl

theorem Ready.feed_data (ready : Ready d head) (chunk : Bytes) (some_ : chunk ≠ [])
    (room : (body ++ chunk).length ≤ httpMaxBody) :
    (d.received body framing (.chunkData chunk.length)).feed chunk =
      .ok (chunk.length, d.received (body ++ chunk) framing (.chunkDataCrLf 0)) := by
  refine feed_turn (received_valid nofun nofun) some_ (received_running nofun) ?_
  rw [feedStep_chunkData some_ rfl]
  exact ready.bodyRun _ _ _ room

theorem Ready.feed_frame (ready : Ready d head) (chunk : Bytes) (some_ : chunk ≠ [])
    (room : (body ++ chunk).length ≤ httpMaxBody)
    (budget : framing + frameCost chunk.length < httpMaxChunkFraming) :
    (d.received body framing .chunkSize).feed (frameBytes chunk) =
      .ok ((frameBytes chunk).length,
        d.received (body ++ chunk) (framing + frameCost chunk.length) .chunkSize) := by
  have nonzero : chunk.length ≠ 0 := fun empty => some_ (eq_nil_of_length_eq_zero empty)
  have valid : Valid (d.received body framing .chunkSize) := received_valid nofun nofun
  obtain ⟨width, named⟩ : ∃ width, width = (httpChunkSizeLine chunk.length).length := ⟨_, rfl⟩
  rw [frameCost, ← named] at budget ⊢
  have length : (frameBytes chunk).length = width + (chunk.length + (1 + 1)) := by
    rw [frameBytes, length_append, length_append, ← named]
    rfl
  have size := @Ready.feed_sizeLine d head body framing ready chunk.length (by
    rw [length_append] at room
    exact room) (by omega) (by omega)
  rw [← named, afterSize, if_neg nonzero, sized, if_neg nonzero] at size
  have ended : (d.received (body ++ chunk) (framing + width) (.chunkDataCrLf 0)).feed
    ([Http.cr] ++ [lf]) = .ok (1 + 1, d.received (body ++ chunk) (framing + width + 1 + 1) .chunkSize) :=
    feed_next (received_valid nofun nofun) (feed_cr (by omega)) (feed_lf (by omega))
  rw [length, frameBytes]
  exact feed_next valid size
    (feed_next (received_valid nofun nofun) (ready.feed_data _ some_ room) ended)

theorem Ready.feed_frames (ready : Ready d head) (body : Bytes) (framing : Nat)
    (some_ : ∀ chunk ∈ chunks, chunk ≠ []) (room : (body ++ chunks.flatten).length ≤ httpMaxBody)
    (budget : framing + framingCost chunks < httpMaxChunkFraming) :
    (d.received body framing .chunkSize).feed (chunks.flatMap frameBytes) =
      .ok ((chunks.flatMap frameBytes).length,
        d.received (body ++ chunks.flatten) (framing + framingCost chunks) .chunkSize) := by
  induction chunks generalizing body framing with
  | nil =>
    rw [flatten_nil, append_nil]
    exact feed_stop _ (Or.inl rfl)
  | cons chunk chunks ih =>
    rw [flatten_cons, ← append_assoc] at room ⊢
    rw [framingCost, map_cons, sum_cons, ← Nat.add_assoc] at budget ⊢
    have valid : Valid (d.received body framing .chunkSize) := received_valid nofun nofun
    have first := @Ready.feed_frame d head body framing ready chunk (some_ chunk mem_cons_self) (by
      rw [length_append] at room
      omega) (by omega)
    have rest := ih (body ++ chunk) (framing + frameCost chunk.length)
      (fun other mem => some_ other (mem_cons_of_mem chunk mem)) room budget
    rw [flatMap_cons, length_append]
    exact feed_next valid first rest

/-- A decoder that holds the whole message. -/
structure Whole (e : HttpResponseDecoder) (text body : Bytes) (head : HttpHead) : Prop where
  ended : e.state = .complete
  buffered : e.streaming = false
  unbounded : e.boundedBody = none
  accepted : e.finalHead = some head
  start : head.bodyStart = text.length
  stored : e.acc.bytes = text ++ body

theorem Ready.whole (ready : Ready d head) :
    Whole (d.received body framing .complete) d.acc.bytes body head :=
  ⟨rfl, rfl, rfl, ready.accepted, ready.start, rfl⟩

def inTrailers (e : HttpResponseDecoder) (bytes : Nat) (state : HttpTrailerState) : HttpResponseDecoder :=
  { e with trailer := { e.trailer with bytes, state }, state := .trailers }

theorem inTrailers_ends :
    (e.inTrailers 0 .start).feedTrailerByte Http.cr = .ok (e.inTrailers 1 .finalLf) ∧
      (e.inTrailers 1 .finalLf).feedTrailerByte lf =
        .ok ((e.inTrailers 2 .finalLf).setState .complete) := ⟨rfl, rfl⟩

theorem feed_trailers (buffered : e.streaming = false) (unbounded : e.boundedBody = none) :
    (e.inTrailers 0 .start).feed ([Http.cr] ++ [lf]) =
      .ok (1 + 1, (e.inTrailers 2 .finalLf).setState .complete) := by
  rcases inTrailers_ends e with ⟨onCr, onLf⟩
  have valid : ∀ bytes state, Valid (e.inTrailers bytes state) := fun bytes state =>
    ⟨buffered, fun _ => unbounded, nofun, nofun, nofun⟩
  have first : (e.inTrailers 0 .start).feed [Http.cr] = .ok (1, e.inTrailers 1 .finalLf) := by
    apply feed_turn (valid 0 .start) (cons_ne_nil _ _) rfl
    rfl
  have second : (e.inTrailers 1 .finalLf).feed [lf] =
    .ok (1, (e.inTrailers 2 .finalLf).setState .complete) := by
    apply feed_turn (valid 1 .finalLf) (cons_ne_nil _ _) rfl
    rfl
  exact feed_next (valid 0 .start) first second

theorem Ready.feed_terminator (ready : Ready d head) (room : body.length ≤ httpMaxBody)
    (budget : framing + 3 ≤ httpMaxChunkFraming) :
    ∃ e, (d.received body framing .chunkSize).feed httpChunkedTerminator =
        .ok (httpChunkedTerminator.length, e) ∧ Whole e d.acc.bytes body head := by
  have three : httpChunkSizeLine 0 = [48, Http.cr, lf] := by decide
  have valid : Valid (d.received body framing .chunkSize) := received_valid nofun nofun
  have size := @Ready.feed_sizeLine d head body framing ready 0 room (by
    exact budget) (fun absurd_ => absurd rfl absurd_)
  have last : (d.sized 0).received body (framing + (httpChunkSizeLine 0).length) (afterSize 0) =
    (d.received body (framing + 3) .trailers).inTrailers d.trailer.bytes .start := by
    rfl
  rw [last, three, ready.trailer] at size
  have ended := feed_trailers (d.received body (framing + 3) .trailers) rfl rfl
  exact ⟨_, feed_next valid size ended, rfl, rfl, rfl, ready.accepted, ready.start, rfl⟩

theorem Whole.response {e : HttpResponseDecoder} (whole : Whole e text body head) :
    (e.finishEof.bind fun e => e.intoResponse) =
      .ok
        { buf := text ++ body, boundedBody := none, status := head.status, headers := head.headers
          bodyStart := text.length, bodyLen := body.length } := by
  have complete : e.complete = true := by
    rw [HttpResponseDecoder.complete, whole.ended]
    rfl
  have length : e.bodyLen = .ok body.length := by
    rw [HttpResponseDecoder.bodyLen, whole.buffered, if_neg Bool.false_ne_true, whole.unbounded,
      whole.accepted]
    dsimp only
    rw [whole.stored, whole.start, length_append, if_pos (Nat.le_add_right _ _), Nat.add_sub_cancel_left]
  rw [finishEof, whole.ended]
  dsimp only [Except.bind]
  rw [intoResponse, complete, Bool.not_true, if_neg Bool.false_ne_true, length, whole.accepted,
    whole.unbounded, whole.stored, ← whole.start]
  rfl

end Body

end HttpResponseDecoder

end Align.Http
