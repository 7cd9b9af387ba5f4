import Align.HttpResponseBody

/-! A serialized response, buffered or streamed, against the decoder: the bytes are
a status line, field lines and a blank line, then the body in the framing the last
field declares, and the decoder returns each part. -/
namespace Align.Http
open Segments Feeding Numerals List Option

def statusLine (status : Int) : Bytes :=
  httpStatusLinePrefix ++ statusDigits status.toNat ++ [blank] ++ httpReasonPhrase status

/-- The fields in front of the framing field. -/
def sentFields (rb : ResponseBuilder) : List (Bytes × Bytes) :=
  rb.headers ++ [(ascii "Connection", ascii "close")]

def responseHead (rb : ResponseBuilder) (kind : BodyFraming) : Bytes :=
  headText (statusLine rb.status) (sentFields rb ++ kind.fields)

/-- The fields a receiver sees, values without their surrounding blanks. -/
def responseFields (rb : ResponseBuilder) (kind : BodyFraming) : List (Bytes × Bytes) :=
  (sentFields rb ++ kind.fields).map trimmedField

/-- The framing of a response sent whole. -/
def wholeFraming (rb : ResponseBuilder) : BodyFraming :=
  if httpStatusAllowsABody rb.status then .length (rb.body.getD []).length else .bodiless

theorem httpReasonPhrase_bytes (status : Int) :
    (httpReasonPhrase status).all httpResponseValueByte = true := by
  unfold httpReasonPhrase
  split <;> decide

theorem statusLine_reads (digits : [a, b, c].all isDigit = true)
    (leading : a ≠ 48) (inner : reason.all httpResponseValueByte = true) :
    StatusLine (httpStatusLinePrefix ++ [a, b, c] ++ [blank] ++ reason)
      ((a.toNat - 48) * 100 + (b.toNat - 48) * 10 + (c.toNat - 48)) := by
  have version : ascii "HTTP/1.1" = [72, 84, 84, 80, 47, 49, 46, 49] := by decide
  obtain ⟨text, form⟩ : ∃ text : Bytes, text =
    72 :: 84 :: 84 :: 80 :: 47 :: 49 :: 46 :: 49 :: 32 :: a :: b :: c :: 32 :: reason := ⟨_, rfl⟩
  have same : httpStatusLinePrefix ++ [a, b, c] ++ [blank] ++ reason = text := by
    rw [show httpStatusLinePrefix = [72, 84, 84, 80, 47, 49, 46, 49, 32] by decide,
      show blank = 32 from rfl, append_assoc, append_assoc, form]
    rfl
  have first : text.take 8 = ascii "HTTP/1.1" := by rw [form, version]; rfl
  have long : text.length = reason.length + 13 := by rw [form]; rfl
  have code : slice text 9 12 = [a, b, c] := by rw [form]; rfl
  have hundreds : text[9]? = some a := by rw [form]; rfl
  have before : text[8]? = some blank := by rw [form]; rfl
  have after : text[12]? = some blank := by rw [form]; rfl
  have rest : text.drop 13 = reason := by rw [form]; rfl
  rw [same]
  refine ⟨?_, first, by rw [form]; rfl, ?_⟩
  · have short : decide (text.length < 13) = false := by
      exact decide_eq_false (by omega)
    have nonzero : (some a == some (48 : UInt8)) = false := beq_false_of_ne (by simpa using leading)
    rw [httpValidateStatusLine, short, first, before, code, digits, hundreds, nonzero, after, rest, inner,
      bne_self_eq_false, bne_self_eq_false, Bool.and_false]
    rfl
  · have quiet : ∀ b ∈ reason, b ≠ lf := fun b mem =>
      responseValueByte_inner (List.all_eq_true.mp inner b mem)
    have digit : lf ∉ [a, b, c] := fun mem =>
      absurd (List.all_eq_true.mp digits lf mem) (by decide)
    have parts : text = [72, 84, 84, 80, 47, 49, 46, 49, 32] ++ ([a, b, c] ++ ([blank] ++ reason)) := by
      rw [form]
      rfl
    rw [parts, mem_append, mem_append, mem_append, not_or, not_or, not_or]
    exact ⟨by decide, digit, by decide, fun mem => quiet lf mem rfl⟩

theorem statusDigit_read (n : Nat) (digit : n < 10) :
    isDigit (UInt8.ofNat (48 + n)) = true ∧ (UInt8.ofNat (48 + n)).toNat - 48 = n := by
  revert n
  decide

theorem statusLine_status (final : 200 ≤ status ∧ status ≤ 599) :
    StatusLine (statusLine status) status.toNat := by
  obtain ⟨n, named⟩ : ∃ n, status.toNat = n := ⟨_, rfl⟩
  have hundreds := statusDigit_read (n / 100) (by omega)
  have tens := statusDigit_read (n / 10 % 10) (by omega)
  have ones := statusDigit_read (n % 10) (by omega)
  have leading : UInt8.ofNat (48 + n / 100) ≠ 48 := by
    intro zero
    have none_ := hundreds.2
    rw [zero] at none_
    have absurd_ : 0 = n / 100 := none_
    omega
  have digits : [UInt8.ofNat (48 + n / 100), UInt8.ofNat (48 + n / 10 % 10),
    UInt8.ofNat (48 + n % 10)].all isDigit = true := by
    rw [all_cons, all_cons, all_cons, hundreds.1, tens.1, ones.1]
    rfl
  have read := statusLine_reads digits leading (httpReasonPhrase_bytes status)
  rw [hundreds.2, tens.2, ones.2, show n / 100 * 100 + n / 10 % 10 * 10 + n % 10 = n by omega] at read
  rw [statusLine, statusDigits, named]
  exact read

theorem joinLines_fields (fields : List (Bytes × Bytes)) :
    joinLines (fields.map fieldLine) = fields.flatMap fieldBytes := by
  rw [joinLines, flatMap_map]
  congr 1
  funext field
  exact (fieldBytes_line _).symm

theorem fieldBytes_connection : fieldBytes (ascii "Connection", ascii "close") = httpConnectionClose := by
  decide

theorem httpSerializeHead_text (rb : ResponseBuilder) (final : 200 ≤ rb.status ∧ rb.status ≤ 599)
    (own : ∀ h ∈ rb.headers, autoGenerated h.1 = false) :
    httpSerializeHead rb false =
      some (statusLine rb.status ++ [cr, lf] ++ (sentFields rb).flatMap fieldBytes) := by
  have none_ : rb.headers.any (fun h => autoGenerated h.1) = false := by
    rw [List.any_eq_false]
    intro h mem
    rw [own h mem]
    exact Bool.false_ne_true
  rw [httpSerializeHead, if_neg (by omega), none_, if_neg Bool.false_ne_true, sentFields,
    flatMap_append, flatMap_singleton, fieldBytes_connection, if_neg Bool.false_ne_true,
    ← append_assoc]
  rfl

theorem responseHead_text (rb : ResponseBuilder) (kind : BodyFraming) :
    responseHead rb kind =
      statusLine rb.status ++ [cr, lf] ++ (sentFields rb).flatMap fieldBytes ++
        kind.fields.flatMap fieldBytes ++ [cr, lf] := by
  rw [responseHead, HttpResponseDecoder.headText_split, joinLines_fields, joinLines_fields]

namespace HttpResponseDecoder
variable {line : Bytes} {code : Nat} {plains : List (Bytes × Bytes)} {kind : BodyFraming}

/-- The decoder once the head is accepted. -/
def behindHead (line : Bytes) (code : Nat) (plains : List (Bytes × Bytes)) (kind : BodyFraming) :
    HttpResponseDecoder :=
  (readHead line code plains kind).acceptHead (headOf line code plains kind) true

theorem behindHead_received (state : HttpDecodeState) :
    (behindHead line code plains kind).setState state =
      (behindHead line code plains kind).received [] 0 state := by
  rw [received, append_nil]
  rfl

theorem behindHead_ready (room : (headText line (plains ++ kind.fields)).length ≤ httpMaxHeaderBlock) :
    Ready (behindHead line code plains kind) (headOf line code plains kind) := by
  have text : (behindHead line code plains kind).acc.bytes = headText line (plains ++ kind.fields) :=
    readHead_text _ code _ _
  refine ⟨rfl, ?_, rfl, ?_, rfl⟩
  · rw [text]
    exact room
  · rw [text]
    rfl

end HttpResponseDecoder
open HttpResponseDecoder

/-- A response as its receiver should see it. -/
structure Received (response : HttpResponse) (rb : ResponseBuilder) (kind : BodyFraming) (body : Bytes) :
    Prop where
  status : (response.status : Int) = rb.status
  fields : response.headers.map (spanText response.buf) = responseFields rb kind
  body : response.body = body

/-- A builder whose head the decoder accepts. -/
structure Admissible (rb : ResponseBuilder) (kind : BodyFraming) : Prop where
  final : 200 ≤ rb.status ∧ rb.status ≤ 599
  plain : ∀ field ∈ sentFields rb, PlainField field
  few : (sentFields rb ++ kind.fields).length ≤ httpMaxHeaders
  small : (responseHead rb kind).length ≤ httpMaxHeaderBlock
  fits : BodyFraming.fits kind rb.status.toNat

theorem spanText_append (pos : Nat)
    (here : src.drop pos = joinLines (fields.map fieldLine) ++ rest) :
    (spansFrom src pos fields).map (spanText (src ++ more)) =
      (spansFrom src pos fields).map (spanText src) := by
  induction fields generalizing pos with
  | nil => rfl
  | cons field fields ih =>
    rw [map_cons, joinLines_cons] at here
    have length := congrArg List.length here
    rw [length_drop, length_append, fieldLine_length, length_cons] at length
    have name : pos + field.1.length ≤ src.length := by omega
    rw [spansFrom, map_cons, map_cons, ih _ (drop_line here)]
    congr 1
    rw [spanText, spanText, slice_append_right _ _ _ (fieldSpan_inside here)]
    congr 1
    exact slice_append_right _ _ _ name

variable {rb : ResponseBuilder} {kind : BodyFraming}
variable {body : Bytes}

theorem received_of_whole (admissible : Admissible rb kind) (fed : (new false).feed wire = .ok (n, e))
    (whole : Whole e (responseHead rb kind) body
      (headOf (statusLine rb.status) rb.status.toNat (sentFields rb) kind)) :
    ∃ response, httpParseCore wire = .ok response ∧ Received response rb kind body := by
  have final := admissible.final
  refine ⟨_, by rw [httpParseCore, fed]; exact whole.response, ?_, ?_, ?_⟩
  · show ((rb.status.toNat : Nat) : Int) = rb.status
    omega
  · have here : (responseHead rb kind).drop ((statusLine rb.status).length + 2) =
      joinLines ((sentFields rb ++ kind.fields).map fieldLine) ++ [cr, lf] := by
      have whole_ : (responseHead rb kind).drop 0 = statusLine rb.status ++
        cr :: lf :: (joinLines ((sentFields rb ++ kind.fields).map fieldLine) ++ [cr, lf]) := by
        rw [drop_zero, responseHead, headText, joinLines_cons]
      have after := drop_line whole_
      rw [Nat.zero_add] at after
      exact after
    rw [responseFields, ← spansFrom_text _ here]
    exact spanText_append _ here
  · rw [HttpResponse.body]
    rw [slice, drop_left, Nat.add_sub_cancel_left, take_length]

theorem feed_responseHead {state : HttpDecodeState} (admissible : Admissible rb kind)
    (selected : (readHead (statusLine rb.status) rb.status.toNat (sentFields rb) kind).selectBody
      (headOf (statusLine rb.status) rb.status.toNat (sentFields rb) kind) =
        .ok ((behindHead (statusLine rb.status) rb.status.toNat (sentFields rb) kind).setState state)) :
    (new false).feed (responseHead rb kind) =
      .ok ((responseHead rb kind).length,
        (behindHead (statusLine rb.status) rb.status.toNat (sentFields rb) kind).received [] 0 state) := by
  have final : 200 ≤ rb.status.toNat := by
    have bounds := admissible.final
    omega
  rw [behindHead_received] at selected
  exact feed_headText (statusLine_status admissible.final) admissible.plain
    admissible.few final admissible.fits admissible.small
    ((selectHead_body _ final admissible.fits).trans selected)

theorem ready_response (admissible : Admissible rb kind) :
    Ready (behindHead (statusLine rb.status) rb.status.toNat (sentFields rb) kind)
      (headOf (statusLine rb.status) rb.status.toNat (sentFields rb) kind) :=
  behindHead_ready admissible.small

theorem stored_responseHead (rb : ResponseBuilder) (kind : BodyFraming) :
    (behindHead (statusLine rb.status) rb.status.toNat (sentFields rb) kind).acc.bytes =
      responseHead rb kind :=
  readHead_text _ rb.status.toNat _ _

theorem httpStatusAllowsABody_iff (final : 200 ≤ status ∧ status ≤ 599) :
    httpStatusAllowsABody status = true ↔ ¬ (status.toNat = 204 ∨ status.toNat = 304) := by
  have past : decide (status < 200) = false := decide_eq_false (by omega)
  rw [httpStatusAllowsABody, past, Bool.and_false, Bool.not_false, Bool.true_and, Bool.and_eq_true,
    bne_iff_ne, bne_iff_ne]
  omega

/-- A whole response: no body where the status forbids one, the declared length elsewhere. -/
theorem parse_whole (admissible : Admissible rb (wholeFraming rb))
    (empty : httpStatusAllowsABody rb.status = false → rb.body = none)
    (cap : (rb.body.getD []).length ≤ httpMaxBody) :
    ∃ response, httpParseCore (responseHead rb (wholeFraming rb) ++ rb.body.getD []) = .ok response ∧
      Received response rb (wholeFraming rb) (rb.body.getD []) := by
  have valid := newWithLimit_valid false none
  have ready := ready_response admissible
  have fedHead := @feed_responseHead rb (wholeFraming rb)
  by_cases allowed : httpStatusAllowsABody rb.status = true
  · have kind : wholeFraming rb = .length (rb.body.getD []).length := if_pos allowed
    have bodied := (httpStatusAllowsABody_iff admissible.final).mp allowed
    have fed := fedHead admissible (by
      rw [kind]
      exact selectBody_length bodied cap)
    by_cases none_ : rb.body.getD [] = []
    · rw [none_, append_nil]
      rw [none_, length_nil, if_pos rfl] at fed
      have whole := @Ready.whole _ _ [] 0 ready
      rw [stored_responseHead] at whole
      exact received_of_whole admissible fed whole
    · have some_ : ¬ (rb.body.getD []).length = 0 := fun zero =>
        none_ (eq_nil_of_length_eq_zero zero)
      rw [if_neg some_] at fed
      have whole := @Ready.whole _ _ (rb.body.getD []) 0 ready
      rw [stored_responseHead] at whole
      exact received_of_whole admissible (feed_next valid fed (ready.feed_fixed none_ cap)) whole
  · have kind : wholeFraming rb = .bodiless := if_neg allowed
    have bodiless : rb.status.toNat = 204 ∨ rb.status.toNat = 304 :=
      not_not.mp fun bodied => allowed ((httpStatusAllowsABody_iff admissible.final).mpr bodied)
    have fed := fedHead admissible (by
      rw [kind]
      exact selectBody_bodiless bodiless)
    have whole := @Ready.whole _ _ [] 0 ready
    rw [stored_responseHead] at whole
    rw [empty (Bool.not_eq_true _ ▸ allowed), getD_none, append_nil]
    exact received_of_whole admissible fed whole

theorem parse_streamed (admissible : Admissible rb .chunked)
    (allowed : httpStatusAllowsABody rb.status = true) (some_ : ∀ chunk ∈ chunks, chunk ≠ [])
    (cap : chunks.flatten.length ≤ httpMaxBody) (budget : framingCost chunks + 3 ≤ httpMaxChunkFraming) :
    ∃ response, httpParseCore
        (responseHead rb .chunked ++ (chunks.flatMap frameBytes ++ httpChunkedTerminator)) = .ok response ∧
      Received response rb .chunked chunks.flatten := by
  have valid := newWithLimit_valid false none
  have ready := ready_response admissible
  have bodied := (httpStatusAllowsABody_iff admissible.final).mp allowed
  have fed := feed_responseHead admissible (selectBody_chunked bodied)
  have frames := ready.feed_frames [] 0 some_ cap (by omega)
  rw [nil_append, Nat.zero_add] at frames
  rcases @Ready.feed_terminator _ _ chunks.flatten (framingCost chunks) ready cap budget with
    ⟨e, ended, whole⟩
  rw [stored_responseHead] at whole
  exact received_of_whole admissible
    (feed_next valid fed (feed_next (received_valid nofun nofun) frames ended)) whole

theorem flatMap_closing (kind : BodyFraming) :
    kind.fields.flatMap fieldBytes =
      match kind with
      | .bodiless => []
      | .length n => httpContentLengthPrefix ++ httpPushDecimal n ++ [cr, lf]
      | .chunked => httpTeChunked := by
  cases kind with
  | bodiless => rfl
  | length n =>
    have name : httpContentLengthPrefix = ascii "Content-Length" ++ [colon, blank] := by decide
    rw [BodyFraming.fields, flatMap_singleton, fieldBytes, name]
  | chunked => decide

theorem httpSerializeResponse_text (final : 200 ≤ rb.status ∧ rb.status ≤ 599)
    (own : ∀ h ∈ rb.headers, autoGenerated h.1 = false)
    (empty : httpStatusAllowsABody rb.status = false → rb.body = none) :
    httpSerializeResponse rb = some (responseHead rb (wholeFraming rb) ++ rb.body.getD []) := by
  rw [httpSerializeResponse, httpSerializeResponseInner, httpSerializeHead_text _ final own,
    responseHead_text, flatMap_closing, wholeFraming]
  cases allowed : httpStatusAllowsABody rb.status with
  | true => rfl
  | false =>
    rw [empty allowed]
    rfl

theorem streamSend_frame {st : HttpStream} {chunk : Bytes} (framed : st.framed = true)
    (sound : st.poisoned = false) (some_ : chunk ≠ [])
    (room : (st.pendingHead.getD []).length + chunk.length + 20 < 2 ^ 63) :
    streamSend st chunk =
      some ({ st with pendingHead := none }, st.pendingHead.getD [] ++ frameBytes chunk) := by
  have long : 0 < chunk.length := length_pos_of_ne_nil some_
  have line := sizeLine_length chunk.length
  rw [streamSend, isEmpty_eq_false_iff.mpr some_, if_neg Bool.false_ne_true, httpStreamSendParts, sound,
    framed, if_neg Bool.false_ne_true, if_neg Bool.false_ne_true, if_neg Bool.false_ne_true, if_pos rfl,
    if_pos rfl, if_pos rfl, length_nil, Nat.zero_add, Nat.add_zero, if_neg (by omega), if_neg (by omega),
    append_nil, append_nil, append_assoc,
    append_assoc]
  rfl

theorem sendAll_frames (st : HttpStream) (framed : st.framed = true)
    (sound : st.poisoned = false) (started : st.pendingHead = none)
    (some_ : ∀ chunk ∈ chunks, chunk ≠ []) (room : chunks.flatten.length + 20 < 2 ^ 63) :
    sendAll st chunks = some (st, chunks.flatMap frameBytes) := by
  induction chunks with
  | nil => rfl
  | cons chunk chunks ih =>
    rw [flatten_cons, length_append] at room
    have sent := streamSend_frame framed sound (some_ chunk mem_cons_self) (by
      rw [started, getD_none, length_nil]
      omega)
    have rest := ih (fun other mem => some_ other (mem_cons_of_mem chunk mem)) (by omega)
    have same : { st with pendingHead := none } = st := by rw [← started]
    rw [same, started, getD_none, nil_append] at sent
    rw [sendAll, sent, bind_some]
    dsimp only
    rw [rest, map_some, flatMap_cons]

theorem httpStreamResponse_text (final : 200 ≤ rb.status ∧ rb.status ≤ 599)
    (own : ∀ h ∈ rb.headers, autoGenerated h.1 = false) (bare : rb.body = none)
    (allowed : httpStatusAllowsABody rb.status = true) (some_ : ∀ chunk ∈ chunks, chunk ≠ [])
    (room : (responseHead rb .chunked).length + chunks.flatten.length + 20 < 2 ^ 63) :
    httpStreamResponse rb true chunks =
      some (responseHead rb .chunked ++ (chunks.flatMap frameBytes ++ httpChunkedTerminator)) := by
  have opened : respondStream rb true =
    some { framed := true, poisoned := false, pendingHead := some (responseHead rb .chunked) } := by
    rw [respondStream, bare, allowed, httpSerializeHead_text _ final own, responseHead_text,
      flatMap_closing]
    rfl
  rw [httpStreamResponse, opened, bind_some]
  cases chunks with
  | nil => rfl
  | cons chunk chunks =>
    rw [flatten_cons, length_append] at room
    have sent := @streamSend_frame
      { framed := true, poisoned := false, pendingHead := some (responseHead rb .chunked) } chunk rfl rfl
      (some_ chunk mem_cons_self) (by
        rw [getD_some]
        omega)
    have rest := sendAll_frames { framed := true, poisoned := false, pendingHead := none } rfl rfl rfl
      (fun other mem => some_ other (mem_cons_of_mem chunk mem)) (by omega)
    rw [sendAll, sent, bind_some]
    dsimp only
    rw [rest, map_some, bind_some, flatMap_cons]
    simp only [streamFinish, getD_some, getD_none, append_assoc, nil_append]
    rfl

theorem sentFields_plain (named : ∀ h ∈ rb.headers, httpIsToken h.1 = true ∧ autoGenerated h.1 = false)
    (values : ∀ h ∈ rb.headers, h.2.all httpResponseValueByte = true) :
    ∀ field ∈ sentFields rb, PlainField field := by
  intro field mem
  rcases mem_append.mp mem with own | closing
  · have generated := (named field own).2
    rw [autoGenerated, Bool.or_eq_false_iff, Bool.or_eq_false_iff] at generated
    exact ⟨⟨(named field own).1, values field own⟩, generated.1.1, generated.1.2⟩
  · rw [mem_singleton.mp closing]
    exact ⟨⟨by decide, by decide⟩, by decide, by decide⟩

theorem wholeFraming_fits (rb : ResponseBuilder) (final : 200 ≤ rb.status ∧ rb.status ≤ 599) :
    BodyFraming.fits (wholeFraming rb) rb.status.toNat := by
  intro framed empty
  apply framed
  rw [wholeFraming, if_neg]
  intro allowed
  exact (httpStatusAllowsABody_iff final).mp allowed (Or.inl empty)

/-- A response of a final status is decoded to what was sent, whole and streamed, as
long as it stays within what the decoder accepts: the number of fields, the size of the
head and of the body, and the bytes spent on chunk framing. -/
theorem response_decoded (rb : ResponseBuilder) (final : 200 ≤ rb.status ∧ rb.status ≤ 599)
    (named : ∀ h ∈ rb.headers, httpIsToken h.1 = true ∧ autoGenerated h.1 = false)
    (values : ∀ h ∈ rb.headers, h.2.all httpResponseValueByte = true) :
    ((httpStatusAllowsABody rb.status = false → rb.body = none) →
      (rb.body.getD []).length ≤ httpMaxBody →
      (responseFields rb (wholeFraming rb)).length ≤ httpMaxHeaders →
      (responseHead rb (wholeFraming rb)).length ≤ httpMaxHeaderBlock →
        ∃ response,
          httpSerializeResponse rb = some (responseHead rb (wholeFraming rb) ++ rb.body.getD []) ∧
          httpParseCore (responseHead rb (wholeFraming rb) ++ rb.body.getD []) = .ok response ∧
          Received response rb (wholeFraming rb) (rb.body.getD [])) ∧
    (∀ chunks : List Bytes, (∀ chunk ∈ chunks, chunk ≠ []) → rb.body = none →
      httpStatusAllowsABody rb.status = true →
      chunks.flatten.length ≤ httpMaxBody → framingCost chunks + 3 ≤ httpMaxChunkFraming →
      (responseFields rb .chunked).length ≤ httpMaxHeaders →
      (responseHead rb .chunked).length ≤ httpMaxHeaderBlock →
        ∃ response,
          httpStreamResponse rb true chunks =
            some (responseHead rb .chunked ++ (chunks.flatMap frameBytes ++ httpChunkedTerminator)) ∧
          httpParseCore (responseHead rb .chunked ++
            (chunks.flatMap frameBytes ++ httpChunkedTerminator)) = .ok response ∧
          Received response rb .chunked chunks.flatten) := by
  have plain := sentFields_plain named values
  have own : ∀ h ∈ rb.headers, autoGenerated h.1 = false := fun h mem => (named h mem).2
  constructor
  · intro empty cap few small
    rw [responseFields, length_map] at few
    rcases parse_whole ⟨final, plain, few, small, wholeFraming_fits rb final⟩ empty cap with
      ⟨response, parsed, received⟩
    exact ⟨response, httpSerializeResponse_text final own empty, parsed, received⟩
  · intro chunks some_ bare allowed cap budget few small
    rw [responseFields, length_map] at few
    have fits : BodyFraming.fits .chunked rb.status.toNat := fun _ empty =>
      (httpStatusAllowsABody_iff final).mp allowed (Or.inl empty)
    rcases parse_streamed ⟨final, plain, few, small, fits⟩ allowed some_ cap budget with
      ⟨response, parsed, received⟩
    have room : (responseHead rb .chunked).length + chunks.flatten.length + 20 < 2 ^ 63 := by
      rw [httpMaxBody] at cap
      rw [httpMaxHeaderBlock] at small
      omega
    exact ⟨response, httpStreamResponse_text final own bare allowed some_ room, parsed, received⟩

/-- A builder with one field, sent whole with a body and in two chunks. -/
def greeting (body : Option Bytes) : ResponseBuilder :=
  { status := 200, headers := [(ascii "X-Tag", ascii " v ")], body }

theorem response_decoded_greeting :
    (∃ response, httpSerializeResponse (greeting (some (ascii "hi"))) = some
        (responseHead (greeting (some (ascii "hi"))) (.length 2) ++ ascii "hi") ∧
      httpParseCore (responseHead (greeting (some (ascii "hi"))) (.length 2) ++ ascii "hi") =
        .ok response ∧
      Received response (greeting (some (ascii "hi"))) (.length 2) (ascii "hi")) ∧
    ∃ response, httpStreamResponse (greeting none) true [ascii "a", ascii "bc"] = some
        (responseHead (greeting none) .chunked ++
          ([ascii "a", ascii "bc"].flatMap frameBytes ++ httpChunkedTerminator)) ∧
      httpParseCore (responseHead (greeting none) .chunked ++
        ([ascii "a", ascii "bc"].flatMap frameBytes ++ httpChunkedTerminator)) = .ok response ∧
      Received response (greeting none) .chunked (ascii "abc") :=
  ⟨(response_decoded (greeting (some (ascii "hi"))) (by decide) (by decide) (by decide)).1
      (by decide) (by decide) (by decide) (by decide),
    (response_decoded (greeting none) (by decide) (by decide) (by decide)).2
      [ascii "a", ascii "bc"] (by decide) rfl rfl (by decide) (by decide) (by decide) (by decide)⟩

/-! Chunks without bound: the framing budget ends a stream of one-byte chunks. -/

namespace HttpResponseDecoder
variable {d u : HttpResponseDecoder}

theorem feed_rejects (valid : Valid d) (fed : d.feed first = .ok (n, u)) (failed : u.feed second = .error e) :
    d.feed (first ++ second) = .error e := by
  rw [feed, feed_append machine_local d _ _ valid, show machine.feed d first = _ from fed, andThen,
    show machine.feed u second = .error e from failed]

variable {framing : Nat}

theorem feed_cr_rejects (full : framing + 1 = httpMaxChunkFraming) :
    (d.received body framing (.chunkDataCrLf 0)).feed (Http.cr :: rest) = .error .invalid := by
  have valid : Valid (d.received body framing (.chunkDataCrLf 0)) := received_valid (by simp) (by simp)
  have stepped : (d.received body framing (.chunkDataCrLf 0)).feedStep (Http.cr :: rest) =
    .error .invalid := by
    rw [feedStep_chunkDataCrLf rfl, crLfByte_cr, if_pos full, ite_self]
    rfl
  rw [feed, feed_step machine_local _ _ valid (cons_ne_nil _ _) (received_running (by simp)),
    show machine.step (d.received body framing (.chunkDataCrLf 0)) (Http.cr :: rest) =
      .error .invalid from stepped]
  rfl

theorem Ready.frame_rejects {head : HttpHead} (ready : Ready d head)
    (b : UInt8) (rest : Bytes) (room : (body ++ [b]).length ≤ httpMaxBody)
    (full : framing + 4 = httpMaxChunkFraming) :
    (d.received body framing .chunkSize).feed (frameBytes [b] ++ rest) = .error .invalid := by
  have line : httpChunkSizeLine [b].length = [49, Http.cr, lf] := by
    rw [length_singleton]
    decide
  have size := @Ready.feed_sizeLine d head body framing ready 1 (by
    rw [length_append] at room
    exact room) (by
      rw [show (httpChunkSizeLine 1).length = 3 by decide]
      omega) (by
        rw [show (httpChunkSizeLine 1).length = 3 by decide]
        omega)
  have data : (d.received body (framing + 3) (.chunkData 1)).feed [b] =
    .ok (1, d.received (body ++ [b]) (framing + 3) (.chunkDataCrLf 0)) :=
    ready.feed_data [b] (cons_ne_nil _ _) room
  have ended : (d.received (body ++ [b]) (framing + 3) (.chunkDataCrLf 0)).feed (Http.cr :: lf :: rest) =
    .error .invalid := feed_cr_rejects full
  have between : Valid (d.received body (framing + 3) (.chunkData 1)) := received_valid (by simp) (by simp)
  have parts : frameBytes [b] ++ rest = [49, Http.cr, lf] ++ ([b] ++ (Http.cr :: lf :: rest)) := by
    rw [frameBytes, line, append_assoc, append_assoc]
    rfl
  rw [parts]
  exact feed_rejects (received_valid (by simp) (by simp)) size (feed_rejects between data ended)

end HttpResponseDecoder

theorem framingCost_ones (n : Nat) : framingCost (List.replicate n [120]) = n * 5 := by
  rw [framingCost, map_replicate, sum_replicate_nat]
  rfl

theorem exists_ones : ∃ ones : List Bytes, (∀ chunk ∈ ones, chunk ≠ []) ∧
    framingCost ones + 4 = httpMaxChunkFraming ∧ ones.flatten.length = 52428 := by
  obtain ⟨n, count⟩ : ∃ n, n = 52428 := ⟨_, rfl⟩
  refine ⟨List.replicate n [120], ?_, ?_, ?_⟩
  · intro chunk mem
    rw [eq_of_mem_replicate mem]
    exact cons_ne_nil _ _
  · rw [framingCost_ones, httpMaxChunkFraming]
    omega
  · rw [flatten_replicate_singleton, length_replicate, count]

/-- Not every sequence of chunks comes back: with 52429 one-byte chunks the decoder's
budget for chunk framing is spent. -/
theorem chunks_past_framing :
    ∃ chunks : List Bytes, (∀ chunk ∈ chunks, chunk ≠ []) ∧ chunks.flatten.length = 52429 ∧
      ∃ wire, httpStreamResponse (greeting none) true chunks = some wire ∧
        httpParseCore wire = .error .invalid := by
  rcases exists_ones with ⟨ones, some_, cost, size⟩
  have all : ∀ chunk ∈ ones ++ [[120]], chunk ≠ [] := by
    intro chunk mem
    rcases mem_append.mp mem with before | last
    · exact some_ chunk before
    · rw [mem_singleton.mp last]
      exact cons_ne_nil _ _
  have total : (ones ++ [[120]]).flatten.length = 52429 := by
    rw [flatten_append, length_append, size]
    rfl
  have small : (responseHead (greeting none) .chunked).length ≤ 100 := by decide
  have admissible : Admissible (greeting none) .chunked :=
    ⟨by decide, sentFields_plain (by decide) (by decide), by decide,
      Nat.le_trans small (by decide), fun _ => by decide⟩
  have ready := ready_response admissible
  have fed := feed_responseHead admissible (selectBody_chunked (by decide))
  have frames := ready.feed_frames [] 0 some_ (by
    rw [nil_append, size]
    decide) (by omega)
  rw [nil_append, Nat.zero_add] at frames
  have last := ready.frame_rejects 120 httpChunkedTerminator (by
    rw [length_append, size]
    decide) cost
  have failed := feed_rejects (newWithLimit_valid false none) fed
    (feed_rejects (received_valid nofun nofun) frames last)
  refine ⟨ones ++ [[120]], all, total, _, httpStreamResponse_text (by decide) (by decide) rfl rfl all (by
    omega), ?_⟩
  rw [httpParseCore, flatMap_append, flatMap_singleton, append_assoc,
    show (new false).feed _ = _ from failed]
  rfl

end Align.Http
