import Align.HttpResponseWire

/-! What the decoder makes of a serialized response. Field by field the head is
read back as it was written, values without their surrounding blanks; the framing
field at its end then selects the body's reading, by length or by chunks. -/
namespace Align.Http
open Segments Feeding Numerals List

def fieldLine (field : Bytes × Bytes) : Bytes := field.1 ++ colon :: blank :: field.2

theorem fieldBytes_line (field : Bytes × Bytes) : fieldBytes field = fieldLine field ++ [cr, lf] := by
  rw [fieldBytes, fieldLine, append_assoc, append_assoc, append_assoc, cons_append]
  rfl

/-- A field the response grammar admits. -/
structure Sendable (field : Bytes × Bytes) : Prop where
  token : httpIsToken field.1 = true
  value : field.2.all httpResponseValueByte = true

/-- A field without a say in the framing. -/
structure PlainField (field : Bytes × Bytes) : Prop extends Sendable field where
  notLength : eqIgnoreAsciiCase field.1 (ascii "content-length") = false
  notCoding : eqIgnoreAsciiCase field.1 (ascii "transfer-encoding") = false

theorem responseValueByte_inner (inner : httpResponseValueByte b = true) : b ≠ lf := by
  intro same
  subst same
  exact absurd inner (by decide)

theorem Sendable.inner (sendable : Sendable field) : lf ∉ fieldLine field := by
  have name := (httpIsToken_iff).mp sendable.token
  have value := all_eq_true.mp sendable.value
  rw [fieldLine, mem_append, mem_cons, mem_cons, not_or, not_or, not_or]
  refine ⟨fun inside => ?_, by decide, by decide, fun inside => ?_⟩
  · exact absurd (name.2 lf inside) (by decide)
  · exact responseValueByte_inner (value lf inside) rfl

theorem Sendable.nonblank (_ : Sendable field) : fieldLine field ≠ [] :=
  append_ne_nil_of_right_ne_nil _ (cons_ne_nil _ _)

theorem httpValidateHeaderLine_at (sendable : Sendable field) :
    httpValidateHeaderLine (fieldLine field) = some field.1.length := by
  rcases (httpIsToken_iff).mp sendable.token with ⟨some_, name⟩
  have absent : colon ∉ field.1 := fun inside => absurd (name colon inside) (by decide)
  have positive : (field.1.length == 0) = false := by
    rw [beq_eq_false_iff_ne]
    exact fun empty => some_ (eq_nil_of_length_eq_zero empty)
  have value : (blank :: field.2).all httpResponseValueByte = true := by
    rw [all_cons, sendable.value]
    rfl
  rw [httpValidateHeaderLine, fieldLine, memchr_at absent]
  dsimp only
  rw [take_left, drop_past, positive, sendable.token, value]
  rfl

/-- The span of a field that stands at `start`. -/
def fieldSpan (src : Bytes) (start : Nat) (field : Bytes × Bytes) : HttpHeaderSpan :=
  let value := httpTrimOws src (start + field.1.length + 1)
    ((fieldLine field).length - field.1.length - 1)
  { nameStart := start, nameLen := field.1.length, valueStart := value.1, valueLen := value.2 }

theorem slice_at (here : src.drop start = part ++ rest) :
    slice src start (start + part.length) = part := by
  rw [slice, here, Nat.add_sub_cancel_left, take_left]

section Fields
variable {src rest : Bytes} {start : Nat} {field : Bytes × Bytes}

theorem fieldLine_length : (fieldLine field).length = field.1.length + 2 + field.2.length := by
  rw [fieldLine, length_append, length_cons, length_cons]
  omega

variable (here : src.drop start = fieldLine field ++ rest)
include here

theorem name_at :
    src.drop start = field.1 ++ (colon :: blank :: field.2 ++ rest) := by
  rw [here, fieldLine, append_assoc]

theorem fieldSpan_text :
    spanText src (fieldSpan src start field) = (field.1, trimmed field.2) := by
  have length := congrArg List.length here
  rw [length_drop, length_append, fieldLine_length] at length
  have value : src.drop (start + field.1.length + 1) = (blank :: field.2) ++ rest := by
    rw [Nat.add_assoc, ← drop_drop, name_at here, cons_append, drop_past]
  have width : (fieldLine field).length - field.1.length - 1 = (blank :: field.2).length := by
    rw [fieldLine_length, length_cons]
    omega
  have trim := (httpTrimOws_eq src (start + field.1.length + 1) (blank :: field.2).length (by
    rw [length_cons]
    omega)).2
  rw [slice_at value, trimmed_blank] at trim
  rw [spanText, fieldSpan]
  rw [width, slice_at (name_at here), trim]

theorem fieldSpan_inside :
    (fieldSpan src start field).valueStart + (fieldSpan src start field).valueLen ≤ src.length := by
  have length := congrArg List.length here
  rw [length_drop, length_append, fieldLine_length] at length
  have inside : start + field.1.length + 1 + ((fieldLine field).length - field.1.length - 1) ≤
    src.length := by
    rw [fieldLine_length]
    omega
  exact Nat.le_trans (httpTrimOws_eq _ _ _ inside).1 inside

theorem responseHeaderLine_plain (plain : PlainField field) (framing : Framing) :
    responseHeaderLine src start (fieldLine field).length framing =
      .ok (fieldSpan src start field, framing) := by
  rw [responseHeaderLine, slice_at here, httpValidateHeaderLine_at plain.toSendable]
  dsimp only
  rw [slice_at (name_at here), plain.notLength, plain.notCoding, if_neg Bool.false_ne_true,
    if_neg Bool.false_ne_true]
  rfl

theorem value_at :
    slice src (fieldSpan src start field).valueStart
      ((fieldSpan src start field).valueStart + (fieldSpan src start field).valueLen) = trimmed field.2 :=
  congrArg Prod.snd (fieldSpan_text here)

theorem responseHeaderLine_length (sendable : Sendable field)
    (length : eqIgnoreAsciiCase field.1 (ascii "content-length") = true)
    (some_ : trimmed field.2 ≠ []) (digits : (trimmed field.2).all isDigit = true)
    (first : framing.contentLength = none) :
    responseHeaderLine src start (fieldLine field).length framing =
      .ok (fieldSpan src start field,
        { framing with
          contentLength := some (httpNormalizeDecimal src (fieldSpan src start field).valueStart
            (fieldSpan src start field).valueLen) }) := by
  have value := value_at here
  rw [fieldSpan] at value
  rw [responseHeaderLine, slice_at here, httpValidateHeaderLine_at sendable]
  dsimp only
  rw [slice_at (name_at here), length, if_pos rfl, value, isEmpty_eq_false_iff.mpr some_, digits,
    Bool.not_true, Bool.or_false, if_neg Bool.false_ne_true, first, Option.any_none,
    if_neg Bool.false_ne_true]
  rfl

theorem responseHeaderLine_chunked (sendable : Sendable field)
    (notLength : eqIgnoreAsciiCase field.1 (ascii "content-length") = false)
    (coding : eqIgnoreAsciiCase field.1 (ascii "transfer-encoding") = true)
    (chunked : trimmed field.2 = ascii "chunked") (first : framing.transferCodings = 0) :
    responseHeaderLine src start (fieldLine field).length framing =
      .ok (fieldSpan src start field, { framing with transferCodings := 1 }) := by
  have value := value_at here
  rw [fieldSpan] at value
  have count : httpParseTransferEncoding (ascii "chunked") 0 = .ok 1 := by decide
  rw [responseHeaderLine, slice_at here, httpValidateHeaderLine_at sendable]
  dsimp only
  rw [slice_at (name_at here), notLength, if_neg Bool.false_ne_true, coding, if_pos rfl, value, chunked,
    first, count]
  rfl

end Fields

/-- How a head says where its body ends. -/
inductive BodyFraming where
  | bodiless
  | length (n : Nat)
  | chunked
deriving DecidableEq, Repr

def BodyFraming.fields : BodyFraming → List (Bytes × Bytes)
  | .bodiless => []
  | .length n => [(ascii "Content-Length", httpPushDecimal n)]
  | .chunked => [(ascii "Transfer-Encoding", ascii "chunked")]

def unframed : Framing := { contentLength := none, transferCodings := 0 }

/-- The framing gathered from a head whose closing field stands at `pos`. -/
def BodyFraming.gathered (src : Bytes) (pos : Nat) : BodyFraming → Framing
  | .bodiless => unframed
  | .length n =>
      let span := fieldSpan src pos (ascii "Content-Length", httpPushDecimal n)
      { contentLength := some (httpNormalizeDecimal src span.valueStart span.valueLen)
        transferCodings := 0 }
  | .chunked => { contentLength := none, transferCodings := 1 }

theorem isDigit_valueByte (digit : isDigit b = true) : httpResponseValueByte b = true := by
  rw [isDigit, Bool.and_eq_true, decide_eq_true_iff, decide_eq_true_iff] at digit
  have low : 0x21 ≤ b := UInt8.le_trans (by decide) digit.1
  have high : b ≤ 0x7e := UInt8.le_trans digit.2 (by decide)
  rw [httpResponseValueByte, decide_eq_true low, decide_eq_true high, Bool.and_true, Bool.or_true,
    Bool.true_or]

theorem BodyFraming.sendable (kind : BodyFraming) : ∀ field ∈ kind.fields, Sendable field := by
  intro field mem
  cases kind with
  | bodiless => cases mem
  | length n =>
    rw [mem_singleton.mp mem]
    refine ⟨(by decide : httpIsToken (ascii "Content-Length") = true), ?_⟩
    apply all_eq_true.mpr
    intro b inside
    exact isDigit_valueByte (httpPushDecimal_digits b inside)
  | chunked =>
    rw [mem_singleton.mp mem]
    exact ⟨by decide, by decide⟩

theorem BodyFraming.fields_cases (kind : BodyFraming) : kind = .bodiless ∨ ∃ field, kind.fields = [field] := by
  cases kind with
  | bodiless => exact Or.inl rfl
  | length n => exact Or.inr ⟨_, rfl⟩
  | chunked => exact Or.inr ⟨_, rfl⟩

variable {src rest : Bytes} {start : Nat} {field : Bytes × Bytes} {kind : BodyFraming}

theorem BodyFraming.closing (closes : kind.fields = [field]) (here : src.drop start = fieldLine field ++ rest) :
    responseHeaderLine src start (fieldLine field).length unframed =
      .ok (fieldSpan src start field, kind.gathered src start) := by
  have sendable := kind.sendable _ (by rw [closes]; exact mem_singleton_self field)
  cases kind with
  | bodiless => cases closes
  | length n =>
    cases closes
    have digits : (httpPushDecimal n).all isDigit = true :=
      all_eq_true.mpr (httpPushDecimal_digits)
    apply responseHeaderLine_length here sendable
      (by decide : eqIgnoreAsciiCase (ascii "Content-Length") (ascii "content-length") = true)
    · rw [trimmed_httpPushDecimal]
      exact httpPushDecimal_ne_nil n
    · rw [trimmed_httpPushDecimal]
      exact digits
    · rfl
  | chunked =>
    cases closes
    exact responseHeaderLine_chunked here sendable (by decide) (by decide) (by decide) rfl

def trimmedField (field : Bytes × Bytes) : Bytes × Bytes := (field.1, trimmed field.2)

/-- The spans of fields that stand one after the other. -/
def spansFrom (src : Bytes) : Nat → List (Bytes × Bytes) → List HttpHeaderSpan
  | _, [] => []
  | pos, field :: fields =>
      fieldSpan src pos field :: spansFrom src (pos + (fieldLine field).length + 2) fields

theorem spansFrom_length (src : Bytes) (pos : Nat) (fields : List (Bytes × Bytes)) :
    (spansFrom src pos fields).length = fields.length := by
  induction fields generalizing pos with
  | nil => rfl
  | cons field fields ih => rw [spansFrom, length_cons, length_cons, ih]

theorem spansFrom_text (pos : Nat)
    (here : src.drop pos = joinLines (fields.map fieldLine) ++ rest) :
    (spansFrom src pos fields).map (spanText src) = fields.map trimmedField := by
  induction fields generalizing pos with
  | nil => rfl
  | cons field fields ih =>
    rw [map_cons, joinLines_cons] at here
    rw [spansFrom, map_cons, map_cons, fieldSpan_text here, ih _ (drop_line here)]
    rfl

theorem joinLines_length_cons (line : Bytes) (lines : List Bytes) :
    (joinLines (line :: lines)).length = line.length + 2 + (joinLines lines).length := by
  have cut := congrArg List.length (joinLines_cons line lines [])
  rw [append_nil, append_nil, length_append, length_cons, length_cons] at cut
  omega

theorem parseHeadLoop_plain (pos : Nat) (headers : List HttpHeaderSpan) (framing : Framing)
    (here : src.drop pos = joinLines (fields.map fieldLine) ++ rest)
    (plain : ∀ field ∈ fields, PlainField field) (room : headers.length + fields.length ≤ httpMaxHeaders) :
    parseHeadLoop src (fuel + fields.length) pos headers framing =
      parseHeadLoop src fuel (pos + (joinLines (fields.map fieldLine)).length)
        (headers ++ spansFrom src pos fields) framing := by
  induction fields generalizing pos headers with
  | nil =>
    rw [spansFrom, append_nil]
    rfl
  | cons field fields ih =>
    have now := plain field mem_cons_self
    rw [map_cons, joinLines_cons] at here
    rw [length_cons] at room
    have some_ : ¬ (fieldLine field).length = 0 := fun empty =>
      now.toSendable.nonblank (eq_nil_of_length_eq_zero empty)
    rw [length_cons, ← Nat.add_assoc, parseHeadLoop, httpNextLine_at here now.toSendable.inner]
    dsimp only
    rw [if_neg some_, if_neg (by omega), responseHeaderLine_plain here now]
    dsimp only
    rw [ih _ _ (drop_line here) (forall_mem_cons.mp plain).2 (by
      rw [length_append, length_singleton]
      omega), spansFrom, append_assoc, singleton_append, map_cons, joinLines_length_cons]
    congr 1
    omega

theorem parseHeadLoop_blank
    (here : src.drop pos = [cr, lf]) :
    parseHeadLoop src (fuel + 1) pos headers framing = .ok (headers, framing, src.length) := by
  have length := congrArg List.length here
  rw [length_drop] at length
  have two : src.length - pos = 2 := length
  have blank_ : httpNextLine src pos = .ok (some (pos, 0, pos + 2)) :=
    @httpNextLine_at src [] [] pos here not_mem_nil
  rw [parseHeadLoop, blank_]
  dsimp only
  rw [if_pos rfl]
  congr 3
  omega

theorem parseHeadLoop_closing
    (here : src.drop pos = joinLines (kind.fields.map fieldLine) ++ [cr, lf])
    (room : headers.length + kind.fields.length ≤ httpMaxHeaders) :
    parseHeadLoop src (fuel + 2) pos headers unframed =
      .ok (headers ++ spansFrom src pos kind.fields, kind.gathered src pos, src.length) := by
  rcases kind.fields_cases with rfl | ⟨field, closes⟩
  · rw [parseHeadLoop_blank here]
    rw [show spansFrom src pos BodyFraming.bodiless.fields = [] from rfl, append_nil]
    rfl
  have sendable := kind.sendable _ (by rw [closes]; exact mem_singleton_self field)
  have some_ : ¬ (fieldLine field).length = 0 := fun empty =>
    sendable.nonblank (eq_nil_of_length_eq_zero empty)
  rw [closes, map_singleton, joinLines_cons] at here
  rw [closes, length_singleton] at room
  rw [parseHeadLoop, httpNextLine_at here sendable.inner]
  dsimp only
  rw [if_neg some_, if_neg (by omega), kind.closing closes here]
  dsimp only
  rw [parseHeadLoop_blank (drop_line here), closes]
  rfl

theorem drop_joinLines (here : src.drop pos = joinLines (first ++ second) ++ rest) :
    src.drop pos = joinLines first ++ (joinLines second ++ rest) ∧
      src.drop (pos + (joinLines first).length) = joinLines second ++ rest := by
  have cut : src.drop pos = joinLines first ++ (joinLines second ++ rest) := by
    rw [here, joinLines, flatMap_append, append_assoc]
    rfl
  refine ⟨cut, ?_⟩
  rw [← drop_drop, cut, drop_left]

structure StatusLine (line : Bytes) (code : Nat) : Prop where
  valid : httpValidateStatusLine line = true
  version : line.take 8 = ascii "HTTP/1.1"
  code : statusCode line = code
  inner : lf ∉ line

/-- The head with these fields, its blank line included. -/
def headText (line : Bytes) (fields : List (Bytes × Bytes)) : Bytes :=
  joinLines (line :: fields.map fieldLine) ++ [cr, lf]

def headOf (line : Bytes) (code : Nat) (plains : List (Bytes × Bytes)) (kind : BodyFraming) : HttpHead :=
  let src := headText line (plains ++ kind.fields)
  { status := code, headers := spansFrom src (line.length + 2) (plains ++ kind.fields)
    bodyStart := src.length
    contentLength :=
      (kind.gathered src (line.length + 2 + (joinLines (plains.map fieldLine)).length)).contentLength
    chunked := decide (kind = .chunked), http11 := true }

theorem spansFrom_append (src : Bytes) (pos : Nat) (first second : List (Bytes × Bytes)) :
    spansFrom src pos (first ++ second) =
      spansFrom src pos first ++ spansFrom src (pos + (joinLines (first.map fieldLine)).length) second := by
  induction first generalizing pos with
  | nil => rfl
  | cons field fields ih =>
    rw [cons_append, spansFrom, spansFrom, ih, map_cons, joinLines_length_cons, cons_append]
    congr 3
    omega

theorem length_le_joinLines (lines : List Bytes) : lines.length ≤ (joinLines lines).length := by
  induction lines with
  | nil => exact Nat.le_refl 0
  | cons line lines ih =>
    rw [joinLines_length_cons, length_cons]
    omega

theorem httpParseHead_reads (status : StatusLine line code)
     (plain : ∀ field ∈ plains, PlainField field)
    (room : (plains ++ kind.fields).length ≤ httpMaxHeaders) :
    httpParseHead (headText line (plains ++ kind.fields)) = .ok (headOf line code plains kind) := by
  obtain ⟨src, named⟩ : ∃ src, src = headText line (plains ++ kind.fields) := ⟨_, rfl⟩
  have here : src.drop 0 =
    line ++ cr :: lf :: (joinLines ((plains ++ kind.fields).map fieldLine) ++ [cr, lf]) := by
    rw [drop_zero, named, headText, joinLines_cons]
  have first : src.drop (line.length + 2) =
    joinLines (plains.map fieldLine ++ kind.fields.map fieldLine) ++ [cr, lf] := by
    have after := drop_line here
    rw [Nat.zero_add, map_append] at after
    exact after
  rcases drop_joinLines first with ⟨before, closing⟩
  rw [length_append] at room
  -- Enough turns: every line of the text takes one.
  obtain ⟨fuel, enough⟩ : ∃ fuel, src.length + 1 = fuel + 2 + plains.length := by
    have length := congrArg List.length before
    have lines := length_le_joinLines (plains.map fieldLine)
    rw [length_drop, length_append, length_append] at length
    rw [length_map] at lines
    have two : [cr, lf].length = 2 := rfl
    exact ⟨src.length - 1 - plains.length, by omega⟩
  rw [← named, httpParseHead, httpNextLine_at here status.inner]
  dsimp only
  rw [slice_at here, status.valid, Bool.not_true, if_neg Bool.false_ne_true, Nat.zero_add, enough,
    show ({ contentLength := none, transferCodings := 0 } : Framing) = unframed from rfl,
    parseHeadLoop_plain _ [] unframed before plain (by
      rw [length_nil]
      omega), nil_append,
    parseHeadLoop_closing closing (by
      rw [spansFrom_length]
      omega)]
  have version : (line.take 8 == ascii "HTTP/1.1") = true := beq_iff_eq.mpr status.version
  rw [version, status.code, headOf, ← named, spansFrom_append]
  cases kind with
  | bodiless => rfl
  | length n => rfl
  | chunked => rfl

namespace HttpResponseDecoder

/-- The decoder inside a head: the text so far, its size, and what was read of it. -/
def inHeadSized (text : Bytes) (size count code : Nat) (framing : Framing) : HttpResponseDecoder :=
  { new false with
    acc := { (new false).acc with bytes := text }, cumulativeHeadBytes := size
    headLineStart := size, headHeaderCount := count, headStatus := some code
    headHttp11 := true, headFraming := framing }

/-- The decoder after `text`, whole lines of a head. -/
def inHead (text : Bytes) (count code : Nat) (framing : Framing) : HttpResponseDecoder :=
  inHeadSized text text.length count code framing

theorem inHead_valid (count code : Nat) :
    Valid (inHead text count code framing) :=
  ⟨rfl, fun _ => rfl, nofun, nofun, fun _ => Nat.le_refl _⟩

section Lines
variable {d u : HttpResponseDecoder}

theorem feed_next (valid : Valid d) (fed : d.feed first = .ok (n, u)) (more : u.feed second = .ok (k, v)) :
    d.feed (first ++ second) = .ok (n + k, v) := by
  rw [feed, feed_append machine_local d _ _ valid, show machine.feed d first = _ from fed]
  exact andThen_ok u _ k v more

theorem feed_line (line : Bytes) (valid : Valid d) (here : d.state = .head) (inner : lf ∉ line)
    (room : d.cumulativeHeadBytes + (line.length + 2) ≤ httpMaxHeaderBlock)
    (space : d.acc.bytes.length + (line.length + 2) ≤ d.acc.capacity) (finished : finishHeadLine { d with
      acc := { d.acc with bytes := d.acc.bytes ++ (line ++ [Http.cr, lf]) }
      cumulativeHeadBytes := d.cumulativeHeadBytes + (line.length + 2) } = .ok u) :
    d.feed (line ++ [Http.cr, lf]) = .ok (line.length + 2, u) := by
  have length : (line ++ [Http.cr, lf]).length = line.length + 2 := length_append
  have some_ : line ++ [Http.cr, lf] ≠ [] :=
    append_ne_nil_of_right_ne_nil _ (cons_ne_nil _ _)
  have running : d.complete = false := beq_false_of_ne (by rw [here]; decide)
  have hit : memchr lf (line ++ [Http.cr, lf]) = some (line.length + 1) := by
    have split : line ++ [Http.cr, lf] = (line ++ [Http.cr]) ++ lf :: [] := by
      rw [append_assoc]
      rfl
    have absent : lf ∉ line ++ [Http.cr] := by
      rw [mem_append, not_or, mem_singleton]
      exact ⟨inner, by decide⟩
    rw [split, memchr_at absent [], length_append, length_singleton]
  have stepped : d.feedStep (line ++ [Http.cr, lf]) = .ok ((line ++ [Http.cr, lf]).length, u) := by
    have whole : (line ++ [Http.cr, lf]).take (line.length + 1 + 1) = line ++ [Http.cr, lf] :=
      take_of_length_le (by omega)
    rw [feedStep_head some_ here, headStep_some hit, whole, appendHead, length, if_neg (by omega),
      HttpResponseAccumulator.extendFromSlice, length, if_pos space]
    dsimp only [Except.map, Except.bind]
    rw [finished]
  rw [feed_turn valid some_ running stepped, length]

theorem finishHeadLine_at (text line : Bytes) (bytes : d.acc.bytes = text ++ (line ++ [Http.cr, lf]))
    (start : d.headLineStart = text.length) :
    d.finishHeadLine =
      if text.length = 0 then
        if !httpValidateStatusLine line then .error .invalid
        else .ok
          { d with
            headStatus := some (statusCode line), headHttp11 := line.take 8 == ascii "HTTP/1.1"
            headLineStart := text.length + line.length + 2 }
      else if line.isEmpty then (httpParseHead d.acc.bytes).bind d.selectHead
      else if d.headHeaderCount = httpMaxHeaders then .error .invalid
      else
        (d.validateIncrementalHeader text.length (text.length + line.length)).map fun d =>
          { d with
            headHeaderCount := d.headHeaderCount + 1, headLineStart := text.length + line.length + 2 } := by
  have length : (text ++ (line ++ [Http.cr, lf])).length = text.length + line.length + 2 := by
    rw [length_append, length_append]
    exact (Nat.add_assoc _ _ _).symm
  have ends : (text ++ (line ++ [Http.cr, lf]))[text.length + line.length]? = some Http.cr := by
    rw [getElem?_append_right (Nat.le_add_right _ _), Nat.add_sub_cancel_left,
      getElem?_append_right (Nat.le_refl _), Nat.sub_self]
    rfl
  have here : (text ++ (line ++ [Http.cr, lf])).drop text.length = line ++ [Http.cr, lf] := drop_left
  have long : ¬ (text.length + line.length + 2 < text.length + 2 ∨ some Http.cr ≠ some Http.cr) := by
    rw [not_or, Nat.not_lt]
    exact ⟨by omega, not_not.mpr rfl⟩
  rw [finishHeadLine, bytes, start]
  rw [length, Nat.add_sub_cancel, ends, slice_at here, if_neg long]

theorem feed_statusLine {line : Bytes} (status : StatusLine line code)
    (room : line.length + 2 ≤ httpMaxHeaderBlock) :
    (new false).feed (line ++ [Http.cr, lf]) =
      .ok (line.length + 2, inHead (line ++ [Http.cr, lf]) 0 code unframed) := by
  have room' : 0 + (line.length + 2) ≤ httpMaxHeaderBlock := by omega
  have space : 0 + (line.length + 2) ≤ httpMaxResponseLogical := by
    rw [httpMaxResponseLogical]
    omega
  apply feed_line _ (newWithLimit_valid _ none) rfl status.inner room' space
  have version : (line.take 8 == ascii "HTTP/1.1") = true := beq_iff_eq.mpr status.version
  have charged : (newWithLimit false none).cumulativeHeadBytes + (line.length + 2) = line.length + 2 :=
    Nat.zero_add _
  rw [finishHeadLine_at [] line rfl rfl, if_pos length_nil, status.valid, Bool.not_true,
    if_neg Bool.false_ne_true, status.code, version, length_nil, Nat.zero_add, charged]
  have length : (line ++ [Http.cr, lf]).length = line.length + 2 := length_append
  exact (congrArg (fun size => Except.ok (inHeadSized (line ++ [Http.cr, lf]) size 0 code unframed))
    length).symm

/-- Framing that a head with this status may have so far. -/
def framingAllowed (code : Nat) (framing : Framing) : Prop :=
  ¬ (1 < framing.transferCodings ∨
    (framing.transferCodings = 1 ∧ (true = false ∨ framing.contentLength.isSome)) ∨
    ((100 ≤ code ∧ code ≤ 199) ∧
      (framing.contentLength.isSome || framing.transferCodings != 0) = true) ∨
    (code = 204 ∧ (framing.contentLength.isSome || framing.transferCodings != 0) = true))

theorem feed_fieldLine {count code : Nat} {framing after : Framing}
    {field : Bytes × Bytes} {span : HttpHeaderSpan} (sendable : Sendable field) (started : text ≠ [])
    (few : count < httpMaxHeaders)
    (room : (text ++ (fieldLine field ++ [Http.cr, lf])).length ≤ httpMaxHeaderBlock)
    (read : responseHeaderLine (text ++ (fieldLine field ++ [Http.cr, lf])) text.length
      (fieldLine field).length framing = .ok (span, after)) (allowed : framingAllowed code after) :
    (inHead text count code framing).feed (fieldLine field ++ [Http.cr, lf]) =
      .ok ((fieldLine field).length + 2,
        inHead (text ++ (fieldLine field ++ [Http.cr, lf])) (count + 1) code after) := by
  have length : (text ++ (fieldLine field ++ [Http.cr, lf])).length =
    text.length + ((fieldLine field).length + 2) := by
    rw [length_append, length_append]
    rfl
  rw [length] at room
  have space : text.length + ((fieldLine field).length + 2) ≤ httpMaxResponseLogical := by
    rw [httpMaxResponseLogical]
    omega
  apply feed_line _ (inHead_valid _ _) rfl sendable.inner room space
  have later : ¬ text.length = 0 := fun empty => started (eq_nil_of_length_eq_zero empty)
  have some_ : ¬ (fieldLine field).isEmpty = true := fun empty =>
    sendable.nonblank (List.isEmpty_iff.mp empty)
  have bytes : (inHead text count code framing).acc.bytes = text := rfl
  rw [finishHeadLine_at text _ rfl rfl, if_neg later, if_neg some_]
  rw [show (inHead text count code framing).headHeaderCount = count from rfl, if_neg (by omega),
    validateIncrementalHeader, Nat.add_sub_cancel_left, bytes]
  rw [show (inHead text count code framing).headFraming = framing from rfl, read]
  dsimp only [Except.bind]
  rw [show (inHead text count code framing).headStatus = some code from rfl,
    show (inHead text count code framing).headHttp11 = true from rfl]
  dsimp only
  rw [if_neg allowed, Nat.add_assoc]
  exact (congrArg (fun size => Except.ok
    (inHeadSized (text ++ (fieldLine field ++ [Http.cr, lf])) size (count + 1) code after)) length).symm

theorem unframed_allowed (code : Nat) : framingAllowed code unframed := by
  rintro (many | ⟨one, _⟩ | ⟨_, has⟩ | ⟨_, has⟩)
  · exact absurd many (by decide)
  · exact absurd one (by decide)
  · exact absurd has (by decide)
  · exact absurd has (by decide)

theorem feed_plains (fields : List (Bytes × Bytes)) (text : Bytes) (count code : Nat)
    (plain : ∀ field ∈ fields, PlainField field) (started : text ≠ [])
    (few : count + fields.length ≤ httpMaxHeaders)
    (room : (text ++ joinLines (fields.map fieldLine)).length ≤ httpMaxHeaderBlock) :
    (inHead text count code unframed).feed (joinLines (fields.map fieldLine)) =
      .ok ((joinLines (fields.map fieldLine)).length,
        inHead (text ++ joinLines (fields.map fieldLine)) (count + fields.length) code unframed) := by
  induction fields generalizing text count with
  | nil =>
    rw [map_nil, show joinLines [] = [] from rfl, append_nil]
    exact feed_stop _ (Or.inl rfl)
  | cons field fields ih =>
    have now := plain field mem_cons_self
    have split : joinLines ((field :: fields).map fieldLine) =
      (fieldLine field ++ [Http.cr, lf]) ++ joinLines (fields.map fieldLine) := rfl
    rw [split] at room ⊢
    rw [length_cons] at few
    have first : (text ++ (fieldLine field ++ [Http.cr, lf])).length ≤ httpMaxHeaderBlock := by
      rw [← append_assoc, length_append] at room
      omega
    have here : (text ++ (fieldLine field ++ [Http.cr, lf])).drop text.length =
      fieldLine field ++ [Http.cr, lf] := drop_left
    have fed : (inHead text count code unframed).feed (fieldLine field ++ [Http.cr, lf]) = _ :=
      feed_fieldLine now.toSendable started (by omega) first
        (responseHeaderLine_plain here now _) (unframed_allowed _)
    have rest := ih (text ++ (fieldLine field ++ [Http.cr, lf])) (count + 1) (forall_mem_cons.mp plain).2
      (append_ne_nil_of_left_ne_nil started _) (by omega) (by
        rw [append_assoc]
        exact room)
    have size : ((fieldLine field ++ [Http.cr, lf]) ++ joinLines (fields.map fieldLine)).length =
      (fieldLine field).length + 2 + (joinLines (fields.map fieldLine)).length := by
      rw [length_append, length_append]
      rfl
    rw [feed_next (inHead_valid _ _) fed rest, size, append_assoc, length_cons,
      Nat.add_comm fields.length 1, ← Nat.add_assoc]

/-- Framing that the decoder accepts under a final status. -/
def BodyFraming.fits (kind : BodyFraming) (code : Nat) : Prop :=
  kind ≠ .bodiless → code ≠ 204

theorem gathered_allowed (src : Bytes) (code : Nat) (kind : BodyFraming) (final : 200 ≤ code)
    (fits : BodyFraming.fits kind code) : framingAllowed code (kind.gathered src pos) := by
  cases kind with
  | bodiless => exact unframed_allowed _
  | length n =>
    rintro (many | ⟨one, _⟩ | ⟨interim, _⟩ | ⟨empty, _⟩)
    · exact absurd many (by decide : ¬ 1 < 0)
    · exact absurd one (by decide : ¬ 0 = 1)
    · omega
    · exact fits nofun empty
  | chunked =>
    rintro (many | ⟨_, mixed⟩ | ⟨interim, _⟩ | ⟨empty, _⟩)
    · exact absurd many (by decide : ¬ 1 < 1)
    · rcases mixed with absurd_ | absurd_ <;> cases absurd_
    · omega
    · exact fits nofun empty

theorem feed_closing (kind : BodyFraming) (text : Bytes) (count code : Nat) (started : text ≠ [])
    (few : count + kind.fields.length ≤ httpMaxHeaders) (final : 200 ≤ code) (fits : BodyFraming.fits kind code)
    (room : (text ++ joinLines (kind.fields.map fieldLine)).length ≤ httpMaxHeaderBlock) :
    (inHead text count code unframed).feed (joinLines (kind.fields.map fieldLine)) =
      .ok ((joinLines (kind.fields.map fieldLine)).length,
        inHead (text ++ joinLines (kind.fields.map fieldLine)) (count + kind.fields.length) code
          (kind.gathered (text ++ joinLines (kind.fields.map fieldLine)) text.length)) := by
  rcases kind.fields_cases with rfl | ⟨field, closes⟩
  · rw [show joinLines (BodyFraming.bodiless.fields.map fieldLine) = [] from rfl, append_nil]
    exact feed_stop _ (Or.inl rfl)
  have single : joinLines (kind.fields.map fieldLine) = fieldLine field ++ [Http.cr, lf] := by
    rw [closes]
    exact append_nil _
  have sendable := kind.sendable _ (by rw [closes]; exact mem_singleton_self field)
  have here : (text ++ (fieldLine field ++ [Http.cr, lf])).drop text.length =
    fieldLine field ++ [Http.cr, lf] := drop_left
  rw [closes, length_singleton] at few
  rw [single] at room ⊢
  have fed : (inHead text count code unframed).feed (fieldLine field ++ [Http.cr, lf]) = _ :=
    feed_fieldLine sendable started (by omega) room (kind.closing closes here)
      (gathered_allowed _ _ _ final fits)
  have size : (fieldLine field ++ [Http.cr, lf]).length = (fieldLine field).length + 2 := length_append
  rw [fed, size, closes, length_singleton]

/-- The decoder with the whole head text, before its body is selected. -/
def atBlank (text : Bytes) (count code : Nat) (framing : Framing) : HttpResponseDecoder :=
  { inHead text count code framing with
    acc := { (new false).acc with bytes := text ++ [Http.cr, lf] }
    cumulativeHeadBytes := text.length + 2 }

theorem feed_blank {text : Bytes} {count code : Nat} {head : HttpHead}
    (started : text ≠ []) (room : text.length + 2 ≤ httpMaxHeaderBlock)
    (parsed : httpParseHead (text ++ [Http.cr, lf]) = .ok head)
    (selected : (atBlank text count code framing).selectHead head = .ok u) :
    (inHead text count code framing).feed [Http.cr, lf] = .ok (2, u) := by
  have space : text.length + (([] : Bytes).length + 2) ≤ httpMaxResponseLogical := by
    rw [httpMaxResponseLogical, length_nil]
    omega
  apply feed_line [] (inHead_valid _ _) rfl not_mem_nil room space
  have later : ¬ text.length = 0 := fun empty => started (eq_nil_of_length_eq_zero empty)
  rw [finishHeadLine_at text [] rfl rfl, if_neg later, isEmpty_nil, if_pos rfl]
  rw [nil_append, show (inHead text count code framing).acc.bytes = text from rfl, parsed]
  exact selected

/-- The decoder at the end of a serialized head. -/
def readHead (line : Bytes) (code : Nat) (plains : List (Bytes × Bytes)) (kind : BodyFraming) :
    HttpResponseDecoder :=
  let before := (line ++ [Http.cr, lf]) ++ joinLines (plains.map fieldLine)
  let text := before ++ joinLines (kind.fields.map fieldLine)
  atBlank text (0 + plains.length + kind.fields.length) code (kind.gathered text before.length)

theorem headText_split (line : Bytes) (plains : List (Bytes × Bytes)) (kind : BodyFraming) :
    headText line (plains ++ kind.fields) =
      (((line ++ [Http.cr, lf]) ++ joinLines (plains.map fieldLine)) ++
        joinLines (kind.fields.map fieldLine)) ++ [Http.cr, lf] := by
  rw [headText, map_append, joinLines, flatMap_cons, flatMap_append, ← append_assoc _]
  rfl

theorem feed_headText {line : Bytes} {code : Nat} (status : StatusLine line code)
    {plains : List (Bytes × Bytes)} (plain : ∀ field ∈ plains, PlainField field)
    (few : (plains ++ kind.fields).length ≤ httpMaxHeaders) (final : 200 ≤ code)
    (fits : BodyFraming.fits kind code)
    (room : (headText line (plains ++ kind.fields)).length ≤ httpMaxHeaderBlock)
    (selected : (readHead line code plains kind).selectHead (headOf line code plains kind) = .ok u) :
    (new false).feed (headText line (plains ++ kind.fields)) =
      .ok ((headText line (plains ++ kind.fields)).length, u) := by
  have parsed := httpParseHead_reads status plain few
  have started : line ++ [Http.cr, lf] ≠ [] :=
    append_ne_nil_of_right_ne_nil _ (cons_ne_nil _ _)
  rw [headText_split] at room parsed ⊢
  have sizes : ((((line ++ [Http.cr, lf]) ++ joinLines (plains.map fieldLine)) ++
    joinLines (kind.fields.map fieldLine)) ++ [Http.cr, lf]).length =
      line.length + 2 + (joinLines (plains.map fieldLine)).length +
        (joinLines (kind.fields.map fieldLine)).length + 2 := by
    rw [length_append, length_append, length_append, length_append]
    rfl
  rw [sizes] at room ⊢
  rw [length_append] at few
  have first := feed_statusLine status (by omega)
  have second := feed_plains _ _ 0 code plain started (by omega) (by
    rw [length_append, length_append, length_cons, length_singleton]
    omega)
  have third := feed_closing _ ((line ++ [Http.cr, lf]) ++ joinLines (plains.map fieldLine))
    (0 + plains.length) _ (append_ne_nil_of_left_ne_nil started _) (by omega) final fits (by
      rw [length_append, length_append, length_append, length_cons, length_singleton]
      omega)
  have fourth := feed_blank (append_ne_nil_of_left_ne_nil
    (append_ne_nil_of_left_ne_nil started (joinLines (plains.map fieldLine))) _) (by
      rw [length_append, length_append, length_append, length_cons, length_singleton]
      omega) parsed selected
  have valid := newWithLimit_valid false none
  exact feed_next valid (feed_next valid (feed_next valid first second) third) fourth

end Lines

theorem decimalValue_zero (digits : Bytes) : decimalValue (48 :: digits) = decimalValue digits := rfl

theorem httpNormalizeDecimal_value (src : Bytes) (start : Nat) (inside : start + len ≤ src.length) :
    decimalValue (decimalDigits src (httpNormalizeDecimal src start len)) =
      decimalValue (slice src start (start + len)) := by
  induction len generalizing start with
  | zero => rfl
  | succ len ih =>
    cases len with
    | zero => rfl
    | succ len =>
      rw [httpNormalizeDecimal]
      by_cases zero : src[start]? = some 48
      · rw [if_pos zero, ih (start + 1) (by omega), show start + (len + 1 + 1) = start + 1 + (len + 1) by omega,
          slice_cons_step _ _ zero (by omega), decimalValue_zero]
      · rw [if_neg zero]
        rfl

theorem foldlM_capped (cap : Nat) (err : HttpParseErr) (digits : Bytes) (start : Nat)
    (within : digits.foldl (fun n b => n * 10 + (b.toNat - 48)) start ≤ cap) :
    digits.foldlM (fun n b =>
      let digit := b.toNat - 48
      if cap < digit ∨ (cap - digit) / 10 < n then Except.error err else Except.ok (n * 10 + digit))
        start = Except.ok (digits.foldl (fun n b => n * 10 + (b.toNat - 48)) start) := by
  induction digits generalizing start with
  | nil => rfl
  | cons b rest ih =>
    have grown : start * 10 + (b.toNat - 48) ≤
      rest.foldl (fun n b => n * 10 + (b.toNat - 48)) (start * 10 + (b.toNat - 48)) := by
      have bound := le_value 10 (start * 10 + (b.toNat - 48)) (rest.map fun b => b.toNat - 48) (by decide)
      rw [value, foldl_map] at bound
      exact bound
    rw [foldlM_cons]
    rw [if_neg (digit_fits (by decide) (Nat.le_trans grown within))]
    exact ih _ within

theorem bodyCap_default {d : HttpResponseDecoder} (buffered : d.streaming = false)
    (unlimited : d.explicitBodyLimit = none) : d.bodyCap = httpMaxBody := by
  rw [bodyCap, buffered, if_neg Bool.false_ne_true, unlimited, Option.getD_none]

theorem readHead_text (line : Bytes) (code : Nat) (plains : List (Bytes × Bytes)) (kind : BodyFraming) :
    (readHead line code plains kind).acc.bytes = headText line (plains ++ kind.fields) :=
  (headText_split _ _ _).symm

theorem decimalBodyLen_length {line : Bytes} {plains : List (Bytes × Bytes)}
    {span : HttpDecimalSpan} (cap : n ≤ httpMaxBody)
    (declared : (headOf line code plains (.length n)).contentLength = some span) :
    (readHead line code plains (.length n)).decimalBodyLen span = .ok n := by
  obtain ⟨src, named⟩ : ∃ src, src = headText line (plains ++ (BodyFraming.length n).fields) := ⟨_, rfl⟩
  obtain ⟨pos, placed⟩ : ∃ pos, pos = line.length + 2 + (joinLines (plains.map fieldLine)).length :=
    ⟨_, rfl⟩
  have form : httpNormalizeDecimal src
    (fieldSpan src pos (ascii "Content-Length", httpPushDecimal n)).valueStart
    (fieldSpan src pos (ascii "Content-Length", httpPushDecimal n)).valueLen = span := by
    rw [headOf, ← named, ← placed] at declared
    exact Option.some.inj declared
  have here : src.drop pos =
    fieldLine (ascii "Content-Length", httpPushDecimal n) ++ ([Http.cr, lf] ++ [Http.cr, lf]) := by
    have before : ((line ++ [Http.cr, lf]) ++ joinLines (plains.map fieldLine)).length = pos := by
      rw [placed, length_append, length_append]
      rfl
    have single : joinLines ((BodyFraming.length n).fields.map fieldLine) =
      fieldLine (ascii "Content-Length", httpPushDecimal n) ++ [Http.cr, lf] := append_nil _
    have cut : ∀ before part tail : Bytes,
      ((before ++ part) ++ tail).drop before.length = part ++ tail := by
      intro before part tail
      rw [append_assoc, drop_left]
    rw [named, headText_split, single, ← before, cut, append_assoc]
  have text : slice src (fieldSpan src pos (ascii "Content-Length", httpPushDecimal n)).valueStart
    ((fieldSpan src pos (ascii "Content-Length", httpPushDecimal n)).valueStart +
      (fieldSpan src pos (ascii "Content-Length", httpPushDecimal n)).valueLen) = httpPushDecimal n :=
    (congrArg Prod.snd (fieldSpan_text here)).trans (trimmed_httpPushDecimal n)
  have word : n < 2 ^ 64 := Nat.lt_of_le_of_lt cap (by decide)
  have number := httpNormalizeDecimal_value _ _ (fieldSpan_inside here)
  rw [text, form, decimalValue_httpPushDecimal word, decimalValue] at number
  have folded := foldlM_capped httpMaxBody (readHead line code plains (.length n)).limitErr
    _ 0 (by
      rw [number]
      exact cap)
  rw [number] at folded
  rw [decimalBodyLen, readHead_text, ← named, bodyCap_default rfl rfl]
  exact folded

section Selected
variable {line : Bytes} {code : Nat} {plains : List (Bytes × Bytes)}

theorem selectHead_body (kind : BodyFraming) (final : 200 ≤ code) (fits : BodyFraming.fits kind code) :
    (readHead line code plains kind).selectHead (headOf line code plains kind) =
      (readHead line code plains kind).selectBody (headOf line code plains kind) := by
  have status : (headOf line code plains kind).status = code := rfl
  rw [selectHead, status, if_neg (by omega), if_neg (by omega)]
  apply if_neg
  rintro ⟨empty, framed⟩
  have bodiless : kind = .bodiless := by_contra fun some_ => fits some_ empty
  subst bodiless
  rcases framed with absurd_ | absurd_ <;> cases absurd_

theorem selectBody_bodiless (empty : code = 204 ∨ code = 304) :
    (readHead line code plains .bodiless).selectBody (headOf line code plains .bodiless) =
      .ok (((readHead line code plains .bodiless).acceptHead
        (headOf line code plains .bodiless) true).setState .complete) := by
  exact if_pos (Or.inr empty)

theorem headOf_bodied (kind : BodyFraming) (some_ : ¬ (code = 204 ∨ code = 304)) :
    ¬ ((readHead line code plains kind).methodIsHead = true ∨
      (headOf line code plains kind).status = 204 ∨ (headOf line code plains kind).status = 304) := by
  rintro (absurd_ | empty)
  · cases absurd_
  · exact some_ empty

theorem selectBody_chunked (some_ : ¬ (code = 204 ∨ code = 304)) :
    (readHead line code plains .chunked).selectBody (headOf line code plains .chunked) =
      .ok (((readHead line code plains .chunked).acceptHead
        (headOf line code plains .chunked) true).setState .chunkSize) := by
  rw [selectBody, if_neg (headOf_bodied _ some_)]
  exact if_pos rfl

theorem selectBody_length {n : Nat} (some_ : ¬ (code = 204 ∨ code = 304)) (cap : n ≤ httpMaxBody) :
    (readHead line code plains (.length n)).selectBody (headOf line code plains (.length n)) =
      .ok (((readHead line code plains (.length n)).acceptHead
        (headOf line code plains (.length n)) true).setState
          (if n = 0 then .complete else .fixed n)) := by
  rw [selectBody, if_neg (headOf_bodied _ some_), if_neg (by exact Bool.false_ne_true)]
  rcases declared : (headOf line code plains (.length n)).contentLength with _ | span
  · cases declared
  dsimp only
  rw [decimalBodyLen_length cap declared]
  rfl

end Selected

end HttpResponseDecoder

end Align.Http
