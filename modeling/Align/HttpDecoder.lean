import Align.Feeding
import Align.HttpResponseHead

/-! The incremental response decoder. Its loop takes as much of the delivered bytes
as the current state can use: a head line, a run of body bytes, a chunk-size line,
or a single framing byte. -/
namespace Align.Http
open Segments

def httpMaxBody : Nat := 2 ^ 30

def httpMaxHeaderBlock : Nat := 256 * 1024

def httpMaxChunkLine : Nat := 8 * 1024

def httpMaxChunkFraming : Nat := 256 * 1024

def httpMaxTrailerBlock : Nat := httpMaxHeaderBlock

def httpMaxResponseLogical : Nat := httpMaxHeaderBlock + httpMaxBody

/-- Response storage with the largest size it may reach. -/
structure HttpResponseAccumulator where
  bytes : Bytes
  capacity : Nat
deriving DecidableEq, Repr

def HttpResponseAccumulator.extendFromSlice (acc : HttpResponseAccumulator) (bytes : Bytes) :
    Except HttpParseErr HttpResponseAccumulator :=
  if acc.bytes.length + bytes.length ≤ acc.capacity then
    .ok { acc with bytes := acc.bytes ++ bytes }
  else .error .invalid

inductive HttpDecodeState where
  | head
  | fixed (remaining : Nat)
  | closeDelimited
  | chunkSize
  | chunkData (remaining : Nat)
  | chunkDataCrLf (seen : Nat)
  | trailers
  | complete
deriving DecidableEq, Repr

inductive HttpChunkLineState where
  | size
  | afterSizeOws
  | extensionStart
  | extensionName
  | afterExtensionNameOws
  | beforeValue
  | tokenValue
  | afterValueOws
  | quotedValue
  | quotedEscape
  | afterQuotedValueOws
  | cr
deriving DecidableEq, Repr

inductive HttpTrailerState where
  | start
  | name
  | value
  | lineLf
  | finalLf
deriving DecidableEq, Repr

structure ChunkLine where
  state : HttpChunkLineState
  len : Nat
  hasDigit : Bool
  size : Nat
  magnitudeOk : Bool
deriving DecidableEq, Repr

structure Trailer where
  state : HttpTrailerState
  bytes : Nat
  count : Nat
  nameLen : Nat
  isContentLength : Bool
  isTransferEncoding : Bool
deriving DecidableEq, Repr

structure HttpResponseDecoder where
  acc : HttpResponseAccumulator
  boundedBody : Option HttpResponseAccumulator
  explicitBodyLimit : Option Nat
  streaming : Bool
  streamedBodyLen : Nat
  state : HttpDecodeState
  finalHead : Option HttpHead
  methodIsHead : Bool
  keepAlive : Bool
  selfDelimited : Bool
  cumulativeHeadBytes : Nat
  headLineStart : Nat
  headHeaderCount : Nat
  headStatus : Option Nat
  headHttp11 : Bool
  headFraming : Framing
  line : ChunkLine
  chunkFramingBytes : Nat
  trailer : Trailer
deriving DecidableEq, Repr

def resetChunkLine : ChunkLine :=
  { state := .size, len := 0, hasDigit := false, size := 0, magnitudeOk := true }

namespace HttpResponseDecoder

def newMode (methodIsHead : Bool) (explicitBodyLimit : Option Nat) (streaming : Bool) :
    HttpResponseDecoder :=
  { acc :=
      { bytes := []
        capacity := if streaming || explicitBodyLimit.isSome then httpMaxHeaderBlock
          else httpMaxResponseLogical }
    boundedBody := none, explicitBodyLimit, streaming, streamedBodyLen := 0, state := .head
    finalHead := none, methodIsHead, keepAlive := false, selfDelimited := false
    cumulativeHeadBytes := 0, headLineStart := 0, headHeaderCount := 0, headStatus := none
    headHttp11 := false, headFraming := { contentLength := none, transferCodings := 0 }
    line := resetChunkLine, chunkFramingBytes := 0
    trailer :=
      { state := .start, bytes := 0, count := 0, nameLen := 0
        isContentLength := true, isTransferEncoding := true } }

def newWithLimit (methodIsHead : Bool) (explicitBodyLimit : Option Nat) : HttpResponseDecoder :=
  newMode methodIsHead explicitBodyLimit false

def newStreaming (methodIsHead : Bool) (explicitBodyLimit : Option Nat) : HttpResponseDecoder :=
  newMode methodIsHead explicitBodyLimit true

def new (methodIsHead : Bool) : HttpResponseDecoder := newWithLimit methodIsHead none

def setState (d : HttpResponseDecoder) (state : HttpDecodeState) : HttpResponseDecoder :=
  { d with state }

def setLine (d : HttpResponseDecoder) (line : ChunkLine) : HttpResponseDecoder := { d with line }

def chargeFraming (d : HttpResponseDecoder) (count : Nat) : HttpResponseDecoder :=
  { d with chunkFramingBytes := d.chunkFramingBytes + count }

def complete (d : HttpResponseDecoder) : Bool := d.state == .complete

def bodyLen (d : HttpResponseDecoder) : Except HttpParseErr Nat :=
  if d.streaming then .ok d.streamedBodyLen
  else
    match d.boundedBody with
    | some body => .ok body.bytes.length
    | none =>
        let bodyStart := match d.finalHead with
          | some head => head.bodyStart
          | none => d.acc.bytes.length
        if bodyStart ≤ d.acc.bytes.length then .ok (d.acc.bytes.length - bodyStart)
        else .error .invalid

def prepareBody (d : HttpResponseDecoder) : HttpResponseDecoder :=
  { d with
    boundedBody :=
      if d.streaming then d.boundedBody
      else
        match d.explicitBodyLimit with
        | some limit =>
            if d.boundedBody.isNone then some { bytes := [], capacity := limit } else d.boundedBody
        | none => d.boundedBody }

def appendBody (d : HttpResponseDecoder) (bytes : Bytes) : Except HttpParseErr HttpResponseDecoder :=
  match d.boundedBody with
  | some body =>
      if body.capacity < body.bytes.length + bytes.length then .error .bodyLimit
      else
        (body.extendFromSlice bytes).map fun body => { d with boundedBody := some body }
  | none => (d.acc.extendFromSlice bytes).map fun acc => { d with acc }

/-- The error for a payload past the cap in force. -/
def limitErr (d : HttpResponseDecoder) : HttpParseErr :=
  if d.explicitBodyLimit.isSome then .bodyLimit else .invalid

def bodyCap (d : HttpResponseDecoder) : Nat :=
  if d.streaming then d.explicitBodyLimit.getD (2 ^ 64 - 1) else d.explicitBodyLimit.getD httpMaxBody

def decimalBodyLen (d : HttpResponseDecoder) (span : HttpDecimalSpan) : Except HttpParseErr Nat :=
  (decimalDigits d.acc.bytes span).foldlM (fun n b =>
    let digit := b.toNat - 48
    if d.bodyCap < digit ∨ (d.bodyCap - digit) / 10 < n then .error d.limitErr
    else .ok (n * 10 + digit)) 0

def acceptHead (d : HttpResponseDecoder) (head : HttpHead) (selfDelimited : Bool) :
    HttpResponseDecoder :=
  { d with keepAlive := httpHeadKeepAlive head d.acc.bytes, finalHead := some head, selfDelimited }

/-- The body's framing under a final head. -/
def selectBody (d : HttpResponseDecoder) (head : HttpHead) :
    Except HttpParseErr HttpResponseDecoder :=
  if d.methodIsHead ∨ head.status = 204 ∨ head.status = 304 then
    .ok ((d.acceptHead head true).setState .complete)
  else if head.chunked then .ok ((d.acceptHead head true).setState .chunkSize)
  else
    match head.contentLength with
    | some span =>
        (d.decimalBodyLen span).map fun remaining =>
          (d.acceptHead head true).prepareBody.setState
            (if remaining = 0 then .complete else .fixed remaining)
    | none => .ok ((d.acceptHead head false).prepareBody.setState .closeDelimited)

/-- An interim head is dropped; its bytes stay charged. -/
def dropHead (d : HttpResponseDecoder) : HttpResponseDecoder :=
  { d with
    acc := { d.acc with bytes := [] }, state := .head, headLineStart := 0, headHeaderCount := 0
    headStatus := none, headHttp11 := false
    headFraming := { contentLength := none, transferCodings := 0 } }

def selectHead (d : HttpResponseDecoder) (head : HttpHead) :
    Except HttpParseErr HttpResponseDecoder :=
  if head.status = 101 then .error .invalid
  else if 100 ≤ head.status ∧ head.status ≤ 199 then
    if head.contentLength.isSome ∨ head.chunked then .error .invalid
    else if d.cumulativeHeadBytes = httpMaxHeaderBlock then .error .invalid
    else .ok d.dropHead
  else if head.status = 204 ∧ (head.contentLength.isSome ∨ head.chunked) then .error .invalid
  else d.selectBody head

/-- After a size line: the chunk's data, or the trailers after the last chunk. -/
def startChunk (d : HttpResponseDecoder) (size : Nat) : HttpResponseDecoder :=
  let d := (if size ≠ 0 then d.prepareBody else d).setLine resetChunkLine
  if size = 0 then { d with trailer := { d.trailer with state := .start } }.setState .trailers
  else d.setState (.chunkData size)

def finishChunkLine (d : HttpResponseDecoder) : Except HttpParseErr HttpResponseDecoder :=
  if !d.line.magnitudeOk then .error d.limitErr
  else
    d.bodyLen.bind fun bodyLen =>
      if 2 ^ 64 ≤ bodyLen + d.line.size ∨ d.bodyCap < bodyLen + d.line.size then .error d.limitErr
      else .ok (d.startChunk d.line.size)

end HttpResponseDecoder

def ChunkLine.counted (line : ChunkLine) : ChunkLine := { line with len := line.len + 1 }

def chunkLineCanEnd (line : ChunkLine) : Bool :=
  match line.state with
  | .size => line.hasDigit
  | .extensionName => true
  | .afterExtensionNameOws => true
  | .tokenValue => true
  | .afterValueOws => true
  | .afterQuotedValueOws => true
  | _ => false

def isAsciiHexdigit (b : UInt8) : Bool :=
  isDigit b || (97 ≤ b && b ≤ 102) || (65 ≤ b && b ≤ 70)

def hexValue (b : UInt8) : Nat :=
  if isDigit b then b.toNat - 48 else if 97 ≤ b && b ≤ 102 then b.toNat - 97 + 10 else b.toNat - 65 + 10

/-- One more digit of the size. Past `ceiling` the magnitude is lost, which is an error
at once unless an explicit limit (or streaming) lets the line be read to its end. -/
def chunkSizeDigit (ceiling : Nat) (strict : Bool) (line : ChunkLine) (b : UInt8) :
    Except HttpParseErr ChunkLine :=
  let line := { line with hasDigit := true }
  if line.magnitudeOk then
    if (ceiling - hexValue b) / 16 < line.size then
      if strict then .error .invalid else .ok { line with magnitudeOk := false }
    else .ok { line with size := line.size * 16 + hexValue b }
  else .ok line

/-- The size line's grammar on a byte that is neither CR nor LF. -/
def chunkLineNext (ceiling : Nat) (strict : Bool) (line : ChunkLine) (b : UInt8) :
    Except HttpParseErr ChunkLine :=
  let goto (state : HttpChunkLineState) : Except HttpParseErr ChunkLine := .ok { line with state }
  match line.state with
  | .size =>
      if isAsciiHexdigit b then chunkSizeDigit ceiling strict line b
      else if line.hasDigit && isOws b then goto .afterSizeOws
      else if line.hasDigit && b == 59 then goto .extensionStart
      else .error .invalid
  | .afterSizeOws =>
      if isOws b then goto .afterSizeOws
      else if b == 59 then goto .extensionStart
      else .error .invalid
  | .extensionStart =>
      if isOws b then goto .extensionStart
      else if isTchar b then goto .extensionName
      else .error .invalid
  | .extensionName =>
      if isTchar b then goto .extensionName
      else if isOws b then goto .afterExtensionNameOws
      else if b == 61 then goto .beforeValue
      else if b == 59 then goto .extensionStart
      else .error .invalid
  | .afterExtensionNameOws =>
      if isOws b then goto .afterExtensionNameOws
      else if b == 61 then goto .beforeValue
      else if b == 59 then goto .extensionStart
      else .error .invalid
  | .beforeValue =>
      if isOws b then goto .beforeValue
      else if b == 34 then goto .quotedValue
      else if isTchar b then goto .tokenValue
      else .error .invalid
  | .tokenValue =>
      if isTchar b then goto .tokenValue
      else if isOws b then goto .afterValueOws
      else if b == 59 then goto .extensionStart
      else .error .invalid
  | .afterValueOws =>
      if isOws b then goto .afterValueOws
      else if b == 59 then goto .extensionStart
      else .error .invalid
  | .quotedValue =>
      if b == 34 then goto .afterQuotedValueOws
      else if b == 92 then goto .quotedEscape
      else if b == 9 || b == 32 || b == 33 || (0x23 ≤ b && b ≤ 0x5b) || (0x5d ≤ b && b ≤ 0x7e) ||
          0x80 ≤ b then goto .quotedValue
      else .error .invalid
  | .quotedEscape =>
      if b == 9 || b == 32 || (0x21 ≤ b && b ≤ 0x7e) || 0x80 ≤ b then goto .quotedValue
      else .error .invalid
  | .afterQuotedValueOws =>
      if isOws b then goto .afterQuotedValueOws
      else if b == 59 then goto .extensionStart
      else .error .invalid
  | .cr => .error .invalid

namespace HttpResponseDecoder

def sizeCeiling (d : HttpResponseDecoder) : Nat := if d.streaming then 2 ^ 64 - 1 else httpMaxBody

def chunkLineByte (d : HttpResponseDecoder) (b : UInt8) : Except HttpParseErr HttpResponseDecoder :=
  if d.line.state = .cr then
    if b ≠ lf then .error .invalid else (d.setLine d.line.counted).finishChunkLine
  else if b = lf then .error .invalid
  else if b = Http.cr then
    if chunkLineCanEnd d.line then .ok (d.setLine { d.line.counted with state := .cr })
    else .error .invalid
  else
    (chunkLineNext d.sizeCeiling (!d.streaming && d.explicitBodyLimit.isNone) d.line.counted b).map
      d.setLine

/-- The bytes of a size line are charged before any of them is looked at. -/
def feedChunkLine (d : HttpResponseDecoder) (bytes : Bytes) :
    Except HttpParseErr HttpResponseDecoder :=
  if httpMaxChunkFraming < d.chunkFramingBytes + bytes.length ∨
      httpMaxChunkLine < d.line.len + bytes.length then .error .invalid
  else bytes.foldlM chunkLineByte (d.chargeFraming bytes.length)

def appendHead (d : HttpResponseDecoder) (bytes : Bytes) : Except HttpParseErr HttpResponseDecoder :=
  let cumulativeHeadBytes := d.cumulativeHeadBytes + bytes.length
  if httpMaxHeaderBlock < cumulativeHeadBytes then .error .invalid
  else
    (d.acc.extendFromSlice bytes).map fun acc => { d with acc, cumulativeHeadBytes }

def validateIncrementalHeader (d : HttpResponseDecoder) (lineStart lineEnd : Nat) :
    Except HttpParseErr HttpResponseDecoder :=
  (responseHeaderLine d.acc.bytes lineStart (lineEnd - lineStart) d.headFraming).bind
    fun (_, framing) =>
      match d.headStatus with
      | none => .error .invalid
      | some status =>
          let hasFraming := framing.contentLength.isSome || framing.transferCodings != 0
          if 1 < framing.transferCodings ∨
              (framing.transferCodings = 1 ∧ (d.headHttp11 = false ∨ framing.contentLength.isSome)) ∨
              ((100 ≤ status ∧ status ≤ 199) ∧ hasFraming) ∨ (status = 204 ∧ hasFraming) then
            .error .invalid
          else .ok { d with headFraming := framing }

def finishHeadLine (d : HttpResponseDecoder) : Except HttpParseErr HttpResponseDecoder :=
  let stop := d.acc.bytes.length
  if stop < d.headLineStart + 2 ∨ d.acc.bytes[stop - 2]? ≠ some Http.cr then .error .invalid
  else
    let line := slice d.acc.bytes d.headLineStart (stop - 2)
    if d.headLineStart = 0 then
      if !httpValidateStatusLine line then .error .invalid
      else .ok
        { d with
          headStatus := some (statusCode line), headHttp11 := line.take 8 == ascii "HTTP/1.1"
          headLineStart := stop }
    else if line.isEmpty then
      (httpParseHead d.acc.bytes).bind d.selectHead
    else if d.headHeaderCount = httpMaxHeaders then .error .invalid
    else
      (d.validateIncrementalHeader d.headLineStart (stop - 2)).map fun d =>
        { d with headHeaderCount := d.headHeaderCount + 1, headLineStart := stop }

/-- The head's part of the loop: one line, or the unfinished rest of the delivery. -/
def headStep (d : HttpResponseDecoder) (rest : Bytes) :
    Except HttpParseErr (Nat × HttpResponseDecoder) :=
  match memchr lf rest with
  | some nl =>
      (d.appendHead (rest.take (nl + 1))).bind fun d => d.finishHeadLine.map fun d => (nl + 1, d)
  | none =>
      (d.appendHead rest).bind fun d =>
        if !partialLineOk (d.headLineStart == 0) (d.acc.bytes.drop d.headLineStart) then
          .error .invalid
        else if d.cumulativeHeadBytes = httpMaxHeaderBlock then .error .invalid
        else .ok (rest.length, d)

end HttpResponseDecoder

def asciiLetterEq (a b : UInt8) : Bool := toLower a == toLower b

def resetTrailerName (t : Trailer) (first : UInt8) : Trailer :=
  { t with
    nameLen := 1, isContentLength := asciiLetterEq first 99
    isTransferEncoding := asciiLetterEq first 116 }

def extendTrailerName (t : Trailer) (b : UInt8) : Trailer :=
  { t with
    isContentLength := t.isContentLength && (ascii "content-length")[t.nameLen]?.any (asciiLetterEq b)
    isTransferEncoding := t.isTransferEncoding &&
      (ascii "transfer-encoding")[t.nameLen]?.any (asciiLetterEq b)
    nameLen := t.nameLen + 1 }

namespace HttpResponseDecoder

/-- The trailer grammar on one byte, without its budget. -/
def trailerNext (d : HttpResponseDecoder) (b : UInt8) : Except HttpParseErr HttpResponseDecoder :=
  match d.trailer.state with
  | .start =>
      if b = Http.cr then .ok { d with trailer := { d.trailer with state := .finalLf } }
      else if isTchar b then
        match d.finalHead with
        | none => .error .invalid
        | some head =>
            if httpMaxHeaders ≤ head.headers.length + d.trailer.count then .error .invalid
            else .ok { d with trailer := { resetTrailerName d.trailer b with state := .name } }
      else .error .invalid
  | .name =>
      if isTchar b then .ok { d with trailer := extendTrailerName d.trailer b }
      else if b = colon then
        if (d.trailer.isContentLength ∧ d.trailer.nameLen = (ascii "content-length").length) ∨
            (d.trailer.isTransferEncoding ∧
              d.trailer.nameLen = (ascii "transfer-encoding").length) then .error .invalid
        else
          .ok { d with trailer := { d.trailer with count := d.trailer.count + 1, state := .value } }
      else .error .invalid
  | .value =>
      if b = Http.cr then .ok { d with trailer := { d.trailer with state := .lineLf } }
      else if !httpResponseValueByte b then .error .invalid
      else .ok d
  | .lineLf =>
      if b ≠ lf then .error .invalid
      else .ok { d with trailer := { d.trailer with state := .start } }
  | .finalLf => if b ≠ lf then .error .invalid else .ok (d.setState .complete)

def feedTrailerByte (d : HttpResponseDecoder) (b : UInt8) : Except HttpParseErr HttpResponseDecoder :=
  let d := { d with trailer := { d.trailer with bytes := d.trailer.bytes + 1 } }
  if httpMaxTrailerBlock < d.trailer.bytes then .error .invalid
  else
    (d.trailerNext b).bind fun d =>
      if d.trailer.bytes = httpMaxTrailerBlock ∧ d.complete = false then .error .invalid else .ok d

/-- A run of at most `remaining` body bytes. -/
def bodyRun (d : HttpResponseDecoder) (remaining : Nat) (done : HttpDecodeState)
    (going : Nat → HttpDecodeState) (rest : Bytes) : Except HttpParseErr (Nat × HttpResponseDecoder) :=
  let take := min remaining rest.length
  (d.appendBody (rest.take take)).map fun d =>
    (take, d.setState (if remaining - take = 0 then done else going (remaining - take)))

def closeDelimitedStep (d : HttpResponseDecoder) (rest : Bytes) :
    Except HttpParseErr (Nat × HttpResponseDecoder) :=
  d.bodyLen.bind fun bodyLen =>
    if d.explicitBodyLimit.getD httpMaxBody < bodyLen + rest.length then .error d.limitErr
    else (d.appendBody rest).map fun d => (rest.length, d)

/-- Where the size line in front of `rest` ends in it. -/
def lineTake (rest : Bytes) : Nat :=
  match memchr lf rest with
  | some nl => nl + 1
  | none => rest.length

def chunkSizeStep (d : HttpResponseDecoder) (rest : Bytes) :
    Except HttpParseErr (Nat × HttpResponseDecoder) :=
  (d.feedChunkLine (rest.take (lineTake rest))).bind fun d =>
    if d.chunkFramingBytes = httpMaxChunkFraming ∧ d.state ≠ .trailers then .error .invalid
    else .ok (lineTake rest, d)

/-- The line end after chunk data, one byte at a time. -/
def crLfByte (d : HttpResponseDecoder) (seen : Nat) (b : UInt8) :
    Except HttpParseErr HttpResponseDecoder :=
  let d := d.chargeFraming 1
  if httpMaxChunkFraming < d.chunkFramingBytes ∨ (seen = 0 ∧ b ≠ Http.cr) ∨ (seen = 1 ∧ b ≠ lf) then
    .error .invalid
  else
    let d := if seen = 1 then (d.setLine resetChunkLine).setState .chunkSize
      else d.setState (.chunkDataCrLf 1)
    if d.chunkFramingBytes = httpMaxChunkFraming then .error .invalid else .ok d

/-- One turn of the loop on a nonempty rest. -/
def feedStep (d : HttpResponseDecoder) (rest : Bytes) :
    Except HttpParseErr (Nat × HttpResponseDecoder) :=
  match d.state, rest with
  | .complete, _ => .ok (0, d)
  | _, [] => .ok (0, d)
  | .head, rest => d.headStep rest
  | .fixed remaining, rest => d.bodyRun remaining .complete .fixed rest
  | .closeDelimited, rest => d.closeDelimitedStep rest
  | .chunkSize, rest => d.chunkSizeStep rest
  | .chunkData remaining, rest => d.bodyRun remaining (.chunkDataCrLf 0) .chunkData rest
  | .chunkDataCrLf seen, b :: _ => (d.crLfByte seen b).map fun d => (1, d)
  | .trailers, b :: _ => (d.feedTrailerByte b).map fun d => (1, d)

def machine : Feeding.Machine HttpResponseDecoder UInt8 HttpParseErr :=
  { step := feedStep, halted := complete }

/-- Bytes consumed and the decoder afterwards. -/
def feed (d : HttpResponseDecoder) (input : Bytes) : Except HttpParseErr (Nat × HttpResponseDecoder) :=
  machine.feed d input

def finishEof (d : HttpResponseDecoder) : Except HttpParseErr HttpResponseDecoder :=
  match d.state with
  | .closeDelimited => .ok (d.setState .complete)
  | .complete => .ok d
  | _ => .error .incomplete

end HttpResponseDecoder

structure HttpResponse where
  buf : Bytes
  boundedBody : Option Bytes
  status : Nat
  headers : List HttpHeaderSpan
  bodyStart : Nat
  bodyLen : Nat
deriving DecidableEq, Repr

namespace HttpResponseDecoder

def intoResponse (d : HttpResponseDecoder) : Except HttpParseErr HttpResponse :=
  if !d.complete then .error .incomplete
  else
    match d.bodyLen, d.finalHead with
    | .error e, _ => .error e
    | _, none => .error .invalid
    | .ok bodyLen, some head =>
        .ok
          { buf := d.acc.bytes, boundedBody := d.boundedBody.map (·.bytes), status := head.status
            headers := head.headers, bodyLen
            bodyStart := if d.boundedBody.isSome then 0 else head.bodyStart }

end HttpResponseDecoder

def httpParseCore (src : Bytes) : Except HttpParseErr HttpResponse :=
  ((HttpResponseDecoder.new false).feed src).bind fun (_, d) => d.finishEof.bind fun d => d.intoResponse

end Align.Http
