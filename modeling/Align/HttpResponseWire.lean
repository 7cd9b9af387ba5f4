import Align.HttpRequestWire
import Align.HttpStreamReader

/-! The sending side of a response: the builder, its serializer, and the stream
writer with its lazy head, chunk frames and terminator. Writes reach the wire whole. -/
namespace Align.Http
open Segments Numerals

structure ResponseBuilder where
  status : Int
  headers : List (Bytes × Bytes)
  body : Option Bytes
deriving DecidableEq, Repr

def httpReasonPhrase (status : Int) : Bytes :=
  match status with
  | 100 => ascii "Continue"
  | 101 => ascii "Switching Protocols"
  | 200 => ascii "OK"
  | 201 => ascii "Created"
  | 202 => ascii "Accepted"
  | 204 => ascii "No Content"
  | 206 => ascii "Partial Content"
  | 301 => ascii "Moved Permanently"
  | 302 => ascii "Found"
  | 303 => ascii "See Other"
  | 304 => ascii "Not Modified"
  | 307 => ascii "Temporary Redirect"
  | 308 => ascii "Permanent Redirect"
  | 400 => ascii "Bad Request"
  | 401 => ascii "Unauthorized"
  | 403 => ascii "Forbidden"
  | 404 => ascii "Not Found"
  | 405 => ascii "Method Not Allowed"
  | 406 => ascii "Not Acceptable"
  | 409 => ascii "Conflict"
  | 410 => ascii "Gone"
  | 413 => ascii "Payload Too Large"
  | 414 => ascii "URI Too Long"
  | 415 => ascii "Unsupported Media Type"
  | 422 => ascii "Unprocessable Entity"
  | 429 => ascii "Too Many Requests"
  | 500 => ascii "Internal Server Error"
  | 501 => ascii "Not Implemented"
  | 502 => ascii "Bad Gateway"
  | 503 => ascii "Service Unavailable"
  | 504 => ascii "Gateway Timeout"
  | _ => []

def httpStatusLinePrefix : Bytes := ascii "HTTP/1.1 "

def httpConnectionClose : Bytes := ascii "Connection: close\r\n"

def httpTeChunked : Bytes := ascii "Transfer-Encoding: chunked\r\n"

def httpChunkedTerminator : Bytes := ascii "0\r\n\r\n"

/-- The names that only the serializer writes. -/
def autoGenerated (name : Bytes) : Bool :=
  eqIgnoreAsciiCase name (ascii "content-length") ||
    eqIgnoreAsciiCase name (ascii "transfer-encoding") ||
    eqIgnoreAsciiCase name (ascii "connection")

def statusDigits (status : Nat) : Bytes :=
  [UInt8.ofNat (48 + status / 100), UInt8.ofNat (48 + status / 10 % 10), UInt8.ofNat (48 + status % 10)]

/-- The status line and the fields, without framing field and blank line; `none` is the
invalid-argument status. -/
def httpSerializeHead (rb : ResponseBuilder) (persistent : Bool) : Option Bytes :=
  if ¬ (100 ≤ rb.status ∧ rb.status ≤ 599) then none
  else if rb.headers.any fun h => autoGenerated h.1 then none
  else
    some
      (httpStatusLinePrefix ++ statusDigits rb.status.toNat ++ [blank] ++ httpReasonPhrase rb.status ++
        [cr, lf] ++ rb.headers.flatMap fieldBytes ++ (if persistent then [] else httpConnectionClose))

def httpStatusAllowsABody (status : Int) : Bool :=
  !(100 ≤ status && status < 200) && status != 204 && status != 304

def httpSerializeResponseInner (rb : ResponseBuilder) (suppressBody persistent : Bool) : Option Bytes :=
  let bodilessStatus := !httpStatusAllowsABody rb.status
  if bodilessStatus && rb.body.isSome then none
  else
    (httpSerializeHead rb persistent).map fun buf =>
      buf ++
        (if bodilessStatus then []
          else httpContentLengthPrefix ++ httpPushDecimal (rb.body.getD []).length ++ [cr, lf]) ++
        [cr, lf] ++ (if suppressBody then [] else rb.body.getD [])

def httpSerializeResponse (rb : ResponseBuilder) : Option Bytes :=
  httpSerializeResponseInner rb false false

/-- A response sent piece by piece. The head waits for the first write. -/
structure HttpStream where
  framed : Bool
  poisoned : Bool
  pendingHead : Option Bytes
deriving DecidableEq, Repr

/-- The stream for a builder without body; a set body aborts. -/
def respondStream (rb : ResponseBuilder) (http11 : Bool) : Option HttpStream :=
  if rb.body.isSome then none
  else if !httpStatusAllowsABody rb.status then none
  else
    (httpSerializeHead rb false).map fun head =>
      { framed := http11, poisoned := false
        pendingHead := some (head ++ (if http11 then httpTeChunked else []) ++ [cr, lf]) }

def hexDigit (d : Nat) : UInt8 := if d < 10 then UInt8.ofNat (48 + d) else UInt8.ofNat (87 + d)

def httpChunkSizeLine (n : Nat) : Bytes := (numeral 16 16 n []).map hexDigit ++ [cr, lf]

/-- One send: the stream afterwards and what it put on the wire. -/
def httpStreamSendParts (st : HttpStream) (data : Bytes) (event : Bool) : Option (HttpStream × Bytes) :=
  let before := if event then ascii "data: " else []
  let after := if event then ascii "\n\n" else []
  let payloadLen := before.length + data.length + after.length
  let line := if st.framed then httpChunkSizeLine payloadLen else []
  let head := st.pendingHead.getD []
  let framingLen := if st.framed then line.length + 2 else 0
  if st.poisoned then none
  else if 2 ^ 64 ≤ payloadLen ∨ payloadLen = 0 then none
  else if 2 ^ 63 ≤ head.length + payloadLen + framingLen then none
  else
    some
      ({ st with pendingHead := none },
        head ++ line ++ before ++ data ++ after ++ (if st.framed then [cr, lf] else []))

def streamSend (st : HttpStream) (chunk : Bytes) : Option (HttpStream × Bytes) :=
  if chunk.isEmpty then some (st, []) else httpStreamSendParts st chunk false

def streamSendEvent (st : HttpStream) (data : Bytes) : Option (HttpStream × Bytes) :=
  httpStreamSendParts st data true

def streamFinish (st : HttpStream) : Option Bytes :=
  if st.poisoned then none
  else some (st.pendingHead.getD [] ++ (if st.framed then httpChunkedTerminator else []))

def sendAll : HttpStream → List Bytes → Option (HttpStream × Bytes)
  | st, [] => some (st, [])
  | st, chunk :: chunks =>
      (streamSend st chunk).bind fun (st, sent) =>
        (sendAll st chunks).map fun (st, rest) => (st, sent ++ rest)

/-- Everything a streamed response puts on the wire. -/
def httpStreamResponse (rb : ResponseBuilder) (http11 : Bool) (chunks : List Bytes) : Option Bytes :=
  (respondStream rb http11).bind fun st =>
    (sendAll st chunks).bind fun (st, sent) => (streamFinish st).map fun rest => sent ++ rest

end Align.Http
