import Align.Delimiting
import Align.Hex
import Align.HttpRequestWire
import Align.PositionSort
import Align.TimeFormats
import Align.UrlEscape

/-! Signing a request for an S3 endpoint. A call is checked field by field, written out
as one canonical text, and the digest of that text is signed; the request or the
presigned address is then made of the same parts. -/
namespace Align.S3
open Http (ascii eqIgnoreAsciiCase HttpRequest)
open Delimiting

abbrev Bytes := List UInt8

structure Credentials where
  accessKey : Bytes
  secretKey : Bytes
  sessionToken : Option Bytes
deriving DecidableEq, Repr

structure Endpoint where
  origin : Bytes
  region : Bytes
deriving DecidableEq, Repr

structure Field where
  name : Bytes
  value : Bytes
deriving DecidableEq, Repr

/-- The two digests of the crypto library. -/
structure Digests where
  sha256 : Bytes → Bytes
  hmacSha256 : Bytes → Bytes → Bytes

inductive Failure where
  | invalid
  /-- The request builder stops the program on an inadmissible header. -/
  | abort
deriving DecidableEq, Repr

def digit (byte : UInt8) : Bool := 48 ≤ byte && byte ≤ 57

def upper (byte : UInt8) : Bool := 65 ≤ byte && byte ≤ 90

def lower (byte : UInt8) : Bool := 97 ≤ byte && byte ≤ 122

def alpha (byte : UInt8) : Bool := upper byte || lower byte

def hex (byte : UInt8) : Bool :=
  digit byte || (65 ≤ byte && byte ≤ 70) || (97 ≤ byte && byte ≤ 102)

def space (byte : UInt8) : Bool := byte == 32 || byte == 9

def credentialsValid (value : Credentials) : Bool :=
  if value.accessKey.length = 0 ∨ value.accessKey.length > 256 then false
  else if !value.accessKey.all fun byte => alpha byte || digit byte || byte == 45 || byte == 95 then false
  else if value.secretKey.length = 0 ∨ value.secretKey.length > 4096 then false
  else
    match value.sessionToken with
    | none => true
    | some token =>
        if token.length = 0 ∨ token.length > 16384 then false
        else token.all fun byte => !(byte < 33 || byte > 126)

def portValid (suffix : Bytes) : Bool :=
  if suffix.length = 0 then true
  else if suffix.length < 2 ∨ suffix.length > 6 ∨ suffix.head? ≠ some 58 then false
  else if !(suffix.drop 1).all digit then false
  else
    let port := (suffix.drop 1).foldl (fun port byte => port * 10 + (byte.toNat - 48)) 0
    1 ≤ port && port ≤ 65535

def authorityValid (authority : Bytes) : Bool :=
  if authority.length = 0 then false
  else if authority.head? = some 91 then
    match authority.findIdx? (· == 93) with
    | none => false
    | some stop =>
        let inner := (authority.take stop).drop 1
        if !inner.all fun byte => hex byte || byte == 58 || byte == 46 then false
        else inner.any (· == 58) && portValid (authority.drop (stop + 1))
  else
    let stop := (authority.findIdx? (· == 58)).getD authority.length
    if stop = 0 then false
    else if !(authority.take stop).all fun byte =>
        alpha byte || digit byte || byte == 46 || byte == 45 || byte == 95 then false
    else portValid (authority.drop stop)

/-- The length of the scheme in front of the authority. -/
def schemeLength (origin : Bytes) : Option Nat :=
  if origin.take 8 = ascii "https://" then some 8
  else if origin.take 7 = ascii "http://" then some 7
  else none

def endpointValid (value : Endpoint) : Bool :=
  if value.origin.length = 0 ∨ value.origin.length > 1024 then false
  else
    match schemeLength value.origin with
    | none => false
    | some offset =>
        if !authorityValid (value.origin.drop offset) then false
        else if value.region.length = 0 ∨ value.region.length > 64 then false
        else value.region.all fun byte => lower byte || digit byte || byte == 45

def methodValid (method : Bytes) : Bool :=
  if method.length = 0 ∨ method.length > 32 then false else method.all upper

/-- Names that belong to the signature itself, in any case. -/
def amzName : Bytes → Bool
  | a :: b :: c :: d :: e :: f :: _ =>
      (a == 88 || a == 120) && b == 45 && (c == 65 || c == 97) && (d == 77 || d == 109) &&
        (e == 90 || e == 122) && f == 45
  | _ => false

def queryValid (fields : List Field) : Bool :=
  fields.all fun field =>
    !(field.name.length = 0 ∨ field.name.length > 1024) && !(field.value.length > 8192) &&
      !amzName field.name

def tokenMarks : Bytes := ascii "!#$%&'*+-.^_`|~"

def headerNameValid (name : Bytes) : Bool :=
  if name.length = 0 ∨ name.length > 256 then false
  else name.all fun byte => !(byte > 127) && (alpha byte || digit byte || tokenMarks.contains byte)

def reservedHeaders : List Bytes :=
  [ascii "authorization", ascii "host", ascii "content-length", ascii "transfer-encoding",
    ascii "connection", ascii "trailer", ascii "te", ascii "upgrade", ascii "proxy-authorization",
    ascii "proxy-authenticate", ascii "expect", ascii "x-amz-date", ascii "x-amz-content-sha256",
    ascii "x-amz-security-token"]

def reservedHeader (name : Bytes) : Bool := reservedHeaders.any (eqIgnoreAsciiCase name)

def valueValid (value : Bytes) : Bool :=
  !(value.length > 16384) && value.all fun byte => byte == 9 || !(byte < 32 || byte > 126)

/-- Every field is checked against those in front of it. -/
def headersLoop (earlier : List Field) : List Field → Bool
  | [] => true
  | field :: rest =>
      if !headerNameValid field.name then false
      else if !valueValid field.value then false
      else if reservedHeader field.name then false
      else if earlier.any fun previous => eqIgnoreAsciiCase field.name previous.name then false
      else headersLoop (earlier ++ [field]) rest

def headersValid (fields : List Field) : Bool := headersLoop [] fields

def lowercase (name : Bytes) : Bytes := name.map fun byte => if upper byte then byte - 65 + 97 else byte

/-- `gap` is a run of blanks behind what was written. -/
def normalizedLoop (started gap : Bool) : Bytes → Bytes
  | [] => []
  | byte :: rest =>
      if space byte then normalizedLoop started started rest
      else (if gap then [32] else []) ++ byte :: normalizedLoop true false rest

def normalized (value : Bytes) : Bytes := normalizedLoop false false value

def compare : Bytes → Bytes → Int
  | [], [] => 0
  | [], _ :: _ => -1
  | _ :: _, [] => 1
  | a :: left, b :: right => if a < b then -1 else if a > b then 1 else compare left right

/-- The names decide, and the values where they agree. -/
def inOrder (previous selected : Bytes × Bytes) : Bool :=
  compare previous.1 selected.1 < 0 ||
    (compare previous.1 selected.1 == 0 && compare previous.2 selected.2 ≤ 0)

/-- Names and values stand in two arrays of one length; the positions are sorted. -/
def order (fields : List (Bytes × Bytes)) : List Nat :=
  PositionSort.sort (fun previous selected => inOrder (fields.getD previous ([], [])) (fields.getD selected ([], [])))
    (List.range fields.length)

def ordered (fields : List (Bytes × Bytes)) : List (Bytes × Bytes) :=
  (order fields).map fun index => fields.getD index ([], [])

def percentEncode (text : Bytes) : Bytes := text.flatMap (UrlEscape.percentPiece false)

def percentEncodePath (text : Bytes) : Bytes := text.flatMap (UrlEscape.percentPiece true)

def encodedQuery (fields : List (Bytes × Bytes)) : Bytes :=
  joined 38 ((ordered fields).map fun field => field.1 ++ 61 :: field.2)

def encodedField (field : Field) : Bytes × Bytes := (percentEncode field.name, percentEncode field.value)

def canonicalQuery (fields : List Field) : Bytes := encodedQuery (fields.map encodedField)

def credentialScope (region timestamp : Bytes) : Bytes :=
  timestamp.take 8 ++ ascii "/" ++ region ++ ascii "/s3/aws4_request"

section Signing
variable (digests : Digests) (credentials : Credentials)

def signature (region timestamp canonicalHash : Bytes) : Bytes :=
  let signing := ascii "AWS4-HMAC-SHA256\n" ++ timestamp ++ ascii "\n" ++ credentialScope region timestamp ++
    ascii "\n" ++ canonicalHash
  let dateKey := digests.hmacSha256 (ascii "AWS4" ++ credentials.secretKey) (timestamp.take 8)
  let regionKey := digests.hmacSha256 dateKey region
  let serviceKey := digests.hmacSha256 regionKey (ascii "s3")
  let signingKey := digests.hmacSha256 serviceKey (ascii "aws4_request")
  Hex.encodePairs (digests.hmacSha256 signingKey signing)

def authorization (region timestamp canonicalHash signedHeaders : Bytes) : Bytes :=
  ascii "AWS4-HMAC-SHA256 Credential=" ++ credentials.accessKey ++ ascii "/" ++
    credentialScope region timestamp ++ ascii ",SignedHeaders=" ++ signedHeaders ++ ascii ",Signature=" ++
    signature digests credentials region timestamp canonicalHash

end Signing

def headerField (field : Field) : Bytes × Bytes := (lowercase field.name, normalized field.value)

def canonicalHeaders (fields : List (Bytes × Bytes)) : Bytes := block 58 10 (ordered fields)

def signedHeaders (fields : List (Bytes × Bytes)) : Bytes := joined 59 ((ordered fields).map Prod.fst)

/-- The canonical request, its parts one to a line. -/
def canonicalText (method uri query : Bytes) (fields : List (Bytes × Bytes)) (payload : Bytes) : Bytes :=
  method ++ 10 :: (uri ++ 10 :: (query ++ 10 :: (canonicalHeaders fields ++ 10 ::
    (signedHeaders fields ++ 10 :: payload))))

/-- The part of the origin behind `https://` or `http://`. -/
def authority (endpoint : Endpoint) : Bytes := endpoint.origin.drop ((schemeLength endpoint.origin).getD 7)

def hashText (digests : Digests) (text : Bytes) : Bytes := Hex.encodePairs (digests.sha256 text)

def commonValid (credentials : Credentials) (endpoint : Endpoint) (method path : Bytes)
    (query headers : List Field) (now : Int) : Bool :=
  query.length ≤ 128 && headers.length ≤ 120 && credentialsValid credentials && endpointValid endpoint &&
    methodValid method && !(path.length = 0 ∨ path.length > 8192 ∨ path.head? ≠ some 47) &&
    queryValid query && headersValid headers && !(now < 0)

/-- A call of `request`, without what the calls in question share. -/
structure Call where
  method : Bytes
  path : Bytes
  query : List Field
  headers : List Field
  body : Bytes
deriving DecidableEq, Repr

section Entry
variable (digests : Digests) (credentials : Credentials) (endpoint : Endpoint)

def tokenField (name : Bytes) (encode : Bytes → Bytes) : List (Bytes × Bytes) :=
  match credentials.sessionToken with
  | none => []
  | some token => [(name, encode token)]

def requestHeaders (timestamp : Bytes) (call : Call) : List (Bytes × Bytes) :=
  [(ascii "host", authority endpoint), (ascii "x-amz-content-sha256", hashText digests call.body),
    (ascii "x-amz-date", timestamp)] ++
    tokenField credentials (ascii "x-amz-security-token") id ++ call.headers.map headerField

def canonicalRequest (timestamp : Bytes) (call : Call) : Bytes :=
  canonicalText call.method (percentEncodePath call.path) (canonicalQuery call.query)
    (requestHeaders digests credentials endpoint timestamp call) (hashText digests call.body)

def requestUrl (call : Call) : Bytes :=
  endpoint.origin ++ percentEncodePath call.path ++
    if (canonicalQuery call.query).length > 0 then ascii "?" ++ canonicalQuery call.query else []

/-- The calls that fill in the request: every signed header but the host, the
authorization and the body. -/
def requestCalls (timestamp : Bytes) (call : Call) : List Http.Call :=
  let fields := requestHeaders digests credentials endpoint timestamp call
  let canonicalHash := hashText digests (canonicalRequest digests credentials endpoint timestamp call)
  (((ordered fields).filter fun field => field.1 ≠ ascii "host").map fun field =>
      Http.Call.header field.1 field.2) ++
    [.header (ascii "authorization")
      (authorization digests credentials endpoint.region timestamp canonicalHash (signedHeaders fields)),
      .body call.body]

def request (now : Int) (call : Call) : Except Failure HttpRequest :=
  if !(call.body.length ≤ 1073741824 &&
      commonValid credentials endpoint call.method call.path call.query call.headers now) then .error .invalid
  else
    match Time.format now 3 with
    | none => .error .invalid
    | some timestamp =>
        match Http.build call.method (requestUrl endpoint call)
            (requestCalls digests credentials endpoint timestamp call) with
        | none => .error .abort
        | some output => .ok output

/-- A call of `presign`. -/
structure PresignCall where
  method : Bytes
  path : Bytes
  query : List Field
  headers : List Field
  expiresSeconds : Int
deriving DecidableEq, Repr

structure PresignedRequest where
  method : Bytes
  url : Bytes
  headers : List (Bytes × Bytes)
deriving DecidableEq, Repr

def writeInt (n : Int) : Bytes := (if n < 0 then ascii "-" else []) ++ Http.httpPushDecimal n.natAbs

def presignHeaders (call : PresignCall) : List (Bytes × Bytes) :=
  (ascii "host", authority endpoint) :: call.headers.map headerField

def presignQuery (timestamp : Bytes) (call : PresignCall) : List (Bytes × Bytes) :=
  call.query.map encodedField ++
    [(ascii "X-Amz-Algorithm", ascii "AWS4-HMAC-SHA256"),
      (ascii "X-Amz-Credential",
        percentEncode (credentials.accessKey ++ ascii "/" ++ credentialScope endpoint.region timestamp)),
      (ascii "X-Amz-Date", percentEncode timestamp),
      (ascii "X-Amz-Expires", writeInt call.expiresSeconds),
      (ascii "X-Amz-SignedHeaders", percentEncode (signedHeaders (presignHeaders endpoint call)))] ++
    tokenField credentials (ascii "X-Amz-Security-Token") percentEncode

def canonicalPresign (timestamp : Bytes) (call : PresignCall) : Bytes :=
  canonicalText call.method (percentEncodePath call.path)
    (encodedQuery (presignQuery credentials endpoint timestamp call)) (presignHeaders endpoint call)
    (ascii "UNSIGNED-PAYLOAD")

def presign (now : Int) (call : PresignCall) : Except Failure PresignedRequest :=
  if !commonValid credentials endpoint call.method call.path call.query call.headers now then .error .invalid
  else if call.expiresSeconds < 1 ∨ call.expiresSeconds > 604800 then .error .invalid
  else
    match Time.format now 3 with
    | none => .error .invalid
    | some timestamp =>
        let canonicalHash := hashText digests (canonicalPresign credentials endpoint timestamp call)
        .ok
          { method := call.method
            url := endpoint.origin ++ percentEncodePath call.path ++ ascii "?" ++
              encodedQuery (presignQuery credentials endpoint timestamp call) ++ ascii "&X-Amz-Signature=" ++
              signature digests credentials endpoint.region timestamp canonicalHash
            headers := (ordered (presignHeaders endpoint call)).filter fun field => field.1 ≠ ascii "host" }

end Entry

/-- The encoding is the runtime's, whose lengths never leave the word for admitted texts. -/
theorem percentEncode_runtime (fits : (percentEncode text).length < 2 ^ 64) :
    UrlEscape.percentEncode false text = some (percentEncode text) := by
  rw [UrlEscape.percentEncode_eq]
  exact if_pos fits

end Align.S3
