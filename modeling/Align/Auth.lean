import Align.Base64Canonical
import Align.HttpResponseHead
import Align.JsonAccess
import Align.Numerals
import Align.Outcomes

/-! Signed claims. `encode_hs256` checks a claims text and signs it; `verify_hs256`
finds the three segments again, checks the signature before it decodes anything else,
and then repeats every check of the claims. The keyed hash is any function of key and
message with 32 bytes of result. -/
namespace Align.Auth
open JsonText JsonDoc JsonAccess Segments Outcomes Option
open Base64 hiding Bytes
open Http (memchr memchr_at memchr_some_split memchr_none memchr_eq_none ascii)

inductive Error where
  | invalid
  | denied
deriving DecidableEq

def HEADER_JSON : Bytes := ascii "\x7b\"alg\":\"HS256\",\"typ\":\"JWT\"\x7d"

def dot : UInt8 := 46

def decimalDigit (byte : UInt8) : Bool := 48 ≤ byte && byte ≤ 57

def base64urlValue (byte : UInt8) : Option Nat :=
  if 65 ≤ byte ∧ byte ≤ 90 then some (byte - 65).toNat
  else if 97 ≤ byte ∧ byte ≤ 122 then some ((byte - 97).toNat + 26)
  else if 48 ≤ byte ∧ byte ≤ 57 then some ((byte - 48).toNat + 52)
  else if byte = 45 then some 62
  else if byte = 95 then some 63
  else none

/-- The loop over the bytes, up to the value of the last one. -/
def canonicalLoop : Bytes → Nat → Option Nat
  | [], lastValue => some lastValue
  | byte :: rest, _ => (base64urlValue byte).bind (canonicalLoop rest)

def canonicalBase64url (text : Bytes) : Bool :=
  if text.length = 0 then false
  else if text.length % 4 = 1 then false
  else match canonicalLoop text 0 with
    | none => false
    | some lastValue =>
        if text.length % 4 = 2 then lastValue % 16 == 0
        else if text.length % 4 = 3 then lastValue % 4 == 0
        else true

def jsonValueBoundary : Option UInt8 → Bool
  | none => true
  | some previous => [32, 9, 10, 13, 91, 123, 44, 58].contains previous

/-- The loop over the bytes; the byte in front stands for the index. -/
def strictLoop : Option UInt8 → Bool → Bool → Bytes → Bool
  | _, _, _, [] => true
  | previous, inString, escaped, byte :: rest =>
      if inString then
        if escaped then strictLoop (some byte) true false rest
        else if byte = 92 then strictLoop (some byte) true true rest
        else if byte = 34 then strictLoop (some byte) false false rest
        else if byte ≤ 31 then false
        else strictLoop (some byte) true false rest
      else if byte = 34 then strictLoop (some byte) true escaped rest
      else if jsonValueBoundary previous ∧ byte = 48 ∧ rest.head?.any decimalDigit then false
      else if jsonValueBoundary previous ∧ byte = 45 ∧ rest.head? = some 48 ∧
        rest.tail.head?.any decimalDigit then false
      else strictLoop (some byte) false escaped rest

def strictJsonLexical (text : Bytes) : Bool := strictLoop none false false text

/-! A document handle. On the tape of a parsed document no access leaves the tape, so
the values for such an access are never taken. -/

structure Doc where
  input : Bytes
  nodes : List DocNode
  node : Int

namespace Doc
variable (d : Doc)

def kind : Nat := docKind d.nodes d.node

def len : Nat := docLen d.nodes d.node

def key (index : Nat) : Option Bytes := (docKey d.input d.nodes d.node index).getD none

def get (want : Bytes) : Doc := { d with node := (docGet d.input d.nodes d.node want).getD (-1) }

def «at» (index : Nat) : Doc := { d with node := (docAt d.nodes d.node index).getD (-1) }

def asStr : Option Bytes := (docAsStr d.input d.nodes d.node).getD none

/-- `str::parse::<i64>`: a sign, at least one digit and nothing else, in range. -/
def parseI64 (text : Bytes) : Option Int :=
  let digits := if text.head? = some 45 ∨ text.head? = some 43 then text.tail else text
  if digits = [] ∨ digits.all decimalDigit = false then none
  else
    let magnitude : Int := Numerals.value 10 0 (digits.map fun digit => (digit - 48).toNat)
    let value := if text.head? = some 45 then -magnitude else magnitude
    if -2 ^ 63 ≤ value ∧ value < 2 ^ 63 then some value else none

def asI64 : Option Int :=
  (docNode d.nodes d.node).bind fun n =>
    if n.kind ≠ DOC_NUMBER then none else (rawSpan d.input n).bind parseI64

end Doc

/-- The first argument bounds the recursion only; a document is at most 129 deep. -/
def uniqueJsonNames : Nat → Doc → Bool
  | 0, _ => false
  | levels + 1, value =>
      if value.kind = DOC_OBJECT then
        (List.range value.len).all fun index =>
          (value.key index).any fun key =>
            ((List.range index).all fun earlier => (value.key earlier).any fun previous => key != previous) &&
              uniqueJsonNames levels (value.at index)
      else if value.kind = DOC_ARRAY then
        (List.range value.len).all fun index => uniqueJsonNames levels (value.at index)
      else true

def jsonObject (value : Doc) : Bool := value.kind == DOC_OBJECT

def jsonMissing (value : Doc) : Bool := value.kind == DOC_MISSING

def optionalStringEquals (value : Option Bytes) (expected : Bytes) : Bool := value.any (· == expected)

section Model
variable (utf8 : Utf8Validate.Target) (codec : Simd.Target) (levels : Nat)
  (hmacSha256 : Bytes → Bytes → Vector UInt8 32)

def claimsAreValid (document : Doc) : Bool :=
  if !jsonObject document || !uniqueJsonNames (levels + 2) document then false
  else if !jsonMissing (document.get (ascii "exp")) && (document.get (ascii "exp")).asI64.isNone then false
  else if !jsonMissing (document.get (ascii "nbf")) && (document.get (ascii "nbf")).asI64.isNone then false
  else true

def claimsAdmitTime (document : Doc) (nowS : Int) : Bool :=
  let exp := document.get (ascii "exp")
  let expOk := match exp.asI64 with
    | some expires => decide (nowS < expires)
    | none => jsonMissing exp
  if !expOk then false
  else
    let nbf := document.get (ascii "nbf")
    match nbf.asI64 with
    | some notBefore => decide (nowS ≥ notBefore)
    | none => jsonMissing nbf

/-- `encoding.base64url_encode`, whose size check never fails. -/
def base64url (data : Bytes) : Bytes := (base64urlEncode codec data).getD []

def encodeHs256 (claimsJson key : Bytes) : Except Error Bytes :=
  if key.length < 32 ∨ 8192 < claimsJson.length then .error .invalid
  else if strictJsonLexical claimsJson = false then .error .invalid
  else match docParse utf8 claimsJson with
    | none => .error .invalid
    | some nodes =>
        if claimsAreValid levels ⟨claimsJson, nodes, 0⟩ = false then .error .invalid
        else
          let header := base64url codec HEADER_JSON
          let payload := base64url codec claimsJson
          let signingInput := header ++ (dot :: payload)
          .ok (signingInput ++ (dot :: base64url codec (hmacSha256 key signingInput).toList))

/-- Where the two dots stand, or not exactly two, or an empty segment. -/
def findSegments (token : Bytes) : Option (Nat × Nat) :=
  (memchr dot token).bind fun first =>
    if first = 0 then none
    else (memchr dot (token.drop (first + 1))).bind fun relativeSecond =>
      if relativeSecond = 0 then none
      else
        let second := first + 1 + relativeSecond
        let third := (memchr dot (token.drop (second + 1))).isSome
        if token.length ≤ second + 1 ∨ third = true then none else some (first, second)

/-- The text of a decoded segment as a document. -/
def openText (text : Bytes) : Except Error Doc :=
  if Utf8Validate.validateUtf8 utf8 text = false then .error .invalid
  else if strictJsonLexical text = false then .error .invalid
  else match docParse utf8 text with
    | none => .error .invalid
    | some nodes => .ok ⟨text, nodes, 0⟩

def headerPolicy (document : Doc) : Except Error Bool :=
  if !jsonObject document || !uniqueJsonNames (levels + 2) document then .error .invalid
  else if optionalStringEquals (document.get (ascii "alg")).asStr (ascii "HS256") = false then .ok false
  else
    let typ := document.get (ascii "typ")
    let typeOk := jsonMissing typ || optionalStringEquals typ.asStr (ascii "JWT")
    .ok (typeOk && jsonMissing (document.get (ascii "crit")))

def payloadText (payloadSegment : Bytes) (nowS : Int) : Except Error Bytes :=
  match base64DecodeImpl payloadSegment true with
  | none => .error .invalid
  | some payload =>
      if 8192 < payload.length then .error .invalid
      else (openText utf8 payload).bind fun document =>
        if claimsAreValid levels document = false then .error .invalid
        else if claimsAdmitTime document nowS = false then .error .denied
        else .ok payload

/-- What follows the check of the signature. -/
def verifyContent (headerSegment payloadSegment : Bytes) (nowS : Int) : Except Error Bytes :=
  match base64DecodeImpl headerSegment true with
  | none => .error .invalid
  | some header =>
      (openText utf8 header).bind fun document =>
        (headerPolicy levels document).bind fun policy =>
          if policy = false then .error .denied else payloadText utf8 levels payloadSegment nowS

def verifyHs256 (token key : Bytes) (nowNs : Int) : Except Error Bytes :=
  if key.length < 32 ∨ nowNs < 0 ∨ token.length = 0 ∨ 16384 < token.length then .error .invalid
  else match findSegments token with
    | none => .error .invalid
    | some (first, second) =>
        let headerSegment := token.take first
        let payloadSegment := slice token (first + 1) second
        let signatureText := token.drop (second + 1)
        if !canonicalBase64url headerSegment || !canonicalBase64url payloadSegment ||
          !canonicalBase64url signatureText then .error .invalid
        else match base64DecodeImpl signatureText true with
          | none => .error .invalid
          | some signature =>
              if signature.length ≠ 32 then .error .invalid
              else if signature ≠ (hmacSha256 key (token.take second)).toList then .error .denied
              else verifyContent utf8 levels headerSegment payloadSegment (nowNs / 1000000000)

end Model

theorem base64urlValue_some {value : Nat} (read : base64urlValue byte = some value) :
    value < 64 ∧ base64Url.symbol value = byte := by
  revert value
  revert byte
  apply Utf8Validate.byte_cases
  have table : ∀ n : Fin 256, (base64urlValue (UInt8.ofNat n)).all (fun value =>
    value < 64 && base64Url.symbol value == UInt8.ofNat n) = true := by decide +kernel
  intro n value read
  have entry := table n
  rw [read, all_some, Bool.and_eq_true, decide_eq_true_eq, beq_iff_eq] at entry
  exact entry

theorem base64urlValue_symbol (inside : i < 64) :
    base64urlValue (base64Url.symbol i) = some i := by
  have table : ∀ i < 64, base64urlValue (base64Url.symbol i) = some i := by decide +kernel
  exact table i inside

theorem base64urlValue_eq :
    (tableValue base64Url byte = 0xFF ∧ base64urlValue byte = none) ∨
      (tableValue base64Url byte).toNat < 64 ∧
        base64urlValue byte = some (tableValue base64Url byte).toNat := by
  by_cases foreign : tableValue base64Url byte = 0xFF
  · refine Or.inl ⟨foreign, eq_none_iff_forall_ne_some.mpr fun value read => ?_⟩
    rcases base64urlValue_some read with ⟨inside, rfl⟩
    have number := tableValue_toNat base64Url inside
    exact small_valid _ (by omega) foreign
  · rcases tableValue_found foreign with ⟨inside, symbol⟩
    refine Or.inr ⟨inside, ?_⟩
    nth_rewrite 1 [← symbol]
    exact base64urlValue_symbol inside

/-- What the checks behind the loop ask of the last value. -/
def lastOk (length lastValue : Nat) : Bool :=
  if length % 4 = 2 then lastValue % 16 == 0
  else if length % 4 = 3 then lastValue % 4 == 0
  else length % 4 != 1

theorem masked_zero (byte : UInt8) :
    (byte &&& 0x0F = 0 ↔ byte.toNat % 16 = 0) ∧ (byte &&& 0x03 = 0 ↔ byte.toNat % 4 = 0) := by
  rcases Transcode.masks _ with ⟨_, _, _, low, two, _⟩
  rw [← UInt8.toNat_inj, ← UInt8.toNat_inj, low, two]
  exact ⟨Iff.rfl, Iff.rfl⟩

/-- Every byte is a symbol, and the loop reads its value. -/
def Clean (text : Bytes) : Prop :=
  ∀ byte ∈ text, (tableValue base64Url byte).toNat < 64 ∧
    base64urlValue byte = some (tableValue base64Url byte).toNat

theorem clean_of_loop (before : Nat) (ran : canonicalLoop text before = some last) :
    Clean text := by
  induction text generalizing before with
  | nil => exact fun byte member => absurd member List.not_mem_nil
  | cons byte rest ih =>
    rcases bind_eq_some_iff.mp ran with ⟨value, read, later⟩
    intro other member
    rcases List.mem_cons.mp member with rfl | inside
    · rcases base64urlValue_eq with ⟨_, none_⟩ | here
      · rw [read] at none_
        cases none_
      · exact here
    · exact ih value later other inside

theorem clean_of_decoded (decoded : decodeContent (tableValue base64Url) text = some data) : Clean text := by
  intro byte member
  rw [decodeContent_sound decoded] at member
  rcases List.getElem_of_mem (encodeGroups_symbols member) with ⟨i, bound, symbol⟩
  have here : base64Url.symbol i = byte := by
    rw [Alphabet.symbol, List.getD_eq_getElem _ _ (by rw [base64Url.size]; exact bound), symbol]
  have number := tableValue_toNat base64Url bound
  rw [here] at number
  rw [number]
  exact ⟨bound, here ▸ base64urlValue_symbol bound⟩

/-- On symbols the check passes where the decoder does; the induction takes four at a
time. -/
theorem clean_decodes (text : Bytes) (before : Nat) (clean : Clean text) :
    (canonicalLoop text before).any (lastOk text.length) =
      (decodeContent (tableValue base64Url) text).isSome := by
  match text with
  | [] => rfl
  | [a] =>
    rw [decodeContent_short _ (by simp)]
    change ((base64urlValue a).bind some).any (lastOk 1) = false
    rw [(clean a (by simp)).2]
    rfl
  | [a, b] =>
    have first := clean a (by simp)
    have second := clean b (by simp)
    have valid := small_valid _ (or_small first.1 second.1)
    rw [decodeContent_short _ (by simp)]
    change ((base64urlValue a).bind fun _ => (base64urlValue b).bind some).any (lastOk 2) = _
    rw [first.2, second.2]
    by_cases zero : tableValue base64Url b &&& 0x0F = 0
    · have even := (masked_zero _).1.mp zero
      simp [decodeTail, lastOk, valid, zero, even]
    · have odd := mt (masked_zero _).1.mpr zero
      simp [decodeTail, lastOk, zero, odd]
  | [a, b, c] =>
    have first := clean a (by simp)
    have second := clean b (by simp)
    have third := clean c (by simp)
    have valid := small_valid _ (or_small (or_small first.1 second.1) third.1)
    rw [decodeContent_short _ (by simp)]
    change ((base64urlValue a).bind fun _ => (base64urlValue b).bind fun _ =>
      (base64urlValue c).bind some).any (lastOk 3) = _
    rw [first.2, second.2, third.2]
    by_cases zero : tableValue base64Url c &&& 0x03 = 0
    · have even := (masked_zero _).2.mp zero
      simp [decodeTail, lastOk, valid, zero, even]
    · have odd := mt (masked_zero _).2.mpr zero
      simp [decodeTail, lastOk, zero, odd]
  | a :: b :: c :: d :: rest =>
    have first := clean a (by simp)
    have second := clean b (by simp)
    have third := clean c (by simp)
    have fourth := clean d (by simp)
    have next := clean_decodes rest (tableValue base64Url d).toNat fun byte member =>
      clean byte (by simp [member])
    have valid := small_valid _ (or_small (or_small (or_small first.1 second.1) third.1) fourth.1)
    have four : lastOk (a :: b :: c :: d :: rest).length = lastOk rest.length := by
      funext last
      simp only [lastOk, List.length_cons, Nat.add_assoc, Nat.reduceAdd, Nat.add_mod_right]
    rw [decodeContent_cons, if_neg valid, isSome_map, four, ← next]
    change ((base64urlValue a).bind fun _ => (base64urlValue b).bind fun _ =>
      (base64urlValue c).bind fun _ => (base64urlValue d).bind (canonicalLoop rest)).any _ = _
    rw [first.2, second.2, third.2, fourth.2]
    rfl

theorem canonicalBase64url_eq (text : Bytes) :
    canonicalBase64url text = (!text.isEmpty && (canonicalLoop text 0).any (lastOk text.length)) := by
  rw [canonicalBase64url]
  cases text with
  | nil => rfl
  | cons byte rest =>
    cases canonicalLoop (byte :: rest) 0 with
    | none => simp
    | some last =>
      simp only [lastOk, any_some, List.isEmpty_cons, Bool.not_false, Bool.true_and]
      split_ifs <;> simp_all

def segment (data : Bytes) : Bytes := encodeGroups base64Url false data

theorem canonical_iff (text : Bytes) :
    canonicalBase64url text = true ↔ ∃ data, data ≠ [] ∧ text = segment data := by
  rw [canonicalBase64url_eq, Bool.and_eq_true, Bool.not_eq_true', List.isEmpty_eq_false_iff]
  constructor
  · rintro ⟨some_, passes⟩
    rcases (any_eq_true_iff_get ..).mp passes with ⟨ran, _⟩
    rw [clean_decodes _ 0 (clean_of_loop 0 (some_get ran).symm)] at passes
    rcases isSome_iff_exists.mp passes with ⟨data, decoded⟩
    have shape := decodeContent_sound decoded
    refine ⟨data, ?_, shape⟩
    rintro rfl
    exact some_ shape
  · rintro ⟨data, some_, rfl⟩
    have decoded : decodeContent (tableValue base64Url) (segment data) = some data :=
      decodeContent_complete _ _
    refine ⟨fun empty => ?_, ?_⟩
    · rw [empty] at decoded
      exact some_ (Option.some.inj decoded).symm
    · rw [clean_decodes _ 0 (clean_of_decoded decoded), decoded]
      rfl

theorem base64url_eq (codec : Simd.Target) (data : Bytes) :
    base64url codec data = segment data := by
  rw [base64url, base64urlEncode, encodeInto_exact]
  rfl

theorem base64url_dots : dot ∉ segment data := by
  intro member
  have symbol := encodeGroups_symbols member
  revert symbol
  decide

theorem decode_base64url (data : Bytes) :
    base64DecodeImpl (segment data) true = some data :=
  (decode_iff _ _ _).mpr ⟨false, rfl⟩

theorem base64url_length (data : Bytes) :
    (segment data).length ≤ data.length / 3 * 4 + 4 := by
  rw [segment, encodeGroups_length]
  unfold base64EncodedLen
  split <;> omega

def tokenOf (header payload signature : Bytes) : Bytes :=
  header ++ dot :: payload ++ dot :: signature

section Segments
variable (header payload signature : Bytes)

theorem tokenOf_drop :
    (tokenOf header payload signature).drop (header.length + 1) = payload ++ dot :: signature := by
  rw [tokenOf, ← List.drop_drop, List.append_assoc, List.drop_left]
  rfl

theorem tokenOf_take :
    (tokenOf header payload signature).take (header.length + 1 + payload.length) =
      header ++ dot :: payload := by
  apply List.take_left'
  rw [List.length_append, List.length_cons]
  omega

theorem tokenOf_last :
    (tokenOf header payload signature).drop (header.length + 1 + payload.length + 1) = signature := by
  rw [Nat.add_assoc, ← List.drop_drop, tokenOf_drop, ← List.drop_drop, List.drop_left]
  rfl

variable {header payload : Bytes} (first : dot ∉ header) (second : dot ∉ payload)
include first second

theorem findSegments_at :
    findSegments (tokenOf header payload signature) =
      if header = [] ∨ payload = [] ∨ signature = [] ∨ dot ∈ signature then none
      else some (header.length, header.length + 1 + payload.length) := by
  have short : (tokenOf header payload signature).length ≤ header.length + 1 + payload.length + 1 ↔
    signature = [] := by
    rw [← List.length_eq_zero_iff, tokenOf]
    simp only [List.length_append, List.length_cons]
    omega
  have third : (memchr dot signature).isSome = true ↔ dot ∈ signature := by
    cases hit : memchr dot signature with
    | none => simp [memchr_none hit]
    | some at_ =>
      rcases memchr_some_split hit with ⟨before, after, rfl, _, _⟩
      simp
  have found : memchr dot (tokenOf header payload signature) = some header.length := by
    rw [tokenOf, List.append_assoc]
    exact memchr_at first _
  rw [findSegments, found, bind_some, tokenOf_drop, memchr_at second, bind_some]
  dsimp only
  rw [tokenOf_last]
  simp only [List.length_eq_zero_iff, short, third]
  by_cases none_ : header = []
  · rw [if_pos none_, if_pos (Or.inl none_)]
  · by_cases bare : payload = []
    · rw [if_neg none_, if_pos bare, if_pos (Or.inr (Or.inl bare))]
    · simp only [none_, bare, false_or, if_false]

theorem verify_at (utf8 : Utf8Validate.Target) (levels : Nat)
    (hmacSha256 : Bytes → Bytes → Vector UInt8 32) (key : Bytes) (nowNs : Int) :
    verifyHs256 utf8 levels hmacSha256 (tokenOf header payload signature) key nowNs =
      if key.length < 32 ∨ nowNs < 0 ∨ 16384 < (tokenOf header payload signature).length then
        .error .invalid
      else if dot ∈ signature ∨ (!canonicalBase64url header || !canonicalBase64url payload ||
        !canonicalBase64url signature) then .error .invalid
      else match base64DecodeImpl signature true with
        | none => .error .invalid
        | some tag =>
            if tag.length ≠ 32 then .error .invalid
            else if tag ≠ (hmacSha256 key (header ++ dot :: payload)).toList then .error .denied
            else verifyContent utf8 levels header payload (nowNs / 1000000000) := by
  have empty : canonicalBase64url [] = false := rfl
  have filled : (tokenOf header payload signature).length ≠ 0 := by simp [tokenOf]
  have start : (tokenOf header payload signature).take header.length = header := by
    rw [tokenOf, List.append_assoc, List.take_left]
  have middle : slice (tokenOf header payload signature) (header.length + 1)
    (header.length + 1 + payload.length) = payload := by
    rw [slice, tokenOf_drop, Nat.add_sub_cancel_left, List.take_left]
  rw [verifyHs256, findSegments_at _ first second]
  simp only [filled, false_or]
  by_cases early : key.length < 32 ∨ nowNs < 0 ∨ 16384 < (tokenOf header payload signature).length
  · rw [if_pos early, if_pos early]
  rw [if_neg early, if_neg early]
  by_cases bad : header = [] ∨ payload = [] ∨ signature = [] ∨ dot ∈ signature
  · rw [if_pos bad, if_pos]
    rcases bad with rfl | rfl | rfl | more
    · simp [empty]
    · simp [empty]
    · simp [empty]
    · exact Or.inl more
  · rw [if_neg bad]
    dsimp only
    rw [start, middle, tokenOf_last, tokenOf_take]
    have clear : ¬ dot ∈ signature := fun more => bad (.inr (.inr (.inr more)))
    simp only [clear, false_or]

end Segments

def headerTape : List DocNode :=
  [⟨DOC_OBJECT, 5, 2, 0⟩, ⟨DOC_STR, 2, 2, 3⟩, ⟨DOC_STR, 3, 8, 5⟩, ⟨DOC_STR, 4, 16, 3⟩, ⟨DOC_STR, 5, 22, 3⟩]

def headerDocument : Doc := ⟨HEADER_JSON, headerTape, 0⟩

theorem header_names (levels : Nat) : uniqueJsonNames (levels + 2) headerDocument = true := by
  have kind : headerDocument.kind = DOC_OBJECT := by decide +kernel
  have len : headerDocument.len = 2 := by decide +kernel
  have keys : headerDocument.key 0 = some (ascii "alg") ∧ headerDocument.key 1 = some (ascii "typ") := by
    decide +kernel
  have inner : ∀ index < 2, (headerDocument.at index).kind = DOC_MISSING := by decide +kernel
  have missing : ∀ index < 2, uniqueJsonNames (levels + 1) (headerDocument.at index) = true := by
    intro index inside
    rfl
  have differ : (ascii "typ" != ascii "alg") = true := by decide +kernel
  rw [uniqueJsonNames, if_pos kind, len]
  simp [List.range_succ, keys.1, keys.2, missing, differ]

theorem header_accepted (utf8 : Utf8Validate.Target) (levels : Nat) :
    openText utf8 HEADER_JSON = .ok headerDocument ∧ headerPolicy levels headerDocument = .ok true := by
  have valid : Utf8Validate.validateUtf8 utf8 HEADER_JSON = true :=
    (Utf8Validate.selected_exact _ _).mpr (Utf8Validate.ascii_valid _ (by decide))
  have strict : strictJsonLexical HEADER_JSON = true := by decide +kernel
  have built : value HEADER_JSON.length (2 * HEADER_JSON.length + 1) 0 HEADER_JSON [] =
    some ([], headerTape) := by decide +kernel
  have parsed : docParse utf8 HEADER_JSON = some headerTape := by
    rw [docParse, if_neg (by decide), if_neg (not_not.mpr valid), built]
    rfl
  constructor
  · simp only [openText, valid, strict, parsed, Bool.true_eq_false, if_false]
    rfl
  · have object : jsonObject headerDocument = true := by decide +kernel
    have alg : optionalStringEquals (headerDocument.get (ascii "alg")).asStr (ascii "HS256") = true := by
      decide +kernel
    have others : (jsonMissing (headerDocument.get (ascii "typ")) ||
      optionalStringEquals (headerDocument.get (ascii "typ")).asStr (ascii "JWT")) = true ∧
        jsonMissing (headerDocument.get (ascii "crit")) = true := by decide +kernel
    simp [headerPolicy, object, header_names _, alg, others.1, others.2]

/-- The integer a member of the claims spells. -/
def claimTime (tree : Json Bytes) (name : Bytes) : Option Int :=
  match treeGet name (some tree) with
  | some (.number text) => Doc.parseI64 text
  | _ => none

def InWindow (tree : Json Bytes) (nowS : Int) : Prop :=
  (∀ exp, claimTime tree (ascii "exp") = some exp → nowS < exp) ∧
    ∀ nbf, claimTime tree (ascii "nbf") = some nbf → nbf ≤ nowS

section Times
variable {claims : Bytes} {nodes : List DocNode} {tree : Json Bytes}
  (denotes : Denotes claims nodes 0 (some tree))
include denotes

theorem member_agrees (name : Bytes) :
    jsonMissing (Doc.get ⟨claims, nodes, 0⟩ name) = (treeGet name (some tree)).isNone ∧
      (Doc.get ⟨claims, nodes, 0⟩ name).asI64 = claimTime tree name := by
  obtain ⟨node, got, stands⟩ := get_denotes denotes
  have handle : Doc.get ⟨claims, nodes, 0⟩ name = ⟨claims, nodes, node⟩ := by
    rw [Doc.get, got, getD_some]
  have kind := kind_agrees stands
  rw [handle, jsonMissing, Doc.kind, Doc.asI64, claimTime]
  rw [kind]
  rcases member : treeGet name (some tree) with _ | j
  · rw [member] at stands
    cases stands
    exact ⟨rfl, rfl⟩
  rw [member] at stands
  obtain ⟨i, rfl, n, seg, holds, placed⟩ := stands
  obtain ⟨m, layer⟩ := seg_layer _ holds
  rw [docNode_at]
  cases layer with
  | number a b inside =>
    refine ⟨rfl, ?_⟩
    rw [placed_head _ placed, bind_some, if_neg (not_not.mpr rfl), rawSpan, if_pos inside]
    rfl
  | null | bool v | string a b text inside ok | array segs js items | object segs ms items =>
    refine ⟨rfl, ?_⟩
    rw [placed_head _ placed]
    rfl

theorem window_agrees (levels : Nat) (valid : claimsAreValid levels ⟨claims, nodes, 0⟩ = true) (nowS : Int) :
    claimsAdmitTime ⟨claims, nodes, 0⟩ nowS = true ↔ InWindow tree nowS := by
  have exps := member_agrees denotes (ascii "exp")
  have nbfs := member_agrees denotes (ascii "nbf")
  simp only [claimsAreValid, claimsAdmitTime, InWindow, exps.1, exps.2, nbfs.1, nbfs.2] at valid ⊢
  generalize (treeGet (ascii "exp") (some tree)).isNone = noExp at valid ⊢
  generalize (treeGet (ascii "nbf") (some tree)).isNone = noNbf at valid ⊢
  generalize claimTime tree (ascii "exp") = exp at valid ⊢
  generalize claimTime tree (ascii "nbf") = nbf at valid ⊢
  -- a member that is present is an integer
  cases exp with
  | none =>
    cases nbf with
    | none => simp_all
    | some nbf => simp_all
  | some exp =>
    cases nbf with
    | none => simp_all
    | some nbf => simp

end Times

section Tokens
variable (utf8 : Utf8Validate.Target) (codec : Simd.Target) (levels : Nat)
  (hmacSha256 : Bytes → Bytes → Vector UInt8 32) {claims key token : Bytes}

theorem encode_ok (encoded : encodeHs256 utf8 codec levels hmacSha256 claims key = .ok token) :
    32 ≤ key.length ∧ claims.length ≤ 8192 ∧ claims ≠ [] ∧ strictJsonLexical claims = true ∧
      ∃ nodes, docParse utf8 claims = some nodes ∧ claimsAreValid levels ⟨claims, nodes, 0⟩ = true ∧
        token = tokenOf (segment HEADER_JSON) (segment claims)
          (segment (hmacSha256 key (segment HEADER_JSON ++
            dot :: segment claims)).toList) := by
  rw [encodeHs256, refuse_ok, refuse_ok] at encoded
  rcases encoded with ⟨sizes, strict, signed⟩
  rcases parsed : docParse utf8 claims with _ | nodes
  · rw [parsed] at signed
    cases signed
  simp only [parsed, refuse_ok, base64url_eq, Except.ok.injEq] at signed
  refine ⟨by omega, by omega, ?_, Bool.eq_true_of_not_eq_false strict, nodes, rfl,
    Bool.eq_true_of_not_eq_false signed.1, signed.2.symm⟩
  rintro rfl
  have stuck : value 0 1 0 [] [] = none := by
    rw [value]
    decide
  rw [docParse, if_neg (by decide),
    if_neg (not_not.mpr (show Utf8Validate.validateUtf8 utf8 [] = true from rfl))] at parsed
  cases stuck.symm.trans (bind_eq_some_iff.mp parsed).choose_spec.1

theorem content_ok (small : claims.length ≤ 8192)
    (strict : strictJsonLexical claims = true) (parsed : docParse utf8 claims = some nodes)
    (valid : claimsAreValid levels ⟨claims, nodes, 0⟩ = true) :
    verifyContent utf8 levels (segment HEADER_JSON)
        (segment claims) nowS =
      if claimsAdmitTime ⟨claims, nodes, 0⟩ nowS = false then .error .denied else .ok claims := by
  have text := (Utf8Validate.selected_exact utf8 _).mpr (docParse_sound parsed).2.1
  have opened : openText utf8 claims = .ok ⟨claims, nodes, 0⟩ := by
    simp only [openText, text, strict, parsed, Bool.true_eq_false, if_false]
  have header := header_accepted utf8 levels
  rw [verifyContent, decode_base64url]
  dsimp only
  rw [header.1, Except.bind, header.2, Except.bind, if_neg (by decide), payloadText, decode_base64url]
  dsimp only
  rw [if_neg (by omega), opened, Except.bind, if_neg (by rw [valid]; decide)]

theorem canonical_base64url (some_ : data ≠ []) :
    canonicalBase64url (segment data) = true :=
  (canonical_iff _).mpr ⟨data, some_, rfl⟩

theorem verify_encoded (encoded : encodeHs256 utf8 codec levels hmacSha256 claims key = .ok token) :
    ∃ nodes, docParse utf8 claims = some nodes ∧ claimsAreValid levels ⟨claims, nodes, 0⟩ = true ∧
      ∀ nowNs, 0 ≤ nowNs → verifyHs256 utf8 levels hmacSha256 token key nowNs =
        if claimsAdmitTime ⟨claims, nodes, 0⟩ (nowNs / 1000000000) = false then .error .denied
        else .ok claims := by
  rcases encode_ok _ _ _ _ encoded with
    ⟨long, small, some_, strict, nodes, parsed, valid, rfl⟩
  refine ⟨nodes, parsed, valid, fun nowNs later => ?_⟩
  generalize signed : hmacSha256 key (segment HEADER_JSON ++ dot :: segment claims) = tag
  have size : tag.toList.length = 32 := Vector.length_toList
  have nonempty : tag.toList ≠ [] := fun empty => by rw [empty] at size; cases size
  have short : ¬ 16384 < (tokenOf (segment HEADER_JSON) (segment claims) (segment tag.toList)).length := by
    have header := base64url_length HEADER_JSON
    have payload := base64url_length claims
    have signature := base64url_length tag.toList
    rw [show HEADER_JSON.length = 27 by decide] at header
    simp only [tokenOf, List.length_append, List.length_cons]
    omega
  have canonical : (!canonicalBase64url (segment HEADER_JSON) || !canonicalBase64url (segment claims) ||
      !canonicalBase64url (segment tag.toList)) = false := by
    rw [canonical_base64url (by decide), canonical_base64url some_, canonical_base64url nonempty]
    rfl
  rw [verify_at _ (base64url_dots) (base64url_dots), if_neg (by omega), if_neg, decode_base64url]
  · dsimp only
    rw [if_neg (not_not.mpr size), signed, if_neg (not_not.mpr rfl)]
    exact content_ok _ _ small strict parsed valid
  · rintro (more | bad)
    · exact base64url_dots more
    · rw [canonical] at bad
      cases bad

theorem signature_unique {header payload signature : Bytes} (first : dot ∉ header) (second : dot ∉ payload)
    (accepted : verifyHs256 utf8 levels hmacSha256 (tokenOf header payload signature) key nowNs = .ok claims) :
    signature = segment (hmacSha256 key (header ++ dot :: payload)).toList := by
  rw [verify_at _ first second, refuse_ok, refuse_ok] at accepted
  rcases accepted with ⟨_, checks, checked⟩
  have spelled : canonicalBase64url signature = true := by
    simp only [Bool.or_eq_true, not_or, Bool.not_eq_true, Bool.not_eq_false'] at checks
    exact checks.2.2
  rcases (canonical_iff _).mp spelled with ⟨data, _, rfl⟩
  rw [decode_base64url] at checked
  simp only [refuse_ok, not_not] at checked
  rw [checked.2.1]

/-- Round trip and uniqueness of the signature; times are nanoseconds, compared by
their whole seconds. -/
theorem tokens_exact :
    (∀ claims key token, encodeHs256 utf8 codec levels hmacSha256 claims key = .ok token →
      ∃ tree, Text Body MAX_DEPTH tree claims ∧ ∀ nowNs,
        (nowNs < 0 → verifyHs256 utf8 levels hmacSha256 token key nowNs = .error .invalid) ∧
        (0 ≤ nowNs → InWindow tree (nowNs / 1000000000) →
          verifyHs256 utf8 levels hmacSha256 token key nowNs = .ok claims) ∧
        (0 ≤ nowNs → ¬ InWindow tree (nowNs / 1000000000) →
          verifyHs256 utf8 levels hmacSha256 token key nowNs = .error .denied)) ∧
    (∀ key header payload first second now now' claims claims', dot ∉ header → dot ∉ payload →
      verifyHs256 utf8 levels hmacSha256 (tokenOf header payload first) key now = .ok claims →
      verifyHs256 utf8 levels hmacSha256 (tokenOf header payload second) key now' = .ok claims' →
      first = second) ∧
    ∀ text, canonicalBase64url text = true ↔
      ∃ data, data ≠ [] ∧ text = segment data := by
  refine ⟨?_, ?_, canonical_iff⟩
  · intro claims key token encoded
    rcases verify_encoded utf8 codec levels hmacSha256 encoded with ⟨nodes, parsed, valid, result⟩
    rcases docParse_sound parsed with ⟨small, text, tree, spells⟩
    rcases docParse_complete utf8 small text spells with ⟨nodes', parsed', holds⟩
    rw [parsed] at parsed'
    cases parsed'
    have window := window_agrees (tape_denotes holds) levels valid
    refine ⟨tree, spells, fun nowNs => ⟨fun early => ?_, fun later inside => ?_, fun later outside => ?_⟩⟩
    · rw [verifyHs256, if_pos (Or.inr (Or.inl early))]
    · rw [result _ later, (window _).mpr inside]
      rfl
    · rw [result _ later, if_pos (Bool.eq_false_iff.mpr fun admitted => outside ((window _).mp admitted))]
  · intro key header payload first second now now' claims claims' clear clear' accepted accepted'
    rw [signature_unique utf8 levels hmacSha256 clear clear' accepted,
      signature_unique utf8 levels hmacSha256 clear clear' accepted']

end Tokens

/-- Claims without times hold at every time, but before the epoch no token is read. -/
theorem negative_time_is_invalid :
    Text Body MAX_DEPTH (.object []) [openBrace, closeBrace] ∧
      ∃ token, encodeHs256 .other .other 0 (fun _ _ => Vector.replicate 32 0) [openBrace, closeBrace]
          (List.replicate 32 0) = .ok token ∧
        InWindow (.object []) (-1) ∧
        verifyHs256 .other 0 (fun _ _ => Vector.replicate 32 0) token (List.replicate 32 0) (-1000000000) =
          .error .invalid := by
  have encoded : (encodeHs256 .other .other 0 (fun _ _ => Vector.replicate 32 0) [openBrace, closeBrace]
    (List.replicate 32 0)).isOk = true := by decide +kernel
  have spelled : Value Body (127 + 1) (.object []) [openBrace, closeBrace] := .emptyObject [] ws_nil
  refine ⟨⟨[], _, [], ws_nil, spelled, ws_nil, rfl⟩, ?_⟩
  cases signed : encodeHs256 .other .other 0 (fun _ _ => Vector.replicate 32 0) [openBrace, closeBrace]
    (List.replicate 32 0) with
  | error e =>
    rw [signed] at encoded
    cases encoded
  | ok token =>
    refine ⟨token, rfl, ⟨nofun, nofun⟩, ?_⟩
    rw [verifyHs256, if_pos (Or.inr (Or.inl (by decide)))]

end Align.Auth
