import Align.HttpRequestScan
import Align.Numerals
import Align.Outcomes
import Align.Utf8

/-! The client's request on the wire. A request is built by calls that admit
each header separately, rendered by one serializer, and read back by the server's
head scan. The scan recovers exactly what the builder holds when, and only when,
every caller name is a token the scan admits and the fields fit its table. -/
namespace Align.Http
open Segments Numerals List

structure HttpRequest where
  method : Bytes
  url : Bytes
  headers : List (Bytes × Bytes)
  body : Bytes
  bodyPresent : Bool
deriving DecidableEq, Repr

def httpRequestNew (method url : Bytes) : HttpRequest :=
  { method := Utf8.fromUtf8Lossy method, url := Utf8.fromUtf8Lossy url
    headers := [], body := [], bodyPresent := false }

/-- `none` is the abort on an inadmissible header. -/
def httpHeader (r : HttpRequest) (name value : Bytes) : Option HttpRequest :=
  if name.isEmpty then none
  else if !httpFieldIsClean name then none
  else if !httpFieldIsClean value then none
  else some
    { r with headers := r.headers ++ [(Utf8.fromUtf8Lossy name, Utf8.fromUtf8Lossy value)] }

def httpBody (r : HttpRequest) (data : Bytes) : HttpRequest :=
  { r with body := data, bodyPresent := true }

inductive Call where
  | header (name value : Bytes)
  | body (data : Bytes)

def Call.apply (r : HttpRequest) : Call → Option HttpRequest
  | .header name value => httpHeader r name value
  | .body data => some (httpBody r data)

def build (method url : Bytes) (calls : List Call) : Option HttpRequest :=
  calls.foldlM Call.apply (httpRequestNew method url)

def httpPushDecimal (n : Nat) : Bytes := (numeral 10 20 n []).map fun d => UInt8.ofNat (48 + d)

def httpContentLengthPrefix : Bytes := ascii "Content-Length: "

def fieldBytes (field : Bytes × Bytes) : Bytes :=
  field.1 ++ [colon, blank] ++ field.2 ++ [cr, lf]

def spanText (src : Bytes) (span : HttpHeaderSpan) : Bytes × Bytes :=
  (slice src span.nameStart (span.nameStart + span.nameLen),
    slice src span.valueStart (span.valueStart + span.valueLen))

variable {count : Nat} {after previous : Option Nat}

namespace HttpRequestHeadScan

variable (src : Bytes) (fuel : Nat)

structure Legal (field : Bytes × Bytes) : Prop where
  token : httpIsToken field.1 = true
  clean : httpFieldIsClean field.2 = true

/-- A field that says nothing about the body's length. -/
structure Plain (field : Bytes × Bytes) : Prop extends Legal field where
  length : eqIgnoreAsciiCase field.1 (ascii "content-length") = false
  coding : eqIgnoreAsciiCase field.1 (ascii "transfer-encoding") = false

/-- The name of an accepted field is a token and asks for no transfer coding. -/
def Admits (src : Bytes) (span : HttpHeaderSpan) : Prop :=
  httpIsToken (spanText src span).1 = true ∧
    eqIgnoreAsciiCase (spanText src span).1 (ascii "transfer-encoding") = false

structure Admitted (src : Bytes) (scan : HttpRequestHeadScan) : Prop where
  names : ∀ span ∈ scan.headers, Admits src span
  count : scan.headers.length ≤ httpMaxHeaders

end HttpRequestHeadScan

/-! The builder, the lengths and the whole wire. -/

theorem fromUtf8Lossy_clean (clean : httpFieldIsClean s = true) :
    httpFieldIsClean (Utf8.fromUtf8Lossy s) = true := by
  have bytes := (httpFieldIsClean_iff s).mp clean
  rw [httpFieldIsClean_iff]
  intro b inside
  have marks : httpFieldIsClean Utf8.replacement = true := by decide
  rcases Utf8.lossy_mem _ [] s inside with none_ | here | mark
  · cases none_
  · exact bytes b here
  · exact (httpFieldIsClean_iff _).mp marks b mark

theorem build_keeps {method : Bytes} {r : HttpRequest} (built : build method url calls = some r) :
    r.url = Utf8.fromUtf8Lossy url ∧ ∀ h ∈ r.headers, httpFieldIsClean h.2 = true := by
  refine Outcomes.foldlM_some_keeps (fun r : HttpRequest => r.url = Utf8.fromUtf8Lossy url ∧
    ∀ h ∈ r.headers, httpFieldIsClean h.2 = true) ?_ _ _ r ?_ built
  · intro s call t before done
    cases call with
    | body data =>
      cases done
      exact before
    | header name value =>
      simp only [Call.apply, httpHeader, Option.ite_none_left_eq_some, Bool.not_eq_true', Bool.not_eq_false,
        Option.some.injEq] at done
      rcases done with ⟨_, _, clean, rfl⟩
      refine ⟨before.1, fun h inside => ?_⟩
      rcases mem_append.mp inside with old | new_
      · exact before.2 h old
      · rw [mem_singleton.mp new_]
        exact fromUtf8Lossy_clean clean
  · exact ⟨rfl, fun h inside => absurd inside not_mem_nil⟩

theorem httpPushDecimal_digits : ∀ b ∈ httpPushDecimal n, isDigit b = true := by
  intro b inside
  rcases mem_map.mp inside with ⟨d, digit, rfl⟩
  have small := numeral_digits _ _ n [] (by decide) (fun _ none_ => by cases none_) d digit
  have all : ∀ d < 10, isDigit (UInt8.ofNat (48 + d)) = true := by decide
  exact all d small

theorem trimmed_httpPushDecimal (n : Nat) : trimmed (httpPushDecimal n) = httpPushDecimal n := by
  apply trimmed_eq_self
  intro b inside
  have digit := httpPushDecimal_digits b inside
  cases blank_ : isOws b with
  | false => rfl
  | true =>
    rw [isOws, Bool.or_eq_true, beq_iff_eq, beq_iff_eq] at blank_
    rcases blank_ with rfl | rfl <;> exact absurd digit (by decide)

theorem httpPushDecimal_ne_nil (n : Nat) : httpPushDecimal n ≠ [] := by
  rw [httpPushDecimal, Ne, map_eq_nil_iff]
  exact numeral_ne_nil _ _ n [] (Or.inr (by decide))

theorem decimalValue_httpPushDecimal (word : n < 2 ^ 64) :
    decimalValue (httpPushDecimal n) = n := by
  have read : ∀ (digits : List Nat) (start : Nat), (∀ d ∈ digits, d < 10) →
    (digits.map fun d => UInt8.ofNat (48 + d)).foldl (fun n b => n * 10 + (b.toNat - 48)) start =
      value 10 start digits := by
    intro digits
    induction digits with
    | nil => exact fun _ _ => rfl
    | cons d rest ih =>
      intro start small
      have digit : (UInt8.ofNat (48 + d)).toNat - 48 = d := by
        have all : ∀ d < 10, (UInt8.ofNat (48 + d)).toNat - 48 = d := by decide
        exact all d (small d mem_cons_self)
      rw [map_cons, foldl_cons, digit, ih _ (forall_mem_cons.mp small).2]
      rfl
  rw [decimalValue, httpPushDecimal,
    read _ 0 (numeral_digits _ _ n [] (by decide) (fun _ none_ => by cases none_)),
    value_numeral _ _ n [] (Nat.lt_of_lt_of_le word (by decide))]
  rfl

namespace HttpRequestHeadScan

end HttpRequestHeadScan

variable (r : HttpRequest) (method authority path : Bytes)

end Align.Http
