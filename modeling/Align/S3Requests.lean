import Align.S3Canonical

/-! Signed requests and presigned addresses. The canonical text of a call is a complete
invariant of what it asks for, and the address carries the signed path and query. A
presigned address signs its lifetime as well. -/
namespace Align.S3
open Http (ascii HttpRequest)
open Delimiting List

/-- The path and the query that a canonical text signs. -/
def Signs (canonical method uri query : Bytes) : Prop :=
  10 ∉ uri ∧ 10 ∉ query ∧ ∃ rest, canonical = method ++ 10 :: (uri ++ 10 :: (query ++ 10 :: rest))

/-- Headers agree as sets, up to the case of names and the blanks of values. -/
def SameHeaders (fields others : List Field) : Prop :=
  ∀ field, field ∈ fields.map canonicalField ↔ field ∈ others.map canonicalField

section Requests
variable {timestamp : Bytes}

def SameRequest (digests : Digests) (a b : Call) : Prop :=
  a.method = b.method ∧ a.path = b.path ∧ digests.sha256 a.body = digests.sha256 b.body ∧
    a.query.Perm b.query ∧ SameHeaders a.headers b.headers

theorem request_ok (done : request digests credentials endpoint now call = .ok output) :
    Admitted credentials endpoint call.method call.query call.headers ∧
      ∃ timestamp, Time.format now 3 = some timestamp ∧
        Http.build call.method (requestUrl endpoint call)
          (requestCalls digests credentials endpoint timestamp call) = some output := by
  rw [request] at done
  split at done
  case isTrue _ => cases done
  case isFalse valid =>
    rw [Bool.not_eq_true, Bool.not_eq_false', Bool.and_eq_true_iff] at valid
    refine ⟨commonValid_admitted valid.2, ?_⟩
    rcases stamp : Time.format now 3 with _ | timestamp
    · rw [stamp] at done
      cases done
    rw [stamp] at done
    dsimp only at done
    cases built : Http.build call.method (requestUrl endpoint call)
      (requestCalls digests credentials endpoint timestamp call) with
    | none =>
      rw [built] at done
      cases done
    | some made =>
      rw [built] at done
      cases done
      exact ⟨timestamp, rfl, built⟩

theorem tokenField_mem (mem : field ∈ tokenField credentials name encode) :
    ∃ text, credentials.sessionToken = some text ∧ field = (name, encode text) := by
  rcases held : credentials.sessionToken with _ | text
  · rw [tokenField, held] at mem
    cases mem
  rw [tokenField, held] at mem
  exact ⟨text, rfl, mem_singleton.mp mem⟩

theorem request_parts (admitted : Admitted credentials endpoint call.method call.query call.headers)
    (stamp : Time.format now 3 = some timestamp) :
    Parts call.method (percentEncodePath call.path) (canonicalQuery call.query)
      (requestHeaders digests credentials endpoint timestamp call) := by
  refine ⟨admitted.noLine, percentEncodePath_noLine _, ?_, ?_⟩
  · exact fun mem => (encodedQuery_bytes (canonicalQuery_clean) _ mem).1 rfl
  · intro field mem
    rw [requestHeaders, append_assoc, mem_append, mem_append] at mem
    rcases mem with fixed | token | header
    · rw [mem_cons, mem_cons, mem_singleton] at fixed
      rcases fixed with rfl | rfl | rfl
      · exact admitted.host
      · exact visible_line (by decide) (hashText_visible)
      · exact visible_line (by decide) (timestamp_visible stamp)
    · obtain ⟨text, held, rfl⟩ := tokenField_mem token
      exact visible_line (by decide) (admitted.token _ held)
    · exact admitted.headerFields _ header

theorem canonicalRequest_eq_iff (admitted : Admitted credentials endpoint a.method a.query a.headers)
    (admitted' : Admitted credentials endpoint b.method b.query b.headers)
    (stamp : Time.format now 3 = some timestamp) :
    canonicalRequest digests credentials endpoint timestamp a =
        canonicalRequest digests credentials endpoint timestamp b ↔ SameRequest digests a b := by
  rw [canonicalRequest, canonicalRequest,
    canonicalText_eq_iff (request_parts admitted stamp) (request_parts admitted' stamp), canonicalQuery,
    canonicalQuery, encodedQuery_eq_iff (canonicalQuery_clean) (canonicalQuery_clean),
    map_perm_map_iff encodedField_injective, SameRequest, SameHeaders,
    ← headers_perm_iff admitted.headers admitted'.headers]
  -- Beyond the caller's headers the fields differ in the payload hash alone.
  have fields : hashText digests a.body = hashText digests b.body →
    ((requestHeaders digests credentials endpoint timestamp a).Perm
      (requestHeaders digests credentials endpoint timestamp b) ↔
        (a.headers.map headerField).Perm (b.headers.map headerField)) := by
    intro hash
    rw [requestHeaders, requestHeaders, hash, perm_append_left_iff]
  constructor
  · rintro ⟨method, uri, query, headers, hash⟩
    exact ⟨method, percentEncodePath_injective uri, hashText_injective hash, query, (fields hash).mp headers⟩
  · rintro ⟨method, path, digest, query, headers⟩
    have hash : hashText digests a.body = hashText digests b.body := by rw [hashText, hashText, digest]
    exact ⟨method, by rw [path], query, (fields hash).mpr headers, hash⟩

theorem requestUrl_ascii (admitted : Admitted credentials endpoint call.method call.query call.headers) :
    ∀ b ∈ requestUrl endpoint call, b < 128 := by
  intro b mem
  have uri : b ∈ percentEncodePath call.path → b < 128 := fun inside =>
    (encoded_apart (percentEncodePath_encoded b inside)).2.2.2
  have query : b ∈ canonicalQuery call.query → b < 128 := fun inside =>
    (encodedQuery_bytes (canonicalQuery_clean) b inside).2
  rw [requestUrl, mem_append, mem_append] at mem
  rcases mem with (origin | path) | rest
  · exact ((endpointValid_visible admitted.endpoint).2 b origin).apart.2
  · exact uri path
  split_ifs at rest
  · rcases mem_append.mp rest with mark | inside
    · cases mem_singleton.mp mark
      decide
    · exact query inside
  · cases rest

theorem request_url (done : request digests credentials endpoint now call = .ok output) :
    output.url = requestUrl endpoint call := by
  obtain ⟨admitted, timestamp, _, built⟩ := request_ok done
  rw [(Http.build_keeps built).1, Utf8.fromUtf8Lossy_ascii (requestUrl_ascii admitted)]

theorem request_signs (stamp : Time.format now 3 = some timestamp)
    (admitted : Admitted credentials endpoint call.method call.query call.headers) :
    Signs (canonicalRequest digests credentials endpoint timestamp call) call.method
      (percentEncodePath call.path) (canonicalQuery call.query) := by
  have parts : Parts _ _ _ (requestHeaders digests credentials endpoint timestamp call) :=
    request_parts admitted stamp
  exact ⟨parts.uri, parts.query, _, rfl⟩

theorem build_body (method url : Bytes) (calls : List Http.Call) (data : Bytes) :
    Http.build method url (calls ++ [.body data]) = (Http.build method url calls).map (Http.httpBody · data) := by
  rw [Http.build, Http.build, foldlM_append]
  cases List.foldlM Http.Call.apply (Http.httpRequestNew method url) calls with
  | none => rfl
  | some made => rfl

theorem request_same (same : SameRequest digests a b)
    (done : request digests credentials endpoint now a = .ok ra)
    (done' : request digests credentials endpoint now b = .ok rb) : rb = Http.httpBody ra b.body := by
  obtain ⟨admitted, timestamp, stamp, built⟩ := request_ok done
  obtain ⟨admitted', timestamp', stamp', built'⟩ := request_ok done'
  cases stamp.symm.trans stamp'
  have canonical := (canonicalRequest_eq_iff admitted admitted' stamp).mpr same
  have parts := (canonicalText_eq_iff (request_parts admitted stamp) (request_parts admitted' stamp)).mp canonical
  have fields := (ordered_eq_iff _ _).mpr parts.2.2.2.1
  have url : requestUrl endpoint a = requestUrl endpoint b := by
    rw [requestUrl, requestUrl, parts.2.1, parts.2.2.1]
  -- The two lists of calls differ in their last entry only.
  have split : ∀ call : Call, requestCalls digests credentials endpoint timestamp call =
    ((((ordered (requestHeaders digests credentials endpoint timestamp call)).filter fun field =>
      field.1 ≠ ascii "host").map fun field => Http.Call.header field.1 field.2) ++
      [.header (ascii "authorization") (authorization digests credentials endpoint.region timestamp
        (hashText digests (canonicalRequest digests credentials endpoint timestamp call))
        (signedHeaders (requestHeaders digests credentials endpoint timestamp call)))]) ++ [.body call.body] := by
    intro call
    rw [append_assoc]
    rfl
  rw [split, build_body, Option.map_eq_some_iff] at built built'
  obtain ⟨made, first, rfl⟩ := built
  obtain ⟨made', second, rfl⟩ := built'
  rw [same.1, url, canonical, signedHeaders, fields] at first
  rw [signedHeaders, first] at second
  cases second
  rfl

end Requests

section Presigning
variable {timestamp : Bytes}

/-- The fields that presigning adds to the query. -/
def signingFields (credentials : Credentials) (endpoint : Endpoint) (timestamp expiry signed : Bytes) :
    List (Bytes × Bytes) :=
  [(ascii "X-Amz-Algorithm", ascii "AWS4-HMAC-SHA256"),
    (ascii "X-Amz-Credential",
      percentEncode (credentials.accessKey ++ ascii "/" ++ credentialScope endpoint.region timestamp)),
    (ascii "X-Amz-Date", percentEncode timestamp)] ++
    ([(ascii "X-Amz-Expires", expiry)] ++ ((ascii "X-Amz-SignedHeaders", percentEncode signed) ::
      tokenField credentials (ascii "X-Amz-Security-Token") percentEncode))

theorem presignQuery_eq (call : PresignCall) :
    presignQuery credentials endpoint timestamp call = call.query.map encodedField ++
      signingFields credentials endpoint timestamp (writeInt call.expiresSeconds)
        (signedHeaders (presignHeaders endpoint call)) := by
  rw [presignQuery, signingFields, append_assoc]
  rfl

/-- The names of the added fields start with it, and no caller's name does. -/
def signingName (field : Bytes × Bytes) : Bool := field.1.take 6 == ascii "X-Amz-"

theorem signingFields_names :
    ∀ field ∈ signingFields credentials endpoint timestamp expiry signed, signingName field = true := by
  intro field mem
  simp only [signingFields, mem_append, mem_cons, not_mem_nil, or_false] at mem
  rcases mem with (rfl | rfl | rfl) | rfl | rfl | token
  iterate 5 rfl
  obtain ⟨text, held, rfl⟩ := tokenField_mem token
  rfl

theorem encodedField_name (foreign : amzName field.name = false) :
    signingName (encodedField field) = false := by
  rw [Bool.eq_false_iff]
  intro starts
  have text : percentEncode field.name = ascii "X-Amz-" ++ (percentEncode field.name).drop 6 := by
    conv => lhs; rw [← take_append_drop 6 (percentEncode field.name)]
    rw [show (percentEncode field.name).take 6 = ascii "X-Amz-" from eq_of_beq starts]
  have read := decode_percentEncode field.name
  have ordinary : (ascii "X-Amz-").all (fun b => UrlEscape.isSpecial false b == false) = true := by decide
  rw [text, UrlEscape.decodeBytes_run _ _ fun b mem => eq_of_beq (all_eq_true.mp ordinary b mem)] at read
  obtain ⟨rest, _, named⟩ := Option.map_eq_some_iff.mp read
  rw [← named] at foreign
  cases foreign

theorem queryValid_foreign (valid : queryValid query = true) :
    ∀ field ∈ query.map encodedField, signingName field = false := by
  intro field mem
  rcases mem_map.mp mem with ⟨raw, inside, rfl⟩
  have here := all_eq_true.mp valid raw inside
  rw [Bool.and_eq_true_iff, Bool.not_eq_true'] at here
  exact encodedField_name here.2

theorem writeInt_value (small : 1 ≤ n ∧ n ≤ 604800) :
    writeInt n = Http.httpPushDecimal n.toNat ∧ n.toNat < 2 ^ 64 ∧ (n.toNat : Int) = n := by
  have same : n.natAbs = n.toNat := by omega
  refine ⟨?_, by omega, by omega⟩
  rw [writeInt, if_neg (by omega), nil_append, same]

theorem writeInt_injective (small : 1 ≤ n ∧ n ≤ 604800) (small' : 1 ≤ m ∧ m ≤ 604800)
    (same : writeInt n = writeInt m) : n = m := by
  have first := writeInt_value small
  have second := writeInt_value small'
  rw [first.1, second.1] at same
  have values := congrArg Http.decimalValue same
  rw [Http.decimalValue_httpPushDecimal first.2.1, Http.decimalValue_httpPushDecimal second.2.1] at values
  omega

theorem writeInt_query (small : 1 ≤ n ∧ n ≤ 604800) : ∀ b ∈ writeInt n, b ≠ 38 ∧ b ≠ 10 ∧ b < 128 := by
  intro b mem
  rw [(writeInt_value small).1] at mem
  have number := Http.httpPushDecimal_digits b mem
  have seen : Visible b := class_visible (Or.inr (Or.inl number))
  refine ⟨?_, seen.apart⟩
  rintro rfl
  exact absurd number (by decide)

theorem named_query (plain : name.all (fun b => decide (b ≠ 38 ∧ b ≠ 61 ∧ b ≠ 10 ∧ b < 128)) = true)
    (clean : ∀ b ∈ value, b ≠ 38 ∧ b ≠ 10 ∧ b < 128) : QueryField (name, value) :=
  ⟨fun b mem => of_decide_eq_true (all_eq_true.mp plain b mem), clean⟩

theorem signingFields_query (clean : ∀ b ∈ expiry, b ≠ 38 ∧ b ≠ 10 ∧ b < 128) :
    ∀ field ∈ signingFields credentials endpoint timestamp expiry signed, QueryField field := by
  intro field mem
  simp only [signingFields, mem_append, mem_cons, not_mem_nil, or_false] at mem
  rcases mem with (rfl | rfl | rfl) | rfl | rfl | token
  · have method : (ascii "AWS4-HMAC-SHA256").all (fun b => decide (b ≠ 38 ∧ b ≠ 10 ∧ b < 128)) = true := by decide
    exact named_query (by decide) fun b mem => of_decide_eq_true (all_eq_true.mp method b mem)
  · exact named_query (by decide) encoded_value
  · exact named_query (by decide) encoded_value
  · exact named_query (by decide) clean
  · exact named_query (by decide) encoded_value
  obtain ⟨text, held, rfl⟩ := tokenField_mem token
  exact named_query (by decide) encoded_value

/-- Two presigning calls ask for the same thing, for the same time. -/
def SamePresign (a b : PresignCall) : Prop :=
  a.method = b.method ∧ a.path = b.path ∧ a.query.Perm b.query ∧ SameHeaders a.headers b.headers ∧
    a.expiresSeconds = b.expiresSeconds

theorem presign_ok (done : presign digests credentials endpoint now call = .ok output) :
    Admitted credentials endpoint call.method call.query call.headers ∧
      (1 ≤ call.expiresSeconds ∧ call.expiresSeconds ≤ 604800) ∧
      ∃ timestamp, Time.format now 3 = some timestamp ∧ output =
        { method := call.method
          url := endpoint.origin ++ percentEncodePath call.path ++ ascii "?" ++
            encodedQuery (presignQuery credentials endpoint timestamp call) ++ ascii "&X-Amz-Signature=" ++
            signature digests credentials endpoint.region timestamp
              (hashText digests (canonicalPresign credentials endpoint timestamp call))
          headers := (ordered (presignHeaders endpoint call)).filter fun field => field.1 ≠ ascii "host" } := by
  rw [presign] at done
  split at done
  case isTrue _ => cases done
  case isFalse valid =>
    rw [Bool.not_eq_true, Bool.not_eq_false'] at valid
    split at done
    case isTrue _ => cases done
    case isFalse range =>
      refine ⟨commonValid_admitted valid, by omega, ?_⟩
      rcases stamp : Time.format now 3 with _ | timestamp
      · rw [stamp] at done
        cases done
      rw [stamp] at done
      cases done
      exact ⟨timestamp, rfl, rfl⟩

theorem presign_fields (small : 1 ≤ call.expiresSeconds ∧ call.expiresSeconds ≤ 604800) :
    ∀ field ∈ presignQuery credentials endpoint timestamp call, QueryField field := by
  intro field mem
  rw [presignQuery_eq, mem_append] at mem
  rcases mem with caller | added
  · exact canonicalQuery_clean _ caller
  · exact signingFields_query (writeInt_query small) _ added

theorem presign_parts (admitted : Admitted credentials endpoint call.method call.query call.headers)
    (small : 1 ≤ call.expiresSeconds ∧ call.expiresSeconds ≤ 604800) :
    Parts call.method (percentEncodePath call.path)
      (encodedQuery (presignQuery credentials endpoint timestamp call)) (presignHeaders endpoint call) := by
  refine ⟨admitted.noLine, percentEncodePath_noLine _, ?_, ?_⟩
  · exact fun mem => (encodedQuery_bytes (presign_fields small) _ mem).1 rfl
  · intro field mem
    rcases mem_cons.mp mem with rfl | header
    · exact admitted.host
    · exact admitted.headerFields _ header

theorem presignQuery_perm_iff (valid : queryValid a.query = true) (valid' : queryValid b.query = true) :
    (presignQuery credentials endpoint timestamp a).Perm (presignQuery credentials endpoint timestamp b) ↔
      a.query.Perm b.query ∧
        (signingFields credentials endpoint timestamp (writeInt a.expiresSeconds)
          (signedHeaders (presignHeaders endpoint a))).Perm
          (signingFields credentials endpoint timestamp (writeInt b.expiresSeconds)
            (signedHeaders (presignHeaders endpoint b))) := by
  have kept : ∀ {call : PresignCall}, queryValid call.query = true →
    (presignQuery credentials endpoint timestamp call).filter (fun field => !signingName field) =
      call.query.map encodedField ∧ (presignQuery credentials endpoint timestamp call).filter signingName =
        signingFields credentials endpoint timestamp (writeInt call.expiresSeconds)
          (signedHeaders (presignHeaders endpoint call)) := by
    intro call valid
    have foreign := queryValid_foreign valid
    rw [presignQuery_eq, filter_append, filter_append]
    constructor
    · rw [filter_eq_self.mpr fun field mem => by rw [foreign field mem]; rfl,
        filter_eq_nil_iff.mpr fun field mem => by rw [signingFields_names _ mem]; decide,
        append_nil]
    · rw [filter_eq_nil_iff.mpr fun field mem => by rw [foreign field mem]; decide,
        filter_eq_self.mpr fun field mem => signingFields_names _ mem, nil_append]
  constructor
  · intro moved
    have caller := moved.filter fun field => !signingName field
    have added := moved.filter signingName
    rw [(kept valid).1, (kept valid').1, map_perm_map_iff encodedField_injective] at caller
    rw [(kept valid).2, (kept valid').2] at added
    exact ⟨caller, added⟩
  · rintro ⟨caller, added⟩
    rw [presignQuery_eq, presignQuery_eq]
    exact (caller.map encodedField).append added

theorem signingFields_perm_iff :
    (signingFields credentials endpoint timestamp expiry signed).Perm
        (signingFields credentials endpoint timestamp expiry' signed) ↔ expiry = expiry' := by
  rw [signingFields, signingFields, perm_append_left_iff, perm_append_right_iff, singleton_perm_singleton,
    Prod.mk.injEq]
  exact ⟨And.right, And.intro rfl⟩

theorem canonicalPresign_eq_iff (admitted : Admitted credentials endpoint a.method a.query a.headers)
    (admitted' : Admitted credentials endpoint b.method b.query b.headers)
    (small : 1 ≤ a.expiresSeconds ∧ a.expiresSeconds ≤ 604800)
    (small' : 1 ≤ b.expiresSeconds ∧ b.expiresSeconds ≤ 604800) :
    canonicalPresign credentials endpoint timestamp a = canonicalPresign credentials endpoint timestamp b ↔
      SamePresign a b := by
  rw [canonicalPresign, canonicalPresign,
    canonicalText_eq_iff (presign_parts admitted small) (presign_parts admitted' small'),
    encodedQuery_eq_iff (presign_fields small) (presign_fields small'),
    presignQuery_perm_iff admitted.query admitted'.query, presignHeaders, presignHeaders, perm_cons,
    SamePresign, SameHeaders, ← headers_perm_iff admitted.headers admitted'.headers]
  -- The signed names follow from the headers; the lifetime is the one field left.
  have signed : (a.headers.map headerField).Perm (b.headers.map headerField) →
    signedHeaders ((ascii "host", authority endpoint) :: a.headers.map headerField) =
      signedHeaders ((ascii "host", authority endpoint) :: b.headers.map headerField) := by
    intro headers
    rw [signedHeaders, signedHeaders, (ordered_eq_iff _ _).mpr (headers.cons (ascii "host", authority endpoint))]
  constructor
  · rintro ⟨method, uri, ⟨query, added⟩, headers, _⟩
    refine ⟨method, percentEncodePath_injective uri, query, headers, writeInt_injective small small' ?_⟩
    rw [signed headers] at added
    exact (signingFields_perm_iff).mp added
  · rintro ⟨method, path, query, headers, expiry⟩
    refine ⟨method, by rw [path], ⟨query, ?_⟩, headers, rfl⟩
    rw [signed headers, expiry]

theorem presign_same (same : SamePresign a b) (done : presign digests credentials endpoint now a = .ok pa)
    (done' : presign digests credentials endpoint now b = .ok pb) : pa = pb := by
  obtain ⟨admitted, small, timestamp, stamp, rfl⟩ := presign_ok done
  obtain ⟨admitted', small', timestamp', stamp', rfl⟩ := presign_ok done'
  cases stamp.symm.trans stamp'
  have canonical : canonicalPresign credentials endpoint timestamp a =
    canonicalPresign credentials endpoint timestamp b :=
    (canonicalPresign_eq_iff admitted admitted' small small').mpr same
  have parts := (canonicalText_eq_iff (presign_parts admitted small) (presign_parts admitted' small')).mp canonical
  rw [parts.1, parts.2.1, parts.2.2.1, canonical, (ordered_eq_iff _ _).mpr parts.2.2.2.1]

end Presigning

/-- For calls with the same credentials, endpoint and time the canonical text is a
complete invariant of the request. Of `request` it is the method, the path, the body
hash, the multiset of query fields and the set of headers; of `presign` it is the
method, the path, the query fields, the headers and the lifetime. Calls that agree in it
are signed alike, and the address is made of the path and the query that are signed. -/
theorem canonical_requests_complete (digests : Digests) (credentials : Credentials) (endpoint : Endpoint)
    (now : Int) :
    (∀ (a b : Call) (ra rb : HttpRequest), request digests credentials endpoint now a = .ok ra →
      request digests credentials endpoint now b = .ok rb →
      ∃ timestamp, Time.format now 3 = some timestamp ∧
        (canonicalRequest digests credentials endpoint timestamp a =
            canonicalRequest digests credentials endpoint timestamp b ↔ SameRequest digests a b) ∧
        (SameRequest digests a b → rb = Http.httpBody ra b.body) ∧
        ∃ uri query,
          Signs (canonicalRequest digests credentials endpoint timestamp a) a.method uri query ∧
          ra.url = endpoint.origin ++ uri ++ if query.length > 0 then ascii "?" ++ query else []) ∧
    (∀ (a b : PresignCall) (pa pb : PresignedRequest), presign digests credentials endpoint now a = .ok pa →
      presign digests credentials endpoint now b = .ok pb →
      ∃ timestamp, Time.format now 3 = some timestamp ∧
        (canonicalPresign credentials endpoint timestamp a = canonicalPresign credentials endpoint timestamp b ↔
          SamePresign a b) ∧
        (SamePresign a b → pa = pb) ∧
        ∃ uri query,
          Signs (canonicalPresign credentials endpoint timestamp a) a.method uri query ∧
          pa.url = endpoint.origin ++ uri ++ ascii "?" ++ query ++ ascii "&X-Amz-Signature=" ++
            signature digests credentials endpoint.region timestamp
              (hashText digests (canonicalPresign credentials endpoint timestamp a))) := by
  constructor
  · intro a b ra rb done done'
    obtain ⟨admitted, timestamp, stamp, _⟩ := request_ok done
    obtain ⟨admitted', _, _, _⟩ := request_ok done'
    refine ⟨timestamp, stamp, canonicalRequest_eq_iff admitted admitted' stamp, ?_, ?_⟩
    · exact fun same => request_same same done done'
    · exact ⟨percentEncodePath a.path, canonicalQuery a.query, request_signs stamp admitted, request_url done⟩
  · intro a b pa pb done done'
    obtain ⟨admitted, small, timestamp, stamp, made⟩ := presign_ok done
    obtain ⟨admitted', small', _, _, _⟩ := presign_ok done'
    refine ⟨timestamp, stamp, canonicalPresign_eq_iff admitted admitted' small small', ?_, ?_⟩
    · exact fun same => presign_same same done done'
    · have parts : Parts _ _ (encodedQuery (presignQuery credentials endpoint timestamp a)) _ :=
        presign_parts admitted small
      exact ⟨percentEncodePath a.path, encodedQuery (presignQuery credentials endpoint timestamp a),
        ⟨parts.uri, parts.query, _, rfl⟩, by rw [made]⟩

/-! A bucket listing, signed with digests that ignore their input. -/

def emptyDigests : Digests := ⟨fun _ => [], fun _ _ => []⟩

def sampleCredentials : Credentials := ⟨ascii "AKID", ascii "secret", none⟩

def sampleEndpoint : Endpoint := ⟨ascii "https://s3.test:8443", ascii "eu-west-1"⟩

def listing : Call :=
  ⟨ascii "GET", ascii "/a b/", [⟨ascii "b", ascii "1&2"⟩, ⟨ascii "a", []⟩],
    [⟨ascii "Range", ascii " bytes=0-  9 "⟩, ⟨ascii "accept", []⟩], []⟩

/-- The same listing with its fields in another order and its headers spelled differently. -/
def reorderedListing : Call :=
  ⟨ascii "GET", ascii "/a b/", [⟨ascii "a", []⟩, ⟨ascii "b", ascii "1&2"⟩],
    [⟨ascii "Accept", []⟩, ⟨ascii "range", ascii "bytes=0-\t9"⟩], []⟩

def presignedListing (expiry : Int) : PresignCall := ⟨ascii "GET", ascii "/a b/", [], [], expiry⟩

theorem isOk_exists {ε α : Type} {outcome : Except ε α} (ok : outcome.isOk = true) : ∃ a, outcome = .ok a := by
  cases outcome with
  | ok a => exact ⟨a, rfl⟩
  | error e => cases ok

theorem canonical_requests_complete_reordered :
    ∃ timestamp, Time.format 0 3 = some timestamp ∧
      canonicalRequest emptyDigests sampleCredentials sampleEndpoint timestamp listing =
        canonicalRequest emptyDigests sampleCredentials sampleEndpoint timestamp reorderedListing := by
  have evaluated : (request emptyDigests sampleCredentials sampleEndpoint 0 listing).isOk ∧
    (request emptyDigests sampleCredentials sampleEndpoint 0 reorderedListing).isOk ∧
    (listing.headers.map canonicalField).reverse = reorderedListing.headers.map canonicalField := by
    decide +kernel
  obtain ⟨ra, done⟩ := isOk_exists evaluated.1
  obtain ⟨rb, done'⟩ := isOk_exists evaluated.2.1
  obtain ⟨timestamp, stamp, same, _⟩ :=
    (canonical_requests_complete emptyDigests sampleCredentials sampleEndpoint 0).1 _ _ ra rb done done'
  refine ⟨timestamp, stamp, same.mpr ⟨rfl, rfl, rfl, List.Perm.swap _ _ _, ?_⟩⟩
  intro field
  rw [← evaluated.2.2, mem_reverse]

/-- The lifetime is signed: two addresses that differ in it alone have different
canonical texts. -/
theorem presign_lifetime_signed :
    (∃ pa, presign emptyDigests sampleCredentials sampleEndpoint 0 (presignedListing 60) = .ok pa) ∧
      (∃ pb, presign emptyDigests sampleCredentials sampleEndpoint 0 (presignedListing 61) = .ok pb) ∧
      ∃ timestamp, Time.format 0 3 = some timestamp ∧
        canonicalPresign sampleCredentials sampleEndpoint timestamp (presignedListing 60) ≠
          canonicalPresign sampleCredentials sampleEndpoint timestamp (presignedListing 61) := by
  have accepted : (presign emptyDigests sampleCredentials sampleEndpoint 0 (presignedListing 60)).isOk ∧
    (presign emptyDigests sampleCredentials sampleEndpoint 0 (presignedListing 61)).isOk := by
    decide +kernel
  obtain ⟨pa, done⟩ := isOk_exists accepted.1
  obtain ⟨pb, done'⟩ := isOk_exists accepted.2
  obtain ⟨admitted, small, timestamp, stamp, _⟩ := presign_ok done
  obtain ⟨admitted', small', _, _, _⟩ := presign_ok done'
  refine ⟨⟨pa, done⟩, ⟨pb, done'⟩, timestamp, stamp, fun same => ?_⟩
  exact absurd ((canonicalPresign_eq_iff admitted admitted' small small').mp same).2.2.2.2 (by decide)

end Align.S3
