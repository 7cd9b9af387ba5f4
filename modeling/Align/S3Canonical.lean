import Align.S3Order
import Align.TimeRoundTrip

/-! The canonical request. What each check lets through keeps the delimiters of the
canonical text out of the parts between them, so the text determines the method, the
path, the query, the headers and the payload hash, and nothing else enters it. -/
namespace Align.S3
open Http (ascii HttpRequest)
open Delimiting List

/-- The words of a value, blanks left out. -/
def words (value : Bytes) : List Bytes := (value.splitOnP space).filter (· ≠ [])

/-- A header with its name in lower case and single blanks between the words of its value. -/
def canonicalField (field : Field) : Bytes × Bytes :=
  (field.name.map Http.toLower, joined 32 (words field.value))

theorem lowercase_eq (name : Bytes) : lowercase name = name.map Http.toLower := by
  apply map_congr_left
  intro byte _
  have shift : byte - 65 + 97 = byte + 32 := by grind
  rw [Http.toLower, upper, shift]

/-- The three states of the loop: behind a gap, inside a word, and before the first word. -/
theorem normalizedLoop_words :
    normalizedLoop true true value = (words value).flatMap (32 :: ·) ∧
      (∀ first rest, value.splitOnP space = first :: rest →
        normalizedLoop true false value = first ++ (rest.filter (· ≠ [])).flatMap (32 :: ·)) ∧
      normalizedLoop false false value = joined 32 (words value) := by
  induction value with
  | nil =>
    refine ⟨rfl, ?_, rfl⟩
    intro first rest split
    cases split
    rfl
  | cons byte value ih =>
    rcases ih with ⟨behind, inside, before⟩
    by_cases blank : space byte = true
    · have split : (byte :: value).splitOnP space = [] :: value.splitOnP space := by
        rw [splitOnP_cons_eq_if_modifyHead, if_pos blank]
      have same : words (byte :: value) = words value := by
        rw [words, words, split, filter_cons_of_neg (by decide)]
      rw [normalizedLoop, normalizedLoop, normalizedLoop, if_pos blank, if_pos blank, if_pos blank, same]
      refine ⟨behind, ?_, before⟩
      intro first rest parts
      rw [split] at parts
      cases parts
      exact behind
    · obtain ⟨first, rest, parts⟩ := exists_cons_of_ne_nil (splitOnP_ne_nil space value)
      have split : (byte :: value).splitOnP space = (byte :: first) :: rest := by
        rw [splitOnP_cons_eq_if_modifyHead, if_neg blank, parts]
        rfl
      have here : words (byte :: value) = (byte :: first) :: rest.filter (· ≠ []) := by
        rw [words, split, filter_cons_of_pos]
        exact decide_eq_true (cons_ne_nil byte first)
      rw [normalizedLoop, normalizedLoop, normalizedLoop, if_neg blank, if_neg blank, if_neg blank, here,
        inside first rest parts]
      refine ⟨rfl, ?_, rfl⟩
      intro first' rest' parts'
      rw [split] at parts'
      cases parts'
      rfl

theorem headerField_eq (field : Field) : headerField field = canonicalField field := by
  rw [headerField, canonicalField, lowercase_eq, normalized, (normalizedLoop_words).2.2]

theorem normalizedLoop_mem (mem : b ∈ normalizedLoop started gap value) : b = 32 ∨ b ∈ value := by
  induction value generalizing started gap with
  | nil => cases mem
  | cons byte value ih =>
    rw [normalizedLoop] at mem
    by_cases blank : space byte = true
    · rw [if_pos blank] at mem
      exact (ih mem).imp id (mem_cons_of_mem byte)
    rw [if_neg blank, mem_append, mem_cons] at mem
    rcases mem with mark | here | later
    · cases gap with
      | true => exact Or.inl (mem_singleton.mp mark)
      | false => cases mark
    · exact Or.inr (here ▸ mem_cons_self)
    · exact (ih later).imp id (mem_cons_of_mem byte)

def Visible (b : UInt8) : Prop := 33 ≤ b.toNat ∧ b.toNat ≤ 126

instance (b : UInt8) : Decidable (Visible b) := inferInstanceAs (Decidable (_ ∧ _))

theorem Visible.apart (seen : Visible b) : b ≠ 10 ∧ b < 128 := by
  constructor
  · rintro rfl
    exact absurd seen.1 (by decide)
  · exact UInt8.lt_iff_toNat_lt.mpr (Nat.lt_of_le_of_lt seen.2 (by decide))

theorem class_visible (here : alpha b = true ∨ digit b = true ∨ hex b = true ∨ b = 58 ∨ b = 46 ∨
    b = 45 ∨ b = 95 ∨ b = 91 ∨ b = 93) : Visible b := by
  simp only [alpha, upper, lower, hex, digit, Bool.or_eq_true, Bool.and_eq_true, decide_eq_true_iff,
    UInt8.le_iff_toNat_le, ← UInt8.toNat_inj, UInt8.reduceToNat] at here
  rw [Visible]
  omega

theorem portValid_visible (valid : portValid suffix = true) : ∀ b ∈ suffix, Visible b := by
  cases suffix with
  | nil => nofun
  | cons first rest =>
    rw [portValid, if_neg (by rw [length_cons]; exact Nat.succ_ne_zero _)] at valid
    split_ifs at valid with shape digits
    have colon : first = 58 := by
      rw [not_or, not_or, not_not, head?_cons] at shape
      exact Option.some.inj shape.2.2
    rw [Bool.not_eq_true, Bool.not_eq_false', all_eq_true] at digits
    intro b mem
    rcases mem_cons.mp mem with rfl | later
    · exact class_visible (by simp only [colon, true_or, or_true])
    · exact class_visible (Or.inr (Or.inl (digits b later)))

theorem authorityValid_visible {authority : Bytes} (valid : authorityValid authority = true) :
    ∀ b ∈ authority, Visible b := by
  rw [authorityValid] at valid
  split_ifs at valid with empty bracket
  · -- `[`, the address, `]`, the port.
    obtain ⟨rest, rfl⟩ := head?_eq_some_iff.mp bracket
    rcases found : (91 :: rest).findIdx? (· == 93) with _ | stop
    · rw [found] at valid
      cases valid
    rw [found] at valid
    dsimp only at valid
    split_ifs at valid with inner
    simp only [Bool.not_eq_true, Bool.not_eq_false', all_eq_true, Bool.or_eq_true, beq_iff_eq] at inner
    have port := portValid_visible (Bool.and_eq_true_iff.mp valid).2
    obtain ⟨inside, closing, _⟩ := findIdx?_eq_some_iff_getElem.mp found
    intro b mem
    rw [← take_append_drop stop (91 :: rest), mem_append, drop_eq_getElem_cons inside, eq_of_beq closing,
      mem_cons] at mem
    rcases mem with address | rfl | later
    · cases stop with
      | zero => cases address
      | succ stop =>
        rcases mem_cons.mp address with rfl | address
        · decide
        · have here := inner b address
          apply class_visible
          tauto
    · decide
    · exact port b later
  · intro b mem
    rw [← take_append_drop ((authority.findIdx? (· == 58)).getD authority.length) authority,
      mem_append] at mem
    dsimp only at valid
    split_ifs at valid with none_ name
    simp only [Bool.not_eq_true, Bool.not_eq_false', all_eq_true, Bool.or_eq_true, beq_iff_eq] at name
    rcases mem with host | later
    · have here := name b host
      apply class_visible
      tauto
    · exact portValid_visible valid b later

theorem endpointValid_visible (valid : endpointValid endpoint = true) :
    (∀ b ∈ authority endpoint, Visible b) ∧ ∀ b ∈ endpoint.origin, Visible b := by
  rw [endpointValid] at valid
  rcases found : schemeLength endpoint.origin with _ | offset
  · rw [found, ite_self] at valid
    cases valid
  rw [found] at valid
  dsimp only at valid
  split_ifs at valid with _ host
  rw [Bool.not_eq_true, Bool.not_eq_false'] at host
  have here := authorityValid_visible host
  have named : authority endpoint = endpoint.origin.drop offset := by rw [authority, found, Option.getD_some]
  refine ⟨named ▸ here, ?_⟩
  intro b mem
  rw [← take_append_drop offset endpoint.origin, mem_append] at mem
  rcases mem with scheme | later
  · have seen : (ascii "https://" ++ ascii "http://").all (fun b => decide (Visible b)) =
      true := by decide
    refine of_decide_eq_true (all_eq_true.mp seen b (mem_append.mpr ?_))
    rw [schemeLength] at found
    split_ifs at found with secure plain
    · cases found
      exact Or.inl (secure ▸ scheme)
    · cases found
      exact Or.inr (plain ▸ scheme)
  · exact here b later

def NamesApart (previous field : Field) : Prop := previous.name.map Http.toLower ≠ field.name.map Http.toLower

theorem headersLoop_valid (valid : headersLoop earlier fields = true) :
    (∀ field ∈ fields, headerNameValid field.name = true ∧ valueValid field.value = true) ∧
      fields.Pairwise NamesApart ∧ ∀ previous ∈ earlier, ∀ field ∈ fields, NamesApart previous field := by
  induction fields generalizing earlier with
  | nil => exact ⟨nofun, List.Pairwise.nil, nofun⟩
  | cons field fields ih =>
    rw [headersLoop] at valid
    split_ifs at valid with name value reserved again
    rcases ih valid with ⟨each, apart, past⟩
    rw [Bool.not_eq_true, Bool.not_eq_false'] at name value
    have fresh : ∀ previous ∈ earlier, NamesApart previous field := by
      intro previous mem same
      refine again (any_eq_true.mpr ⟨previous, mem, ?_⟩)
      rw [Http.eqIgnoreAsciiCase, same]
      exact beq_self_eq_true _
    refine ⟨?_, ?_, ?_⟩
    · intro other mem
      rcases mem_cons.mp mem with rfl | later
      · exact ⟨name, value⟩
      · exact each other later
    · refine List.Pairwise.cons ?_ apart
      intro other mem
      exact past field (mem_append_right _ mem_cons_self) other mem
    · intro previous mem other there
      rcases mem_cons.mp there with rfl | later
      · exact fresh previous mem
      · exact past previous (mem_append_left _ mem) other later

/-- Admitted headers are one field per name, so a set of them is a list up to order. -/
theorem headerFields_nodup (valid : headersValid fields = true) :
    (fields.map headerField).Nodup := by
  refine pairwise_map.mpr ((headersLoop_valid valid).2.1.imp ?_)
  intro previous field apart same
  rw [headerField_eq, headerField_eq] at same
  exact apart (congrArg Prod.fst same)

theorem headers_perm_iff (valid : headersValid fields = true) (valid' : headersValid others = true) :
    (fields.map headerField).Perm (others.map headerField) ↔
      ∀ field, field ∈ fields.map canonicalField ↔ field ∈ others.map canonicalField := by
  have same : headerField = canonicalField := funext headerField_eq
  rw [perm_ext_iff_of_nodup (headerFields_nodup valid) (headerFields_nodup valid'), same]

theorem lower_apart (valid : headerNameValid name = true) :
    ∀ b ∈ lowercase name, b ≠ 58 ∧ b ≠ 10 := by
  rw [headerNameValid] at valid
  split_ifs at valid with size
  rw [all_eq_true] at valid
  intro b mem
  rcases mem_map.mp mem with ⟨byte, inside, rfl⟩
  have here := valid byte inside
  rw [Bool.and_eq_true_iff] at here
  by_cases big : upper byte = true
  · rw [if_pos big]
    simp only [upper, Bool.and_eq_true, decide_eq_true_iff, UInt8.le_iff_toNat_le] at big
    constructor
    · intro bad
      have shifted : byte = 26 := by grind
      rw [shifted] at big
      exact absurd big.1 (by decide)
    · intro bad
      have shifted : byte = 234 := by grind
      rw [shifted] at big
      exact absurd big.2 (by decide)
  · rw [if_neg big]
    constructor <;> rintro rfl <;> exact absurd here.2 (by decide)

theorem headerField_line (name : headerNameValid field.name = true)
    (value : valueValid field.value = true) : LineField 58 10 (headerField field) := by
  have apart := lower_apart name
  refine ⟨?_, fun mem => (apart _ mem).1 rfl, fun mem => (apart _ mem).2 rfl, ?_⟩
  · intro empty
    rw [headerNameValid, map_eq_nil_iff.mp empty] at name
    cases name
  · intro mem
    rw [valueValid, Bool.and_eq_true_iff, all_eq_true] at value
    rcases normalizedLoop_mem mem with blank | inside
    · exact absurd blank (by decide)
    · exact absurd (value.2 10 inside) (by decide)

theorem hashText_visible : ∀ b ∈ hashText digests text, Visible b := by
  have symbols : ∀ nibble : UInt8, nibble.toNat < 16 → Visible (Hex.hexSymbol nibble) := by
    intro nibble inside
    have all : Hex.hexSymbols.all (fun b => decide (Visible b)) = true := by decide
    have there : nibble.toNat < Hex.hexSymbols.length := inside
    rw [Hex.hexSymbol, getD_eq_getElem _ _ there]
    exact of_decide_eq_true (all_eq_true.mp all _ (getElem_mem there))
  intro b mem
  rcases mem_flatMap.mp mem with ⟨byte, _, pair⟩
  have nibbles := Hex.nibble_values byte
  rcases mem_pair.mp pair with rfl | rfl
  · exact symbols _ nibbles.2.2.1
  · exact symbols _ nibbles.2.2.2

theorem hashText_injective
    (same : hashText digests text = hashText digests other) : digests.sha256 text = digests.sha256 other := by
  have read := Hex.decodePairs_encode (digests.sha256 text)
  rw [show Hex.encodePairs (digests.sha256 text) = Hex.encodePairs (digests.sha256 other) from same,
    Hex.decodePairs_encode] at read
  exact (Option.some.inj read).symm

theorem decimal_visible : ∀ b ∈ Time.decimal width n, Visible b := by
  intro b mem
  rcases mem_map.mp mem with ⟨d, inside, rfl⟩
  have small := Numerals.fixed_digits _ _ n (by decide) d inside
  have read := (Time.digit_read d small).1
  simp only [Time.isAsciiDigit, Bool.and_eq_true, decide_eq_true_iff, UInt8.le_iff_toNat_le] at read
  exact ⟨Nat.le_trans (by decide) read.1, Nat.le_trans read.2 (by decide)⟩

theorem timestamp_visible (wrote : Time.format now 3 = some timestamp) :
    ∀ b ∈ timestamp, Visible b := by
  obtain ⟨instant, denotes⟩ : ∃ instant, Time.Denotes 3 timestamp instant := by
    obtain ⟨precision, _, _, denotes⟩ := Time.format_denotes wrote
    exact ⟨_, denotes⟩
  cases denotes with
  | zoned kind date lower clock fraction zone profile =>
    rcases profile with bad | bad
    · cases bad
    · cases bad.1
  | basic date clock =>
    intro b mem
    simp only [Time.Date.text, Time.Clock.text, mem_append, not_mem_nil, false_or] at mem
    rcases mem with (year | month | day) | mark | (hour | minute | second) | mark
    · exact decimal_visible b year
    · exact decimal_visible b month
    · exact decimal_visible b day
    · cases mem_singleton.mp mark
      decide
    · exact decimal_visible b hour
    · exact decimal_visible b minute
    · exact decimal_visible b second
    · cases mem_singleton.mp mark
      decide

/-- What the checks and the encodings make of the parts of the text. -/
structure Parts (method uri query : Bytes) (fields : List (Bytes × Bytes)) : Prop where
  method : 10 ∉ method
  uri : 10 ∉ uri
  query : 10 ∉ query
  fields : ∀ field ∈ fields, LineField 58 10 field

theorem canonicalText_eq_iff
    
    (parts : Parts method uri query fields) (parts' : Parts method' uri' query' fields') :
    canonicalText method uri query fields payload = canonicalText method' uri' query' fields' payload' ↔
      method = method' ∧ uri = uri' ∧ query = query' ∧ fields.Perm fields' ∧ payload = payload' := by
  constructor
  · intro same
    have methods := before_unique parts.method parts'.method same
    have uris := before_unique parts.uri parts'.uri methods.2
    have queries := before_unique parts.query parts'.query uris.2
    have blocks := block_unique (fun field mem => parts.fields field (mem_ordered.mp mem))
      (fun field mem => parts'.fields field (mem_ordered.mp mem)) queries.2
    have tail := blocks.2
    rw [signedHeaders, signedHeaders, blocks.1] at tail
    exact ⟨methods.1, uris.1, queries.1, (ordered_eq_iff _ _).mp blocks.1,
      (List.cons.inj (append_cancel_left tail)).2⟩
  · rintro ⟨rfl, rfl, rfl, moved, rfl⟩
    rw [canonicalText, canonicalText, canonicalHeaders, canonicalHeaders, signedHeaders, signedHeaders,
      (ordered_eq_iff _ _).mpr moved]

section Calls
variable {credentials : Credentials} {endpoint : Endpoint} {method path : Bytes}
  {query headers : List Field}

/-- What both entries know of an admitted call. -/
structure Admitted (credentials : Credentials) (endpoint : Endpoint) (method : Bytes)
    (query headers : List Field) : Prop where
  credentials : credentialsValid credentials = true
  endpoint : endpointValid endpoint = true
  method : methodValid method = true
  query : queryValid query = true
  headers : headersValid headers = true

theorem commonValid_admitted (valid : commonValid credentials endpoint method path query headers now = true) :
    Admitted credentials endpoint method query headers := by
  simp only [commonValid, Bool.and_eq_true] at valid
  rcases valid with ⟨⟨⟨⟨⟨⟨⟨⟨_, _⟩, keys⟩, place⟩, verb⟩, _⟩, fields⟩, lines⟩, _⟩
  exact ⟨keys, place, verb, fields, lines⟩

theorem visible_line (named : name ≠ [] ∧ 58 ∉ name ∧ 10 ∉ name)
    (seen : ∀ b ∈ value, Visible b) : LineField 58 10 (name, value) :=
  ⟨named.1, named.2.1, named.2.2, fun mem => (seen _ mem).apart.1 rfl⟩

theorem Admitted.headerFields (call : Admitted credentials endpoint method query headers) :
    ∀ field ∈ headers.map headerField, LineField 58 10 field := by
  intro field mem
  rcases mem_map.mp mem with ⟨header, inside, rfl⟩
  have here := (headersLoop_valid call.headers).1 header inside
  exact headerField_line here.1 here.2

theorem Admitted.host (call : Admitted credentials endpoint method query headers) :
    LineField 58 10 (ascii "host", authority endpoint) :=
  visible_line (by decide) (endpointValid_visible call.endpoint).1

theorem Admitted.token (call : Admitted credentials endpoint method query headers) :
    ∀ token, credentials.sessionToken = some token → ∀ b ∈ token, Visible b := by
  intro token held b mem
  have valid := call.credentials
  rw [credentialsValid, held] at valid
  dsimp only at valid
  split_ifs at valid
  have here := all_eq_true.mp valid b mem
  simp only [Bool.not_eq_true', Bool.or_eq_false_iff, decide_eq_false_iff_not, UInt8.not_lt,
    UInt8.le_iff_toNat_le, gt_iff_lt] at here
  exact here

theorem Admitted.noLine (call : Admitted credentials endpoint method query headers) : 10 ∉ method := by
  have valid := call.method
  rw [methodValid] at valid
  split_ifs at valid
  exact fun mem => absurd (all_eq_true.mp valid 10 mem) (by decide)

theorem percentEncodePath_noLine (path : Bytes) : 10 ∉ percentEncodePath path := fun mem =>
  (encoded_apart (percentEncodePath_encoded _ mem)).2.2.1 rfl

theorem canonicalQuery_clean : ∀ field ∈ query.map encodedField, QueryField field := by
  intro field mem
  rcases mem_map.mp mem with ⟨raw, _, rfl⟩
  exact encodedField_query

end Calls

end Align.S3
