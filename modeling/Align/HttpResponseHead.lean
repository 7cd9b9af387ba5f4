import Align.HttpFields

/-! The response head: its line grammars with the checks made on unfinished
lines, the whole-head parse, and the decisions read off its fields. A check on an
unfinished line refuses only what no longer line can mend. -/
namespace Align.Http
open Segments List

def httpResponseValueByte (b : UInt8) : Bool :=
  b == tab || b == blank || (0x21 ≤ b && b ≤ 0x7e) || 0x80 ≤ b

def httpValidateStatusLine (text : Bytes) : Bool :=
  !(text.length < 13 ||
    (text.take 8 != ascii "HTTP/1.0" && text.take 8 != ascii "HTTP/1.1") ||
    text[8]? != some blank ||
    !(slice text 9 12).all isDigit ||
    text[9]? == some 48 ||
    text[12]? != some blank ||
    !(text.drop 13).all httpResponseValueByte)

def httpValidateStatusPrefix (start : Bytes) : Bool :=
  let version := ascii "HTTP/1."
  !(start.take (min start.length version.length) != version.take (min start.length version.length) ||
    (7 < start.length && !(start[7]? == some 48 || start[7]? == some 49)) ||
    (8 < start.length && start[8]? != some blank) ||
    (9 < start.length && !start[9]?.any isDigit) ||
    (10 < start.length && !start[10]?.any isDigit) ||
    (11 < start.length && !start[11]?.any isDigit) ||
    (12 < start.length && start[12]? != some blank) ||
    (13 < start.length && !(start.drop 13).all httpResponseValueByte))

/-- The place of the colon in a well-formed header line. -/
def httpValidateHeaderLine (line : Bytes) : Option Nat :=
  match memchr colon line with
  | none => none
  | some colonAt =>
      if colonAt == 0 || !httpIsToken (line.take colonAt) ||
          !(line.drop (colonAt + 1)).all httpResponseValueByte then none
      else some colonAt

def httpValidateHeaderPrefix (start : Bytes) : Bool :=
  match memchr colon start with
  | some colonAt =>
      !(colonAt == 0 || !httpIsToken (start.take colonAt) ||
        !(start.drop (colonAt + 1)).all httpResponseValueByte)
  | none => start.isEmpty || httpIsToken start

structure HttpDecimalSpan where
  start : Nat
  len : Nat
deriving DecidableEq, Repr

def httpNormalizeDecimal (src : Bytes) (start : Nat) : Nat → HttpDecimalSpan
  | len + 2 =>
      if src[start]? = some 48 then httpNormalizeDecimal src (start + 1) (len + 1)
      else { start, len := len + 2 }
  | len => { start, len }

def decimalDigits (src : Bytes) (span : HttpDecimalSpan) : Bytes :=
  slice src span.start (span.start + span.len)

def httpDecimalSpansEqual (src : Bytes) (a b : HttpDecimalSpan) : Bool :=
  a.len == b.len && decimalDigits src a == decimalDigits src b

/-- The codings of one field, counted on top of `count`; each turn takes at least one
byte of the value. -/
def transferCodings : Nat → Bytes → Nat → Except HttpParseErr Nat
  | 0, _, _ => .error .invalid
  | fuel + 1, value, count =>
      let value := value.dropWhile isOws
      let coding := value.takeWhile isTchar
      if coding.isEmpty || !eqIgnoreAsciiCase coding (ascii "chunked") then .error .invalid
      else
        let value := (value.dropWhile isTchar).dropWhile isOws
        match value with
        | [] => .ok (count + 1)
        | b :: rest =>
            if b == 59 then .error .invalid
            else if b != 44 then .error .invalid
            else if rest.isEmpty then .error .invalid
            else transferCodings fuel rest (count + 1)

def httpParseTransferEncoding (value : Bytes) (count : Nat) : Except HttpParseErr Nat :=
  transferCodings (value.length + 1) value count

structure HttpHead where
  status : Nat
  headers : List HttpHeaderSpan
  bodyStart : Nat
  contentLength : Option HttpDecimalSpan
  chunked : Bool
  http11 : Bool
deriving DecidableEq, Repr

def httpNextLine (src : Bytes) (pos : Nat) : Except HttpParseErr (Option (Nat × Nat × Nat)) :=
  match memchr lf (src.drop pos) with
  | none => .ok none
  | some rel =>
      let nl := rel + pos
      if nl = pos ∨ src[nl - 1]? ≠ some cr then .error .invalid
      else .ok (some (pos, nl - pos - 1, nl + 1))

def digitAt (text : Bytes) (i : Nat) : Nat := (text[i]?.getD 48).toNat - 48

def statusCode (line : Bytes) : Nat := digitAt line 9 * 100 + digitAt line 10 * 10 + digitAt line 11

/-- Framing facts gathered from the fields of a head. -/
structure Framing where
  contentLength : Option HttpDecimalSpan
  transferCodings : Nat
deriving DecidableEq, Repr

/-- The header line in `src` from `start`: its span and what it adds to the framing. -/
def responseHeaderLine (src : Bytes) (start len : Nat) (framing : Framing) :
    Except HttpParseErr (HttpHeaderSpan × Framing) :=
  match httpValidateHeaderLine (slice src start (start + len)) with
  | none => .error .invalid
  | some colonAt =>
      let (valueStart, valueLen) := httpTrimOws src (start + colonAt + 1) (len - colonAt - 1)
      let name := slice src start (start + colonAt)
      let value := slice src valueStart (valueStart + valueLen)
      let span : HttpHeaderSpan := { nameStart := start, nameLen := colonAt, valueStart, valueLen }
      if eqIgnoreAsciiCase name (ascii "content-length") then
        if value.isEmpty || !value.all isDigit then .error .invalid
        else
          let normalized := httpNormalizeDecimal src valueStart valueLen
          if framing.contentLength.any fun previous =>
              !httpDecimalSpansEqual src previous normalized then .error .invalid
          else .ok (span, { framing with contentLength := some normalized })
      else if eqIgnoreAsciiCase name (ascii "transfer-encoding") then
        match httpParseTransferEncoding value framing.transferCodings with
        | .error e => .error e
        | .ok count => .ok (span, { framing with transferCodings := count })
      else .ok (span, framing)

/-- Header lines up to the blank one: the spans, the framing and the body's start. -/
def parseHeadLoop (src : Bytes) : Nat → Nat → List HttpHeaderSpan → Framing →
    Except HttpParseErr (List HttpHeaderSpan × Framing × Nat)
  | 0, _, _, _ => .error .incomplete
  | fuel + 1, pos, headers, framing =>
      match httpNextLine src pos with
      | .error e => .error e
      | .ok none => .error .incomplete
      | .ok (some (start, len, next)) =>
          if len = 0 then .ok (headers, framing, next)
          else if httpMaxHeaders ≤ headers.length then .error .invalid
          else
            match responseHeaderLine src start len framing with
            | .error e => .error e
            | .ok (span, framing) => parseHeadLoop src fuel next (headers ++ [span]) framing

def httpParseHead (src : Bytes) : Except HttpParseErr HttpHead :=
  match httpNextLine src 0 with
  | .error e => .error e
  | .ok none => .error .incomplete
  | .ok (some (start, len, next)) =>
      let line := slice src start (start + len)
      if !httpValidateStatusLine line then .error .invalid
      else
        let http11 := line.take 8 == ascii "HTTP/1.1"
        match parseHeadLoop src (src.length + 1) next []
            { contentLength := none, transferCodings := 0 } with
        | .error e => .error e
        | .ok (headers, framing, bodyStart) =>
            if 1 < framing.transferCodings || (framing.transferCodings == 1 &&
                (!http11 || framing.contentLength.isSome)) then .error .invalid
            else .ok
              { status := statusCode line, headers, bodyStart
                contentLength := framing.contentLength
                chunked := framing.transferCodings == 1, http11 }

def isAsciiWhitespace (b : UInt8) : Bool := b == 32 || b == 9 || b == 10 || b == 12 || b == 13

def trimAscii (s : Bytes) : Bytes := (s.dropWhile isAsciiWhitespace).rdropWhile isAsciiWhitespace

/-- One `Connection` value; `none` once a `close` token was met. -/
def connectionTokens (keep : Bool) (value : Bytes) : Option Bool :=
  (value.splitOnP (· == 44)).foldlM (fun keep token =>
    if eqIgnoreAsciiCase (trimAscii token) (ascii "close") then none
    else some (keep || eqIgnoreAsciiCase (trimAscii token) (ascii "keep-alive"))) keep

def httpHeadKeepAlive (head : HttpHead) (buf : Bytes) : Bool :=
  (head.headers.foldlM (fun keep h =>
    if eqIgnoreAsciiCase (slice buf h.nameStart (h.nameStart + h.nameLen)) (ascii "connection") then
      connectionTokens keep (slice buf h.valueStart (h.valueStart + h.valueLen))
    else some keep) head.http11).getD false

/-- The checks made on an unfinished line after each delivery. -/
def partialLineOk (isFirst : Bool) (start : Bytes) : Bool :=
  if (memchr cr start).any fun at_ => at_ + 1 != start.length then false
  else
    let completeLine := start.getLast? == some cr
    let line := if completeLine then start.dropLast else start
    if isFirst && completeLine then httpValidateStatusLine line
    else if isFirst then httpValidateStatusPrefix line
    else if completeLine && !line.isEmpty then (httpValidateHeaderLine line).isSome
    else httpValidateHeaderPrefix line

theorem memchr_some_split (hit : memchr needle hay = some at_) :
    ∃ before after, hay = before ++ needle :: after ∧ needle ∉ before ∧ before.length = at_ := by
  rcases findIdx?_eq_some_iff_getElem.mp hit with ⟨bound, found, earlier⟩
  refine ⟨hay.take at_, hay.drop (at_ + 1), ?_, ?_, ?_⟩
  · rw [← beq_iff_eq.mp found, ← drop_eq_getElem_cons bound, take_append_drop]
  · intro inside
    rcases mem_take_iff_getElem.mp inside with ⟨i, small, same⟩
    have differs := earlier i (by omega)
    rw [same, beq_self_eq_true] at differs
    exact differs rfl
  · rw [length_take]
    omega

theorem memchr_none (miss : memchr needle hay = none) :
    needle ∉ hay := by
  intro inside
  have differs := findIdx?_eq_none_iff.mp miss needle inside
  rw [beq_self_eq_true] at differs
  cases differs

theorem memchr_eq_none (absent : needle ∉ hay) :
    memchr needle hay = none := by
  cases hit : memchr needle hay with
  | none => rfl
  | some at_ =>
    rcases memchr_some_split hit with ⟨before, after, rfl, _, _⟩
    exact absurd (mem_append_right _ mem_cons_self) absent

inductive HeaderPlace where
  | start
  | name
  | value
deriving DecidableEq

def headerByte : HeaderPlace → UInt8 → Option HeaderPlace
  | .start, b => if isTchar b then some .name else none
  | .name, b => if b = colon then some .value else if isTchar b then some .name else none
  | .value, b => if httpResponseValueByte b then some .value else none

def headerRun (place : HeaderPlace) (text : Bytes) : Option HeaderPlace := text.foldlM headerByte place

theorem headerRun_append (place : HeaderPlace) (first second : Bytes) :
    headerRun place (first ++ second) = (headerRun place first).bind (headerRun · second) :=
  foldlM_append

theorem headerRun_front (runs : (headerRun place (first ++ second)).isSome = true) :
    (headerRun place first).isSome = true := by
  rw [headerRun_append] at runs
  cases whole : headerRun place first with
  | none =>
    rw [whole] at runs
    cases runs
  | some next => rfl

variable (text : Bytes)

theorem headerRun_value :
    (headerRun .value text).isSome = text.all httpResponseValueByte := by
  induction text with
  | nil => rfl
  | cons b rest ih =>
    rw [headerRun, foldlM_cons, headerByte, all_cons]
    cases httpResponseValueByte b with
    | true => exact ih
    | false => rfl

theorem headerRun_name (absent : colon ∉ text) :
    headerRun .name text = if text.all isTchar then some .name else none := by
  induction text with
  | nil => rfl
  | cons b rest ih =>
    rw [mem_cons, not_or] at absent
    rw [headerRun, foldlM_cons, headerByte, if_neg (Ne.symm absent.1), all_cons]
    cases isTchar b with
    | true => exact ih absent.2
    | false => rfl

theorem headerRun_start (absent : colon ∉ text) (some_ : text ≠ []) :
    headerRun .start text = if httpIsToken text then some .name else none := by
  cases text with
  | nil => exact absurd rfl some_
  | cons b rest =>
    rw [mem_cons, not_or] at absent
    rw [headerRun, foldlM_cons, headerByte, httpIsToken, isEmpty_cons, Bool.not_false, Bool.true_and,
      all_cons]
    cases isTchar b with
    | true => exact headerRun_name _ absent.2
    | false => rfl

theorem headerRun_colon (absent : colon ∉ name) :
    (headerRun .start (name ++ colon :: value)).isSome =
      (httpIsToken name && value.all httpResponseValueByte) := by
  by_cases none_ : name = []
  · subst none_
    rfl
  rw [headerRun_append, headerRun_start _ absent none_]
  cases httpIsToken name with
  | true => exact headerRun_value _
  | false => rfl

theorem httpValidateHeaderPrefix_eq (start : Bytes) :
    httpValidateHeaderPrefix start = (headerRun .start start).isSome := by
  rw [httpValidateHeaderPrefix]
  cases hit : memchr colon start with
  | none =>
    have absent := memchr_none hit
    cases start with
    | nil => rfl
    | cons b rest =>
      rw [headerRun_start _ absent (cons_ne_nil _ _)]
      dsimp only [isEmpty_cons]
      cases httpIsToken (b :: rest) with
      | true => rfl
      | false => rfl
  | some colonAt =>
    rcases memchr_some_split hit with ⟨name, value, rfl, absent, rfl⟩
    rw [headerRun_colon absent]
    dsimp only
    cases name with
    | nil => rfl
    | cons b rest => simp

theorem httpValidateHeaderLine_run (ok : (httpValidateHeaderLine line).isSome = true) :
    (headerRun .start line).isSome = true := by
  rw [← httpValidateHeaderPrefix_eq, httpValidateHeaderPrefix]
  rw [httpValidateHeaderLine] at ok
  grind

def statusByte (i : Nat) (b : UInt8) : Bool :=
  if i < 7 then (ascii "HTTP/1.")[i]? == some b
  else if i = 7 then b == 48 || b == 49
  else if i = 8 ∨ i = 12 then b == blank
  else if i < 12 then isDigit b
  else httpResponseValueByte b

def StatusBytes (text : Bytes) : Prop := ∀ i b, text[i]? = some b → statusByte i b = true

theorem statusBytes_front (bytes : StatusBytes (first ++ second)) :
    StatusBytes first := by
  intro i b here
  apply bytes i b
  rw [getElem?_append_left (List.getElem?_eq_some_iff.mp here).1]
  exact here

theorem all_drop_iff (ok : UInt8 → Bool) :
    (text.drop from_).all ok = true ↔ ∀ i b, from_ ≤ i → text[i]? = some b → ok b = true := by
  rw [all_eq_true]
  constructor
  · intro each i b late here
    apply each b
    rw [mem_iff_getElem?]
    refine ⟨i - from_, ?_⟩
    rw [getElem?_drop, Nat.add_sub_cancel' late]
    exact here
  · intro each b inside
    rcases mem_iff_getElem?.mp inside with ⟨i, here⟩
    rw [getElem?_drop] at here
    exact each _ b (Nat.le_add_right _ _) here

theorem take_min_iff (version : Bytes) :
    text.take (min text.length version.length) = version.take (min text.length version.length) ↔
      ∀ i b, i < version.length → text[i]? = some b → version[i]? = some b := by
  constructor
  · intro same i b small here
    have inside := (List.getElem?_eq_some_iff.mp here).1
    have place : (text.take (min text.length version.length))[i]? =
      (version.take (min text.length version.length))[i]? := by rw [same]
    rw [getElem?_take_of_lt (by omega), getElem?_take_of_lt (by omega), here] at place
    exact place.symm
  · intro each
    apply ext_getElem?
    intro i
    by_cases small : i < min text.length version.length
    · rw [getElem?_take_of_lt small, getElem?_take_of_lt small, getElem?_eq_getElem (by omega)]
      exact (each i _ (by omega) (getElem?_eq_getElem (by omega))).symm
    rw [getElem?_eq_none, getElem?_eq_none]
    · rw [length_take]
      omega
    · rw [length_take]
      omega

theorem short_or_iff (k : Nat) (ok : UInt8 → Bool) :
    (text.length ≤ k ∨ text[k]?.any ok = true) ↔ ∀ b, text[k]? = some b → ok b = true := by
  cases here : text[k]? with
  | none =>
    have short := List.getElem?_eq_none_iff.mp here
    constructor
    · intro _ b absurd_
      cases absurd_
    · exact fun _ => Or.inl short
  | some b =>
    have long := (List.getElem?_eq_some_iff.mp here).1
    constructor
    · intro either c same
      cases same
      rcases either with short | holds
      · omega
      · exact holds
    · intro each
      exact Or.inr (each b rfl)

theorem statusBytes_iff :
    StatusBytes text ↔
      (∀ i b, i < 7 → text[i]? = some b → (ascii "HTTP/1.")[i]? = some b) ∧
      (∀ b, text[7]? = some b → (b == 48 || b == 49) = true) ∧
      (∀ b, text[8]? = some b → (b == blank) = true) ∧
      (∀ b, text[9]? = some b → isDigit b = true) ∧
      (∀ b, text[10]? = some b → isDigit b = true) ∧
      (∀ b, text[11]? = some b → isDigit b = true) ∧
      (∀ b, text[12]? = some b → (b == blank) = true) ∧
      ∀ i b, 13 ≤ i → text[i]? = some b → httpResponseValueByte b = true := by
  constructor
  · intro bytes
    refine ⟨?_, bytes 7, bytes 8, bytes 9, bytes 10, bytes 11, bytes 12, ?_⟩
    · intro i b small here
      have ok := bytes i b here
      rw [statusByte, if_pos small] at ok
      exact beq_iff_eq.mp ok
    · intro i b late here
      have ok := bytes i b here
      rw [statusByte, if_neg (by omega), if_neg (by omega), if_neg (by omega), if_neg (by omega)] at ok
      exact ok
  · rintro ⟨version, minor, space, first, second, third, gap, reason⟩ i b here
    by_cases small : i < 7
    · rw [statusByte, if_pos small]
      exact beq_iff_eq.mpr (version i b small here)
    by_cases late : 13 ≤ i
    · rw [statusByte, if_neg small, if_neg (by omega), if_neg (by omega), if_neg (by omega)]
      exact reason i b late here
    have places : i = 7 ∨ i = 8 ∨ i = 9 ∨ i = 10 ∨ i = 11 ∨ i = 12 := by omega
    rcases places with rfl | rfl | rfl | rfl | rfl | rfl
    · exact minor b here
    · exact space b here
    · exact first b here
    · exact second b here
    · exact third b here
    · exact gap b here

theorem httpValidateStatusPrefix_iff :
    httpValidateStatusPrefix start = true ↔ StatusBytes start := by
  have version := take_min_iff start (ascii "HTTP/1.")
  have length : (ascii "HTTP/1.").length = 7 := by decide
  have reason : (start.length ≤ 13 ∨ (start.drop 13).all httpResponseValueByte = true) ↔
    ∀ i b, 13 ≤ i → start[i]? = some b → httpResponseValueByte b = true := by
    rw [← all_drop_iff _ _]
    constructor
    · rintro (short | holds)
      · rw [drop_eq_nil_of_le short]
        rfl
      · exact holds
    · exact Or.inr
  have minor : (start[7]? == some 48 || start[7]? == some 49) =
    start[7]?.any fun b => b == 48 || b == 49 := by
    cases start[7]? with
    | none => rfl
    | some b => rfl
  have isBlank : ∀ k : Nat, start[k]? = some blank ↔ start[k]?.any (· == blank) = true := by
    intro k
    cases start[k]? with
    | none => decide
    | some b => simp
  rw [httpValidateStatusPrefix, statusBytes_iff]
  simp only [Bool.not_eq_true', Bool.or_eq_false_iff, bne_eq_false_iff_eq, Bool.and_eq_false_iff,
    decide_eq_false_iff_not, Bool.not_eq_false', Nat.not_lt]
  rw [version, minor, isBlank 8, isBlank 12, short_or_iff, short_or_iff, short_or_iff, short_or_iff,
    short_or_iff, short_or_iff, reason, length]
  tauto

theorem httpValidateStatusLine_bytes {text : Bytes} (ok : httpValidateStatusLine text = true) :
    StatusBytes text := by
  rw [httpValidateStatusLine] at ok
  simp only [Bool.not_eq_true', Bool.or_eq_false_iff, bne_eq_false_iff_eq, Bool.and_eq_false_iff,
    decide_eq_false_iff_not, Bool.not_eq_false', Nat.not_lt] at ok
  rcases ok with ⟨⟨⟨⟨⟨⟨_, version⟩, space⟩, digits⟩, _⟩, gap⟩, reason⟩
  have place : ∀ i : Nat, i < 8 → text[i]? = (ascii "HTTP/1.0")[i]? ∨ text[i]? = (ascii "HTTP/1.1")[i]? := by
    intro i small
    rcases version with same | same
    · exact Or.inl (by rw [← same, getElem?_take_of_lt small])
    · exact Or.inr (by rw [← same, getElem?_take_of_lt small])
  have digit : ∀ (i : Nat) (b : UInt8), 9 ≤ i → i < 12 → text[i]? = some b → isDigit b = true := by
    intro i b low high here
    apply all_eq_true.mp digits b
    rw [slice, mem_iff_getElem?]
    refine ⟨i - 9, ?_⟩
    rw [getElem?_take_of_lt (by omega), getElem?_drop, Nat.add_sub_cancel' low]
    exact here
  rw [statusBytes_iff]
  refine ⟨?_, ?_, ?_, ?_, ?_, ?_, ?_, (all_drop_iff _ _).mp reason⟩
  · intro i b small here
    have shared : ∀ i < 7, (ascii "HTTP/1.0")[i]? = (ascii "HTTP/1.")[i]? ∧
      (ascii "HTTP/1.1")[i]? = (ascii "HTTP/1.")[i]? := by decide
    rcases place i (by omega) with same | same
    · rw [← (shared i small).1, ← same, here]
    · rw [← (shared i small).2, ← same, here]
  · intro b here
    rcases place 7 (by omega) with same | same
    · rw [here] at same
      cases same
      decide
    · rw [here] at same
      cases same
      decide
  · intro b here
    rw [here] at space
    cases space
    exact beq_self_eq_true _
  · exact fun b => digit 9 b (by omega) (by omega)
  · exact fun b => digit 10 b (by omega) (by omega)
  · exact fun b => digit 11 b (by omega) (by omega)
  · intro b here
    rw [here] at gap
    cases gap
    exact beq_self_eq_true _

/-- What is asked of a line without its line end. -/
def lineOk (isFirst : Bool) (line : Bytes) : Bool :=
  if isFirst then httpValidateStatusLine line
  else line.isEmpty || (httpValidateHeaderLine line).isSome

def prefixOk (isFirst : Bool) (start : Bytes) : Bool :=
  if isFirst then httpValidateStatusPrefix start else httpValidateHeaderPrefix start

theorem prefixOk_prefix (ok : prefixOk isFirst (first ++ second) = true) : prefixOk isFirst first = true := by
  cases isFirst with
  | true =>
    have bytes := (httpValidateStatusPrefix_iff).mp ok
    exact (httpValidateStatusPrefix_iff).mpr (statusBytes_front bytes)
  | false =>
    have runs := (httpValidateHeaderPrefix_eq _).symm.trans ok
    exact (httpValidateHeaderPrefix_eq _).trans (headerRun_front runs)

theorem prefixOk_of_lineOk (ok : lineOk isFirst line = true) :
    prefixOk isFirst line = true := by
  cases isFirst with
  | true => exact (httpValidateStatusPrefix_iff).mpr (httpValidateStatusLine_bytes ok)
  | false =>
    rcases Bool.or_eq_true_iff.mp ok with none_ | some_
    · rw [List.isEmpty_iff.mp none_]
      decide
    · exact (httpValidateHeaderPrefix_eq _).trans (httpValidateHeaderLine_run some_)

theorem prefixOk_no_cr (ok : prefixOk isFirst start = true) :
    cr ∉ start := by
  intro inside
  rcases append_of_mem inside with ⟨before, after, rfl⟩
  have short : prefixOk isFirst (before ++ [cr]) = true := by
    rw [append_cons] at ok
    exact prefixOk_prefix ok
  cases isFirst with
  | true =>
    have bytes := (httpValidateStatusPrefix_iff).mp short
    have place := bytes before.length cr (by rw [getElem?_append_right (Nat.le_refl _)]; simp)
    have none_ : ∀ i < 7, ((ascii "HTTP/1.")[i]? == some cr) = false := by decide
    rw [statusByte] at place
    by_cases small : before.length < 7
    · rw [if_pos small, none_ _ small] at place
      cases place
    · split_ifs at place
      all_goals exact absurd place (by decide)
  | false =>
    have runs := (httpValidateHeaderPrefix_eq _).symm.trans short
    rw [headerRun_append] at runs
    rcases place : headerRun .start before with _ | next
    · rw [place] at runs
      cases runs
    rw [place] at runs
    cases next
    all_goals exact absurd runs (by decide)

theorem partialLineOk_open (absent : cr ∉ start) :
    partialLineOk isFirst start = prefixOk isFirst start := by
  have last : (start.getLast? == some cr) = false := by
    rw [beq_eq_false_iff_ne]
    exact fun same => absent (mem_of_getLast? same)
  rw [partialLineOk, memchr_eq_none absent, prefixOk]
  rw [last]
  cases isFirst <;> rfl

theorem partialLineOk_closed (absent : cr ∉ line) :
    partialLineOk isFirst (line ++ [cr]) = lineOk isFirst line := by
  rw [partialLineOk, memchr_at absent [], lineOk]
  have last : ((line ++ [cr]).getLast? == some cr) = true := by
    rw [getLast?_concat, beq_self_eq_true]
  rw [last, if_neg]
  · dsimp only
    rw [if_pos rfl, dropLast_concat]
    cases isFirst with
    | true => rfl
    | false =>
      cases line with
      | nil => decide
      | cons b rest => rfl
  · simp

theorem partialLineOk_front (some_ : second ≠ [])
    (ok : partialLineOk isFirst (first ++ second) = true) : partialLineOk isFirst first = true := by
  rcases eq_nil_or_concat' second with none_ | ⟨more, b, rfl⟩
  · exact absurd none_ some_
  have early : cr ∉ first ++ more := by
    intro inside
    rcases hit : memchr cr (first ++ more) with _ | at_
    · exact memchr_none hit inside
    have bound := memchr_lt hit
    rw [partialLineOk, ← append_assoc, memchr_append_some [b] hit, if_pos] at ok
    · cases ok
    · rw [Option.any_some, bne_iff_ne, length_append, length_singleton]
      omega
  have short : prefixOk isFirst (first ++ more) = true := by
    by_cases isCr : b = cr
    · subst isCr
      rw [← append_assoc, partialLineOk_closed early] at ok
      exact prefixOk_of_lineOk ok
    have absent : cr ∉ first ++ (more ++ [b]) := by
      rw [← append_assoc, mem_append, not_or]
      exact ⟨early, fun inside => isCr (mem_singleton.mp inside).symm⟩
    rw [partialLineOk_open absent, ← append_assoc] at ok
    exact prefixOk_prefix ok
  have absent : cr ∉ first := fun inside => early (mem_append_left _ inside)
  rw [partialLineOk_open absent]
  exact prefixOk_prefix short

theorem partialLineOk_of_lineOk (ok : lineOk isFirst line = true) (cut : line ++ [cr] = first ++ second) :
    partialLineOk isFirst first = true := by
  have whole : partialLineOk isFirst (line ++ [cr]) = true := by
    rw [partialLineOk_closed (prefixOk_no_cr (prefixOk_of_lineOk ok))]
    exact ok
  by_cases none_ : second = []
  · rw [none_, append_nil] at cut
    rw [← cut]
    exact whole
  · rw [cut] at whole
    exact partialLineOk_front none_ whole

theorem httpNextLine_at {text line rest : Bytes} {pos : Nat}
    (here : text.drop pos = line ++ cr :: lf :: rest) (inner : lf ∉ line) :
    httpNextLine text pos = .ok (some (pos, line.length, pos + line.length + 2)) := by
  have hit : memchr lf (text.drop pos) = some (line.length + 1) := by
    have split : line ++ cr :: lf :: rest = (line ++ [cr]) ++ lf :: rest := by
      rw [append_assoc, singleton_append]
    have absent : lf ∉ line ++ [cr] := by
      rw [mem_append, not_or, mem_singleton]
      exact ⟨inner, by decide⟩
    rw [here, split, memchr_at absent _, length_append, length_singleton]
  have before : text[line.length + 1 + pos - 1]? = some cr := by
    have at_ : (text.drop pos)[line.length]? = some cr := by
      rw [here, getElem?_append_right (Nat.le_refl _), Nat.sub_self]
      rfl
    rw [getElem?_drop] at at_
    rw [← at_]
    congr 1
    omega
  rw [httpNextLine, hit]
  dsimp only
  rw [before, if_neg (by rw [not_or]; exact ⟨by omega, not_not.mpr rfl⟩)]
  congr 4
  · omega
  · omega

def joinLines (lines : List Bytes) : Bytes := lines.flatMap (· ++ [cr, lf])

theorem joinLines_cons (line : Bytes) (lines : List Bytes) (rest : Bytes) :
    joinLines (line :: lines) ++ rest = line ++ cr :: lf :: (joinLines lines ++ rest) := by
  rw [joinLines, flatMap_cons, append_assoc, append_assoc]
  rfl

theorem drop_line {text rest : Bytes}
    (here : text.drop pos = line ++ cr :: lf :: rest) : text.drop (pos + line.length + 2) = rest := by
  rw [Nat.add_assoc, ← drop_drop, here, ← drop_drop, drop_left]
  rfl

theorem parseHeadLoop_end {text : Bytes} (fuel pos : Nat) (headers : List HttpHeaderSpan) (framing : Framing)
    (here : text.drop pos = joinLines lines ++ [cr, lf]) (inner : ∀ line ∈ lines, lf ∉ line)
    (nonblank : ∀ line ∈ lines, line ≠ [])
    (parsed : parseHeadLoop text fuel pos headers framing = .ok (headers', framing', bodyStart)) :
    bodyStart = text.length := by
  induction lines generalizing fuel pos headers framing with
  | nil =>
    have length := congrArg List.length here
    rw [length_drop] at length
    have two : text.length - pos = 2 := length
    cases fuel with
    | zero => cases parsed
    | succ fuel =>
      have blank_ : httpNextLine text pos = .ok (some (pos, 0, pos + 2)) :=
        @httpNextLine_at text [] [] pos here not_mem_nil
      rw [parseHeadLoop, blank_] at parsed
      cases parsed
      omega
  | cons line lines ih =>
    rw [joinLines_cons] at here
    cases fuel with
    | zero => cases parsed
    | succ fuel =>
      rw [parseHeadLoop, httpNextLine_at here (inner line mem_cons_self)] at parsed
      dsimp only at parsed
      have some_ : ¬ line.length = 0 := fun empty =>
        nonblank line mem_cons_self (eq_nil_of_length_eq_zero empty)
      split_ifs at parsed
      rcases read : responseHeaderLine text pos line.length framing with _ | result
      · rw [read] at parsed
        cases parsed
      rw [read] at parsed
      exact ih fuel _ _ _ (drop_line here) (forall_mem_cons.mp inner).2
        (forall_mem_cons.mp nonblank).2 parsed

theorem httpParseHead_bodyStart {text status : Bytes} {head : HttpHead}
    (form : text = joinLines (status :: lines) ++ [cr, lf]) (first : lf ∉ status)
    (inner : ∀ line ∈ lines, lf ∉ line) (nonblank : ∀ line ∈ lines, line ≠ [])
    (parsed : httpParseHead text = .ok head) : head.bodyStart = text.length := by
  have here : text.drop 0 = status ++ cr :: lf :: (joinLines lines ++ [cr, lf]) := by
    rw [drop_zero, ← joinLines_cons]
    exact form
  rw [httpParseHead, httpNextLine_at here first] at parsed
  dsimp only at parsed
  split_ifs at parsed
  cases loop : parseHeadLoop text (text.length + 1) (0 + status.length + 2) []
    { contentLength := none, transferCodings := 0 } with
  | error e =>
    rw [loop] at parsed
    cases parsed
  | ok result =>
    rw [loop] at parsed
    dsimp only at parsed
    split_ifs at parsed
    cases parsed
    exact parseHeadLoop_end _ _ _ _ (drop_line here) inner nonblank loop

end Align.Http
