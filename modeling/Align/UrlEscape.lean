import Align.Hex
import Align.Scan

/-! Percent encoding and form encoding as the runtime computes them: a length
count over chunks of narrow counters, writers that copy a prefix of unchanged
width before they go byte by byte, and decoders that copy whole ordinary runs.
A size that does not fit a machine word, an index outside the destination and
a failed assertion are all no result. -/
namespace Align.UrlEscape
open Transcode Hex List Option

abbrev Bytes := List UInt8

def percentByte : UInt8 := 0x25

def plusByte : UInt8 := 0x2B

def spaceByte : UInt8 := 0x20

def slashByte : UInt8 := 0x2F

def isUnreserved (b : UInt8) : Bool :=
  (0x30 ≤ b && b ≤ 0x39) || (0x41 ≤ b && b ≤ 0x5A) || (0x61 ≤ b && b ≤ 0x7A) ||
    b == 0x2D || b == 0x2E || b == 0x5F || b == 0x7E

/-- The unreserved set spelled as lane comparisons, with the two optional bytes. -/
def unescaped (slash space : Bool) (byte : UInt8) : Bool :=
  (byte ||| 0x20) - 0x61 ≤ 25 || byte - 0x30 ≤ 9 ||
    byte == 0x2D || byte == 0x2E || byte == 0x5F || byte == 0x7E ||
    (slash && byte == slashByte) || (space && byte == spaceByte)

def chunkCount (slash space : Bool) (chunk : Bytes) : UInt8 :=
  chunk.foldl (fun count byte => count + if unescaped slash space byte then 0 else 1) 0

def escapedByteCount (slash space : Bool) (data : Bytes) : Nat :=
  if data.length = 0 then 0
  else (chunkCount slash space (data.take 128)).toNat +
    escapedByteCount slash space (data.drop 128)
termination_by data.length
decreasing_by
  rw [length_drop]
  omega

/-- Whole chunks in front of the first one that expands. -/
def sameWidthChunks (slash space : Bool) (data : Bytes) : Nat :=
  if 128 ≤ data.length ∧ escapedByteCount slash space (data.take 128) = 0 then
    128 + sameWidthChunks slash space (data.drop 128)
  else 0
termination_by data.length
decreasing_by
  rw [length_drop]
  omega

def escapedSameWidthPrefix (slash space : Bool) (data : Bytes) : Nat :=
  if data.length < 512 then 0 else sameWidthChunks slash space data

def upperHex : Bytes :=
  (List.range 10).map (fun i => UInt8.ofNat (0x30 + i)) ++
    (List.range 6).map (fun i => UInt8.ofNat (0x41 + i))

def escapeTriple (b : UInt8) : Bytes :=
  [percentByte, upperHex.getD (b >>> 4).toNat 0, upperHex.getD (b &&& 0x0F).toNat 0]

/-- What the percent writer emits for one byte. -/
def percentPiece (preserveSlash : Bool) (b : UInt8) : Bytes :=
  if isUnreserved b || (preserveSlash && b == slashByte) then [b] else escapeTriple b

/-- What the form writer emits for one byte. -/
def formPiece (b : UInt8) : Bytes :=
  if b == spaceByte then [plusByte] else if isUnreserved b then [b] else escapeTriple b

/-- A byte-by-byte writer from offset `o` of a destination. -/
def writePieces (piece : UInt8 → Bytes) (outLen : Nat) : Bytes → Nat → Option Bytes
  | [], o => if o = outLen then some [] else none
  | b :: rest, o =>
      if o + (piece b).length ≤ outLen then
        (writePieces piece outLen rest (o + (piece b).length)).map (piece b ++ ·)
      else none

def percentEncodeIntoWithSlash (data : Bytes) (outLen : Nat) (preserveSlash : Bool) :
    Option Bytes :=
  writePieces (percentPiece preserveSlash) outLen data 0

def percentEncodeExpandedInto (slash : Bool) (data : Bytes) (outLen : Nat) : Option Bytes :=
  let count := escapedSameWidthPrefix slash false data
  if outLen < count then none
  else (percentEncodeIntoWithSlash (data.drop count) (outLen - count) slash).map
    (data.take count ++ ·)

def formSameWidthInto (data : Bytes) (outLen : Nat) : Option Bytes :=
  if data.length = outLen then some (data.map fun b => if b == spaceByte then plusByte else b)
  else none

def formEncodeInto (data : Bytes) (outLen : Nat) : Option Bytes :=
  writePieces formPiece outLen data 0

def formEncodeExpandedInto (data : Bytes) (outLen : Nat) : Option Bytes :=
  let count := escapedSameWidthPrefix false true data
  if outLen < count then none
  else match formSameWidthInto (data.take count) count with
    | none => none
    | some text => (formEncodeInto (data.drop count) (outLen - count)).map (text ++ ·)

def checkedUsize (n : Nat) : Option Nat := if n < 2 ^ 64 then some n else none

def percentEncodedLenWithSlash (data : Bytes) (preserveSlash : Bool) : Option Nat :=
  (checkedUsize (escapedByteCount preserveSlash false data * 2)).bind fun extra =>
    checkedUsize (data.length + extra)

def formEncodedLen (data : Bytes) : Option Nat :=
  (checkedUsize (escapedByteCount false true data * 2)).bind fun extra =>
    checkedUsize (data.length + extra)

/-- `encoding.percent_encode`, and the variant that keeps slashes. -/
def percentEncode (preserveSlash : Bool) (data : Bytes) : Option Bytes :=
  (percentEncodedLenWithSlash data preserveSlash).bind fun outLen =>
    if outLen = data.length then some data
    else percentEncodeExpandedInto preserveSlash data outLen

/-- `encoding.form_encode`. -/
def formEncode (data : Bytes) : Option Bytes :=
  (formEncodedLen data).bind fun outLen =>
    if outLen = data.length then formSameWidthInto data outLen
    else formEncodeExpandedInto data outLen

def percentEscapeByte (high low : UInt8) : Option UInt8 :=
  let hi := hexValue high
  let lo := hexValue low
  if hi ||| lo = 0xFF then none else some (hi <<< 4 ||| lo)

/-- The bytes the decoders do not copy; `form` adds the plus sign. -/
def isSpecial (form : Bool) (b : UInt8) : Bool := b == percentByte || (form && b == plusByte)

def escapedLiteralPrefix (form : Bool) (input : Bytes) : Nat :=
  if input.length < 64 then 0
  else if (input.take 16).any (isSpecial form) then 0
  else
    let tail := input.drop 16
    16 + (tail.findIdx? (isSpecial form)).getD tail.length

/-- The loop of both decoders over the rest of the input; `ordinary` counts the
bytes of the current run while bulk copying is on. -/
def decodeLoop (form bulk : Bool) : Bytes → Nat → Option Bytes
  | [], _ => some []
  | b :: rest, ordinary =>
      if form && b == plusByte then (decodeLoop form bulk rest 0).map (spaceByte :: ·)
      else if b == percentByte then
        match rest with
        | high :: low :: rest =>
            match percentEscapeByte high low with
            | none => none
            | some byte => (decodeLoop form bulk rest 0).map (byte :: ·)
        | _ => none
      else
        let ordinary := if bulk then ordinary + 1 else ordinary
        if bulk && ordinary == 16 && 64 ≤ rest.length then
          let copied := (rest.findIdx? (isSpecial form)).getD rest.length
          (decodeLoop form bulk (rest.drop copied) 0).map (b :: rest.take copied ++ ·)
        else (decodeLoop form bulk rest ordinary).map (b :: ·)
termination_by rest => rest.length
decreasing_by
  all_goals simp only [length_cons, length_drop]; omega

def decodeRuns (form bulk : Bool) (input : Bytes) : Option Bytes :=
  let start := escapedLiteralPrefix form input
  (decodeLoop form bulk (input.drop start) 0).map (input.take start ++ ·)

def percentDecodeRuns (bulk : Bool) (input : Bytes) : Option Bytes := decodeRuns false bulk input

def formDecodeRuns (bulk : Bool) (input : Bytes) : Option Bytes := decodeRuns true bulk input

def percentDecodeImpl (input : Bytes) : Option Bytes :=
  if input.length < 80 then percentDecodeRuns false input else percentDecodeRuns true input

def formDecodeImpl (input : Bytes) : Option Bytes :=
  if input.length < 80 then formDecodeRuns false input else formDecodeRuns true input

theorem unescaped_eq (slash space : Bool) (byte : UInt8) :
    unescaped slash space byte =
      (isUnreserved byte || (slash && byte == slashByte) || (space && byte == spaceByte)) := by
  have table : ∀ slash space : Bool, ∀ n < 256, unescaped slash space (UInt8.ofNat n) =
    (isUnreserved (UInt8.ofNat n) || (slash && UInt8.ofNat n == slashByte) ||
      (space && UInt8.ofNat n == spaceByte)) := by
    decide +kernel
  have here := table slash space byte.toNat byte.toNat_lt
  rwa [UInt8.ofNat_toNat] at here

theorem chunkCount_eq (slash space : Bool) (short : chunk.length < 256) :
    (chunkCount slash space chunk).toNat = chunk.countP (!unescaped slash space ·) := by
  have run : ∀ (items : Bytes) (start : UInt8), start.toNat + items.length < 256 →
    (items.foldl (fun count byte => count + if unescaped slash space byte then 0 else 1)
      start).toNat = start.toNat + items.countP (!unescaped slash space ·) := by
    intro items
    induction items with
    | nil => exact fun _ _ => rfl
    | cons byte rest ih =>
      intro start room
      rw [length_cons] at room
      rw [foldl_cons, countP_cons]
      cases plain : unescaped slash space byte with
      | true =>
        simp only [↓reduceIte, UInt8.add_zero, Bool.not_true, Bool.false_eq_true, Nat.add_zero]
        exact ih start (by omega)
      | false =>
        have next : (start + 1).toNat = start.toNat + 1 := by
          rw [UInt8.toNat_add]
          change (start.toNat + 1) % 256 = _
          omega
        simp only [Bool.false_eq_true, ↓reduceIte, Bool.not_false]
        rw [ih (start + 1) (by omega), next]
        omega
  have counted := run chunk 0 (by simpa using short)
  rw [chunkCount, counted]
  exact Nat.zero_add _

theorem escapedByteCount_eq (slash space : Bool) (data : Bytes) :
    escapedByteCount slash space data = data.countP (!unescaped slash space ·) := by
  induction data using (measure (List.length : Bytes → Nat)).wf.induction with
  | _ data ih =>
    unfold escapedByteCount
    by_cases empty : data.length = 0
    · rw [if_pos empty, eq_nil_of_length_eq_zero empty]
      rfl
    have short : (data.take 128).length < 256 := by
      rw [length_take]
      omega
    have shorter : (data.drop 128).length < data.length := by
      rw [length_drop]
      omega
    rw [if_neg empty, chunkCount_eq _ _ short, ih _ shorter, ← countP_append, take_append_drop]

/-! Writing. `plain` is the set of bytes a writer emits as one byte. -/

section Writers

variable (piece : UInt8 → Bytes) (plain : UInt8 → Bool)

theorem pieces_length (width : ∀ b, (piece b).length = if plain b then 1 else 3) (data : Bytes) :
    (data.flatMap piece).length = data.length + data.countP (!plain ·) * 2 := by
  induction data with
  | nil => rfl
  | cons b rest ih =>
    rw [flatMap_cons, length_append, width, ih, length_cons, countP_cons]
    cases plain b
    · simp only [Bool.false_eq_true, ↓reduceIte, Bool.not_false]
      omega
    · simp only [↓reduceIte, Bool.not_true, Bool.false_eq_true]
      omega

theorem writePieces_exact {outLen : Nat} {data : Bytes} (o : Nat)
    (fits : o + (data.flatMap piece).length = outLen) :
    writePieces piece outLen data o = some (data.flatMap piece) := by
  induction data generalizing o with
  | nil => exact if_pos fits
  | cons b rest ih =>
    rw [flatMap_cons, length_append] at fits
    rw [writePieces, if_pos (by omega), ih _ (by omega)]
    rfl

theorem flatMap_plain (single : UInt8 → UInt8) (each : ∀ b, plain b = true → piece b = [single b])
    {run : Bytes} (all : ∀ b ∈ run, plain b = true) : run.flatMap piece = run.map single := by
  induction run with
  | nil => rfl
  | cons b rest ih =>
    rw [flatMap_cons, each b (all b mem_cons_self), ih fun c member => all c (mem_cons_of_mem b member)]
    rfl

end Writers

variable (slash space : Bool) (data : Bytes)

theorem sameWidthChunks_plain :
    sameWidthChunks slash space data ≤ data.length ∧
      ∀ b ∈ data.take (sameWidthChunks slash space data), unescaped slash space b = true := by
  induction data using (measure (List.length : Bytes → Nat)).wf.induction with
  | _ data ih =>
    unfold sameWidthChunks
    split
    case isTrue chunk =>
      have shorter : (data.drop 128).length < data.length := by
        rw [length_drop]
        omega
      rcases ih _ shorter with ⟨bound, later⟩
      rw [length_drop] at bound
      constructor
      · omega
      · intro b member
        rw [take_add, mem_append] at member
        rcases member with first | rest
        · have none := chunk.2
          rw [escapedByteCount_eq, countP_eq_zero] at none
          simpa using none b first
        · exact later b rest
    case isFalse _ =>
      constructor
      · exact Nat.zero_le _
      · intro b member
        cases member

theorem escapedSameWidthPrefix_plain :
    escapedSameWidthPrefix slash space data ≤ data.length ∧
      ∀ b ∈ data.take (escapedSameWidthPrefix slash space data),
        unescaped slash space b = true := by
  unfold escapedSameWidthPrefix
  split
  · constructor
    · exact Nat.zero_le _
    · intro b member
      cases member
  · exact sameWidthChunks_plain _ _ _

theorem percentPiece_width (b : UInt8) :
    (percentPiece slash b).length = if unescaped slash false b then 1 else 3 := by
  rw [unescaped_eq, Bool.false_and, Bool.or_false, percentPiece]
  split <;> rfl

theorem percentPiece_plain (b : UInt8) (plain : unescaped slash false b = true) :
    percentPiece slash b = [b] := by
  rw [unescaped_eq, Bool.false_and, Bool.or_false] at plain
  rw [percentPiece, if_pos plain]

theorem formPiece_width (b : UInt8) :
    (formPiece b).length = if unescaped false true b then 1 else 3 := by
  rw [unescaped_eq, Bool.false_and, Bool.or_false, Bool.true_and, formPiece]
  cases b == spaceByte with
  | true => simp
  | false =>
    rw [Bool.or_false, if_neg Bool.false_ne_true]
    split <;> rfl

theorem formPiece_plain (b : UInt8) (plain : unescaped false true b = true) :
    formPiece b = [if b == spaceByte then plusByte else b] := by
  rw [unescaped_eq, Bool.false_and, Bool.or_false, Bool.true_and] at plain
  rw [formPiece]
  cases space : b == spaceByte with
  | true => rfl
  | false =>
    rw [space, Bool.or_false] at plain
    simp only [plain, Bool.false_eq_true, ↓reduceIte]

theorem percentExpanded_exact :
    percentEncodeExpandedInto slash data (data.flatMap (percentPiece slash)).length =
      some (data.flatMap (percentPiece slash)) := by
  rcases escapedSameWidthPrefix_plain _ _ _ with ⟨inside, plain⟩
  have copied := flatMap_plain _ _ id
    (percentPiece_plain _) plain
  rw [List.map_id] at copied
  have cut : data.flatMap (percentPiece slash) = data.take (escapedSameWidthPrefix slash false data) ++
      (data.drop (escapedSameWidthPrefix slash false data)).flatMap (percentPiece slash) := by
    nth_rewrite 1 [← take_append_drop (escapedSameWidthPrefix slash false data) data]
    rw [flatMap_append, copied]
  have size := congrArg List.length cut
  rw [length_append, length_take_of_le inside] at size
  have room : ¬ (data.flatMap (percentPiece slash)).length <
    escapedSameWidthPrefix slash false data := by omega
  simp only [percentEncodeExpandedInto, room, ↓reduceIte, percentEncodeIntoWithSlash]
  rw [writePieces_exact _ _ (by omega), map_some, ← cut]

theorem formExpanded_exact :
    formEncodeExpandedInto data (data.flatMap formPiece).length = some (data.flatMap formPiece) := by
  rcases escapedSameWidthPrefix_plain _ _ _ with ⟨inside, plain⟩
  have copied := flatMap_plain _ _
    _ formPiece_plain plain
  have taken := length_take_of_le inside
  have cut : data.flatMap formPiece = (data.take (escapedSameWidthPrefix false true data)).map
      (fun b => if b == spaceByte then plusByte else b) ++
      (data.drop (escapedSameWidthPrefix false true data)).flatMap formPiece := by
    nth_rewrite 1 [← take_append_drop (escapedSameWidthPrefix false true data) data]
    rw [flatMap_append, copied]
  have size := congrArg List.length cut
  rw [length_append, length_map, taken] at size
  have room : ¬ (data.flatMap formPiece).length < escapedSameWidthPrefix false true data := by omega
  simp only [formEncodeExpandedInto, room, ↓reduceIte, formSameWidthInto, taken, formEncodeInto]
  rw [writePieces_exact _ _ (by omega), map_some, ← cut]

theorem checked_sum (size : Nat) :
    (checkedUsize extra).bind (fun extra => checkedUsize (size + extra)) =
      checkedUsize (size + extra) := by
  by_cases fits : extra < 2 ^ 64
  · rw [checkedUsize, if_pos fits]
    rfl
  · have large : ¬ size + extra < 2 ^ 64 := by omega
    rw [checkedUsize, if_neg fits, checkedUsize, if_neg large]
    rfl

theorem percentEncodedLen_eq :
    percentEncodedLenWithSlash data slash =
      checkedUsize (data.flatMap (percentPiece slash)).length := by
  rw [pieces_length _ _ (percentPiece_width _), ← escapedByteCount_eq]
  exact checked_sum _

theorem formEncodedLen_eq :
    formEncodedLen data = checkedUsize (data.flatMap formPiece).length := by
  rw [pieces_length _ _ formPiece_width, ← escapedByteCount_eq]
  exact checked_sum _

theorem all_plain (plain : UInt8 → Bool) (data : Bytes)
    (same : data.length + data.countP (!plain ·) * 2 = data.length) :
    ∀ b ∈ data, plain b = true := by
  intro b member
  have none : data.countP (!plain ·) = 0 := by omega
  simpa using countP_eq_zero.mp none b member

theorem percentEncode_eq :
    percentEncode slash data =
      if (data.flatMap (percentPiece slash)).length < 2 ^ 64 then
        some (data.flatMap (percentPiece slash))
      else none := by
  rw [percentEncode, percentEncodedLen_eq, checkedUsize]
  split
  · rw [bind_some]
    split
    case isTrue same =>
      rw [pieces_length _ _ (percentPiece_width _)] at same
      rw [flatMap_plain _ _ id (percentPiece_plain _) (all_plain _ _ same), List.map_id]
    case isFalse _ => exact percentExpanded_exact _ _
  · rfl

theorem formEncode_eq :
    formEncode data =
      if (data.flatMap formPiece).length < 2 ^ 64 then some (data.flatMap formPiece) else none := by
  rw [formEncode, formEncodedLen_eq, checkedUsize]
  split
  · rw [bind_some]
    split
    case isTrue same =>
      rw [formSameWidthInto, if_pos same.symm]
      rw [pieces_length _ _ formPiece_width] at same
      rw [flatMap_plain _ _ _ formPiece_plain (all_plain _ _ same)]
    case isFalse _ => exact formExpanded_exact _
  · rfl

/-- The decoders' meaning: one byte or one escape at a time. -/
def decodeBytes (form : Bool) : Bytes → Option Bytes
  | [] => some []
  | b :: rest =>
      if form && b == plusByte then (decodeBytes form rest).map (spaceByte :: ·)
      else if b == percentByte then
        match rest with
        | high :: low :: rest =>
            match percentEscapeByte high low with
            | none => none
            | some byte => (decodeBytes form rest).map (byte :: ·)
        | _ => none
      else (decodeBytes form rest).map (b :: ·)

variable (form : Bool) (b : UInt8) (rest : Bytes)

variable {form}

theorem decodeBytes_ordinary (ordinary : isSpecial form b = false) :
    decodeBytes form (b :: rest) = (decodeBytes form rest).map (b :: ·) := by
  rw [isSpecial, Bool.or_eq_false_iff] at ordinary
  conv => lhs; unfold decodeBytes
  simp only [ordinary.1, ordinary.2, Bool.false_eq_true, ↓reduceIte]

theorem decodeBytes_run (run rest : Bytes) (ordinary : ∀ b ∈ run, isSpecial form b = false) :
    decodeBytes form (run ++ rest) = (decodeBytes form rest).map (run ++ ·) := by
  induction run with
  | nil => exact Option.map_id.symm ▸ rfl
  | cons b run ih =>
    rw [cons_append, decodeBytes_ordinary b _ (ordinary b mem_cons_self),
      ih fun c member => ordinary c (mem_cons_of_mem b member), Option.map_map]
    rfl

theorem decodeBytes_copied (input : Bytes) :
    (decodeBytes form (input.drop ((input.findIdx? (isSpecial form)).getD input.length))).map
      (input.take ((input.findIdx? (isSpecial form)).getD input.length) ++ ·) =
      decodeBytes form input := by
  have free := (Scan.take_findIdx?_free (isSpecial form) input).2
  rw [← decodeBytes_run _ _ free, take_append_drop]

theorem decodeLoop_eq (bulk : Bool) (input : Bytes) (ordinary : Nat) :
    decodeLoop form bulk input ordinary = decodeBytes form input := by
  have plainByte : ∀ b : UInt8, ¬ (form && b == plusByte) = true → ¬ (b == percentByte) = true →
    isSpecial form b = false := by
    intro b plus percent
    rw [isSpecial, Bool.or_eq_false_iff]
    exact ⟨Bool.eq_false_of_not_eq_true percent, Bool.eq_false_of_not_eq_true plus⟩
  fun_induction decodeLoop form bulk input ordinary with
  | case1 _ => rfl
  | case2 b rest _ plus ih =>
    conv => rhs; unfold decodeBytes
    rw [if_pos plus, ih]
  | case3 b _ plus percent high low rest bad =>
    rw [decodeBytes, if_neg plus, if_pos percent, bad]
  | case4 b _ plus percent high low rest byte good ih =>
    rw [decodeBytes, if_neg plus, if_pos percent, good, ih]
  | case5 b rest _ plus percent short =>
    conv => rhs; unfold decodeBytes
    rw [if_neg plus, if_pos percent]
    split
    · exact (short _ _ _ rfl).elim
    · rfl
  | case6 b rest _ plus percent _ _ copied ih =>
    rw [decodeBytes_ordinary b _ (plainByte b plus percent), ih, ← decodeBytes_copied rest,
      Option.map_map]
    rfl
  | case7 b rest _ plus percent _ _ ih =>
    rw [decodeBytes_ordinary b _ (plainByte b plus percent), ih]

theorem escapedLiteralPrefix_free (input : Bytes) :
    ∀ b ∈ input.take (escapedLiteralPrefix form input), isSpecial form b = false := by
  unfold escapedLiteralPrefix
  split_ifs with short special
  · intro b member
    cases member
  · intro b member
    cases member
  intro b member
  rw [take_add, mem_append] at member
  rcases member with first | later
  · cases found : isSpecial form b with
    | false => rfl
    | true => exact absurd (List.any_eq_true.mpr ⟨b, first, found⟩) special
  · exact (Scan.take_findIdx?_free _ _).2 b later

theorem decodeRuns_eq (bulk : Bool) (input : Bytes) :
    decodeRuns form bulk input = decodeBytes form input := by
  rw [decodeRuns, decodeLoop_eq, ← decodeBytes_run _ _ (escapedLiteralPrefix_free _),
    take_append_drop]

theorem percentDecodeImpl_eq (input : Bytes) : percentDecodeImpl input = decodeBytes false input := by
  rw [percentDecodeImpl, percentDecodeRuns, percentDecodeRuns, decodeRuns_eq, decodeRuns_eq, ite_self]

theorem formDecodeImpl_eq (input : Bytes) : formDecodeImpl input = decodeBytes true input := by
  rw [formDecodeImpl, formDecodeRuns, formDecodeRuns, decodeRuns_eq, decodeRuns_eq, ite_self]

theorem escape_recover :
    percentEscapeByte (upperHex.getD (b >>> 4).toNat 0) (upperHex.getD (b &&& 0x0F).toNat 0) =
      some b := by
  have digit : ∀ n < 16, (hexValue (upperHex.getD n 0)).toNat = n := by decide
  have table : ∀ n < 16, hexValue (upperHex.getD n 0) = UInt8.ofNat n := by decide
  rcases nibble_values b with ⟨high, low, high_small, low_small⟩
  have valid := digit_valid _ (or_digit (by rw [digit _ high_small]; exact high_small)
    (by rw [digit _ low_small]; exact low_small))
  have joined := shiftLeft_or (b >>> 4) 4 (by decide) low_small
  rw [percentEscapeByte, if_neg valid, table _ high_small, table _ low_small, UInt8.ofNat_toNat,
    UInt8.ofNat_toNat]
  congr 1
  apply UInt8.toNat_inj.mp
  refine joined.trans ?_
  omega

theorem decode_triple :
    decodeBytes form (escapeTriple b ++ rest) = (decodeBytes form rest).map (b :: ·) := by
  have plus : ¬ (form && percentByte == plusByte) = true := by
    cases form <;> decide
  change decodeBytes form (percentByte :: _ :: _ :: rest) = _
  rw [decodeBytes, if_neg plus, if_pos (by decide), escape_recover]

theorem unreserved_ordinary (plain : isUnreserved b = true) :
    isSpecial form b = false := by
  have table : ∀ form : Bool, ∀ n < 256, isUnreserved (UInt8.ofNat n) = true →
    isSpecial form (UInt8.ofNat n) = false := by
    decide +kernel
  have here := table form b.toNat b.toNat_lt
  rw [UInt8.ofNat_toNat] at here
  exact here plain

theorem decode_percentPiece (slash : Bool) (b : UInt8) (rest : Bytes) :
    decodeBytes false (percentPiece slash b ++ rest) = (decodeBytes false rest).map (b :: ·) := by
  rw [percentPiece]
  split
  case isTrue plain =>
    apply decodeBytes_ordinary
    rcases Bool.or_eq_true_iff.mp plain with unreserved | kept
    · exact unreserved_ordinary b unreserved
    · have same : b = slashByte := eq_of_beq (Bool.and_eq_true_iff.mp kept).2
      subst same
      decide
  case isFalse _ => exact decode_triple b _

theorem decode_formPiece :
    decodeBytes true (formPiece b ++ rest) = (decodeBytes true rest).map (b :: ·) := by
  rw [formPiece]
  split
  case isTrue space =>
    have same : b = spaceByte := eq_of_beq space
    subst same
    change decodeBytes true (plusByte :: rest) = _
    conv => lhs; unfold decodeBytes
    rw [if_pos (by decide)]
  case isFalse _ =>
    split
    case isTrue plain => exact decodeBytes_ordinary b _ (unreserved_ordinary b plain)
    case isFalse _ => exact decode_triple b _

theorem decode_pieces (piece : UInt8 → Bytes)
    (each : ∀ b rest, decodeBytes form (piece b ++ rest) = (decodeBytes form rest).map (b :: ·))
    (data : Bytes) : decodeBytes form (data.flatMap piece) = some data := by
  induction data with
  | nil => rfl
  | cons b rest ih => rw [flatMap_cons, each, ih, map_some]

/-- Both encodings round-trip. Each encoder writes its pieces byte for byte and
fails only when their number does not fit a word; the length computed first is
that number, so every writer fills its destination exactly; and the decoders'
fast paths decode byte by byte. -/
theorem url_escapes_round_trip :
    (∀ (slash : Bool) (x : Bytes),
      percentEncode slash x =
          (if (x.flatMap (percentPiece slash)).length < 2 ^ 64 then
            some (x.flatMap (percentPiece slash)) else none) ∧
        percentDecodeImpl (x.flatMap (percentPiece slash)) = some x) ∧
      (∀ x : Bytes,
        formEncode x =
            (if (x.flatMap formPiece).length < 2 ^ 64 then some (x.flatMap formPiece) else none) ∧
          formDecodeImpl (x.flatMap formPiece) = some x) ∧
      (∀ (slash : Bool) (x : Bytes),
        percentEncodedLenWithSlash x slash =
            checkedUsize (x.flatMap (percentPiece slash)).length ∧
          percentEncodeIntoWithSlash x (x.flatMap (percentPiece slash)).length slash =
            some (x.flatMap (percentPiece slash)) ∧
          percentEncodeExpandedInto slash x (x.flatMap (percentPiece slash)).length =
            some (x.flatMap (percentPiece slash))) ∧
      (∀ x : Bytes,
        formEncodedLen x = checkedUsize (x.flatMap formPiece).length ∧
          formEncodeInto x (x.flatMap formPiece).length = some (x.flatMap formPiece) ∧
          formEncodeExpandedInto x (x.flatMap formPiece).length = some (x.flatMap formPiece)) ∧
      ∀ (bulk : Bool) (input : Bytes),
        percentDecodeRuns bulk input = decodeBytes false input ∧
          percentDecodeImpl input = decodeBytes false input ∧
          formDecodeRuns bulk input = decodeBytes true input ∧
          formDecodeImpl input = decodeBytes true input := by
  refine ⟨?_, ?_, ?_, ?_, ?_⟩
  · intro slash x
    rw [percentDecodeImpl_eq]
    exact ⟨percentEncode_eq slash x, decode_pieces _ (decode_percentPiece slash) x⟩
  · intro x
    rw [formDecodeImpl_eq]
    exact ⟨formEncode_eq x, decode_pieces _ decode_formPiece x⟩
  · intro slash x
    exact ⟨percentEncodedLen_eq slash x, writePieces_exact _ _ (Nat.zero_add _),
      percentExpanded_exact slash x⟩
  · intro x
    exact ⟨formEncodedLen_eq x, writePieces_exact _ _ (Nat.zero_add _), formExpanded_exact x⟩
  · intro bulk input
    exact ⟨decodeRuns_eq bulk input, percentDecodeImpl_eq input,
      decodeRuns_eq bulk input, formDecodeImpl_eq input⟩

end Align.UrlEscape
