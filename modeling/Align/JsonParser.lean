import Align.JsonText
import Align.Scan

/-! The byte-level JSON scanner that every decoder shares. A cursor into the
input is represented by the bytes from it to the end. Each scanner gets one
soundness and one completeness lemma against the grammar, so that the decoders
above never look inside it. -/
namespace Align.JsonParser
open JsonText List
open Option hiding or_self

def ws (rest : Bytes) : Bytes := rest.dropWhile isWs

def peek (rest : Bytes) : Option UInt8 := rest.head?

def expect (c : UInt8) : Bytes → Option Bytes
  | [] => none
  | b :: rest => if b = c then some rest else none

def afterLiteral (word rest : Bytes) : Option Bytes :=
  if word.isPrefixOf rest then some (rest.drop word.length) else none

def boolean (rest : Bytes) : Option (Bool × Bytes) :=
  match afterLiteral [0x74, 0x72, 0x75, 0x65] rest with
  | some rest => some (true, rest)
  | none => (afterLiteral [0x66, 0x61, 0x6C, 0x73, 0x65] rest).map fun rest => (false, rest)

def skipNull (rest : Bytes) : Option Bytes := afterLiteral [0x6E, 0x75, 0x6C, 0x6C] rest

/-! String bodies. Measuring, materialising and comparing a body all make the
same pass; each step of it yields the bytes one character stands for. -/

def pieces : Bytes → Option (List Bytes)
  | [] => some []
  | b :: rest =>
      if b ≠ backslash then
        if b < 0x20 ∨ b = quote then none else (pieces rest).map ([b] :: ·)
      else match rest with
        | [] => none
        | e :: rest =>
            match shortEscape e with
            | some v => (pieces rest).map ([v] :: ·)
            | none =>
                if e ≠ 0x75 then none
                else match rest with
                  | a :: b :: c :: d :: rest =>
                      match hex4 a b c d with
                      | none => none
                      | some cp =>
                          if IsHigh cp then
                            match rest with
                            | s :: u :: a :: b :: c :: d :: rest =>
                                if s ≠ backslash ∨ u ≠ 0x75 then none
                                else match hex4 a b c d with
                                  | none => none
                                  | some lo =>
                                      if ¬ IsLow lo then none
                                      else (pieces rest).map (utf8 (pairValue cp lo) :: ·)
                            | _ => none
                          else if IsLow cp then none
                          else (pieces rest).map (utf8 cp :: ·)
                  | _ => none

def jsonUnescapedLen (raw : Bytes) : Option Nat :=
  (pieces raw).map fun ps => (ps.map List.length).sum

/-- The bytes written into a destination of `size` bytes. -/
def jsonUnescapeTo (raw : Bytes) (size : Nat) : Option Bytes :=
  match jsonUnescapedLen raw with
  | none => none
  | some expected =>
      if expected ≠ size then none
      else (pieces raw).bind fun ps => if ps.flatten.length = expected then some ps.flatten else none

/-- Compare piece after piece with the bytes of the target not matched yet. -/
def matchPieces : List Bytes → Bytes → Bool
  | [], _ => true
  | piece :: rest, target =>
      target.take piece.length == piece && matchPieces rest (target.drop piece.length)

def jsonStringEquals (raw target : Bytes) : Bool :=
  match jsonUnescapedLen raw with
  | none => false
  | some expected =>
      if expected ≠ target.length then false
      else match pieces raw with
        | none => false
        | some ps => matchPieces ps target

def isStop (b : UInt8) : Bool := b == quote || b == backslash

def memchr2 (hay : Bytes) : Option Nat := hay.findIdx? isStop

def findQuoteOrEscape (hay : Bytes) : Option Nat :=
  match (hay.take 16).findIdx? isStop with
  | some i => some i
  | none => if hay.length ≤ 16 then none else (memchr2 (hay.drop 16)).map (· + 16)

/-- The offset of the closing quote in `body`, scanning on from `pos`. -/
def spanLoop (body : Bytes) : Nat → Nat → Option Nat
  | 0, _ => none
  | fuel + 1, pos =>
      if pos > body.length then none
      else match findQuoteOrEscape (body.drop pos) with
        | none => none
        | some off =>
            match body[pos + off]? with
            | none => none
            | some b =>
                if b = quote then some (pos + off)
                else if b = backslash then
                  if pos + off + 2 > body.length then none else spanLoop body fuel (pos + off + 2)
                else none

/-- The raw body of the string at the cursor and the cursor behind it. -/
def stringBody : Bytes → Option (Bytes × Bytes)
  | [] => none
  | q :: body =>
      if q ≠ quote then none
      else match spanLoop body (body.length + 1) 0 with
        | none => none
        | some stop =>
            if (jsonUnescapedLen (body.take stop)).isNone then none
            else some (body.take stop, body.drop (stop + 1))

def skipString (rest : Bytes) : Option Bytes := (stringBody rest).map Prod.snd

def digitRun (rest : Bytes) : Bytes × Bytes := (rest.takeWhile isDigit, rest.dropWhile isDigit)

def signSpan (isSign : UInt8 → Bool) : Bytes → Bytes × Bytes
  | [] => ([], [])
  | b :: rest => if isSign b then ([b], rest) else ([], b :: rest)

def fractionSpan : Bytes → Option (Bytes × Bytes)
  | [] => some ([], [])
  | b :: rest =>
      if b ≠ 0x2E then some ([], b :: rest)
      else
        let digits := digitRun rest
        if digits.1.isEmpty then none else some (b :: digits.1, digits.2)

def exponentSpan : Bytes → Option (Bytes × Bytes)
  | [] => some ([], [])
  | b :: rest =>
      if b ≠ 0x65 ∧ b ≠ 0x45 then some ([], b :: rest)
      else
        let sign := signSpan (fun s => s == 0x2B || s == 0x2D) rest
        let digits := digitRun sign.2
        if digits.1.isEmpty then none else some (b :: (sign.1 ++ digits.1), digits.2)

/-- The number token at the cursor and the cursor behind it. -/
def numberSpan (rest : Bytes) : Option (Bytes × Bytes) :=
  let sign := signSpan (· == 0x2D) rest
  let int := digitRun sign.2
  if int.1.isEmpty ∨ (1 < int.1.length ∧ int.1.head? = some 0x30) then none
  else
    (fractionSpan int.2).bind fun frac =>
      (exponentSpan frac.2).bind fun exp => some (sign.1 ++ (int.1 ++ (frac.1 ++ exp.1)), exp.2)

def skipNumber (rest : Bytes) : Option Bytes := (numberSpan rest).map Prod.snd

/-- The cursor does not stand on white space. -/
def NoWs (rest : Bytes) : Prop := ∀ b, rest.head? = some b → isWs b = false

theorem ws_noWs (rest : Bytes) : NoWs (ws rest) := by
  intro b head
  induction rest with
  | nil => contradiction
  | cons c rest ih =>
    by_cases blank : isWs c = true
    · rw [ws, dropWhile_cons_of_pos blank] at head
      exact ih head
    · rw [ws, dropWhile_cons_of_neg blank] at head
      cases head
      simpa using blank

theorem ws_of_noWs {rest : Bytes} (at' : NoWs rest) : ws rest = rest := by
  cases rest with
  | nil => rfl
  | cons b rest => simp [ws, at' b rfl]

variable (rest : Bytes)

theorem ws_append (blank : Ws w) : ws (w ++ rest) = ws rest := by
  rw [ws, dropWhile_append_of_pos blank, ws]

theorem ws_split : ∃ w, Ws w ∧ rest = w ++ ws rest := by
  refine ⟨rest.takeWhile isWs, ?_, (takeWhile_append_dropWhile).symm⟩
  intro b member
  exact mem_takeWhile_imp member

theorem ws_skip (blank : Ws w) (at' : NoWs rest) : ws (w ++ rest) = rest := by
  rw [ws_append _ blank, ws_of_noWs at']

theorem ws_idem : ws (ws rest) = ws rest := ws_of_noWs (ws_noWs _)

theorem noWs_cons (rest : Bytes) (solid : isWs b = false) : NoWs (b :: rest) := by
  intro c head
  cases head
  exact solid

theorem ws_to (c : UInt8) {w rest : Bytes} (blank : Ws w) (solid : isWs c = false) :
    ws (w ++ c :: rest) = c :: rest :=
  ws_skip _ blank (noWs_cons _ solid)

theorem heads_noWs (heads : Heads P) (rest : Bytes) (ok : P j t) : NoWs (t ++ rest) := by
  obtain ⟨b, tail, rfl, solid, _⟩ := heads j t ok
  exact noWs_cons _ solid

theorem heads_length (heads : Heads P) (ok : P j t) : 0 < t.length := by
  obtain ⟨b, tail, rfl, _⟩ := heads j t ok
  exact Nat.succ_pos tail.length

theorem noWs_quoted (raw rest : Bytes) : NoWs (quoted raw ++ rest) := noWs_cons _ (by decide)

theorem peek_some {rest : Bytes} (found : peek rest = some b) :
    rest = b :: rest.tail := by
  cases rest with
  | nil => contradiction
  | cons c rest =>
    cases found
    rfl

@[simp]
theorem peek_cons (b : UInt8) (rest : Bytes) : peek (b :: rest) = some b := rfl

@[simp]
theorem expect_cons (c : UInt8) (rest : Bytes) : expect c (c :: rest) = some rest := by
  simp [expect]

theorem expect_some {rest rest' : Bytes} (found : expect c rest = some rest') :
    rest = c :: rest' := by
  cases rest with
  | nil => contradiction
  | cons b rest =>
    simp only [expect] at found
    split at found
    · cases found
      simp [*]
    · contradiction

theorem afterLiteral_append (word rest : Bytes) : afterLiteral word (word ++ rest) = some rest := by
  simp [afterLiteral]

theorem afterLiteral_some {word rest rest' : Bytes} (found : afterLiteral word rest = some rest') :
    rest = word ++ rest' := by
  unfold afterLiteral at found
  split at found
  · rename_i starts
    obtain ⟨tail, rfl⟩ := List.isPrefixOf_iff_prefix.mp starts
    simpa using found
  · contradiction

theorem boolean_some {rest rest' : Bytes} (found : boolean rest = some (value, rest')) :
    rest = (if value then [0x74, 0x72, 0x75, 0x65] else [0x66, 0x61, 0x6C, 0x73, 0x65]) ++ rest' := by
  unfold boolean at found
  split at found
  · rename_i tail yes
    cases found
    exact afterLiteral_some yes
  · rw [map_eq_some_iff] at found
    obtain ⟨tail, no, same⟩ := found
    cases same
    exact afterLiteral_some no

theorem boolean_true : boolean ([0x74, 0x72, 0x75, 0x65] ++ rest) = some (true, rest) := by
  rw [boolean, afterLiteral_append]

theorem boolean_false :
    boolean ([0x66, 0x61, 0x6C, 0x73, 0x65] ++ rest) = some (false, rest) := by
  have other : afterLiteral [0x74, 0x72, 0x75, 0x65] ([0x66, 0x61, 0x6C, 0x73, 0x65] ++ rest) = none := by
    simp [afterLiteral]
  rw [boolean, other, afterLiteral_append]
  rfl

theorem pieces_sound (raw : Bytes) (ps : List Bytes) (decoded : pieces raw = some ps) :
    Body raw ps.flatten := by
  fun_induction pieces raw generalizing ps
  all_goals try contradiction
  case case1 =>
    cases decoded
    exact .nil
  case case3 b rest notEscape plain ih =>
    obtain ⟨tail, found, rfl⟩ := map_eq_some_iff.mp decoded
    rw [not_or, UInt8.not_lt] at plain
    exact .plain b rest tail.flatten ⟨plain.1, plain.2, notEscape⟩ (ih tail found)
  case case5 b escape e rest v short ih =>
    obtain ⟨tail, found, rfl⟩ := map_eq_some_iff.mp decoded
    rw [not_not.mp escape]
    exact .short e v rest tail.flatten short (ih tail found)
  case case11 e short isU a b c d high hex isHigh s u a' b' c' d' rest next low hex' isLow ih =>
    rename_i first escape
    obtain ⟨tail, found, rfl⟩ := map_eq_some_iff.mp decoded
    rw [not_or, not_not, not_not] at next
    rw [not_not.mp escape, not_not.mp isU, next.1, next.2]
    exact .pair a b c d a' b' c' d' high low rest tail.flatten hex isHigh hex' (not_not.mp isLow)
      (ih tail found)
  case case14 e short isU a b c d rest cp hex notHigh notLow ih =>
    rename_i first escape
    obtain ⟨tail, found, rfl⟩ := map_eq_some_iff.mp decoded
    rw [not_not.mp escape, not_not.mp isU]
    exact .unit a b c d cp rest tail.flatten hex notHigh notLow (ih tail found)

variable (raw : Bytes) {text : Bytes}

theorem pieces_complete (body : Body raw text) :
    ∃ ps, pieces raw = some ps ∧ ps.flatten = text := by
  induction body with
  | nil => exact ⟨[], rfl, rfl⟩
  | plain b raw text ok rest ih =>
    obtain ⟨ps, found, same⟩ := ih
    refine ⟨[b] :: ps, ?_, by simp [same]⟩
    have printable : ¬ (b < 0x20 ∨ b = quote) := by
      rw [not_or, UInt8.not_lt]
      exact ⟨ok.1, ok.2.1⟩
    rw [pieces.eq_def]
    simp [ok.2.2, printable, found]
  | short e v raw text ok rest ih =>
    obtain ⟨ps, found, same⟩ := ih
    refine ⟨[v] :: ps, ?_, by simp [same]⟩
    rw [pieces.eq_def]
    simp [ok, found]
  | unit a b c d cp raw text hex notHigh notLow rest ih =>
    obtain ⟨ps, found, same⟩ := ih
    refine ⟨utf8 cp :: ps, ?_, by simp [same]⟩
    have noShort : shortEscape 0x75 = none := by decide
    rw [pieces.eq_def]
    simp [noShort, hex, notHigh, notLow, found]
  | pair a b c d a' b' c' d' high low raw text hex isHigh hex' isLow rest ih =>
    obtain ⟨ps, found, same⟩ := ih
    refine ⟨utf8 (pairValue high low) :: ps, ?_, by simp [same]⟩
    have noShort : shortEscape 0x75 = none := by decide
    rw [pieces.eq_def]
    simp [noShort, hex, isHigh, hex', isLow, found]

theorem unescapedLen_pieces :
    jsonUnescapedLen raw = (pieces raw).map fun ps => ps.flatten.length := by
  simp [jsonUnescapedLen]

theorem unescapedLen_body (body : Body raw text) :
    jsonUnescapedLen raw = some text.length := by
  obtain ⟨ps, found, same⟩ := pieces_complete _ body
  rw [unescapedLen_pieces, found, map_some, same]

theorem unescapedLen_isSome (valid : (jsonUnescapedLen raw).isNone = false) :
    ∃ text, Body raw text := by
  rw [unescapedLen_pieces, isNone_map] at valid
  cases found : pieces raw with
  | none => simp [found] at valid
  | some ps => exact ⟨ps.flatten, pieces_sound _ _ found⟩

theorem body_plain (body : Body raw text) (clean : backslash ∉ raw) : raw = text := by
  induction body with
  | nil => rfl
  | plain b raw text ok rest ih => rw [ih fun member => clean (by simp [member])]
  | short e v raw text ok rest ih => exact absurd (by simp) clean
  | unit a b c d cp raw text hex notHigh notLow rest ih => exact absurd (by simp) clean
  | pair a b c d a' b' c' d' high low raw text hex isHigh hex' isLow rest ih =>
    exact absurd (by simp) clean

theorem unescapeTo_body (body : Body raw text) :
    jsonUnescapeTo raw text.length = some text := by
  obtain ⟨ps, found, same⟩ := pieces_complete _ body
  rw [jsonUnescapeTo, unescapedLen_body _ body]
  simp only [ne_eq, not_true_eq_false, ↓reduceIte, found, bind_some, same]

theorem matchPieces_iff (target : Bytes) (size : ps.flatten.length = target.length) :
    matchPieces ps target = true ↔ ps.flatten = target := by
  induction ps generalizing target with
  | nil =>
    have none : target = [] := length_eq_zero_iff.mp size.symm
    simp [matchPieces, none]
  | cons piece rest ih =>
    rw [flatten_cons, length_append] at size
    rw [matchPieces, Bool.and_eq_true, beq_iff_eq, ih (target.drop piece.length) (by rw [length_drop]; omega),
      flatten_cons]
    constructor
    · rintro ⟨first, others⟩
      rw [others]
      nth_rewrite 1 [← first]
      exact take_append_drop piece.length target
    · intro same
      rw [← same]
      exact ⟨take_left, drop_left.symm⟩

theorem stringEquals_body (target : Bytes) (body : Body raw text) :
    jsonStringEquals raw target = true ↔ text = target := by
  obtain ⟨ps, found, same⟩ := pieces_complete _ body
  rw [jsonStringEquals, unescapedLen_body _ body]
  by_cases size : text.length = target.length
  · simp only [size, ne_eq, not_true_eq_false, ↓reduceIte, found]
    rw [matchPieces_iff _ (by rw [same, size]), same]
  · simp only [size, ne_eq, not_false_eq_true, ↓reduceIte, Bool.false_eq_true, false_iff]
    intro equal
    exact size (congrArg List.length equal)

/-- The first quote that no backslash escapes. -/
def closingQuote : Bytes → Option Nat
  | [] => none
  | b :: rest =>
      if b = quote then some 0
      else if b = backslash then
        match rest with
        | [] => none
        | _ :: rest => (closingQuote rest).map (· + 2)
      else (closingQuote rest).map (· + 1)

theorem closingQuote_quote (rest : Bytes) : closingQuote (quote :: rest) = some 0 := by
  rw [closingQuote.eq_def]
  simp

theorem closingQuote_escape (e : UInt8) (rest : Bytes) :
    closingQuote (backslash :: e :: rest) = (closingQuote rest).map (· + 2) := by
  have apart : ¬ backslash = quote := by decide
  rw [closingQuote.eq_def]
  simp [apart]

theorem closingQuote_plain (rest : Bytes) (plain : b ≠ quote ∧ b ≠ backslash) :
    closingQuote (b :: rest) = (closingQuote rest).map (· + 1) := by
  rw [closingQuote.eq_def]
  simp [plain]

theorem findQuoteOrEscape_eq (hay : Bytes) : findQuoteOrEscape hay = hay.findIdx? isStop := by
  have shift : (fun i => i + 16) = (16 + ·) := funext fun i => Nat.add_comm i 16
  rw [findQuoteOrEscape, memchr2, shift]
  exact Scan.findIdx?_split _ _ _

theorem closingQuote_stop (body : Bytes) :
    closingQuote body = match body.findIdx? isStop with
      | none => none
      | some off =>
          if body[off]? = some quote then some off
          else if off + 2 ≤ body.length then (closingQuote (body.drop (off + 2))).map (· + (off + 2))
          else none := by
  induction body with
  | nil => rfl
  | cons b rest ih =>
    by_cases isQuote : b = quote
    · rw [isQuote, closingQuote_quote, findIdx?_cons, if_pos (by decide)]
      simp
    by_cases isEscape : b = backslash
    · have stop : isStop b = true := by simp [isStop, isEscape]
      have apart : ¬ backslash = quote := by decide
      rw [isEscape] at stop ⊢
      rw [findIdx?_cons, if_pos stop]
      cases rest with
      | nil => simp [closingQuote, apart]
      | cons e rest =>
        rw [closingQuote_escape]
        simp [apart]
    · have pass : isStop b = false := by simp [isStop, isQuote, isEscape]
      rw [closingQuote_plain _ ⟨isQuote, isEscape⟩, ih, findIdx?_cons]
      simp only [pass, Bool.false_eq_true, ↓reduceIte]
      cases rest.findIdx? isStop with
      | none => rfl
      | some off =>
        simp only [map_some, getElem?_cons_succ, length_cons]
        have shift : off + 1 + 2 = (off + 2) + 1 := by omega
        rw [shift, drop_succ_cons]
        split
        · rfl
        · by_cases fits : off + 2 ≤ rest.length
          · simp only [fits, ↓reduceIte, (by omega : off + 2 + 1 ≤ rest.length + 1), Option.map_map]
            rfl
          · simp [fits]

theorem spanLoop_eq (body : Bytes) (fuel pos : Nat) (enough : body.length - pos < fuel)
    (inside : pos ≤ body.length) :
    spanLoop body fuel pos = (closingQuote (body.drop pos)).map (pos + ·) := by
  induction fuel generalizing pos with
  | zero => omega
  | succ fuel ih =>
    rw [spanLoop, if_neg (by omega), findQuoteOrEscape_eq, closingQuote_stop]
    rcases found : (body.drop pos).findIdx? isStop with _ | off
    · rfl
    obtain ⟨bound, stop, _⟩ := findIdx?_eq_some_iff_getElem.mp found
    have here : (body.drop pos)[off]? = body[pos + off]? := getElem?_drop
    rw [length_drop] at bound
    have within : pos + off < body.length := by omega
    simp only [here, length_drop]
    rw [getElem_drop] at stop
    rw [getElem?_eq_getElem within]
    simp only [isStop, Bool.or_eq_true, beq_iff_eq] at stop
    simp only [Option.some.injEq]
    by_cases isQuote : body[pos + off] = quote
    · simp [isQuote]
    rw [if_neg isQuote, if_neg isQuote, if_pos (stop.resolve_left isQuote)]
    by_cases fits : pos + off + 2 ≤ body.length
    · rw [if_neg (by omega), ih (pos + off + 2) (by omega) fits, if_pos (by omega), drop_drop,
        Option.map_map]
      have place : pos + (off + 2) = pos + off + 2 := by omega
      rw [place]
      congr 1
      funext k
      simp only [Function.comp_apply]
      omega
    · rw [if_pos (by omega), if_neg (by omega)]
      rfl

theorem closingQuote_split (stop : Nat) (found : closingQuote body = some stop) :
    body = body.take stop ++ quote :: body.drop (stop + 1) := by
  fun_induction closingQuote body generalizing stop
  all_goals try contradiction
  case case2 rest =>
    cases found
    rfl
  case case4 notQuote e rest ih =>
    obtain ⟨k, inner, rfl⟩ := map_eq_some_iff.mp found
    have split := ih k inner
    simpa using split
  case case5 b rest notQuote notEscape ih =>
    obtain ⟨k, inner, rfl⟩ := map_eq_some_iff.mp found
    have split := ih k inner
    simpa using split

theorem hexDigit_plain (hex : hexDigit b = some v) :
    b ≠ quote ∧ b ≠ backslash := by
  constructor
  · rintro rfl
    contradiction
  · rintro rfl
    contradiction

theorem hex4_plain (hex : hex4 a b c d = some v) :
    (a ≠ quote ∧ a ≠ backslash) ∧ (b ≠ quote ∧ b ≠ backslash) ∧ (c ≠ quote ∧ c ≠ backslash) ∧
      (d ≠ quote ∧ d ≠ backslash) := by
  simp only [hex4, bind_eq_bind, bind_eq_some_iff] at hex
  obtain ⟨_, first, _, second, _, third, _, fourth, _⟩ := hex
  exact ⟨hexDigit_plain first, hexDigit_plain second, hexDigit_plain third, hexDigit_plain fourth⟩

variable {raw text : Bytes} (rest : Bytes)

theorem closingQuote_body (body : Body raw text) :
    closingQuote (raw ++ quote :: rest) = some raw.length := by
  induction body with
  | nil => exact closingQuote_quote _
  | plain b raw text ok _ ih => simp [closingQuote_plain _ ok.2, ih]
  | short e v raw text ok _ ih => simp [closingQuote_escape, ih]
  | unit a b c d cp raw text hex _ _ _ ih =>
    obtain ⟨first, second, third, fourth⟩ := hex4_plain hex
    simp [closingQuote_escape, closingQuote_plain _ first, closingQuote_plain _ second,
      closingQuote_plain _ third, closingQuote_plain _ fourth, ih]
  | pair a b c d a' b' c' d' high low raw text hex _ hex' _ _ ih =>
    obtain ⟨first, second, third, fourth⟩ := hex4_plain hex
    obtain ⟨first', second', third', fourth'⟩ := hex4_plain hex'
    simp [closingQuote_escape, closingQuote_plain _ first, closingQuote_plain _ second,
      closingQuote_plain _ third, closingQuote_plain _ fourth, closingQuote_plain _ first',
      closingQuote_plain _ second', closingQuote_plain _ third', closingQuote_plain _ fourth', ih]

theorem stringBody_complete (body : Body raw text) :
    stringBody (quoted raw ++ rest) = some (raw, rest) := by
  have shape : quoted raw ++ rest = quote :: (raw ++ quote :: rest) := by simp [quoted]
  have span := spanLoop_eq (raw ++ quote :: rest) ((raw ++ quote :: rest).length + 1) 0 (by omega)
    (by omega)
  rw [drop_zero, closingQuote_body _ body] at span
  have valid := unescapedLen_body _ body
  rw [shape, stringBody, if_neg (by simp), span]
  simp [valid]

theorem stringBody_sound {raw rest' : Bytes} (found : stringBody rest = some (raw, rest')) :
    ∃ text, Body raw text ∧ rest = quoted raw ++ rest' := by
  cases rest with
  | nil => contradiction
  | cons q body =>
    simp only [stringBody] at found
    split at found
    · contradiction
    rename_i isQuote
    rw [spanLoop_eq _ _ 0 (by omega) (by omega), drop_zero] at found
    rcases stop : closingQuote body with _ | k
    · simp [stop] at found
    simp only [stop, map_some, Nat.zero_add] at found
    split at found
    · contradiction
    rename_i valid
    cases found
    obtain ⟨text, decoded⟩ := unescapedLen_isSome _ (Bool.not_eq_true _ ▸ valid)
    refine ⟨text, decoded, ?_⟩
    have split := closingQuote_split k stop
    rw [not_not.mp isQuote]
    simpa [quoted] using split

def NoDigit (rest : Bytes) : Prop := ∀ b, rest.head? = some b → isDigit b = false

/-- What may follow a number without being read as part of it. -/
def Stops (rest : Bytes) : Prop :=
  ∀ b, rest.head? = some b → isDigit b = false ∧ b ≠ 0x2E ∧ b ≠ 0x65 ∧ b ≠ 0x45

theorem digitRun_append {ds rest : Bytes} (digits : ∀ b ∈ ds, isDigit b = true) (stop : NoDigit rest) :
    digitRun (ds ++ rest) = (ds, rest) := by
  rw [digitRun, takeWhile_append_of_pos digits, dropWhile_append_of_pos digits]
  cases rest with
  | nil => simp
  | cons b rest => simp [stop b rfl]

theorem digitRun_split : rest = (digitRun rest).1 ++ (digitRun rest).2 :=
  takeWhile_append_dropWhile.symm

theorem digitRun_digits (found : ¬ (digitRun rest).1.isEmpty = true) :
    Digits (digitRun rest).1 := by
  refine ⟨fun none => ?_, fun b member => mem_takeWhile_imp member⟩
  rw [none] at found
  exact found rfl

theorem signSpan_split (isSign : UInt8 → Bool) (rest : Bytes) :
    rest = (signSpan isSign rest).1 ++ (signSpan isSign rest).2 ∧
      ((signSpan isSign rest).1 = [] ∨ ∃ b, isSign b = true ∧ (signSpan isSign rest).1 = [b]) := by
  cases rest with
  | nil => exact ⟨rfl, Or.inl rfl⟩
  | cons b rest =>
    by_cases sign : isSign b = true
    · simp [signSpan, sign]
    · simp [signSpan, sign]

theorem fractionSpan_sound (rest' : Bytes) (found : fractionSpan rest = some (frac, rest')) :
    Fraction frac ∧ rest = frac ++ rest' := by
  cases rest with
  | nil =>
    cases found
    exact ⟨Or.inl rfl, rfl⟩
  | cons b rest =>
    simp only [fractionSpan] at found
    split at found
    · cases found
      exact ⟨Or.inl rfl, rfl⟩
    rename_i point
    split at found
    · contradiction
    rename_i nonempty
    cases found
    rw [not_not.mp point]
    refine ⟨Or.inr ⟨_, digitRun_digits _ nonempty, rfl⟩, ?_⟩
    rw [cons_append, ← digitRun_split]

theorem exponentSpan_sound (rest' : Bytes) (found : exponentSpan rest = some (exp, rest')) :
    Exponent exp ∧ rest = exp ++ rest' := by
  cases rest with
  | nil =>
    cases found
    exact ⟨Or.inl rfl, rfl⟩
  | cons b rest =>
    simp only [exponentSpan] at found
    split at found
    · cases found
      exact ⟨Or.inl rfl, rfl⟩
    rename_i letter
    split at found
    · contradiction
    rename_i nonempty
    cases found
    obtain ⟨split, sign⟩ := signSpan_split _ _
    have mark : b = 0x65 ∨ b = 0x45 := by
      by_contra other
      exact letter (not_or.mp other)
    refine ⟨Or.inr ⟨b, _, _, mark, ?_, digitRun_digits _ nonempty, rfl⟩, ?_⟩
    · rcases sign with none | ⟨s, isSign, one⟩
      · exact Or.inl none
      · rw [one]
        simp only [Bool.or_eq_true, beq_iff_eq] at isSign
        simp [isSign]
    · rw [cons_append, append_assoc, ← digitRun_split, ← split]

theorem numberSpan_sound {span rest' : Bytes} (found : numberSpan rest = some (span, rest')) :
    Number span ∧ rest = span ++ rest' := by
  simp only [numberSpan] at found
  split at found
  · contradiction
  rename_i int
  rw [not_or] at int
  obtain ⟨⟨frac, behind⟩, hasFrac, found⟩ := bind_eq_some_iff.mp found
  obtain ⟨⟨exp, last⟩, hasExp, found⟩ := bind_eq_some_iff.mp found
  cases found
  obtain ⟨fraction, fracSplit⟩ := fractionSpan_sound _ _ hasFrac
  obtain ⟨exponent, expSplit⟩ := exponentSpan_sound _ _ hasExp
  obtain ⟨split, sign⟩ := signSpan_split _ _
  refine ⟨⟨_, _, frac, exp, ?_, ⟨digitRun_digits _ int.1, int.2⟩, fraction, exponent, rfl⟩, ?_⟩
  · rcases sign with none | ⟨s, isSign, one⟩
    · exact Or.inl none
    · rw [beq_iff_eq] at isSign
      exact Or.inr (isSign ▸ one)
  · rw [append_assoc, append_assoc, append_assoc, ← expSplit, ← fracSplit, ← digitRun_split, ← split]

theorem ws_stops (blank : isWs b = true) :
    isDigit b = false ∧ b ≠ 0x2E ∧ b ≠ 0x65 ∧ b ≠ 0x45 := by
  simp only [isWs, Bool.or_eq_true, beq_iff_eq] at blank
  rcases blank with ((rfl | rfl) | rfl) | rfl <;> decide

theorem stops_ws (w rest : Bytes) (blank : Ws w)
    (mark : ∀ b, rest.head? = some b → b = comma ∨ b = closeBracket ∨ b = closeBrace) :
    Stops (w ++ rest) := by
  cases w with
  | nil =>
    intro b head
    rcases mark b head with rfl | rfl | rfl <;> decide
  | cons c w =>
    intro b head
    cases head
    exact ws_stops (blank c (by simp))

theorem stops_mark (tail : Bytes) (blank : Ws w)
    (mark : c = comma ∨ c = closeBracket ∨ c = closeBrace) : Stops (w ++ c :: tail) := by
  refine stops_ws w _ blank fun b head => ?_
  cases head
  exact mark

theorem stops_noDigit (stop : Stops rest) : NoDigit rest :=
  fun b head => (stop b head).1

theorem fractionSpan_complete {frac rest : Bytes} (fraction : Fraction frac)
    (stop : NoDigit rest) (point : rest.head? ≠ some 0x2E) :
    fractionSpan (frac ++ rest) = some (frac, rest) := by
  rcases fraction with rfl | ⟨ds, digits, rfl⟩
  · cases rest with
    | nil => rfl
    | cons b rest =>
      have other : b ≠ 0x2E := fun same => point (by rw [same]; rfl)
      simp [fractionSpan, other]
  · simp [fractionSpan, digitRun_append digits.2 stop, digits.1]

theorem exponentSpan_complete {exp rest : Bytes} (exponent : Exponent exp) (stop : Stops rest) :
    exponentSpan (exp ++ rest) = some (exp, rest) := by
  rcases exponent with rfl | ⟨e, sign, ds, mark, signed, digits, rfl⟩
  · cases rest with
    | nil => rfl
    | cons b rest =>
      have other := stop b rfl
      simp [exponentSpan, other.2.2.1, other.2.2.2]
  · have isMark : ¬ (e ≠ 0x65 ∧ e ≠ 0x45) := by
      rintro ⟨lower, upper⟩
      exact mark.elim lower upper
    have span : signSpan (fun s => s == 0x2B || s == 0x2D) (sign ++ (ds ++ rest)) = (sign, ds ++ rest) := by
      rcases signed with rfl | rfl | rfl
      · obtain ⟨b, tail, rfl, digit⟩ := digits_head digits
        have unsigned : ¬ (b = 0x2B ∨ b = 0x2D) := by
          rintro (rfl | rfl) <;> contradiction
        simp [signSpan, unsigned]
      · simp [signSpan]
      · simp [signSpan]
    rw [cons_append, append_assoc]
    simp only [exponentSpan, isMark, ↓reduceIte, span, digitRun_append digits.2 (stops_noDigit _ stop),
      List.isEmpty_iff, digits.1]

theorem exponent_head {exp rest : Bytes} (exponent : Exponent exp) (stop : Stops rest) :
    NoDigit (exp ++ rest) ∧ (exp ++ rest).head? ≠ some 0x2E := by
  rcases exponent with rfl | ⟨e, sign, ds, mark, signed, digits, rfl⟩
  · exact ⟨stops_noDigit _ stop, fun point => (stop _ point).2.1 rfl⟩
  constructor
  · intro b head
    cases head
    rcases mark with rfl | rfl <;> rfl
  · intro head
    cases head
    rcases mark with mark | mark <;> contradiction

theorem fraction_head {frac rest : Bytes} (fraction : Fraction frac) (stop : NoDigit rest) :
    NoDigit (frac ++ rest) := by
  rcases fraction with rfl | ⟨ds, digits, rfl⟩
  · exact stop
  · intro b head
    cases head
    rfl

theorem numberSpan_complete {span rest : Bytes} (number : Number span) (stop : Stops rest) :
    numberSpan (span ++ rest) = some (span, rest) := by
  obtain ⟨sign, int, frac, exp, signed, ⟨digits, noZero⟩, fraction, exponent, rfl⟩ := number
  have isSign : signSpan (· == 0x2D) (sign ++ (int ++ (frac ++ (exp ++ rest)))) =
    (sign, int ++ (frac ++ (exp ++ rest))) := by
    rcases signed with rfl | rfl
    · obtain ⟨b, tail, rfl, digit⟩ := digits_head digits
      have unsigned : ¬ b = 0x2D := by
        rintro rfl
        contradiction
      simp [signSpan, unsigned]
    · simp [signSpan]
  obtain ⟨noDigit, noPoint⟩ := exponent_head exponent stop
  have behindInt := fraction_head fraction noDigit
  have isInt := digitRun_append digits.2 behindInt
  have isFrac := fractionSpan_complete fraction noDigit noPoint
  have isExp := exponentSpan_complete exponent stop
  simp only [numberSpan, append_assoc, isSign, isInt, List.isEmpty_iff, digits.1, noZero, or_self,
    ↓reduceIte, isFrac, bind_some, isExp]

section Steps
variable {rest rest' inner behind w t : Bytes}

theorem elements_step (blank : Ws w) (ok : P j t) (next : (peek (ws behind) = some comma ∧
        ∃ js body, Elements P js body ∧ (ws behind).tail = body ++ closeBracket :: rest') ∨
      peek (ws behind) = some closeBracket ∧ (ws behind).tail = rest') :
    ∃ js body, Elements P js body ∧ w ++ (t ++ behind) = body ++ closeBracket :: rest' := by
  obtain ⟨w', after, tail⟩ := ws_split behind
  rcases next with ⟨more, js, body, items, ends⟩ | ⟨last, ends⟩
  · refine ⟨j :: js, _, .more w t w' body j js blank ok after items, ?_⟩
    rw [tail, peek_some more, ends]
    simp
  · refine ⟨[j], _, .last w t w' j blank ok after, ?_⟩
    rw [tail, peek_some last, ends]
    simp

theorem members_step {raw w₁ w₂ key : Bytes} (blank : Ws w) (name : Body raw key) (between : Ws w₁)
    (gap : Ws w₂) (ok : P j t) (next : (peek (ws behind) = some comma ∧
        ∃ ms body, Members Body P ms body ∧ (ws behind).tail = body ++ closeBrace :: rest') ∨
      peek (ws behind) = some closeBrace ∧ (ws behind).tail = rest') :
    ∃ ms body, Members Body P ms body ∧
      w ++ (quoted raw ++ (w₁ ++ colon :: (w₂ ++ (t ++ behind)))) = body ++ closeBrace :: rest' := by
  obtain ⟨w', after, tail⟩ := ws_split behind
  rcases next with ⟨more, ms, body, items, ends⟩ | ⟨last, ends⟩
  · refine ⟨(key, j) :: ms, _,
      .more w raw w₁ w₂ t w' body key j ms blank name between gap ok after items, ?_⟩
    rw [tail, peek_some more, ends]
    simp
  · refine ⟨[(key, j)], _, .last w raw w₁ w₂ t w' key j blank name between gap ok after, ?_⟩
    rw [tail, peek_some last, ends]
    simp

theorem array_step (marked : expect openBracket rest = some inner)
    (next : (peek (ws inner) = some closeBracket ∧ (ws inner).tail = rest') ∨
      ∃ js body, Elements P js body ∧ ws inner = body ++ closeBracket :: rest') :
    ∃ j t, Layer Body P j t ∧ rest = t ++ rest' := by
  obtain ⟨w, blank, shape⟩ := ws_split inner
  rcases next with ⟨empty, ends⟩ | ⟨js, body, items, ends⟩
  · refine ⟨_, _, .emptyArray w blank, ?_⟩
    rw [expect_some marked, shape, peek_some empty, ends]
    simp
  · refine ⟨_, _, .array js _ (elements_pad blank items), ?_⟩
    rw [expect_some marked, shape, ends]
    simp

theorem object_step (marked : expect openBrace rest = some inner)
    (next : (peek (ws inner) = some closeBrace ∧ (ws inner).tail = rest') ∨
      ∃ ms body, Members Body P ms body ∧ ws inner = body ++ closeBrace :: rest') :
    ∃ ms t, Layer Body P (.object ms) t ∧ rest = t ++ rest' := by
  obtain ⟨w, blank, shape⟩ := ws_split inner
  rcases next with ⟨empty, ends⟩ | ⟨ms, body, items, ends⟩
  · refine ⟨_, _, .emptyObject w blank, ?_⟩
    rw [expect_some marked, shape, peek_some empty, ends]
    simp
  · refine ⟨_, _, .object ms _ (members_pad blank items), ?_⟩
    rw [expect_some marked, shape, ends]
    simp

end Steps

end Align.JsonParser
