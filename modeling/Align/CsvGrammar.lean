import Align.Csv

/-! The strict CSV grammar, and that the record parser reads exactly it. A field
is written plain when it holds no comma, quote, CR or LF, or between quotes with
its own quotes doubled. A record is one or more fields; a text is its records,
each ended by the line ending, which only the last may lack. A last record
without one must not be empty text: what ends there is the input. -/
namespace Align.CsvGrammar
open Csv List

def doubled (f : Bytes) : Bytes := f.flatMap fun b => if b = quote then [quote, quote] else [b]

inductive FieldText (f : Bytes) : Bytes → Prop where
  | plain (clean : ∀ b ∈ f, isBoundary b = false) : FieldText f f
  | quoted : FieldText f (quote :: (doubled f ++ [quote]))

inductive RowText : List Bytes → Bytes → Prop where
  | last (f t : Bytes) (spelled : FieldText f t) : RowText [f] t
  | more (f t rest : Bytes) (row : List Bytes) (spelled : FieldText f t) (tail : RowText row rest) :
      RowText (f :: row) (t ++ comma :: rest)

def eolText : Eol → Bytes
  | .crlf => [cr, lf]
  | .lf => [lf]

inductive RowsText (eol : Eol) : List (List Bytes) → Bytes → Prop where
  | none : RowsText eol [] []
  | last (row : List Bytes) (t : Bytes) (spelled : RowText row t) (visible : t ≠ []) :
      RowsText eol [row] t
  | more (row : List Bytes) (rows : List (List Bytes)) (t rest : Bytes) (spelled : RowText row t)
      (tail : RowsText eol rows rest) : RowsText eol (row :: rows) (t ++ (eolText eol ++ rest))

/-- A whole text, behind a byte-order mark or without one; without one it must
not look as if it had one. -/
inductive CsvText (eol : Eol) (table : List (List Bytes)) : Bytes → Prop where
  | marked (body : Bytes) (rows : RowsText eol table body) : CsvText eol table (bom ++ body)
  | unmarked (body : Bytes) (rows : RowsText eol table body) (plain : ¬ bom <+: body) :
      CsvText eol table body

theorem doubled_free (free : quote ∉ f) : doubled f = f := by
  induction f with
  | nil => rfl
  | cons b rest ih =>
    rw [mem_cons, not_or] at free
    rw [doubled, flatMap_cons, ← doubled, ih free.2, if_neg (Ne.symm free.1)]
    rfl

variable {run : Bytes}

theorem doubled_run (f : Bytes) (free : quote ∉ run) :
    doubled (run ++ quote :: f) = run ++ quote :: quote :: doubled f := by
  have front := doubled_free free
  rw [doubled] at front ⊢
  rw [flatMap_append, front, flatMap_cons, if_pos rfl]
  rfl

theorem findIdx?_free (free : quote ∉ run) : run.findIdx? (· == quote) = none := by
  rw [findIdx?_eq_none_iff]
  intro b member
  exact beq_eq_false_iff_ne.mpr fun same => free (same ▸ member)

theorem findIdx?_run (run rest : Bytes) (free : quote ∉ run) :
    (run ++ quote :: rest).findIdx? (· == quote) = some run.length := by
  rw [findIdx?_append, findIdx?_free free]
  simp [findIdx?_cons]

theorem slice_eq_take (src : Bytes) (p stop : Nat) : slice src p stop = (src.drop p).take (stop - p) := by
  rw [slice, drop_take]

variable (src : Bytes) (p stop : Nat) (text rest : Bytes)

theorem slice_behind (shape : slice src p stop = text ++ rest) : slice src (p + text.length) stop = rest := by
  rw [slice, ← drop_drop, ← slice, shape, drop_left]

theorem slice_front (shape : slice src p stop = text ++ rest) : slice src p (p + text.length) = text := by
  have long := congrArg List.length shape
  rw [slice_eq_take, length_take, length_append] at long
  have front := congrArg (List.take text.length) shape
  rw [slice_eq_take, take_take, take_left, Nat.min_eq_left (by omega)] at front
  rw [slice_eq_take, Nat.add_sub_cancel_left, front]

theorem slice_byte (b : UInt8) (shape : slice src p stop = text ++ b :: rest) :
    src[p + text.length]? = some b ∧ p + text.length < stop := by
  have byte : (slice src p stop)[text.length]? = some b := by simp [shape]
  rw [slice_eq_take, getElem?_take, getElem?_drop] at byte
  split_ifs at byte with inside
  exact ⟨byte, by omega⟩

section Cells
variable {src : Bytes} {stop : Nat}

theorem chunksLoop_doubled (fuel p : Nat) (f : Bytes) (enough : f.length < fuel)
    (shape : slice src p stop = doubled f) :
    ∃ chunks, chunksLoop src stop fuel p = some chunks ∧ chunks.flatten = f := by
  induction fuel generalizing p f with
  | zero => omega
  | succ fuel ih =>
    rw [chunksLoop, nextQuote_eq]
    by_cases free : quote ∈ f
    · obtain ⟨run, f', rfl, clean⟩ := eq_append_cons_of_mem free
      rw [doubled_run _ clean] at shape
      have next := slice_byte src p stop (run ++ [quote]) (doubled f') quote (by simp [shape])
      have behind := slice_behind src p stop (run ++ [quote, quote]) (doubled f') (by simp [shape])
      simp only [length_append, length_cons, length_nil] at next behind enough
      obtain ⟨chunks, found, same⟩ := ih (p + run.length + 2) f' (by omega) behind
      refine ⟨run :: [quote] :: chunks, ?_, by simp [same]⟩
      rw [shape, findIdx?_run run _ clean]
      simp only [slice_front src p stop run _ shape, found]
      rw [if_neg]
      · rfl
      · rintro (outside | different)
        · omega
        · exact different next.1
    · rw [shape, doubled_free free, findIdx?_free free]
      exact ⟨[f], rfl, by simp⟩

theorem decodedLenLoop_doubled (fuel p n : Nat) (f : Bytes) (enough : f.length < fuel)
    (shape : slice src p stop = doubled f) (room : (doubled f).length ≤ n) :
    decodedLenLoop src stop fuel p n = some (n - (doubled f).length + f.length) := by
  induction fuel generalizing p n f with
  | zero => omega
  | succ fuel ih =>
    rw [decodedLenLoop, nextQuote_eq]
    by_cases free : quote ∈ f
    · obtain ⟨run, f', rfl, clean⟩ := eq_append_cons_of_mem free
      rw [doubled_run _ clean] at shape room ⊢
      have next := slice_byte src p stop (run ++ [quote]) (doubled f') quote (by simp [shape])
      have behind := slice_behind src p stop (run ++ [quote, quote]) (doubled f') (by simp [shape])
      simp only [length_append, length_cons, length_nil] at next behind enough room ⊢
      rw [shape, findIdx?_run run _ clean]
      simp only
      rw [if_neg, ih (p + run.length + 2) (n - 1) f' (by omega) behind (by omega)]
      · congr 1
        omega
      · rintro (outside | different)
        · omega
        · exact different next.1
    · rw [shape, doubled_free free, findIdx?_free free]
      rw [doubled_free free] at room
      simp only [Option.some.injEq]
      omega

end Cells

theorem doubled_length (f : Bytes) : f.length ≤ (doubled f).length := by
  induction f with
  | nil => exact Nat.le_refl 0
  | cons b rest ih =>
    rw [doubled, flatMap_cons, ← doubled, length_append, length_cons]
    split <;> simp <;> omega

/-- The cell is the extent of a field: its bytes are the field with quotes
doubled, and the flag says whether there were any. -/
structure Holds (src : Bytes) (cell : Cell) (f : Bytes) : Prop where
  ordered : cell.start ≤ cell.stop
  inside : cell.stop ≤ src.length
  raw : slice src cell.start cell.stop = doubled f
  flag : cell.escaped = decide (quote ∈ f)

namespace Holds
variable {src : Bytes} {cell : Cell} {f : Bytes}

theorem size (holds : Holds src cell f) : (doubled f).length = cell.stop - cell.start := by
  have inside := holds.inside
  rw [← holds.raw, slice, length_drop, length_take]
  omega

theorem decoded (holds : Holds src cell f) : cell.decoded src = some f := by
  by_cases free : quote ∈ f
  · have size := holds.size
    have long := doubled_length f
    obtain ⟨chunks, found, same⟩ :=
      chunksLoop_doubled (cell.stop + 1) _ f (by omega) holds.raw
    simp [Cell.decoded, Cell.chunks, holds.flag, free, found, same]
  · simp [Cell.decoded, Cell.chunks, holds.flag, free, holds.raw, doubled_free free]

theorem decodedLen (holds : Holds src cell f) : cell.decodedLen src = some f.length := by
  have size := holds.size
  have ordered : ¬ cell.stop < cell.start := Nat.not_lt.mpr holds.ordered
  by_cases free : quote ∈ f
  · have long := doubled_length f
    rw [Cell.decodedLen, if_neg ordered, if_neg (by simp [holds.flag, free]), ← size,
      decodedLenLoop_doubled _ _ _ f (by omega) holds.raw (Nat.le_refl _), Nat.sub_self,
      Nat.zero_add]
  · rw [doubled_free free] at size
    rw [Cell.decodedLen, if_neg ordered, if_pos (by simp [holds.flag, free]), size]

end Holds

section Behind
variable {src : Bytes} {pos : Nat} {text rest : Bytes}

theorem drop_behind (shape : src.drop pos = text ++ rest) :
    src.drop (pos + text.length) = rest := by
  rw [← drop_drop, shape, drop_left]

theorem byte_behind (shape : src.drop pos = text ++ rest) :
    src[pos + text.length]? = rest.head? := by
  rw [← drop_behind shape, head?_drop]

theorem length_behind (inside : pos ≤ src.length) (shape : src.drop pos = text ++ rest) : src.length = pos + text.length + rest.length := by
  have size := congrArg List.length shape
  rw [length_drop, length_append] at size
  omega

theorem drop_behind_byte (shape : src.drop pos = text ++ b :: rest) : src.drop (pos + text.length + 1) = rest := by
  have behind := drop_behind shape
  rw [← drop_drop, behind]
  rfl

end Behind

section Quoted
variable (src : Bytes) (start : Nat)
variable (fuel pos : Nat) (escaped : Bool)

theorem quotedLoop_step {rest : Bytes} (free : quote ∉ run) (shape : src.drop pos = run ++ quote :: rest) :
    quotedLoop src start (fuel + 1) pos escaped =
      if rest.head? = some quote then quotedLoop src start fuel (pos + run.length + 2) true
      else .ok (⟨start, pos + run.length, escaped⟩, pos + run.length + 1) := by
  have next : src[pos + run.length + 1]? = rest.head? := by
    have behind := @byte_behind src pos (run ++ [quote]) rest (by simp [shape])
    rwa [length_append] at behind
  have here : src[pos]? = (run ++ quote :: rest).head? := by rw [← shape, head?_drop]
  have inside : pos + run.length ≠ src.length := by
    intro last
    have byte := byte_behind shape
    rw [last] at byte
    simp at byte
  rw [quotedLoop, here, nextQuote_eq, shape, findIdx?_run _ _ free]
  cases run with
  | nil =>
    rw [length_nil, Nat.add_zero] at next
    simp [next]
  | cons b run =>
    have differs : b ≠ quote := fun same => free (same ▸ mem_cons_self)
    rw [length_cons] at next inside
    simp [differs, inside, next]

theorem quotedLoop_open (inside : pos ≤ src.length) (free : quote ∉ src.drop pos) : quotedLoop src start fuel pos escaped = .error .invalid := by
  cases fuel with
  | zero => rfl
  | succ fuel =>
    rcases here : src[pos]? with _ | byte
    · simp [quotedLoop, here]
    have differs : byte ≠ quote := by
      rintro rfl
      exact free (mem_of_getElem? (i := 0) (by simpa using here))
    have last : pos + (src.length - pos) = src.length := by omega
    simp [quotedLoop, here, differs, nextQuote_eq, findIdx?_free free, last]

theorem quotedLoop_complete (f rest : Bytes) (enough : f.length < fuel)
    (shape : src.drop pos = doubled f ++ quote :: rest) (ends : rest.head? ≠ some quote) :
    quotedLoop src start fuel pos escaped =
      .ok (⟨start, pos + (doubled f).length, escaped || decide (quote ∈ f)⟩,
        pos + (doubled f).length + 1) := by
  induction fuel generalizing pos escaped f with
  | zero => omega
  | succ fuel ih =>
    by_cases free : quote ∈ f
    · obtain ⟨run, f', rfl, clean⟩ := eq_append_cons_of_mem free
      rw [doubled_run _ clean] at shape ⊢
      rw [append_assoc] at shape
      have behind := @drop_behind_byte _ _ [] _ quote
        (drop_behind_byte shape)
      rw [length_append, length_cons] at enough
      rw [quotedLoop_step _ _ _ _ _ clean shape]
      refine (if_pos rfl).trans ?_
      rw [ih (pos + run.length + 2) true f' (by omega) behind]
      simp
      omega
    · rw [doubled_free free] at shape ⊢
      rw [quotedLoop_step _ _ _ _ _ free shape, if_neg ends]
      simp [free]

theorem quotedLoop_sound {after : Nat} (inside : pos ≤ src.length)
    (found : quotedLoop src start fuel pos escaped = .ok (cell, after)) :
    ∃ f, src.drop pos = doubled f ++ quote :: src.drop after ∧ after ≤ src.length ∧
      cell = ⟨start, pos + (doubled f).length, escaped || decide (quote ∈ f)⟩ := by
  induction fuel generalizing pos escaped with
  | zero => cases found
  | succ fuel ih =>
    by_cases free : quote ∈ src.drop pos
    · obtain ⟨run, rest, shape, clean⟩ := eq_append_cons_of_mem free
      have size := length_behind inside shape
      rw [length_cons] at size
      rw [quotedLoop_step _ _ _ _ _ clean shape] at found
      split_ifs at found with more
      · obtain ⟨rest', rfl⟩ : ∃ rest', rest = quote :: rest' := by
          cases rest with
          | nil => cases more
          | cons b rest' => exact ⟨rest', by rw [Option.some.inj more]⟩
        have behind : src.drop (pos + run.length + 2) = rest' :=
          @drop_behind_byte _ _ [] _ quote
            (drop_behind_byte shape)
        rw [length_cons] at size
        obtain ⟨f', spelled, within, same⟩ := ih (pos + run.length + 2) true (by omega) found
        refine ⟨run ++ quote :: f', ?_, within, ?_⟩
        · rw [shape, doubled_run _ clean, ← behind, spelled]
          simp
        · rw [same, doubled_run _ clean]
          simp
          omega
      · cases found
        refine ⟨run, ?_, by omega, ?_⟩
        · rw [shape, doubled_free clean, drop_behind_byte shape]
        · simp [doubled_free clean, clean]
    · rw [quotedLoop_open _ _ _ _ _ inside free] at found
      cases found

end Quoted

theorem drop_byte (src : Bytes) (p : Nat) (b : UInt8) (here : src[p]? = some b) :
    src.drop p = b :: src.drop (p + 1) ∧ p < src.length := by
  obtain ⟨inside, same⟩ := List.getElem?_eq_some_iff.mp here
  exact ⟨by rw [drop_eq_getElem_cons inside, same], inside⟩

variable (src : Bytes) (eol : Eol) (p : Nat) (rest : Bytes)

theorem atEol_found (shape : src.drop p = eolText eol ++ rest) : atEol src eol p = .ok (some (eolText eol).length) := by
  have first : src[p]? = (eolText eol ++ rest).head? := by rw [← shape, head?_drop]
  cases eol with
  | lf => simp [atEol, first, eolText]
  | crlf =>
    have second : src[p + 1]? = some lf := @byte_behind _ p [cr] (lf :: rest) shape
    simp [atEol, first, second, eolText]

theorem atEol_sound (found : atEol src eol p = .ok (some width)) :
    src.drop p = eolText eol ++ src.drop (p + width) ∧ p + width ≤ src.length := by
  cases eol with
  | lf =>
    simp only [atEol] at found
    split_ifs at found with here
    · cases found
      exact drop_byte src p lf here
    · cases found
  | crlf =>
    simp only [atEol] at found
    split_ifs at found with here
    · cases found
      obtain ⟨first, _⟩ := drop_byte src p cr here.1
      obtain ⟨second, inside⟩ := drop_byte src (p + 1) lf here.2
      exact ⟨by rw [first, second]; rfl, inside⟩
    · cases found

theorem atEol_other (here : src[p]? = some b) (other : b ≠ cr ∧ b ≠ lf) : atEol src eol p = .ok none := by
  cases eol <;> simp [atEol, here, other]

inductive Ends (eol : Eol) : Bytes → Prop where
  | input : Ends eol []
  | field (rest : Bytes) : Ends eol (comma :: rest)
  | row (rest : Bytes) : Ends eol (eolText eol ++ rest)

theorem ends_boundary (ends : Ends eol rest) :
    rest.findIdx? isBoundary = if rest = [] then none else some 0 := by
  cases ends with
  | input => rfl
  | field rest => rfl
  | row rest => cases eol <;> rfl

theorem ends_head (ends : Ends eol rest) : rest.head? ≠ some quote := by
  cases ends with
  | input => simp
  | field rest => simp [comma, quote]
  | row rest => cases eol <;> simp [eolText, cr, lf, quote]

section Unquoted
variable {src : Bytes} (eol : Eol)

theorem unquotedLoop_ends (fuel pos : Nat) (ends : Ends eol (src.drop pos)) :
    unquotedLoop src eol (fuel + 1) pos = .ok pos := by
  have first : src[pos]? = (src.drop pos).head? := (head?_drop).symm
  generalize shape : src.drop pos = rest at ends first
  cases ends with
  | input => simp [unquotedLoop, first]
  | field rest => simp [unquotedLoop, first]
  | row rest =>
    have eolHere := atEol_found _ _ _ _ shape
    cases eol <;> simp [unquotedLoop, first, eolHere] <;> simp [eolText]

theorem clean_other (clean : isBoundary b = false) :
    b ≠ comma ∧ b ≠ quote ∧ b ≠ cr ∧ b ≠ lf := by
  simp [isBoundary, isDelimiter] at clean
  tauto

theorem unquotedLoop_jump (fuel pos : Nat) (here : src[pos]? = some b) (clean : isBoundary b = false) :
    unquotedLoop src eol (fuel + 1) pos = unquotedLoop src eol fuel
      (pos + ((src.drop pos).findIdx? isBoundary).getD (src.drop pos).length) := by
  obtain ⟨notComma, notQuote, other⟩ := clean_other clean
  simp only [unquotedLoop, here, notComma, notQuote, ↓reduceIte, atEol_other _ _ _ here other,
    nextUnquotedBoundary_eq]

theorem unquotedLoop_complete {fuel pos : Nat} {f rest : Bytes} (enough : f.length < fuel)
    (clean : ∀ b ∈ f, isBoundary b = false) (ends : Ends eol rest) (shape : src.drop pos = f ++ rest) :
    unquotedLoop src eol fuel pos = .ok (pos + f.length) := by
  obtain ⟨fuel, rfl⟩ : ∃ left, fuel = left + 1 := ⟨fuel - 1, by omega⟩
  have behind := drop_behind shape
  cases f with
  | nil => exact unquotedLoop_ends _ _ _ (by rwa [shape])
  | cons b f =>
    obtain ⟨fuel, rfl⟩ : ∃ left, fuel = left + 1 := ⟨fuel - 1, by rw [length_cons] at enough; omega⟩
    have here : src[pos]? = some b := by
      rw [← head?_drop, shape]
      rfl
    have front : (b :: f).findIdx? isBoundary = none := findIdx?_eq_none_iff.mpr clean
    have jump : ((src.drop pos).findIdx? isBoundary).getD (src.drop pos).length = (b :: f).length := by
      rw [shape, findIdx?_append, front, ends_boundary _ _ ends]
      split_ifs with last
      · simp [last]
      · simp
    rw [unquotedLoop_jump _ _ _ here (clean b mem_cons_self), jump]
    exact unquotedLoop_ends _ _ _ (by rwa [behind])

theorem unquotedLoop_stop {fuel pos stop : Nat} (here : src[pos]? = some b)
    (marked : isBoundary b = true) (found : unquotedLoop src eol (fuel + 1) pos = .ok stop) :
    pos = stop := by
  by_cases separator : b = comma
  · simp only [unquotedLoop, here, separator, ↓reduceIte] at found
    exact Except.ok.inj found
  simp only [unquotedLoop, here, separator, ↓reduceIte] at found
  rcases ending : atEol src eol pos with _ | width
  · simp [ending] at found
  cases width with
  | some width =>
    simp only [ending] at found
    exact Except.ok.inj found
  | none =>
    by_cases opened : b = quote
    · simp [ending, opened] at found
    · have mark : b = cr ∨ b = lf := by simpa [isBoundary, isDelimiter, separator, opened] using marked
      rcases mark with rfl | rfl <;> cases eol <;> simp [atEol, here, cr, lf] at ending
      split_ifs at ending
      cases ending

theorem unquotedLoop_sound (fuel pos stop : Nat) (inside : pos ≤ src.length)
    (found : unquotedLoop src eol fuel pos = .ok stop) :
    ∃ f, (∀ b ∈ f, isBoundary b = false) ∧ src.drop pos = f ++ src.drop stop ∧ stop = pos + f.length ∧
      stop ≤ src.length := by
  induction fuel generalizing pos with
  | zero => cases found
  | succ fuel ih =>
    rcases here : src[pos]? with _ | b
    · rw [unquotedLoop, here] at found
      cases found
      exact ⟨[], by simp, rfl, rfl, inside⟩
    cases clean : isBoundary b with
    | false =>
      rw [unquotedLoop_jump _ _ _ here clean] at found
      obtain ⟨short, free⟩ := Scan.take_findIdx?_free _ _
      generalize ((src.drop pos).findIdx? isBoundary).getD (src.drop pos).length = k at found short free
      rw [length_drop] at short
      obtain ⟨f, rest, shape, rfl, within⟩ := ih (pos + k) (by omega) found
      have size : ((src.drop pos).take k).length = k := by
        rw [length_take, length_drop]
        omega
      refine ⟨(src.drop pos).take k ++ f, ?_, ?_, ?_, within⟩
      · intro c member
        rcases mem_append.mp member with early | late
        · exact free c early
        · exact rest c late
      · rw [append_assoc, ← shape, ← drop_drop, take_append_drop]
      · rw [length_append, size, Nat.add_assoc]
    | true =>
      cases unquotedLoop_stop _ here clean found
      exact ⟨[], by simp, rfl, rfl, inside⟩

end Unquoted

theorem holds_stretch {src : Bytes} {start : Nat} {f rest : Bytes} (inside : start ≤ src.length)
    (shape : src.drop start = doubled f ++ rest) :
    Holds src ⟨start, start + (doubled f).length, decide (quote ∈ f)⟩ f := by
  have size := length_behind inside shape
  refine ⟨Nat.le_add_right _ _, ?_, ?_, rfl⟩
  · change start + (doubled f).length ≤ src.length
    omega
  · rw [slice_eq_take, shape, Nat.add_sub_cancel_left, take_left]

theorem clean_free (f : Bytes) (clean : ∀ b ∈ f, isBoundary b = false) : quote ∉ f := by
  intro member
  exact absurd (clean quote member) (by decide)

theorem plain_head {eol : Eol} {f rest : Bytes} (clean : ∀ b ∈ f, isBoundary b = false)
    (ends : Ends eol rest) : (f ++ rest).head? ≠ some quote := by
  cases f with
  | nil => exact ends_head _ _ ends
  | cons b f =>
    intro same
    exact (clean_other (clean b mem_cons_self)).2.1 (Option.some.inj same)

section Fields
variable (src : Bytes) (eol : Eol)

theorem field_complete {pos : Nat} {f t rest : Bytes} (inside : pos ≤ src.length)
    (spelled : FieldText f t) (ends : Ends eol rest) (shape : src.drop pos = t ++ rest) :
    ∃ cell, field src eol pos = .ok (cell, pos + t.length) ∧ Holds src cell f := by
  have size := length_behind inside shape
  have here : src[pos]? = (t ++ rest).head? := by rw [← shape, head?_drop]
  cases spelled with
  | plain clean =>
    have free := clean_free f clean
    have holds := holds_stretch inside (by rw [shape, doubled_free free])
    rw [doubled_free free, decide_eq_false free] at holds
    refine ⟨_, ?_, holds⟩
    rw [field, if_neg (by rw [here]; exact plain_head clean ends),
      unquotedLoop_complete _ (by omega) clean ends shape]
  | quoted =>
    have behind : src.drop (pos + 1) = doubled f ++ quote :: rest := by
      have behind := @drop_behind_byte src pos [] (doubled f ++ quote :: rest) quote (by simp [shape])
      simpa using behind
    rw [length_cons] at size
    refine ⟨_, ?_, holds_stretch (by omega) behind⟩
    have long := doubled_length f
    rw [length_append] at size
    rw [field, if_pos (by rw [here]; rfl),
      quotedLoop_complete _ _ _ _ _ f _ (by omega) behind (ends_head _ _ ends)]
    simp
    omega

theorem field_sound {pos after : Nat} (inside : pos ≤ src.length)
    (found : field src eol pos = .ok (cell, after)) :
    ∃ f t, FieldText f t ∧ src.drop pos = t ++ src.drop after ∧ after = pos + t.length ∧
      after ≤ src.length ∧ Holds src cell f := by
  by_cases opened : src[pos]? = some quote
  · obtain ⟨first, within⟩ := drop_byte src pos quote opened
    rw [field, if_pos opened] at found
    obtain ⟨f, shape, reached, rfl⟩ := quotedLoop_sound _ _ _ _ _ within found
    have size := length_behind within shape
    rw [length_cons, length_drop] at size
    have holds := holds_stretch within shape
    refine ⟨f, _, .quoted, ?_, ?_, reached, holds⟩
    · rw [first, shape]
      simp
    · simp
      omega
  · rw [field, if_neg opened] at found
    rcases stopped : unquotedLoop src eol (src.length + 1) pos with _ | stop
    · simp [stopped] at found
    rw [stopped] at found
    cases found
    obtain ⟨f, clean, shape, rfl, reached⟩ := unquotedLoop_sound _ _ _ _ inside stopped
    have free := clean_free f clean
    have holds := holds_stretch inside (by rw [doubled_free free, ← shape])
    rw [doubled_free free, decide_eq_false free] at holds
    exact ⟨f, f, .plain clean, shape, rfl, reached, holds⟩

end Fields

/-- The visitor over the cells of a record, the first of them numbered `ordinal`. -/
def visitAll {σ : Type} (visit : Nat → Cell → σ → Except Status σ) :
    Nat → List Cell → σ → Except Status σ
  | _, [], state => .ok state
  | ordinal, cell :: cells, state =>
      match visit ordinal cell state with
      | .error status => .error status
      | .ok state => visitAll visit (ordinal + 1) cells state

/-- What stands behind a record, and the position behind that. -/
inductive RowEnd (src : Bytes) (eol : Eol) : Bytes → Nat → Prop where
  | input : RowEnd src eol [] src.length
  | line (after : Nat) (inside : after ≤ src.length) : RowEnd src eol (eolText eol ++ src.drop after) after

/-- The cells of a record at `pos`, and the position behind its line ending. -/
structure RowAt (src : Bytes) (eol : Eol) (pos : Nat) (row : List Bytes) (cells : List Cell)
    (after : Nat) : Prop where
  text : ∃ t tail, RowText row t ∧ RowEnd src eol tail after ∧ src.drop pos = t ++ tail
  holds : List.Forall₂ (Holds src) cells row

section Rows
variable (src : Bytes) (eol : Eol)
variable {tail : Bytes}

theorem rowEnd_ends {after : Nat} (ending : RowEnd src eol tail after) : Ends eol tail := by
  cases ending with
  | input => exact Ends.input
  | line after inside => exact Ends.row _

variable {σ : Type} (fieldLimit : Option (Nat × Status))
  (visit : Nat → Cell → σ → Except Status σ) (fuel ordinal pos count after : Nat)

theorem recordLoop_sound (state state' : σ) (inside : pos ≤ src.length)
    (found : recordLoop src eol fieldLimit visit fuel ordinal pos state = .ok (count, after, state')) :
    ∃ row cells, RowAt src eol pos row cells after ∧ count = ordinal + row.length ∧
      visitAll visit ordinal cells state = .ok state' := by
  induction fuel generalizing ordinal pos state with
  | zero => cases found
  | succ fuel ih =>
    rw [recordLoop] at found
    cases limited : fieldLimit.filter (·.1 = ordinal) with
    | some entry => simp [limited] at found
    | none =>
      rcases read : field src eol pos with _ | ⟨cell, behind⟩
      · simp [limited, read] at found
      obtain ⟨f, t, spelled, shape, rfl, reached, holds⟩ := field_sound _ _ inside read
      rcases visited : visit ordinal cell state with _ | middle
      · simp [limited, read, visited] at found
      simp only [limited, read, visited] at found
      by_cases last : pos + t.length = src.length
      · rw [if_pos last] at found
        cases found
        refine ⟨[f], [cell], ⟨⟨t, [], .last f t spelled, ?_, ?_⟩, .cons holds .nil⟩, rfl, ?_⟩
        · rw [last]
          exact RowEnd.input
        · rw [shape, last, drop_length]
        · simp [visitAll, visited]
      rw [if_neg last] at found
      by_cases more : src[pos + t.length]? = some comma
      · rw [if_pos more] at found
        obtain ⟨next, within⟩ := drop_byte src _ comma more
        obtain ⟨row, cells, ⟨⟨t', tail, spelled', ending, shape'⟩, holds'⟩, counted, rest⟩ :=
          ih (ordinal + 1) (pos + t.length + 1) middle within found
        refine ⟨f :: row, cell :: cells,
          ⟨⟨t ++ comma :: t', tail, .more f t t' row spelled spelled', ending, ?_⟩, .cons holds holds'⟩,
          ?_, ?_⟩
        · rw [shape, next, shape']
          simp
        · rw [counted, length_cons]
          omega
        · simp [visitAll, visited, rest]
      · rw [if_neg more] at found
        rcases ending : atEol src eol (pos + t.length) with _ | width
        · simp [ending] at found
        cases width with
        | none => simp [ending] at found
        | some width =>
          simp only [ending] at found
          cases found
          obtain ⟨line, within⟩ := atEol_sound _ _ _ ending
          refine ⟨[f], [cell], ⟨⟨t, _, .last f t spelled, .line _ within, ?_⟩, .cons holds .nil⟩, rfl, ?_⟩
          · rw [shape, line]
          · simp [visitAll, visited]

theorem record_ends (tail : Bytes) (after p ordinal : Nat) (state : σ) (inside : p ≤ src.length)
    (ending : RowEnd src eol tail after) (shape : src.drop p = tail)
    (more : Nat → Nat → σ → Except Status (Nat × Nat × σ)) :
    (if p = src.length then .ok (ordinal + 1, p, state)
      else if src[p]? = some comma then more (ordinal + 1) (p + 1) state
      else match atEol src eol p with
        | .ok (some width) => .ok (ordinal + 1, p + width, state)
        | _ => .error .invalid) = .ok (ordinal + 1, after, state) := by
  have size := @length_behind _ p [] tail inside shape
  have here : src[p]? = tail.head? := by rw [← shape, head?_drop]
  cases ending with
  | input =>
    have last : p = src.length := by simpa using size.symm
    rw [if_pos last, last]
  | line _ within =>
    have width : 0 < (eolText eol).length := by cases eol <;> decide
    have separator : (eolText eol ++ src.drop after).head? ≠ some comma := by
      cases eol <;> simp [eolText, cr, lf, comma]
    rw [length_append, length_drop, length_nil] at size
    rw [if_neg (by omega), here, if_neg separator, atEol_found _ _ p _ shape]
    simp only [Except.ok.injEq, Prod.mk.injEq, and_true, true_and]
    omega

theorem recordLoop_complete {after : Nat} (pos : Nat)
    (inside : pos ≤ src.length) (spelled : RowText row t) (ending : RowEnd src eol tail after)
    (shape : src.drop pos = t ++ tail) :
    ∃ cells, List.Forall₂ (Holds src) cells row ∧ ∀ fuel ordinal state, row.length ≤ fuel →
      recordLoop src eol none visit fuel ordinal pos state =
        (visitAll visit ordinal cells state).map fun state => (ordinal + row.length, after, state) := by
  induction spelled generalizing pos with
  | last f t spelled =>
    obtain ⟨cell, read, holds⟩ := field_complete _ _ inside spelled (rowEnd_ends _ _ ending) shape
    have size := length_behind inside shape
    have behind := drop_behind shape
    refine ⟨[cell], .cons holds .nil, fun fuel ordinal state enough => ?_⟩
    obtain ⟨fuel, rfl⟩ : ∃ left, fuel = left + 1 := ⟨fuel - 1, by simp at enough; omega⟩
    simp only [recordLoop, Option.filter_none, read, visitAll]
    cases visit ordinal cell state with
    | error _ => rfl
    | ok state => exact record_ends _ _ _ _ _ _ _ (by omega) ending behind _
  | more f t rest row spelled _ ih =>
    have shape' : src.drop pos = t ++ comma :: (rest ++ tail) := by simp [shape]
    obtain ⟨cell, read, holds⟩ := field_complete _ eol inside spelled (.field _) shape'
    have size := length_behind inside shape'
    have next := byte_behind shape'
    rw [length_cons] at size
    obtain ⟨cells, holds', run⟩ := ih (pos + t.length + 1) (by omega)
      (drop_behind_byte shape')
    refine ⟨cell :: cells, .cons holds holds', fun fuel ordinal state enough => ?_⟩
    rw [length_cons] at enough
    obtain ⟨fuel, rfl⟩ : ∃ left, fuel = left + 1 := ⟨fuel - 1, by omega⟩
    simp only [recordLoop, Option.filter_none, read, visitAll]
    cases visit ordinal cell state with
    | error _ => rfl
    | ok state =>
      have unfinished : pos + t.length ≠ src.length := by omega
      simp only [unfinished, next, head?_cons, ↓reduceIte]
      rw [run fuel (ordinal + 1) state (by omega), length_cons]
      congr 1
      funext state
      rw [Nat.add_right_comm, Nat.add_assoc]

theorem visitAll_collect (cells done : List Cell) :
    visitAll collect ordinal cells done = .ok (done ++ cells) := by
  induction cells generalizing ordinal done with
  | nil => simp [visitAll]
  | cons cell rest ih => simp [visitAll, collect, ih]

theorem rowText_length (spelled : RowText row t) :
    row.length ≤ t.length + 1 := by
  induction spelled with
  | last f t spelled => simp
  | more f t rest row spelled _ ih =>
    simp only [length_cons, length_append]
    omega

theorem recordCells_sound (inside : pos ≤ src.length)
    (found : recordCells src eol pos = .ok (some (count, after, cells))) :
    pos < src.length ∧ ∃ row, RowAt src eol pos row cells after := by
  rw [recordCells, record] at found
  split_ifs at found with ended
  · cases found
  rcases run : recordLoop src eol none collect (src.length + 1) 0 pos [] with _ | result
  · simp [run] at found
  rw [run] at found
  cases found
  obtain ⟨row, cells', at', _, visited⟩ := recordLoop_sound _ _ _ _ _ 0 _ _ _ [] _ inside run
  rw [visitAll_collect, nil_append] at visited
  cases visited
  exact ⟨by omega, row, at'⟩

theorem recordCells_complete (tail : Bytes) (after : Nat)
    (inside : pos < src.length) (spelled : RowText row t) (ending : RowEnd src eol tail after)
    (shape : src.drop pos = t ++ tail) :
    ∃ cells, recordCells src eol pos = .ok (some (row.length, after, cells)) ∧
      List.Forall₂ (Holds src) cells row := by
  obtain ⟨cells, holds, run⟩ := recordLoop_complete _ _ _ _
    (Nat.le_of_lt inside) spelled ending shape
  have size := length_behind (Nat.le_of_lt inside) shape
  have fields := rowText_length spelled
  refine ⟨cells, ?_, holds⟩
  rw [recordCells, record, if_neg (Nat.ne_of_lt inside), run _ 0 [] (by omega), visitAll_collect,
    nil_append, Nat.zero_add]
  rfl

end Rows

variable {table : List (List Bytes)}

theorem rowsText_nil {eol : Eol} (rows : RowsText eol table []) :
    table = [] := by
  generalize body : ([] : Bytes) = t at rows
  cases rows with
  | none => rfl
  | last row t spelled visible => exact absurd body.symm visible
  | more row rows t rest spelled tail => cases eol <;> simp [eolText] at body

variable {body : Bytes}

theorem rowsText_length {eol : Eol} (rows : RowsText eol table body) : table.length ≤ body.length := by
  have width : 0 < (eolText eol).length := by cases eol <;> decide
  induction rows with
  | none => exact Nat.le_refl 0
  | last row t spelled visible => exact length_pos_iff.mpr visible
  | more row rows t rest spelled _ ih =>
    simp only [length_cons, length_append]
    omega

variable {rows : List (List Cell)}

section Texts
variable (src : Bytes) {eol : Eol}

theorem recordCells_end (pos : Nat) (found : recordCells src eol pos = .ok none) : pos = src.length := by
  rw [recordCells, record] at found
  split_ifs at found with ended
  · exact ended
  · cases run : recordLoop src eol none collect (src.length + 1) 0 pos [] <;> simp [run] at found

theorem recordsLoop_sound (fuel pos : Nat) (rows : List (List Cell)) (inside : pos ≤ src.length)
    (found : recordsLoop src eol fuel pos = .ok rows) :
    ∃ table, RowsText eol table (src.drop pos) ∧ List.Forall₂ (List.Forall₂ (Holds src)) rows table := by
  induction fuel generalizing pos rows with
  | zero => cases found
  | succ fuel ih =>
    rw [recordsLoop] at found
    rcases read : recordCells src eol pos with _ | result
    · simp [read] at found
    cases result with
    | none =>
      simp only [read] at found
      cases found
      rw [recordCells_end _ _ read, drop_length]
      exact ⟨[], .none, .nil⟩
    | some result =>
      obtain ⟨count, after, cells⟩ := result
      obtain ⟨within, row, ⟨t, tail, spelled, ending, shape⟩, holds⟩ :=
        recordCells_sound _ _ _ _ _ inside read
      rcases next : recordsLoop src eol fuel after with _ | rest
      · simp [read, next] at found
      simp only [read, next] at found
      cases found
      cases ending with
      | input =>
        obtain ⟨table, rows, deeper⟩ := ih src.length rest (Nat.le_refl _) next
        rw [drop_length] at rows
        cases rowsText_nil rows
        rw [append_nil] at shape
        have visible : t ≠ [] := by
          rw [← shape, ne_eq, drop_eq_nil_iff]
          omega
        exact ⟨[row], shape ▸ .last row t spelled visible, .cons holds deeper⟩
      | line _ reached =>
        obtain ⟨table, rows, deeper⟩ := ih after rest reached next
        exact ⟨row :: table, shape ▸ .more row table t _ spelled rows, .cons holds deeper⟩

theorem recordsLoop_complete (fuel pos : Nat)
    (inside : pos ≤ src.length) (enough : table.length < fuel) (rows : RowsText eol table body)
    (shape : src.drop pos = body) :
    ∃ cells, recordsLoop src eol fuel pos = .ok cells ∧
      List.Forall₂ (List.Forall₂ (Holds src)) cells table := by
  have ended : ∀ left, recordsLoop src eol (left + 1) src.length = .ok [] := by
    intro left
    simp [recordsLoop, recordCells, record]
  obtain ⟨fuel, rfl⟩ : ∃ left, fuel = left + 1 := ⟨fuel - 1, by omega⟩
  induction rows generalizing pos fuel with
  | none =>
    have last : pos = src.length := Nat.le_antisymm inside (drop_eq_nil_iff.mp shape)
    exact ⟨[], by rw [last, ended], .nil⟩
  | last row t spelled visible =>
    have within : pos < src.length := by
      by_contra outside
      exact visible (shape ▸ drop_eq_nil_iff.mpr (by omega))
    obtain ⟨cells, read, holds⟩ := recordCells_complete _ _ _ [] src.length within spelled .input
      (by rw [shape, append_nil])
    rw [length_singleton] at enough
    obtain ⟨fuel, rfl⟩ : ∃ left, fuel = left + 1 := ⟨fuel - 1, by omega⟩
    refine ⟨[cells], ?_, .cons holds .nil⟩
    rw [recordsLoop, read]
    simp only [ended]
  | more row rows t rest spelled _ ih =>
    have width : 0 < (eolText eol).length := by cases eol <;> decide
    have size := length_behind inside shape
    rw [length_append] at size
    have behind : src.drop (pos + t.length + (eolText eol).length) = rest :=
      drop_behind (drop_behind shape)
    obtain ⟨cells, read, holds⟩ := recordCells_complete src _ pos _ _ (by omega) spelled
      (.line (pos + t.length + (eolText eol).length) (by omega)) (by rw [behind, shape])
    rw [length_cons] at enough
    obtain ⟨fuel, rfl⟩ : ∃ left, fuel = left + 1 := ⟨fuel - 1, by omega⟩
    obtain ⟨others, next, deeper⟩ := ih _ (by omega) behind fuel (by omega)
    refine ⟨cells :: others, ?_, .cons holds deeper⟩
    rw [recordsLoop]
    simp only [read, next]

/-- What the cells of a table decode to. -/
def decodedRows (rows : List (List Cell)) : List (List (Option Bytes)) :=
  rows.map fun cells => cells.map (·.decoded src)

theorem decodedRows_holds (holds : List.Forall₂ (List.Forall₂ (Holds src)) rows table) :
    decodedRows src rows = table.map (·.map some) := by
  have fields : ∀ cells row, List.Forall₂ (Holds src) cells row →
    cells.map (·.decoded src) = row.map some := by
    intro cells row holds
    induction holds with
    | nil => rfl
    | cons head _ ih => rw [map_cons, map_cons, head.decoded, ih]
  induction holds with
  | nil => rfl
  | cons head _ ih => rw [decodedRows, map_cons, map_cons, ← decodedRows, ih, fields _ _ head]

end Texts

theorem records_complete {eol : Eol} {src : Bytes} (text : CsvText eol table src) :
    ∃ rows, records src eol = .ok rows ∧ List.Forall₂ (List.Forall₂ (Holds src)) rows table := by
  cases text with
  | marked body rows =>
    have start : parserStart (bom ++ body) = 3 := by
      rw [parserStart, if_pos (List.isPrefixOf_iff_prefix.mpr (prefix_append bom body))]
    have short := rowsText_length rows
    exact recordsLoop_complete _ _ 3 (by simp [bom]) (by simp [bom]; omega) rows rfl
  | unmarked _ rows plain =>
    have start : parserStart src = 0 := by
      rw [parserStart, if_neg (fun found => plain (List.isPrefixOf_iff_prefix.mp found))]
    have short := rowsText_length rows
    rw [records, start]
    exact recordsLoop_complete _ _ 0 (Nat.zero_le _) (by omega) rows rfl

theorem records_sound {eol : Eol} {src : Bytes} (found : records src eol = .ok rows) :
    ∃ table, CsvText eol table src ∧ List.Forall₂ (List.Forall₂ (Holds src)) rows table := by
  rw [records, parserStart] at found
  split_ifs at found with start
  · obtain ⟨body, rfl⟩ := List.isPrefixOf_iff_prefix.mp start
    obtain ⟨table, text, holds⟩ := recordsLoop_sound _ _ 3 _ (by simp [bom]) found
    exact ⟨table, .marked body text, holds⟩
  · obtain ⟨table, text, holds⟩ := recordsLoop_sound _ _ 0 _ (Nat.zero_le _) found
    exact ⟨table, .unmarked src text fun found => start (List.isPrefixOf_iff_prefix.mpr found), holds⟩

/-- The reader accepts exactly the grammar and recovers the table. -/
theorem reader_exact (eol : Eol) (src : Bytes) :
    (∀ table, CsvText eol table src →
      ∃ rows, records src eol = .ok rows ∧ decodedRows src rows = table.map (·.map some)) ∧
    (∀ rows, records src eol = .ok rows →
      ∃ table, CsvText eol table src ∧ decodedRows src rows = table.map (·.map some)) := by
  constructor
  · intro table text
    obtain ⟨rows, found, holds⟩ := records_complete text
    exact ⟨rows, found, decodedRows_holds src holds⟩
  · intro rows found
    obtain ⟨table, text, holds⟩ := records_sound found
    exact ⟨table, text, decodedRows_holds src holds⟩

/-- Three texts that show what the grammar has to say beyond quoting: an empty
last field without a line ending is no record, a first field that begins with
the byte-order mark loses it, and records need not have one length. -/
theorem unrestricted_encoding_fails :
    (RowText [[]] [] ∧ records [] .lf = .ok []) ∧
    (RowText [[0xEF, 0xBB, 0xBF, 0x61]] [0xEF, 0xBB, 0xBF, 0x61] ∧
      records [0xEF, 0xBB, 0xBF, 0x61] .lf = .ok [[⟨3, 4, false⟩]]) ∧
    records [0x61, 0x2C, 0x62, 0x0A, 0x63] .lf =
      .ok [[⟨0, 1, false⟩, ⟨2, 3, false⟩], [⟨4, 5, false⟩]] := by
  refine ⟨⟨.last [] [] (.plain (by simp)), by decide⟩, ⟨.last _ _ (.plain ?_), by decide⟩, by decide⟩
  have clean : ([0xEF, 0xBB, 0xBF, 0x61] : Bytes).all (fun b => !isBoundary b) = true := by decide
  intro b member
  simpa using all_eq_true.mp clean b member

end Align.CsvGrammar
