import Align.JsonRecords
import Align.JsonDecode

/-! What a typed reader accepts is JSON: in front of the cursor it leaves behind
stands white space and one value of the grammar, however the value was read. -/
namespace Align.JsonReads
open JsonText JsonParser JsonSkip JsonRecords JsonDecode Option

/-- White space and one text in `P` lie between the two cursors. -/
def Took (P : Json Bytes → Bytes → Prop) (rest rest' : Bytes) : Prop :=
  ∃ w j t, Ws w ∧ P j t ∧ rest = w ++ (t ++ rest')

theorem took_scalar (rest : Bytes) (scalar : Scalar Body j t) :
    Took Deep (t ++ rest) rest := ⟨[], j, t, ws_nil, ⟨0, .scalar j t scalar⟩, rfl⟩

variable (rest rest' : Bytes)

theorem took_layer (took : Took (Layer Body Deep) rest rest') : Took Deep rest rest' := by
  obtain ⟨w, j, t, blank, ok, shape⟩ := took
  exact ⟨w, j, t, blank, deep_layer ok, shape⟩

theorem malformed_int (ok : ¬ malformed (digitRun rest).1 = true) : IntPart (digitRun rest).1 := by
  simp only [malformed, Bool.or_eq_true, Bool.and_eq_true, decide_eq_true_eq, beq_iff_eq, not_or] at ok
  exact ⟨digitRun_digits _ ok.1, ok.2⟩

theorem int_number (sign digits : Bytes) (signed : sign = [] ∨ sign = [0x2D]) (int : IntPart digits) :
    Number (sign ++ digits) := ⟨sign, digits, [], [], signed, int, Or.inl rfl, Or.inl rfl, by simp⟩

theorem integer_number (read : integer rest = some (v, rest')) :
    ∃ span, Number span ∧ rest = span ++ rest' := by
  obtain ⟨value, _, found⟩ := bind_eq_some_iff.mp read
  obtain ⟨split, sign⟩ := signSpan_split _ _
  have signed : (signSpan (· == 0x2D) rest).1 = [] ∨ (signSpan (· == 0x2D) rest).1 = [0x2D] := by
    rcases sign with none | ⟨s, isSign, one⟩
    · exact Or.inl none
    · rw [beq_iff_eq] at isSign
      exact Or.inr (isSign ▸ one)
  split_ifs at found with bad positive
  · obtain ⟨_, _, same⟩ := map_eq_some_iff.mp found
    cases same
    refine ⟨_, int_number _ _ signed (malformed_int _ bad), ?_⟩
    rw [List.append_assoc, ← digitRun_split, ← split]
  · cases found
    refine ⟨_, int_number _ _ signed (malformed_int _ bad), ?_⟩
    rw [List.append_assoc, ← digitRun_split, ← split]

theorem unsigned_number (read : integerUnsigned rest = some (v, rest')) :
    ∃ span, Number span ∧ rest = span ++ rest' := by
  unfold integerUnsigned at read
  split_ifs at read
  obtain ⟨value, _, found⟩ := bind_eq_some_iff.mp read
  split_ifs at found with bad
  cases found
  exact ⟨_, int_number [] _ (Or.inl rfl) (malformed_int _ bad), digitRun_split _⟩

theorem field_number {rest rest' : Bytes}
    (read : integerField w signed rest = some (v, rest')) : ∃ span, Number span ∧ rest = span ++ rest' := by
  unfold integerField at read
  split_ifs at read
  · exact unsigned_number _ _ read
  obtain ⟨⟨value, behind⟩, int, found⟩ := bind_eq_some_iff.mp read
  dsimp only at found
  split_ifs at found
  cases found
  exact integer_number _ _ int

theorem took_string {raw rest' : Bytes} (read : stringBody rest = some (raw, rest')) :
    Took Deep rest rest' := by
  obtain ⟨text, body, shape⟩ := stringBody_sound _ read
  rw [shape]
  exact took_scalar _ (.string raw text body)

theorem stringValue_took {rest rest' text : Bytes} (read : stringValue env rest = some (text, rest')) :
    Took Deep rest rest' := by
  obtain ⟨⟨raw, behind⟩, body, found⟩ := bind_eq_some_iff.mp read
  dsimp only at found
  split_ifs at found
  · obtain ⟨len, _, found⟩ := bind_eq_some_iff.mp found
    obtain ⟨_, _, same⟩ := map_eq_some_iff.mp found
    cases same
    exact took_string _ body
  · cases found
    exact took_string _ body

theorem ownedString_took (read : ownedStringValue rest = some (text, rest')) :
    Took Deep rest rest' := by
  obtain ⟨⟨raw, behind⟩, body, found⟩ := bind_eq_some_iff.mp read
  dsimp only at found
  split_ifs at found
  · obtain ⟨len, _, found⟩ := bind_eq_some_iff.mp found
    split_ifs at found
    · obtain ⟨_, _, same⟩ := map_eq_some_iff.mp found
      cases same
      exact took_string _ body
    · cases found
      exact took_string _ body
  · cases found
    exact took_string _ body

section Arrays
variable {α : Type} (P : Json Bytes → Bytes → Prop) (elem : Bytes → Option (α × Bytes))
  (took : ∀ rest a rest', elem rest = some (a, rest') → Took P rest rest')
include took

variable (fuel : Nat) (rest rest' : Bytes) (found : List α)

theorem items_took (read : items elem fuel rest = some (found, rest')) :
    ∃ js body, Elements P js body ∧ js.length = found.length ∧ rest = body ++ closeBracket :: rest' := by
  induction fuel generalizing rest found with
  | zero => contradiction
  | succ fuel ih =>
    obtain ⟨⟨a, behind⟩, first, next⟩ := bind_eq_some_iff.mp read
    obtain ⟨w, j, t, blank, ok, shape⟩ := took rest a behind first
    obtain ⟨w', after, tail⟩ := ws_split behind
    dsimp only at next
    split_ifs at next with more last
    · obtain ⟨⟨others, ends⟩, later, same⟩ := map_eq_some_iff.mp next
      cases same
      obtain ⟨v, between, front⟩ := ws_split (ws behind).tail
      obtain ⟨js, body, elements, size, split⟩ := ih _ _ later
      refine ⟨j :: js, _, .more w t w' (v ++ body) j js blank ok after (elements_pad between elements),
        by simp [size], ?_⟩
      rw [shape, tail, peek_some more, front, split]
      simp
    · cases next
      refine ⟨[j], _, .last w t w' j blank ok after, rfl, ?_⟩
      have mark := peek_some last
      generalize (ws behind).tail = ends at mark ⊢
      rw [shape, tail, mark]
      simp

theorem array_took (read : arrayOf elem rest = some (found, rest')) :
    ∃ w, Ws w ∧ ((∃ v, Ws v ∧ found = [] ∧ rest = w ++ openBracket :: (v ++ closeBracket :: rest')) ∨
      ∃ js body, Elements P js body ∧ js.length = found.length ∧
        rest = w ++ openBracket :: (body ++ closeBracket :: rest')) := by
  obtain ⟨inner, marked, next⟩ := bind_eq_some_iff.mp read
  obtain ⟨w, blank, front⟩ := ws_split rest
  obtain ⟨v, inside, shape⟩ := ws_split inner
  refine ⟨w, blank, ?_⟩
  dsimp only at next
  split_ifs at next with empty
  · cases next
    refine Or.inl ⟨v, inside, rfl, ?_⟩
    have mark := peek_some empty
    generalize (ws inner).tail = tail at mark ⊢
    rw [front, expect_some marked, shape, mark]
  · obtain ⟨js, body, elements, size, split⟩ := items_took P _ took _ _ _ _ next
    refine Or.inr ⟨js, v ++ body, elements_pad inside elements, size, ?_⟩
    rw [front, expect_some marked, shape, split]
    simp

theorem array_value (read : arrayOf elem rest = some (found, rest')) :
    Took (Layer Body P) rest rest' := by
  obtain ⟨w, blank, ⟨v, inside, _, shape⟩ | ⟨js, body, elements, _, shape⟩⟩ :=
    array_took P _ took _ _ _ read
  · exact ⟨w, _, _, blank, .emptyArray v inside, by simp [shape]⟩
  · exact ⟨w, _, _, blank, .array js body elements, by simp [shape]⟩

end Arrays

theorem scalarArray_took (elem : Bytes → Option (List Cell × Bytes))
    (took : ∀ rest cells rest', elem rest = some (cells, rest') → Took Deep rest rest') (rest : Bytes)
    (cells : List Cell) (rest' : Bytes) (read : scalarArray elem rest = some (cells, rest')) : Took Deep rest rest' := by
  obtain ⟨⟨parts, behind⟩, found, same⟩ := map_eq_some_iff.mp read
  cases same
  exact took_layer _ _ (array_value _ _ took _ _ _ found)

theorem leaf_took (kind : Nat) (rest : Bytes) (cells : List Cell) (rest' : Bytes)
    (read : writeLeaf env kind w signed rest = some (cells, rest')) : Took Deep rest rest' := by
  unfold writeLeaf at read
  split at read
  · split_ifs at read
    obtain ⟨⟨v, behind⟩, found, same⟩ := map_eq_some_iff.mp read
    cases same
    rw [boolean_some found]
    cases v with
    | true => exact took_scalar _ .true
    | false => exact took_scalar _ .false
  · -- A float and an integer are the same span of text.
    split_ifs at read
    all_goals
      obtain ⟨⟨span, behind⟩, found, read⟩ := bind_eq_some_iff.mp read
      obtain ⟨number, shape⟩ := numberSpan_sound _ found
      obtain ⟨_, _, same⟩ := map_eq_some_iff.mp read
      cases same
      rw [shape]
      exact took_scalar _ (.number span number)
  · split_ifs at read
    obtain ⟨⟨text, behind⟩, found, same⟩ := map_eq_some_iff.mp read
    cases same
    exact stringValue_took found
  · split_ifs at read
    obtain ⟨⟨text, behind⟩, found, same⟩ := map_eq_some_iff.mp read
    cases same
    exact ownedString_took _ _ found
  · split_ifs at read
    obtain ⟨⟨texts, behind⟩, found, same⟩ := map_eq_some_iff.mp read
    cases same
    refine took_layer _ _ (array_value _ _ ?_ _ _ _ found)
    exact fun rest text rest' => ownedString_took _ _
  · split_ifs at read
    obtain ⟨⟨v, behind⟩, found, same⟩ := map_eq_some_iff.mp read
    cases same
    obtain ⟨span, number, shape⟩ := field_number found
    rw [shape]
    exact took_scalar _ (.number span number)

theorem elem_took (rest : Bytes) (cells : List Cell) (rest' : Bytes)
    (read : writeElem env kind w signed rest = some (cells, rest')) : Took Deep rest rest' := by
  unfold writeElem at read
  split_ifs at read
  · exact scalarArray_took _ (leaf_took 0) _ _ _ read
  · exact leaf_took _ _ _ _ read

/-- A writer that only succeeds behind a value. -/
def TookOut (P : Json Bytes → Bytes → Prop) (write : Bytes → Out) : Prop :=
  ∀ rest rest', (write rest).rest = some rest' → Took P rest rest'

theorem ofCells_took (read : Bytes → Option (List Cell × Bytes))
    (took : ∀ rest cells rest', read rest = some (cells, rest') → Took Deep rest rest') :
    TookOut Deep fun rest => .ofCells start (read rest) := by
  intro rest rest' success
  dsimp only at success
  rcases found : read rest with _ | value
  · rw [found] at success
    cases success
  rw [found] at success
  cases success
  exact took rest value.1 _ found

theorem andThen_rest (first : Out) (next : Bytes → Out) (rest' : Bytes)
    (success : (first.andThen next).rest = some rest') :
    ∃ rest, first.rest = some rest ∧ (next rest).rest = some rest' := by
  unfold Out.andThen at success
  cases read : first.rest with
  | none => simp [read] at success
  | some rest =>
    simp only [read] at success
    exact ⟨rest, rfl, success⟩

theorem setTag_rest {rest rest' : Bytes}
    (success : (setTag d base size rest).rest = some rest') : rest = rest' := by
  unfold setTag at success
  split_ifs at success
  · cases success
  · exact Option.some.inj success

theorem field_took (value : Nat → Bytes → Out) (took : ∀ start, TookOut Deep (value start)) (d : JsonField)
    (base : Nat) (size : Int) : TookOut Deep (writeField value d base size) := by
  intro rest rest' success
  unfold writeField at success
  rcases width : fieldWidth d with _ | width
  · rw [width] at success
    cases success
  simp only [width] at success
  split_ifs at success
  · exact took _ rest rest' success
  · cases null : skipNull rest with
    | some behind =>
      rw [null] at success
      cases success
      rw [afterLiteral_some null]
      exact took_scalar _ .null
    | none =>
      rw [null] at success
      obtain ⟨behind, first, tagged⟩ := andThen_rest _ _ _ success
      cases setTag_rest tagged
      exact took _ rest _ first
  · cases success

/-- An object, the values inside however deep. -/
def Braces (j : Json Bytes) (t : Bytes) : Prop := Layer Body Deep j t ∧ ∃ ms, j = .object ms

theorem took_braces {rest rest' : Bytes} (took : Took Braces rest rest') : Took Deep rest rest' := by
  obtain ⟨w, j, t, blank, object, shape⟩ := took
  exact ⟨w, j, t, blank, deep_layer object.1, shape⟩

section Objects
variable (find : Bytes → Option Nat) (field : Nat → Bytes → Out) (took : ∀ i, TookOut Deep (field i))
include took

theorem member_took {rest behind : Bytes} (success : (member find field seen rest).1.rest = some behind) :
    ∃ w raw key w₁ w₂ j t, Ws w ∧ Body raw key ∧ Ws w₁ ∧ Ws w₂ ∧ Deep j t ∧
      rest = w ++ (quoted raw ++ (w₁ ++ colon :: (w₂ ++ (t ++ behind)))) := by
  unfold member at success
  obtain ⟨w, blank, front⟩ := ws_split rest
  rcases string : stringBody (ws rest) with _ | ⟨raw, named⟩
  · rw [string] at success
    cases success
  obtain ⟨key, name, keyed⟩ := stringBody_sound _ string
  obtain ⟨w₁, between, colons⟩ := ws_split named
  simp only [string] at success
  rcases marked : expect colon (ws named) with _ | inner
  · rw [marked] at success
    cases success
  obtain ⟨w₂, gap, starts⟩ := ws_split inner
  simp only [marked] at success
  have value : Took Deep (ws inner) behind := by
    rcases known : find raw with _ | i
    · simp only [known] at success
      obtain ⟨j, t, ok, shape⟩ := skip_only _ _ success
      exact ⟨[], j, t, ws_nil, ⟨_, ok⟩, shape⟩
    simp only [known] at success
    cases marks : seen.mark i with
    | none =>
      rw [marks] at success
      cases success
    | some seen =>
      rw [marks] at success
      exact took i _ _ success
  obtain ⟨v, j, t, inside, ok, shape⟩ := value
  refine ⟨w, raw, key, w₁, w₂ ++ v, j, t, blank, name, between, ws_join gap inside, ok, ?_⟩
  rw [front, keyed, colons, expect_some marked, starts, shape]
  simp

theorem members_took (fuel : Nat) (seen : SeenSet) (rest rest' : Bytes)
    (success : (members find field fuel seen rest).1.rest = some rest') :
    ∃ ms body, Members Body Deep ms body ∧ rest = body ++ closeBrace :: rest' := by
  induction fuel generalizing seen rest with
  | zero => cases success
  | succ fuel ih =>
    rw [members] at success
    unfold delimit at success
    rcases first : (member find field seen rest).1.rest with _ | behind
    · simp only [first, map_none] at success
      cases success
    obtain ⟨w, raw, key, w₁, w₂, j, t, blank, name, between, gap, ok, rfl⟩ :=
      member_took _ _ took first
    apply members_step blank name between gap ok
    simp only [first, map_some] at success
    split_ifs at success with more last
    · exact Or.inl ⟨more, ih _ _ success⟩
    · cases success
      exact Or.inr ⟨last, rfl⟩

theorem object_took : TookOut Braces (objectWith descs find field base) := by
  intro rest rest' success
  unfold objectWith at success
  dsimp only at success
  split_ifs at success
  · unfold objectBody at success
    obtain ⟨w, blank, front⟩ := ws_split _
    rcases marked : expect openBrace (ws rest) with _ | inner
    · rw [marked] at success
      cases success
    simp only [marked] at success
    have object : ∃ ms t, Layer Body Deep (.object ms) t ∧ ws rest = t ++ rest' := by
      apply object_step marked
      split_ifs at success with empty
      · cases success
        exact Or.inl ⟨empty, rfl⟩
      · exact Or.inr (members_took _ _ took _ _ _ _ success)
    obtain ⟨ms, t, layer, shape⟩ := object
    exact ⟨w, _, t, blank, ⟨layer, ms, rfl⟩, shape ▸ front⟩

end Objects

theorem fieldAt_took (writer : (d : JsonField) → d ∈ fields → Bytes → Out)
    (took : ∀ d member, TookOut Deep (writer d member)) (i : Nat) : TookOut Deep (fieldAt fields writer i) := by
  intro rest rest' success
  unfold fieldAt at success
  split at success
  · cases success
  · exact took _ _ rest rest' success

theorem table_took (value : (d : JsonField) → d ∈ t.descs → Nat → Bytes → Out)
    (took : ∀ d member start, TookOut Deep (value d member start)) (base : Nat) (size : Int) :
    TookOut Braces (tableObject t value base size) := by
  refine object_took _ _ (fun i => ?_)
  refine fieldAt_took _ (fun d member => ?_) i
  exact field_took _ (took d member) d _ _

theorem union_took (arm : Nat → Bytes → Out) (took : ∀ i, TookOut Deep (arm i))
    : TookOut Deep (unionWith u arm base) := by
  intro rest rest' success
  unfold unionWith at success
  dsimp only at success
  rcases chosen : selectArm u (ws rest) with _ | found
  · rw [chosen] at success
    cases success
  simp only [chosen] at success
  rcases read : (arm found.1 (ws rest)).rest with _ | behind
  · rw [read] at success
    cases success
  rw [read] at success
  cases success
  obtain ⟨w, blank, front⟩ := ws_split _
  obtain ⟨v, j, t, inside, ok, shape⟩ := took found.1 _ _ read
  refine ⟨w ++ v, j, t, ws_join blank inside, ok, ?_⟩
  rw [List.append_assoc, ← shape, ← front]

theorem writeWith_took (inner : (d' : JsonField) → d' ∈ d.children → Nat → Bytes → Out)
    (took : ∀ d' child start, TookOut Deep (inner d' child start)) :
    TookOut Deep (writeWith env d inner start) := by
  intro rest rest' success
  unfold writeWith at success
  by_cases scalars : d.kind = 7
  · split_ifs at success
    · cases success
    · exact ofCells_took _ (scalarArray_took _ (elem_took)) rest rest' success
  rw [if_neg scalars] at success
  by_cases below : d.kind = 4 ∨ d.kind = 5 ∨ d.kind = 6
  · rw [if_pos below] at success
    split at success
    · cases success
    · split_ifs at success
      · exact took_braces (table_took _ (fun d' member => took d' _) _ _ rest rest' success)
      · refine ofCells_took _ (scalarArray_took _ ?_) rest rest' success
        intro rest cells rest' read
        obtain ⟨behind, out, same⟩ := map_eq_some_iff.mp read
        cases same
        exact took_braces (table_took _ (fun d' member => took d' _) _ _ rest _ out)
      · cases success
    · split_ifs at success
      · refine union_took _ (fun i => ?_) rest rest' success
        exact fieldAt_took _ (fun d' member => took d' _ _) i
      · cases success
  · rw [if_neg below] at success
    exact ofCells_took _ (leaf_took _) rest rest' success

theorem writeValue_took (env : Env) (d : JsonField) : ∀ start, TookOut Deep (writeValue env d start) := by
  induction d using field_induction with
  | step d ih =>
    intro start rest rest' success
    rw [writeValue] at success
    exact writeWith_took _ (fun d' child => ih d' child) rest rest' success

end Align.JsonReads
