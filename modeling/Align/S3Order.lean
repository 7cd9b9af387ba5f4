import Align.S3Signing

/-! The order of the signed fields. Comparing bytes and then lengths is a total order
on texts, so sorting positions by names and values gives one arrangement for each
multiset of fields; and the query text can be read back into that arrangement. -/
namespace Align.S3
open Http (ascii)
open Delimiting List

theorem compare_spec (right : Bytes) :
    (compare left right < 0 ↔ left.map UInt8.toNat < right.map UInt8.toNat) ∧
      (compare left right = 0 ↔ left = right) := by
  induction left generalizing right with
  | nil =>
    cases right with
    | nil => simp only [compare, map_nil, lt_self_iff_false, and_self]
    | cons b right => exact ⟨⟨fun _ => nil_lt_cons _ _, fun _ => Int.negSucc_lt_zero 0⟩, nofun, nofun⟩
  | cons a left ih =>
    cases right with
    | nil => exact ⟨⟨nofun, fun less => absurd less (not_lt_nil _)⟩, nofun, nofun⟩
    | cons b right =>
      rw [compare, map_cons, map_cons, cons_lt_cons_iff, List.cons.injEq, ← UInt8.lt_iff_toNat_lt,
        UInt8.toNat_inj]
      by_cases less : a < b
      · have apart : a ≠ b := UInt8.ne_of_lt less
        simp only [less, apart, if_true, false_and, or_false, iff_true, iff_false]
        decide
      by_cases more : a > b
      · have apart : a ≠ b := (UInt8.ne_of_lt more).symm
        simp only [less, more, apart, if_true, if_false, false_and, or_false, iff_false]
        decide
      · have same : a = b := UInt8.le_antisymm (UInt8.not_lt.mp more) (UInt8.not_lt.mp less)
        rw [if_neg less, if_neg more, or_iff_right less, and_iff_right same, and_iff_right same]
        exact ih right

/-- Where a field stands: by its name, then by its value. -/
def rank (field : Bytes × Bytes) : List Nat ×ₗ List Nat :=
  toLex (field.1.map UInt8.toNat, field.2.map UInt8.toNat)

theorem rank_injective : Function.Injective rank := by
  have bytes : Function.Injective (List.map UInt8.toNat) :=
    map_injective_iff.mpr fun _ _ => UInt8.toNat_inj.mp
  intro p q same
  have halves := Prod.mk.inj (toLex.injective same)
  exact Prod.ext (bytes halves.1) (bytes halves.2)

theorem inOrder_iff (p q : Bytes × Bytes) : inOrder p q = true ↔ rank p ≤ rank q := by
  have bytes : Function.Injective (List.map UInt8.toNat) :=
    map_injective_iff.mpr fun _ _ => UInt8.toNat_inj.mp
  rw [inOrder, Bool.or_eq_true, Bool.and_eq_true, decide_eq_true_iff, decide_eq_true_iff, beq_iff_eq,
    Int.le_iff_lt_or_eq, (compare_spec _).1, (compare_spec _).2, (compare_spec _).1, (compare_spec _).2,
    rank, rank, Prod.Lex.toLex_le_toLex, le_iff_lt_or_eq, bytes.eq_iff, bytes.eq_iff]

theorem ordered_sorted :
    (ordered fields).Perm fields ∧ (ordered fields).Pairwise (inOrder · · = true) := by
  have sorted := @PositionSort.sort_sorted _
    (fun p q => inOrder (fields.getD p ([], [])) (fields.getD q ([], [])))
    (fun p q => by rw [inOrder_iff, inOrder_iff]; exact le_total _ _)
    (fun p q r => by rw [inOrder_iff, inOrder_iff, inOrder_iff]; exact le_trans) (List.range fields.length)
  constructor
  · have moved := sorted.1.map fun index => fields.getD index ([], [])
    have whole : (List.range fields.length).map (fun index => fields.getD index ([], [])) = fields := by
      apply ext_getElem
      · rw [length_map, length_range]
      · intro i _ inside
        rw [getElem_map, getElem_range, getD_eq_getElem _ _ inside]
    rw [whole] at moved
    exact moved
  · exact pairwise_map.mpr sorted.2

/-- The arrangement depends on the multiset of fields alone, and determines it. -/
theorem ordered_eq_iff (fields others : List (Bytes × Bytes)) :
    ordered fields = ordered others ↔ fields.Perm others := by
  constructor
  · intro same
    exact (ordered_sorted).1.symm.trans (same ▸ (ordered_sorted).1)
  · intro moved
    refine List.Perm.eq_of_pairwise (fun p q _ _ first second => ?_) (ordered_sorted).2
      (ordered_sorted).2 (((ordered_sorted).1.trans moved).trans (ordered_sorted).1.symm)
    exact rank_injective (le_antisymm ((inOrder_iff p q).mp first) ((inOrder_iff q p).mp second))

theorem mem_ordered :
    field ∈ ordered fields ↔ field ∈ fields := (ordered_sorted).1.mem_iff

def Encoded (slash : Bool) (b : UInt8) : Prop := UrlEscape.isUnreserved b = true ∨ b = 37 ∨ (slash = true ∧ b = 47)

theorem percentPiece_encoded : ∀ x ∈ UrlEscape.percentPiece slash b, Encoded slash x := by
  have symbols : ∀ i, i < 16 → Encoded slash (UrlEscape.upperHex.getD i 0) := by
    intro i inside
    have all : UrlEscape.upperHex.all UrlEscape.isUnreserved = true := by decide
    have there : i < UrlEscape.upperHex.length := inside
    rw [getD_eq_getElem _ _ there]
    exact Or.inl (all_eq_true.mp all _ (getElem_mem there))
  intro x mem
  rw [UrlEscape.percentPiece] at mem
  split at mem
  case isTrue plain =>
    rw [mem_singleton] at mem
    subst mem
    rcases Bool.or_eq_true_iff.mp plain with unreserved | kept
    · exact Or.inl unreserved
    · exact Or.inr (Or.inr ⟨(Bool.and_eq_true_iff.mp kept).1, eq_of_beq (Bool.and_eq_true_iff.mp kept).2⟩)
  case isFalse _ =>
    have nibbles := Hex.nibble_values b
    rw [UrlEscape.escapeTriple, mem_cons, mem_cons, mem_singleton] at mem
    rcases mem with rfl | rfl | rfl
    · exact Or.inr (Or.inl rfl)
    · exact symbols _ (by omega)
    · exact symbols _ (by omega)

theorem encoded_apart (here : Encoded slash b) :
    b ≠ 38 ∧ b ≠ 61 ∧ b ≠ 10 ∧ b < 128 := by
  refine ⟨?_, ?_, ?_, ?_⟩
  iterate 3
    rintro rfl
    rcases here with plain | escape | ⟨_, kept⟩
    · exact absurd plain (by decide)
    · exact absurd escape (by decide)
    · exact absurd kept (by decide)
  rcases here with plain | rfl | ⟨_, rfl⟩
  · simp only [UrlEscape.isUnreserved, Bool.or_eq_true, Bool.and_eq_true, decide_eq_true_iff, beq_iff_eq,
      UInt8.le_iff_toNat_le, UInt8.lt_iff_toNat_lt, ← UInt8.toNat_inj] at plain ⊢
    grind
  · decide
  · decide

theorem percentEncode_encoded : ∀ b ∈ percentEncode text, Encoded false b := by
  intro b mem
  rcases mem_flatMap.mp mem with ⟨x, _, piece⟩
  exact percentPiece_encoded b piece

theorem percentEncodePath_encoded : ∀ b ∈ percentEncodePath text, Encoded true b := by
  intro b mem
  rcases mem_flatMap.mp mem with ⟨x, _, piece⟩
  exact percentPiece_encoded b piece

theorem decode_percentEncode (text : Bytes) : UrlEscape.decodeBytes false (percentEncode text) = some text :=
  UrlEscape.decode_pieces _ (UrlEscape.decode_percentPiece _) _

theorem percentEncode_injective : Function.Injective percentEncode := by
  intro a b same
  have read := decode_percentEncode a
  rw [same, decode_percentEncode] at read
  exact (Option.some.inj read).symm

theorem percentEncodePath_injective : Function.Injective percentEncodePath := by
  intro a b same
  have decoded : ∀ text, UrlEscape.decodeBytes false (percentEncodePath text) = some text :=
    UrlEscape.decode_pieces _ (UrlEscape.decode_percentPiece _)
  have read := decoded a
  rw [same, decoded] at read
  exact (Option.some.inj read).symm

theorem encodedField_injective : Function.Injective encodedField := by
  rintro ⟨name, value⟩ ⟨name', value'⟩ same
  rw [encodedField, encodedField, Prod.mk.injEq] at same
  have names : name = name' := percentEncode_injective same.1
  have values : value = value' := percentEncode_injective same.2
  rw [names, values]

/-- A pair that the query text separates from its neighbours. -/
structure QueryField (field : Bytes × Bytes) : Prop where
  name : ∀ b ∈ field.1, b ≠ 38 ∧ b ≠ 61 ∧ b ≠ 10 ∧ b < 128
  value : ∀ b ∈ field.2, b ≠ 38 ∧ b ≠ 10 ∧ b < 128

theorem encoded_value : ∀ b ∈ percentEncode text, b ≠ 38 ∧ b ≠ 10 ∧ b < 128 := by
  intro b mem
  have apart := encoded_apart (percentEncode_encoded b mem)
  exact ⟨apart.1, apart.2.2⟩

theorem encodedField_query : QueryField (encodedField field) :=
  ⟨fun b mem => encoded_apart (percentEncode_encoded b mem), encoded_value⟩

theorem encodedQuery_eq_iff (clean : ∀ field ∈ fields, QueryField field)
    (clean' : ∀ field ∈ others, QueryField field) :
    encodedQuery fields = encodedQuery others ↔ fields.Perm others := by
  rw [← ordered_eq_iff]
  constructor
  · intro same
    have parts : ∀ {fields : List (Bytes × Bytes)}, (∀ field ∈ fields, QueryField field) →
      ∀ part ∈ (ordered fields).map (fun field => field.1 ++ 61 :: field.2), 38 ∉ part ∧ part ≠ [] := by
      intro fields clean part mem
      rcases mem_map.mp mem with ⟨field, inside, rfl⟩
      have here := clean field (mem_ordered.mp inside)
      constructor
      · rw [mem_append, mem_cons]
        rintro (bad | bad | bad)
        · exact (here.name _ bad).1 rfl
        · exact absurd bad (by decide)
        · exact (here.value _ bad).1 rfl
      · exact fun empty => absurd (append_eq_nil_iff.mp empty).2 (cons_ne_nil _ _)
    refine pairs_unique (fun field mem bad => ?_) (fun field mem bad => ?_)
      (joined_unique (parts clean) (parts clean') same)
    · exact ((clean field (mem_ordered.mp mem)).name _ bad).2.1 rfl
    · exact ((clean' field (mem_ordered.mp mem)).name _ bad).2.1 rfl
  · intro same
    rw [encodedQuery, encodedQuery, same]

theorem encodedQuery_bytes (clean : ∀ field ∈ fields, QueryField field) :
    ∀ b ∈ encodedQuery fields, b ≠ 10 ∧ b < 128 := by
  intro b mem
  rcases mem_joined mem with rfl | ⟨part, inside, mem⟩
  · decide
  rcases mem_map.mp inside with ⟨field, there, rfl⟩
  have here := clean field (mem_ordered.mp there)
  rw [mem_append, mem_cons] at mem
  rcases mem with name | rfl | value
  · exact (here.name b name).2.2
  · decide
  · exact (here.value b value).2

end Align.S3
