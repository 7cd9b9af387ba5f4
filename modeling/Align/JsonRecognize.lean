import Align.JsonRecords
import Align.Utf8

/-! The record-array recogniser against the grammar. Its loop over an explicit
stack ends because each turn consumes input, and it accepts exactly the arrays
whose elements are objects. Two things are deliberately not the RFC's: a string
must spell Unicode text, so surrogate escapes come in pairs, and bytes above
ASCII are not looked at, because the decoders validate the whole input first. -/
namespace Align.JsonRecognize
open JsonText JsonParser JsonSkip JsonRecords List

theorem peek_consumes (head : peek rest = some b) :
    rest.tail.length < rest.length := by
  rw [peek_some head]
  simp

theorem skipString_consumes (found : skipString rest = some rest') :
    rest'.length < rest.length := by
  obtain ⟨raw, _, _, shape⟩ := skipString_sound found
  rw [shape]
  simp [quoted]
  omega

variable {below stack : List GrammarState}

theorem beginValue_consumes
    (begun : beginValue below rest = some (stack, rest')) : rest'.length < rest.length := by
  rcases beginValue_cases begun with ⟨rfl, _⟩ | ⟨rfl, _⟩ | ⟨_, j, t, scalar, rfl⟩
  · simp
  · simp
  · have long := heads_length deep_head ⟨0, .scalar j t scalar⟩
    rw [length_append]
    omega

theorem countStep_consumes (step : countStep state below rows rest = some (stack, rows', rest')) :
    rest'.length < rest.length := by
  have value : ∀ (top : GrammarState) (n : Nat),
    ((beginValue (top :: below) rest).map fun begun => (begun.1, n, begun.2)) =
      some (stack, rows', rest') → rest'.length < rest.length := by
    intro top n found
    obtain ⟨⟨_, _⟩, begun, same⟩ := Option.map_eq_some_iff.mp found
    cases same
    exact beginValue_consumes begun
  cases state with
  | arrayValue empty =>
    simp only [countStep] at step
    split_ifs at step with closed
    · cases step
      exact peek_consumes closed.2
    · exact value _ _ step
    · exact value _ _ step
  | arrayDelimiter =>
    simp only [countStep] at step
    split_ifs at step with more closed
    · cases step
      exact peek_consumes more
    · cases step
      exact peek_consumes closed
  | objectKey empty =>
    simp only [countStep] at step
    split_ifs at step with closed
    · cases step
      exact peek_consumes closed.2
    · obtain ⟨_, found, same⟩ := Option.map_eq_some_iff.mp step
      cases same
      exact skipString_consumes found
  | objectColon =>
    obtain ⟨_, found, same⟩ := Option.map_eq_some_iff.mp step
    cases same
    rw [expect_some found]
    simp
  | objectValue =>
    simp only [countStep] at step
    split_ifs at step
    · exact value _ _ step
    · exact value _ _ step
  | objectDelimiter =>
    simp only [countStep] at step
    split_ifs at step with more closed
    · cases step
      exact peek_consumes more
    · cases step
      exact peek_consumes closed

theorem ws_length (rest : Bytes) : (ws rest).length ≤ rest.length := by
  obtain ⟨w, _, split⟩ := ws_split rest
  have size := congrArg List.length split
  rw [length_append] at size
  omega

theorem countLoop_spent (fuel : Nat) (state : GrammarState) (below : List GrammarState) (rows : Nat) :
    countLoop fuel (state :: below) rows [] = none := by
  cases fuel with
  | zero => rfl
  | succ fuel =>
    rw [countLoop, Option.bind_eq_none_iff]
    rintro ⟨stack, rows', rest'⟩ step
    exact absurd (countStep_consumes step) (Nat.not_lt_zero _)

/-- The loop ends by itself: with as many turns as there are bytes left it has
its result, and further turns change nothing. -/
theorem countLoop_ends (fuel' : Nat) (stack : List GrammarState) (rows : Nat) (rest : Bytes)
    (enough : rest.length ≤ fuel) (enough' : rest.length ≤ fuel') :
    countLoop fuel stack rows rest = countLoop fuel' stack rows rest := by
  induction fuel generalizing fuel' stack rows rest with
  | zero =>
    have spent := length_eq_zero_iff.mp (Nat.le_zero.mp enough)
    subst spent
    cases stack with
    | nil => cases fuel' <;> rfl
    | cons state below => rw [countLoop_spent, countLoop_spent]
  | succ fuel ih =>
    cases stack with
    | nil => cases fuel' <;> rfl
    | cons state below =>
      cases fuel' with
      | zero =>
        have spent := length_eq_zero_iff.mp (Nat.le_zero.mp enough')
        subst spent
        rw [countLoop_spent, countLoop_spent]
      | succ fuel' =>
        rw [countLoop, countLoop]
        apply Option.bind_congr
        rintro ⟨stack, rows', rest'⟩ step
        have consumed := countStep_consumes step
        have trimmed := ws_length rest
        exact ih fuel' stack rows' rest' (by omega) (by omega)

def IsObject {σ : Type} (j : Json σ) : Prop := ∃ ms, j = .object ms

theorem elements_rows (items : Elements Deep js body)
    (objects : ∀ j ∈ js, IsObject j) : Elements Row js body := by
  induction items with
  | last w t w' j before value after =>
    exact .last w t w' j before ⟨value, objects j mem_cons_self⟩ after
  | more w t w' body j js before value after _ ih =>
    exact .more w t w' body j js before ⟨value, objects j mem_cons_self⟩ after
      (ih fun k member => objects k (mem_cons_of_mem j member))

theorem rows_elements (filled : rs ≠ []) :
    ∃ js, js.length = rs.length ∧ (∀ j ∈ js, IsObject j) ∧ Elements Deep js (spellRecords rs) := by
  induction rs with
  | nil => contradiction
  | cons r rs ih =>
    obtain ⟨j, deep, object⟩ := spelled_record r
    by_cases last : rs = []
    · subst last
      exact ⟨[j], rfl, by simpa [IsObject] using object,
        .last r.before r.text r.after j r.beforeBlank deep r.afterBlank⟩
    obtain ⟨js, size, objects, items⟩ := ih last
    refine ⟨j :: js, by simp [size], ?_, ?_⟩
    · rintro k (_ | ⟨_, later⟩)
      · exact object
      · exact objects k later
    · have more := Elements.more r.before r.text r.after _ j js r.beforeBlank deep r.afterBlank items
      rw [spellRecords_cons r last]
      simpa [Record.spell] using more

/-- One JSON array, white space around it, whose elements are `n` objects; `Str`
says what a string may be. -/
def RecordText {σ : Type} (Str : Bytes → σ → Prop) (n : Nat) (src : Bytes) : Prop :=
  ∃ js : List (Json σ), js.length = n ∧ (∀ j ∈ js, IsObject j) ∧
    ∃ depth, Text Str depth (.array js) src

theorem spelled_recordText (a : RecordArray) : RecordText Body a.records.length a.spell := by
  by_cases none : a.records = []
  · refine ⟨[], by simp [none], by simp, 0, a.before, _, a.after, a.beforeBlank,
      .emptyArray a.blank a.blankBlank, a.afterBlank, ?_⟩
    simp [RecordArray.spell, RecordArray.body, none]
  · obtain ⟨js, size, objects, items⟩ := rows_elements none
    obtain ⟨depth, ok⟩ := deep_layer (.array js _ items)
    refine ⟨js, size, objects, depth, a.before, _, a.after, a.beforeBlank, ok, a.afterBlank, ?_⟩
    simp [RecordArray.spell, RecordArray.body, none]

theorem recordText_spelled (text : RecordText Body n src) :
    ∃ a : RecordArray, a.spell = src ∧ a.records.length = n := by
  obtain ⟨js, rfl, objects, depth, w, v, w', before, ok, after, rfl⟩ := text
  cases layer_deep ⟨depth, ok⟩ with
  | scalar _ _ scalar => cases scalar
  | emptyArray blank inside =>
    refine ⟨⟨w, blank, [], w', before, inside, after⟩, ?_, rfl⟩
    simp [RecordArray.spell, RecordArray.body]
  | array _ body items =>
    obtain ⟨rs, filled, spelled, size⟩ := elements_spelled (elements_rows items objects)
    refine ⟨⟨w, [], rs, w', before, ws_nil, after⟩, ?_, size⟩
    simp [RecordArray.spell, RecordArray.body, filled, spelled]

/-- One turn of the loop: the stack, the rows counted and the cursor. -/
def Turn (before after : List GrammarState × Nat × Bytes) : Prop :=
  ∃ state below, before.1 = state :: below ∧
    countStep state below before.2.1 (ws before.2.2) = some after

theorem turn_wellFounded : WellFounded fun after before => Turn before after := by
  apply Subrelation.wf (r := InvImage (· < ·) fun config => config.2.2.length)
  · rintro ⟨stack, rows, rest⟩ ⟨stack', rows', rest'⟩ ⟨state, below, _, step⟩
    exact Nat.lt_of_lt_of_le (countStep_consumes step) (ws_length _)
  · exact InvImage.wf _ Nat.lt_wfRel.wf

/-- The recogniser accepts exactly the arrays of objects and counts them, at any
nesting. Its loop has no infinite run, and as many turns as there are bytes are
enough for its result. -/
theorem recogniser_exact (src : Bytes) :
    (∀ n, jsonRecordArrayCount src = some n ↔ RecordText Body n src) ∧
      (WellFounded fun after before => Turn before after) ∧
      ∀ (stack : List GrammarState) (rows turns : Nat), src.length ≤ turns →
        countLoop turns stack rows src = countLoop src.length stack rows src := by
  refine ⟨fun n => ⟨fun counted => ?_, fun text => ?_⟩, turn_wellFounded, ?_⟩
  · obtain ⟨a, rfl, rfl⟩ := count_sound counted
    exact spelled_recordText a
  · obtain ⟨a, rfl, rfl⟩ := recordText_spelled text
    exact count_complete a
  · intro stack rows turns enough
    exact countLoop_ends src.length stack rows src enough (Nat.le_refl _)

/-- `[{"\ud800":0}]` is an array of one object in the RFC's grammar and is
refused; `[{"` `FF` `":0}]` is not UTF-8 and is counted. -/
theorem rfc_reading_of_records_fails :
    (RecordText (fun raw (_ : Bytes) => RfcBody raw) 1
        [0x5B, 0x7B, 0x22, 0x5C, 0x75, 0x64, 0x38, 0x30, 0x30, 0x22, 0x3A, 0x30, 0x7D, 0x5D] ∧
      jsonRecordArrayCount
        [0x5B, 0x7B, 0x22, 0x5C, 0x75, 0x64, 0x38, 0x30, 0x30, 0x22, 0x3A, 0x30, 0x7D, 0x5D] = none) ∧
    (¬ ([0x5B, 0x7B, 0x22, 0xFF, 0x22, 0x3A, 0x30, 0x7D, 0x5D] : Bytes).toByteArray.IsValidUTF8 ∧
      jsonRecordArrayCount [0x5B, 0x7B, 0x22, 0xFF, 0x22, 0x3A, 0x30, 0x7D, 0x5D] = some 1) := by
  refine ⟨⟨?_, by decide⟩, ?_, by decide⟩
  · have zero : Number [0x30] :=
      ⟨[], [0x30], [], [], Or.inl rfl, ⟨⟨by simp, by simp; decide⟩, by simp⟩, Or.inl rfl, Or.inl rfl, rfl⟩
    have name : RfcBody [0x5C, 0x75, 0x64, 0x38, 0x30, 0x30] :=
      .unit 0x64 0x38 0x30 0x30 0xD800 [] (by decide) .nil
    have members : Members (fun raw (_ : Bytes) => RfcBody raw) (Value (fun raw (_ : Bytes) => RfcBody raw) 0)
      [([], .number [0x30])] _ :=
      .last [] _ [] [] _ [] [] _ ws_nil name ws_nil ws_nil (.scalar _ _ (.number _ zero)) ws_nil
    have rows := Elements.last (P := Value (fun raw (_ : Bytes) => RfcBody raw) 1) [] _ [] _ ws_nil
      (.object _ _ members) ws_nil
    refine ⟨_, rfl, ?_, 2, [], _, [], ws_nil, .array _ _ rows, ws_nil, rfl⟩
    intro j member
    exact ⟨_, mem_singleton.mp member⟩
  · rw [← Utf8.run_valid]
    decide

end Align.JsonRecognize
