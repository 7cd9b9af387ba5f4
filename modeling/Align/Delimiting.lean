import Mathlib

/-! Texts put together from parts and delimiters. A part that is free of what may
stand behind it can be read back, so joined parts and blocks of `name : value` lines
determine what they were made of. -/
namespace Align.Delimiting
open List

universe u
variable {α : Type u}

/-- The tail is empty or starts with a stop. -/
def Ends (stop : α → Prop) (tail : List α) : Prop := ∀ item, tail.head? = some item → stop item

theorem ends_cons (tail : List α) (here : stop item) :
    Ends stop (item :: tail) := by
  intro first same
  cases same
  exact here

theorem ends_nil (stop : α → Prop) : Ends stop [] := nofun

theorem part_unique {stop : α → Prop} {first second : List α} {rest other : List α}
    (free : ∀ item ∈ first, ¬ stop item) (free' : ∀ item ∈ second, ¬ stop item) (ends : Ends stop rest)
    (ends' : Ends stop other) (same : first ++ rest = second ++ other) : first = second ∧ rest = other := by
  induction first generalizing second with
  | nil =>
    cases second with
    | nil => exact ⟨rfl, same⟩
    | cons item second =>
      rw [nil_append] at same
      rw [same] at ends
      exact absurd (ends item rfl) (free' item mem_cons_self)
  | cons item first ih =>
    cases second with
    | nil =>
      rw [nil_append] at same
      rw [← same] at ends'
      exact absurd (ends' item rfl) (free item mem_cons_self)
    | cons item' second =>
      rw [cons_append, cons_append, List.cons.injEq] at same
      rcases ih (forall_mem_cons.mp free).2 (forall_mem_cons.mp free').2 same.2 with ⟨rfl, rfl⟩
      exact ⟨by rw [same.1], rfl⟩

theorem before_unique (free : mark ∉ first)
    (free' : mark ∉ second) (same : first ++ mark :: rest = second ++ mark :: other) :
    first = second ∧ rest = other := by
  have parts := @part_unique _ (· = mark) _ _ _ _ (fun item mem is => free (is ▸ mem))
    (fun item mem is => free' (is ▸ mem)) (ends_cons _ rfl) (ends_cons _ rfl) same
  exact ⟨parts.1, (List.cons.inj parts.2).2⟩

/-- Parts with a delimiter between them. -/
def joined (mark : α) : List (List α) → List α
  | [] => []
  | part :: parts => part ++ parts.flatMap (mark :: ·)

theorem intercalate_eq_joined (mark : α) (parts : List (List α)) :
    [mark].intercalate parts = joined mark parts := by
  rcases parts with _ | ⟨part, parts⟩
  · rfl
  induction parts generalizing part with
  | nil => simp [joined]
  | cons next parts ih =>
    rw [intercalate_cons_cons, ih, joined, joined, flatMap_cons, append_assoc, singleton_append, cons_append]

theorem ends_marks (mark : α) (parts : List (List α)) : Ends (· = mark) (parts.flatMap (mark :: ·)) := by
  cases parts with
  | nil => exact ends_nil _
  | cons part parts => exact ends_cons _ rfl

theorem marks_unique {parts others : List (List α)} (free : ∀ part ∈ parts, mark ∉ part)
    (free' : ∀ part ∈ others, mark ∉ part)
    (same : parts.flatMap (mark :: ·) = others.flatMap (mark :: ·)) : parts = others := by
  induction parts generalizing others with
  | nil =>
    cases others with
    | nil => rfl
    | cons other others => cases same
  | cons part parts ih =>
    cases others with
    | nil => cases same
    | cons other others =>
      rw [flatMap_cons, flatMap_cons, cons_append, cons_append, List.cons.injEq] at same
      have cut := @part_unique _ (· = mark) _ _ _ _ (fun item mem is => free part mem_cons_self (is ▸ mem))
        (fun item mem is => free' other mem_cons_self (is ▸ mem))
        (ends_marks _ _) (ends_marks _ _) same.2
      rw [cut.1, ih (forall_mem_cons.mp free).2 (forall_mem_cons.mp free').2 cut.2]

theorem joined_unique {parts others : List (List α)}
    (free : ∀ part ∈ parts, mark ∉ part ∧ part ≠ []) (free' : ∀ part ∈ others, mark ∉ part ∧ part ≠ [])
    (same : joined mark parts = joined mark others) : parts = others := by
  cases parts with
  | nil =>
    cases others with
    | nil => rfl
    | cons other others =>
      exact absurd (append_eq_nil_iff.mp same.symm).1 (free' other mem_cons_self).2
  | cons part parts =>
    cases others with
    | nil => exact absurd (append_eq_nil_iff.mp same).1 (free part mem_cons_self).2
    | cons other others =>
      have cut := @part_unique _ (· = mark) _ _ _ _
        (fun item mem is => (free part mem_cons_self).1 (is ▸ mem))
        (fun item mem is => (free' other mem_cons_self).1 (is ▸ mem))
        (ends_marks _ _) (ends_marks _ _) same
      rw [cut.1, marks_unique (fun part mem => (free part (mem_cons_of_mem _ mem)).1)
        (fun part mem => (free' part (mem_cons_of_mem _ mem)).1) cut.2]

theorem mem_joined (inside : item ∈ joined mark parts) :
    item = mark ∨ ∃ part ∈ parts, item ∈ part := by
  cases parts with
  | nil => cases inside
  | cons part parts =>
    rcases mem_append.mp inside with here | later
    · exact Or.inr ⟨part, mem_cons_self, here⟩
    · rcases mem_flatMap.mp later with ⟨other, mem, here⟩
      rcases mem_cons.mp here with rfl | here
      · exact Or.inl rfl
      · exact Or.inr ⟨other, mem_cons_of_mem _ mem, here⟩

theorem pairs_unique {mark : α} {pairs others : List (List α × List α)} (free : ∀ pair ∈ pairs, mark ∉ pair.1)
    (free' : ∀ pair ∈ others, mark ∉ pair.1)
    (same : pairs.map (fun pair => pair.1 ++ mark :: pair.2) = others.map (fun pair => pair.1 ++ mark :: pair.2)) :
    pairs = others := by
  induction pairs generalizing others with
  | nil =>
    cases others with
    | nil => rfl
    | cons other others => cases same
  | cons pair pairs ih =>
    cases others with
    | nil => cases same
    | cons other others =>
      rw [map_cons, map_cons, List.cons.injEq] at same
      have halves := before_unique (free pair mem_cons_self) (free' other mem_cons_self) same.1
      rw [Prod.ext halves.1 halves.2, ih (forall_mem_cons.mp free).2 (forall_mem_cons.mp free').2 same.2]

/-- The texts of the fields that are present, each behind its tag. -/
def tagged (fields : List (List α × Option (List α))) : List (List α) :=
  fields.filterMap fun field => field.2.map (field.1 ++ ·)

theorem tagged_unique {fields others : List (List α × Option (List α))}
    (tags : fields.map Prod.fst = others.map Prod.fst)
    (apart : (fields.map Prod.fst).Pairwise fun tag other => ¬ tag <+: other ∧ ¬ other <+: tag)
    (same : tagged fields = tagged others) : fields = others := by
  -- A text behind one tag is never among those behind the later tags.
  have absent : ∀ (tag text : List α) (rest : List (List α × Option (List α))),
      (∀ other ∈ rest.map Prod.fst, ¬ tag <+: other ∧ ¬ other <+: tag) → tag ++ text ∉ tagged rest := by
    intro tag text rest differ inside
    rcases mem_filterMap.mp inside with ⟨⟨other, value⟩, mem, here⟩
    rcases Option.map_eq_some_iff.mp here with ⟨text', -, equal⟩
    have differs := differ other (List.mem_map_of_mem mem)
    have nested := prefix_or_prefix_of_prefix (prefix_append tag text) ⟨text', equal⟩
    exact nested.elim differs.1 differs.2
  induction fields generalizing others with
  | nil => exact (map_eq_nil_iff.mp tags.symm).symm
  | cons field fields ih =>
    rcases others with _ | ⟨other, others⟩
    · cases tags
    rcases field with ⟨tag, value⟩
    rcases other with ⟨tag', value'⟩
    rcases List.cons.inj tags with ⟨rfl, rest⟩
    have first := pairwise_cons.mp apart
    have first' := first.1
    rw [rest] at first'
    cases value with
    | none =>
      cases value' with
      | none => rw [ih rest first.2 same]
      | some text =>
        have mem : tag ++ text ∈ tagged fields := same ▸ mem_cons_self
        exact absurd mem (absent tag text fields first.1)
    | some text =>
      cases value' with
      | none =>
        have mem : tag ++ text ∈ tagged others := same ▸ mem_cons_self
        exact absurd mem (absent tag text others first')
      | some text' =>
        have both := List.cons.inj same
        rw [append_cancel_left both.1, ih rest first.2 both.2]

/-- One line per field, the block closed by an empty line. -/
def block (mark stop : α) (fields : List (List α × List α)) : List α :=
  fields.flatMap fun field => field.1 ++ mark :: (field.2 ++ [stop])

/-- A field that can be read back from its line. -/
structure LineField (mark stop : α) (field : List α × List α) : Prop where
  named : field.1 ≠ []
  noMark : mark ∉ field.1
  noStop : stop ∉ field.1
  value : stop ∉ field.2

theorem block_unique {mark stop : α} {fields others : List (List α × List α)} {rest other : List α}
    (clean : ∀ field ∈ fields, LineField mark stop field) (clean' : ∀ field ∈ others, LineField mark stop field)
    (same : block mark stop fields ++ stop :: rest = block mark stop others ++ stop :: other) :
    fields = others ∧ rest = other := by
  -- A line starts with its name, so the stop alone ends the block.
  have starts : ∀ (field : List α × List α) (tail text : List α), LineField mark stop field →
    field.1 ++ tail ≠ stop :: text := by
    intro field tail text line same
    cases named : field.1 with
    | nil => exact line.named named
    | cons item name =>
      rw [named] at same
      have first : item = stop := (List.cons.inj same).1
      exact line.noStop (by rw [named, first]; exact mem_cons_self)
  induction fields generalizing others with
  | nil =>
    cases others with
    | nil => exact ⟨rfl, (List.cons.inj same).2⟩
    | cons field others =>
      rw [block, block, flatMap_nil, flatMap_cons, nil_append, append_assoc, append_assoc] at same
      exact absurd same.symm (starts field _ _ (clean' field mem_cons_self))
  | cons field fields ih =>
    cases others with
    | nil =>
      rw [block, block, flatMap_nil, flatMap_cons, nil_append, append_assoc, append_assoc] at same
      exact absurd same (starts field _ _ (clean field mem_cons_self))
    | cons field' others =>
      have line := clean field mem_cons_self
      have line' := clean' field' mem_cons_self
      rw [block, block, flatMap_cons, flatMap_cons] at same
      simp only [append_assoc, cons_append, nil_append] at same
      have names := before_unique line.noMark line'.noMark same
      have values := before_unique line.value line'.value names.2
      rcases ih (forall_mem_cons.mp clean).2 (forall_mem_cons.mp clean').2 values.2 with ⟨rfl, rfl⟩
      exact ⟨by rw [Prod.ext names.1 values.1], rfl⟩

end Align.Delimiting
