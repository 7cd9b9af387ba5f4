import Mathlib

/-! Insertion sort in place. The selected item moves left past the items that do not
stand before it, each shifted one place to the right; under a total order the result
is the sorted arrangement of the same items. -/
namespace Align.PositionSort
open List

universe u
variable {α : Type u}

/-- The inner loop: a hole at `j` moves left until `selected` fits. -/
def insertAt (before : α → α → Bool) (selected : α) : Nat → List α → List α
  | 0, items => items.set 0 selected
  | j + 1, items =>
      if before (items.getD j selected) selected then items.set (j + 1) selected
      else insertAt before selected j (items.set (j + 1) (items.getD j selected))

/-- The outer loop from position `next` on. -/
def sortLoop (before : α → α → Bool) : Nat → Nat → List α → List α
  | 0, _, items => items
  | fuel + 1, next, items =>
      match items[next]? with
      | none => items
      | some selected => sortLoop before fuel (next + 1) (insertAt before selected next items)

def sort (before : α → α → Bool) (items : List α) : List α := sortLoop before items.length 1 items

/-- The selected item behind the last one that stands before it. -/
def placed (before : α → α → Bool) (selected : α) (front : List α) : List α :=
  front.rdropWhile (fun item => !before item selected) ++
    selected :: front.rtakeWhile (fun item => !before item selected)

section Insertion
variable (before : α → α → Bool) (selected : α)

theorem insertAt_placed (front : List α) (hole : α) (back : List α) :
    insertAt before selected front.length (front ++ hole :: back) =
      placed before selected front ++ back := by
  induction front using List.reverseRecOn generalizing hole back with
  | nil => rfl
  | append_singleton front last ih =>
    have here : (front ++ [last] ++ hole :: back).getD front.length selected = last := by
      rw [append_assoc, getD_eq_getElem?_getD, getElem?_append_right (Nat.le_refl _), Nat.sub_self]
      rfl
    have put : ∀ item, (front ++ [last] ++ hole :: back).set (front.length + 1) item =
      front ++ last :: item :: back := by
      intro item
      rw [append_assoc, set_append_right _ _ (Nat.le_add_right _ _), Nat.add_sub_cancel_left]
      rfl
    rw [length_append, length_singleton, insertAt, here, put, put, placed, rdropWhile_concat,
      rtakeWhile_concat]
    by_cases stands : before last selected = true
    · rw [if_pos stands, stands, Bool.not_true, if_neg Bool.false_ne_true, if_neg Bool.false_ne_true,
        append_assoc, append_assoc]
      rfl
    · rw [Bool.not_eq_true] at stands
      rw [stands, if_neg Bool.false_ne_true, ih, Bool.not_false, if_pos rfl, if_pos rfl, placed,
        append_assoc, append_assoc, cons_append, cons_append, append_assoc]
      rfl

theorem placed_length (front : List α) :
    (placed before selected front).length = front.length + 1 := by
  have parts := congrArg List.length
    (rdropWhile_append_rtakeWhile (p := fun item => !before item selected) (l := front))
  rw [length_append] at parts
  rw [placed, length_append, length_cons]
  omega

theorem placed_perm (front : List α) : (placed before selected front).Perm (front ++ [selected]) := by
  have parts : front.rdropWhile (fun item => !before item selected) ++
    front.rtakeWhile (fun item => !before item selected) = front :=
    rdropWhile_append_rtakeWhile
  have moved : (placed before selected front).Perm (selected :: front) := by
    rw [placed]
    exact perm_middle.trans (by rw [parts])
  exact moved.trans (perm_append_singleton selected front).symm

end Insertion

section Sorted
variable {before : α → α → Bool} (total : ∀ a b, before a b = true ∨ before b a = true)
  (trans : ∀ a b c, before a b = true → before b c = true → before a c = true)

include total trans in
theorem placed_sorted (selected : α) (sorted : front.Pairwise (before · · = true)) :
    (placed before selected front).Pairwise (before · · = true) := by
  have parts : front.rdropWhile (fun item => !before item selected) ++
    front.rtakeWhile (fun item => !before item selected) = front :=
    rdropWhile_append_rtakeWhile
  rw [← parts, pairwise_append] at sorted
  rcases sorted with ⟨left, right, across⟩
  -- What was shifted stands behind the selected item.
  have behind : ∀ item ∈ front.rtakeWhile (fun item => !before item selected),
    before selected item = true := by
    intro item mem
    have not_ := mem_rtakeWhile_imp mem
    rw [Bool.not_eq_true'] at not_
    rcases total selected item with stands | stands
    · exact stands
    · rw [not_] at stands
      cases stands
  -- What stayed ends in an item before it, and the rest stands before that one.
  have ahead : ∀ item ∈ front.rdropWhile (fun item => !before item selected),
    before item selected = true := by
    intro item mem
    have some_ : front.rdropWhile (fun item => !before item selected) ≠ [] := ne_nil_of_mem mem
    have last := rdropWhile_last_not _ _ some_
    rw [Bool.not_eq_true', Bool.not_eq_false] at last
    rw [← dropLast_append_getLast some_] at mem left
    rcases mem_append.mp mem with earlier | same
    · have order := (pairwise_append.mp left).2.2 item earlier _ (mem_singleton_self _)
      exact trans _ _ _ order last
    · rw [mem_singleton.mp same]
      exact last
  rw [placed, pairwise_append, pairwise_cons]
  refine ⟨left, ⟨behind, right⟩, ?_⟩
  intro item mem other there
  rcases mem_cons.mp there with rfl | there
  · exact ahead item mem
  · exact across item mem other there

include total trans in
theorem sortLoop_sorted (front back : List α) (enough : back.length ≤ fuel)
    (sorted : front.Pairwise (before · · = true)) :
    (sortLoop before fuel front.length (front ++ back)).Perm (front ++ back) ∧
      (sortLoop before fuel front.length (front ++ back)).Pairwise (before · · = true) := by
  induction fuel generalizing front back with
  | zero =>
    have none_ : back = [] := eq_nil_of_length_eq_zero (Nat.le_zero.mp enough)
    rw [none_, append_nil]
    exact ⟨List.Perm.refl _, sorted⟩
  | succ fuel ih =>
    cases back with
    | nil =>
      have past : (front ++ [])[front.length]? = none := by
        rw [append_nil]
        exact getElem?_eq_none (Nat.le_refl _)
      rw [sortLoop, past]
      rw [append_nil]
      exact ⟨List.Perm.refl _, sorted⟩
    | cons selected back =>
      have here : (front ++ selected :: back)[front.length]? = some selected := by
        rw [getElem?_append_right (Nat.le_refl _), Nat.sub_self]
        rfl
      rw [length_cons] at enough
      have turn := ih (placed before selected front) back (by omega)
        (placed_sorted total trans _ sorted)
      rw [placed_length] at turn
      rw [sortLoop, here]
      dsimp only
      rw [insertAt_placed]
      refine ⟨turn.1.trans ?_, turn.2⟩
      have moved := (placed_perm before selected front).append_right back
      rw [append_assoc] at moved
      exact moved

include total trans in
theorem sort_sorted (items : List α) :
    (sort before items).Perm items ∧ (sort before items).Pairwise (before · · = true) := by
  cases items with
  | nil => exact ⟨List.Perm.refl _, List.Pairwise.nil⟩
  | cons first rest =>
    have turns := sortLoop_sorted total trans [first] rest (Nat.le_succ _) (pairwise_singleton _ _)
    exact turns

end Sorted

end Align.PositionSort
