import Mathlib

/-! First occurrences in a sequence, found piecewise: a prefix searched apart
from the rest, and two kinds of marks searched one after the other. -/
namespace Align.Scan
open List

universe u
variable {α : Type u}
variable (p : α → Bool) (size : Nat) (items : List α)

theorem findIdx?_split :
    (match (items.take size).findIdx? p with
      | some index => some index
      | none =>
          if items.length ≤ size then none else ((items.drop size).findIdx? p).map (size + ·)) =
      items.findIdx? p := by
  have whole : items.findIdx? p = (items.take size ++ items.drop size).findIdx? p := by
    rw [take_append_drop]
  rw [whole, findIdx?_append]
  cases (items.take size).findIdx? p with
  | some index => rfl
  | none =>
    split_ifs with short
    · simp [drop_eq_nil_of_le short]
    · have full : (items.take size).length = size := length_take_of_le (by omega)
      simp [full, Nat.add_comm]

theorem findIdx?_either (q : α → Bool) (items : List α) :
    (match (items.take ((items.findIdx? p).getD items.length)).findIdx? q with
      | some index => some index
      | none => items.findIdx? p) =
      items.findIdx? fun item => p item || q item := by
  induction items with
  | nil => rfl
  | cons item rest ih =>
    cases first : p item with
    | true => simp [findIdx?_cons, first]
    | false =>
      have later : ((rest.findIdx? p).map (· + 1)).getD (rest.length + 1) =
        (rest.findIdx? p).getD rest.length + 1 := by
        cases rest.findIdx? p <;> rfl
      simp only [findIdx?_cons, first, length_cons, Bool.false_eq_true, ↓reduceIte, later, take_succ_cons,
        Bool.false_or, ← ih]
      cases second : q item with
      | true => rfl
      | false =>
        cases (rest.take ((rest.findIdx? p).getD rest.length)).findIdx? q <;> rfl

theorem take_findIdx?_free :
    (items.findIdx? p).getD items.length ≤ items.length ∧
      ∀ item ∈ items.take ((items.findIdx? p).getD items.length), p item = false := by
  rcases found : items.findIdx? p with _ | index
  · simpa using found
  obtain ⟨inside, _, before⟩ := findIdx?_eq_some_iff_getElem.mp found
  refine ⟨Nat.le_of_lt inside, ?_⟩
  intro item member
  rw [Option.getD_some] at member
  obtain ⟨k, small, rfl⟩ := mem_take_iff_getElem.mp member
  simpa using before k (by omega)

/-- Step back from `stop` while the item in front satisfies `p`. -/
def scanBack (p : α → Bool) (items : List α) : Nat → Nat
  | 0 => 0
  | stop + 1 =>
      match items[stop]? with
      | some item => if p item then scanBack p items stop else stop + 1
      | none => stop + 1

theorem scanBack_le : scanBack p items stop ≤ stop := by
  induction stop with
  | zero => exact Nat.le_refl 0
  | succ stop ih =>
    rw [scanBack]
    split
    · split
      · exact Nat.le_succ_of_le ih
      · exact Nat.le_refl _
    · exact Nat.le_refl _

theorem take_scanBack (inside : stop ≤ items.length) :
    items.take (scanBack p items stop) = (items.take stop).rdropWhile p := by
  induction stop with
  | zero => rfl
  | succ stop ih =>
    have grown : items.take (stop + 1) = items.take stop ++ [items[stop]] :=
      (take_concat_get' items stop inside).symm
    rw [scanBack, getElem?_eq_getElem inside, grown, rdropWhile_concat]
    dsimp only
    split
    · exact ih (Nat.le_of_succ_le inside)
    · exact grown

theorem scanBack_length (inside : stop ≤ items.length) :
    scanBack p items stop = ((items.take stop).rdropWhile p).length := by
  rw [← take_scanBack p _ inside, length_take,
    Nat.min_eq_left (Nat.le_trans (scanBack_le p _) inside)]

theorem drop_scanBack (inside : stop ≤ items.length) :
    (items.take stop).drop (scanBack p items stop) = (items.take stop).rtakeWhile p := by
  have parts := congrArg (List.drop ((items.take stop).rdropWhile p).length)
    (rdropWhile_append_rtakeWhile (p := p) (l := items.take stop))
  rw [drop_left] at parts
  rw [scanBack_length p _ inside, parts]

end Align.Scan
