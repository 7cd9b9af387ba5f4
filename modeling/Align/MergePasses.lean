import Mathlib

/-! Bottom-up merge sort on a sequence: each pass merges neighbouring runs of
one width, and the width doubles from pass to pass. The merge may fail, as one
that looks its keys up does. -/
namespace Align.MergePasses
open List

universe u
variable {α : Type u}

/-- One pass over runs of `width` items; a width of zero has nothing to merge. -/
def mergePass (merge : List α → List α → Option (List α)) (width : Nat) (items : List α) :
    Option (List α) :=
  if items.length = 0 ∨ width = 0 then some items
  else
    (merge (items.take width) ((items.drop width).take width)).bind fun first =>
      (mergePass merge width (items.drop (2 * width))).map (first ++ ·)
termination_by items.length
decreasing_by
  rw [length_drop]
  omega

def mergePasses (merge : List α → List α → Option (List α)) : Nat → Nat → List α → Option (List α)
  | 0, _, items => some items
  | passes + 1, width, items =>
      (mergePass merge width items).bind (mergePasses merge passes (width * 2))

/-- Aligned blocks of `width` items are sorted. -/
def Runs (le : α → α → Bool) (width : Nat) (items : List α) : Prop :=
  ∀ block, ((items.drop (block * width)).take width).Pairwise fun a b => le a b

theorem runs_append (sorted : first.Pairwise fun a b => le a b) (runs : Runs le width rest)
    (narrow : first.length ≤ width) (last : first.length < width → rest = []) :
    Runs le width (first ++ rest) := by
  intro block
  by_cases short : first.length < width
  · rw [last short, append_nil]
    exact sorted.sublist ((take_sublist _ _).trans (drop_sublist _ _))
  have full : first.length = width := by omega
  cases block with
  | zero =>
    rw [Nat.zero_mul, drop_zero, ← full, take_left]
    exact sorted
  | succ block =>
    have skip : (block + 1) * width = first.length + block * width := by
      rw [full, Nat.succ_mul, Nat.add_comm]
    rw [skip, ← drop_drop, drop_left]
    exact runs block

section Sorting

variable {le : α → α → Bool} {merge : List α → List α → Option (List α)}
  (trans : ∀ a b c, le a b = true → le b c = true → le a c = true)
  (total : ∀ a b, (le a b || le b a) = true) (known : α → Prop)
  (merges : ∀ left right, (∀ a ∈ left, known a) → (∀ a ∈ right, known a) →
    merge left right = some (left.merge right le))
include trans total merges

theorem mergePass_runs (positive : 0 < width) (all : ∀ a ∈ items, known a) (runs : Runs le width items) :
    ∃ result, mergePass merge width items = some result ∧ result.Perm items ∧
      Runs le (2 * width) result := by
  induction items using (measure (List.length : List α → Nat)).wf.induction with
  | _ items ih =>
    unfold mergePass
    by_cases empty : items.length = 0
    · refine ⟨items, if_pos (Or.inl empty), List.Perm.refl _, ?_⟩
      intro block
      rw [eq_nil_of_length_eq_zero empty, drop_nil, take_nil]
      exact List.Pairwise.nil
    · have more : ¬ (items.length = 0 ∨ width = 0) := by omega
      have shorter : (items.drop (2 * width)).length < items.length := by
        rw [length_drop]
        omega
      have later : Runs le width (items.drop (2 * width)) := by
        intro block
        have here := runs (block + 2)
        rw [Nat.add_mul, Nat.add_comm (block * width), ← drop_drop] at here
        exact here
      rcases ih _ shorter (fun a member => all a (mem_of_mem_drop member)) later with
        ⟨rest, passed, perm, sorted⟩
      have left := runs 0
      have right := runs 1
      rw [Nat.zero_mul, drop_zero] at left
      rw [Nat.one_mul] at right
      have joined := pairwise_merge trans total _ _ left right
      have first : (items.take width).merge ((items.drop width).take width) le |>.Perm
        (items.take (2 * width)) := by
        refine (merge_perm_append le).trans ?_
        rw [Nat.two_mul, take_add]
      refine ⟨(items.take width).merge ((items.drop width).take width) le ++ rest, ?_, ?_, ?_⟩
      · rw [if_neg more, merges _ _ (fun a member => all a (mem_of_mem_take member))
          (fun a member => all a (mem_of_mem_drop (mem_of_mem_take member))), passed]
        rfl
      · have whole := first.append perm
        rwa [take_append_drop] at whole
      · have size := first.length_eq
        rw [length_take] at size
        have count := perm.length_eq
        rw [length_drop] at count
        apply runs_append joined sorted
        · omega
        · intro short
          exact eq_nil_of_length_eq_zero (by omega)

theorem mergePasses_runs (width : Nat) (positive : 0 < width) (items : List α)
    (all : ∀ a ∈ items, known a) (runs : Runs le width items) :
    ∃ result, mergePasses merge passes width items = some result ∧ result.Perm items ∧
      Runs le (width * 2 ^ passes) result := by
  induction passes generalizing width items with
  | zero => exact ⟨items, rfl, List.Perm.refl _, by rwa [Nat.pow_zero, Nat.mul_one]⟩
  | succ passes ih =>
    rcases mergePass_runs trans total _ merges positive all runs with
      ⟨middle, passed, perm, wider⟩
    rw [Nat.mul_comm] at wider
    have all' : ∀ a ∈ middle, known a := fun a member => all a (perm.mem_iff.mp member)
    rcases ih (width * 2) (by omega) middle all' wider with ⟨result, rest, perm', sorted⟩
    refine ⟨result, ?_, perm'.trans perm, ?_⟩
    · rw [mergePasses, passed]
      exact rest
    · rwa [Nat.pow_succ, Nat.mul_comm (2 ^ passes), ← Nat.mul_assoc]

theorem mergePasses_sorts (passes : Nat) (all : ∀ a ∈ items, known a)
    (enough : items.length ≤ 2 ^ passes) :
    ∃ result, mergePasses merge passes 1 items = some result ∧ result.Perm items ∧
      result.Pairwise fun a b => le a b := by
  have single : Runs le 1 items := by
    intro block
    rcases hd : (items.drop (block * 1)) with _ | ⟨a, rest⟩
    · exact List.Pairwise.nil
    · exact pairwise_singleton _ a
  rcases mergePasses_runs trans total _ merges 1 (by decide) _ all single with
    ⟨result, passed, perm, runs⟩
  refine ⟨result, passed, perm, ?_⟩
  have whole := runs 0
  rw [Nat.zero_mul, drop_zero, Nat.one_mul, take_of_length_le] at whole
  · exact whole
  · rw [perm.length_eq]
    exact enough

end Sorting

end Align.MergePasses
