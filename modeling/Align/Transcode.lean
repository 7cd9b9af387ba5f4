import Mathlib

/-! Pieces of table-driven byte transcoders. A block kernel rewrites a fixed
number of input elements into a fixed number of output elements as long as
enough input is left, and a finishing routine takes the rest; every store is
checked against the room left in the destination. A reverse table is filled by
storing each symbol's rank at the symbol's own position. -/
namespace Align.Transcode
open List

section Blocks

variable {α β : Type}

/-- A kernel may need to read more than it consumes, never less. -/
structure BlockKernel (α β : Type) where
  need : Nat
  step : Nat
  width : Nat
  advances : 0 < step
  within : step ≤ need
  block : List α → List β

/-- `room` is the length of the destination that is left. -/
def BlockKernel.run (kernel : BlockKernel α β) (finish : List α → Nat → Option (List β))
    (data : List α) (room : Nat) : Option (List β) :=
  if kernel.need ≤ data.length then
    if room < kernel.width then none
    else (kernel.run finish (data.drop kernel.step) (room - kernel.width)).map
      (kernel.block data ++ ·)
  else finish data room
termination_by data.length
decreasing_by
  have := kernel.advances
  have := kernel.within
  rw [length_drop]
  omega

/-- A kernel whose block is the head of the whole translation computes the
translation, provided the finishing routine does. -/
theorem BlockKernel.run_eq (kernel : BlockKernel α β)
    (finish : List α → Nat → Option (List β)) (whole : List α → List β)
    (head : ∀ data, kernel.need ≤ data.length →
      whole data = kernel.block data ++ whole (data.drop kernel.step))
    (wide : ∀ data, (kernel.block data).length = kernel.width)
    (rest : ∀ data, finish data (whole data).length = some (whole data)) (data : List α) :
    kernel.run finish data (whole data).length = some (whole data) := by
  induction data using (measure (List.length : List α → Nat)).wf.induction with
  | _ data ih =>
    unfold BlockKernel.run
    by_cases enough : kernel.need ≤ data.length
    · have shorter : (data.drop kernel.step).length < data.length := by
        have := kernel.advances
        have := kernel.within
        rw [length_drop]
        omega
      have split := head data enough
      have room : (whole data).length - kernel.width = (whole (data.drop kernel.step)).length := by
        rw [split, length_append, wide, Nat.add_sub_cancel_left]
      have fits : ¬ (whole data).length < kernel.width := by
        rw [split, length_append, wide]
        omega
      simp only [enough, fits, ↓reduceIte, room]
      rw [ih _ shorter, Option.map_some, ← split]
    · simp only [enough, ↓reduceIte]
      exact rest data

theorem ofFn_eq_map_range {count : Nat} (lanes : Fin count → β) (item : Nat → β)
    (same : ∀ k, lanes k = item k) : List.ofFn lanes = (List.range count).map item := by
  apply ext_getElem
  · rw [length_ofFn, length_map, length_range]
  · intro k inside _
    rw [List.getElem_ofFn, getElem_map, getElem_range, same]

end Blocks

section ReverseTables

/-- The table that gives each symbol below `count` its rank. -/
def reverseTable (symbol : Nat → UInt8) (missing : UInt8) (count : Nat) : List UInt8 :=
  (List.range count).foldl (fun table i => table.set (symbol i).toNat (UInt8.ofNat i))
    (List.replicate 256 missing)

theorem reverseTable_succ (count : Nat) :
    reverseTable symbol missing (count + 1) =
      (reverseTable symbol missing count).set (symbol count).toNat (UInt8.ofNat count) := by
  rw [reverseTable, range_succ, foldl_append]
  rfl

theorem reverseTable_length (count : Nat) : (reverseTable symbol missing count).length = 256 := by
  induction count with
  | zero => exact length_replicate
  | succ count ih => rw [reverseTable_succ, length_set, ih]

theorem reverseTable_step (count : Nat) (byte : UInt8) :
    (reverseTable symbol missing (count + 1)).getD byte.toNat missing =
      if symbol count = byte then UInt8.ofNat count
      else (reverseTable symbol missing count).getD byte.toNat missing := by
  have inside := byte.toNat_lt
  have size := @reverseTable_length symbol missing count
  rw [reverseTable_succ, getD_eq_getElem?_getD, getD_eq_getElem?_getD, getElem?_set]
  by_cases here : symbol count = byte
  · simp [here, size, inside]
  · have apart : (symbol count).toNat ≠ byte.toNat := fun same => here (UInt8.toNat_inj.mp same)
    simp [here, apart]

theorem reverseTable_symbol (count : Nat) (inside : i < count)
    (distinct : ∀ j < count, symbol j = symbol i → j = i) :
    (reverseTable symbol missing count).getD (symbol i).toNat missing = UInt8.ofNat i := by
  induction count with
  | zero => cases inside
  | succ count ih =>
    rw [reverseTable_step]
    by_cases last : symbol count = symbol i
    · rw [if_pos last, distinct count (Nat.lt_succ_self count) last]
    have earlier : i < count := by
      rcases Nat.lt_succ_iff_lt_or_eq.mp inside with below | here
      · exact below
      · exact absurd (congrArg symbol here.symm) last
    rw [if_neg last]
    exact ih earlier fun j below same => distinct j (Nat.lt_succ_of_lt below) same

theorem reverseTable_found {count : Nat}
    (found : (reverseTable symbol missing count).getD byte.toNat missing ≠ missing) :
    ∃ i < count, symbol i = byte ∧
      (reverseTable symbol missing count).getD byte.toNat missing = UInt8.ofNat i := by
  induction count with
  | zero =>
    have inside : byte.toNat < 256 := byte.toNat_lt
    have blank : (reverseTable symbol missing 0).getD byte.toNat missing = missing := by
      change (List.replicate 256 missing).getD byte.toNat missing = missing
      rw [getD_eq_getElem?_getD, getElem?_replicate_of_lt inside]
      rfl
    exact absurd blank found
  | succ count ih =>
    rw [reverseTable_step] at found ⊢
    by_cases last : symbol count = byte
    · exact ⟨count, Nat.lt_succ_self count, last, if_pos last⟩
    · rw [if_neg last] at found ⊢
      rcases ih found with ⟨i, below, same, entry⟩
      exact ⟨i, Nat.lt_succ_of_lt below, same, entry⟩

end ReverseTables

section Bytes

theorem shiftLeft_or (x : UInt8) (shift : Nat) (small : shift < 8) (below : y.toNat < 2 ^ shift) :
    (x <<< UInt8.ofNat shift ||| y).toNat = x.toNat % 2 ^ (8 - shift) * 2 ^ shift + y.toNat := by
  have amount : (UInt8.ofNat shift).toNat % 8 = shift := by
    rw [UInt8.toNat_ofNat']
    omega
  have cut : x.toNat * 2 ^ shift % 2 ^ 8 = x.toNat % 2 ^ (8 - shift) * 2 ^ shift := by
    have split : 2 ^ 8 = 2 ^ (8 - shift) * 2 ^ shift := by
      rw [← Nat.pow_add, Nat.sub_add_cancel (Nat.le_of_lt small)]
    rw [split, Nat.mul_mod_mul_right]
  rw [UInt8.toNat_or, UInt8.toNat_shiftLeft, amount, Nat.shiftLeft_eq, cut, Nat.mul_comm _ (2 ^ shift),
    Nat.two_pow_add_eq_or_of_lt below]

theorem shiftRight_toNat (x : UInt8) (small : shift < 8) :
    (x >>> UInt8.ofNat shift).toNat = x.toNat / 2 ^ shift := by
  have amount : (UInt8.ofNat shift).toNat % 8 = shift := by
    rw [UInt8.toNat_ofNat']
    omega
  rw [UInt8.toNat_shiftRight, amount, Nat.shiftRight_eq_div_pow]

theorem masks (byte : UInt8) :
    (byte &&& 0xFC).toNat = byte.toNat / 4 * 4 ∧ (byte &&& 0xC0).toNat = byte.toNat / 64 * 64 ∧
      (byte &&& 0xF0).toNat = byte.toNat / 16 * 16 ∧ (byte &&& 0x0F).toNat = byte.toNat % 16 ∧
      (byte &&& 0x03).toNat = byte.toNat % 4 ∧ (byte &&& 0x3F).toNat = byte.toNat % 64 := by
  have table : ∀ n < 256, n &&& 0xFC = n / 4 * 4 ∧ n &&& 0xC0 = n / 64 * 64 ∧
    n &&& 0xF0 = n / 16 * 16 ∧ n &&& 0x0F = n % 16 ∧ n &&& 0x03 = n % 4 ∧ n &&& 0x3F = n % 64 := by
    decide +kernel
  simp only [UInt8.toNat_and]
  exact table byte.toNat byte.toNat_lt

theorem or_ff (x : UInt8) : x ||| 0xFF = 0xFF := UInt8.or_neg_one

theorem ff_or (x : UInt8) : 0xFF ||| x = 0xFF := UInt8.neg_one_or

end Bytes

end Align.Transcode
