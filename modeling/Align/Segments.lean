import Align.Buffers

/-! Parts of a sequence at known offsets. `At items start part` splits over
concatenation, so a reader that checks one field after another and a layout
written as a concatenation describe a sequence in the same words. Stores into a
sequence cut into parts replace one part and leave the others alone. -/
namespace Align.Segments
open Buffers List

universe u
variable {α : Type u}

def slice (items : List α) (start stop : Nat) : List α := (items.drop start).take (stop - start)

/-- `part` stands at offset `start`. -/
def At (items : List α) (start : Nat) (part : List α) : Prop :=
  (items.drop start).take part.length = part

variable (items : List α) (start : Nat)

theorem at_nil : At items start [] := rfl

theorem at_append (first second : List α) :
    At items start (first ++ second) ↔
      At items start first ∧ At items (start + first.length) second := by
  have cut : (items.drop start).take (first ++ second).length = (items.drop start).take first.length ++
      (items.drop (start + first.length)).take second.length := by
    rw [length_append, take_add, drop_drop]
  constructor
  · intro both
    rw [At, cut] at both
    have short := congrArg List.length both
    simp only [length_append, length_take, length_drop] at short
    have size : ((items.drop start).take first.length).length = first.length := by
      rw [length_take, length_drop]
      omega
    exact append_inj both size
  · rintro ⟨left, right⟩
    rw [At, cut, left, right]

theorem At.bound {items part : List α} {start : Nat} (here : At items start part)
    (some : part ≠ []) : start + part.length ≤ items.length := by
  have size := congrArg List.length here
  have positive := length_pos_iff.mpr some
  rw [length_take, length_drop] at size
  omega

theorem At.slice {items part : List α} {start stop : Nat} (here : At items start part)
    (width : stop = start + part.length) : slice items start stop = part := by
  rw [Segments.slice, width, Nat.add_sub_cancel_left]
  exact here

theorem slice_length (inside : stop ≤ items.length) :
    (slice items start stop).length = stop - start := by
  rw [slice, length_take, length_drop]
  omega

theorem at_slice (inside : stop ≤ items.length) :
    At items start (slice items start stop) := by
  rw [At, slice_length _ _ inside]
  rfl

theorem at_whole :
    At items 0 part ∧ items.length = part.length ↔ items = part := by
  constructor
  · rintro ⟨here, size⟩
    rw [← here, drop_zero, ← size, take_length]
  · rintro rfl
    exact ⟨by rw [At, drop_zero, take_length], rfl⟩

theorem at_middle (before part after : List α) : At (before ++ (part ++ after)) before.length part := by
  rw [At, drop_left, take_left]

theorem slice_slice (stop low high : Nat) (inside : high ≤ stop - start) :
    slice (slice items start stop) low high = slice items (start + low) (start + high) := by
  have width : start + high - (start + low) = high - low := by omega
  rw [slice, slice, slice, drop_take, drop_drop, take_take, width, Nat.min_eq_left (by omega)]

theorem at_flatMap (piece : β → List α)
    (uniform : ∀ b, (piece b).length = width) (items : List β) (i : Nat) (inside : i < items.length) :
    At (items.flatMap piece) (i * width) (piece items[i]) := by
  induction items generalizing i with
  | nil => cases inside
  | cons first rest ih =>
    cases i with
    | zero =>
      have here := at_middle [] (piece first) (rest.flatMap piece)
      rw [Nat.zero_mul]
      exact here
    | succ i =>
      have later := ih i (Nat.lt_of_succ_lt_succ inside)
      have skip : (i + 1) * width = (piece first).length + i * width := by
        rw [uniform, Nat.succ_mul, Nat.add_comm]
      rw [At, flatMap_cons, skip, ← drop_drop, drop_left]
      exact later

theorem flatMap_length (piece : β → List α) (uniform : ∀ b, (piece b).length = width) (items : List β) :
    (items.flatMap piece).length = items.length * width := by
  simp [length_flatMap, uniform]

theorem blocks_eq {width count : Nat} (size : items.length = count * width) :
    items = (List.range count).flatMap fun i => slice items (i * width) (i * width + width) := by
  induction count generalizing items with
  | zero =>
    rw [Nat.zero_mul] at size
    rw [eq_nil_of_length_eq_zero size]
    rfl
  | succ count ih =>
    rw [Nat.succ_mul] at size
    have short : (items.take (count * width)).length = count * width := by
      rw [length_take]
      omega
    have earlier : ∀ i ∈ List.range count,
      slice (items.take (count * width)) (i * width) (i * width + width) =
        slice items (i * width) (i * width + width) := by
      intro i member
      have below : (i + 1) * width ≤ count * width :=
        Nat.mul_le_mul_right width (mem_range.mp member)
      rw [Nat.succ_mul] at below
      rw [slice, slice, drop_take, take_take, Nat.min_eq_left (by omega)]
    have last : slice items (count * width) (count * width + width) = items.drop (count * width) := by
      rw [slice, Nat.add_sub_cancel_left, take_of_length_le]
      rw [length_drop]
      omega
    have front := ih (items.take (count * width)) short
    have cut : (List.range count).flatMap (fun i =>
      slice (items.take (count * width)) (i * width) (i * width + width)) =
      (List.range count).flatMap fun i => slice items (i * width) (i * width + width) :=
      flatMap_congr earlier
    rw [range_succ, flatMap_append, ← cut, ← front, flatMap_singleton, last, take_append_drop]

/-! Stores. A store that would leave the sequence is no result. -/

def store (items : List α) (start : Nat) (data : List α) : Option (List α) :=
  if start + data.length ≤ items.length then some (splice items start data) else none

theorem store_middle (after : List α) {start : Nat} (here : start = before.length)
    (same : old.length = data.length) :
    store (before ++ (old ++ after)) start data = some (before ++ (data ++ after)) := by
  have fits : start + data.length ≤ (before ++ (old ++ after)).length := by
    rw [length_append, length_append]
    omega
  have left : (before ++ (old ++ after)).take start = before := by
    rw [here, take_left]
  have right : (before ++ (old ++ after)).drop (start + data.length) = after := by
    rw [here, ← same, ← drop_drop, drop_left, drop_left]
  rw [store, if_pos fits, splice, left, right, append_assoc]

theorem store_part {items : List α} {before old data after : List α} {start : Nat}
    (shape : items = before ++ (old ++ after)) (here : start = before.length)
    (same : old.length = data.length) :
    store items start data = some (before ++ (data ++ after)) := by
  rw [shape, store_middle _ here same]

end Align.Segments
