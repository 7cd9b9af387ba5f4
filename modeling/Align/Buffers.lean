import Mathlib

/-! Fixed-size buffers and sliding windows over sequences. A buffer's length is
part of its type. `store` is a bounded in-place copy; a copy that does not fit
leaves the buffer alone, and clients prove that branch unreachable. `window`
names the last `k` elements of a sequence, however it was cut into pieces.
`blockLoop` consumes whole blocks while more than one block's worth is left, as
hashes with an overlapping final block do; `rounds` is the same fold by count. -/
namespace Align.Buffers
open List

universe u
variable {α : Type u}

structure Buffer (α : Type u) (size : Nat) where
  items : List α
  size_eq : items.length = size

def splice (items : List α) (start : Nat) (data : List α) : List α :=
  items.take start ++ data ++ items.drop (start + data.length)

theorem splice_length (fits : start + data.length ≤ items.length) :
    (splice items start data).length = items.length := by
  simp only [splice, length_append, length_take, length_drop]
  omega

theorem splice_take (fits : start + data.length ≤ items.length) :
    (splice items start data).take (start + data.length) = items.take start ++ data := by
  have short : (items.take start ++ data).length = start + data.length := by
    simp only [length_append, length_take]
    omega
  rw [splice, take_append_of_le_length (by omega)]
  exact take_of_length_le (by omega)

variable {size : Nat}

def Buffer.fill (value : α) : Buffer α size :=
  ⟨List.replicate size value, length_replicate⟩

def Buffer.store (buffer : Buffer α size) (start : Nat) (data : List α) : Buffer α size :=
  if fits : start + data.length ≤ size then
    ⟨splice buffer.items start data, by
      rw [splice_length (by rw [buffer.size_eq]; exact fits), buffer.size_eq]⟩
  else buffer

theorem store_items (buffer : Buffer α size) (fits : start + data.length ≤ size) :
    (buffer.store start data).items = splice buffer.items start data := by
  simp [Buffer.store, fits]

-- Everything written so far is the old prefix followed by the new data.
theorem store_take (buffer : Buffer α size) (start : Nat) (data : List α) (fits : start + data.length ≤ size) :
    (buffer.store start data).items.take (start + data.length) =
      buffer.items.take start ++ data := by
  rw [store_items _ fits]
  exact splice_take (by rw [buffer.size_eq]; exact fits)

/-- The last `k` elements, or all of them while there are fewer. -/
def window (k : Nat) (items : List α) : List α := items.drop (items.length - k)

theorem window_length (k : Nat) (items : List α) :
    (window k items).length = min k items.length := by
  simp only [window, length_drop]
  omega

theorem window_append_long (covers : k ≤ back.length) :
    window k (front ++ back) = window k back := by
  have cut : (front ++ back).length - k = front.length + (back.length - k) := by
    rw [length_append]
    omega
  rw [window, cut, drop_length_add_append, window]

theorem window_append_short (front : List α) (short : back.length ≤ k) :
    window k (front ++ back) = window (k - back.length) front ++ back := by
  have cut : (front ++ back).length - k = front.length - (k - back.length) := by
    rw [length_append]
    omega
  rw [window, cut, drop_append_of_le_length (by omega), window]

theorem window_window (k j : Nat) (items : List α) (inner : j ≤ k) :
    window j (window k items) = window j items := by
  simp only [window, drop_drop, length_drop]
  congr 1
  omega

section BlockFold
universe v
variable {σ : Type v} (size : Nat) (round : List α → σ → σ)

def blockLoop [NeZero size] (rest : List α) (state : σ) : σ × List α :=
  if rest.length > size then blockLoop (rest.drop size) (round rest state) else (state, rest)
termination_by rest.length
decreasing_by
  have := Nat.pos_of_neZero size
  simp only [length_drop]
  omega

def rounds (size : Nat) (round : List α → σ → σ) : Nat → List α → σ → σ
  | 0, _, state => state
  | count + 1, rest, state => rounds size round count (rest.drop size) (round rest state)

theorem blockLoop_rounds [NeZero size] (rest : List α) (state : σ) :
    blockLoop size round rest state =
      (rounds size round ((rest.length - 1) / size) rest state,
        rest.drop ((rest.length - 1) / size * size)) := by
  have positive := Nat.pos_of_neZero size
  induction rest, state using blockLoop.induct size round with
  | case1 rest state more ih =>
    have count : (rest.length - 1) / size = ((rest.drop size).length - 1) / size + 1 := by
      rw [length_drop, ← Nat.add_div_right _ positive]
      congr 1
      omega
    rw [blockLoop, if_pos more, ih, count, rounds, drop_drop, Nat.add_mul, Nat.one_mul, Nat.add_comm size]
  | case2 rest state done =>
    have none : (rest.length - 1) / size = 0 := Nat.div_eq_of_lt (by omega)
    rw [blockLoop, if_neg done, none, Nat.zero_mul]
    rfl

-- The same fold from the other end: an incremental state performs the last round last.
theorem rounds_succ (count : Nat) (rest : List α) (state : σ) :
    rounds size round (count + 1) rest state =
      round (rest.drop (count * size)) (rounds size round count rest state) := by
  induction count generalizing rest state with
  | zero => simp [rounds]
  | succ count ih =>
    rw [rounds, ih, rounds, drop_drop, Nat.add_mul, Nat.one_mul, Nat.add_comm size]

theorem rounds_congr (reads : ∀ p q state, p.take size = q.take size → round p state = round q state)
    (count : Nat) (p q : List α) (state : σ) (same : p.take (count * size) = q.take (count * size)) :
    rounds size round count p state = rounds size round count q state := by
  induction count generalizing p q state with
  | zero => rfl
  | succ count ih =>
    have head : p.take size = q.take size := by
      have cut := congrArg (List.take size) same
      simpa [take_take, Nat.add_mul] using cut
    have tail : (p.drop size).take (count * size) = (q.drop size).take (count * size) := by
      have cut := congrArg (List.drop size) same
      simpa [drop_take, Nat.add_mul] using cut
    rw [rounds, rounds, reads p q state head]
    exact ih _ _ _ tail
end BlockFold

theorem take_drop_congr {p q : List α} {size offset width : Nat} (inside : offset + width ≤ size)
    (same : p.take size = q.take size) :
    (p.drop offset).take width = (q.drop offset).take width := by
  have cut : ∀ r : List α, (r.drop offset).take width = ((r.take size).drop offset).take width := by
    intro r
    rw [drop_take, take_take]
    congr 1
    omega
  rw [cut p, cut q, same]

end Align.Buffers
