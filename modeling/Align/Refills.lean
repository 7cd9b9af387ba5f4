import Mathlib

/-! A stream that arrives in pieces. Every refill brings some items or fails; behind
the last one the stream is at its end. -/
namespace Align.Refills

universe u v
variable {ε : Type u} {α : Type v}

inductive Refill (ε : Type u) (α : Type v) where
  | items (first : α) (others : List α)
  | failed (status : ε)

end Align.Refills
