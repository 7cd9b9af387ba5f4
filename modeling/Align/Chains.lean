import Mathlib

/-! Chains threaded through a table of links: from a head, each item names the
next one. A chain grows at its end by linking its last item to a fresh one. -/
namespace Align.Chains

variable {σ ε : Type}

inductive Threads (link : Nat → Option Nat) : Option Nat → List Nat → Prop where
  | nil : Threads link none []
  | cons (item : Nat) (rest : List Nat) (tail : Threads link (link item) rest) :
      Threads link (some item) (item :: rest)

/-- Visit the items from `head` on; no result when the steps do not suffice. -/
def walk (link : Nat → Option Nat) (visit : Nat → σ → Except ε σ) :
    Nat → Option Nat → σ → Option (Except ε σ)
  | _, none, state => some (.ok state)
  | 0, some _, _ => none
  | steps + 1, some item, state =>
      match visit item state with
      | .error stop => some (.error stop)
      | .ok state => walk link visit steps (link item) state

theorem walk_threads (link : Nat → Option Nat) (visit : Nat → σ → Except ε σ) (head : Option Nat)
    (threads : Threads link head items) (steps : Nat) (enough : items.length ≤ steps)
    (state : σ) :
    walk link visit steps head state = some (items.foldlM (fun state item => visit item state) state) := by
  induction threads generalizing steps state with
  | nil => cases steps <;> rfl
  | cons item rest _ ih =>
    cases steps with
    | zero => simp at enough
    | succ steps =>
      rw [walk, List.foldlM_cons]
      cases visit item state with
      | error stop => rfl
      | ok next => exact ih steps (Nat.le_of_succ_le_succ enough) next

theorem Threads.eq_nil (threads : Threads link none items) :
    items = [] := by
  cases threads
  rfl

theorem Threads.ne_nil (threads : Threads link (some head) items) : items ≠ [] := by
  cases threads
  exact List.cons_ne_nil _ _

variable {head : Option Nat}

theorem Threads.congr (threads : Threads link head items) (same : ∀ item ∈ items, link' item = link item) :
    Threads link' head items := by
  induction threads with
  | nil => exact Threads.nil
  | cons item rest _ ih =>
    have tail := ih fun other member => same other (List.mem_cons_of_mem item member)
    rw [← same item List.mem_cons_self] at tail
    exact Threads.cons item rest tail

theorem Threads.extend (threads : Threads link head (items ++ [last])) (once : last ∉ items)
    (ends : link fresh = none) (new : fresh ≠ last) :
    Threads (Function.update link last (some fresh)) head (items ++ [last, fresh]) := by
  induction items generalizing head with
  | nil =>
    cases threads
    apply Threads.cons
    rw [Function.update_self]
    apply Threads.cons
    rw [Function.update_of_ne new, ends]
    exact Threads.nil
  | cons item rest ih =>
    rw [List.mem_cons, not_or] at once
    cases threads with
    | cons _ _ tail =>
      apply Threads.cons
      rw [Function.update_of_ne (Ne.symm once.1)]
      exact ih tail once.2

end Align.Chains
