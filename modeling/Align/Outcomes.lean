import Mathlib

/-! Fallible steps: what is known of a sequence of them once it has succeeded. -/
namespace Align.Outcomes
variable {ε α β : Type*}

theorem bind_ok {first : Except ε α} {next : α → Except ε β} {b : β} :
    first.bind next = .ok b ↔ ∃ a, first = .ok a ∧ next a = .ok b := by
  cases first with
  | error e => simp only [Except.bind, reduceCtorEq, false_and, exists_false]
  | ok a => simp only [Except.bind, Except.ok.injEq, exists_eq_left']

theorem map_ok {first : Except ε α} :
    first.map f = .ok b ↔ ∃ a, first = .ok a ∧ f a = b := by
  cases first with
  | error e => simp only [Except.map, reduceCtorEq, false_and, exists_false]
  | ok a => simp only [Except.map, Except.ok.injEq, exists_eq_left']

section Guards
variable {p : Prop} [Decidable p] {e : ε} {run : Except ε α} {a : α}

theorem refuse_ok : (if p then .error e else run) = .ok a ↔ ¬ p ∧ run = .ok a := by
  by_cases holds : p
  · rw [if_pos holds]
    exact ⟨nofun, fun both => absurd holds both.1⟩
  · rw [if_neg holds, and_iff_right holds]

theorem require_ok : (if p then run else .error e) = .ok a ↔ p ∧ run = .ok a := by
  by_cases holds : p
  · rw [if_pos holds, and_iff_right holds]
  · rw [if_neg holds]
    exact ⟨nofun, fun both => absurd both.1 holds⟩

theorem refuse_error :
    (if p then .error e else run) = .error other ↔ p ∧ e = other ∨ ¬ p ∧ run = .error other := by
  rw [ite_eq_iff, Except.error.injEq]

theorem require_error :
    (if p then run else .error e) = .error other ↔ p ∧ run = .error other ∨ ¬ p ∧ e = other := by
  rw [ite_eq_iff, Except.error.injEq]

end Guards

theorem map_error {first : Except ε α} : first.map f = .error e ↔ first = .error e := by
  cases first with
  | error other => rw [Except.map, Except.error.injEq, Except.error.injEq]
  | ok a => exact ⟨nofun, nofun⟩

theorem foldlM_keeps {step : β → α → Except ε β} (inv : β → Prop)
    (keeps : ∀ s a t, inv s → step s a = .ok t → inv t) {items : List α} (s t : β) (start : inv s)
    (ran : items.foldlM step s = .ok t) : inv t := by
  induction items generalizing s with
  | nil =>
    cases ran
    exact start
  | cons a items ih =>
    rcases bind_ok.mp ran with ⟨u, first, others⟩
    exact ih u (keeps s a u start first) others

theorem foldlM_some_keeps (inv : β → Prop)
    (keeps : ∀ s a t, inv s → step s a = some t → inv t) (items : List α) (s t : β) (start : inv s)
    (ran : items.foldlM step s = some t) : inv t := by
  induction items generalizing s with
  | nil =>
    cases ran
    exact start
  | cons a items ih =>
    rcases Option.bind_eq_some_iff.mp ran with ⟨u, first, others⟩
    exact ih u (keeps s a u start first) others

end Align.Outcomes
