import Mathlib

/-! Left folds of values grouped by key. `Groups` says that a list of entries is
the grouping of some rows, in any order; the lemmas say how one more row changes
it. A loop that keeps entries row by row under a bound on their number is then
correct by its step alone. -/
namespace Align.Grouping
open List

universe u v
variable {K : Type u} {V : Type v} [DecidableEq K] (combine : V → V → V)

/-- The fold of a key's values in row order, seeded by the first. -/
def groupValue (rows : List (K × V)) (k : K) : Option V :=
  match (rows.filter fun row => row.1 = k).map Prod.snd with
  | [] => none
  | v :: vs => some (vs.foldl combine v)

def distinct (rows : List (K × V)) : Nat := (rows.map Prod.fst).dedup.length

theorem groupValue_snoc (rows : List (K × V)) (k other : K) (v : V) :
    groupValue combine (rows ++ [(k, v)]) other =
      if other = k then some (match groupValue combine rows k with | none => v | some old => combine old v)
      else groupValue combine rows other := by
  simp only [groupValue, filter_append, map_append]
  by_cases same : other = k
  · subst same
    cases (rows.filter fun row => row.1 = other).map Prod.snd with
    | nil => simp
    | cons first rest => simp [foldl_append]
  · simp [same, Ne.symm same]

theorem groupValue_isSome (rows : List (K × V)) (k : K) :
    (groupValue combine rows k).isSome = true ↔ k ∈ rows.map Prod.fst := by
  induction rows using List.reverseRecOn with
  | nil => simp [groupValue]
  | append_singleton rows row ih =>
    obtain ⟨key, v⟩ := row
    rw [groupValue_snoc, map_append, mem_append, map_singleton, mem_singleton]
    by_cases same : k = key
    · simp [same]
    · simp [same, ih]

/-- The entries are the groups of the rows, each key once. -/
structure Groups (rows entries : List (K × V)) : Prop where
  nodup : (entries.map Prod.fst).Nodup
  exact : ∀ k v, (k, v) ∈ entries ↔ groupValue combine rows k = some v

section Groups
variable {combine} {rows entries entries' : List (K × V)}

theorem groups_nil : Groups combine ([] : List (K × V)) [] :=
  ⟨nodup_nil, fun k v => by simp [groupValue]⟩

theorem Groups.key_iff (groups : Groups combine rows entries) (k : K) :
    k ∈ entries.map Prod.fst ↔ k ∈ rows.map Prod.fst := by
  rw [← groupValue_isSome _ rows k, Option.isSome_iff_exists, mem_map]
  constructor
  · rintro ⟨⟨key, v⟩, member, rfl⟩
    exact ⟨v, (groups.exact key v).mp member⟩
  · rintro ⟨v, found⟩
    exact ⟨(k, v), (groups.exact k v).mpr found, rfl⟩

theorem Groups.length (groups : Groups combine rows entries) : entries.length = distinct rows := by
  have same : (entries.map Prod.fst).Perm (rows.map Prod.fst).dedup := by
    rw [perm_ext_iff_of_nodup groups.nodup (nodup_dedup _)]
    intro k
    rw [mem_dedup, groups.key_iff]
  rw [distinct, ← same.length_eq, length_map]

theorem Groups.perm (groups : Groups combine rows entries) (same : entries.Perm entries') :
    Groups combine rows entries' :=
  ⟨(same.map Prod.fst).nodup_iff.mp groups.nodup, fun k v => by rw [← same.mem_iff, groups.exact]⟩

theorem Groups.first (groups : Groups combine rows entries) (k : K) (v : V)
    (new : ∀ entry ∈ entries, entry.1 ≠ k) (held : entries'.Perm ((k, v) :: entries)) :
    Groups combine (rows ++ [(k, v)]) entries' := by
  have absent : k ∉ entries.map Prod.fst := by
    intro member
    obtain ⟨entry, inside, same⟩ := mem_map.mp member
    exact new entry inside same
  have none : groupValue combine rows k = none := by
    rw [← Option.not_isSome_iff_eq_none, groupValue_isSome, ← groups.key_iff]
    exact absent
  constructor
  · rw [(held.map Prod.fst).nodup_iff, map_cons, nodup_cons]
    exact ⟨absent, groups.nodup⟩
  · intro other w
    rw [held.mem_iff, mem_cons, groups.exact, groupValue_snoc, none]
    by_cases same : other = k
    · subst same
      simp [none, eq_comm]
    · simp [same]

theorem Groups.again (groups : Groups combine rows entries) (k : K) (v old : V)
    (before : entries.Perm ((k, old) :: others)) (held : entries'.Perm ((k, combine old v) :: others)) :
    Groups combine (rows ++ [(k, v)]) entries' := by
  have keys := (before.map Prod.fst).nodup_iff.mp groups.nodup
  rw [map_cons, nodup_cons] at keys
  have found : groupValue combine rows k = some old :=
    (groups.exact k old).mp (before.mem_iff.mpr mem_cons_self)
  constructor
  · rw [(held.map Prod.fst).nodup_iff, map_cons, nodup_cons]
    exact keys
  · intro other w
    rw [held.mem_iff, mem_cons, groupValue_snoc, found]
    by_cases same : other = k
    · subst same
      have gone : (other, w) ∉ others := fun member => keys.1 (mem_map.mpr ⟨_, member, rfl⟩)
      simp [gone, eq_comm]
    · have rest := groups.exact other w
      rw [before.mem_iff, mem_cons] at rest
      simp only [Prod.mk.injEq, same, false_and, false_or] at rest
      simp [same, rest]

end Groups

theorem distinct_le_append (rows more : List (K × V)) : distinct rows ≤ distinct (rows ++ more) := by
  rw [distinct, distinct, map_append]
  apply List.Subperm.length_le
  apply subperm_of_subset (nodup_dedup _)
  intro k member
  exact mem_dedup.mpr (mem_append_left _ (mem_dedup.mp member))

/-- A loop whose step keeps its state in agreement with the rows so far, and
stops when a row brings one key too many, does so for all rows. -/
theorem run_bounded (step : σ → K × V → Except ε σ) (agrees : List (K × V) → σ → Prop)
    (full : ε) (all : List (K × V))
    (keeps : ∀ rows row state, rows ++ [row] <+: all → agrees rows state → distinct rows ≤ cap →
      if cap < distinct (rows ++ [row]) then step state row = .error full
      else ∃ next, step state row = .ok next ∧ agrees (rows ++ [row]) next)
    (todo rows : List (K × V)) (state : σ) (whole : rows ++ todo <+: all) (start : agrees rows state)
    (below : distinct rows ≤ cap) :
    if cap < distinct (rows ++ todo) then todo.foldlM step state = .error full
    else ∃ last, todo.foldlM step state = .ok last ∧ agrees (rows ++ todo) last := by
  induction todo generalizing rows state with
  | nil =>
    rw [append_nil, if_neg (Nat.not_lt.mpr below)]
    exact ⟨state, rfl, start⟩
  | cons row rest ih =>
    have regroup : rows ++ row :: rest = rows ++ [row] ++ rest := by simp
    have one := keeps rows row state ((prefix_append _ rest).trans (regroup ▸ whole)) start below
    rw [regroup] at whole ⊢
    split at one
    case isTrue beyond =>
      have total := distinct_le_append (rows ++ [row]) rest
      rw [if_pos (by omega), foldlM_cons, one]
      rfl
    case isFalse within =>
      obtain ⟨next, taken, agree⟩ := one
      rw [foldlM_cons, taken]
      exact ih (rows ++ [row]) next whole agree (Nat.le_of_not_lt within)

end Align.Grouping
