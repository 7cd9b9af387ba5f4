import Align.Grouping

/-! Grouping by a string key. Few groups are found by comparing a row's key with the
representatives written so far; the row that would bring one group too many is left to
a hash map, which is seeded with those representatives. Wherever the switch happens,
the groups are those of an association list. -/
namespace Align.GroupStr
open Grouping List

abbrev Bytes := List UInt8

structure AlignStr where
  ptr : Nat
  len : Int

abbrev Rows (V : Type) := List (AlignStr × V)

/-- The view of a key, read from a row or from a written representative. -/
def repBytes (safeSlice : Nat → Int → Bytes) (s : AlignStr) : Bytes :=
  if s.ptr = 0 ∨ s.len ≤ 0 then [] else safeSlice s.ptr s.len

section Agg
variable {V : Type} (view : AlignStr → Bytes) (combine : V → V → V)

def reps (groups : Rows V) : List Bytes := groups.map fun group => view group.1

def update (groups : Rows V) (id : Nat) (v : V) : Rows V :=
  groups.modify id fun group => (group.1, combine group.2 v)

/-- Phase 1. `none` is `-1`; otherwise the rows left to phase 2 and the groups written. -/
def linear (linearMax cap : Nat) :
    Rows V → Rows V → Option (Rows V × Rows V)
  | [], groups => some ([], groups)
  | row :: rows, groups =>
    match (reps view groups).idxOf? (view row.1) with
    | some id => linear linearMax cap rows (update combine groups id row.2)
    | none =>
      if groups.length ≥ linearMax then some (row :: rows, groups)
      else if groups.length ≥ cap then none
      else linear linearMax cap rows (groups ++ [row])

/-- The hash map from keys to ids. -/
abbrev Ids := Bytes → Option Nat

def seed (keys : List Bytes) : Ids :=
  keys.zipIdx.foldl (fun ids entry => Function.update ids entry.1 (some entry.2)) fun _ => none

/-- Phase 2. -/
def hashed (cap : Nat) : Rows V → Ids → Rows V → Option (Rows V)
  | [], _, groups => some groups
  | row :: rows, ids, groups =>
    match ids (view row.1) with
    | some id => hashed cap rows ids (update combine groups id row.2)
    | none =>
      if groups.length ≥ cap then none
      else hashed cap rows (Function.update ids (view row.1) (some groups.length)) (groups ++ [row])

/-- The written keys and accumulators, or `none` for `-1`. The output buffers are not
null. The count fits an `i64`, since it stays within the capacity. -/
def groupAggStrThresh (safeSlice : Nat → Int → Bytes) (linearMax : Nat) (rows : Rows V) (cap : Int) :
    Option (Rows V) :=
  let view := repBytes safeSlice
  if cap < 0 then none
  else if linearMax > 0 then
    (linear view combine linearMax cap.toNat rows []).bind fun (left, groups) =>
      if left.isEmpty then some groups else hashed view combine cap.toNat left (seed (reps view groups)) groups
  else hashed view combine cap.toNat rows (seed []) []

/-- One row of the reference: an association list in the order of first occurrence. -/
def absorb : Rows V → AlignStr × V → Rows V
  | [], row => [row]
  | group :: groups, row =>
    if view group.1 = view row.1 then (group.1, combine group.2 row.2) :: groups
    else group :: absorb groups row

def reference (rows : Rows V) : Rows V := rows.foldl (absorb view combine) []

def keyed (rows : Rows V) : List (Bytes × V) := rows.map fun row => (view row.1, row.2)

end Agg

theorem idxOf_snoc {keys : List Bytes} (new : key ∉ keys) :
    (keys ++ [key]).idxOf? = Function.update keys.idxOf? key (some keys.length) := by
  funext bytes
  rw [idxOf?, findIdx?_append, Function.update_apply]
  split
  · rename_i same
    subst same
    have none : keys.findIdx? (· == bytes) = none := idxOf?_eq_none_iff.mpr new
    simp [none]
  · rename_i other
    simp [Ne.symm other, idxOf?]

theorem seed_idxOf (keys : List Bytes) (apart : keys.Nodup) : seed keys = keys.idxOf? := by
  induction keys using List.reverseRecOn with
  | nil => rfl
  | append_singleton keys key ih =>
    rw [nodup_append_comm, singleton_append, nodup_cons] at apart
    have before : keys.zipIdx.foldl _ _ = keys.idxOf? := ih apart.2
    rw [seed, zipIdx_append, foldl_append, before, idxOf_snoc apart.1, Nat.zero_add]
    rfl

variable {V : Type} {view : AlignStr → Bytes} {combine : V → V → V} {groups : Rows V}

theorem absorb_hit (found : (reps view groups).idxOf? (view row.1) = some place) :
    absorb view combine groups row = update combine groups place row.2 := by
  induction groups generalizing place with
  | nil => cases found
  | cons group groups ih =>
    rw [reps, map_cons, idxOf?_cons] at found
    rw [absorb]
    split at found
    · rename_i same
      cases found
      rw [if_pos (eq_of_beq same)]
      rfl
    · rename_i other
      rcases Option.map_eq_some_iff.mp found with ⟨before, later, rfl⟩
      rw [if_neg (by simpa using other), ih later]
      rfl

theorem absorb_new (new : view row.1 ∉ reps view groups) :
    absorb view combine groups row = groups ++ [row] := by
  induction groups with
  | nil => rfl
  | cons group groups ih =>
    rw [reps, map_cons, mem_cons, not_or] at new
    rw [absorb, if_neg (Ne.symm new.1), ih new.2, cons_append]

theorem reps_update (v : V) : reps view (update combine groups place v) = reps view groups := by
  apply ext_getElem?
  intro i
  simp only [reps, update, getElem?_map, getElem?_modify]
  cases groups[i]? <;> simp
  split <;> rfl

theorem reps_snoc (row : AlignStr × V) : reps view (groups ++ [row]) = reps view groups ++ [view row.1] := map_append

theorem reps_length : (reps view groups).length = groups.length := length_map _

theorem absorb_length (rows : Rows V) :
    groups.length ≤ (rows.foldl (absorb view combine) groups).length := by
  induction rows generalizing groups with
  | nil => exact Nat.le_refl _
  | cons row rows ih =>
    refine Nat.le_trans ?_ ih
    cases found : (reps view groups).idxOf? (view row.1) with
    | none => simp [absorb_new (idxOf?_eq_none_iff.mp found)]
    | some place => simp [absorb_hit found, update]

theorem absorb_full (new : view row.1 ∉ reps view groups)
    (full : cap ≤ groups.length) : cap < ((row :: rows).foldl (absorb view combine) groups).length := by
  rw [foldl_cons, absorb_new new]
  have more : _ ≤ (rows.foldl (absorb view combine) (groups ++ [row])).length := absorb_length _
  rw [length_append] at more
  exact Nat.lt_of_le_of_lt full more

theorem linear_absorb (view : AlignStr → Bytes) (combine : V → V → V) (linearMax : Nat) (groups rows : Rows V)
    (below : groups.length ≤ cap) (apart : (reps view groups).Nodup) :
    match linear view combine linearMax cap rows groups with
    | none => cap < (rows.foldl (absorb view combine) groups).length
    | some (left, written) => left.foldl (absorb view combine) written = rows.foldl (absorb view combine) groups ∧
        written.length ≤ cap ∧ (reps view written).Nodup := by
  induction rows generalizing groups with
  | nil => exact ⟨rfl, below, apart⟩
  | cons row rows ih =>
    rw [linear]
    cases found : (reps view groups).idxOf? (view row.1) with
    | some place =>
      rw [foldl_cons, absorb_hit found]
      apply ih
      · rwa [update, length_modify]
      · rwa [reps_update]
    | none =>
      have new := idxOf?_eq_none_iff.mp found
      split_ifs with switch full
      · exact ⟨rfl, below, apart⟩
      · exact absorb_full new full
      rw [foldl_cons, absorb_new new]
      apply ih
      · rw [length_append]
        exact Nat.lt_of_not_ge full
      · rw [reps_snoc, nodup_append_comm]
        exact nodup_cons.mpr ⟨new, apart⟩

theorem hashed_absorb (groups rows : Rows V) (below : groups.length ≤ cap) :
    hashed view combine cap rows (reps view groups).idxOf? groups =
      if (rows.foldl (absorb view combine) groups).length ≤ cap then some (rows.foldl (absorb view combine) groups)
      else none := by
  induction rows generalizing groups with
  | nil => exact (if_pos below).symm
  | cons row rows ih =>
    rw [hashed]
    cases found : (reps view groups).idxOf? (view row.1) with
    | some place =>
      rw [foldl_cons, absorb_hit found, ← ih _ (by rwa [update, length_modify]), reps_update]
    | none =>
      have new := idxOf?_eq_none_iff.mp found
      by_cases full : groups.length ≥ cap
      · rw [if_pos full, if_neg (Nat.not_le.mpr (absorb_full new full))]
      have more := idxOf_snoc new
      rw [reps_length, ← reps_snoc] at more
      rw [if_neg full, foldl_cons, absorb_new new, ← ih _ (by simp; omega), more]

theorem absorb_groups {rows : List (Bytes × V)} (sound : Groups combine rows (keyed view groups)) :
    Groups combine (rows ++ [(view row.1, row.2)]) (keyed view (absorb view combine groups row)) := by
  cases found : (reps view groups).idxOf? (view row.1) with
  | none =>
    have new := idxOf?_eq_none_iff.mp found
    rw [absorb_new new]
    refine sound.first _ _ ?_ (by simp [keyed])
    rintro entry inside same
    obtain ⟨group, held, rfl⟩ := mem_map.mp inside
    exact new (mem_map.mpr ⟨group, held, same⟩)
  | some place =>
    obtain ⟨inside, same, -⟩ := idxOf?_eq_some_iff.mp found
    rw [reps_length] at inside
    have whole : groups = groups.take place ++ groups[place] :: groups.drop (place + 1) := by
      rw [getElem_cons_drop, take_append_drop]
    have key : view groups[place].1 = view row.1 := by simpa [reps] using same
    rw [absorb_hit found, update, modify_eq_take_cons_drop inside]
    have before : groups.Perm (groups[place] :: (groups.take place ++ groups.drop (place + 1))) :=
      (Perm.of_eq whole).trans perm_middle
    rw [← key]
    exact sound.again _ _ _ (before.map _) (perm_middle.map _)

theorem absorb_order {all : List Bytes} (order : reps view groups = all.eraseDups) :
    reps view (absorb view combine groups row) = (all ++ [view row.1]).eraseDups := by
  rw [eraseDups_append, ← order]
  cases found : (reps view groups).idxOf? (view row.1) with
  | none =>
    have new := idxOf?_eq_none_iff.mp found
    rw [absorb_new new, reps_snoc]
    rw [order, mem_eraseDups] at new
    simp [removeAll, new, eraseDups_cons]
  | some place =>
    obtain ⟨_, same, -⟩ := idxOf?_eq_some_iff.mp found
    have old : view row.1 ∈ all := by
      rw [← mem_eraseDups, ← order, ← same]
      exact getElem_mem _
    rw [absorb_hit found, reps_update]
    simp [removeAll, old]

theorem reference_groups (view : AlignStr → Bytes) (combine : V → V → V) (rows : Rows V) :
    Groups combine (keyed view rows) (keyed view (reference view combine rows)) ∧
      reps view (reference view combine rows) = (reps view rows).eraseDups := by
  induction rows using List.reverseRecOn with
  | nil => exact ⟨groups_nil, rfl⟩
  | append_singleton rows row ih =>
    rw [reps_snoc, keyed, map_append, reference, foldl_append]
    exact ⟨absorb_groups ih.1, absorb_order ih.2⟩

/-- The string grouping is that of the association list, wherever it switches to the hash
map: `-1` exactly when there are more keys than the capacity, and otherwise the keys in the
order of their first rows, each with its values combined in row order. -/
theorem grouping_by_string (safeSlice : Nat → Int → Bytes) (combine : V → V → V) (linearMax : Nat)
    (rows : Rows V) (cap : Int) :
    groupAggStrThresh combine safeSlice linearMax rows cap =
      (if distinct (keyed (repBytes safeSlice) rows) ≤ cap then some (reference (repBytes safeSlice) combine rows)
      else none) ∧
    reps (repBytes safeSlice) (reference (repBytes safeSlice) combine rows) =
      (reps (repBytes safeSlice) rows).eraseDups ∧
    ∀ key v, (key, v) ∈ keyed (repBytes safeSlice) (reference (repBytes safeSlice) combine rows) ↔
      groupValue combine (keyed (repBytes safeSlice) rows) key = some v := by
  obtain ⟨groups, order⟩ := reference_groups (repBytes safeSlice) combine rows
  refine ⟨?_, order, groups.exact⟩
  have count := groups.length
  rw [keyed, length_map] at count
  rw [groupAggStrThresh, ← count]
  by_cases negative : cap < 0
  · rw [if_pos negative, if_neg (by omega)]
  have fits (n : Nat) : (n : Int) ≤ cap ↔ n ≤ cap.toNat := by omega
  simp only [if_neg negative, fits]
  by_cases scan : linearMax > 0
  · rw [if_pos scan]
    have phase := linear_absorb (repBytes safeSlice) combine linearMax [] rows (Nat.zero_le cap.toNat) nodup_nil
    rcases result : linear (repBytes safeSlice) combine linearMax cap.toNat rows [] with _ | ⟨left, written⟩ <;>
      rw [result] at phase
    · exact (if_neg (Nat.not_le.mpr phase)).symm
    obtain ⟨same, below, apart⟩ := phase
    rw [reference, ← same, Option.bind_some]
    cases left with
    | nil => exact (if_pos below).symm
    | cons row left => exact seed_idxOf _ apart ▸ hashed_absorb written (row :: left) below
  · rw [if_neg scan]
    exact hashed_absorb [] rows (Nat.zero_le _)

end Align.GroupStr
