import Align.Grouping
import Align.Probing

/-! Grouping by an `i64` key column. A scan of the keys picks one of two
strategies: a directly indexed accumulator when they lie close together, or a
growing open-addressed table. Either way each distinct key comes out once, with
the fold of its values in row order, and nothing but the capacity of the output
decides between a result and `-1`. -/
namespace Align.GroupAgg
open Probing Grouping List

inductive Stop where
  | minusOne
  | stuck
  | overflow
deriving DecidableEq, Repr

abbrev Entry := Int64 × Int64

/-- `as usize`. -/
def asUsize (x : Int64) : Nat := x.toUInt64.toNat

structure KeyRange where
  kmin : Int64
  kmax : Int64
  dense : Bool

def preScan (limit : Int) : List Int64 → Int64 → Int64 → KeyRange
  | [], kmin, kmax => ⟨kmin, kmax, true⟩
  | k :: rest, kmin, kmax =>
      if k < kmin then
        if kmax.toInt - k.toInt ≥ limit then ⟨k, kmax, false⟩ else preScan limit rest k kmax
      else if k > kmax then
        if k.toInt - kmin.toInt ≥ limit then ⟨kmin, k, false⟩ else preScan limit rest kmin k
      else preScan limit rest kmin kmax

section Agg
variable (cap : Nat) (combine : Int64 → Int64 → Int64)

/-! The dense path: `occ` and `acc` together are one list of options. -/

def denseRow (kmin : Int64) (state : List (Option Int64) × Nat) (row : Entry) :
    Except Stop (List (Option Int64) × Nat) :=
  let (acc, count) := state
  let idx := asUsize (row.1 - kmin)
  match cell acc idx with
  | some old => .ok (acc.set idx (some (combine old row.2)), count)
  | none =>
      if count + 1 > cap then .error .minusOne else .ok (acc.set idx (some row.2), count + 1)

/-- The key of each slot beside what it accumulated. -/
def labelled (kmin : Int64) (acc : List (Option Int64)) : List (Option Entry) :=
  acc.mapIdx fun s value => value.map fun v => (kmin + Int64.ofNat s, v)

def denseAgg (kmin kmax : Int64) (rows : List Entry) : Except Stop (List Entry) :=
  let slots := asUsize (kmax - kmin) + 1
  match rows.foldlM (denseRow cap combine kmin) (List.replicate slots none, 0) with
  | .error stop => .error stop
  | .ok (acc, _) => .ok (contents (labelled kmin acc))

/-! The hash path: key, accumulator and occupancy of a slot are one option. The
table sizes are powers of two, so wrapping with the mask is the remainder. -/

def groupSlot (k : Int64) (mask : Nat) : Nat :=
  let h := k.toUInt64 * 0x9e3779b97f4a7c15
  (h ^^^ (h >>> 29)).toNat &&& mask

structure Table where
  slots : List (Option Entry)
  count : Nat

/-- Twice the slots, the entries put in again in slot order. -/
def grow (table : Table) : Except Stop Table :=
  let ns := table.slots.length * 2
  if ns ≥ 2 ^ 64 then .error .overflow
  else match rehash (fun entry => groupSlot entry.1 (ns - 1)) ns (contents table.slots) with
    | none => .error .stuck
    | some slots => .ok { table with slots := slots }

def hashRow (table : Table) (row : Entry) : Except Stop Table :=
  let tsize := table.slots.length
  match search table.slots (fun entry => entry.1 == row.1) tsize (groupSlot row.1 (tsize - 1)) with
  | none => .error .stuck
  | some slot =>
      match cell table.slots slot with
      | some (key, old) =>
          .ok { table with slots := table.slots.set slot (some (key, combine old row.2)) }
      | none =>
          let table : Table := ⟨table.slots.set slot (some row), table.count + 1⟩
          if table.count > cap then .error .minusOne
          else if table.count > tsize / 4 * 3 then grow table
          else .ok table

def hashAgg (rows : List Entry) : Except Stop (List Entry) :=
  match rows.foldlM (hashRow cap combine) ⟨List.replicate 16 none, 0⟩ with
  | .error stop => .error stop
  | .ok table => .ok (contents table.slots)

end Agg

def rowsOf (keys : List Int64) (perRow : Nat → Int64) : List Entry :=
  keys.mapIdx fun i k => (k, perRow i)

/-- The emitted groups; the returned count is their number. -/
def groupAggI64 (keys : List Int64) (cap : Int) (perRow : Nat → Int64)
    (combine : Int64 → Int64 → Int64) : Except Stop (List Entry) :=
  match keys with
  | [] => .ok []
  | first :: rest =>
      if cap < 0 then .error .minusOne
      else
        let range := preScan keys.length rest first first
        if range.dense then denseAgg cap.toNat combine range.kmin range.kmax (rowsOf keys perRow)
        else hashAgg cap.toNat combine (rowsOf keys perRow)

theorem groupSlot_lt (k : Int64) (size : Nat) (positive : 0 < size) : groupSlot k (size - 1) < size :=
  Nat.lt_of_le_of_lt Nat.and_le_right (Nat.sub_lt positive Nat.one_pos)

theorem distinct_le_length (rows : List Entry) : distinct rows ≤ rows.length := by
  have fewer := (dedup_sublist (rows.map Prod.fst)).length_le
  rwa [length_map] at fewer

section Hash
variable (cap : Nat) (combine : Int64 → Int64 → Int64)

/-- The table holds the groups of the rows so far, each reachable from its home,
at a load that leaves a free slot. -/
structure TableAgrees (rows : List Entry) (table : Table) : Prop where
  groups : Groups combine rows (contents table.slots)
  placed : Placed Prod.fst (fun k => groupSlot k (table.slots.length - 1)) table.slots
  counted : table.count = (contents table.slots).length
  load : table.count ≤ table.slots.length / 4 * 3
  large : 16 ≤ table.slots.length

theorem grow_agrees (slots : List (Option Entry)) (count : Nat)
    (groups : Groups combine rows (contents slots)) (counted : count = (contents slots).length)
    (near : count ≤ slots.length / 4 * 3 + 1) (large : 16 ≤ slots.length) (fits : slots.length < 2 ^ 63) :
    ∃ next, grow ⟨slots, count⟩ = .ok next ∧ TableAgrees combine rows next := by
  have homes : ∀ k, groupSlot k (slots.length * 2 - 1) < slots.length * 2 := fun k => groupSlot_lt k _ (by omega)
  obtain ⟨next, run, long, placed, held⟩ := rehash_placed _ _ homes (by omega) groups.nodup
  refine ⟨⟨next, count⟩, ?_, ?_, ?_, ?_, ?_, ?_⟩
  · rw [grow]
    simp only [show ¬ slots.length * 2 ≥ 2 ^ 64 by omega, ↓reduceIte, run]
  · exact groups.perm held.symm
  · simpa [long] using placed
  · rw [counted, held.length_eq]
  · simp only [long]
    omega
  · simp only [long]
    omega

theorem hashRow_keeps (all : List Entry) (short : all.length < 2 ^ 60)
    (within : rows ++ [row] <+: all) (agrees : TableAgrees combine rows table) (below : distinct rows ≤ cap) :
    if cap < distinct (rows ++ [row]) then hashRow cap combine table row = .error .minusOne
    else ∃ next, hashRow cap combine table row = .ok next ∧ TableAgrees combine (rows ++ [row]) next := by
  obtain ⟨slots, count⟩ := table
  obtain ⟨k, v⟩ := row
  obtain ⟨groups, placed, counted, load, large⟩ := agrees
  simp only at groups placed counted load large
  have inside : groupSlot k (slots.length - 1) < slots.length := groupSlot_lt k _ (by omega)
  obtain ⟨free, room, empty⟩ := free_slot slots (by omega)
  obtain ⟨slot, found⟩ := search_ends (fun entry => entry.1 == k) inside room empty
  have size := groups.length
  cases holds : cell slots slot with
  | some entry =>
    obtain ⟨key, old⟩ := entry
    obtain ⟨-, -, stops, -⟩ := search_path _ _ inside found
    have same : key = k := by simpa using stops (key, old) holds
    subst same
    obtain ⟨others, before, held⟩ := contents_replace _ _ _ _ holds
    have groups' := groups.again _ v _ before held
    have same : (contents (slots.set slot (some (key, combine old v)))).length = (contents slots).length := by
      rw [held.length_eq, before.length_eq, length_cons, length_cons]
    have size' := groups'.length
    rw [if_neg (by omega)]
    refine ⟨⟨slots.set slot (some (key, combine old v)), count⟩, ?_, groups', ?_, ?_, ?_, ?_⟩
    · simp only [hashRow, found, holds]
    · simpa using placed.replace _ _ (key, combine old v) holds rfl
    · rw [counted, same]
    · simpa using load
    · simpa using large
  | none =>
    have absent := placed.absent _ k (fun entry => by simp) _ _ inside found holds
    obtain ⟨placed', held⟩ := placed.search_put (k, v) _ slot inside found holds absent
    have groups' := groups.first k v absent held
    have size' := groups'.length
    have grown := held.length_eq
    rw [length_cons] at grown
    split_ifs with full
    · simp only [hashRow, found, holds, show count + 1 > cap by omega, ↓reduceIte]
    have fits : ¬ count + 1 > cap := by omega
    by_cases loaded : count + 1 > slots.length / 4 * 3
    · have few := distinct_le_length (rows ++ [(k, v)])
      have prefixed := within.length_le
      obtain ⟨next, run, agrees⟩ := grow_agrees _ _ (count + 1) groups'
        (by omega) (by rw [length_set]; omega) (by rw [length_set]; omega)
        (by rw [length_set]; omega)
      exact ⟨next, by simp only [hashRow, found, holds, fits, loaded, ↓reduceIte, run], agrees⟩
    · refine ⟨⟨slots.set slot (some (k, v)), count + 1⟩, ?_, groups', ?_, ?_, ?_, ?_⟩
      · simp only [hashRow, found, holds, fits, loaded, ↓reduceIte]
      · simpa using placed'
      · rw [grown, counted]
      · simp only [length_set]
        omega
      · simpa using large

/-- The groups of all rows, or the refusal when they are too many. -/
def Emits (rows : List Entry) (result : Except Stop (List Entry)) : Prop :=
  if cap < distinct rows then result = .error .minusOne
  else ∃ entries, result = .ok entries ∧ Groups combine rows entries

theorem hashAgg_emits (short : rows.length < 2 ^ 60) :
    Emits cap combine rows (hashAgg cap combine rows) := by
  have start : TableAgrees combine [] ⟨List.replicate 16 none, 0⟩ := by
    refine ⟨?_, placed_empty _, ?_, Nat.zero_le _, Nat.le_refl _⟩
    · exact groups_nil
    · rfl
  have run := run_bounded _ _ _ _
    (fun done row table within agrees below => hashRow_keeps cap _ _ short within agrees below)
    rows [] _ (by simp) start (Nat.zero_le _)
  rw [nil_append] at run
  rw [Emits, hashAgg]
  split_ifs at run ⊢
  · rw [run]
  · obtain ⟨table, done, agrees⟩ := run
    rw [done]
    exact ⟨_, rfl, agrees.groups⟩

end Hash

/-- The range covers what it started from and all keys, and is narrow. -/
def Covers (limit : Int) (keys : List Int64) (kmin kmax : Int64) (range : KeyRange) : Prop :=
  range.kmin.toInt ≤ kmin.toInt ∧ kmax.toInt ≤ range.kmax.toInt ∧
    range.kmax.toInt - range.kmin.toInt < limit ∧
    ∀ k ∈ keys, range.kmin.toInt ≤ k.toInt ∧ k.toInt ≤ range.kmax.toInt

theorem Covers.cons {limit : Int} {rest : List Int64} {kmin kmax kmin' kmax' k : Int64} {range : KeyRange}
    (covers : Covers limit rest kmin' kmax' range) (low : kmin'.toInt ≤ kmin.toInt)
    (high : kmax.toInt ≤ kmax'.toInt) (inside : kmin'.toInt ≤ k.toInt ∧ k.toInt ≤ kmax'.toInt) :
    Covers limit (k :: rest) kmin kmax range := by
  obtain ⟨below, above, narrow, others⟩ := covers
  refine ⟨by omega, by omega, narrow, ?_⟩
  rintro other (_ | ⟨_, later⟩)
  · omega
  · exact others other later

theorem preScan_covers (keys : List Int64) (kmin kmax : Int64)
    (ordered : kmin.toInt ≤ kmax.toInt) (narrow : kmax.toInt - kmin.toInt < limit)
    (dense : (preScan limit keys kmin kmax).dense = true) :
    Covers limit keys kmin kmax (preScan limit keys kmin kmax) := by
  induction keys generalizing kmin kmax with
  | nil => exact ⟨Int.le_refl _, Int.le_refl _, narrow, by simp⟩
  | cons k rest ih =>
    simp only [preScan, gt_iff_lt, Int64.lt_iff_toInt_lt] at dense ⊢
    split_ifs at dense ⊢
    · exact (ih k kmax (by omega) (by omega) dense).cons (by omega) (by omega) (by omega)
    · exact (ih kmin k (by omega) (by omega) dense).cons (by omega) (by omega) (by omega)
    · exact (ih kmin kmax ordered narrow dense).cons (by omega) (by omega) (by omega)

theorem asUsize_sub (k kmin : Int64) (above : kmin.toInt ≤ k.toInt)
    (near : k.toInt - kmin.toInt < 2 ^ 63) : asUsize (k - kmin) = (k.toInt - kmin.toInt).toNat := by
  have wrap := Int64.toInt_sub k kmin
  have exactly : (k - kmin).toInt = k.toInt - kmin.toInt := by
    rw [wrap]
    exact Int.bmod_eq_of_le (by omega) (by omega)
  have bits : (k - kmin).toInt = _ := BitVec.toInt_eq_toNat_cond (k - kmin).toBitVec
  change (k - kmin).toBitVec.toNat = _
  split at bits <;> omega

theorem slot_key (k kmin : Int64) : kmin + Int64.ofNat (asUsize (k - kmin)) = k := by
  have restore : Int64.ofNat (asUsize (k - kmin)) = k - kmin := by
    rw [← Int64.toBitVec_inj]
    simp [asUsize]
  rw [restore, Int64.add_comm, Int64.sub_add_cancel]

theorem slot_injective {kmin : Int64} (small : s < 2 ^ 64) (small' : t < 2 ^ 64)
    (same : kmin + Int64.ofNat s = kmin + Int64.ofNat t) : s = t := by
  have value : ∀ n < 2 ^ 64, (Int64.ofNat n).toBitVec.toNat = n := by
    intro n bound
    exact (BitVec.toNat_ofNat n 64).trans (Nat.mod_eq_of_lt bound)
  have equal := (Int64.add_right_inj kmin).mp same
  rw [← value s small, equal, value t small']

theorem cell_labelled (kmin : Int64) (acc : List (Option Int64)) (s : Nat) :
    cell (labelled kmin acc) s = (cell acc s).map fun v => (kmin + Int64.ofNat s, v) := by
  simp only [cell, labelled, getD_eq_getElem?_getD, getElem?_mapIdx]
  cases acc[s]? <;> rfl

theorem labelled_set (kmin : Int64) (acc : List (Option Int64)) (s : Nat) (v : Int64) :
    labelled kmin (acc.set s (some v)) = (labelled kmin acc).set s (some (kmin + Int64.ofNat s, v)) := by
  simp [labelled, mapIdx_set]

section Dense
variable (combine : Int64 → Int64 → Int64) (kmin : Int64) (slots : Nat)

structure DenseAgrees (rows : List Entry) (state : List (Option Int64) × Nat) : Prop where
  groups : Groups combine rows (contents (labelled kmin state.1))
  counted : state.2 = (contents (labelled kmin state.1)).length
  long : state.1.length = slots

theorem denseRow_keeps (row : Entry) (inside : asUsize (row.1 - kmin) < slots) (small : slots < 2 ^ 64)
    (agrees : DenseAgrees combine kmin slots rows state) (below : distinct rows ≤ cap) :
    if cap < distinct (rows ++ [row]) then denseRow cap combine kmin state row = .error .minusOne
    else ∃ next, denseRow cap combine kmin state row = .ok next ∧
      DenseAgrees combine kmin slots (rows ++ [row]) next := by
  obtain ⟨acc, count⟩ := state
  obtain ⟨k, v⟩ := row
  obtain ⟨groups, counted, long⟩ := agrees
  simp only at groups counted long inside
  have key := slot_key k kmin
  have size := groups.length
  unfold denseRow
  simp only
  generalize asUsize (k - kmin) = idx at inside key ⊢
  have length' : (labelled kmin acc).length = slots := by rw [labelled, length_mapIdx, long]
  cases holds : cell acc idx with
  | some old =>
    have entry : cell (labelled kmin acc) idx = some (k, old) := by rw [cell_labelled, holds, Option.map_some, key]
    obtain ⟨others, before, held⟩ := contents_replace _ _ _ _ entry
    have groups' := groups.again k v _ before held
    have size' := groups'.length
    have same := held.length_eq.trans before.length_eq.symm
    rw [if_neg (by omega)]
    refine ⟨_, rfl, ?_, ?_, ?_⟩
    · rw [labelled_set, key]
      exact groups'
    · rw [labelled_set, key, counted]
      exact same.symm
    · exact (length_set).trans long
  | none =>
    have unlabelled : cell (labelled kmin acc) idx = none := by rw [cell_labelled, holds, Option.map_none]
    have absent : ∀ entry ∈ contents (labelled kmin acc), entry.1 ≠ k := by
      intro entry member same
      obtain ⟨s, found⟩ := (mem_contents _ _).mp member
      have within := cell_inside _ found
      have label := found
      rw [cell_labelled] at label
      obtain ⟨w, -, rfl⟩ := Option.map_eq_some_iff.mp label
      have here := slot_injective (by omega) (by omega) (same.trans key.symm)
      rw [here, unlabelled] at found
      cases found
    have held := contents_put _ _ (k, v) (by omega) unlabelled
    have groups' := groups.first k v absent held
    have size' := groups'.length
    have grown := held.length_eq
    rw [length_cons] at grown
    by_cases full : cap < distinct (rows ++ [(k, v)])
    · rw [if_pos full, if_pos (by omega)]
    rw [if_neg full, if_neg (by omega)]
    refine ⟨_, rfl, ?_, ?_, ?_⟩
    · rw [labelled_set, key]
      exact groups'
    · rw [labelled_set, key, counted]
      exact grown.symm
    · exact (length_set).trans long

end Dense

theorem denseAgg_emits (cap : Nat) (combine : Int64 → Int64 → Int64) (kmin : Int64) (rows : List Entry)
    (span : 0 ≤ kmax.toInt - kmin.toInt ∧ kmax.toInt - kmin.toInt < 2 ^ 60)
    (inside : ∀ row ∈ rows, kmin.toInt ≤ row.1.toInt ∧ row.1.toInt ≤ kmax.toInt) :
    Emits cap combine rows (denseAgg cap combine kmin kmax rows) := by
  have top := asUsize_sub kmax kmin (by omega) (by omega)
  have empty : contents (labelled kmin (List.replicate (asUsize (kmax - kmin) + 1) none)) = [] := by
    rw [eq_nil_iff_forall_not_mem]
    intro entry member
    obtain ⟨s, found⟩ := (mem_contents _ _).mp member
    have blank : cell (List.replicate (asUsize (kmax - kmin) + 1) (none : Option Int64)) s = none := by
      simp only [cell, getD_eq_getElem?_getD, getElem?_replicate]
      split <;> rfl
    rw [cell_labelled, blank] at found
    cases found
  have start : DenseAgrees combine kmin (asUsize (kmax - kmin) + 1) []
    (List.replicate (asUsize (kmax - kmin) + 1) none, 0) := by
    refine ⟨?_, ?_, length_replicate⟩
    · rw [empty]
      exact groups_nil
    · rw [empty]
      rfl
  have run := run_bounded (denseRow cap combine kmin) _
    _ _ (fun done row state within agrees below => by
      have member : row ∈ rows := within.subset (by simp)
      have range := inside row member
      have place := asUsize_sub row.1 kmin (by omega) (by omega)
      exact denseRow_keeps _ _ _ row (by omega) (by omega) agrees below)
    rows [] _ (by simp) start (Nat.zero_le _)
  rw [nil_append] at run
  rw [Emits, denseAgg]
  split_ifs at run ⊢
  · rw [run]
  · obtain ⟨state, done, agrees⟩ := run
    rw [done]
    exact ⟨_, rfl, agrees.groups⟩

theorem groupAgg_emits {keys : List Int64} {cap : Int} (perRow : Nat → Int64)
    (combine : Int64 → Int64 → Int64) (capacity : 0 ≤ cap) (slice : keys.length < 2 ^ 60) :
    Emits cap.toNat combine (rowsOf keys perRow) (groupAggI64 keys cap perRow combine) := by
  cases keys with
  | nil => exact ⟨[], rfl, groups_nil⟩
  | cons first rest =>
    have short : (rowsOf (first :: rest) perRow).length < 2 ^ 60 := by
      rwa [rowsOf, length_mapIdx]
    rw [groupAggI64, if_neg (Int.not_lt.mpr capacity)]
    simp only
    split
    case isTrue dense =>
      have covers := preScan_covers _ _ _ (Int.le_refl _) (by rw [length_cons]; omega) dense
      obtain ⟨low, high, narrow, others⟩ := covers
      apply denseAgg_emits
      · omega
      · intro row member
        obtain ⟨i, inside, rfl⟩ := mem_mapIdx.mp member
        have key := getElem_mem inside
        rcases mem_cons.mp key with same | later
        · simp only [same]
          omega
        · exact others _ later
    case isFalse => exact hashAgg_emits _ _ short

/-- Grouping is exact on either path: `-1` when there are more distinct keys than
the output holds, otherwise each key once with the fold of its values. -/
theorem group_agg_exact (keys : List Int64) (cap : Int) (perRow : Nat → Int64)
    (combine : Int64 → Int64 → Int64) (capacity : 0 ≤ cap) (slice : keys.length < 2 ^ 60) :
    (cap < distinct (rowsOf keys perRow) →
      groupAggI64 keys cap perRow combine = .error .minusOne) ∧
    (distinct (rowsOf keys perRow) ≤ cap →
      ∃ entries, groupAggI64 keys cap perRow combine = .ok entries ∧ (entries.map Prod.fst).Nodup ∧
        ∀ k v, (k, v) ∈ entries ↔ groupValue combine (rowsOf keys perRow) k = some v) := by
  have emits := groupAgg_emits perRow combine capacity slice
  unfold Emits at emits
  constructor
  · intro beyond
    rwa [if_pos (by omega)] at emits
  · intro within
    rw [if_neg (by omega)] at emits
    obtain ⟨entries, result, groups⟩ := emits
    exact ⟨entries, result, groups.nodup, groups.exact⟩

/-- Both extremes of the key range and a repeated key, under subtraction. -/
theorem group_agg_extremes :
    ∃ entries, groupAggI64 [Int64.minValue, Int64.maxValue, Int64.minValue] 2 (fun i => Int64.ofNat (i + 1))
        (fun acc v => acc - v) = .ok entries ∧ (Int64.minValue, -2) ∈ entries ∧ (Int64.maxValue, 2) ∈ entries := by
  obtain ⟨entries, result, -, holds⟩ := (group_agg_exact [Int64.minValue, Int64.maxValue, Int64.minValue] 2
    (fun i => Int64.ofNat (i + 1)) (fun acc v => acc - v) (by decide) (by decide)).2 (by decide)
  exact ⟨entries, result, (holds _ _).mpr (by decide), (holds _ _).mpr (by decide)⟩

end Align.GroupAgg
