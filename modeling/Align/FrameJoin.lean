import Align.Chains

/-! The bounded inner join of two key columns. The right rows are indexed in
buckets of their hashes, each bucket a chain in row order; the left rows then
walk the chain of their bucket, once to count the matches against the limit and
once to write them. The result is the nested-loop join whatever the hash. Row
numbers fit `usize` and `i64`, both of 64 bits. -/
namespace Align.FrameJoin
open Chains List Option

def usizeLimit : Nat := 2 ^ 64

def i64Max : Nat := 2 ^ 63 - 1

/-- A `usize` result, or nothing on overflow. -/
def checked (n : Nat) : Option Nat := if n < usizeLimit then some n else none

def nextPowerOfTwo (n : Nat) : Nat := 2 ^ Nat.clog 2 n

def frameIndexCapacity (rightRows : Nat) : Option Nat := do
  let third ← checked (rightRows / 3 + if rightRows % 3 = 0 then 0 else 1)
  let sum ← checked (rightRows + third)
  let requested := max sum 8
  let capacity ← checked (nextPowerOfTwo requested)
  let table ← checked (capacity * 16)
  let links ← checked (rightRows * 8)
  let scratchBytes ← checked (table + links)
  if requested ≤ i64Max ∧ capacity ≤ i64Max ∧ scratchBytes ≤ i64Max then some capacity else none

def frameBucket (hash : UInt64) (capacity : Nat) : Nat := hash.toNat &&& (capacity - 1)

/-! The index. `none` stands for the `-1` of an empty entry. -/

structure Index where
  heads : List (Option Nat)
  tails : List (Option Nat)
  next : List (Option Nat)

def entry (table : List (Option Nat)) (i : Nat) : Option Nat := table.getD i none

/-- Put a row at the end of its bucket's chain; nothing when the bucket has a
head but no tail, where the source aborts. -/
def insertRight (bucket : Nat) (index : Index) (right : Nat) : Option Index :=
  match entry index.heads bucket with
  | none =>
      some { index with heads := index.heads.set bucket (some right),
                        tails := index.tails.set bucket (some right) }
  | some _ =>
      match entry index.tails bucket with
      | none => none
      | some tail =>
          some { index with next := index.next.set tail (some right),
                            tails := index.tails.set bucket (some right) }

def emptyIndex (capacity rightRows : Nat) : Index :=
  ⟨List.replicate capacity none, List.replicate capacity none, List.replicate rightRows none⟩

section Join
variable (leftRows rightRows : Nat) (leftBucket rightBucket : Nat → Nat) (equal : Nat → Nat → Bool)

def buildIndex (capacity : Nat) : Option Index :=
  (List.range rightRows).foldlM (fun index right => insertRight (rightBucket right) index right)
    (emptyIndex capacity rightRows)

/-- Every left row against the chain of its bucket; matches are visited. -/
def forEachMatch {σ : Type} (index : Index) (visit : Nat → Nat → σ → Except Unit σ) :
    List Nat → σ → Option (Except Unit σ)
  | [], state => some (.ok state)
  | left :: rest, state =>
      match walk (entry index.next)
          (fun right state => if equal left right then visit left right state else .ok state)
          (rightRows + 1) (entry index.heads (leftBucket left)) state with
      | none => none
      | some (.error stop) => some (.error stop)
      | some (.ok state) => forEachMatch index visit rest state

/-- The counting pass stops at the first match beyond the limit. -/
def countMatch (maxPairs : Int) (_ _ : Nat) (count : Nat) : Except Unit Nat :=
  if (count : Int) ≥ maxPairs then .error ()
  else if count + 1 > i64Max then .error ()
  else .ok (count + 1)

def writeMatch (expected : Nat) (left right : Nat) (written : List (Nat × Nat)) :
    Except Unit (List (Nat × Nat)) :=
  if written.length ≥ expected then .error () else .ok (written ++ [(left, right)])

end Join

inductive Outcome where
  | pairs (rows : List (Nat × Nat))
  | limitExceeded
  | abort
deriving DecidableEq, Repr

/-- `none` would be a chain that does not end. Without a match the output stays
the empty view the caller has put there. -/
def frameInnerJoinImpl (leftRows rightRows : Nat) (maxPairs : Int) (leftHash rightHash : Nat → UInt64)
    (equal : Nat → Nat → Bool) : Option Outcome :=
  if rightRows = 0 then some (.pairs [])
  else match frameIndexCapacity rightRows with
    | none => some .limitExceeded
    | some capacity =>
        let leftBucket := fun left => frameBucket (leftHash left) capacity
        match buildIndex rightRows (fun right => frameBucket (rightHash right) capacity) capacity with
        | none => some .abort
        | some index =>
            match forEachMatch rightRows leftBucket equal index (countMatch maxPairs)
                (List.range leftRows) 0 with
            | none => none
            | some (.error _) => some .limitExceeded
            | some (.ok count) =>
                if count * 16 > i64Max then some .limitExceeded
                else if count = 0 then some (.pairs [])
                else match forEachMatch rightRows leftBucket equal index (writeMatch count)
                    (List.range leftRows) [] with
                  | none => none
                  | some (.error _) => some .abort
                  | some (.ok written) =>
                      if written.length ≠ count then some .abort else some (.pairs written)

def matchesOf (rightRows : Nat) (equal : Nat → Nat → Bool) (left : Nat) : List (Nat × Nat) :=
  ((List.range rightRows).filter (equal left)).map fun right => (left, right)

def nestedLoopJoin (leftRows rightRows : Nat) (equal : Nat → Nat → Bool) : List (Nat × Nat) :=
  (List.range leftRows).flatMap (matchesOf rightRows equal)

theorem entry_set (i : Nat) (value : Option Nat) (inside : i < table.length) :
    entry (table.set i value) = Function.update (entry table) i value := by
  funext j
  by_cases same : j = i
  · subst same
    simp [entry, inside]
  · rw [Function.update_of_ne same]
    simp [entry, getElem?_set_ne (Ne.symm same)]

theorem entry_replicate (count i : Nat) : entry (List.replicate count none) i = none := by
  simp only [entry, getD_eq_getElem?_getD, getElem?_replicate]
  split <;> rfl

section Build
variable (bucket : Nat → Nat)

/-- The rows below `k` in bucket `b`, in order. -/
def rowsOf (k b : Nat) : List Nat := (List.range k).filter fun row => bucket row = b

theorem rowsOf_succ (k b : Nat) :
    rowsOf bucket (k + 1) b = rowsOf bucket k b ++ if bucket k = b then [k] else [] := by
  rw [rowsOf, range_succ, filter_append, ← rowsOf]
  congr 1
  by_cases same : bucket k = b <;> simp [same]

theorem rowsOf_mem (member : row ∈ rowsOf bucket k b) : row < k ∧ bucket row = b := by
  simpa [rowsOf] using member

theorem rowsOf_nodup (k b : Nat) : (rowsOf bucket k b).Nodup := nodup_range.filter _

/-- The index over the rows below `k`: each bucket's chain holds its rows in
order, its tail is the last of them, and no later row is linked yet. -/
structure Built (capacity rightRows k : Nat) (index : Index) : Prop where
  heads_length : index.heads.length = capacity
  tails_length : index.tails.length = capacity
  next_length : index.next.length = rightRows
  chain : ∀ b, Threads (entry index.next) (entry index.heads b) (rowsOf bucket k b)
  tail : ∀ b, entry index.tails b = (rowsOf bucket k b).getLast?
  fresh : ∀ row, k ≤ row → entry index.next row = none

theorem built_empty (rightRows : Nat) : Built bucket capacity rightRows 0 (emptyIndex capacity rightRows) := by
  refine ⟨length_replicate, length_replicate, length_replicate, ?_, ?_, ?_⟩
  · intro b
    rw [emptyIndex, entry_replicate]
    exact Threads.nil
  · intro b
    exact entry_replicate _ b
  · intro row _
    exact entry_replicate _ _

theorem insertRight_built {capacity rightRows k : Nat} (inside : k < rightRows)
    (within : bucket k < capacity) (built : Built bucket capacity rightRows k index) :
    ∃ index', insertRight (bucket k) index k = some index' ∧ Built bucket capacity rightRows (k + 1) index' := by
  have chain := built.chain (bucket k)
  have tails : ∀ b, entry (index.tails.set (bucket k) (some k)) b = (rowsOf bucket (k + 1) b).getLast? := by
    intro b
    rw [entry_set _ _ (by rw [built.tails_length]; exact within), rowsOf_succ]
    by_cases same : b = bucket k
    · simp [same]
    · rw [Function.update_of_ne same, if_neg (Ne.symm same), append_nil]
      exact built.tail b
  cases head : entry index.heads (bucket k) with
  | none =>
    have unused : rowsOf bucket k (bucket k) = [] := by
      rw [head] at chain
      exact chain.eq_nil
    refine ⟨⟨index.heads.set (bucket k) (some k), index.tails.set (bucket k) (some k), index.next⟩,
      by simp [insertRight, head], ?_, ?_, built.next_length, ?_, tails, ?_⟩
    · rw [length_set, built.heads_length]
    · rw [length_set, built.tails_length]
    · intro b
      rw [entry_set _ _ (by rw [built.heads_length]; exact within), rowsOf_succ]
      by_cases same : b = bucket k
      · subst same
        rw [Function.update_self, unused, if_pos rfl]
        apply Threads.cons
        rw [built.fresh k (Nat.le_refl k)]
        exact Threads.nil
      · rw [Function.update_of_ne same, if_neg (Ne.symm same), append_nil]
        exact built.chain b
    · intro row later
      exact built.fresh row (Nat.le_of_succ_le later)
  | some first =>
    rw [head] at chain
    obtain ⟨last, found⟩ := isSome_iff_exists.mp (getLast?_isSome.mpr chain.ne_nil)
    have split := dropLast_append_getLast? last found
    generalize (rowsOf bucket k (bucket k)).dropLast = front at split
    have marked : entry index.tails (bucket k) = some last := (built.tail (bucket k)).trans found
    have member : last ∈ rowsOf bucket k (bucket k) := split ▸ mem_append_right front (mem_singleton_self last)
    obtain ⟨earlier, home⟩ := rowsOf_mem _ member
    have once : last ∉ front := by
      have distinct := rowsOf_nodup bucket k (bucket k)
      rw [← split, nodup_append] at distinct
      exact fun early => distinct.2.2 last early last (mem_singleton_self last) rfl
    have link := entry_set last (some k) (by rw [built.next_length]; omega)
    refine ⟨⟨index.heads, index.tails.set (bucket k) (some k), index.next.set last (some k)⟩,
      by simp [insertRight, head, marked], built.heads_length, ?_, ?_, ?_, tails, ?_⟩
    · rw [length_set, built.tails_length]
    · rw [length_set, built.next_length]
    · intro b
      rw [link, rowsOf_succ]
      by_cases same : b = bucket k
      · subst same
        rw [if_pos rfl, ← split, append_assoc, head]
        exact Threads.extend (split ▸ chain) once (built.fresh k (Nat.le_refl k)) (by omega)
      · rw [if_neg (Ne.symm same), append_nil]
        refine (built.chain b).congr fun row inChain => Function.update_of_ne ?_ _ _
        rintro rfl
        exact same ((rowsOf_mem _ inChain).2.symm.trans home)
    · intro row later
      rw [link, Function.update_of_ne (by omega)]
      exact built.fresh row (Nat.le_of_succ_le later)

theorem buildIndex_built (rightRows : Nat) (within : ∀ row, bucket row < capacity) :
    ∃ index, buildIndex rightRows bucket capacity = some index ∧
      Built bucket capacity rightRows rightRows index := by
  have upTo : ∀ k ≤ rightRows, ∃ index,
    (List.range k).foldlM (fun index right => insertRight (bucket right) index right)
      (emptyIndex capacity rightRows) = some index ∧ Built bucket capacity rightRows k index := by
    intro k
    induction k with
    | zero =>
      intro _
      exact ⟨_, rfl, built_empty _ _⟩
    | succ k ih =>
      intro inside
      obtain ⟨index, run, built⟩ := ih (Nat.le_of_succ_le inside)
      obtain ⟨index', step, built'⟩ :=
        insertRight_built _ inside (within k) built
      refine ⟨index', ?_, built'⟩
      rw [range_succ, foldlM_append, run]
      simp [step]
  exact upTo rightRows (Nat.le_refl _)

end Build

section Matches
variable (leftRows : Nat) (leftBucket rightBucket : Nat → Nat) (equal : Nat → Nat → Bool)
   (built : Built rightBucket capacity rightRows rightRows index)
  (agree : ∀ left right, equal left right = true → leftBucket left = rightBucket right)
include built agree

theorem forEachMatch_pairs (visit : Nat → Nat → σ → Except Unit σ) (lefts : List Nat) (state : σ) :
    forEachMatch rightRows leftBucket equal index visit lefts state =
      some ((lefts.flatMap (matchesOf rightRows equal)).foldlM
        (fun state pair => visit pair.1 pair.2 state) state) := by
  induction lefts generalizing state with
  | nil => rfl
  | cons left rest ih =>
    have rows : (rowsOf rightBucket rightRows (leftBucket left)).filter (equal left) =
      (List.range rightRows).filter (equal left) := by
      rw [rowsOf, List.filter_filter]
      apply filter_congr
      intro right _
      by_cases same : equal left right = true
      · simp [same, agree left right same]
      · simp [same]
    have short : (rowsOf rightBucket rightRows (leftBucket left)).length ≤ rightRows + 1 := by
      have fewer := length_filter_le (fun row => decide (rightBucket row = leftBucket left)) (List.range rightRows)
      rw [length_range] at fewer
      exact Nat.le_succ_of_le fewer
    rw [forEachMatch, walk_threads _ _ _ (built.chain (leftBucket left)) _ short, flatMap_cons,
      foldlM_append, matchesOf, foldlM_map, ← rows, foldlM_filter]
    have same : (rowsOf rightBucket rightRows (leftBucket left)).foldlM
      (fun state right => if equal left right = true then visit left right state else .ok state) state =
      (rowsOf rightBucket rightRows (leftBucket left)).foldlM
      (fun state right => if equal left right = true then visit left right state else pure state) state := rfl
    rw [same]
    cases (rowsOf rightBucket rightRows (leftBucket left)).foldlM
      (fun state right => if equal left right = true then visit left right state else pure state) state with
    | error stop => rfl
    | ok next => exact ih next

end Matches

theorem count_pairs (maxPairs : Int) (pairs : List (Nat × Nat)) (count : Nat)
    (below : count ≤ maxPairs.toNat) (fits : count ≤ i64Max) :
    pairs.foldlM (fun count pair => countMatch maxPairs pair.1 pair.2 count) count =
      if count + pairs.length ≤ maxPairs.toNat ∧ count + pairs.length ≤ i64Max
      then .ok (count + pairs.length) else .error () := by
  induction pairs generalizing count with
  | nil => simp [below, fits, pure, Except.pure]
  | cons pair rest ih =>
    rw [foldlM_cons, countMatch, length_cons]
    have beyond (stops : (count : Int) ≥ maxPairs ∨ count + 1 > i64Max) :
      ¬ (count + (rest.length + 1) ≤ maxPairs.toNat ∧ count + (rest.length + 1) ≤ i64Max) := by omega
    by_cases full : (count : Int) ≥ maxPairs
    · rw [if_pos full, if_neg (beyond (.inl full))]
      rfl
    · by_cases wide : count + 1 > i64Max
      · rw [if_neg full, if_pos wide, if_neg (beyond (.inr wide))]
        rfl
      · rw [if_neg full, if_neg wide]
        have next := ih (count + 1) (by omega) (by omega)
        rw [Nat.add_assoc, Nat.add_comm 1] at next
        exact next

theorem write_pairs (expected : Nat) (pairs written : List (Nat × Nat))
    (fits : written.length + pairs.length ≤ expected) :
    pairs.foldlM (fun written pair => writeMatch expected pair.1 pair.2 written) written =
      .ok (written ++ pairs) := by
  induction pairs generalizing written with
  | nil => simp [pure, Except.pure]
  | cons pair rest ih =>
    rw [length_cons] at fits
    have room : ¬ written.length ≥ expected := by omega
    rw [foldlM_cons, writeMatch, if_neg room]
    have next := ih (written ++ [pair]) (by rw [length_append]; simp; omega)
    rw [append_assoc] at next
    exact next

theorem checked_some (n : Nat) (fits : n < usizeLimit) : checked n = some n := if_pos fits

theorem capacity_some (rightRows : Nat) (few : rightRows ≤ 3 * 2 ^ 56) :
    ∃ capacity, frameIndexCapacity rightRows = some capacity ∧ 0 < capacity := by
  have third : rightRows / 3 + (if rightRows % 3 = 0 then 0 else 1) ≤ 2 ^ 56 := by
    split <;> omega
  generalize amount : rightRows / 3 + (if rightRows % 3 = 0 then 0 else 1) = extra at third
  have requested : max (rightRows + extra) 8 ≤ 2 ^ 58 := by omega
  have capacity : nextPowerOfTwo (max (rightRows + extra) 8) ≤ 2 ^ 58 :=
    Nat.pow_le_pow_right (by decide) (Nat.clog_le_of_le_pow requested)
  refine ⟨nextPowerOfTwo (max (rightRows + extra) 8), ?_, Nat.two_pow_pos _⟩
  have limit : usizeLimit = 2 ^ 64 := rfl
  have most : i64Max = 2 ^ 63 - 1 := rfl
  simp only [frameIndexCapacity, amount, bind_eq_bind, bind_some, checked_some extra (by omega),
    checked_some (rightRows + extra) (by omega)]
  generalize nextPowerOfTwo (max (rightRows + extra) 8) = size at capacity
  simp only [bind_some, checked_some size (by omega), checked_some (size * 16) (by omega),
    checked_some (rightRows * 8) (by omega), checked_some (size * 16 + rightRows * 8) (by omega)]
  exact if_pos (by omega)

theorem capacity_none {rightRows : Nat} (many : 3 * 2 ^ 56 < rightRows) :
    frameIndexCapacity rightRows = none := by
  rw [eq_none_iff_forall_ne_some]
  intro capacity found
  simp only [frameIndexCapacity, checked, bind_eq_bind, bind_eq_some_iff, ite_none_right_eq_some,
    Option.some.injEq] at found
  obtain ⟨third, ⟨_, rfl⟩, sum, ⟨_, rfl⟩, size, ⟨_, rfl⟩, table, ⟨_, rfl⟩, links, ⟨_, rfl⟩, scratch, ⟨_, rfl⟩,
    ⟨_, _, fits⟩, _⟩ := found
  generalize extraEq : rightRows / 3 + (if rightRows % 3 = 0 then 0 else 1) = extra at *
  have large : 2 ^ 58 < max (rightRows + extra) 8 := by
    split at extraEq <;> omega
  have power : 58 < Nat.clog 2 (max (rightRows + extra) 8) := (Nat.lt_clog_iff_pow_lt (by decide)).mpr large
  have wide : 2 ^ 59 ≤ nextPowerOfTwo (max (rightRows + extra) 8) := Nat.pow_le_pow_right (by decide) power
  rw [i64Max] at fits
  omega

theorem bucket_lt (hash : UInt64) (positive : 0 < capacity) :
    frameBucket hash capacity < capacity :=
  Nat.lt_of_le_of_lt Nat.and_le_right (Nat.sub_lt positive Nat.one_pos)

/-- The join is the nested-loop join under its limit. The limit error also
reports an index or a result that would not fit the address space: more than
`3 * 2 ^ 56` right rows, or `2 ^ 59` pairs and more. -/
theorem join_nested_loop (leftRows rightRows : Nat) (maxPairs : Int) (leftHash rightHash : Nat → UInt64)
    (equal : Nat → Nat → Bool)
    (hashes : ∀ left right, equal left right = true → leftHash left = rightHash right) :
    frameInnerJoinImpl leftRows rightRows maxPairs leftHash rightHash equal =
      some (if rightRows ≤ 3 * 2 ^ 56 ∧
          (nestedLoopJoin leftRows rightRows equal).length ≤ maxPairs.toNat ∧
          (nestedLoopJoin leftRows rightRows equal).length < 2 ^ 59
        then .pairs (nestedLoopJoin leftRows rightRows equal) else .limitExceeded) := by
  by_cases none : rightRows = 0
  · have empty : nestedLoopJoin leftRows 0 equal = [] := by simp [nestedLoopJoin, matchesOf]
    simp [frameInnerJoinImpl, none, empty]
  by_cases many : 3 * 2 ^ 56 < rightRows
  · rw [frameInnerJoinImpl, if_neg none, capacity_none many, if_neg (by omega)]
  obtain ⟨capacity, found, positive⟩ := capacity_some rightRows (by omega)
  have within : ∀ row, frameBucket (rightHash row) capacity < capacity := fun row => bucket_lt _ positive
  obtain ⟨index, build, built⟩ := buildIndex_built _ rightRows within
  have agree : ∀ left right, equal left right = true →
    frameBucket (leftHash left) capacity = frameBucket (rightHash right) capacity := by
    intro left right same
    rw [hashes left right same]
  have visited : ∀ {σ : Type} (visit : Nat → Nat → σ → Except Unit σ) (state : σ),
    forEachMatch rightRows (fun left => frameBucket (leftHash left) capacity) equal index visit
      (List.range leftRows) state =
    some ((nestedLoopJoin leftRows rightRows equal).foldlM (fun state pair => visit pair.1 pair.2 state) state) :=
    fun visit => forEachMatch_pairs _ _ equal built agree visit (List.range leftRows)
  generalize nestedLoopJoin leftRows rightRows equal = pairs at visited
  have counted := count_pairs maxPairs pairs 0 (Nat.zero_le _) (Nat.zero_le _)
  have written := write_pairs pairs.length pairs [] (by simp)
  rw [Nat.zero_add] at counted
  have most : i64Max = 2 ^ 63 - 1 := rfl
  simp only [frameInnerJoinImpl, none, ↓reduceIte, found, build, visited, counted]
  by_cases small : pairs.length ≤ maxPairs.toNat ∧ pairs.length ≤ i64Max
  · rw [if_pos small]
    by_cases wide : pairs.length * 16 > i64Max
    · simp only [wide, ↓reduceIte]
      rw [if_neg (by omega)]
    have whole : rightRows ≤ 3 * 2 ^ 56 ∧ pairs.length ≤ maxPairs.toNat ∧ pairs.length < 2 ^ 59 := by
      omega
    simp only [wide, ↓reduceIte, written, nil_append, whole, and_self]
    by_cases empty : pairs = []
    · simp [empty]
    · simp [empty]
  · rw [if_neg small, if_neg (by omega)]

/-- Two left rows against four right rows, all in one bucket. -/
theorem join_nested_loop_example :
    frameInnerJoinImpl 2 4 3 (fun _ => 0) (fun _ => 0) (fun left right => left == right % 2 && right != 3) =
      some (.pairs [(0, 0), (0, 2), (1, 1)]) := by
  rw [join_nested_loop 2 4 3 _ _ _ (fun _ _ _ => rfl)]
  decide

/-- No left row, so no pair; but an index over `2 ^ 59` right rows would not fit. -/
theorem wide_right_column_refused :
    nestedLoopJoin 0 (2 ^ 59) (fun _ _ => false) = [] ∧
      frameInnerJoinImpl 0 (2 ^ 59) 0 (fun _ => 0) (fun _ => 0) (fun _ _ => false) = some .limitExceeded := by
  refine ⟨rfl, ?_⟩
  rw [frameInnerJoinImpl, if_neg (by decide), capacity_none (by decide)]

end Align.FrameJoin
