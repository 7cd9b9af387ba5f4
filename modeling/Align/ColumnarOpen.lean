import Align.ColumnarLayout

/-! The validator accepts exactly the envelopes. Its reads are restated as parts
that stand at known offsets, the descriptor table becomes a list of descriptors,
and each stage a loop over that list; soundness and completeness of the packed
topology are then two inductions along the cursors. -/
namespace Align.Columnar
open Codec Segments MergePasses List Option

variable {input : Bytes}

theorem codecReadWord_iff {width : Nat} (positive : 0 < width) (offset n : Nat) :
    codecReadWord width input offset = some n ↔ n < 256 ^ width ∧ At input offset (toLe width n) := by
  rw [codecReadWord, ite_none_right_eq_some, Option.some.injEq]
  constructor
  · rintro ⟨inside, rfl⟩
    have size := slice_length _ offset inside
    rw [Nat.add_sub_cancel_left] at size
    have bound := ofLe_lt (slice input offset (offset + width))
    have bytes := toLe_ofLe (slice input offset (offset + width))
    rw [size] at bound bytes
    rw [bytes]
    exact ⟨bound, at_slice _ _ inside⟩
  · rintro ⟨small, here⟩
    have size := toLe_length width n
    have inside := here.bound (ne_nil_of_length_pos (by omega))
    rw [size] at inside
    exact ⟨inside, by rw [here.slice (by rw [size]), ofLe_toLe n small]⟩

theorem codecZero_iff (start stop : Nat) :
    codecZero input start stop = true ↔
      start ≤ stop ∧ stop ≤ input.length ∧ At input start (zeros (stop - start)) := by
  rw [codecZero, Bool.and_eq_true, Bool.and_eq_true, decide_eq_true_iff, decide_eq_true_iff, and_assoc]
  refine and_congr_right fun _ => and_congr_right fun inside => ?_
  have size := slice_length _ start inside
  have same : (slice input start stop).all (· == 0) = true ↔ slice input start stop = zeros (stop - start) := by
    rw [zeros, eq_replicate_iff, List.all_eq_true]
    simp [size]
  rw [At, zeros_length]
  exact same

theorem byte_iff (index : Nat) (b : UInt8) : input[index]? = some b ↔ At input index [b] := by
  rw [At, length_singleton, take_one, head?_drop, toList_eq_singleton_iff]

theorem codecUsize_iff (n m : Nat) : codecUsize n = some m ↔ n = m ∧ m < 2 ^ 63 := by
  rw [codecUsize, ite_none_right_eq_some, Option.some.injEq, and_comm]
  exact and_congr_right fun same => by rw [same]

theorem readUsize_iff (offset n : Nat) :
    (∃ m, codecReadU64 input offset = some m ∧ codecUsize m = some n) ↔ n < 2 ^ 63 ∧ At input offset (toLe 8 n) := by
  constructor
  · rintro ⟨m, read, word⟩
    rcases (codecUsize_iff m n).mp word with ⟨rfl, small⟩
    exact ⟨small, ((codecReadWord_iff (by decide) _ m).mp read).2⟩
  · rintro ⟨small, here⟩
    exact ⟨n, (codecReadWord_iff (by decide) _ n).mpr ⟨by omega, here⟩,
      (codecUsize_iff n n).mpr ⟨rfl, small⟩⟩

theorem fromTag_iff (tag : UInt8) (kind : CodecKind) :
    CodecKind.fromTag tag = some kind ↔ tag = kind.tag := by
  constructor
  · intro found
    unfold CodecKind.fromTag at found
    split_ifs at found with zero one two three
    all_goals
      cases found
      assumption
  · rintro rfl
    cases kind <;> rfl

/-- Every field of a descriptor fits the width it is stored in. -/
structure CodecDescriptor.Fits (d : CodecDescriptor) : Prop where
  nameOffset : d.nameOffset < 2 ^ 63
  nameLen : d.nameLen < 2 ^ 32
  dataOffset : d.dataOffset < 2 ^ 63
  dataLen : d.dataLen < 2 ^ 63
  auxOffset : d.auxOffset < 2 ^ 63
  auxLen : d.auxLen < 2 ^ 63

theorem at_descriptorBytes (base : Nat) (d : CodecDescriptor) :
    At input base (descriptorBytes d) ↔
      At input base (toLe 8 d.nameOffset) ∧ At input (base + 8) (toLe 4 d.nameLen) ∧
        At input (base + 12) [d.kind.tag] ∧ At input (base + 13) [0] ∧
        At input (base + 14) (zeros 2) ∧ At input (base + 16) (toLe 8 d.dataOffset) ∧
        At input (base + 24) (toLe 8 d.dataLen) ∧ At input (base + 32) (toLe 8 d.auxOffset) ∧
        At input (base + 40) (toLe 8 d.auxLen) := by
  have three : zeros 3 = [0] ++ zeros 2 := rfl
  simp only [descriptorBytes, dataHalf, three, List.append_assoc, at_append, toLe_length, zeros_length,
    length_cons, length_nil, Nat.add_assoc, Nat.reduceAdd]

theorem codecDescriptor_iff (ordinal : Nat) (d : CodecDescriptor) :
    codecDescriptor input ordinal = some d ↔
      d.Fits ∧ At input (namesStart ordinal) (descriptorBytes d) := by
  rw [at_descriptorBytes]
  generalize base_eq : namesStart ordinal = base
  have base' : codecHeaderLen + ordinal * codecDescriptorLen = base := base_eq
  have width : base + 16 - (base + 14) = 2 := by omega
  simp only [codecDescriptor, base', bind_eq_bind, bind_eq_some_iff, ite_none_left_eq_some, not_or, not_not,
    Bool.not_eq_false, byte_iff, fromTag_iff, readUsize_iff, codecReadU32,
    @codecReadWord_iff input 4 (by decide), codecZero_iff, width, Option.some.injEq]
  constructor
  · rintro ⟨kind, ⟨_, tag, rfl⟩, _, flags, ⟨rfl, _, _, reserved⟩, nameOffset, nameOffsetAt, nameLen,
      nameLenAt, dataOffset, dataOffsetAt, dataLen, dataLenAt, auxOffset, auxOffsetAt, auxLen, auxLenAt, rfl⟩
    exact ⟨⟨nameOffsetAt.1, nameLenAt.1, dataOffsetAt.1, dataLenAt.1, auxOffsetAt.1, auxLenAt.1⟩,
      nameOffsetAt.2, nameLenAt.2, tag, flags, reserved, dataOffsetAt.2, dataLenAt.2, auxOffsetAt.2, auxLenAt.2⟩
  · rintro ⟨fits, nameOffset, nameLen, tag, flags, reserved, dataOffset, dataLen, auxOffset, auxLen⟩
    have size := toLe_length 8 d.auxLen
    have inside := auxLen.bound (ne_nil_of_length_pos (by omega))
    exact ⟨d.kind, ⟨_, tag, rfl⟩, 0, flags, ⟨rfl, by omega, by omega, reserved⟩, _, ⟨fits.nameOffset, nameOffset⟩,
      _, ⟨fits.nameLen, nameLen⟩, _, ⟨fits.dataOffset, dataOffset⟩, _, ⟨fits.dataLen, dataLen⟩,
      _, ⟨fits.auxOffset, auxOffset⟩, _, ⟨fits.auxLen, auxLen⟩, rfl⟩

/-- The descriptors from ordinal `start` on. -/
def Table (input : Bytes) : Nat → List CodecDescriptor → Prop
  | _, [] => True
  | start, d :: rest => codecDescriptor input start = some d ∧ Table input (start + 1) rest

theorem namesStart_succ (ordinal : Nat) : namesStart (ordinal + 1) = namesStart ordinal + 48 := by
  rw [namesStart, namesStart, codecDescriptorLen]
  omega

theorem table_iff (start : Nat) (descriptors : List CodecDescriptor) :
    Table input start descriptors ↔
      (∀ d ∈ descriptors, d.Fits) ∧
        At input (namesStart start) (descriptors.flatMap descriptorBytes) := by
  induction descriptors generalizing start with
  | nil => simp [Table, at_nil]
  | cons d rest ih =>
    rw [Table, codecDescriptor_iff, ih, flatMap_cons, at_append, descriptorBytes_length, namesStart_succ,
      forall_mem_cons]
    constructor
    · rintro ⟨⟨fits, here⟩, others, later⟩
      exact ⟨⟨fits, others⟩, here, later⟩
    · rintro ⟨⟨fits, others⟩, here, later⟩
      exact ⟨⟨fits, here⟩, others, later⟩

variable {σ : Type} (step : σ → CodecDescriptor → Option σ) (start : Nat)
  (descriptors : List CodecDescriptor)

theorem table_loop (table : Table input start descriptors) (state : σ) :
    (List.range' start descriptors.length).foldlM
        (fun state ordinal => (codecDescriptor input ordinal).bind (step state)) state =
      descriptors.foldlM step state := by
  induction descriptors generalizing start state with
  | nil => rfl
  | cons d rest ih =>
    rcases table with ⟨here, later⟩
    rw [length_cons, range'_succ, foldlM_cons, foldlM_cons, here, bind_some]
    congr 1
    funext next
    exact ih (start + 1) later next

theorem loop_table (count : Nat) (state last : σ) (ran : (List.range' start count).foldlM
      (fun state ordinal => (codecDescriptor input ordinal).bind (step state)) state = some last) :
    ∃ descriptors, descriptors.length = count ∧ Table input start descriptors := by
  induction count generalizing start state with
  | zero => exact ⟨[], rfl, trivial⟩
  | succ count ih =>
    rcases bind_eq_some_iff.mp ran with ⟨next, one, rest⟩
    rcases bind_eq_some_iff.mp one with ⟨d, here, _⟩
    rcases ih (start + 1) next rest with ⟨descriptors, size, later⟩
    exact ⟨d :: descriptors, by rw [length_cons, size], here, later⟩

theorem eachDescriptor_eq (table : Table input 0 descriptors) (state : σ) :
    eachDescriptor input descriptors.length step state = descriptors.foldlM step state := by
  rw [eachDescriptor, range_eq_range']
  exact table_loop _ 0 _ table _

theorem checks_all (check : Unit → CodecDescriptor → Option Unit)
    (descriptors : List CodecDescriptor) (done : Unit) :
    descriptors.foldlM check () = some done ↔ ∀ d ∈ descriptors, check () d = some () := by
  induction descriptors with
  | nil => simp
  | cons d rest ih =>
    rw [foldlM_cons, forall_mem_cons, ← ih, bind_eq_bind, bind_eq_some_iff]
    exact ⟨fun ⟨_, both⟩ => both, fun both => ⟨(), both⟩⟩

def nameAt (input : Bytes) (ordinal : Nat) : Bytes :=
  ((codecDescriptor input ordinal).map (nameOf input)).getD []

def nameLe (input : Bytes) (i j : Nat) : Bool := decide (nameAt input i ≤ nameAt input j)

def Known (input : Bytes) (ordinal : Nat) : Prop := (codecDescriptor input ordinal).isSome = true

variable {d : CodecDescriptor}

theorem nameAt_eq (here : codecDescriptor input ordinal = some d) :
    nameAt input ordinal = nameOf input d := by
  rw [nameAt, here]
  rfl

theorem mergeRuns_eq (left right : List Nat) (lefts : ∀ i ∈ left, Known input i)
    (rights : ∀ i ∈ right, Known input i) :
    mergeRuns input left right = some (left.merge right (nameLe input)) := by
  match left, right with
  | [], right => rw [mergeRuns, nil_merge]
  | i :: left, [] =>
    rw [merge_right, mergeRuns]
    exact cons_ne_nil i left
  | i :: left, j :: right =>
    rcases isSome_iff_exists.mp (lefts i mem_cons_self) with ⟨d, here⟩
    rcases isSome_iff_exists.mp (rights j mem_cons_self) with ⟨e, there⟩
    have first := mergeRuns_eq _ _ (fun k member => lefts k (mem_cons_of_mem i member)) rights
    have second := mergeRuns_eq _ _ lefts fun k member => rights k (mem_cons_of_mem j member)
    rw [mergeRuns, here, there, bind_some, bind_some, cons_merge_cons, first, second, nameLe,
      nameAt_eq here, nameAt_eq there]
    by_cases before : nameOf input d ≤ nameOf input e
    · simp only [before, decide_true, ↓reduceIte, map_some]
    · simp only [before, decide_false, Bool.false_eq_true, ↓reduceIte, map_some]
termination_by left.length + right.length

theorem checkDistinct_iff (known : ∀ i ∈ ordinals, Known input i)
    (sorted : ordinals.Pairwise fun i j => nameLe input i j) :
    checkDistinct input ordinals = some () ↔ (ordinals.map (nameAt input)).Nodup := by
  match ordinals with
  | [] => simp [checkDistinct]
  | [i] => simp [checkDistinct]
  | i :: j :: rest =>
    rcases isSome_iff_exists.mp (known i mem_cons_self) with ⟨d, here⟩
    rcases isSome_iff_exists.mp (known j (mem_cons_of_mem i mem_cons_self)) with
      ⟨e, there⟩
    rcases pairwise_cons.mp sorted with ⟨below, later⟩
    have rest_iff := checkDistinct_iff (fun k member => known k (mem_cons_of_mem i member)) later
    rw [checkDistinct, here, there, bind_some, bind_some, ← nameAt_eq here, ← nameAt_eq there, map_cons,
      nodup_cons]
    by_cases same : nameAt input i = nameAt input j
    · rw [if_pos same]
      constructor
      · intro none
        cases none
      · rintro ⟨absent, _⟩
        exact absurd (List.mem_map.mpr ⟨j, mem_cons_self, same.symm⟩) absent
    · rw [if_neg same, rest_iff]
      constructor
      · intro distinct
        refine ⟨?_, distinct⟩
        intro member
        -- A later equal name would squeeze the second one in between.
        rcases List.mem_map.mp member with ⟨k, inside, equal⟩
        have first : nameAt input i ≤ nameAt input j :=
          of_decide_eq_true (below j mem_cons_self)
        rcases mem_cons.mp inside with rfl | tail
        · exact same equal.symm
        · have second : nameAt input j ≤ nameAt input k :=
            of_decide_eq_true ((pairwise_cons.mp later).1 k tail)
          rw [equal] at second
          exact same (List.le_antisymm first second)
      · exact fun both => both.2

theorem table_known (table : Table input start descriptors) :
    (∀ i ∈ List.range' start descriptors.length, Known input i) ∧
      (List.range' start descriptors.length).map (nameAt input) = descriptors.map (nameOf input) := by
  induction descriptors generalizing start with
  | nil => exact ⟨fun i member => absurd member not_mem_nil, rfl⟩
  | cons d rest ih =>
    rcases table with ⟨here, later⟩
    rcases ih (start + 1) later with ⟨known, names⟩
    rw [length_cons, range'_succ]
    constructor
    · rintro i member
      rcases mem_cons.mp member with rfl | tail
      · rw [Known, here]
        rfl
      · exact known i tail
    · rw [map_cons, map_cons, names, nameAt_eq here]

theorem distinct_names (table : Table input 0 descriptors) (few : descriptors.length ≤ codecMaxColumns) :
    ∃ sorted, mergePasses (mergeRuns input) 10 1 (List.range descriptors.length) = some sorted ∧
      (checkDistinct input sorted = some () ↔ (descriptors.map (nameOf input)).Nodup) := by
  rcases table_known 0 _ table with ⟨known, names⟩
  rw [← range_eq_range'] at known names
  have trans : ∀ i j k, nameLe input i j = true → nameLe input j k = true → nameLe input i k = true := by
    intro i j k first second
    exact decide_eq_true (List.le_trans (of_decide_eq_true first) (of_decide_eq_true second))
  have total : ∀ i j, (nameLe input i j || nameLe input j i) = true := by
    intro i j
    rw [Bool.or_eq_true, nameLe, nameLe, decide_eq_true_iff, decide_eq_true_iff]
    exact List.le_total _ _
  rcases mergePasses_sorts trans total _ mergeRuns_eq 10
    known (by rw [length_range]; exact few) with ⟨sorted, passed, perm, ordered⟩
  refine ⟨sorted, passed, ?_⟩
  rw [checkDistinct_iff (fun i member => known i (perm.mem_iff.mp member)) ordered,
    (perm.map (nameAt input)).nodup_iff, names]

def columnOf (input : Bytes) (d : CodecDescriptor) : CodecColumn where
  name := nameOf input d
  data :=
    let data := slice input d.dataOffset (d.dataOffset + d.dataLen)
    match d.kind with
    | .i64 => .i64 data
    | .f64 => .f64 data
    | .bool => .bool data
    | .str => .str data (slice input d.auxOffset (d.auxOffset + d.auxLen))

theorem columnOf_kind (d : CodecDescriptor) : (columnOf input d).kind = d.kind := by
  rcases d with ⟨_, _, kind, _, _, _, _⟩
  cases kind <;> rfl

theorem columnOf_data (d : CodecDescriptor) :
    (columnOf input d).buffers.1 = slice input d.dataOffset (d.dataOffset + d.dataLen) := by
  rcases d with ⟨_, _, kind, _, _, _, _⟩
  cases kind <;> rfl

theorem columnOf_aux (d : CodecDescriptor) :
    (columnOf input d).buffers.2 =
      if d.kind = .str then some (slice input d.auxOffset (d.auxOffset + d.auxLen)) else none := by
  rcases d with ⟨_, _, kind, _, _, _, _⟩
  cases kind <;> rfl

theorem checked_iff (n m : Nat) : checked n = some m ↔ m = n ∧ n < 2 ^ 64 := by
  rw [checked, ite_none_right_eq_some, Option.some.injEq, and_comm, eq_comm]

theorem slice_width {start len : Nat} (inside : start + len ≤ input.length) :
    (slice input start (start + len)).length = len := by
  rw [slice_length _ _ inside, Nat.add_sub_cancel_left]

theorem paddedEnd_iff (short : input.length < 2 ^ 63) (next : Nat) (aligned : cursor % 8 = 0) :
    paddedEnd input cursor len = some next ↔
      next = cursor + alignUp len ∧ next ≤ input.length ∧
        At input cursor (padded (slice input cursor (cursor + len))) := by
  have ends := alignUp_add len aligned
  have width : cursor + alignUp len - (cursor + len) = padLen len := by
    rw [alignUp]
    omega
  have grown := alignUp_le len
  have area (inside : cursor + len ≤ input.length) :
    At input cursor (padded (slice input cursor (cursor + len))) ↔
      At input (cursor + len) (zeros (padLen len)) := by
    rw [padded, at_append, slice_width inside]
    exact and_iff_right (at_slice _ _ inside)
  simp only [paddedEnd, checkedAdd, codecAlign8_eq, bind_eq_some_iff, checked_iff, ite_none_left_eq_some,
    ite_none_right_eq_some, not_lt, codecZero_iff, Option.some.injEq]
  constructor
  · rintro ⟨_, ⟨rfl, _⟩, _, _, ⟨rfl, _⟩, inside, ⟨_, _, filled⟩, rfl⟩
    rw [ends] at inside filled ⊢
    rw [width] at filled
    exact ⟨rfl, inside, (area (by omega)).mpr filled⟩
  · rintro ⟨rfl, inside, filled⟩
    refine ⟨_, ⟨rfl, by omega⟩, by omega, _, ⟨ends.symm, by omega⟩, inside, ⟨by omega, inside, ?_⟩, rfl⟩
    rw [width]
    exact (area (by omega)).mp filled

theorem columnOf_area (d : CodecDescriptor) :
    columnArea (columnOf input d) =
      padded (slice input d.dataOffset (d.dataOffset + d.dataLen)) ++
        if d.kind = .str then padded (slice input d.auxOffset (d.auxOffset + d.auxLen)) else [] := by
  rcases d with ⟨_, _, kind, _, _, _, _⟩
  cases kind <;> rfl

def CodecDescriptor.room (d : CodecDescriptor) : Nat :=
  alignUp d.dataLen + if d.kind = .str then alignUp d.auxLen else 0

theorem dataTopology_iff (short : input.length < 2 ^ 63) (next : Nat) (aligned : cursor % 8 = 0)
    (d : CodecDescriptor) :
    dataTopology input cursor d = some next ↔
      d.dataOffset = cursor ∧ (d.kind = .str → d.auxOffset = cursor + alignUp d.dataLen) ∧
        next = cursor + d.room ∧ next ≤ input.length ∧
        At input cursor (columnArea (columnOf input d)) := by
  have multiple := alignUp_mod d.dataLen
  have grown := alignUp_le d.dataLen
  rw [dataTopology, ite_none_left_eq_some, not_not, columnOf_area, at_append]
  refine and_congr_right fun start => ?_
  simp only [start, bind_eq_some_iff, paddedEnd_iff short _ aligned, padded_length, CodecDescriptor.room]
  by_cases text : d.kind = .str
  · simp only [text, ↓reduceIte, ite_none_left_eq_some, ne_eq, not_not, forall_const]
    constructor
    · rintro ⟨_, ⟨rfl, inside, area⟩, aux, ends⟩
      rcases (paddedEnd_iff short _ (by omega)).mp ends with ⟨rfl, inside', area'⟩
      rw [slice_width (by omega), aux]
      exact ⟨rfl, Nat.add_assoc _ _ _, inside', area, area'⟩
    · rintro ⟨aux, rfl, inside, area, area'⟩
      rw [slice_width (by omega), aux] at area'
      exact ⟨_, ⟨rfl, by omega, area⟩, aux, (paddedEnd_iff short _ (by omega)).mpr
        ⟨(Nat.add_assoc _ _ _).symm, inside, area'⟩⟩
  · simp only [text, ↓reduceIte, Option.some.injEq, false_implies, true_and, Nat.add_zero, at_nil, and_true]
    exact ⟨fun ⟨_, all, same⟩ => same ▸ all, fun all => ⟨_, all, rfl⟩⟩

def dataLenOf (rows : Nat) : CodecKind → Nat
  | .i64 | .f64 => rows * 8
  | .bool => (rows + 7) / 8
  | .str => (rows + 1) * 4

theorem codecExpectedLengths_iff (rows : Nat) (small : rows < 2 ^ 63) (pair : Nat × Bool) :
    codecExpectedLengths kind rows = some pair ↔
      (dataLenOf rows kind, decide (kind = .str)) = pair ∧ dataLenOf rows kind < 2 ^ 64 := by
  cases kind with
  | i64 | f64 =>
    rw [codecExpectedLengths, map_eq_some_iff]
    simp only [checkedMul, checked_iff, and_assoc, exists_eq_left]
    exact and_comm
  | bool =>
    rw [codecExpectedLengths, map_eq_some_iff]
    simp only [checkedAdd, checked_iff, and_assoc, exists_eq_left]
    exact ⟨fun both => ⟨both.2, by rw [dataLenOf]; omega⟩, fun both => ⟨by omega, both.1⟩⟩
  | str =>
    rw [codecExpectedLengths, map_eq_some_iff]
    simp only [checkedAdd, checkedMul, bind_eq_some_iff, checked_iff, and_assoc, exists_eq_left]
    exact ⟨fun ⟨_, _, rfl, fits, same⟩ => ⟨same, fits⟩, fun both => ⟨_, by omega, rfl, both.2, both.1⟩⟩

theorem checkLengths_iff {rows : Nat} (small : rows < 2 ^ 63) (fits : d.Fits) :
    checkLengths rows () d = some () ↔
      d.dataLen = dataLenOf rows d.kind ∧ (d.kind ≠ .str → d.auxOffset = 0 ∧ d.auxLen = 0) ∧
        (d.kind = .str → d.auxLen < 2 ^ 31) := by
  simp only [checkLengths, bind_eq_some_iff, codecExpectedLengths_iff _ small, and_assoc, exists_eq_left',
    ite_none_left_eq_some, decide_eq_false_iff_not, decide_eq_true_iff, not_and, not_or, not_not, and_true]
  have word := fits.dataLen
  exact ⟨fun all => all.2, fun all => ⟨by omega, all⟩⟩

theorem checkName_iff (short : input.length < 2 ^ 63) (d : CodecDescriptor) :
    checkName input () d = some () ↔
      d.nameLen ≠ 0 ∧ d.nameOffset + d.nameLen ≤ input.length ∧ isUtf8 (nameOf input d) = true := by
  simp only [checkName, ite_none_left_eq_some, ite_none_right_eq_some, bind_eq_some_iff, checkedAdd,
    checked_iff, not_lt, and_assoc, exists_eq_left, and_true]
  refine and_congr_right fun _ => ⟨And.right, fun both => ⟨?_, both⟩⟩
  omega

theorem nameTopology_iff (cursor next : Nat) (d : CodecDescriptor) :
    nameTopology cursor d = some next ↔
      d.nameOffset = cursor ∧ next = cursor + d.nameLen ∧ next < 2 ^ 64 := by
  rw [nameTopology, ite_none_left_eq_some, not_not, checkedAdd, checked_iff]
  exact and_congr_right fun _ => and_congr_right fun sum => by rw [sum]

theorem column_iff (short : input.length < 2 ^ 63) (nameCursor nameNext next : Nat)
    (aligned : cursor % 8 = 0) (d : CodecDescriptor) (bare : d.kind ≠ .str → d.auxOffset = 0 ∧ d.auxLen = 0) :
    (nameTopology nameCursor d = some nameNext ∧ d.nameOffset + d.nameLen ≤ input.length ∧
        dataTopology input cursor d = some next) ↔
      describeOne (columnOf input d) nameCursor cursor = d ∧
        (nameNext = nameCursor + (nameOf input d).length ∧ nameNext ≤ input.length ∧
          At input nameCursor (nameOf input d)) ∧
        next = cursor + (columnArea (columnOf input d)).length ∧ next ≤ input.length ∧
        At input cursor (columnArea (columnOf input d)) := by
  have auxes : ((if (columnOf input d).buffers.2.isSome then
    cursor + alignUp (columnOf input d).buffers.1.length else 0) = d.auxOffset ∧
      ((columnOf input d).buffers.2.getD []).length = d.auxLen) ↔
    (d.kind = .str → cursor + alignUp (columnOf input d).buffers.1.length = d.auxOffset ∧
      (slice input d.auxOffset (d.auxOffset + d.auxLen)).length = d.auxLen) := by
    rw [columnOf_aux]
    by_cases text : d.kind = .str
    · simp [text]
    · simp [text, bare text]
  have room (data : (slice input d.dataOffset (d.dataOffset + d.dataLen)).length = d.dataLen)
    (aux : d.kind = .str → (slice input d.auxOffset (d.auxOffset + d.auxLen)).length = d.auxLen) :
    (columnArea (columnOf input d)).length = d.room := by
    rw [columnOf_area, length_append, padded_length, data, CodecDescriptor.room]
    split
    · rw [padded_length, aux ‹_›]
    · rfl
  have more : alignUp d.dataLen ≤ d.room := Nat.le_add_right _ _
  have grown := alignUp_le d.dataLen
  rw [nameTopology_iff, dataTopology_iff short _ aligned, CodecDescriptor.ext_iff]
  simp only [describeOne, columnOf_kind, true_and]
  rw [auxes, columnOf_data]
  constructor
  · rintro ⟨⟨here, rfl, _⟩, bound, start, aux, rfl, inside, area⟩
    have name : (nameOf input d).length = d.nameLen := slice_width bound
    have data := @slice_width input d.dataOffset d.dataLen (by omega)
    have aux' : d.kind = .str → (slice input d.auxOffset (d.auxOffset + d.auxLen)).length = d.auxLen := by
      intro text
      have place := aux text
      have grown' := alignUp_le d.auxLen
      rw [CodecDescriptor.room, if_pos text] at inside
      exact slice_width (by omega)
    refine ⟨⟨here.symm, name, start.symm, data, fun text => ⟨?_, aux' text⟩⟩, ⟨by rw [name], by omega, ?_⟩,
      by rw [room data aux'], inside, area⟩
    · rw [data, aux text]
    · rw [← here]
      exact at_slice _ _ bound
  · rintro ⟨⟨here, name, start, data, aux⟩, ⟨rfl, inName, _⟩, rfl, inside, area⟩
    have name : (nameOf input d).length = d.nameLen := name
    rw [room data fun text => (aux text).2] at inside ⊢
    refine ⟨⟨here.symm, by rw [name], by omega⟩, by omega, start.symm, fun text => ?_, rfl, inside, area⟩
    rw [← (aux text).1, data]

theorem topology_iff (short : input.length < 2 ^ 63) {descriptors : List CodecDescriptor}
    (nameCursor nameLast cursor last : Nat) (aligned : cursor % 8 = 0)
    (named : nameCursor ≤ input.length) (placed : cursor ≤ input.length)
    (bare : ∀ d ∈ descriptors, d.kind ≠ .str → d.auxOffset = 0 ∧ d.auxLen = 0) :
    (descriptors.foldlM nameTopology nameCursor = some nameLast ∧
        (∀ d ∈ descriptors, d.nameOffset + d.nameLen ≤ input.length) ∧
        descriptors.foldlM (dataTopology input) cursor = some last) ↔
      describe (descriptors.map (columnOf input)) nameCursor cursor = descriptors ∧
        (nameLast = nameCursor + (namesText (descriptors.map (columnOf input))).length ∧
          nameLast ≤ input.length ∧ At input nameCursor (namesText (descriptors.map (columnOf input)))) ∧
        last = cursor + (areas (descriptors.map (columnOf input))).length ∧ last ≤ input.length ∧
        At input cursor (areas (descriptors.map (columnOf input))) := by
  induction descriptors generalizing nameCursor cursor with
  | nil =>
    simp only [foldlM_nil, map_nil, describe, namesText, areas, flatMap_nil, length_nil, Nat.add_zero,
      at_nil, and_true, true_and, not_mem_nil, false_implies, implies_true]
    constructor
    · rintro ⟨⟨⟩, ⟨⟩⟩
      exact ⟨⟨rfl, named⟩, rfl, placed⟩
    · rintro ⟨⟨rfl, _⟩, rfl, _⟩
      exact ⟨rfl, rfl⟩
  | cons d rest ih =>
    have text : namesText ((d :: rest).map (columnOf input)) =
      nameOf input d ++ namesText (rest.map (columnOf input)) := rfl
    have area : areas ((d :: rest).map (columnOf input)) =
      columnArea (columnOf input d) ++ areas (rest.map (columnOf input)) := rfl
    have multiple := columnArea_aligned (columnOf input d)
    have others := fun e member => bare e (mem_cons_of_mem d member)
    have one := fun nameNext next =>
      column_iff short nameCursor nameNext next aligned d (bare d mem_cons_self)
    rw [foldlM_cons, foldlM_cons, forall_mem_cons, bind_eq_bind, bind_eq_some_iff, bind_eq_some_iff, text,
      area, at_append, at_append, length_append, length_append]
    constructor
    · rintro ⟨⟨nameNext, first, names⟩, ⟨bound, bounds⟩, next, stored, data⟩
      rcases (one _ _).mp ⟨first, bound, stored⟩ with ⟨same, ⟨rfl, inName, name⟩, rfl, inside, here⟩
      rcases (ih _ _ (by omega) inName inside others).mp ⟨names, bounds, data⟩ with
        ⟨later, ⟨rfl, inNames, texts⟩, rfl, insides, stretch⟩
      refine ⟨?_, ⟨by omega, inNames, name, texts⟩, by omega, insides, here, stretch⟩
      rw [map_cons, describe, same]
      exact congrArg _ later
    · rintro ⟨described, ⟨rfl, inNames, name, texts⟩, rfl, insides, here, stretch⟩
      rcases List.cons.inj described with ⟨same, later⟩
      rcases (one _ _).mpr ⟨same, ⟨rfl, by omega, name⟩, rfl, by omega, here⟩ with ⟨first, bound, stored⟩
      rcases (ih (nameCursor + (nameOf input d).length) _ (by omega) (by omega) (by omega) others).mpr
        ⟨later, ⟨(Nat.add_assoc _ _ _).symm, inNames, texts⟩, (Nat.add_assoc _ _ _).symm, insides, stretch⟩
        with ⟨names, bounds, data⟩
      exact ⟨⟨_, first, names⟩, ⟨bound, bounds⟩, _, stored, data⟩

theorem kind_str_iff (column : CodecColumn) :
    column.kind = .str ↔ column.buffers.2.isSome = true := by
  rcases column with ⟨name, data⟩
  cases data <;> simp [CodecColumn.kind, CodecColumn.buffers]

theorem column_ext (second : CodecColumn) (name : first.name = second.name)
    (kind : first.kind = second.kind) (buffers : first.buffers = second.buffers) :
    first = second := by
  rcases first with ⟨firstName, firstData⟩
  rcases second with ⟨secondName, secondData⟩
  cases name
  cases firstData <;> cases secondData <;> simp_all [CodecColumn.kind, CodecColumn.buffers]

theorem columnOf_describeOne
    (area : At input cursor (columnArea column)) (name : At input nameCursor column.name) :
    columnOf input (describeOne column nameCursor cursor) = column := by
  rw [columnArea, at_append, padded_length, padded, at_append] at area
  apply column_ext
  · exact name.slice rfl
  · exact columnOf_kind _
  · apply Prod.ext
    · rw [columnOf_data]
      exact area.1.1.slice rfl
    · rw [columnOf_aux, show (describeOne column nameCursor cursor).kind = column.kind from rfl]
      have text := kind_str_iff column
      rcases stored : column.buffers.2 with _ | aux
      · rw [stored] at text
        exact if_neg fun isText => Bool.false_ne_true (text.mp isText)
      rw [stored] at text area
      have here := ((at_append _ _ _ _).mp area.2).1
      rw [if_pos (text.mpr rfl), describeOne, stored]
      exact congrArg some (here.slice rfl)

theorem describe_exposed {columns : List CodecColumn} (nameCursor cursor : Nat)
    (texts : At input nameCursor (namesText columns)) (stretch : At input cursor (areas columns)) :
    (describe columns nameCursor cursor).map (columnOf input) = columns := by
  induction columns generalizing nameCursor cursor with
  | nil => rfl
  | cons column rest ih =>
    rcases (at_append _ _ _ _).mp texts with ⟨name, texts⟩
    rcases (at_append _ _ _ _).mp stretch with ⟨area, stretch⟩
    rw [describe, map_cons, columnOf_describeOne area name, ih _ _ texts stretch]

theorem describeOne_inside :
    (describeOne column nameCursor cursor).dataLen ≤ (columnArea column).length ∧
      (describeOne column nameCursor cursor).auxOffset + (describeOne column nameCursor cursor).auxLen ≤
        cursor + (columnArea column).length ∧
      (column.kind ≠ .str → (describeOne column nameCursor cursor).auxOffset = 0 ∧
        (describeOne column nameCursor cursor).auxLen = 0) := by
  have size := columnArea_length column
  have grown := alignUp_le column.buffers.1.length
  have text := kind_str_iff column
  rw [areaLen] at size
  simp only [describeOne]
  rcases stored : column.buffers.2 with _ | aux
  · exact ⟨by omega, Nat.zero_le _, fun _ => ⟨rfl, rfl⟩⟩
  rw [stored] at size text
  have grown' := alignUp_le aux.length
  simp only [map_some, getD_some, isSome_some, ↓reduceIte] at size ⊢
  exact ⟨by omega, by omega, fun other => absurd (text.mpr rfl) other⟩

theorem describe_inside {columns : List CodecColumn} (nameCursor cursor : Nat)
    (member : d ∈ describe columns nameCursor cursor) :
    (∃ column ∈ columns, d.nameLen = column.name.length) ∧
      d.nameOffset + d.nameLen ≤ nameCursor + (namesText columns).length ∧
      d.dataOffset + d.dataLen ≤ cursor + (areas columns).length ∧
      d.auxOffset + d.auxLen ≤ cursor + (areas columns).length ∧
      (d.kind ≠ .str → d.auxOffset = 0 ∧ d.auxLen = 0) := by
  induction columns generalizing nameCursor cursor with
  | nil => cases member
  | cons column rest ih =>
    have text : (namesText (column :: rest)).length = column.name.length + (namesText rest).length :=
      length_append
    have area : (areas (column :: rest)).length = (columnArea column).length + (areas rest).length :=
      length_append
    rcases mem_cons.mp member with rfl | tail
    · rcases describeOne_inside with ⟨data, aux, bare⟩
      refine ⟨⟨column, mem_cons_self, rfl⟩, ?_, ?_, by omega, bare⟩
      · change nameCursor + column.name.length ≤ _
        omega
      · change cursor + _ ≤ _
        omega
    · rcases ih _ _ tail with ⟨⟨other, inside, len⟩, name, data, aux, bare⟩
      exact ⟨⟨other, mem_cons_of_mem column inside, len⟩, by omega, by omega, by omega, bare⟩

/-- The validator's loop over an offset table, on the column's own bytes. -/
def offsetRun (offsets values : Bytes) : Nat → Nat → Nat → Option Nat
  | 0, _, previous => some previous
  | left + 1, row, previous =>
      (codecReadU32 offsets (row * 4)).bind fun value =>
        if (row = 0 ∧ value ≠ 0) ∨ value < previous ∨ values.length < value then none
        else if 0 < row ∧ isUtf8 (slice values previous value) = false then none
        else offsetRun offsets values left (row + 1) value

/-- Column bytes that are the only ones for their values. -/
def CanonicalData (rows : Nat) : CodecColumnData → Prop
  | .i64 data | .f64 data => data.length = rows * 8
  | .bool data => data.length = (rows + 7) / 8 ∧ (rows % 8 ≠ 0 →
      data.getD (data.length - 1) 0 &&& (0xFF : UInt8) <<< UInt8.ofNat (rows % 8) = 0)
  | .str offsets values => offsets.length = (rows + 1) * 4 ∧ values.length < 2 ^ 31 ∧
      offsetRun offsets values (rows + 1) 0 0 = some values.length

theorem readU32_slice {start len offset : Nat} (inside : start + len ≤ input.length)
    (within : offset + 4 ≤ len) :
    codecReadU32 input (start + offset) = codecReadU32 (slice input start (start + len)) offset := by
  have size := slice_length _ start inside
  have cut := slice_slice input start (start + len) offset (offset + 4) (by omega)
  rw [codecReadU32, codecReadU32, codecReadWord, codecReadWord, if_pos (by omega),
    if_pos (by omega), cut, Nat.add_assoc]

theorem checkOffsets_eq (d : CodecDescriptor) (inData : d.dataOffset + d.dataLen ≤ input.length)
    (inAux : d.auxOffset + d.auxLen ≤ input.length) (row previous : Nat) (room : (row + left) * 4 ≤ d.dataLen) :
    checkOffsets input d left row previous =
      offsetRun (slice input d.dataOffset (d.dataOffset + d.dataLen))
        (slice input d.auxOffset (d.auxOffset + d.auxLen)) left row previous := by
  have size := slice_width inAux
  induction left generalizing row previous with
  | zero => rfl
  | succ left ih =>
    rw [checkOffsets, offsetRun, readU32_slice inData (by omega),
      size]
    congr 1
    funext value
    by_cases bad : (row = 0 ∧ value ≠ 0) ∨ value < previous ∨ d.auxLen < value
    · rw [if_pos bad, if_pos bad]
    · have cut := slice_slice input d.auxOffset (d.auxOffset + d.auxLen) previous value (by omega)
      rw [if_neg bad, if_neg bad, cut, ih (row + 1) value (by omega)]

theorem getD_slice (start len offset : Nat) (within : offset < len) :
    (slice input start (start + len)).getD offset 0 = input.getD (start + offset) 0 := by
  rw [slice, Nat.add_sub_cancel_left, getD_eq_getElem?_getD, getD_eq_getElem?_getD,
    getElem?_take_of_lt within, getElem?_drop]

theorem content_iff (rows : Nat) (d : CodecDescriptor) (inData : d.dataOffset + d.dataLen ≤ input.length)
    (inAux : d.kind = .str → d.auxOffset + d.auxLen ≤ input.length) :
    CanonicalData rows (columnOf input d).data ↔
      d.dataLen = dataLenOf rows d.kind ∧ (d.kind = .str → d.auxLen < 2 ^ 31) ∧
        checkContent input rows () d = some () := by
  have data := slice_width inData
  cases kind : d.kind with
  | i64 => simp [columnOf, kind, CanonicalData, data, dataLenOf, checkContent]
  | f64 => simp [columnOf, kind, CanonicalData, data, dataLenOf, checkContent]
  | bool =>
    simp only [columnOf, kind, CanonicalData, data, dataLenOf, checkContent]
    by_cases len : d.dataLen = (rows + 7) / 8
    · by_cases ragged : rows % 8 ≠ 0
      · have some_byte : d.dataLen ≠ 0 := by omega
        have last := @getD_slice input d.dataOffset d.dataLen (d.dataLen - 1) (by omega)
        have place : d.dataOffset + (d.dataLen - 1) = d.dataOffset + d.dataLen - 1 := by omega
        rw [place] at last
        rw [last, if_pos ⟨ragged, some_byte⟩]
        simp [len, ragged]
      · simp [len, ragged]
    · simp [len]
  | str =>
    have aux := slice_width (inAux kind)
    simp only [columnOf, kind, CanonicalData, data, aux, dataLenOf, checkContent, forall_const]
    by_cases len : d.dataLen = (rows + 1) * 4
    · rw [checkOffsets_eq d inData (inAux kind) 0 0 (by omega)]
      cases offsetRun (slice input d.dataOffset (d.dataOffset + d.dataLen))
        (slice input d.auxOffset (d.auxOffset + d.auxLen)) (rows + 1) 0 0 with
      | none => simp
      | some last => simp
    · simp [len]

structure ColumnOk (rows : Nat) (column : CodecColumn) : Prop where
  named : column.name ≠ []
  shortName : column.name.length < 2 ^ 32
  utf8 : isUtf8 column.name = true
  canonical : CanonicalData rows column.data

structure Admissible (rows : Nat) (columns : List CodecColumn) : Prop where
  rowsFit : rows < 2 ^ 63
  few : columns.length ≤ codecMaxColumns
  fits : envelopeLen columns < 2 ^ 63
  distinct : (columns.map CodecColumn.name).Nodup
  columnsOk : ∀ column ∈ columns, ColumnOk rows column

variable (rows : Nat) (columns : List CodecColumn)

theorem envelope_at :
    At input 0 (envelope rows columns) ↔
      At input 0 codecMagic ∧ At input 8 (toLe 8 (envelopeLen columns)) ∧
        At input 16 (toLe 8 rows) ∧ At input 24 (toLe 4 columns.length) ∧
        At input 28 (zeros 4) ∧
        At input 32 ((describe columns (namesStart columns.length) (dataStart columns)).flatMap
          descriptorBytes) ∧
        At input (namesStart columns.length) (namesText columns) ∧
        At input (namesEnd columns) (zeros (padLen (namesEnd columns))) ∧
        At input (dataStart columns) (areas columns) := by
  have magic : codecMagic.length = 8 := rfl
  have names : 32 + columns.length * 48 = namesStart columns.length := rfl
  have stop : namesStart columns.length + (namesText columns).length = namesEnd columns := rfl
  have data : namesEnd columns + padLen (namesEnd columns) = dataStart columns := rfl
  simp only [envelope, header, at_append, length_append, magic, toLe_length, zeros_length, table_length,
    describe_length, Nat.zero_add, Nat.reduceAdd, names, stop, data, and_assoc]

theorem openHeader_iff (rows count : Nat) :
    openHeader input = some (totalLen, rows, count) ↔
      32 ≤ input.length ∧ At input 0 codecMagic ∧ At input 28 (zeros 4) ∧
        totalLen = input.length ∧ totalLen < 2 ^ 63 ∧ At input 8 (toLe 8 totalLen) ∧
        rows < 2 ^ 63 ∧ At input 16 (toLe 8 rows) ∧
        count ≤ codecMaxColumns ∧ At input 24 (toLe 4 count) := by
  simp only [openHeader, ite_none_left_eq_some, bind_eq_some_iff, readUsize_iff, codecReadU32,
    @codecReadWord_iff input 4 (by decide), codecZero_iff, Bool.not_eq_false, not_lt, not_not, Option.some.injEq,
    Prod.mk.injEq]
  constructor
  · rintro ⟨large, magic, ⟨_, _, reserved⟩, _, ⟨small, total⟩, whole, _, ⟨rowsFit, rowsAt⟩, _, ⟨_, countAt⟩, few,
      rfl, rfl, rfl⟩
    exact ⟨large, magic, reserved, whole, small, total, rowsFit, rowsAt, few, countAt⟩
  · rintro ⟨large, magic, reserved, whole, small, total, rowsFit, rowsAt, few, countAt⟩
    have few' : count ≤ 1024 := few
    exact ⟨large, magic, ⟨by decide, large, reserved⟩, _, ⟨small, total⟩, whole, _, ⟨rowsFit, rowsAt⟩, _,
      ⟨by omega, countAt⟩, few, rfl, rfl, rfl⟩

theorem openNames_iff (short : input.length < 2 ^ 63) {descriptors : List CodecDescriptor}
    (table : Table input 0 descriptors) (few : descriptors.length ≤ codecMaxColumns) (start dataStart : Nat) :
    openNames input descriptors.length start = some dataStart ↔
      ∃ nameCursor, descriptors.foldlM nameTopology start = some nameCursor ∧
        (∀ d ∈ descriptors, checkName input () d = some ()) ∧
        (descriptors.map (nameOf input)).Nodup ∧ dataStart = alignUp nameCursor ∧
        dataStart ≤ input.length ∧ At input nameCursor (zeros (padLen nameCursor)) := by
  rcases distinct_names _ table few with ⟨sorted, passed, distinct⟩
  have width : ∀ n, alignUp n - n = padLen n := fun n => Nat.add_sub_cancel_left _ _
  have grown := fun n => alignUp_le n
  simp only [openNames, eachDescriptor_eq _ _ table, passed, bind_eq_bind, bind_some,
    bind_eq_some_iff, checks_all, distinct, codecAlign8_eq, checked_iff, ite_none_left_eq_some, not_lt,
    Bool.not_eq_false, codecZero_iff, Option.some.injEq]
  refine exists_congr fun nameCursor => and_congr_right fun names => ?_
  constructor
  · rintro ⟨_, checkedNames, _, unequal, _, ⟨rfl, _⟩, inside, ⟨_, _, filled⟩, rfl⟩
    rw [width] at filled
    exact ⟨checkedNames, unequal, rfl, inside, filled⟩
  · rintro ⟨checkedNames, unequal, rfl, inside, filled⟩
    refine ⟨(), checkedNames, (), unequal, _, ⟨rfl, by omega⟩, inside, ⟨grown _, inside, ?_⟩, rfl⟩
    rw [width]
    exact filled

/-- The descriptors are those of the columns they expose, packed behind the table. -/
structure Described (input : Bytes) (rows : Nat) (descriptors : List CodecDescriptor)
    (columns : List CodecColumn) : Prop where
  exposed : columns = descriptors.map (columnOf input)
  table : Table input 0 descriptors
  described : describe columns (namesStart columns.length) (dataStart columns) = descriptors
  texts : At input (namesStart columns.length) (namesText columns)
  filled : At input (namesEnd columns) (zeros (padLen (namesEnd columns)))
  stretch : At input (dataStart columns) (areas columns)
  whole : input.length = envelopeLen columns
  distinct : (columns.map CodecColumn.name).Nodup
  ok : ∀ column ∈ columns, ColumnOk rows column

theorem openTable_iff (short : input.length < 2 ^ 63) {rows : Nat} (rowsFit : rows < 2 ^ 63) {count : Nat}
    (few : count ≤ codecMaxColumns) :
    openTable input input.length rows count = some () ↔
      ∃ descriptors columns, descriptors.length = count ∧ Described input rows descriptors columns := by
  have start : codecHeaderLen + count * codecDescriptorLen = namesStart count := rfl
  rw [openTable]
  simp only [start, ite_none_left_eq_some, bind_eq_bind, bind_eq_some_iff, not_lt, not_not]
  constructor
  · rintro ⟨above, _, lengths, first, named, last, stored, rfl, contents⟩
    have tabled := lengths
    rw [eachDescriptor, range_eq_range'] at tabled
    rcases loop_table _ 0 _ _ _ tabled with ⟨descriptors, rfl, table⟩
    rw [eachDescriptor_eq _ _ table, checks_all] at lengths contents
    rw [eachDescriptor_eq _ _ table] at stored
    rcases (openNames_iff short table few _ _).mp named with
      ⟨nameCursor, names, wellNamed, distinct, rfl, inside, filled⟩
    have fits := ((table_iff 0 _).mp table).1
    have sized : ∀ d ∈ descriptors, _ := fun d member =>
      (checkLengths_iff rowsFit (fits d member)).mp (lengths d member)
    have spelled : ∀ d ∈ descriptors, _ := fun d member => (checkName_iff short d).mp (wellNamed d member)
    rcases (topology_iff short _ _ _ _ (alignUp_mod _) above inside fun d member =>
      (sized d member).2.1).mp ⟨names, fun d member => (spelled d member).2.1, stored⟩ with
      ⟨described, ⟨stop, _, texts⟩, whole, _, stretch⟩
    have size : (descriptors.map (columnOf input)).length = descriptors.length := length_map _
    have ends : namesEnd (descriptors.map (columnOf input)) = nameCursor := by rw [stop, namesEnd, size]
    have begins : dataStart (descriptors.map (columnOf input)) = alignUp nameCursor := by rw [dataStart, ends]
    refine ⟨descriptors, _, rfl, rfl, table, ?_, ?_, ?_, ?_, ?_, ?_, ?_⟩
    · rw [size, begins, described]
    · rw [size]
      exact texts
    · rw [ends]
      exact filled
    · rw [begins]
      exact stretch
    · rw [envelopeLen, begins, ← whole]
    · rw [List.map_map]
      exact distinct
    · intro column member
      rcases List.mem_map.mp member with ⟨d, inTable, rfl⟩
      rcases spelled d inTable with ⟨some_byte, bound, valid⟩
      have width : (nameOf input d).length = d.nameLen := slice_width bound
      rcases describe_inside _ _ (described.symm ▸ inTable) with ⟨_, _, data, aux, _⟩
      refine ⟨?_, ?_, valid, (content_iff _ d (by omega) fun _ => by omega).mpr
        ⟨(sized d inTable).1, (sized d inTable).2.2, contents d inTable⟩⟩
      · intro none
        have size : (nameOf input d).length = 0 := congrArg List.length none
        omega
      · change (nameOf input d).length < 2 ^ 32
        rw [width]
        exact (fits d inTable).nameLen
  · rintro ⟨descriptors, columns, rfl, shape⟩
    have size : columns.length = descriptors.length := by rw [shape.exposed, length_map]
    have whole : input.length = dataStart columns + (areas columns).length := shape.whole
    have first : dataStart columns = namesEnd columns + padLen (namesEnd columns) := rfl
    have stop : namesEnd columns = namesStart columns.length + (namesText columns).length := rfl
    have fits := ((table_iff 0 _).mp shape.table).1
    have bounds : ∀ d ∈ descriptors, _ := fun d member =>
      describe_inside _ _ (shape.described.symm ▸ member)
    rcases (topology_iff short (namesStart columns.length) (namesEnd columns) (dataStart columns)
      input.length (alignUp_mod _) (by omega) (by omega) fun d member => (bounds d member).2.2.2.2).mpr
      (shape.exposed ▸ ⟨shape.described, ⟨rfl, by omega, shape.texts⟩, whole, Nat.le_refl _, shape.stretch⟩)
      with ⟨names, inside, data⟩
    have ok : ∀ d ∈ descriptors, ColumnOk rows (columnOf input d) := fun d member =>
      shape.ok _ (shape.exposed ▸ List.mem_map_of_mem member)
    have content : ∀ d ∈ descriptors, _ := fun d member =>
      (content_iff _ d (by have := (bounds d member).2.2.1; omega)
        fun _ => by have := (bounds d member).2.2.2.1; omega).mp (ok d member).canonical
    refine ⟨by rw [← size]; omega, (), ?_, dataStart columns, ?_, input.length, ?_, rfl, ?_⟩
    · rw [eachDescriptor_eq _ _ shape.table, checks_all]
      intro d member
      exact (checkLengths_iff rowsFit (fits d member)).mpr
        ⟨(content d member).1, (bounds d member).2.2.2.2, (content d member).2.1⟩
    · rw [size] at names
      refine (openNames_iff short shape.table few _ _).mpr ⟨namesEnd columns, names, ?_, ?_, rfl,
        by omega, shape.filled⟩
      · intro d member
        refine (checkName_iff short d).mpr ⟨fun none => (ok d member).named ?_, inside d member, (ok d member).utf8⟩
        change slice input d.nameOffset (d.nameOffset + d.nameLen) = []
        rw [none, slice, Nat.add_zero, Nat.sub_self, take_zero]
      · have distinct := shape.distinct
        rw [shape.exposed, List.map_map] at distinct
        exact distinct
    · rw [eachDescriptor_eq _ _ shape.table]
      exact data
    · rw [eachDescriptor_eq _ _ shape.table, checks_all]
      exact fun d member => (content d member).2.2

theorem codecOpen_sound (accepted : codecOpen input = some ()) :
    ∃ rows descriptors, openHeader input = some (input.length, rows, descriptors.length) ∧
      Table input 0 descriptors ∧ Admissible rows (descriptors.map (columnOf input)) ∧
      input = envelope rows (descriptors.map (columnOf input)) := by
  rcases bind_eq_some_iff.mp accepted with ⟨⟨total, rows, count⟩, opened, accepted⟩
  rcases (openHeader_iff _ _).mp opened with
    ⟨large, magic, reserved, rfl, short, totalAt, rowsFit, rowsAt, few, countAt⟩
  have used : (if count = 0 then 0 else rows) < 2 ^ 63 := by
    split
    · decide
    · exact rowsFit
  rcases (openTable_iff short used few).mp accepted with ⟨descriptors, _, rfl, shape⟩
  rcases shape with ⟨rfl, table, described, texts, filled, stretch, whole, distinct, ok⟩
  have size : (descriptors.map (columnOf input)).length = descriptors.length := length_map _
  refine ⟨rows, descriptors, opened, table, ⟨rowsFit, by rw [size]; exact few, whole ▸ short, distinct,
    ?_⟩, ?_⟩
  · intro column member
    have here := ok column member
    rwa [if_neg (size ▸ length_pos_of_mem member |>.ne')] at here
  · apply (at_whole _).mp
    refine ⟨(envelope_at _ _).mpr ?_, by rw [envelope_length, whole]⟩
    rw [described, ← whole, size]
    have table' := ((table_iff 0 _).mp table).2
    exact ⟨magic, totalAt, rowsAt, countAt, reserved, table', size ▸ texts, filled, stretch⟩

/-- An envelope that is cut off or continued is never accepted. -/
theorem envelopes_prefix_free : IsAntichain (· <+: ·) {input | codecOpen input = some ()} := by
  rintro input accepted _ extended differ ⟨more, rfl⟩
  obtain ⟨_, _, header, -⟩ := codecOpen_sound accepted
  obtain ⟨_, _, header', -⟩ := codecOpen_sound extended
  obtain ⟨long, -, -, -, small, total, -⟩ := (openHeader_iff _ _).mp header
  obtain ⟨-, -, -, -, small', total', -⟩ := (openHeader_iff _ _).mp header'
  -- both read their length from the same eight bytes
  rw [At, toLe_length, drop_append_of_le_length (by omega), take_append_of_le_length (by simp; omega)] at total'
  rw [At, toLe_length, total'] at total
  have same := congrArg ofLe total
  rw [ofLe_toLe _ (by omega), ofLe_toLe _ (by omega), length_append] at same
  exact differ (by rw [length_eq_zero_iff.mp (Nat.add_eq_left.mp same), append_nil])

theorem codecOpen_complete (admissible : Admissible rows columns) :
    codecOpen (envelope rows columns) = some () ∧
      ∃ descriptors, openHeader (envelope rows columns) =
          some ((envelope rows columns).length, rows, descriptors.length) ∧
        Table (envelope rows columns) 0 descriptors ∧
        descriptors.map (columnOf (envelope rows columns)) = columns := by
  have whole := envelope_length rows columns
  have here := (envelope_at _ _).mp ((at_whole _).mpr (rfl : envelope rows columns = _)).1
  generalize envelope rows columns = input at whole here ⊢
  rcases here with ⟨magic, totalAt, rowsAt, countAt, reserved, tableAt, texts, filled, stretch⟩
  have short : input.length < 2 ^ 63 := whole ▸ admissible.fits
  have ends : envelopeLen columns = dataStart columns + (areas columns).length := rfl
  have first : dataStart columns = namesEnd columns + padLen (namesEnd columns) := rfl
  have stop : namesEnd columns = namesStart columns.length + (namesText columns).length := rfl
  have start : namesStart columns.length = 32 + columns.length * 48 := rfl
  have exposed := describe_exposed _ _ texts stretch
  have fits : ∀ d ∈ describe columns (namesStart columns.length) (dataStart columns), d.Fits := by
    intro d member
    rcases describe_inside _ _ member with ⟨⟨column, inside, len⟩, name, data, aux, _⟩
    have named := (admissible.columnsOk column inside).shortName
    exact ⟨by omega, by omega, by omega, by omega, by omega, by omega⟩
  have table := (table_iff 0 _).mpr ⟨fits, tableAt⟩
  have count := describe_length columns (namesStart columns.length) (dataStart columns)
  have opened : openHeader input = some (input.length, rows, columns.length) :=
    (openHeader_iff _ _).mpr ⟨by omega, magic, reserved, rfl, short, by rw [whole]; exact totalAt,
      admissible.rowsFit, rowsAt, admissible.few, countAt⟩
  refine ⟨?_, _, by rw [count]; exact opened, table, exposed⟩
  have used : (if columns.length = 0 then 0 else rows) < 2 ^ 63 := by
    split
    · decide
    · exact admissible.rowsFit
  rw [codecOpen, opened, bind_some]
  refine (openTable_iff short used admissible.few).mpr ⟨_, columns, count, exposed.symm,
    table, rfl, texts, filled, stretch, whole, admissible.distinct, fun column member => ?_⟩
  rw [if_neg (length_pos_of_mem member).ne']
  exact admissible.columnsOk column member

end Align.Columnar
