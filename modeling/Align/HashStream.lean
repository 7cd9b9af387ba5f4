import Align.WyHash

/-! Incremental wyhash (`align_hash::WyHashStream`). The declared length fixes both
block boundaries before the first byte; the state keeps the block being filled
and the last sixteen bytes. `absorb` is the `while` loop of `update` on the bytes
from the cursor on: every iteration takes at least one byte, so the chunk length
bounds its iterations. The invariant speaks about the accepted bytes only, never
about how they were cut into chunks. -/
namespace Align.HashStream
open Buffers WyHash List

structure WyHashStream where
  expected : Nat
  received : Nat
  tripleBytes : Nat
  processBytes : Nat
  processed : Nat
  seed : UInt64
  see1 : UInt64
  see2 : UInt64
  block : Buffer UInt8 48
  blockLen : Nat
  tail : Buffer UInt8 16
  tailLen : Nat

def forLen (seed : UInt64) (len : Nat) : WyHashStream :=
  let tripleBytes := if len > 48 then (len - 1) / 48 * 48 else 0
  let remaining := len - tripleBytes
  let singleBytes := if len > 16 then (remaining - 1) / 16 * 16 else 0
  let seed := seed ^^^ wymix (seed ^^^ secret0) secret1
  { expected := len
    received := 0
    tripleBytes := tripleBytes
    processBytes := tripleBytes + singleBytes
    processed := 0
    seed := seed
    see1 := seed
    see2 := seed
    block := .fill 0
    blockLen := 0
    tail := .fill 0
    tailLen := 0 }

def updateTail (s : WyHashStream) (bytes : Bytes) : WyHashStream :=
  if bytes.length ≥ 16 then
    { s with tail := s.tail.store 0 (bytes.drop (bytes.length - 16)), tailLen := 16 }
  else
    let keep := min s.tailLen (16 - bytes.length)
    -- `copy_within(tail_len - keep..tail_len, 0)`, then the new bytes behind it
    let moved := if keep > 0 then
        s.tail.store 0 ((s.tail.items.drop (s.tailLen - keep)).take keep)
      else s.tail
    { s with tail := moved.store keep bytes, tailLen := keep + bytes.length }

def processBlock (s : WyHashStream) (size : Nat) : WyHashStream :=
  let block := s.block.items
  let mixed := if size = 48 then
      { s with
        seed := wymix (wyr8 block ^^^ secret1) (wyr8 (block.drop 8) ^^^ s.seed)
        see1 := wymix (wyr8 (block.drop 16) ^^^ secret2) (wyr8 (block.drop 24) ^^^ s.see1)
        see2 := wymix (wyr8 (block.drop 32) ^^^ secret3) (wyr8 (block.drop 40) ^^^ s.see2) }
    else { s with seed := wymix (wyr8 block ^^^ secret1) (wyr8 (block.drop 8) ^^^ s.seed) }
  let advanced := { mixed with processed := s.processed + size, blockLen := 0 }
  if s.tripleBytes ≠ 0 ∧ advanced.processed = s.tripleBytes then
    { advanced with seed := advanced.seed ^^^ (advanced.see1 ^^^ advanced.see2) }
  else advanced

def target (s : WyHashStream) : Nat := if s.processed < s.tripleBytes then 48 else 16

theorem target_pos (s : WyHashStream) : 0 < target s := by
  unfold target
  split <;> omega

/-- Bytes moved into the block by one loop iteration. -/
def take (s : WyHashStream) (rest : Bytes) : Nat :=
  min (min (target s - s.blockLen) (s.processBytes - s.processed - s.blockLen)) rest.length

def fillBlock (s : WyHashStream) (rest : Bytes) : WyHashStream :=
  let filled := { s with
    block := s.block.store s.blockLen (rest.take (take s rest))
    blockLen := s.blockLen + take s rest }
  if filled.blockLen = target s then processBlock filled (target s) else filled

def absorb : Nat → WyHashStream → Bytes → WyHashStream
  | 0, s, _ => s
  | fuel + 1, s, rest =>
      if rest ≠ [] ∧ s.processed + s.blockLen < s.processBytes then
        absorb fuel (fillBlock s rest) (rest.drop (take s rest))
      else s

def update (s : WyHashStream) (bytes : Bytes) : WyHashStream × Bool :=
  if bytes.length > s.expected - s.received then (s, false)
  else
    let tailed := updateTail s bytes
    (absorb bytes.length { tailed with received := s.received + bytes.length } bytes, true)

def finish (s : WyHashStream) : Option UInt64 :=
  if s.received ≠ s.expected ∨ s.processed ≠ s.processBytes ∨ s.blockLen ≠ 0 then none
  else
    let lanes := if s.expected ≤ 16 then shortLanes s.tail.items s.expected
      else (wyr8 s.tail.items, wyr8 (s.tail.items.drop 8))
    -- `u64::try_from(self.expected).ok()?`
    if s.expected < 2 ^ 64 then some (finalMix lanes s.seed (UInt64.ofNat s.expected)) else none

def lanes (s : WyHashStream) : Lanes := ⟨s.seed, s.see1, s.see2⟩

theorem shortLanes_congr {len : Nat} (short : len ≤ 16)
    (same : items.take len = key) (size : key.length = len) :
    shortLanes items len = shortLanes key len := by
  have keyTake : key.take len = key := take_of_length_le (by omega)
  have lane : ∀ offset, offset + 4 ≤ len → wyr4 (items.drop offset) = wyr4 (key.drop offset) := by
    intro offset inside
    rw [wyr4, wyr4, take_drop_congr inside (same.trans keyTake.symm)]
  have byte : ∀ offset, offset < len → items.getD offset 0 = key.getD offset 0 := by
    intro offset inside
    rw [← same]
    simp [getD_eq_getElem?_getD, inside]
  unfold shortLanes
  by_cases words : len ≥ 4
  · have off : (len >>> 3) <<< 2 + 4 ≤ len := by
      omega
    have first : wyr4 items = wyr4 key := by simpa using lane 0 (by omega)
    simp only [words, ↓reduceIte, first, lane _ off, lane (len - 4) (by omega),
      lane (len - 4 - (len >>> 3) <<< 2) (by omega)]
  · by_cases some : len > 0
    · have half : len >>> 1 < len := by
        omega
      simp only [words, ↓reduceIte, some, wyr3, byte 0 some, byte _ half, byte (len - 1) (by omega)]
    · simp [words, some]

def OnBoundary (triple done : Nat) : Prop :=
  done % 48 = 0 ∧ done ≤ triple ∨ triple ≤ done ∧ (done - triple) % 16 = 0

theorem triple_blocks (len : Nat) : tripleBytes len % 48 = 0 := by
  unfold tripleBytes
  split
  · exact Nat.mul_mod_left _ _
  · rfl

theorem single_blocks (len : Nat) : singleBytes len % 16 = 0 := by
  unfold singleBytes
  split
  · exact Nat.mul_mod_left _ _
  · rfl

-- A block started before the end of the processed prefix also ends before it.
theorem block_fits {len done : Nat} (boundary : OnBoundary (tripleBytes len) done)
    (more : done < tripleBytes len + singleBytes len) :
    done + (if done < tripleBytes len then 48 else 16) ≤ tripleBytes len + singleBytes len := by
  have triple := triple_blocks len
  have single := single_blocks len
  rcases boundary with ⟨whole, inside⟩ | ⟨past, whole⟩
  · split <;> omega
  · rw [if_neg (by omega)]
    omega

theorem lanesAt_zero (triple : Nat) (key : Bytes) (start : Lanes) :
    lanesAt triple 0 key start = start := by
  simp only [lanesAt, Nat.zero_div, Nat.zero_sub, rounds]
  split
  · rfl
  · have zero : triple = 0 := by omega
    simp [zero]

theorem lanesAt_append (inside : done ≤ front.length) :
    lanesAt triple done (front ++ more) start = lanesAt triple done front start := by
  have wide : ∀ count, count * 48 ≤ front.length →
    rounds 48 round48 count (front ++ more) start = rounds 48 round48 count front start := by
    intro count bound
    exact rounds_congr _ _ round48_congr _ _ _ _ (take_append_of_le_length bound)
  unfold lanesAt
  split
  · exact wide _ (by omega)
  rename_i past
  have whole : triple ≤ front.length := by omega
  rw [wide _ (by omega), drop_append_of_le_length whole]
  apply rounds_congr _ _ round16_congr
  apply take_append_of_le_length
  rw [length_drop]
  omega

theorem lanesAt_wide
    (whole : done % 48 = 0) (before : done < triple) (tripleWhole : triple % 48 = 0) :
    lanesAt triple (done + 48) key start =
      if done + 48 = triple then foldIn (round48 (key.drop done) (lanesAt triple done key start))
      else round48 (key.drop done) (lanesAt triple done key start) := by
  have count : (done + 48) / 48 = done / 48 + 1 := by omega
  have cursor : done / 48 * 48 = done := by omega
  have step := rounds_succ 48 round48 (done / 48) key start
  rw [cursor] at step
  by_cases last : done + 48 = triple
  · have zero : triple ≠ 0 := by omega
    simp only [lanesAt, last, before, Nat.lt_irrefl, zero, ↓reduceIte, Nat.sub_self, Nat.zero_div, rounds]
    rw [← last, count, step]
  · have within : done + 48 < triple := by omega
    simp only [lanesAt, within, before, last, ↓reduceIte]
    rw [count, step]

theorem lanesAt_narrow (past : triple ≤ done) (whole : (done - triple) % 16 = 0) :
    lanesAt triple (done + 16) key start =
      round16 (key.drop done) (lanesAt triple done key start) := by
  have count : (done + 16 - triple) / 16 = (done - triple) / 16 + 1 := by omega
  have cursor : triple + (done - triple) / 16 * 16 = done := by omega
  have notBefore : ¬ done < triple := by omega
  have notAfter : ¬ done + 16 < triple := by omega
  simp only [lanesAt, notBefore, notAfter, ↓reduceIte]
  rw [count, rounds_succ, drop_drop, cursor]

/-! The block machinery after the bytes `front` have passed through it. -/

structure Absorbed (seed : UInt64) (len : Nat) (s : WyHashStream) (front : Bytes) : Prop where
  triple : s.tripleBytes = tripleBytes len
  process : s.processBytes = tripleBytes len + singleBytes len
  boundary : OnBoundary (tripleBytes len) s.processed
  progress : s.processed + s.blockLen = min front.length s.processBytes
  room : s.blockLen < target s
  lanes : lanes s = lanesAt (tripleBytes len) s.processed front (initial seed)
  block : s.block.items.take s.blockLen = (front.take s.processBytes).drop s.processed

theorem processBlock_wide (s : WyHashStream) :
    lanes (processBlock s 48) =
      (if s.tripleBytes ≠ 0 ∧ s.processed + 48 = s.tripleBytes
        then foldIn (round48 s.block.items (lanes s)) else round48 s.block.items (lanes s)) := by
  simp only [processBlock, ↓reduceIte]
  split <;> rfl

theorem processBlock_narrow (s : WyHashStream) (past : s.tripleBytes < s.processed + 16) :
    lanes (processBlock s 16) = round16 s.block.items (lanes s) := by
  have notLast : s.processed + 16 ≠ s.tripleBytes := by omega
  simp [processBlock, notLast, lanes, round16]

theorem processBlock_frame (s : WyHashStream) (size : Nat) :
    (processBlock s size).processed = s.processed + size ∧
      (processBlock s size).blockLen = 0 ∧
      (processBlock s size).tripleBytes = s.tripleBytes ∧
      (processBlock s size).processBytes = s.processBytes ∧
      (processBlock s size).expected = s.expected ∧
      (processBlock s size).received = s.received ∧
      (processBlock s size).tail = s.tail ∧ (processBlock s size).tailLen = s.tailLen := by
  unfold processBlock
  dsimp only
  split <;> split <;> simp

theorem fill_partial {seed : UInt64} {len : Nat} {s : WyHashStream}
    (absorbed : Absorbed seed len s front) (more : s.processed + s.blockLen < s.processBytes) :
    let filled := s.block.store s.blockLen (rest.take (take s rest))
    filled.items.take (s.blockLen + take s rest) =
        ((front ++ rest.take (take s rest)).take s.processBytes).drop s.processed ∧
      front.length = s.processed + s.blockLen ∧ take s rest ≤ target s - s.blockLen := by
  have limit : target s ≤ 48 := by unfold target; split <;> omega
  have cursor : front.length = s.processed + s.blockLen := by
    have := absorbed.progress
    omega
  have taken : (rest.take (take s rest)).length = take s rest := by
    rw [length_take]
    unfold take
    omega
  have room := absorbed.room
  have bound : take s rest ≤ target s - s.blockLen := by unfold take; omega
  have within : take s rest ≤ s.processBytes - s.processed - s.blockLen := by unfold take; omega
  refine ⟨?_, cursor, bound⟩
  have written := store_take s.block s.blockLen (rest.take (take s rest)) (by omega)
  rw [taken] at written
  rw [written, absorbed.block]
  have whole : (front ++ rest.take (take s rest)).take s.processBytes = front ++ rest.take (take s rest) :=
    take_of_length_le (by rw [length_append, taken]; omega)
  rw [whole, drop_append_of_le_length (by omega),
    take_of_length_le (by omega : front.length ≤ s.processBytes)]

variable (seed : UInt64) (len : Nat) (s : WyHashStream)

theorem processBlock_lanes (triple : s.tripleBytes = tripleBytes len)
    (boundary : OnBoundary (tripleBytes len) s.processed)
    (before : lanes s = lanesAt (tripleBytes len) s.processed key (initial seed))
    (block : s.block.items.take (target s) = (key.drop s.processed).take (target s)) :
    lanes (processBlock s (target s)) =
      lanesAt (tripleBytes len) (s.processed + target s) key (initial seed) := by
  have tripleWhole := triple_blocks len
  by_cases wide : s.processed < s.tripleBytes
  · have size : target s = 48 := by simp [target, wide]
    rw [size] at block ⊢
    have whole : s.processed % 48 = 0 := by
      rcases boundary with ⟨whole, _⟩ | ⟨past, _⟩
      · exact whole
      · omega
    have nonzero : s.tripleBytes ≠ 0 := by omega
    rw [processBlock_wide, lanesAt_wide whole (by omega) tripleWhole, before,
      round48_congr _ _ _ block, triple]
    simp [← triple, nonzero]
  · have size : target s = 16 := by simp [target, wide]
    rw [size] at block ⊢
    have past : tripleBytes len ≤ s.processed := by omega
    have whole : (s.processed - tripleBytes len) % 16 = 0 := by
      rcases boundary with ⟨_, inside⟩ | ⟨_, whole⟩
      · have same : s.processed = tripleBytes len := by omega
        simp [same]
      · exact whole
    rw [processBlock_narrow s (by omega), lanesAt_narrow past whole, before,
      round16_congr _ _ _ block]

theorem boundary_next (boundary : OnBoundary (tripleBytes len) done) :
    OnBoundary (tripleBytes len) (done + if done < tripleBytes len then 48 else 16) := by
  have tripleWhole := triple_blocks len
  rcases boundary with ⟨whole, inside⟩ | ⟨past, whole⟩
  · split_ifs
    · exact Or.inl (by omega)
    · exact Or.inr (by omega)
  · rw [if_neg (by omega)]
    exact Or.inr (by omega)

theorem fillBlock_absorbed (rest : Bytes) (absorbed : Absorbed seed len s front)
    (more : s.processed + s.blockLen < s.processBytes) :
    Absorbed seed len (fillBlock s rest) (front ++ rest.take (take s rest)) := by
  obtain ⟨filledBlock, cursor, bound⟩ := fill_partial absorbed more
  have taken : (rest.take (take s rest)).length = take s rest := by
    rw [length_take]
    unfold take
    omega
  have within : take s rest ≤ s.processBytes - s.processed - s.blockLen := by unfold take; omega
  have room := absorbed.room
  have extended : lanes s =
    lanesAt (tripleBytes len) s.processed (front ++ rest.take (take s rest)) (initial seed) := by
    rw [lanesAt_append (by omega)]
    exact absorbed.lanes
  by_cases full : s.blockLen + take s rest = target s
  · let filled : WyHashStream := { s with
      block := s.block.store s.blockLen (rest.take (take s rest))
      blockLen := s.blockLen + take s rest }
    have done : fillBlock s rest = processBlock filled (target s) := by
      simp [fillBlock, full, filled]
    have sameTarget : target filled = target s := rfl
    obtain ⟨processed, emptied, sameTriple, sameProcess, _⟩ := processBlock_frame _ _
    have size : (front ++ rest.take (take s rest)).length = s.processed + target s := by
      rw [length_append, taken]
      omega
    have targetEq : target s = if s.processed < tripleBytes len then 48 else 16 := by
      rw [target, absorbed.triple]
    have blockEq : filled.block.items.take (target filled) =
      ((front ++ rest.take (take s rest)).drop filled.processed).take (target filled) := by
      rw [sameTarget, ← full]
      rw [filledBlock, take_of_length_le (by omega)]
      exact (take_of_length_le (by rw [length_drop]; omega)).symm
    have round := processBlock_lanes _ _ filled absorbed.triple absorbed.boundary extended blockEq
    rw [done]
    exact
      { triple := sameTriple.trans absorbed.triple
        process := sameProcess.trans absorbed.process
        boundary := by
          rw [processed, targetEq]
          exact boundary_next _ absorbed.boundary
        progress := by
          rw [processed, emptied, sameProcess, size]
          change s.processed + target s + 0 = min (s.processed + target s) s.processBytes
          omega
        room := by
          rw [emptied]
          exact target_pos _
        lanes := by
          rw [processed]
          exact round
        block := by
          rw [emptied, processed, sameProcess, take_zero]
          refine (drop_eq_nil_of_le ?_).symm
          rw [length_take, size]
          change min s.processBytes _ ≤ s.processed + target s
          omega }
  · have kept : fillBlock s rest = { s with
      block := s.block.store s.blockLen (rest.take (take s rest))
      blockLen := s.blockLen + take s rest } := by
      simp [fillBlock, full]
    rw [kept]
    exact
      { triple := absorbed.triple
        process := absorbed.process
        boundary := absorbed.boundary
        progress := by
          simp only [length_append, taken]
          omega
        room := by
          change s.blockLen + take s rest < target s
          omega
        lanes := extended
        block := filledBlock }

-- Past the processed prefix the block is empty and stays so.
theorem absorbed_ignores (absorbed : Absorbed seed len s front)
    (done : s.processBytes ≤ s.processed + s.blockLen) :
    Absorbed seed len s (front ++ rest) := by
  have progress := absorbed.progress
  exact
    { triple := absorbed.triple
      process := absorbed.process
      boundary := absorbed.boundary
      progress := by rw [length_append]; omega
      room := absorbed.room
      lanes := by
        rw [lanesAt_append (by omega)]
        exact absorbed.lanes
      block := by
        rw [take_append_of_le_length (by omega)]
        exact absorbed.block }

theorem fillBlock_frame :
    (fillBlock s rest).expected = s.expected ∧ (fillBlock s rest).received = s.received ∧
      (fillBlock s rest).tail = s.tail ∧ (fillBlock s rest).tailLen = s.tailLen := by
  unfold fillBlock
  dsimp only
  split
  · obtain ⟨_, _, _, _, expected, received, tail, tailLen⟩ := processBlock_frame
      { s with
        block := s.block.store s.blockLen (rest.take (take s rest))
        blockLen := s.blockLen + take s rest } (target s)
    exact ⟨expected, received, tail, tailLen⟩
  · exact ⟨rfl, rfl, rfl, rfl⟩

theorem absorb_frame (s : WyHashStream) (rest : Bytes) :
    (absorb fuel s rest).expected = s.expected ∧ (absorb fuel s rest).received = s.received ∧
      (absorb fuel s rest).tail = s.tail ∧ (absorb fuel s rest).tailLen = s.tailLen := by
  induction fuel generalizing s rest with
  | zero => exact ⟨rfl, rfl, rfl, rfl⟩
  | succ fuel ih =>
    rw [absorb]
    split
    · obtain ⟨expected, received, tail, tailLen⟩ := ih (fillBlock s rest) (rest.drop (take s rest))
      obtain ⟨expected', received', tail', tailLen'⟩ := fillBlock_frame s
      exact ⟨expected.trans expected', received.trans received', tail.trans tail', tailLen.trans tailLen'⟩
    · exact ⟨rfl, rfl, rfl, rfl⟩

/-- The loop consumes the whole chunk. Bytes behind the processed prefix only
reach the tail, so the block machinery may ignore them. -/
theorem absorb_absorbed (s : WyHashStream) (front rest : Bytes)
    (absorbed : Absorbed seed len s front) (enough : rest.length ≤ fuel) :
    Absorbed seed len (absorb fuel s rest) (front ++ rest) := by
  induction fuel generalizing s front rest with
  | zero =>
    have none : rest = [] := eq_nil_of_length_eq_zero (by omega)
    simpa [absorb, none] using absorbed
  | succ fuel ih =>
    rw [absorb]
    split
    · rename_i running
      have some : 0 < rest.length := length_pos_iff.mpr running.1
      have room := absorbed.room
      have progress : 0 < take s rest := by unfold take; omega
      have next := ih _ _ (rest.drop (take s rest)) (fillBlock_absorbed _ _ s rest absorbed running.2)
        (by rw [length_drop]; omega)
      rwa [append_assoc, take_append_drop] at next
    · rename_i stopped
      by_cases none : rest = []
      · simpa [none] using absorbed
      · have saturated : ¬ s.processed + s.blockLen < s.processBytes := fun h => stopped ⟨none, h⟩
        exact absorbed_ignores _ _ s absorbed (by omega)

structure Tailed (s : WyHashStream) (seen : Bytes) : Prop where
  tailLen : s.tailLen = min 16 seen.length
  tail : s.tail.items.take s.tailLen = window 16 seen

theorem updateTail_tailed (seen bytes : Bytes) (tailed : Tailed s seen) :
    Tailed (updateTail s bytes) (seen ++ bytes) := by
  have tailLen := tailed.tailLen
  unfold updateTail
  by_cases long : bytes.length ≥ 16
  · have cut : (bytes.drop (bytes.length - 16)).length = 16 := by
      rw [length_drop]
      omega
    have written := store_take s.tail 0 (bytes.drop (bytes.length - 16)) (by omega)
    rw [cut] at written
    rw [if_pos long]
    exact
      { tailLen := by simp only [length_append]; omega
        tail := by
          rw [window_append_long long]
          simpa [window] using written }
  · rw [if_neg long]
    have short : bytes.length ≤ 16 := by omega
    have keepLen : (window (16 - bytes.length) seen).length = min s.tailLen (16 - bytes.length) := by
      rw [window_length]
      omega
    -- What is kept of the old tail is itself a window of the bytes seen before.
    have kept : (s.tail.items.drop (s.tailLen - min s.tailLen (16 - bytes.length))).take
      (min s.tailLen (16 - bytes.length)) = window (16 - bytes.length) seen := by
      have inner := window_window 16 (16 - bytes.length) seen (by omega)
      rw [← tailed.tail, window, length_take, s.tail.size_eq] at inner
      rw [← inner, drop_take]
      congr 1
      · omega
      · congr 1
        omega
    have moved : ∀ buffer : Buffer UInt8 16, buffer = (if min s.tailLen (16 - bytes.length) > 0 then
        s.tail.store 0 ((s.tail.items.drop (s.tailLen - min s.tailLen (16 - bytes.length))).take
          (min s.tailLen (16 - bytes.length))) else s.tail) →
      buffer.items.take (min s.tailLen (16 - bytes.length)) = window (16 - bytes.length) seen := by
      intro buffer chosen
      by_cases some : min s.tailLen (16 - bytes.length) > 0
      · rw [if_pos some, kept] at chosen
        have written := store_take s.tail 0 (window (16 - bytes.length) seen) (by omega)
        rw [keepLen, Nat.zero_add] at written
        rw [chosen, written]
        rfl
      · have zero : min s.tailLen (16 - bytes.length) = 0 := by omega
        rw [zero, take_zero]
        rw [zero] at keepLen
        exact (eq_nil_of_length_eq_zero keepLen).symm
    exact
      { tailLen := by simp only [length_append]; omega
        tail := by
          rw [store_take _ _ _ (by omega), moved _ rfl, window_append_short seen short] }

theorem updateTail_frame (bytes : Bytes) :
    ∃ tail tailLen, updateTail s bytes = { s with tail := tail, tailLen := tailLen } := by
  unfold updateTail
  split
  · exact ⟨_, _, rfl⟩
  · exact ⟨_, _, rfl⟩

/-! The whole state after any accepted bytes. -/

structure Represents (seed : UInt64) (len : Nat) (s : WyHashStream) (seen : Bytes) : Prop where
  expected : s.expected = len
  received : s.received = seen.length
  bounded : seen.length ≤ len
  absorbed : Absorbed seed len s seen
  tailed : Tailed s seen

theorem forLen_represents : Represents seed len (forLen seed len) [] where
  expected := rfl
  received := rfl
  bounded := Nat.zero_le _
  absorbed :=
    { triple := rfl
      process := rfl
      boundary := Or.inl ⟨rfl, Nat.zero_le _⟩
      progress := by simp [forLen]
      room := target_pos _
      lanes := (lanesAt_zero _ _ _).symm
      block := by simp [forLen] }
  tailed := ⟨rfl, rfl⟩

variable (seed : UInt64) (len : Nat) (s : WyHashStream) (seen bytes : Bytes)

theorem update_represents (rep : Represents seed len s seen) (fits : seen.length + bytes.length ≤ len) :
    (update s bytes).2 = true ∧ Represents seed len (update s bytes).1 (seen ++ bytes) := by
  have accepted : ¬ bytes.length > s.expected - s.received := by
    rw [rep.expected, rep.received]
    omega
  have tailed := updateTail_tailed s _ bytes rep.tailed
  obtain ⟨tail, tailLen, shape⟩ := updateTail_frame s _
  rw [shape] at tailed
  simp only [update, accepted, ↓reduceIte, shape, true_and]
  let start : WyHashStream :=
    { s with tail := tail, tailLen := tailLen, received := s.received + bytes.length }
  have ready : Absorbed seed len start seen :=
    ⟨rep.absorbed.triple, rep.absorbed.process, rep.absorbed.boundary, rep.absorbed.progress,
      rep.absorbed.room, rep.absorbed.lanes, rep.absorbed.block⟩
  obtain ⟨expected, received, sameTail, sameTailLen⟩ := absorb_frame _ _
  exact
    { expected := expected.trans rep.expected
      received := by
        rw [received, length_append, ← rep.received]
      bounded := by rw [length_append]; exact fits
      absorbed := absorb_absorbed _ _ _ _ _ ready (Nat.le_refl _)
      tailed := by
        constructor
        · rw [sameTailLen]
          exact tailed.tailLen
        · rw [sameTail, sameTailLen]
          exact tailed.tail }

theorem update_refused (rep : Represents seed len s seen) (excess : len < seen.length + bytes.length) :
    update s bytes = (s, false) := by
  have refused : bytes.length > s.expected - s.received := by
    rw [rep.expected, rep.received]
    have := rep.bounded
    omega
  simp [update, refused]

/-- Before the declared length arrived there is no result; at it, the result is
the one-shot hash of exactly the accepted bytes. -/
theorem finish_represents (addressable : len < 2 ^ 64) {s : WyHashStream} {seen : Bytes}
    (rep : Represents seed len s seen) :
    finish s = if seen.length = len then some (wyhash seen seed) else none := by
  by_cases complete : seen.length = len
  · have absorbed := rep.absorbed
    have prefixBound := process_bound len
    have progress := absorbed.progress
    rw [complete, absorbed.process, Nat.min_eq_right prefixBound] at progress
    have boundary := absorbed.boundary
    have room := absorbed.room
    -- No started block is left: a block that begins before the end also ends there.
    have settled : s.processed = s.processBytes ∧ s.blockLen = 0 := by
      rw [absorbed.process]
      by_cases more : s.processed < tripleBytes len + singleBytes len
      · have fits := block_fits boundary more
        rw [target, absorbed.triple] at room
        omega
      · omega
    have tailed := rep.tailed
    have bounds : ¬ (s.received ≠ s.expected ∨ s.processed ≠ s.processBytes ∨ s.blockLen ≠ 0) := by
      rw [rep.received, rep.expected]
      simp [complete, settled]
    have seedEq : s.seed = (lanesAt (tripleBytes len) (tripleBytes len + singleBytes len) seen
      (initial seed)).seed := by
      have lanesEq := absorbed.lanes
      rw [settled.1, absorbed.process] at lanesEq
      exact congrArg Lanes.seed lanesEq
    rw [finish, if_neg bounds, rep.expected, if_pos complete]
    simp only [addressable, ↓reduceIte]
    by_cases short : len ≤ 16
    · have whole : s.tail.items.take len = seen := by
        have tail := tailed.tail
        rw [tailed.tailLen, complete, Nat.min_eq_right short, window, complete, Nat.sub_eq_zero_of_le short,
          drop_zero] at tail
        exact tail
      have shortKey : seen.length ≤ 16 := by omega
      have seedShort : s.seed = mixSeed seed := by
        rw [seedEq]
        have zero : tripleBytes len = 0 := by simp [tripleBytes]; omega
        have zero' : singleBytes len = 0 := by simp [singleBytes]; omega
        rw [zero, zero', lanesAt_zero]
        rfl
      rw [if_pos short, wyhash, if_pos shortKey, seedShort, complete, shortLanes_congr short whole complete]
    · have longKey : seen.length > 16 := by omega
      have tail := tailed.tail
      rw [tailed.tailLen, complete, Nat.min_eq_left (by omega),
        take_of_length_le (Nat.le_of_eq s.tail.size_eq), window] at tail
      rw [if_neg short, wyhash_long longKey, seedEq, tail, complete, drop_drop]
      have shift : len - 16 + 8 = len - 8 := by omega
      rw [shift]
  · have pending : s.received ≠ s.expected := by
      rw [rep.received, rep.expected]
      exact complete
    simp [finish, pending, complete]

/-! Runs of the stream. A call that does not fit is refused and leaves no trace. -/

def feed : WyHashStream → List Bytes → WyHashStream × List Bool
  | s, [] => (s, [])
  | s, bytes :: rest =>
      let first := update s bytes
      let tail := feed first.1 rest
      (tail.1, first.2 :: tail.2)

/-- The calls that fit the declared length, given the bytes accepted before. -/
def fitting (len : Nat) : Nat → List Bytes → List Bytes
  | _, [] => []
  | total, bytes :: rest =>
      if total + bytes.length ≤ len then bytes :: fitting len (total + bytes.length) rest
      else fitting len total rest

theorem feed_represents (calls : List Bytes) (rep : Represents seed len s seen) :
    Represents seed len (feed s calls).1 (seen ++ (fitting len seen.length calls).flatten) ∧
      (feed s calls).1 = (feed s (fitting len seen.length calls)).1 := by
  induction calls generalizing s seen with
  | nil => simpa [feed, fitting] using rep
  | cons bytes rest ih =>
    by_cases fits : seen.length + bytes.length ≤ len
    · obtain ⟨_, next⟩ := update_represents _ _ s _ _ rep fits
      have tail := ih (update s bytes).1 (seen ++ bytes) next
      simpa [feed, fitting, fits, append_assoc] using tail
    · have refused := update_refused _ _ s _ bytes rep (by omega)
      simpa [feed, fitting, fits, refused] using ih s seen rep

theorem feed_accepts (chunks : List Bytes) (rep : Represents seed len s seen)
    (fits : seen.length + chunks.flatten.length ≤ len) :
    (∀ verdict ∈ (feed s chunks).2, verdict = true) ∧
      fitting len seen.length chunks = chunks := by
  induction chunks generalizing s seen with
  | nil => simp [feed, fitting]
  | cons bytes rest ih =>
    rw [flatten_cons, length_append] at fits
    have head : seen.length + bytes.length ≤ len := by omega
    obtain ⟨accepted, next⟩ := update_represents _ _ s _ _ rep head
    have tail := ih (update s bytes).1 (seen ++ bytes) next (by rw [length_append]; omega)
    rw [length_append] at tail
    simp only [feed, fitting, head, ↓reduceIte, tail.2, mem_cons, forall_eq_or_imp, and_true]
    exact ⟨accepted, tail.1⟩

/-- Every run of the stream against one-shot wyhash. The first clause is the one
for an arbitrary split of a byte string; the others hold after arbitrary calls,
refused ones included. -/
theorem stream_agrees (seed : UInt64) (len : Nat) (addressable : len < 2 ^ 64) (calls : List Bytes) :
    let run := feed (forLen seed len) calls
    let kept := fitting len 0 calls
    (calls.flatten.length = len →
      (∀ verdict ∈ run.2, verdict = true) ∧ finish run.1 = some (wyhash calls.flatten seed)) ∧
    (∀ bytes, len < kept.flatten.length + bytes.length → update run.1 bytes = (run.1, false)) ∧
    (∀ bytes, kept.flatten.length + bytes.length ≤ len → (update run.1 bytes).2 = true) ∧
    run.1 = (feed (forLen seed len) kept).1 ∧
    (finish run.1 = none ↔ kept.flatten.length < len) := by
  intro run kept
  have start := forLen_represents seed len
  obtain ⟨rep, same⟩ := feed_represents seed len (forLen seed len) [] calls start
  rw [nil_append, length_nil] at rep
  have result := finish_represents seed len addressable rep
  refine ⟨?_, ?_, ?_, same, ?_⟩
  · intro exact'
    have accepts := feed_accepts seed len (forLen seed len) [] calls start (by simp [exact'])
    have all : fitting len 0 calls = calls := accepts.2
    refine ⟨accepts.1, ?_⟩
    rw [result, all, if_pos exact']
  · intro bytes excess
    exact update_refused seed len run.1 _ bytes rep excess
  · intro bytes fits
    exact (update_represents seed len run.1 _ bytes rep fits).1
  · rw [result]
    have bounded := rep.bounded
    by_cases complete : (fitting len 0 calls).flatten.length = len
    · simp only [complete, ↓reduceIte, reduceCtorEq, kept, Nat.lt_irrefl]
    · simp only [complete, ↓reduceIte, true_iff, kept]
      omega

theorem stream_agrees_abc :
    finish (feed (forLen 0 3) [[97], [], [98, 99]]).1 = some (wyhash [97, 98, 99] 0) ∧
      update (feed (forLen 0 3) [[97]]).1 [97, 98, 99] = ((feed (forLen 0 3) [[97]]).1, false) :=
  ⟨((stream_agrees 0 3 (by decide) [[97], [], [98, 99]]).1 rfl).2,
    (stream_agrees 0 3 (by decide) [[97]]).2.1 [97, 98, 99] (by decide)⟩

end Align.HashStream
