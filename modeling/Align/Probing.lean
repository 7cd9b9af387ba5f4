import Mathlib

/-! Open addressing with linear probing. A table is a list of slots; the search
for an item starts at the home of its key and goes on cyclically to the first
slot that is free or holds what is looked for. `Placed` is the invariant: every
item is reachable from its home over occupied slots, and no key occurs twice. It
makes a search that ends at a free slot a proof of absence. -/
namespace Align.Probing
open List

universe u v
variable {α : Type u} {κ : Type v}

def cell (slots : List (Option α)) (slot : Nat) : Option α := slots.getD slot none

/-- The first slot from `slot` on that is free or holds a `same` item; nothing
when the steps do not suffice. -/
def search (slots : List (Option α)) (same : α → Bool) : Nat → Nat → Option Nat
  | 0, _ => none
  | steps + 1, slot =>
      match cell slots slot with
      | none => some slot
      | some item => if same item then some slot else search slots same steps ((slot + 1) % slots.length)

def contents (slots : List (Option α)) : List α := slots.filterMap id

theorem cell_inside {slots : List (Option α)} {slot : Nat} (item : α) (found : cell slots slot = some item) :
    slot < slots.length := by
  by_contra outside
  simp [cell, getElem?_eq_none (Nat.le_of_not_lt outside)] at found

theorem cell_set {slots : List (Option α)} {slot : Nat} (inside : slot < slots.length) :
    cell (slots.set slot value) other = if other = slot then value else cell slots other := by
  by_cases same : other = slot
  · subst same
    simp [cell, inside]
  · simp [cell, same, getElem?_set_ne (Ne.symm same)]

theorem mem_contents (slots : List (Option α)) (item : α) :
    item ∈ contents slots ↔ ∃ slot, cell slots slot = some item := by
  rw [contents, mem_filterMap]
  simp only [id_eq, exists_eq_right]
  rw [mem_iff_getElem?]
  constructor
  · rintro ⟨slot, found⟩
    exact ⟨slot, by simp [cell, found]⟩
  · rintro ⟨slot, found⟩
    have inside := cell_inside _ found
    refine ⟨slot, ?_⟩
    simpa [cell, getElem?_eq_getElem inside] using found

section Search
variable {slots : List (Option α)} (same : α → Bool)

theorem search_path (start : Nat) {slot : Nat} (inside : start < slots.length)
    (found : search slots same steps start = some slot) :
    ∃ i, slot = (start + i) % slots.length ∧ (∀ item, cell slots slot = some item → same item = true) ∧
      ∀ j < i, ∃ item, cell slots ((start + j) % slots.length) = some item ∧ same item = false := by
  induction steps generalizing start with
  | zero => cases found
  | succ steps ih =>
    have here : (start + 0) % slots.length = start := Nat.mod_eq_of_lt inside
    rw [search] at found
    rcases holds : cell slots start with _ | item
    · simp only [holds] at found
      cases found
      exact ⟨0, here.symm, by simp [holds], by simp⟩
    cases matched : same item with
    | true =>
      simp only [holds, matched, ↓reduceIte] at found
      cases found
      refine ⟨0, here.symm, ?_, by simp⟩
      intro other again
      rw [holds] at again
      cases again
      exact matched
    | false =>
      simp only [holds, matched] at found
      obtain ⟨i, place, stops, passed⟩ := ih ((start + 1) % slots.length)
        (Nat.mod_lt _ (Nat.zero_lt_of_lt inside)) found
      have shift : ∀ j, ((start + 1) % slots.length + j) % slots.length =
        (start + (j + 1)) % slots.length := by
        intro j
        rw [Nat.mod_add_mod, Nat.add_assoc, Nat.add_comm 1]
      refine ⟨i + 1, by rw [place, shift], stops, ?_⟩
      intro j below
      cases j with
      | zero => exact ⟨item, by rw [here, holds], matched⟩
      | succ j =>
        rw [← shift]
        exact passed j (Nat.lt_of_succ_lt_succ below)

theorem search_reaches (start distance : Nat) (inside : start < slots.length)
    (near : distance < steps) (free : cell slots ((start + distance) % slots.length) = none) :
    ∃ slot, search slots same steps start = some slot := by
  induction steps generalizing start distance with
  | zero => omega
  | succ steps ih =>
    rw [search]
    rcases holds : cell slots start with _ | item
    · exact ⟨start, rfl⟩
    cases matched : same item with
    | true => exact ⟨start, by simp [matched]⟩
    | false =>
      cases distance with
      | zero =>
        rw [Nat.add_zero, Nat.mod_eq_of_lt inside, holds] at free
        cases free
      | succ distance =>
        have shift : ((start + 1) % slots.length + distance) % slots.length =
          (start + (distance + 1)) % slots.length := by
          rw [Nat.mod_add_mod, Nat.add_assoc, Nat.add_comm 1]
        have next := ih ((start + 1) % slots.length) distance
          (Nat.mod_lt _ (Nat.zero_lt_of_lt inside)) (Nat.lt_of_succ_lt_succ near) (by rw [shift, free])
        simpa [matched] using next

theorem search_ends (inside : start < slots.length) (within : free < slots.length)
    (empty : cell slots free = none) : ∃ slot, search slots same slots.length start = some slot := by
  apply search_reaches _ _ _ inside
    (Nat.mod_lt _ (Nat.zero_lt_of_lt inside))
  have round : (start + (free + slots.length - start) % slots.length) % slots.length = free := by
    rw [Nat.add_mod_mod, show start + (free + slots.length - start) = free + slots.length by omega,
      Nat.add_mod_right, Nat.mod_eq_of_lt within]
  rw [round, empty]

end Search

/-- Every item is reachable from its home, and no key occurs twice. -/
structure Placed (key : α → κ) (home : κ → Nat) (slots : List (Option α)) : Prop where
  reach : ∀ slot item, cell slots slot = some item →
    ∃ i, slot = (home (key item) + i) % slots.length ∧
      ∀ j < i, (cell slots ((home (key item) + j) % slots.length)).isSome = true
  unique : ∀ slot slot' item item', cell slots slot = some item → cell slots slot' = some item' →
    key item = key item' → slot = slot'

section Placed
variable {key : α → κ} {home : κ → Nat} {slots : List (Option α)}

theorem placed_empty (size : Nat) : Placed key home (List.replicate size none) := by
  have empty : ∀ slot, cell (List.replicate size (none : Option α)) slot = none := by
    intro slot
    simp only [cell, getD_eq_getElem?_getD, getElem?_replicate]
    split <;> rfl
  constructor
  · intro slot item found
    rw [empty] at found
    cases found
  · intro slot slot' item item' found
    rw [empty] at found
    cases found

theorem Placed.absent (placed : Placed key home slots) (same : α → Bool) (k : κ)
    (exact : ∀ item, same item = true ↔ key item = k) (steps slot : Nat) (inside : home k < slots.length)
    (found : search slots same steps (home k) = some slot) (free : cell slots slot = none) :
    ∀ item ∈ contents slots, key item ≠ k := by
  rintro item member rfl
  obtain ⟨place, holds⟩ := (mem_contents _ _).mp member
  obtain ⟨i, rfl, occupied⟩ := placed.reach place item holds
  obtain ⟨i', rfl, -, passed⟩ := search_path _ _ inside found
  rcases Nat.lt_trichotomy i' i with before | here | behind
  · have full := occupied i' before
    rw [free] at full
    cases full
  · subst here
    rw [holds] at free
    cases free
  obtain ⟨other, again, differs⟩ := passed i behind
  rw [holds] at again
  cases again
  rw [(exact item).mpr rfl] at differs
  cases differs

theorem Placed.put (placed : Placed key home slots) (item : α) (i : Nat) (inside : 0 < slots.length)
    (passed : ∀ j < i, (cell slots ((home (key item) + j) % slots.length)).isSome = true)
    (absent : ∀ other ∈ contents slots, key other ≠ key item) :
    Placed key home (slots.set ((home (key item) + i) % slots.length) (some item)) := by
  have within : (home (key item) + i) % slots.length < slots.length := Nat.mod_lt _ inside
  have kept : ∀ slot, (cell slots slot).isSome = true →
    (cell (slots.set ((home (key item) + i) % slots.length) (some item)) slot).isSome = true := by
    intro slot full
    rw [cell_set within]
    split
    · rfl
    · exact full
  constructor
  · intro slot other found
    rw [length_set]
    rw [cell_set within] at found
    split at found
    case isTrue here =>
      cases found
      exact ⟨i, here, fun j below => kept _ (passed j below)⟩
    case isFalse =>
      obtain ⟨i', place, occupied⟩ := placed.reach slot other found
      exact ⟨i', place, fun j below => kept _ (occupied j below)⟩
  · intro slot slot' a b found found' same
    rw [cell_set within] at found found'
    split at found
    case isTrue here =>
      cases found
      split at found'
      case isTrue here' => rw [here, here']
      case isFalse => exact absurd same.symm (absent b ((mem_contents _ b).mpr ⟨slot', found'⟩))
    case isFalse =>
      split at found'
      case isTrue =>
        cases found'
        exact absurd same (absent a ((mem_contents _ a).mpr ⟨slot, found⟩))
      case isFalse => exact placed.unique slot slot' a b found found' same

theorem Placed.replace (placed : Placed key home slots) (slot : Nat) (old new : α)
    (holds : cell slots slot = some old) (same : key new = key old) :
    Placed key home (slots.set slot (some new)) := by
  have within := cell_inside _ holds
  -- Each slot holds an item of the key it held before.
  have before : ∀ place item, cell (slots.set slot (some new)) place = some item →
    ∃ item', cell slots place = some item' ∧ key item' = key item := by
    intro place item found
    rw [cell_set within] at found
    split at found
    case isTrue here =>
      cases found
      exact ⟨old, here ▸ holds, same.symm⟩
    case isFalse => exact ⟨item, found, rfl⟩
  have kept : ∀ place, (cell slots place).isSome = true →
    (cell (slots.set slot (some new)) place).isSome = true := by
    intro place full
    rw [cell_set within]
    split
    · rfl
    · exact full
  constructor
  · intro place item found
    obtain ⟨item', found', alike⟩ := before place item found
    obtain ⟨i, here, occupied⟩ := placed.reach place item' found'
    rw [length_set, ← alike]
    exact ⟨i, here, fun j below => kept _ (occupied j below)⟩
  · intro place place' item item' found found' equal
    obtain ⟨a, foundA, alikeA⟩ := before place item found
    obtain ⟨b, foundB, alikeB⟩ := before place' item' found'
    exact placed.unique place place' a b foundA foundB (by rw [alikeA, alikeB, equal])

end Placed

variable (slots : List (Option α)) (slot : Nat)

theorem contents_split (inside : slot < slots.length) :
    contents slots = contents (slots.take slot) ++ ((cell slots slot).toList ++ contents (slots.drop (slot + 1))) := by
  have parts : slots = slots.take slot ++ slots.get ⟨slot, inside⟩ :: slots.drop (slot + 1) := by simp
  have here : cell slots slot = slots.get ⟨slot, inside⟩ := by simp [cell, inside]
  rw [here]
  conv => lhs; rw [parts, contents, filterMap_append, filterMap_cons]
  cases slots.get ⟨slot, inside⟩ <;> rfl

theorem contents_set (item : α) (inside : slot < slots.length) :
    contents (slots.set slot (some item)) =
      contents (slots.take slot) ++ (item :: contents (slots.drop (slot + 1))) := by
  rw [contents_split _ _ (by simpa using inside), cell_set inside, if_pos rfl]
  simp [take_set_of_le, drop_set_of_lt]

theorem contents_put (item : α) (inside : slot < slots.length) (free : cell slots slot = none) :
    (contents (slots.set slot (some item))).Perm (item :: contents slots) := by
  rw [contents_set _ _ _ inside, contents_split _ _ inside, free]
  exact perm_middle

theorem contents_replace (old new : α) (holds : cell slots slot = some old) :
    ∃ others, (contents slots).Perm (old :: others) ∧ (contents (slots.set slot (some new))).Perm (new :: others) := by
  have inside := cell_inside _ holds
  refine ⟨contents (slots.take slot) ++ contents (slots.drop (slot + 1)), ?_, ?_⟩
  · rw [contents_split _ _ inside, holds]
    exact perm_middle
  · rw [contents_set _ _ _ inside]
    exact perm_middle

theorem free_slot (few : (contents slots).length < slots.length) :
    ∃ slot < slots.length, cell slots slot = none := by
  by_contra full
  simp only [not_exists, not_and] at full
  have all : ∀ entry ∈ slots, entry.isSome = true := by
    intro entry member
    obtain ⟨slot, inside, rfl⟩ := getElem_of_mem member
    have occupied := full slot inside
    rw [cell] at occupied
    simpa [Option.isSome_iff_ne_none, inside] using occupied
  have size : (contents slots).length = slots.length := by
    rw [contents, length_filterMap_eq_countP]
    exact countP_eq_length.mpr fun entry member => by simpa using all entry member
  omega

section Put
variable {key : α → κ} {home : κ → Nat} {slots : List (Option α)}

/-- A whole-table search from the home of a key that is absent, or with no
interest in what is there, ends at a free slot, and the item may be put there. -/
theorem Placed.search_put (placed : Placed key home slots) (item : α) (same : α → Bool) (slot : Nat)
    (inside : home (key item) < slots.length)
    (found : search slots same slots.length (home (key item)) = some slot) (free : cell slots slot = none)
    (absent : ∀ other ∈ contents slots, key other ≠ key item) :
    Placed key home (slots.set slot (some item)) ∧
      (contents (slots.set slot (some item))).Perm (item :: contents slots) := by
  obtain ⟨i, rfl, -, passed⟩ := search_path _ _ inside found
  have positive := Nat.zero_lt_of_lt inside
  refine ⟨placed.put _ i positive ?_ absent, contents_put _ _ _ (Nat.mod_lt _ positive) free⟩
  intro j below
  obtain ⟨other, holds, -⟩ := passed j below
  rw [holds]
  rfl

end Put

/-- Put an item into the next free slot from its home. -/
def insertFresh (home : α → Nat) (slots : List (Option α)) (item : α) : Option (List (Option α)) :=
  (search slots (fun _ => false) slots.length (home item)).map fun slot => slots.set slot (some item)

/-- A new table of `size` slots with the items put in one after the other. -/
def rehash (home : α → Nat) (size : Nat) (items : List α) : Option (List (Option α)) :=
  items.foldlM (insertFresh home) (List.replicate size none)

section Rehash
variable (key : α → κ) (home : κ → Nat) {size : Nat} (homes : ∀ k, home k < size)
include homes

theorem insertFresh_placed (slots : List (Option α)) (item : α) (placed : Placed key home slots)
    (long : slots.length = size) (few : (contents slots).length < size)
    (absent : ∀ other ∈ contents slots, key other ≠ key item) :
    ∃ slots', insertFresh (fun item => home (key item)) slots item = some slots' ∧ slots'.length = size ∧
      Placed key home slots' ∧ (contents slots').Perm (item :: contents slots) := by
  have inside : home (key item) < slots.length := long ▸ homes (key item)
  obtain ⟨free, within, empty⟩ := free_slot _ (long ▸ few)
  obtain ⟨slot, found⟩ := search_ends (fun _ => false) inside within empty
  obtain ⟨i, place, stops, -⟩ := search_path _ _ inside found
  have unused : cell slots slot = none := by
    cases holds : cell slots slot with
    | none => rfl
    | some other => cases stops other holds
  refine ⟨slots.set slot (some item), by rw [insertFresh, found]; rfl, by rw [length_set, long], ?_⟩
  exact placed.search_put _ _ _ inside found unused absent

theorem insertAll_placed (slots : List (Option α)) (placed : Placed key home slots)
    (long : slots.length = size) (few : (contents slots).length + items.length ≤ size)
    (distinct : ((contents slots ++ items).map key).Nodup) :
    ∃ slots', items.foldlM (insertFresh fun item => home (key item)) slots = some slots' ∧
      slots'.length = size ∧ Placed key home slots' ∧ (contents slots').Perm (contents slots ++ items) := by
  induction items generalizing slots with
  | nil => exact ⟨slots, rfl, long, placed, by rw [append_nil]⟩
  | cons item rest ih =>
    rw [length_cons] at few
    have front : ((contents slots ++ item :: rest).map key).Perm
      ((item :: (contents slots ++ rest)).map key) := perm_middle.map key
    have absent : ∀ other ∈ contents slots, key other ≠ key item := by
      intro other member same
      have head := front.nodup_iff.mp distinct
      rw [map_cons, nodup_cons] at head
      exact head.1 (mem_map.mpr ⟨other, mem_append_left rest member, same⟩)
    obtain ⟨next, step, long', placed', held⟩ :=
      insertFresh_placed _ _ homes _ _ placed long (by omega) absent
    have regrouped : (contents next ++ rest).Perm (contents slots ++ item :: rest) :=
      (held.append_right rest).trans perm_middle.symm
    obtain ⟨slots', run, long'', placed'', held'⟩ := ih next placed' long'
      (by rw [held.length_eq, length_cons]; omega)
      ((regrouped.map key).nodup_iff.mpr distinct)
    refine ⟨slots', ?_, long'', placed'', held'.trans regrouped⟩
    rw [foldlM_cons, step]
    exact run

theorem rehash_placed (few : items.length ≤ size) (distinct : (items.map key).Nodup) :
    ∃ slots, rehash (fun item => home (key item)) size items = some slots ∧ slots.length = size ∧
      Placed key home slots ∧ (contents slots).Perm items := by
  have nothing : contents (List.replicate size (none : Option α)) = [] := by
    simp [contents]
  obtain ⟨slots, run, long, placed, held⟩ := insertAll_placed key _ homes
    _ (placed_empty _) length_replicate (by simpa [nothing] using few)
    (by simpa [nothing] using distinct)
  rw [nothing, nil_append] at held
  exact ⟨slots, run, long, placed, held⟩

end Rehash

end Align.Probing
