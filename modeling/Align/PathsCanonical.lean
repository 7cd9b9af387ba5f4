import Align.Paths

/-! The block written by `normalize` simulates the stack of components, with room
for every write; the canonical form is a fixed point and depends only on the
components, which `dir`, `base` and `join` keep. -/
namespace Align.Paths
open Scan Segments List

def root (absolute : Bool) : Bytes := if absolute then [slash] else []

theorem render_nil (absolute : Bool) : render absolute [] = root absolute := append_nil _

variable (absolute : Bool) (stack : List Bytes)

/-- What stands in front of a component pushed on the stack. -/
def front : Bytes := if stack = [] then root absolute else render absolute stack ++ [slash]

theorem render_concat (comp : Bytes) :
    render absolute (stack ++ [comp]) = front absolute stack ++ comp := by
  by_cases empty : stack = []
  · subst empty
    simp [render, front, root, List.intercalate]
  · rw [front, if_neg empty, render, intercalate_concat empty, render, append_assoc, append_assoc]
    rfl

theorem root_le : (root absolute).length ≤ (render absolute stack).length := by
  rw [render, length_append]
  exact Nat.le_add_right _ _

theorem render_length (named : ∀ comp ∈ stack, Named comp) :
    (render absolute stack).length = (root absolute).length ↔ stack = [] := by
  rw [render, length_append, ← intercalate_ne_nil named, ← length_eq_zero_iff]
  change (root absolute).length + _ = _ ↔ _
  omega

theorem front_length : max ((front absolute stack).length - 1) (root absolute).length =
    (render absolute stack).length := by
  rw [front]
  split_ifs with empty
  · rw [empty, render_nil]
    omega
  · have := root_le absolute stack
    rw [length_append, length_singleton, Nat.add_sub_cancel]
    omega

theorem take_front (last : Bytes) :
    (render absolute (stack ++ [last])).take (render absolute stack).length =
      render absolute stack := by
  rw [render_concat, front]
  split_ifs with empty
  · rw [empty, render_nil, take_left]
  · rw [append_assoc, take_left]

theorem rdropWhile_component (front last : Bytes) (clean : slash ∉ last)
    (ends : front = [] ∨ ∃ before, front = before ++ [slash]) :
    (front ++ last).rdropWhile notSlash = front := by
  have free : ∀ c ∈ last.reverse, notSlash c = true := by
    intro c member
    have other : c ≠ slash := fun same => clean (same ▸ mem_reverse.mp member)
    exact bne_iff_ne.mpr other
  rw [List.rdropWhile, reverse_append, dropWhile_append_of_pos free]
  rcases ends with rfl | ⟨before, rfl⟩
  · rfl
  · rw [reverse_append]
    change ((slash :: before.reverse).dropWhile notSlash).reverse = _
    rw [dropWhile_cons_of_neg (by decide), reverse_cons, reverse_reverse]

theorem front_ends : front absolute stack = [] ∨ ∃ before, front absolute stack = before ++ [slash] := by
  rw [front]
  split_ifs
  · cases absolute with
    | false => exact .inl rfl
    | true => exact .inr ⟨[], rfl⟩
  · exact .inr ⟨_, rfl⟩

structure Holds (absolute : Bool) (stack : List Bytes) (output : Output) : Prop where
  inside : output.len ≤ output.dst.length
  written : output.dst.take output.len = render absolute stack
  named : ∀ comp ∈ stack, Named comp

variable {absolute : Bool} {stack : List Bytes} {output : Output}

theorem Holds.length (holds : Holds absolute stack output) : output.len = (render absolute stack).length := by
  rw [← holds.written, length_take, Nat.min_eq_left holds.inside]

theorem write_some (output : Output) (bytes : Bytes) (room : output.len + bytes.length ≤ output.dst.length) :
    ∃ after, output.write bytes = some after ∧ after.len = output.len + bytes.length ∧
      after.dst.length = output.dst.length ∧
      after.dst.take after.len = output.dst.take output.len ++ bytes := by
  refine ⟨⟨output.dst.take output.len ++ bytes ++ output.dst.drop (output.len + bytes.length),
    output.len + bytes.length⟩, ?_, rfl, ?_, ?_⟩
  · rw [Output.write, store, if_pos room]
    rfl
  · simp only [length_append, length_take, length_drop]
    omega
  · apply take_left'
    rw [length_append, length_take, Nat.min_eq_left (by omega)]

theorem above_root (holds : Holds absolute stack output) :
    (root absolute).length < output.len ↔ stack ≠ [] := by
  have least := root_le absolute stack
  rw [holds.length, ne_eq, ← render_length absolute _ holds.named]
  omega

theorem separator_iff (holds : Holds absolute stack output) :
    (0 < output.len ∧ ¬ (absolute = true ∧ output.len = 1)) ↔ stack ≠ [] := by
  rw [← above_root holds]
  cases absolute with
  | false =>
    simp only [Bool.false_eq_true, false_and, not_false_eq_true, and_true]
    rfl
  | true =>
    change _ ↔ 1 < output.len
    simp only [true_and]
    omega

theorem append_holds (holds : Holds absolute stack output) (named : Named comp)
    (room : output.len + comp.length + (if stack = [] then 0 else 1) ≤ output.dst.length) :
    ∃ after, pathOutputAppend output absolute comp = some after ∧
      Holds absolute (stack ++ [comp]) after ∧ after.dst.length = output.dst.length ∧
      after.len = output.len + comp.length + (if stack = [] then 0 else 1) := by
  have names : ∀ other ∈ stack ++ [comp], Named other :=
    forall_mem_append.mpr ⟨holds.named, forall_mem_singleton.mpr named⟩
  rw [pathOutputAppend]
  by_cases empty : stack = []
  · rw [if_pos empty] at room ⊢
    rw [if_neg fun separated => (separator_iff holds).mp separated empty, Option.bind_some]
    rcases write_some _ _ room with ⟨after, wrote, len, size, text⟩
    refine ⟨after, wrote, ⟨by omega, ?_, names⟩, size, len⟩
    rw [text, holds.written, render_concat, front, if_pos empty, empty, render_nil]
  · rw [if_neg empty] at room ⊢
    rw [if_pos ((separator_iff holds).mpr empty)]
    rcases write_some output [slash] (by rw [length_singleton]; omega) with
      ⟨middle, first, len, size, text⟩
    rw [length_singleton] at len
    rcases write_some middle comp (by omega) with ⟨after, second, len', size', text'⟩
    rw [first, Option.bind_some]
    refine ⟨after, second, ⟨by omega, ?_, names⟩, by omega, by omega⟩
    rw [text', text, holds.written, render_concat, front, if_neg empty]

variable {absolute : Bool} {init : List Bytes} {last : Bytes} {output : Output}

theorem component_start (holds : Holds absolute (init ++ [last]) output) :
    pathOutputComponentStart output = (front absolute init).length ∧
      output.len = pathOutputComponentStart output + last.length := by
  have clean := (holds.named _ (mem_append_right _ mem_cons_self)).2
  have start : pathOutputComponentStart output = (front absolute init).length := by
    rw [pathOutputComponentStart, scanBack_length _ _ holds.inside, holds.written, render_concat,
      rdropWhile_component _ _ clean (front_ends _ _)]
  refine ⟨start, ?_⟩
  rw [start, holds.length, render_concat, length_append]

theorem pop_holds (holds : Holds absolute (init ++ [last]) output) :
    Holds absolute init { output with
      len := max (pathOutputComponentStart output - 1) (root absolute).length } ∧
    max (pathOutputComponentStart output - 1) (root absolute).length ≤ output.len := by
  have small : (render absolute init).length ≤ output.len := by
    rw [holds.length, ← take_front _ _ _]
    exact length_take_le' _ _
  have text := take_front absolute init last
  rw [← holds.written, take_take, Nat.min_eq_left small] at text
  rw [(component_start holds).1, front_length]
  exact ⟨⟨Nat.le_trans small holds.inside, text, fun comp member =>
    holds.named _ (mem_append_left _ member)⟩, small⟩

theorem last_dotdot_iff (holds : Holds false (init ++ [last]) output) :
    (output.len - pathOutputComponentStart output = 2 ∧
      output.dst[pathOutputComponentStart output]? = some dot ∧
      output.dst[pathOutputComponentStart output + 1]? = some dot) ↔ last = [dot, dot] := by
  rcases component_start holds with ⟨start, len⟩
  have read : ∀ k, k < last.length → output.dst[pathOutputComponentStart output + k]? = last[k]? := by
    intro k bound
    have within : pathOutputComponentStart output + k < output.len := by omega
    have seen : output.dst[pathOutputComponentStart output + k]? =
      (output.dst.take output.len)[pathOutputComponentStart output + k]? := by
      rw [getElem?_take, if_pos within]
    rw [seen, holds.written, render_concat, start, getElem?_append_right (Nat.le_add_right _ _),
      Nat.add_sub_cancel_left]
  constructor
  · rintro ⟨two, first, second⟩
    have size : last.length = 2 := by omega
    rcases length_eq_two.mp size with ⟨a, b, rfl⟩
    rw [← Nat.add_zero (pathOutputComponentStart output), read 0 (by omega)] at first
    rw [read 1 (by omega)] at second
    cases first
    cases second
    rfl
  · rintro rfl
    have zero := read 0 (by decide)
    have one := read 1 (by decide)
    rw [length_cons, length_cons, length_nil] at len
    exact ⟨by omega, zero, one⟩

/-- Bytes the remaining components take with their separators. -/
def need (rest : List Bytes) : Nat := (rest.map fun comp => comp.length + 1).sum

theorem need_cons (comp : Bytes) (rest : List Bytes) :
    need (comp :: rest) = comp.length + 1 + need rest := sum_cons

/-- What is written and what may follow fits the block. At the root there is one
separator less to write. -/
def Room (absolute : Bool) (output : Output) (rest : List Bytes) : Prop :=
  output.len + need rest ≤ output.dst.length ∨
    output.len = (root absolute).length ∧
      (root absolute).length + need rest ≤ output.dst.length + 1

variable {absolute : Bool} {stack : List Bytes} {output : Output} {comp : Bytes}
  {rest : List Bytes}

theorem append_step (holds : Holds absolute stack output) (named : Named comp)
    (room : Room absolute output (comp :: rest)) :
    ∃ after, pathOutputAppend output absolute comp = some after ∧
      Holds absolute (stack ++ [comp]) after ∧ Room absolute after rest ∧
      after.dst.length = output.dst.length := by
  have bottom := above_root holds
  rw [Room, need_cons] at room
  have fits : output.len + comp.length + (if stack = [] then 0 else 1) + need rest ≤
      output.dst.length := by
    split_ifs with empty
    · omega
    · have := bottom.mpr empty
      omega
  obtain ⟨after, ran, holds', size, len⟩ := append_holds holds named (by omega)
  exact ⟨after, ran, holds', .inl (by omega), size⟩

theorem shrink_room (room : Room absolute output (comp :: rest))
    (above : (root absolute).length < output.len) (small : len ≤ output.len) : Room absolute { output with len := len } rest := by
  rw [Room, need_cons] at room
  left
  change len + need rest ≤ output.dst.length
  omega

theorem skip_room (room : Room absolute output (comp :: rest)) : Room absolute output rest := by
  rw [Room, need_cons] at room
  rw [Room]
  omega

theorem step_holds (holds : Holds absolute stack output) (clean : slash ∉ comp)
    (room : Room absolute output (comp :: rest)) :
    ∃ after, normalizeStep absolute output comp = some after ∧
      Holds absolute (resolve absolute stack comp) after ∧ Room absolute after rest ∧
      after.dst.length = output.dst.length := by
  rw [normalizeStep, resolve]
  by_cases skipped : comp = [] ∨ comp = [dot]
  · rw [if_pos skipped, if_pos skipped]
    exact ⟨output, rfl, holds, skip_room room, rfl⟩
  rw [if_neg skipped, if_neg skipped]
  have named : Named comp := ⟨fun empty => skipped (.inl empty), clean⟩
  by_cases parent : comp = [dot, dot]
  · rw [if_pos parent, if_pos parent]
    cases absolute with
    | true =>
      rw [if_pos rfl, if_pos rfl]
      rcases eq_nil_or_concat' stack with rfl | ⟨init, last, rfl⟩
      · have bottom : output.len = 1 := by
          rw [holds.length, render_nil]
          rfl
        rw [if_neg (by omega)]
        exact ⟨output, rfl, holds, skip_room room, rfl⟩
      · have deep : 1 < output.len := (above_root holds).mpr (by simp)
        obtain ⟨popped, small⟩ := pop_holds holds
        rw [if_pos deep, dropLast_concat]
        exact ⟨_, rfl, popped, shrink_room room deep small, rfl⟩
    | false =>
      rw [if_neg Bool.false_ne_true, if_neg Bool.false_ne_true]
      rcases eq_nil_or_concat' stack with rfl | ⟨init, last, rfl⟩
      · have bottom : output.len = 0 := by
          rw [holds.length, render_nil]
          rfl
        rw [if_pos (.inl bottom), if_pos (.inl rfl)]
        exact append_step holds named room
      · have deep := (above_root holds).mpr (by simp)
        have tested := last_dotdot_iff holds
        have top : (init ++ [last]).getLast? = some last := getLast?_concat
        by_cases kept : last = [dot, dot]
        · rw [if_pos (.inr (tested.mpr kept)), if_pos (.inr (top.trans (congrArg some kept)))]
          exact append_step holds named room
        have empty : ¬ (init ++ [last] = [] ∨ (init ++ [last]).getLast? = some [dot, dot]) := by
          simp [kept]
        have stays : ¬ (output.len = 0 ∨ (output.len - pathOutputComponentStart output = 2 ∧
            output.dst[pathOutputComponentStart output]? = some dot ∧
            output.dst[pathOutputComponentStart output + 1]? = some dot)) := by
          rw [tested]
          rintro (zero | same)
          · omega
          · exact kept same
        obtain ⟨popped, small⟩ := pop_holds holds
        rw [show (root false).length = 0 from rfl, Nat.max_zero] at popped small
        rw [if_neg stays, if_neg empty, dropLast_concat]
        exact ⟨_, rfl, popped, shrink_room room deep small, rfl⟩
  · rw [if_neg parent, if_neg parent]
    exact append_step holds named room

variable (absolute : Bool) (comps : List Bytes) (stack : List Bytes)

theorem loop_holds (output : Output) (holds : Holds absolute stack output)
    (clean : ∀ comp ∈ comps, slash ∉ comp) (room : Room absolute output comps) :
    ∃ after, comps.foldlM (normalizeStep absolute) output = some after ∧
      Holds absolute (comps.foldl (resolve absolute) stack) after ∧
      after.dst.length = output.dst.length := by
  induction comps generalizing stack output with
  | nil => exact ⟨output, rfl, holds, rfl⟩
  | cons comp rest ih =>
    rcases step_holds holds (clean comp mem_cons_self) room with
      ⟨middle, first, holds', room', size⟩
    rcases ih _ middle holds' (forall_mem_cons.mp clean).2 room' with ⟨after, later, final, size'⟩
    refine ⟨after, ?_, final, size'.trans size⟩
    rw [foldlM_cons, first]
    exact later

theorem splitOn_cons_slash (rest : Bytes) : (slash :: rest).splitOn slash = [] :: rest.splitOn slash :=
  splitOnP_append_cons [] rest (beq_self_eq_true slash)

theorem splitOn_cons (rest : Bytes) (other : c ≠ slash) :
    (c :: rest).splitOn slash = (rest.splitOn slash).modifyHead (List.cons c) := by
  rw [List.splitOn, splitOnP_cons_eq_if_modifyHead, if_neg (by simpa using other)]
  rfl

theorem splitOn_pieces (b : Bytes) :
    (∀ comp ∈ b.splitOn slash, slash ∉ comp) ∧ need (b.splitOn slash) = b.length + 1 := by
  induction b with
  | nil => exact ⟨by simp, rfl⟩
  | cons c rest ih =>
    by_cases here : c = slash
    · subst here
      rw [splitOn_cons_slash]
      refine ⟨forall_mem_cons.mpr ⟨not_mem_nil, ih.1⟩, ?_⟩
      rw [need_cons, ih.2, length_nil, length_cons]
      omega
    · rw [splitOn_cons _ here]
      cases pieces : rest.splitOn slash with
      | nil => exact absurd pieces (splitOnP_ne_nil _ _)
      | cons first others =>
        rw [pieces] at ih
        obtain ⟨clean, total⟩ := ih
        rw [forall_mem_cons] at clean
        rw [modifyHead_cons, forall_mem_cons, mem_cons, not_or]
        refine ⟨⟨⟨Ne.symm here, clean.1⟩, clean.2⟩, ?_⟩
        rw [need_cons] at total ⊢
        rw [length_cons, length_cons]
        omega

theorem resolve_nil : resolve absolute stack [] = stack := by
  rw [resolve, if_pos (.inl rfl)]

theorem resolve_components (b : Bytes) (stack : List Bytes) :
    (components b).foldl (resolve absolute) stack =
      (b.splitOn slash).foldl (resolve absolute) stack := by
  rw [components]
  generalize b.splitOn slash = pieces
  induction pieces generalizing stack with
  | nil => rfl
  | cons comp rest ih =>
    by_cases empty : comp = []
    · subst empty
      rw [filter_cons_of_neg (by simp), foldl_cons, resolve_nil, ih]
    · rw [filter_cons_of_pos (by simpa using empty), foldl_cons, foldl_cons, ih]

theorem need_take (k : Nat) : need (comps.take k) ≤ need comps := by
  induction comps generalizing k with
  | nil => rw [take_nil]
  | cons comp rest ih =>
    cases k with
    | zero => exact Nat.zero_le _
    | succ k =>
      exact Nat.add_le_add_left (ih k) _

theorem room_take {absolute : Bool} {comps : List Bytes} (k : Nat)
    (room : Room absolute output comps) : Room absolute output (comps.take k) := by
  have := need_take comps k
  rw [Room] at room ⊢
  omega

/-- The block when the loop starts; on an absolute path the first, empty component
stands for the byte already written. -/
theorem start_holds (size : dst.length = max b.length 1) :
    ∃ output, normalizeStart dst b = some output ∧ Holds (isAbsolute b) [] output ∧
      output.dst.length = dst.length ∧
      (Room (isAbsolute b) output (b.splitOn slash) ∨
        ∃ rest, b.splitOn slash = [] :: rest ∧ Room (isAbsolute b) output rest) := by
  have total := (splitOn_pieces b).2
  rw [normalizeStart]
  cases absolute : isAbsolute b with
  | false =>
    refine ⟨⟨dst, 0⟩, rfl, ⟨Nat.zero_le _, rfl, fun _ member => absurd member not_mem_nil⟩,
      rfl, .inl (.inr ⟨rfl, ?_⟩)⟩
    change 0 + _ ≤ dst.length + 1
    omega
  | true =>
    have rooted : ∃ rest, b = slash :: rest := by
      cases b with
      | nil => cases absolute
      | cons c rest =>
        have same : c = slash := by simpa [isAbsolute] using absolute
        exact ⟨rest, by rw [same]⟩
    rcases rooted with ⟨rest, rfl⟩
    have room : 0 + 1 ≤ dst.length := by omega
    rcases write_some ⟨dst, 0⟩ [slash] room with ⟨output, wrote, len, kept, text⟩
    change output.len = 0 + 1 at len
    change output.dst.length = dst.length at kept
    refine ⟨output, wrote, ⟨by omega, text, fun _ member => absurd member not_mem_nil⟩, kept,
      .inr ⟨rest.splitOn slash, splitOn_cons_slash _, .inr ⟨by rw [len]; rfl, ?_⟩⟩⟩
    rw [splitOn_cons_slash, need_cons, length_nil] at total
    change 1 + need (rest.splitOn slash) ≤ output.dst.length + 1
    omega

/-- Every point of the loop: the first `k` components leave a block in step with
their stack. -/
theorem prefix_holds (size : dst.length = max b.length 1) (k : Nat) :
    ∃ output after, normalizeStart dst b = some output ∧
      ((b.splitOn slash).take k).foldlM (normalizeStep (isAbsolute b)) output = some after ∧
      Holds (isAbsolute b) (((b.splitOn slash).take k).foldl (resolve (isAbsolute b)) []) after ∧
      after.dst.length = dst.length := by
  rcases start_holds size with ⟨output, started, holds, kept, room⟩
  have clean : ∀ comp ∈ (b.splitOn slash).take k, slash ∉ comp := fun comp member =>
    (splitOn_pieces b).1 comp (mem_of_mem_take member)
  rcases room with whole | ⟨rest, pieces, later⟩
  · rcases loop_holds _ _ [] output holds clean (room_take k whole) with ⟨after, ran, final, same⟩
    exact ⟨output, after, started, ran, final, same.trans kept⟩
  rw [pieces] at clean ⊢
  cases k with
  | zero => exact ⟨output, output, started, rfl, holds, kept⟩
  | succ k =>
    rcases loop_holds _ _ [] output holds (forall_mem_cons.mp clean).2 (room_take k later) with
      ⟨after, ran, final, same⟩
    refine ⟨output, after, started, ?_, ?_, same.trans kept⟩
    · exact ran
    · exact final

theorem normalize_eq (size : dst.length = max b.length 1) :
    alignRtPathNormalize dst b = some (canonical b) := by
  rcases prefix_holds size _ with ⟨output, after, started, ran, holds, kept⟩
  rw [take_length] at ran holds
  rw [alignRtPathNormalize, started]
  simp only [Option.bind_eq_bind, Option.bind_some, ran]
  rw [canonical, resolve_components]
  have len := holds.length
  by_cases empty : after.len = 0
  · rcases write_some after [dot] (by rw [length_singleton]; omega) with
      ⟨final, wrote, length, _, text⟩
    have blank : render (isAbsolute b) ((b.splitOn slash).foldl (resolve (isAbsolute b)) []) = [] :=
      length_eq_zero_iff.mp (by omega)
    rw [if_pos empty, wrote, Option.bind_some, if_pos blank, slice, drop_zero, Nat.sub_zero, text, empty]
    rfl
  · have written : render (isAbsolute b) ((b.splitOn slash).foldl (resolve (isAbsolute b)) []) ≠ [] := by
      intro blank
      rw [blank] at len
      exact empty len
    rw [if_neg empty, if_neg written]
    rw [slice, drop_zero, Nat.sub_zero, holds.written]

end Align.Paths
