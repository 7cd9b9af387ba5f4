import Align.PathsCanonical

/-! The canonical form as a function of the components: it is its own canonical
form, and taking a path apart into directory and base and joining the two again
keeps the components. -/
namespace Align.Paths
open Scan Segments List

/-- A stack built by pushes that the resolution accepts as they are. -/
inductive Settled (absolute : Bool) : List Bytes → Prop
  | nil : Settled absolute []
  | push (stack : List Bytes) (comp : Bytes) (settled : Settled absolute stack)
      (named : Named comp) (pushed : resolve absolute stack comp = stack ++ [comp]) :
      Settled absolute (stack ++ [comp])

theorem Settled.dropLast (settled : Settled absolute stack) :
    Settled absolute stack.dropLast := by
  cases settled with
  | nil => exact .nil
  | push stack comp settled _ _ =>
    rw [dropLast_concat]
    exact settled

theorem Settled.fixed (settled : Settled absolute stack) :
    stack.foldl (resolve absolute) [] = stack := by
  induction settled with
  | nil => rfl
  | push stack comp _ _ pushed ih => rw [foldl_concat, ih, pushed]

theorem Settled.named (settled : Settled absolute stack) :
    ∀ comp ∈ stack, Named comp := by
  induction settled with
  | nil => exact fun comp member => absurd member not_mem_nil
  | push stack comp _ named _ ih => exact forall_mem_append.mpr ⟨ih, forall_mem_singleton.mpr named⟩

theorem resolve_cases (absolute : Bool) (stack : List Bytes) :
    resolve absolute stack comp = stack ∨ resolve absolute stack comp = stack.dropLast ∨
      comp ≠ [] ∧ resolve absolute stack comp = stack ++ [comp] := by
  rw [resolve]
  split_ifs with skipped
  · exact .inl rfl
  · exact .inr (.inl rfl)
  · exact .inr (.inr ⟨fun empty => skipped (.inl empty), rfl⟩)
  · exact .inr (.inl rfl)
  · exact .inr (.inr ⟨fun empty => skipped (.inl empty), rfl⟩)

theorem resolve_settled (settled : Settled absolute stack) (clean : slash ∉ comp) : Settled absolute (resolve absolute stack comp) := by
  rcases resolve_cases _ _ with same | popped | ⟨named, pushed⟩
  · rw [same]
    exact settled
  · rw [popped]
    exact settled.dropLast
  · rw [pushed]
    exact .push stack comp settled ⟨named, clean⟩ pushed

theorem components_clean : ∀ comp ∈ components b, slash ∉ comp := by
  intro comp member
  exact (splitOn_pieces b).1 comp (mem_filter.mp member).1

variable (absolute : Bool) (comps stack : List Bytes)

theorem stack_settled (settled : Settled absolute stack) (clean : ∀ comp ∈ comps, slash ∉ comp) :
    Settled absolute (comps.foldl (resolve absolute) stack) := by
  induction comps generalizing stack with
  | nil => exact settled
  | cons comp rest ih =>
    exact ih _ (resolve_settled settled (clean comp mem_cons_self)) (forall_mem_cons.mp clean).2

theorem resolve_pushed {absolute : Bool} {stack : List Bytes}
    (pushed : resolve absolute stack comp = stack ++ [comp]) : comp ≠ [dot] ∧
      (comp = [dot, dot] → absolute = false ∧ (stack = [] ∨ stack.getLast? = some [dot, dot])) := by
  have shrinks : stack.dropLast ≠ stack ++ [comp] := fun same => by
    have := congrArg List.length same
    rw [length_append, length_singleton, length_dropLast] at this
    omega
  rw [resolve] at pushed
  split_ifs at pushed with skipped parent rooted bottom
  · simp at pushed
  · exact absurd pushed shrinks
  · exact ⟨fun same => skipped (.inr same), fun _ => ⟨eq_false_of_ne_true rooted, bottom⟩⟩
  · exact absurd pushed shrinks
  · exact ⟨fun same => skipped (.inr same), fun same => absurd same parent⟩

theorem settled_shape {absolute : Bool} {stack : List Bytes} (settled : Settled absolute stack) :
    [dot] ∉ stack ∧ ∃ count names, stack = List.replicate count [dot, dot] ++ names ∧
      [dot, dot] ∉ names ∧ (absolute = true → count = 0) := by
  induction settled with
  | nil => exact ⟨not_mem_nil, 0, [], rfl, not_mem_nil, fun _ => rfl⟩
  | push stack comp _ _ pushed ih =>
    obtain ⟨noDot, count, names, shape, noParent, rooted⟩ := ih
    obtain ⟨kept, stands⟩ := resolve_pushed pushed
    refine ⟨by simpa using ⟨noDot, kept.symm⟩, ?_⟩
    by_cases parent : comp = [dot, dot]
    · obtain ⟨relative, bottom⟩ := stands parent
      have leading : names = [] := by
        rcases eq_nil_or_concat' names with empty | ⟨init, last, rfl⟩
        · exact empty
        · rw [shape, ← append_assoc, getLast?_concat] at bottom
          rcases bottom with empty | same
          · simp at empty
          · exact absurd (mem_append_right _ (by rw [Option.some.inj same]; simp)) noParent
      refine ⟨count + 1, [], ?_, not_mem_nil, fun absolute => by rw [relative] at absolute; cases absolute⟩
      rw [shape, leading, parent, append_nil, append_nil, replicate_succ']
    · exact ⟨count, names ++ [comp], by rw [shape, append_assoc],
        by simpa using ⟨noParent, Ne.symm parent⟩, rooted⟩

theorem components_append (x y : Bytes) :
    components (x ++ slash :: y) = components x ++ components y := by
  have cut : (x ++ slash :: y).splitOn slash = x.splitOn slash ++ y.splitOn slash :=
    splitOnP_append_cons x y (beq_self_eq_true slash)
  rw [components, components, components, cut, filter_append]

theorem components_nil : components [] = [] := rfl

theorem components_single (named : Named comp) : components comp = [comp] := by
  have whole : comp.splitOn slash = [comp] := by
    apply splitOnP_eq_singleton
    intro c member
    exact beq_eq_false_iff_ne.mpr fun same => named.2 (same ▸ member)
  rw [components, whole, filter_cons_of_pos (by simpa using named.1), filter_nil]

theorem components_slashes (x : Bytes) (slashes : ∀ c ∈ run, c = slash) :
    components (run ++ x) = components x := by
  induction run with
  | nil => rfl
  | cons c rest ih =>
    rw [slashes c mem_cons_self, cons_append]
    have later := ih (forall_mem_cons.mp slashes).2
    rw [← later]
    exact components_append [] (rest ++ x)

theorem components_trailing (slashes : ∀ c ∈ run, c = slash) :
    components (x ++ run) = components x := by
  cases run with
  | nil => rw [append_nil]
  | cons c rest =>
    have blank : components rest = [] := by
      have := components_slashes [] (forall_mem_cons.mp slashes).2
      rwa [append_nil, components_nil] at this
    rw [slashes c mem_cons_self, components_append, blank, append_nil]

theorem components_render (named : ∀ comp ∈ stack, Named comp) :
    components (render absolute stack) = stack := by
  induction stack using List.reverseRecOn with
  | nil =>
    cases absolute <;> rfl
  | append_singleton stack comp ih =>
    obtain ⟨others, named⟩ := forall_mem_append.mp named
    have last := components_single (named comp mem_cons_self)
    have front := ih others
    rw [render_concat, Paths.front]
    split_ifs with empty
    · rw [empty]
      cases absolute with
      | false => exact last
      | true => exact (components_append [] comp).trans last
    · rw [append_assoc]
      change components (render absolute stack ++ slash :: comp) = _
      rw [components_append, front, last]

theorem isAbsolute_render (named : ∀ comp ∈ stack, Named comp) : isAbsolute (render absolute stack) = absolute := by
  cases absolute with
  | true => rfl
  | false =>
    cases stack with
    | nil => rfl
    | cons first rest =>
      rcases named first mem_cons_self with ⟨nonempty, clean⟩
      cases first with
      | nil => exact absurd rfl nonempty
      | cons c tail =>
        have head : (render false ((c :: tail) :: rest)).head? = some c := by
          cases rest with
          | nil => rfl
          | cons second others => rfl
        have other : c ≠ slash := fun same => clean (same ▸ mem_cons_self)
        rw [isAbsolute, head]
        exact beq_eq_false_iff_ne.mpr fun same => other (Option.some.inj same)

theorem canonical_congr (rooted : isAbsolute p = isAbsolute q)
    (same : components p = components q) : canonical p = canonical q := by
  rw [canonical, canonical, rooted, same]

theorem canonical_fixed (p : Bytes) : canonical (canonical p) = canonical p := by
  have settled := stack_settled (isAbsolute p) (components p) [] .nil (components_clean)
  generalize stack : (components p).foldl (resolve (isAbsolute p)) [] = resolved at settled
  have text : canonical p = if render (isAbsolute p) resolved = [] then [dot] else render (isAbsolute p) resolved := by
    rw [canonical, stack]
  rw [text]
  split_ifs with blank
  · rfl
  · rw [canonical, isAbsolute_render _ _ settled.named, components_render _ _ settled.named, settled.fixed]
    exact if_neg blank

theorem scan_part (part : x <+: b) (keep : UInt8 → Bool) :
    slice b 0 x.length = x ∧ scanBack keep b x.length = (x.rdropWhile keep).length ∧
      slice b (scanBack keep b x.length) x.length = x.rtakeWhile keep := by
  have front : b.take x.length = x := (prefix_iff_eq_take.mp part).symm
  have inside := part.length_le
  refine ⟨?_, ?_, ?_⟩
  · rw [slice, drop_zero, Nat.sub_zero, front]
  · rw [scanBack_length _ b inside, front]
  · rw [slice, ← drop_take, drop_scanBack _ b inside, front]

theorem isAbsolute_append (nonempty : x ≠ []) : isAbsolute (x ++ y) = isAbsolute x := by
  cases x with
  | nil => exact absurd rfl nonempty
  | cons c rest => rfl

theorem isSlash_iff (c : UInt8) : isSlash c = true ↔ c = slash := beq_iff_eq

theorem first_slash (run rest : Bytes) (shape : b = run ++ rest) (nonempty : run ≠ [])
    (slashes : ∀ c ∈ run, c = slash) : slice b 0 1 = [slash] ∧ isAbsolute b = true := by
  cases run with
  | nil => exact absurd rfl nonempty
  | cons c others =>
    rw [shape, slashes c mem_cons_self]
    exact ⟨rfl, rfl⟩

theorem join_named (directory comp : Bytes) (nonempty : directory ≠ []) (named : Named comp) :
    alignRtPathJoin directory comp = directory.rdropWhile isSlash ++ slash :: comp := by
  have front : comp.dropWhile isSlash = comp := by
    cases comp with
    | nil => rfl
    | cons c rest =>
      have other : ¬ isSlash c = true := fun same =>
        named.2 ((isSlash_iff c).mp same ▸ mem_cons_self)
      rw [dropWhile_cons_of_neg other]
  rw [alignRtPathJoin, if_neg nonempty, if_neg named.1, front, (scan_part prefix_rfl _).2.1,
    (scan_part (List.rdropWhile_prefix isSlash _) isSlash).1]

theorem rtakeWhile_slashes (b : Bytes) : ∀ c ∈ b.rtakeWhile isSlash, c = slash := fun c member =>
  (isSlash_iff c).mp (mem_rtakeWhile_imp member)

theorem rtakeWhile_ne_nil (opposite : ∀ c, other c = !keep c) (b : Bytes)
    (some_ : b.rdropWhile keep ≠ []) : (b.rdropWhile keep).rtakeWhile other ≠ [] := by
  intro empty
  have stops := rtakeWhile_eq_nil_iff.mp empty some_
  rw [opposite, Bool.not_eq_true', Bool.not_eq_false] at stops
  exact rdropWhile_last_not keep b some_ stops

theorem base_named (b : Bytes) (some_ : b.rdropWhile isSlash ≠ []) :
    Named ((b.rdropWhile isSlash).rtakeWhile notSlash) :=
  ⟨rtakeWhile_ne_nil (fun _ => rfl) b some_, fun member =>
    absurd (mem_rtakeWhile_imp member) (by decide)⟩

theorem dir_base_eq (nonempty : b ≠ []) (some_ : b.rdropWhile isSlash ≠ []) :
    alignRtPathBase b = (b.rdropWhile isSlash).rtakeWhile notSlash ∧
      alignRtPathDir b =
        (let before := (b.rdropWhile isSlash).rdropWhile notSlash
        if before = [] then []
        else if before.rdropWhile isSlash = [] then slice b 0 1 else before.rdropWhile isSlash) := by
  have front := List.rdropWhile_prefix isSlash b
  have before := (List.rdropWhile_prefix notSlash _).trans front
  rw [alignRtPathBase, alignRtPathDir, if_neg nonempty, if_neg nonempty]
  dsimp only
  rw [(scan_part prefix_rfl _).2.1, if_neg (mt length_eq_zero_iff.mp some_),
    if_neg (mt length_eq_zero_iff.mp some_), (scan_part front _).2.2, (scan_part front _).2.1,
    (scan_part before _).2.1, (scan_part ((List.rdropWhile_prefix isSlash _).trans before) isSlash).1]
  simp only [length_eq_zero_iff, and_self]

theorem join_dir_base (nonempty : b ≠ []) :
    canonical (alignRtPathJoin (alignRtPathDir b) (alignRtPathBase b)) = canonical b := by
  have trailing := rtakeWhile_slashes b
  have whole := (rdropWhile_append_rtakeWhile (p := isSlash) (l := b)).symm
  by_cases blank : b.rdropWhile isSlash = []
  · -- all separators
    rw [blank, nil_append] at whole
    have slashes : ∀ c ∈ b, c = slash := by
      rw [whole]
      exact trailing
    rcases first_slash b [] (append_nil b).symm nonempty slashes with ⟨first, absolute⟩
    have stop : scanBack isSlash b b.length = 0 := by
      rw [(scan_part prefix_rfl _).2.1, blank]
      rfl
    have ends : alignRtPathBase b = [slash] ∧ alignRtPathDir b = [slash] := by
      rw [alignRtPathBase, alignRtPathDir, if_neg nonempty, if_neg nonempty]
      rw [if_pos stop, if_pos stop, first]
      exact ⟨rfl, rfl⟩
    rw [ends.1, ends.2, show alignRtPathJoin [slash] [slash] = [slash] from rfl]
    apply canonical_congr
    · exact absolute.symm
    · have none_ := components_slashes [] slashes
      rw [append_nil] at none_
      exact none_.symm
  · rcases dir_base_eq nonempty blank with ⟨base, directory⟩
    have named := base_named b blank
    have parts := (rdropWhile_append_rtakeWhile (p := notSlash) (l := b.rdropWhile isSlash)).symm
    rw [base, directory]
    generalize (b.rdropWhile isSlash).rtakeWhile notSlash = comp at *
    generalize before : (b.rdropWhile isSlash).rdropWhile notSlash = front at *
    have shape : b = front ++ (comp ++ b.rtakeWhile isSlash) := by
      rw [← append_assoc, ← parts]
      exact whole
    have tail : components (comp ++ b.rtakeWhile isSlash) = components comp :=
      components_trailing trailing
    by_cases alone : front = []
    · rw [if_pos alone, alignRtPathJoin, if_pos rfl]
      rw [alone, nil_append] at shape
      apply canonical_congr
      · rw [shape, isAbsolute_append named.1]
      · rw [shape, tail]
    · rw [if_neg alone]
      have split := (rdropWhile_append_rtakeWhile (p := isSlash) (l := front)).symm
      have run := rtakeWhile_slashes front
      -- what stands in front of the base ends with a separator
      have separated : front.rtakeWhile isSlash ≠ [] := before ▸
        rtakeWhile_ne_nil (fun c => (Bool.not_not (isSlash c)).symm) _ (before ▸ alone)
      by_cases rooted : front.rdropWhile isSlash = []
      · rw [rooted, nil_append] at split
        have slashes : ∀ c ∈ front, c = slash := by
          rw [split]
          exact run
        rcases first_slash _ _ shape alone slashes with ⟨first, absolute⟩
        have joined : alignRtPathJoin [slash] comp = slash :: comp :=
          join_named [slash] comp (cons_ne_nil _ _) named
        rw [if_pos rooted, first, joined]
        apply canonical_congr
        · exact absolute.symm
        · rw [shape, components_slashes _ slashes, tail]
          exact components_append [] comp
      · rw [if_neg rooted, join_named _ _ rooted named, rdropWhile_idempotent]
        generalize front.rdropWhile isSlash = kept at *
        generalize front.rtakeWhile isSlash = gap at *
        apply canonical_congr
        · rw [shape, split, append_assoc, isAbsolute_append rooted, isAbsolute_append rooted]
        · cases gap with
          | nil => exact absurd rfl separated
          | cons c others =>
            rw [shape, split, run c mem_cons_self, append_assoc, cons_append, components_append,
              components_append, components_slashes _ (forall_mem_cons.mp run).2, tail]

/-- `normalize` computes the canonical lexical form in a block of `max len 1` bytes,
leaves a canonical form alone and does not see a path being taken apart. -/
theorem normalize_canonical (p : Bytes) :
    (∀ dst : Bytes, dst.length = max p.length 1 →
      alignRtPathNormalize dst p = some (canonical p) ∧
      ∀ k, ∃ output after, normalizeStart dst p = some output ∧
        ((p.splitOn slash).take k).foldlM (normalizeStep (isAbsolute p)) output = some after ∧
        after.len ≤ max p.length 1) ∧
    (∃ stack, (canonical p = render (isAbsolute p) stack ∨ stack = [] ∧ canonical p = [dot]) ∧
      (∀ comp ∈ stack, Named comp ∧ comp ≠ [dot]) ∧
      ∃ count names, stack = List.replicate count [dot, dot] ++ names ∧ [dot, dot] ∉ names ∧
        (isAbsolute p = true → count = 0)) ∧
    (∀ dst : Bytes, dst.length = max (canonical p).length 1 →
      alignRtPathNormalize dst (canonical p) = some (canonical p)) ∧
    (p ≠ [] → ∀ dst : Bytes,
      dst.length = max (alignRtPathJoin (alignRtPathDir p) (alignRtPathBase p)).length 1 →
      alignRtPathNormalize dst (alignRtPathJoin (alignRtPathDir p) (alignRtPathBase p)) =
        some (canonical p)) := by
  refine ⟨?_, ?_, ?_, ?_⟩
  · intro dst size
    refine ⟨normalize_eq size, ?_⟩
    intro k
    rcases prefix_holds size k with ⟨output, after, started, ran, holds, kept⟩
    have inside := holds.inside
    exact ⟨output, after, started, ran, by omega⟩
  · have settled := stack_settled (isAbsolute p) (components p) [] .nil (components_clean)
    rcases settled_shape settled with ⟨noDot, shape⟩
    refine ⟨_, ?_, fun comp member => ⟨settled.named comp member, fun same => noDot (same ▸ member)⟩, shape⟩
    rw [canonical]
    split_ifs with blank
    · have empty := (append_eq_nil_iff.mp blank).2
      exact .inr ⟨(intercalate_ne_nil settled.named).mp empty, rfl⟩
    · exact .inl rfl
  · intro dst size
    rw [normalize_eq size, canonical_fixed]
  · intro nonempty dst size
    rw [normalize_eq size, join_dir_base nonempty]

end Align.Paths
