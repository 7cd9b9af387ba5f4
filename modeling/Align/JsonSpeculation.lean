import Align.JsonWriters
import Align.JsonKeys

/-! The learned layout is invisible. A record that passes the fast path has, key by
key, the fields of the record the layout was learned from, so the slow path would
find no duplicate and nothing missing; and a record that leaves the fast path half
way has written only what the slow path writes again. -/
namespace Align.JsonSpeculation
open List Option
open JsonText JsonParser JsonSkip JsonRecords JsonDecode JsonIndexed JsonWriters JsonWalk JsonKeys
open Utf8Validate (Target)

theorem bind_value {α β : Type} {first : Attempt α} (next : α → Attempt β) (a : α) (found : first.value = some a) :
    first.bind next = ⟨first.effects ++ (next a).effects, (next a).value⟩ := by
  rw [Attempt.bind, found]

theorem bind_none {α β : Type} {first : Attempt α} (next : α → Attempt β) (failed : first.value = none) :
    first.bind next = ⟨first.effects, none⟩ := by
  rw [Attempt.bind, failed]

theorem map_success (f : α → β) (success : value.map f ≠ none) :
    ∃ a, value = some a := by
  cases value with
  | none => exact absurd rfl success
  | some a => exact ⟨a, rfl⟩

section Records
variable (env : Env) (t : JsonSubTable JsonField) (dst : FieldDst) (src : Bytes)

theorem endsMember_silent (rest : Bytes) : (endsMember rest).effects = [] := by
  unfold endsMember
  dsimp only
  split_ifs
  · rfl
  · rfl

theorem follows_behind (d : JsonField) :
    Follows (fieldBehind env dst src cpos fi d) (fieldBehind (withoutArena env) dst src cpos fi d) := by
  have quiet : ∀ rest, (endsMember rest).rest ≠ none → OnlyWrites (endsMember rest).effects := by
    intro rest _
    rw [endsMember_silent]
    exact onlyWrites_nil
  unfold fieldBehind
  cases (fieldWidth d).bind (dst.fieldPtr fi d) with
  | none => exact follows_fail rfl
  | some p =>
    refine follows_andThen _ ?_ quiet
    split_ifs
    · exact follows_writeValue _ d p _
    cases skipNull (ws (src.drop (cpos + 1))) with
    | some rest => exact follows_self fun _ => onlyWrites_nil
    | none =>
      refine follows_andThen _ (follows_writeValue _ d p _) fun rest => ?_
      cases dst.bytePtr d.optTag 1 with
      | none => exact fun success => absurd rfl success
      | some tag => exact fun _ => onlyWrites_single _ _

theorem follows_indexed (cpos fi : Nat) (d : JsonField) :
    let full := writeFieldIndexed env dst src cpos fi d
    let part := writeFieldIndexed (withoutArena env) dst src cpos fi d
    (full.value ≠ none → OnlyWrites full.effects) ∧
      (part = full ∨ part.value = none ∧ (full.value ≠ none → Among part.effects full.effects)) := by
  obtain ⟨writes, same⟩ := follows_behind _ _ _ d
  unfold writeFieldIndexed
  dsimp only
  constructor
  · intro success
    refine writes fun failed => success ?_
    rw [failed, map_none]
  · rcases same with same | ⟨failed, among⟩
    · rw [same]
      exact Or.inl rfl
    · refine Or.inr ⟨by rw [failed, map_none], fun success => among fun failed => success ?_⟩
      rw [failed, map_none]

/-- The marks a layout leaves in the set of seen fields. -/
def markAll : List Int → SeenSet → Option SeenSet
  | [], seen => some seen
  | fi :: rest, seen => if fi < 0 then markAll rest seen else (seen.mark fi.toNat).bind (markAll rest)

theorem fallback_learns {cols : List Nat} (seen : SeenSet) (pattern : List Int)
    (found : (fallbackLoop env t dst src cols seen).value = some (seen', pattern)) :
    OnlyWrites (fallbackLoop env t dst src cols seen).effects ∧ pattern.length = cols.length ∧
      (∀ fi ∈ pattern, -1 ≤ fi) ∧ markAll pattern seen = some seen' := by
  induction cols generalizing seen pattern with
  | nil =>
    cases found
    exact ⟨onlyWrites_nil, rfl, by simp, rfl⟩
  | cons cpos cols ih =>
    rw [fallbackLoop] at found ⊢
    rcases key : keyBeforeColon src cpos with _ | raw
    · rw [key] at found
      cases found
    simp only [key] at found ⊢
    cases known : findKey t raw with
    | none =>
      simp only [known] at found ⊢
      obtain ⟨⟨seen₁, rest⟩, later, same⟩ := map_eq_some_iff.mp found
      cases same
      obtain ⟨writes, length, lower, marks⟩ := ih seen rest later
      exact ⟨writes, by simp [length], by simpa using lower, marks⟩
    | some fi =>
      simp only [known] at found ⊢
      rcases marked : seen.mark fi with _ | seen₁
      · simp only [marked] at found
        cases found
      rcases declared : t.descs[fi]? with _ | d
      · simp only [marked, declared] at found
        cases found
      simp only [marked, declared] at found ⊢
      rcases wrote : (writeFieldIndexed env dst src cpos fi d).value with _ | _
      · rw [bind_none _ wrote] at found
        cases found
      rw [bind_value _ _ wrote] at found ⊢
      obtain ⟨⟨seen₂, rest⟩, later, same⟩ := map_eq_some_iff.mp found
      cases same
      obtain ⟨writes, length, lower, marks⟩ := ih seen₁ rest later
      have first := (follows_indexed env dst src cpos fi d).1 (by simp [wrote])
      refine ⟨onlyWrites_append first writes, by simp [length], ?_, ?_⟩
      · intro fi' member
        rcases mem_cons.mp member with rfl | inside
        · omega
        · exact lower fi' inside
      · rw [markAll, if_neg (by omega), Int.toNat_natCast, marked, bind_some, marks]

/-- A layout that came from a success of the slow path, or none yet. -/
def Learned (pat : Pattern) : Prop :=
  pat.ncol = -1 ∨ pat.ncol = pat.fields.length ∧ (∀ fi ∈ pat.fields, -1 ≤ fi) ∧
    ∃ seen, markAll pat.fields (.new t.descs.length) = some seen ∧ seen.allRequiredSeen t.descs = true

variable (cols : List Nat) (fields : List Int)

theorem fallback_success (found : (jsonFallback env t dst src cols).value = some fields) :
    ∃ seen, (fallbackLoop env t dst src cols (.new t.descs.length)).value = some (seen, fields) ∧
      seen.allRequiredSeen t.descs = true ∧
      (jsonFallback env t dst src cols).effects = (fallbackLoop env t dst src cols (.new t.descs.length)).effects := by
  unfold jsonFallback at found ⊢
  rcases loop : (fallbackLoop env t dst src cols (.new t.descs.length)).value with _ | ⟨seen, pattern⟩
  · rw [bind_none _ loop] at found
    cases found
  rw [bind_value _ _ loop] at found ⊢
  dsimp only at found ⊢
  split_ifs at found ⊢ with complete
  · cases found
    exact ⟨seen, rfl, complete, append_nil _⟩
  · cases found

theorem fallback_learned (found : (jsonFallback env t dst src cols).value = some fields) : Learned t ⟨cols.length, fields⟩ := by
  obtain ⟨seen, loop, complete, _⟩ := fallback_success _ t _ _ _ _ found
  obtain ⟨_, length, lower, marks⟩ := fallback_learns _ t _ _ _ _ loop
  exact Or.inr ⟨by simp [length], lower, seen, marks, complete⟩

theorem fallback_writes (found : (jsonFallback env t dst src cols).value = some fields) :
    OnlyWrites (jsonFallback env t dst src cols).effects := by
  obtain ⟨seen, loop, _, effects⟩ := fallback_success _ t _ _ _ _ found
  rw [effects]
  exact (fallback_learns _ t _ _ _ _ loop).1

theorem speculate_writes (flat : ∀ d ∈ t.descs, d.kind ≠ 4 ∧ d.kind ≠ 6) (cols : List Nat) (pattern : List Int) :
    OnlyWrites (jsonSpeculate env t dst src cols pattern).effects := by
  have field : ∀ cpos fi d, d ∈ t.descs →
    OnlyWrites (writeFieldIndexed (withoutArena env) dst src cpos fi d).effects := by
    intro cpos fi d member
    have value := fun start rest => flat_writes (withoutArena env) (flat d member) start rest
    unfold writeFieldIndexed fieldBehind
    cases (fieldWidth d).bind (dst.fieldPtr fi d) with
    | none => exact onlyWrites_nil
    | some p =>
      refine andThen_writes _ _ ?_ fun rest => by rw [endsMember_silent]; exact onlyWrites_nil
      split_ifs
      · exact value p _
      cases skipNull (ws (src.drop (cpos + 1))) with
      | some rest => exact onlyWrites_nil
      | none =>
        refine andThen_writes _ _ (value p _) fun rest => ?_
        cases dst.bytePtr d.optTag 1 with
        | none => exact onlyWrites_nil
        | some tag => exact onlyWrites_single _ _
  induction cols generalizing pattern with
  | nil =>
    exact onlyWrites_nil
  | cons cpos cols ih =>
    cases pattern with
    | nil =>
      exact onlyWrites_nil
    | cons fi pattern =>
      rw [jsonSpeculate]
      split_ifs
      · cases keyBeforeColon src cpos with
        | none => exact onlyWrites_nil
        | some raw =>
          dsimp only
          split_ifs
          · exact ih pattern
          · exact onlyWrites_nil
      · rcases declared : t.descs[fi.toNat]? with _ | d
        · exact onlyWrites_nil
        dsimp only
        split_ifs
        · have first := field cpos fi.toNat d (mem_of_getElem? declared)
          unfold Attempt.bind
          split
          · exact first
          · exact onlyWrites_append first (ih pattern)
        · exact onlyWrites_nil

section Keys
variable (resolves : Resolves t) (plain : ∀ d ∈ t.descs, Plain d.name)
include resolves plain

theorem recognised (keyed : Keyed src cpos raw key)
    (declared : t.descs[fi]? = some d) (matches' : keyMatchesBeforeColon src cpos d.name = true) :
    findKey t raw = some fi := by
  have named := keyMatches_keyed keyed (plain d (mem_of_getElem? declared)) matches'
  exact findKey_name resolves keyed.body declared named

/-- Where the fast path succeeds, the slow path has the same effects and learns the
same layout, if that layout can be marked. -/
theorem speculate_complete (cols : List Nat) (keyed : ∀ c ∈ cols, ∃ raw key, Keyed src c raw key)
    (pattern : List Int) (length : pattern.length = cols.length) (lower : ∀ fi ∈ pattern, -1 ≤ fi)
    (seen : SeenSet) (marks : markAll pattern seen = some seen')
    (found : (jsonSpeculate env t dst src cols pattern).value = some ()) :
    fallbackLoop env t dst src cols seen =
      ⟨(jsonSpeculate env t dst src cols pattern).effects, some (seen', pattern)⟩ := by
  induction cols generalizing pattern seen with
  | nil =>
    cases pattern with
    | nil =>
      cases marks
      rfl
    | cons fi pattern => simp at length
  | cons cpos cols ih =>
    cases pattern with
    | nil => simp at length
    | cons fi pattern =>
      obtain ⟨raw, key, here⟩ := keyed cpos (mem_cons_self ..)
      have keyed' := fun c member => keyed c (mem_cons_of_mem cpos member)
      have length' : pattern.length = cols.length := by simpa using length
      have lower' := fun fi' member => lower fi' (mem_cons_of_mem fi member)
      have first := lower fi (mem_cons_self ..)
      rw [jsonSpeculate] at found ⊢
      rw [fallbackLoop, keyBeforeColon_keyed here]
      rw [markAll] at marks
      by_cases unqueried : fi < 0
      · rw [if_pos unqueried] at found marks ⊢
        rw [keyBeforeColon_keyed here] at found
        cases known : findKey t raw with
        | some _ => simp [known, Attempt.fail] at found
        | none =>
          simp only [known, isNone_none, if_true] at found ⊢
          rw [ih keyed' pattern length' lower' seen marks found, Attempt.map, map_some]
          have same : fi = -1 := by omega
          rw [same]
      · rw [if_neg unqueried] at found marks ⊢
        rcases declared : t.descs[fi.toNat]? with _ | d
        · simp [declared, Attempt.fail] at found
        simp only [declared] at found ⊢
        by_cases recognises : keyMatchesBeforeColon src cpos d.name = true
        · obtain ⟨seen₁, marked, marks⟩ := bind_eq_some_iff.mp marks
          have known := recognised t _ resolves plain here declared recognises
          simp only [recognises, not_true_eq_false, if_false] at found ⊢
          simp only [known, marked, declared]
          rcases wrote : (writeFieldIndexed (withoutArena env) dst src cpos fi.toNat d).value with _ | _
          · rw [bind_none _ wrote] at found
            cases found
          -- the writer without an arena succeeded, so it did what the other does
          have same := (follows_indexed env dst src cpos fi.toNat d).2.resolve_right
            fun failed => by simp [wrote] at failed
          rw [same] at wrote
          rw [same, bind_value _ _ wrote] at found ⊢
          rw [bind_value _ _ wrote, ih keyed' pattern length' lower' seen₁ marks found, Attempt.map,
            map_some, Int.toNat_of_nonneg (by omega)]
        · simp [recognises, Attempt.fail] at found

/-- Where the fast path gives up, it has written nothing that a success of the slow
path does not write again. -/
theorem speculate_among (cols : List Nat) (keyed : ∀ c ∈ cols, ∃ raw key, Keyed src c raw key)
    (pattern : List Int) (seen : SeenSet) (success : (fallbackLoop env t dst src cols seen).value ≠ none) :
    Among (jsonSpeculate env t dst src cols pattern).effects (fallbackLoop env t dst src cols seen).effects := by
  induction cols generalizing pattern seen with
  | nil =>
    exact among_nil
  | cons cpos cols ih =>
    cases pattern with
    | nil =>
      exact among_nil
    | cons fi pattern =>
      obtain ⟨raw, key, here⟩ := keyed cpos (mem_cons_self ..)
      have keyed' := fun c member => keyed c (mem_cons_of_mem cpos member)
      rw [fallbackLoop, keyBeforeColon_keyed here] at success ⊢
      rw [jsonSpeculate]
      by_cases unqueried : fi < 0
      · rw [if_pos unqueried, keyBeforeColon_keyed here]
        dsimp only at success ⊢
        cases known : findKey t raw with
        | some _ => exact among_nil
        | none =>
          simp only [known] at success ⊢
          exact ih keyed' pattern seen fun failed => success (by rw [Attempt.map, failed, map_none])
      · rw [if_neg unqueried]
        rcases declared : t.descs[fi.toNat]? with _ | d
        · exact among_nil
        by_cases recognises : keyMatchesBeforeColon src cpos d.name = true
        · have known := recognised t _ resolves plain here declared recognises
          simp only [known, declared, recognises, not_true_eq_false, if_false] at success ⊢
          rcases marked : seen.mark fi.toNat with _ | seen₁
          · simp only [marked] at success
            exact absurd rfl success
          simp only [marked] at success ⊢
          rcases wrote : (writeFieldIndexed env dst src cpos fi.toNat d).value with _ | _
          · rw [bind_none _ wrote] at success
            exact absurd rfl success
          rw [bind_value _ _ wrote] at success ⊢
          rcases (follows_indexed _ _ _ _ _ d).2 with same | ⟨failed, among⟩
          · rw [same, bind_value _ _ wrote]
            refine among_prepend (ih keyed' pattern seen₁ fun failed => success ?_)
            simp only [Attempt.map]
            rw [failed, map_none]
          · rw [bind_none _ failed]
            exact among_extend (among (by simp [wrote]))
        · simp only [recognises]
          exact among_nil

/-- A layout that was learned and fits: success of the fast path is success of the
slow one, with the same effects and the same layout. -/
theorem speculate_fallback {cols : List Nat} (keyed : ∀ c ∈ cols, ∃ raw key, Keyed src c raw key)
    (learned : Learned t pat) (fits : pat.ncol = cols.length)
    (found : (jsonSpeculate env t dst src cols pat.fields).value = some ()) :
    jsonFallback env t dst src cols = ⟨(jsonSpeculate env t dst src cols pat.fields).effects, some pat.fields⟩ := by
  rcases learned with fresh | ⟨size, lower, seen, marks, complete⟩
  · omega
  · have length : pat.fields.length = cols.length := by omega
    have loop := speculate_complete _ t _ _ resolves plain _ keyed _ length lower _ marks found
    rw [jsonFallback, loop, Attempt.bind]
    simp only [complete, if_true, Attempt.done, append_nil]

theorem record_agrees (cleanup : List Effect) (cols : List Nat)
    (keyed : ∀ c ∈ cols, ∃ raw key, Keyed src c raw key) (pat : Pattern) (learned : Learned t pat) :
    (decodeRecord env t dst src true cleanup cols pat).value =
        (decodeRecord env t dst src false cleanup cols pat).value ∧
      ((decodeRecord env t dst src false cleanup cols pat).value ≠ none →
        ∃ part full, OnlyWrites full ∧ Among part full ∧
          (part = [] ∨ part = (jsonSpeculate env t dst src cols pat.fields).effects) ∧
          (decodeRecord env t dst src false cleanup cols pat).effects = cleanup ++ full ∧
          ((decodeRecord env t dst src true cleanup cols pat).effects = full ∨
            (decodeRecord env t dst src true cleanup cols pat).effects = part ++ (cleanup ++ full))) := by
  have slow : decodeRecord env t dst src false cleanup cols pat =
    ⟨cleanup ++ (jsonFallback env t dst src cols).effects,
      (jsonFallback env t dst src cols).value.map fun fields => ⟨cols.length, fields⟩⟩ := by
    simp [decodeRecord, Attempt.fail]
  by_cases tried : pat.ncol = cols.length
  · cases spec : (jsonSpeculate env t dst src cols pat.fields).value with
    | some _ =>
      have same := speculate_fallback _ t _ _ resolves plain keyed learned tried spec
      have fast : decodeRecord env t dst src true cleanup cols pat =
        ⟨(jsonSpeculate env t dst src cols pat.fields).effects, some pat⟩ := by
        simp [decodeRecord, tried, spec]
      have writes := fallback_writes _ t _ _ _ _ (by rw [same])
      rw [slow, fast, same]
      rw [same] at writes
      refine ⟨?_, fun _ => ⟨[], _, writes, among_nil, Or.inl rfl, rfl, Or.inl rfl⟩⟩
      rw [map_some, ← tried]
    | none =>
      have fast : decodeRecord env t dst src true cleanup cols pat =
        ⟨(jsonSpeculate env t dst src cols pat.fields).effects ++
          (cleanup ++ (jsonFallback env t dst src cols).effects),
          (jsonFallback env t dst src cols).value.map fun fields => ⟨cols.length, fields⟩⟩ := by
        simp [decodeRecord, tried, spec]
      rw [slow, fast]
      refine ⟨rfl, fun success => ?_⟩
      obtain ⟨fields, found⟩ := map_success _ success
      obtain ⟨seen, loop, _, effects⟩ := fallback_success _ t _ _ _ _ found
      have among := speculate_among env t dst src resolves plain cols keyed pat.fields
        (.new t.descs.length) (by simp [loop])
      rw [← effects] at among
      exact ⟨_, _, fallback_writes env t dst src cols _ found, among, Or.inr rfl, rfl, Or.inr rfl⟩
  · have fast : decodeRecord env t dst src true cleanup cols pat =
      decodeRecord env t dst src false cleanup cols pat := by
      simp [decodeRecord, tried]
    rw [fast, slow]
    refine ⟨rfl, fun success => ?_⟩
    obtain ⟨fields, found⟩ := map_success _ success
    exact ⟨[], _, fallback_writes env t dst src cols _ found, among_nil, Or.inl rfl, rfl, Or.inr rfl⟩

omit resolves plain in
theorem record_learned (cols : List Nat)
    (found : (decodeRecord env t dst src false cleanup cols pat).value = some pat') : Learned t pat' := by
  obtain ⟨fields, slow, same⟩ := map_eq_some_iff.mp found
  rw [← same]
  exact fallback_learned _ t _ _ _ _ slow

theorem rows_agree (cols : List Nat) (keyed : ∀ c ∈ cols, ∃ raw key, Keyed src c raw key)
    (learned : Learned t s.pat) :
    (structArrayHandler true env t src).recordCloses cols s =
      (structArrayHandler false env t src).recordCloses cols s := by
  obtain ⟨values, effects⟩ := record_agrees _ t _ _ resolves plain
    [.clean 0 t.descs none] cols keyed s.pat learned
  simp only [structArrayHandler]
  rw [values]
  rcases found : (decodeRecord env t (aosDst (max t.storeSize 0)) src false [.clean 0 t.descs none] cols s.pat).value with _ | pat
  · rfl
  obtain ⟨part, full, writes, among, _, slow, fast⟩ := effects (by simp [found])
  have silent : ∀ start cells, Effect.write start cells ∉ [Effect.clean 0 t.descs none] := by simp
  have once : run ([.clean 0 t.descs none] ++ full) zeroed = run full zeroed :=
    run_again _ _ writes (among_cleaned [] full _ (among_nil) silent)
  have same : run (decodeRecord env t (aosDst (max t.storeSize 0)) src true [.clean 0 t.descs none] cols
    s.pat).effects zeroed = run full zeroed := by
    rcases fast with fast | fast
    · rw [fast]
    · rw [fast, ← append_assoc]
      exact run_again _ _ writes (among_cleaned _ _ _ among silent)
  simp only [map_some, snapshot]
  rw [same, slow, once]

theorem columns_agree (flat : ∀ d ∈ t.descs, d.kind ≠ 4 ∧ d.kind ≠ 6) (cols : List Nat)
    (keyed : ∀ c ∈ cols, ∃ raw key, Keyed src c raw key) (learned : Learned t s.pat) :
    (soaHandler true env t columns src).recordCloses cols s =
      (soaHandler false env t columns src).recordCloses cols s := by
  obtain ⟨values, effects⟩ := record_agrees _ t _ _ resolves plain [] cols keyed s.pat learned
  simp only [soaHandler]
  rw [values]
  rcases found : (decodeRecord env t (soaDst columns s.row) src false [] cols s.pat).value with _ | pat
  · rfl
  obtain ⟨part, full, writes, among, origin, slow, fast⟩ := effects (by simp [found])
  have wrote : OnlyWrites part := by
    rcases origin with rfl | rfl
    · exact onlyWrites_nil
    · exact speculate_writes _ t _ _ flat _ _
  have same : run (decodeRecord env t (soaDst columns s.row) src true [] cols s.pat).effects s.memory =
    run full s.memory := by
    rcases fast with fast | fast
    · rw [fast]
    · rw [fast, nil_append]
      exact run_over writes wrote among _
  rw [same, slow, nil_append]

end Keys

end Records

theorem all_agree {src : Bytes} (Inv : S → Prop)
    (agree : ∀ cols s, (∀ c ∈ cols, ∃ raw key, Keyed src c raw key) → Inv s →
      h.recordCloses cols (h.recordOpens s) = h'.recordCloses cols (h'.recordOpens s))
    (keeps : ∀ cols s s', Inv s → h'.recordCloses cols (h'.recordOpens s) = some s' → Inv s')
    (i : Nat) (at' : src.drop i = spellRecords rs ++ rest)
    (clean : Clean (src.take i)) (s : S) (inv : Inv s) : decodeAll h i rs s = decodeAll h' i rs s := by
  induction rs generalizing i s with
  | nil => rfl
  | cons r rs ih =>
    rw [decodeAll, decodeAll]
    by_cases last : rs = []
    · subst last
      rw [agree _ s (keyed_colons i at' clean) inv]
      rfl
    rw [spellRecords_cons r last, append_assoc, cons_append] at at'
    rw [agree _ s (keyed_colons i at' clean) inv]
    cases closed : h'.recordCloses (colonsOf (i + r.before.length + 1) r.members) (h'.recordOpens s) with
    | none => rfl
    | some s' =>
      exact ih _ (drop_tail (drop_rest at')) (clean_next i at') s' (keeps _ s s' inv closed)

theorem walk_agrees (h h' : Handler S) (a : RecordArray) (small : a.spell.length < 2 ^ 32)
    (opens : h.arrayOpens = h'.arrayOpens) (closes : h.arrayCloses = h'.arrayCloses) (Inv : S → Prop)
    (agree : ∀ cols s, (∀ c ∈ cols, ∃ raw key, Keyed a.spell c raw key) → Inv s →
      h.recordCloses cols (h.recordOpens s) = h'.recordCloses cols (h'.recordOpens s))
    (keeps : ∀ cols s s', Inv s → h'.recordCloses cols (h'.recordOpens s) = some s' → Inv s')
    (s : S) (inv : Inv (h'.arrayOpens s)) (target : Target) (pclmul : Bool) :
    walk h a.spell (jsonDecodeIndex target pclmul a.spell) ⟨0, [], s⟩ =
      walk h' a.spell (jsonDecodeIndex target pclmul a.spell) ⟨0, [], s⟩ := by
  have all : decodeAll h (a.before.length + 1) a.records (h'.arrayOpens s) =
    decodeAll h' (a.before.length + 1) a.records (h'.arrayOpens s) := by
    by_cases empty : a.records = []
    · rw [empty]
      rfl
    · exact all_agree _ agree keeps _ (drop_start a empty) (clean_start a) _ inv
  rw [index_scan, walk_array h a small, walk_array _ a small, opens, closes, all]

section Arrays
variable (target : Target) (pclmul : Bool) (env : Env) {t : JsonSubTable JsonField} (src : Bytes)
  (resolves : Resolves t) (plain : ∀ d ∈ t.descs, Plain d.name)
include resolves plain

theorem structArray_agrees :
    decodeStructArray true target pclmul env t src = decodeStructArray false target pclmul env t src := by
  unfold decodeStructArray
  rcases counted : jsonRecordArrayCount src with _ | rows
  · rfl
  dsimp only
  by_cases large : 2 ^ 32 - 1 < src.length
  · rw [if_pos large, if_pos large]
  obtain ⟨a, rfl, _⟩ := count_sound counted
  have same := walk_agrees (structArrayHandler true env t a.spell) (structArrayHandler false env t a.spell) a
    (by omega) rfl rfl _
    (fun cols s keyed learned => rows_agree _ t _ resolves plain _ keyed learned)
    (fun cols s s' _ closed => by
      obtain ⟨pat, found, same⟩ := map_eq_some_iff.mp closed
      rw [← same]
      exact record_learned _ t _ _ _ found)
    ⟨[], 0, noPattern, false, 0⟩ (Or.inl rfl) target pclmul
  rw [same]

theorem soa_agrees (flat : ∀ d ∈ t.descs, d.kind ≠ 4 ∧ d.kind ≠ 6) (uninit : Memory) :
    decodeSoa true target pclmul env t uninit src = decodeSoa false target pclmul env t uninit src := by
  unfold decodeSoa
  rcases counted : jsonRecordArrayCount src with _ | rows
  · rfl
  dsimp only
  cases soaLayout (t.descs.map JsonField.width) rows with
  | none => rfl
  | some layout =>
    obtain ⟨columns, total⟩ := layout
    dsimp only
    by_cases large : 2 ^ 32 - 1 < src.length
    · rw [if_pos large, if_pos large]
    obtain ⟨a, rfl, _⟩ := count_sound counted
    have same := walk_agrees (soaHandler true env t columns a.spell) (soaHandler false env t columns a.spell)
      a (by omega) rfl rfl _
      (fun cols s keyed learned => columns_agree _ t _ resolves plain flat _ keyed learned)
      (fun cols s s' _ closed => by
        obtain ⟨pat, found, same⟩ := map_eq_some_iff.mp closed
        rw [← same]
        exact record_learned _ t _ _ _ found)
      ⟨uninit, 0, noPattern⟩ (Or.inl rfl) target pclmul
    rw [same]

end Arrays

/-- Trying the learned layout first changes nothing: the verdict, the rows and the
columns are those of the slow path alone, for every input. The names are those of
struct fields, distinct and without a quote or a backslash, the table is the
compiler's, and the columns hold neither records nor unions. -/
theorem speculation_invisible (target : Target) (pclmul : Bool) (env : Env) (t : JsonSubTable JsonField)
    (src : Bytes) (distinct : (t.descs.map JsonField.name).Nodup) (plain : ∀ d ∈ t.descs, Plain d.name)
    (built : Built t) :
    decodeStructArray true target pclmul env t src = decodeStructArray false target pclmul env t src ∧
      ((∀ d ∈ t.descs, d.kind ≠ 4 ∧ d.kind ≠ 6) → ∀ uninit,
        decodeSoa true target pclmul env t uninit src = decodeSoa false target pclmul env t uninit src) := by
  have resolves := names_resolve distinct built
  exact ⟨structArray_agrees target pclmul env src resolves plain,
    fun flat => soa_agrees target pclmul env src resolves plain flat⟩

/-- Two `i64` fields, `x` and an optional `y`. -/
def pointTable : JsonSubTable JsonField :=
  ⟨[⟨[0x78], 0x10008, 0, -1, .null⟩, ⟨[0x79], 0x10008, 8, 16, .null⟩], 24, none, 0⟩

theorem pointTable_plain : ∀ d ∈ pointTable.descs, Plain d.name := by
  intro d member
  simp only [pointTable, mem_cons, not_mem_nil, or_false] at member
  rcases member with rfl | rfl
  · exact ⟨by decide, by decide⟩
  · exact ⟨by decide, by decide⟩

theorem pointTable_built : Built pointTable := nofun

/-- `[{"x":1,"y":2},{"x":3,"x":4}]`: the second record fits the layout of the first
and has a duplicate in place of `y`. -/
theorem speculation_invisible_points :
    (pointTable.descs.map JsonField.name).Nodup ∧
      decodeStructArray true .other false ⟨⟨fun _ => none, fun _ => none⟩, true⟩ pointTable
          [0x5B, 0x7B, 0x22, 0x78, 0x22, 0x3A, 0x31, 0x2C, 0x22, 0x79, 0x22, 0x3A, 0x32, 0x7D, 0x2C,
            0x7B, 0x22, 0x78, 0x22, 0x3A, 0x33, 0x2C, 0x22, 0x78, 0x22, 0x3A, 0x34, 0x7D, 0x5D] =
        decodeStructArray false .other false ⟨⟨fun _ => none, fun _ => none⟩, true⟩ pointTable
          [0x5B, 0x7B, 0x22, 0x78, 0x22, 0x3A, 0x31, 0x2C, 0x22, 0x79, 0x22, 0x3A, 0x32, 0x7D, 0x2C,
            0x7B, 0x22, 0x78, 0x22, 0x3A, 0x33, 0x2C, 0x22, 0x78, 0x22, 0x3A, 0x34, 0x7D, 0x5D] ∧
      decodeSoa true .other false ⟨⟨fun _ => none, fun _ => none⟩, true⟩ pointTable zeroed [0x5B, 0x5D] =
        decodeSoa false .other false ⟨⟨fun _ => none, fun _ => none⟩, true⟩ pointTable zeroed [0x5B, 0x5D] := by
  have distinct : (pointTable.descs.map JsonField.name).Nodup := by decide
  have flat : ∀ d ∈ pointTable.descs, d.kind ≠ 4 ∧ d.kind ≠ 6 := by
    intro d member
    simp only [pointTable, mem_cons, not_mem_nil, or_false] at member
    rcases member with rfl | rfl
    · exact ⟨by decide, by decide⟩
    · exact ⟨by decide, by decide⟩
  exact ⟨distinct, (speculation_invisible _ _ _ _ _ distinct pointTable_plain pointTable_built).1,
    (speculation_invisible _ _ _ _ _ distinct pointTable_plain pointTable_built).2 flat zeroed⟩

end Align.JsonSpeculation
