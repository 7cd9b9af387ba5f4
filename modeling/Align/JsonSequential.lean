import Align.JsonReads
import Align.JsonSpeculation

/-! The indexed decoder against the sequential one. On an array of objects both meet
the same members in the same order; the sequential decoder in addition skips the
values nobody asked for, which its nesting bound can refuse. -/
namespace Align.JsonSequential
open JsonText JsonParser JsonSkip JsonRecords JsonDecode JsonIndexed JsonWriters JsonWalk JsonKeys JsonReads
open JsonSpeculation List Option
open Utf8Validate (Target validateUtf8)

/-- One row: `parse_object` into zeroed memory. -/
def objectRow (env : Env) (t : JsonSubTable JsonField) (rest : Bytes) : Option (List Cell × Bytes) :=
  let size := max t.storeSize 0
  let out := parseObject env t.descs size t.phf t.phfSeed rest
  out.rest.map fun rest => (snapshot size.toNat out.effects, rest)

/-- A JSON array of objects each of which `parse_object` accepts, and nothing behind
it but white space: the rows it writes. -/
def objectRows (env : Env) (t : JsonSubTable JsonField) (src : Bytes) : Option (List (List Cell)) :=
  (arrayOf (objectRow env t) src).bind fun (rows, rest) => if (ws rest).isEmpty then some rows else none

variable {rest : Bytes} {r : Record}

section Fields
variable (env : Env) (t : JsonSubTable JsonField) (size : Int) (src : Bytes)

theorem behind_field (cpos fi : Nat) (d : JsonField) :
    fieldBehind env (aosDst size) src cpos fi d =
      (writeField (writeValue env d) d 0 size (ws (src.drop (cpos + 1)))).andThen endsMember := by
  unfold fieldBehind writeField
  cases fieldWidth d with
  | none => rfl
  | some width =>
    simp only [bind_some, aosDst]
    by_cases inside : fits d.offset width size = true
    · simp only [inside, if_true, not_true_eq_false, if_false, Nat.zero_add]
      by_cases required : d.optTag < 0
      · rw [if_pos required, if_pos required]
      rw [if_neg required, if_neg required]
      have tags : markPresent (if fits d.optTag 1 size = true then some d.optTag.toNat else none) =
        setTag d 0 size := by
        funext rest
        unfold setTag fits
        by_cases below : d.optTag ≥ size
        · rw [if_pos below, if_neg (by simp; omega)]
          rfl
        · rw [if_neg below, if_pos (by simp; omega), Nat.zero_add]
          rfl
      cases skipNull (ws (src.drop (cpos + 1))) with
      | none =>
        exact congrArg (fun tag => ((writeValue env d d.offset.toNat (ws (src.drop (cpos + 1)))).andThen tag).andThen
          endsMember) tags
      | some rest => rfl
    · simp only [inside]
      rfl

theorem value_end (write : Bytes → Out) (took : TookOut Deep write) (after : Bytes)
    (deep : Deep j text) (stop : Stops after) (rest : Bytes) (read : (write (text ++ after)).rest = some rest)
    (ends : peek (ws rest) = some comma ∨ peek (ws rest) = some closeBrace) : rest = after := by
  obtain ⟨w, j', t', blank, deep', shape⟩ := took _ _ read
  have solid := ws_of_noWs (heads_noWs deep_head after deep)
  have front : text ++ after = t' ++ rest := by
    rw [← solid, shape, ws_append _ blank, ws_of_noWs (heads_noWs deep_head _ deep')]
  obtain ⟨w', blank', tail⟩ := ws_split rest
  have stop' : Stops rest := by
    rw [tail]
    refine stops_ws _ _ blank' fun b head => ?_
    rcases ends with mark | mark
    · rw [peek, head] at mark
      exact Or.inl (Option.some.inj mark)
    · rw [peek, head] at mark
      exact Or.inr (Or.inr (Option.some.inj mark))
  exact (deep_unique deep deep' stop stop' front).2.symm

/-- Both writers see the same value: they succeed together, with the same effects,
at the end of the member, or the sequential loop fails behind the value. -/
theorem field_sync (d : JsonField) {text after : Bytes} (deep : Deep j text)
    (stop : Stops after) (here : ws (src.drop (cpos + 1)) = text ++ after) :
    (writeFieldIndexed env (aosDst size) src cpos fi d).value = some () ∧
        writeField (writeValue env d) d 0 size (text ++ after) =
          ⟨(writeFieldIndexed env (aosDst size) src cpos fi d).effects, some after⟩ ∨
      (writeFieldIndexed env (aosDst size) src cpos fi d).value = none ∧
        ∀ seen others, (delimit (writeField (writeValue env d) d 0 size (text ++ after)) seen others).1.rest = none := by
  have took := field_took _ (fun start => writeValue_took env d start) d 0 size
  have indexed : writeFieldIndexed env (aosDst size) src cpos fi d =
    ⟨((writeField (writeValue env d) d 0 size (text ++ after)).andThen endsMember).effects,
      ((writeField (writeValue env d) d 0 size (text ++ after)).andThen endsMember).rest.map fun _ => ()⟩ := by
    rw [writeFieldIndexed, behind_field, here]
  have ends := value_end _ took _ deep stop
  rw [indexed]
  generalize writeField (writeValue env d) d 0 size (text ++ after) = out at ends ⊢
  rcases read : out.rest with _ | rest
  · refine Or.inr ⟨?_, fun seen others => ?_⟩
    · simp [Out.andThen, read]
    · simp [delimit, read]
  by_cases ended : peek (ws rest) = some comma ∨ peek (ws rest) = some closeBrace
  · have same := ends rest read ended
    subst same
    refine Or.inl ⟨?_, ?_⟩
    · simp [Out.andThen, read, endsMember, ended, Out.pass]
    · simp only [Out.andThen, read, endsMember, ended, if_true, Out.pass, append_nil]
      rw [← read]
  · refine Or.inr ⟨?_, fun seen others => ?_⟩
    · simp [Out.andThen, read, endsMember, ended, Out.fail]
    · rw [not_or] at ended
      simp [delimit, read, ended]

/-- The value of a member nobody asked for stays within the bound of `skip_value`. -/
def Shallow (m : Member) : Prop := findKey t m.raw = none → ∃ j, Value Body MAX_DEPTH j m.text

/-- The writer of a record's field in `parse_object`. -/
def fieldOf (i : Nat) (rest : Bytes) : Out :=
  fieldAt t.descs (fun d _ => writeField (writeValue env d) d 0 size) i rest

theorem fieldOf_eq (i : Nat) (rest : Bytes) :
    fieldOf env t size i rest =
      (t.descs[i]?).elim .fail fun d => writeField (writeValue env d) d 0 size rest := by
  unfold fieldOf fieldAt
  split <;> rename_i found <;> simp only [found, elim_none, elim_some]

theorem member_value (find : Bytes → Option Nat) (field : Nat → Bytes → Out) (seen : SeenSet) (m : Member)
    (tail : Bytes) :
    member find field seen (m.spell ++ tail) =
      match find m.raw with
      | none => (⟨[], skipValue (m.text ++ (m.after ++ tail))⟩, seen)
      | some i =>
          match seen.mark i with
          | none => (.fail, seen)
          | some seen => (field i (m.text ++ (m.after ++ tail)), seen) := by
  have shape : m.spell ++ tail =
    m.before ++ (quoted m.raw ++ (m.behind ++ colon :: (m.gap ++ (m.text ++ (m.after ++ tail))))) := by
    simp [Member.spell]
  have solid : ws (m.gap ++ (m.text ++ (m.after ++ tail))) = m.text ++ (m.after ++ tail) :=
    ws_skip _ m.gapBlank (heads_noWs deep_head _ m.value)
  rw [shape, member, ws_skip _ m.beforeBlank (noWs_quoted _ _), stringBody_complete _ m.name]
  cases found : find m.raw with
  | none => simp [ws_to colon m.behindBlank rfl, expect_cons, solid, found]
  | some i =>
    cases marked : seen.mark i <;> simp [ws_to colon m.behindBlank rfl, expect_cons, solid, found, marked]

variable (i : Nat) (m : Member) (tail : Bytes)

theorem colon_value (at' : src.drop i = m.spell ++ tail) :
    ws (src.drop (colonAt i m + 1)) = m.text ++ (m.after ++ tail) := by
  have front : src.drop i =
    (m.before ++ (quoted m.raw ++ m.behind)) ++ colon :: (m.gap ++ (m.text ++ (m.after ++ tail))) := by
    rw [at', Member.spell]
    simp
  have marked : src.drop (colonAt i m) = _ := drop_rest front
  rw [drop_tail marked]
  exact ws_skip _ m.gapBlank (heads_noWs deep_head _ m.value)

theorem delimit_comma (after tail : Bytes) (blank : Ws after) (seen : SeenSet)
    (others : SeenSet → Bytes → Out × SeenSet) :
    delimit ⟨effects, some (after ++ comma :: tail)⟩ seen others =
      (⟨effects ++ (others seen tail).1.effects, (others seen tail).1.rest⟩, (others seen tail).2) := by
  simp only [delimit, map_some, ws_to comma blank rfl, peek_cons, if_true, tail_cons]

theorem delimit_close (after tail : Bytes) (blank : Ws after) (seen : SeenSet)
    (others : SeenSet → Bytes → Out × SeenSet) :
    delimit ⟨effects, some (after ++ closeBrace :: tail)⟩ seen others = (⟨effects, some tail⟩, seen) := by
  have other : ¬ (some closeBrace : Option UInt8) = some comma := by decide
  simp only [delimit, map_some, ws_to closeBrace blank rfl, peek_cons, if_neg other, if_true, tail_cons]

/-- One member: the slow path's step at its colon and the loop's first turn, in front
of whatever the loop goes on with. -/
theorem member_sync (at' : src.drop i = m.spell ++ tail) (tidy : Tidy (src.take i))
    (stop : Stops (m.after ++ tail)) (shallow : Shallow t m) (cols : List Nat)
    (others : SeenSet → Bytes → Out × SeenSet) :
    (∃ seen₁ effects fi, delimit (member (findKey t) (fieldOf env t size) seen (m.spell ++ tail)).1
          (member (findKey t) (fieldOf env t size) seen (m.spell ++ tail)).2 others =
        delimit ⟨effects, some (m.after ++ tail)⟩ seen₁ others ∧
      fallbackLoop env t (aosDst size) src (colonAt i m :: cols) seen =
        ⟨effects ++ (fallbackLoop env t (aosDst size) src cols seen₁).effects,
          (fallbackLoop env t (aosDst size) src cols seen₁).value.map fun (seen, pattern) => (seen, fi :: pattern)⟩) ∨
      (fallbackLoop env t (aosDst size) src (colonAt i m :: cols) seen).value = none ∧
        (delimit (member (findKey t) (fieldOf env t size) seen (m.spell ++ tail)).1
          (member (findKey t) (fieldOf env t size) seen (m.spell ++ tail)).2 others).1.rest = none := by
  have keyed := keyed_member _ i m _ at' tidy
  rw [member_value, fallbackLoop, keyBeforeColon_keyed keyed]
  dsimp only
  cases known : findKey t m.raw with
  | none =>
    obtain ⟨j, level⟩ := shallow known
    have skipped := skip_passes _ j m.text (m.after ++ tail) level stop
    refine Or.inl ⟨seen, [], -1, ?_, rfl⟩
    rw [skipValue, skipped]
  | some fi =>
    dsimp only
    rcases marked : seen.mark fi with _ | seen₁
    · exact Or.inr ⟨rfl, rfl⟩
    rcases declared : t.descs[fi]? with _ | d
    · refine Or.inr ⟨rfl, ?_⟩
      rw [fieldOf_eq, declared]
      rfl
    dsimp only
    rw [fieldOf_eq, declared, elim_some]
    rcases field_sync _ _ _ d m.value stop
      (colon_value _ i m _ at') with ⟨wrote, same⟩ | ⟨failed, stuck⟩
    · refine Or.inl ⟨seen₁, (writeFieldIndexed env (aosDst size) src (colonAt i m) fi d).effects, (fi : Int), ?_, ?_⟩
      · rw [same]
      · rw [bind_value _ _ wrote]
        rfl
    · refine Or.inr ⟨?_, stuck seen₁ others⟩
      rw [bind_none _ failed]

/-- A loop in sequence and the slow path: both succeed, with the same effects and the
same members seen, or neither does. -/
def Synced (slow : Attempt (SeenSet × List Int)) (out : Out × SeenSet) (rest : Bytes) : Prop :=
  match slow.value with
  | some (seen, _) => out = (⟨slow.effects, some rest⟩, seen)
  | none => out.1.rest = none

theorem members_sync (filled : ms ≠ [])
    (at' : src.drop i = spellMembers ms ++ closeBrace :: rest) (tidy : Tidy (src.take i))
    (shallow : ∀ m ∈ ms, Shallow t m) (seen : SeenSet) (fuel : Nat) (enough : ms.length ≤ fuel) :
    Synced (fallbackLoop env t (aosDst size) src (colonsOf i ms) seen)
      (members (findKey t) (fieldOf env t size) fuel seen (spellMembers ms ++ closeBrace :: rest)) rest := by
  induction ms generalizing i seen fuel with
  | nil => contradiction
  | cons m ms ih =>
    obtain ⟨fuel, rfl⟩ : ∃ k, fuel = k + 1 := ⟨fuel - 1, by simp at enough; omega⟩
    have shallow' := fun m' member => shallow m' (mem_cons_of_mem m member)
    by_cases last : ms = []
    · subst last
      have stop := stops_mark rest m.afterBlank (Or.inr (Or.inr rfl))
      rw [Synced, colonsOf, colonsOf, spellMembers, members]
      rcases member_sync _ t _ _ i m _ at' tidy stop (shallow m (mem_cons_self ..)) []
        (members (findKey t) (fieldOf env t size) fuel) with ⟨seen₁, effects, fi, read, slow⟩ | ⟨failed, stuck⟩
      · rw [slow, read, delimit_close _ _ m.afterBlank]
        simp [fallbackLoop, Attempt.done]
      · rw [failed]
        exact stuck
    · rw [spellMembers_cons m last, append_assoc, cons_append] at at' ⊢
      have stop := stops_mark (spellMembers ms ++ closeBrace :: rest) m.afterBlank (Or.inl rfl)
      have next := ih (i + (m.spell.length + 1)) last (drop_tail (drop_rest at')) (tidy_next _ i m _ at') shallow'
      rw [Synced, colonsOf, members]
      rcases member_sync _ t _ _ i m _ at' tidy stop (shallow m (mem_cons_self ..))
        _ _ with
        ⟨seen₁, effects, fi, read, slow⟩ | ⟨failed, stuck⟩
      · have later := next seen₁ fuel (by simp at enough; omega)
        rw [Synced] at later
        rw [slow, read, delimit_comma _ _ m.afterBlank]
        rcases found : (fallbackLoop env t (aosDst size) src (colonsOf (i + (m.spell.length + 1)) ms) seen₁).value with _ | result
        · rw [found] at later
          exact later
        rw [found] at later
        dsimp only [map_some]
        rw [later]
      · rw [failed]
        exact stuck

theorem delimit_success (others : SeenSet → Bytes → Out × SeenSet) (rest' : Bytes)
    (success : (delimit out seen others).1.rest = some rest') :
    ∃ rest, out.rest = some rest ∧
      (peek (ws rest) = some comma ∧ (others seen (ws rest).tail).1.rest = some rest' ∨
        peek (ws rest) = some closeBrace) := by
  unfold delimit at success
  rcases read : out.rest with _ | rest
  · simp [read] at success
  simp only [read, map_some] at success
  split_ifs at success with more last
  · exact ⟨rest, rfl, Or.inl ⟨more, success⟩⟩
  · exact ⟨rest, rfl, Or.inr last⟩

theorem member_shallow (stop : Stops (m.after ++ tail))
    (read : (member (findKey t) (fieldOf env t size) seen (m.spell ++ tail)).1.rest = some rest)
    (ends : peek (ws rest) = some comma ∨ peek (ws rest) = some closeBrace) :
    Shallow t m ∧ rest = m.after ++ tail := by
  rw [member_value] at read
  cases known : findKey t m.raw with
  | none =>
    simp only [known] at read
    have took : TookOut Deep fun rest => ⟨[], skipValue rest⟩ := by
      intro rest rest' success
      obtain ⟨j, text, level, shape⟩ := skip_only rest rest' success
      exact ⟨[], j, text, ws_nil, ⟨_, level⟩, shape⟩
    have same := value_end _ took _ m.value stop _ read ends
    obtain ⟨j, text, level, shape⟩ := skip_only _ _ read
    rw [same] at shape
    refine ⟨fun _ => ⟨j, ?_⟩, same⟩
    rw [append_cancel_right shape]
    exact level
  | some i =>
    simp only [known] at read
    refine ⟨fun unknown => absurd known (by rw [unknown]; simp), ?_⟩
    rcases marked : seen.mark i with _ | seen₁
    · simp [marked, Out.fail] at read
    simp only [marked] at read
    refine value_end _ ?_ _ m.value stop _ read ends
    refine fieldAt_took _ (fun d _ => ?_) i
    exact field_took _ (fun start => writeValue_took _ d _) d 0 _

variable {rest' : Bytes}

theorem members_shallow (seen : SeenSet) (fuel : Nat)
    (success : (members (findKey t) (fieldOf env t size) fuel seen (spellMembers ms ++ closeBrace :: rest)).1.rest =
      some rest') : ∀ m ∈ ms, Shallow t m := by
  induction ms generalizing seen fuel with
  | nil =>
    intro m member
    cases member
  | cons m ms ih =>
    cases fuel with
    | zero => simp [members, Out.fail] at success
    | succ fuel =>
      obtain ⟨behind, read, next⟩ := delimit_success _ _ success
      have ends : peek (ws behind) = some comma ∨ peek (ws behind) = some closeBrace := next.imp And.left id
      intro m' member
      by_cases last : ms = []
      · subst last
        cases mem_singleton.mp member
        have stop := stops_mark rest m.afterBlank (Or.inr (Or.inr rfl))
        exact (member_shallow _ t _ m _ stop read ends).1
      · rw [spellMembers_cons m last, append_assoc, cons_append] at read next
        have stop := stops_mark (spellMembers ms ++ closeBrace :: rest) m.afterBlank (Or.inl rfl)
        obtain ⟨first, same⟩ := member_shallow _ t _ m _ stop read ends
        rcases mem_cons.mp member with rfl | later
        · exact first
        subst same
        rw [ws_to _ m.afterBlank rfl, peek_cons, tail_cons] at next
        rcases next with ⟨_, loop⟩ | closes
        · exact ih _ fuel loop m' later
        · exact absurd (Option.some.inj closes) (by decide)

theorem members_size (items : Members Body Deep ms body) :
    ms.length ≤ body.length := by
  induction items with
  | last =>
    simp only [length_append, length_cons, length_nil]
    omega
  | more _ _ _ _ _ _ _ _ _ _ _ _ _ _ _ _ _ ih =>
    simp only [length_append, length_cons]
    omega

theorem members_ws (find : Bytes → Option Nat) (field : Nat → Bytes → Out) (fuel : Nat) (seen : SeenSet)
    (rest : Bytes) : members find field fuel seen (ws rest) = members find field fuel seen rest := by
  cases fuel with
  | zero => rfl
  | succ fuel => rw [members, members, member, member, ws_idem]

theorem objectBody_record (find : Bytes → Option Nat) (field : Nat → Bytes → Out)
    (r : Record) (rest : Bytes) :
    (r.members = [] → objectBody descs find field (r.spell ++ rest) =
        (.pass (r.after ++ rest), .new descs.length)) ∧
      (r.members ≠ [] → ∃ fuel, r.members.length ≤ fuel ∧ objectBody descs find field (r.spell ++ rest) =
        members find field fuel (.new descs.length) (spellMembers r.members ++ closeBrace :: (r.after ++ rest))) := by
  have shape : r.spell ++ rest = r.before ++ openBrace :: (r.body ++ closeBrace :: (r.after ++ rest)) := by
    simp [Record.spell, Record.text]
  have opened : expect openBrace (ws (r.spell ++ rest)) = some (r.body ++ closeBrace :: (r.after ++ rest)) := by
    rw [shape, ws_to _ r.beforeBlank rfl, expect_cons]
  unfold objectBody
  rw [opened]
  dsimp only
  rw [Record.body]
  constructor
  · intro empty
    rw [if_pos empty, ws_to _ r.blankBlank rfl, peek_cons, if_pos rfl]
    rfl
  · intro filled
    obtain ⟨w, tail, blank, text, trimmed⟩ := members_trim (spelled_members filled)
    have begun : ws (spellMembers r.members ++ closeBrace :: (r.after ++ rest)) =
      quote :: tail ++ closeBrace :: (r.after ++ rest) := by
      rw [text, append_assoc]
      exact ws_to _ blank rfl
    have started : ¬ peek (quote :: tail ++ closeBrace :: (r.after ++ rest)) = some closeBrace :=
      fun closes => absurd (Option.some.inj closes) (by decide)
    have size := members_size trimmed
    rw [length_map] at size
    refine ⟨(quote :: tail ++ closeBrace :: (r.after ++ rest)).length, ?_, ?_⟩
    · rw [length_append]
      omega
    · rw [if_neg filled, begun, if_neg started, ← begun, members_ws]

/-- The colons of a record that begins at `i`. -/
abbrev colonsAt (r : Record) (i : Nat) : List Nat := colonsOf (i + r.before.length + 1) r.members

theorem body_sync (r : Record) (rest : Bytes) (at' : src.drop i = r.spell ++ rest)
    (clean : Clean (src.take i)) (shallow : ∀ m ∈ r.members, Shallow t m) :
    Synced (fallbackLoop env t (aosDst size) src (colonsAt r i) (.new t.descs.length))
      (objectBody t.descs (findKey t) (fieldOf env t size) (r.spell ++ rest)) (r.after ++ rest) := by
  obtain ⟨inner, tidy⟩ := tidy_record i at' clean
  obtain ⟨closed, loop⟩ := objectBody_record _ _ r _
  by_cases empty : r.members = []
  · rw [closed empty, colonsAt, empty]
    rfl
  · obtain ⟨fuel, enough, body⟩ := loop empty
    rw [Record.body, if_neg empty] at inner
    rw [body]
    exact members_sync _ t _ _ _ empty inner tidy shallow _ _ enough

theorem record_shallow
    (success : (parseObject env t.descs size t.phf t.phfSeed (r.spell ++ rest)).rest = some rest') :
    ∀ m ∈ r.members, Shallow t m := by
  by_cases empty : r.members = []
  · rw [empty]
    intro m member
    cases member
  obtain ⟨fuel, _, body⟩ := (objectBody_record _ _ r _).2 empty
  have object : parseObject env t.descs size t.phf t.phfSeed (r.spell ++ rest) =
    objectWith t.descs (findKey t) (fieldOf env t size) 0 (r.spell ++ rest) := rfl
  rw [object, objectWith, body] at success
  split_ifs at success
  exact members_shallow _ t _ _ _ success

/-- One record: the slow path over its colons is `parse_object` over its text. -/
theorem record_sync (r : Record) (rest : Bytes) (at' : src.drop i = r.spell ++ rest)
    (clean : Clean (src.take i)) (shallow : ∀ m ∈ r.members, Shallow t m) :
    match (jsonFallback env t (aosDst size) src (colonsAt r i)).value with
    | some _ => parseObject env t.descs size t.phf t.phfSeed (r.spell ++ rest) =
        ⟨(jsonFallback env t (aosDst size) src (colonsAt r i)).effects, some (r.after ++ rest)⟩
    | none => (parseObject env t.descs size t.phf t.phfSeed (r.spell ++ rest)).rest = none := by
  have synced := body_sync env t size _ i r _ at' clean shallow
  have object : parseObject env t.descs size t.phf t.phfSeed (r.spell ++ rest) =
    objectWith t.descs (findKey t) (fieldOf env t size) 0 (r.spell ++ rest) := rfl
  rw [object]
  unfold objectWith jsonFallback
  unfold Synced at synced
  generalize fallbackLoop env t (aosDst size) src (colonsAt r i) (.new t.descs.length) = loop at synced ⊢
  rcases looped : loop.value with _ | result
  · rw [looped] at synced
    rw [bind_none _ looped]
    simp [synced]
  rw [looped] at synced
  rw [bind_value _ _ looped, synced]
  by_cases complete : result.1.allRequiredSeen t.descs = true
  · simp [complete, Attempt.done]
  · simp [complete, Attempt.fail]

end Fields

section Arrays
variable (env : Env) (t : JsonSubTable JsonField) (src : Bytes)

/-- The row of a record that begins at `i`, by the slow path. -/
def rowAt (i : Nat) (r : Record) : Option (List Cell) :=
  let slow := jsonFallback env t (aosDst (max t.storeSize 0)) src (colonsOf (i + r.before.length + 1) r.members)
  slow.value.map fun _ => snapshot (max t.storeSize 0).toNat slow.effects

def rowsAt : Nat → List Record → Option (List (List Cell))
  | _, [] => some []
  | i, r :: rs => (rowAt env t src i r).bind fun row => (rowsAt (i + (r.spell.length + 1)) rs).map (row :: ·)

theorem objectRow_ws (rest : Bytes) : objectRow env t (ws rest) = objectRow env t rest := by
  have body : ∀ descs find field, objectBody descs find field (ws rest) = objectBody descs find field rest := by
    intro descs find field
    rw [objectBody, objectBody, ws_idem]
  have object : parseObject env t.descs (max t.storeSize 0) t.phf t.phfSeed (ws rest) =
    parseObject env t.descs (max t.storeSize 0) t.phf t.phfSeed rest := by
    rw [parseObject, parseObject, tableObject, tableObject, objectWith, objectWith, body]
  rw [objectRow, objectRow, object]

theorem objectRow_sync {i : Nat} (at' : src.drop i = r.spell ++ rest)
    (clean : Clean (src.take i)) (shallow : ∀ m ∈ r.members, Shallow t m) :
    objectRow env t (r.spell ++ rest) = (rowAt env t src i r).map fun row => (row, r.after ++ rest) := by
  have synced := record_sync env t (max t.storeSize 0) _ i r _ at' clean shallow
  unfold objectRow rowAt
  dsimp only
  cases found : (jsonFallback env t (aosDst (max t.storeSize 0)) src (colonsAt r i)).value with
  | none =>
    rw [found] at synced
    rw [synced, map_none, map_none, map_none]
  | some fields =>
    rw [found] at synced
    rw [synced, map_some, map_some, map_some]

theorem items_ws (fuel : Nat) (rest : Bytes) :
    items (objectRow env t) fuel (ws rest) = items (objectRow env t) fuel rest := by
  cases fuel with
  | zero => rfl
  | succ fuel => rw [items, items, objectRow_ws]

variable {rs : List Record}

theorem items_sync (i : Nat) (filled : rs ≠ [])
    (at' : src.drop i = spellRecords rs ++ closeBracket :: rest) (clean : Clean (src.take i))
    (shallow : ∀ r ∈ rs, ∀ m ∈ r.members, Shallow t m) (fuel : Nat) (enough : rs.length ≤ fuel) :
    items (objectRow env t) fuel (spellRecords rs ++ closeBracket :: rest) =
      (rowsAt env t src i rs).map fun rows => (rows, rest) := by
  induction rs generalizing i fuel with
  | nil => contradiction
  | cons r rs ih =>
    obtain ⟨fuel, rfl⟩ : ∃ k, fuel = k + 1 := ⟨fuel - 1, by simp at enough; omega⟩
    have first := shallow r (mem_cons_self ..)
    by_cases last : rs = []
    · subst last
      have closes : ¬ (some closeBracket : Option UInt8) = some comma := by decide
      rw [spellRecords, items, objectRow_sync _ t _ at' clean first, rowsAt]
      cases rowAt env t src i r with
      | none => rfl
      | some row =>
        simp only [map_some, bind_some, rowsAt, ws_to closeBracket r.afterBlank rfl, peek_cons,
          if_neg closes, if_true, tail_cons]
    · rw [spellRecords_cons r last, append_assoc, cons_append] at at' ⊢
      have next := ih _ last (drop_tail (drop_rest at')) (clean_next i at')
        (fun r' member => shallow r' (mem_cons_of_mem r member)) fuel (by simp at enough; omega)
      rw [items, objectRow_sync _ t _ at' clean first, rowsAt]
      cases rowAt env t src i r with
      | none => rfl
      | some row =>
        simp only [map_some, bind_some, ws_to comma r.afterBlank rfl, peek_cons, if_true, tail_cons]
        rw [items_ws, next, Option.map_map, Option.map_map]
        rfl

theorem items_shallow (i : Nat)
    (at' : src.drop i = spellRecords rs ++ closeBracket :: rest) (clean : Clean (src.take i)) (fuel : Nat)
    (success : items (objectRow env t) fuel (spellRecords rs ++ closeBracket :: rest) ≠ none) :
    ∀ r ∈ rs, ∀ m ∈ r.members, Shallow t m := by
  induction rs generalizing i fuel with
  | nil =>
    intro r member
    cases member
  | cons r rs ih =>
    cases fuel with
    | zero => exact absurd rfl success
    | succ fuel =>
      have first : ∀ tail, items (objectRow env t) (fuel + 1) (r.spell ++ tail) ≠ none →
        ∀ m ∈ r.members, Shallow t m := by
        intro tail success
        cases read : (parseObject env t.descs (max t.storeSize 0) t.phf t.phfSeed (r.spell ++ tail)).rest with
        | none => exact absurd (by simp [items, objectRow, read]) success
        | some behind => exact record_shallow _ t _ read
      by_cases last : rs = []
      · subst last
        intro r' member
        cases mem_singleton.mp member
        exact first _ success
      · rw [spellRecords_cons r last, append_assoc, cons_append] at at' success
        intro r' member
        rcases mem_cons.mp member with rfl | later
        · exact first _ success
        refine ih _ (drop_tail (drop_rest at')) (clean_next i at') fuel ?_ r' later
        intro failed
        apply success
        rw [items, objectRow_sync _ t _ at' clean (first _ success)]
        cases rowAt env t src i r with
        | none => rfl
        | some row =>
          simp only [map_some, bind_some, ws_to comma r.afterBlank rfl, peek_cons, if_true, tail_cons]
          rw [items_ws, failed]
          rfl

theorem records_size (r : Record) (rs : List Record) :
    rs.length + 1 + r.before.length ≤ (spellRecords (r :: rs)).length := by
  have one : r.before.length + 2 ≤ r.spell.length := by
    simp [Record.spell, Record.text]
    omega
  induction rs generalizing r with
  | nil =>
    rw [spellRecords, length_nil]
    omega
  | cons next rs ih =>
    have later := ih next (by simp [Record.spell, Record.text]; omega)
    rw [spellRecords_cons r (by simp), length_append, length_cons, length_cons]
    omega

theorem objectRows_items (a : RecordArray) :
    (a.records = [] → objectRows env t a.spell = some []) ∧
      (a.records ≠ [] → ∃ fuel, a.records.length ≤ fuel ∧ objectRows env t a.spell =
        (items (objectRow env t) fuel (spellRecords a.records ++ closeBracket :: a.after)).bind fun (rows, rest) =>
          if (ws rest).isEmpty then some rows else none) := by
  have opened : expect openBracket (ws a.spell) = some (a.body ++ closeBracket :: a.after) := by
    rw [RecordArray.spell, ws_to _ a.beforeBlank rfl, expect_cons]
  unfold objectRows arrayOf
  rw [opened, bind_some]
  dsimp only
  rw [RecordArray.body]
  constructor
  · intro empty
    rw [if_pos empty, ws_to _ a.blankBlank rfl, peek_cons, if_pos rfl]
    simpa [ws, Ws] using a.afterBlank
  · intro filled
    obtain ⟨r, rs, records⟩ := exists_cons_of_ne_nil filled
    -- the first record begins with a brace, so the array is not taken for an empty one
    obtain ⟨tail, front⟩ : ∃ tail,
      spellRecords a.records ++ closeBracket :: a.after = r.before ++ openBrace :: tail := by
      rw [records]
      by_cases last : rs = []
      · subst last
        exact ⟨_, by simp [spellRecords, Record.spell, Record.text]; rfl⟩
      · rw [spellRecords_cons r last]
        exact ⟨_, by simp [Record.spell, Record.text]; rfl⟩
    have begun : ws (spellRecords a.records ++ closeBracket :: a.after) = openBrace :: tail := by
      rw [front, ws_to _ r.beforeBlank rfl]
    have started : ¬ peek (openBrace :: tail) = some closeBracket :=
      fun closes => absurd (Option.some.inj closes) (by decide)
    refine ⟨(openBrace :: tail).length, ?_, ?_⟩
    · have size := records_size r rs
      have length := congrArg List.length front
      rw [← records] at size
      rw [length_append, length_append] at length
      rw [records, length_cons]
      omega
    · rw [if_neg filled, begun, if_neg started, ← begun, items_ws]

theorem objectRows_sync (a : RecordArray) (shallow : ∀ r ∈ a.records, ∀ m ∈ r.members, Shallow t m) :
    objectRows env t a.spell = rowsAt env t a.spell (a.before.length + 1) a.records := by
  obtain ⟨none, some'⟩ := objectRows_items _ t a
  by_cases empty : a.records = []
  · rw [none empty, empty, rowsAt]
  obtain ⟨fuel, enough, loop⟩ := some' empty
  rw [loop, items_sync _ t _ _ empty (drop_start a empty) (clean_start a) shallow _ enough]
  cases rowsAt env t a.spell (a.before.length + 1) a.records with
  | none => rfl
  | some rows => simpa [ws, Ws] using a.afterBlank

theorem array_shallow (a : RecordArray) (success : objectRows env t a.spell ≠ none) :
    ∀ r ∈ a.records, ∀ m ∈ r.members, Shallow t m := by
  by_cases empty : a.records = []
  · rw [empty]
    intro r member
    cases member
  obtain ⟨fuel, _, loop⟩ := (objectRows_items _ t a).2 empty
  refine items_shallow env t _ _ (drop_start a empty) (clean_start a) fuel ?_
  intro failed
  rw [loop, failed] at success
  exact success rfl

theorem objectRows_spelled (success : objectRows env t src = some rows) :
    ∃ a : RecordArray, a.spell = src := by
  obtain ⟨⟨found, rest⟩, read, ended⟩ := bind_eq_some_iff.mp success
  dsimp only at ended
  split_ifs at ended with ending
  obtain ⟨w', blank', tail⟩ := ws_split _
  rw [List.isEmpty_iff.mp ending, append_nil] at tail
  have took : ∀ rest row rest', objectRow env t rest = some (row, rest') → Took Row rest rest' := by
    intro rest row rest' one
    obtain ⟨behind, out, same⟩ := map_eq_some_iff.mp one
    cases same
    obtain ⟨w, j, text, blank, braces, shape⟩ := table_took
      _ (fun d _ start => writeValue_took _ d _) 0 _ rest _ out
    exact ⟨w, j, text, blank, ⟨deep_layer braces.1, braces.2⟩, shape⟩
  obtain ⟨w, blank, ⟨v, inside, _, shape⟩ | ⟨js, body, elements, _, shape⟩⟩ :=
    array_took _ _ took _ _ _ read
  · refine ⟨⟨w, v, [], rest, blank, inside, tail ▸ blank'⟩, ?_⟩
    rw [shape]
    simp [RecordArray.spell, RecordArray.body]
  · obtain ⟨rs, filled, spelled, _⟩ := elements_spelled elements
    refine ⟨⟨w, [], rs, rest, blank, ws_nil, tail ▸ blank'⟩, ?_⟩
    rw [shape, ← spelled]
    simp [RecordArray.spell, RecordArray.body, filled]

theorem staged_rows (i : Nat) (rs : List Record) (s : Staging) :
    (decodeAll (structArrayHandler false env t src) i rs s).map
        (fun s => (s.rows, s.count, s.started, s.arrayClose)) =
      (rowsAt env t src i rs).map fun rows => (s.rows ++ rows, s.count + rs.length, s.started, s.arrayClose) := by
  induction rs generalizing i s with
  | nil => simp [decodeAll, rowsAt]
  | cons r rs ih =>
    have writes := fallback_writes env t (aosDst (max t.storeSize 0)) src (colonsAt r i)
    have slow : (structArrayHandler false env t src).recordCloses (colonsAt r i)
      ((structArrayHandler false env t src).recordOpens s) =
      (jsonFallback env t (aosDst (max t.storeSize 0)) src (colonsAt r i)).value.map fun fields => { s with
        rows := s.rows ++ [snapshot (max t.storeSize 0).toNat ([.clean 0 t.descs none] ++
          (jsonFallback env t (aosDst (max t.storeSize 0)) src (colonsAt r i)).effects)],
        count := s.count + 1, pat := ⟨(colonsAt r i).length, fields⟩ } := by
      simp [structArrayHandler, decodeRecord, Attempt.fail, Function.comp_def]
    rw [decodeAll, rowsAt, slow, rowAt]
    generalize jsonFallback env t (aosDst (max t.storeSize 0)) src (colonsAt r i) = attempt at writes ⊢
    rcases found : attempt.value with _ | fields
    · rfl
    have once : snapshot (max t.storeSize 0).toNat ([.clean 0 t.descs none] ++ attempt.effects) =
      snapshot (max t.storeSize 0).toNat attempt.effects := by
      rw [snapshot, run_again [.clean 0 t.descs none] _ (writes fields found)
        (among_cleaned [] _ _ (among_nil) (by simp)), snapshot]
    rw [once, map_some, bind_some, ih, map_some, bind_some, Option.map_map]
    congr 1
    funext rows
    have count : s.count + 1 + rs.length = s.count + (rs.length + 1) := by omega
    simp only [Function.comp_apply, append_assoc, singleton_append, length_cons, count]

theorem structArray_slow (pclmul : Bool) {a : RecordArray} (valid : validateUtf8 target a.spell = true)
    (small : a.spell.length < 2 ^ 32) :
    decodeStructArray false target pclmul env t a.spell =
      .ofOption (rowsAt env t a.spell (a.before.length + 1) a.records) := by
  have rows := staged_rows env t a.spell (a.before.length + 1) a.records
    ((structArrayHandler false env t a.spell).arrayOpens ⟨[], 0, noPattern, false, 0⟩)
  have behind : a.spell.drop (a.before.length + 1 + a.body.length + 1) = a.after := by
    have shape : a.spell = (a.before ++ openBracket :: (a.body ++ [closeBracket])) ++ a.after := by
      simp [RecordArray.spell]
    have length : a.before.length + 1 + a.body.length + 1 =
      (a.before ++ openBracket :: (a.body ++ [closeBracket])).length := by
      simp
      omega
    rw [shape, length, drop_left]
  have blank : ¬ ∃ b ∈ a.after, isWs b = false := by
    rintro ⟨b, member, other⟩
    rw [a.afterBlank b member] at other
    cases other
  have few : ¬ 2 ^ 63 ≤ a.records.length := by
    cases records : a.records with
    | nil => simp
    | cons r rs =>
      have size := records_size r rs
      have whole : (spellRecords (r :: rs)).length ≤ a.spell.length := by
        simp [RecordArray.spell, RecordArray.body, records]
        omega
      rw [length_cons]
      omega
  unfold decodeStructArray
  rw [valid, count_complete a]
  dsimp only
  rw [if_neg (by simp), if_neg few, if_neg (by omega), index_scan, walk_array _ a small]
  cases run : decodeAll (structArrayHandler false env t a.spell) (a.before.length + 1) a.records
    ((structArrayHandler false env t a.spell).arrayOpens ⟨[], 0, noPattern, false, 0⟩) with
  | none =>
    rw [run] at rows
    rw [map_eq_none_iff.mp rows.symm]
    rfl
  | some s =>
    rw [run] at rows
    obtain ⟨found, decoded, same⟩ := map_eq_some_iff.mp rows.symm
    simp only [Prod.mk.injEq] at same
    obtain ⟨all, counted, started, _⟩ := same
    rw [decoded]
    simp [structArrayHandler] at all counted started ⊢
    rw [behind, if_neg (by simp [started, counted]), if_neg blank, ← all, Outcome.ofOption]

/-- No member that the table does not declare has a value that `skip_value` refuses
for its nesting, however the text is taken apart. -/
def ShallowText (t : JsonSubTable JsonField) (src : Bytes) : Prop :=
  ∀ a : RecordArray, a.spell = src → ∀ r ∈ a.records, ∀ m ∈ r.members, Shallow t m

theorem structArray_counted (success : decodeStructArray speculation target pclmul env t src = .accepted rows) :
    ∃ a : RecordArray, a.spell = src := by
  cases counted : jsonRecordArrayCount src with
  | none =>
    rw [decodeStructArray, counted] at success
    split_ifs at success
  | some n =>
    obtain ⟨a, spelled, _⟩ := count_sound counted
    exact ⟨a, spelled⟩

end Arrays

/-- The indexed decoder and the sequential one agree: what `parse_object` makes of each
object of the array is what the indexed decoder makes of the whole, except that the
indexed decoder takes undeclared values at any nesting. -/
theorem indexed_sequential (target : Target) (pclmul : Bool) (env : Env) (t : JsonSubTable JsonField) (src : Bytes)
    (distinct : (t.descs.map JsonField.name).Nodup) (plain : ∀ d ∈ t.descs, Plain d.name) (built : Built t)
    (utf8 : src.toByteArray.IsValidUTF8) (small : src.length < 2 ^ 32) :
    (∀ rows, objectRows env t src = some rows ↔
      decodeStructArray true target pclmul env t src = .accepted rows ∧ ShallowText t src) ∧
    decodeStructArray true target pclmul env t src ≠ .aborted := by
  have valid := (Utf8Validate.selected_exact target src).mpr utf8
  rw [structArray_agrees target pclmul env src (names_resolve distinct built) plain]
  constructor
  · intro rows
    constructor
    · intro success
      obtain ⟨a, rfl⟩ := objectRows_spelled env t src success
      have shallow : ShallowText t a.spell := by
        intro a' same
        refine array_shallow env t a' ?_
        rw [same, success]
        exact some_ne_none rows
      rw [structArray_slow env t pclmul valid small, ← objectRows_sync env t a (shallow a rfl), success]
      exact ⟨rfl, shallow⟩
    · rintro ⟨success, shallow⟩
      obtain ⟨a, rfl⟩ := structArray_counted env t src success
      rw [structArray_slow env t pclmul valid small, ← objectRows_sync env t a (shallow a rfl)] at success
      cases found : objectRows env t a.spell with
      | none =>
        rw [found] at success
        cases success
      | some rows' =>
        rw [found] at success
        cases success
        rfl
  · intro aborted
    rcases counted : jsonRecordArrayCount src with _ | n
    · unfold decodeStructArray at aborted
      rw [counted, valid] at aborted
      cases aborted
    obtain ⟨a, rfl, _⟩ := count_sound counted
    rw [structArray_slow env t pclmul valid small] at aborted
    cases found : rowsAt env t a.spell (a.before.length + 1) a.records <;> rw [found] at aborted <;> cases aborted

/-- `[{"x":1,"z":[]}]`, in which the table does not declare `z`. -/
theorem indexed_sequential_point : (pointTable.descs.map JsonField.name).Nodup ∧ ∀ rows,
    objectRows ⟨⟨fun _ => none, fun _ => none⟩, true⟩ pointTable
        [0x5B, 0x7B, 0x22, 0x78, 0x22, 0x3A, 0x31, 0x2C, 0x22, 0x7A, 0x22, 0x3A, 0x5B, 0x5D, 0x7D, 0x5D] = some rows ↔
      decodeStructArray true .other false ⟨⟨fun _ => none, fun _ => none⟩, true⟩ pointTable
        [0x5B, 0x7B, 0x22, 0x78, 0x22, 0x3A, 0x31, 0x2C, 0x22, 0x7A, 0x22, 0x3A, 0x5B, 0x5D, 0x7D, 0x5D] =
          .accepted rows ∧
      ShallowText pointTable
        [0x5B, 0x7B, 0x22, 0x78, 0x22, 0x3A, 0x31, 0x2C, 0x22, 0x7A, 0x22, 0x3A, 0x5B, 0x5D, 0x7D, 0x5D] := by
  have distinct : (pointTable.descs.map JsonField.name).Nodup := by decide
  have utf8 := (Utf8Validate.selected_exact .other
    [0x5B, 0x7B, 0x22, 0x78, 0x22, 0x3A, 0x31, 0x2C, 0x22, 0x7A, 0x22, 0x3A, 0x5B, 0x5D, 0x7D, 0x5D]).mp (by decide)
  exact ⟨distinct, (indexed_sequential .other false _ pointTable _ distinct pointTable_plain pointTable_built utf8
    (by decide)).1⟩

def nest : Nat → Bytes
  | 0 => []
  | n + 1 => openBracket :: (nest n ++ [closeBracket])

theorem nest_value (n : Nat) : ∃ j, Value Body n j (nest (n + 1)) := by
  induction n with
  | zero => exact ⟨.array [], .emptyArray [] ws_nil⟩
  | succ n ih =>
    obtain ⟨j, ok⟩ := ih
    have items := Elements.last [] (nest (n + 1)) [] j ws_nil ok ws_nil
    rw [nil_append, append_nil] at items
    exact ⟨.array [j], .array [j] _ items⟩

theorem nest_refused (n : Nat) (rest : Bytes) : skipValueDepth n (nest (n + 1) ++ rest) = none := by
  induction n generalizing rest with
  | zero => rfl
  | succ n ih =>
    have inner := ih (closeBracket :: rest)
    rw [nest, cons_append, append_assoc]
    change skipArray (skipValueDepth n) (openBracket :: (nest (n + 1) ++ closeBracket :: rest)) = none
    rw [skipArray, expect_cons, bind_some]
    rw [nest, cons_append] at inner ⊢
    have still : ws (openBracket :: (nest n ++ [closeBracket] ++ closeBracket :: rest)) = _ :=
      ws_to _ ws_nil rfl
    dsimp only
    rw [still, peek_cons, if_neg (by decide), length_cons, skipElements, still, inner, Option.bind_none]

/-- One optional `i64` field, `y`. -/
def optionalTable : JsonSubTable JsonField := ⟨[⟨[0x79], 0x10008, 0, 8, .null⟩], 16, none, 0⟩

/-- `[{"k":[[ … ]]}]` with 130 arrays inside one another. -/
def deepText : Bytes := [0x5B, 0x7B, 0x22, 0x6B, 0x22, 0x3A] ++ nest 130 ++ [0x7D, 0x5D]

/-- An undeclared value is taken at any nesting by the one decoder and not by the
other. -/
theorem deep_ignored_value_differs :
    deepText.toByteArray.IsValidUTF8 ∧ deepText.length < 2 ^ 32 ∧
      decodeStructArray true .other false ⟨⟨fun _ => none, fun _ => none⟩, true⟩ optionalTable deepText =
        .accepted [snapshot 16 []] ∧
      objectRows ⟨⟨fun _ => none, fun _ => none⟩, true⟩ optionalTable deepText = none := by
  obtain ⟨j, ok⟩ := nest_value 129
  have plainKey : Body [0x6B] [0x6B] := .plain _ _ _ ⟨by decide, by decide, by decide⟩ .nil
  let m : Member := ⟨[], [0x6B], [0x6B], [], [], j, nest 130, [], ws_nil, plainKey, ws_nil, ws_nil,
    ⟨129, ok⟩, ws_nil⟩
  let a : RecordArray := ⟨[], [], [⟨[], [], [m], [], ws_nil, ws_nil, ws_nil⟩], [], ws_nil, ws_nil, ws_nil⟩
  have spelled : a.spell = deepText := by
    simp [a, m, RecordArray.spell, RecordArray.body, spellRecords, Record.spell, Record.text, Record.body, spellMembers,
      Member.spell, quoted, deepText, openBracket, closeBracket, openBrace, closeBrace, quote, colon]
  have utf8 : deepText.toByteArray.IsValidUTF8 := Utf8Validate.ascii_valid deepText (by decide +kernel)
  have small : deepText.length < 2 ^ 32 := by decide +kernel
  have key : keyBeforeColon deepText 5 = some [0x6B] := by decide +kernel
  have unknown : findKey optionalTable [0x6B] = none := by decide
  refine ⟨utf8, small, ?_, ?_⟩
  · have plain : ∀ d ∈ optionalTable.descs, Plain d.name := by
      intro d member
      cases mem_singleton.mp member
      exact ⟨by decide, by decide⟩
    have built : Built optionalTable := by
      intro slots found
      cases found
    have slow := structArray_slow ⟨⟨fun _ => none, fun _ => none⟩, true⟩ optionalTable false
      (spelled ▸ (Utf8Validate.selected_exact .other deepText).mpr utf8) (spelled ▸ small)
    rw [spelled] at slow
    rw [structArray_agrees .other false _ deepText (names_resolve (by decide) built) plain, slow]
    simp only [a, m, rowsAt, rowAt, jsonFallback, colonsOf, colonAt, quoted, fallbackLoop, length_nil, length_cons,
      length_append, nil_append, append_nil, key, unknown]
    rfl
  · by_contra success
    rw [← spelled] at success
    obtain ⟨j, shallow⟩ := array_shallow _ _ a success _ (mem_singleton_self _) m (mem_singleton_self _) unknown
    have passed := skip_passes MAX_DEPTH j (nest 130) [] shallow (by rintro _ ⟨⟩)
    exact absurd (passed.symm.trans (nest_refused 129 [])) (by simp)

end Align.JsonSequential
