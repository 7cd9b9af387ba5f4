import Align.JsonDecode

/-! Laws of the typed writers: a success has only written, a writer without an
arena does what the writer with one does or stops short of it, and cleaning up
only sets bytes to zero. -/
namespace Align.JsonWriters
open JsonText JsonParser JsonSkip JsonDecode List Option

def OnlyWrites (effects : List Effect) : Prop := ∀ e ∈ effects, ∃ start cells, e = .write start cells

/-- Every write of the first is one of the second. -/
def Among (part full : List Effect) : Prop :=
  ∀ start cells, Effect.write start cells ∈ part → Effect.write start cells ∈ full

/-- A success only writes; the other attempt is the same, or it fails, and had the
first succeeded, has written nothing that the first did not. -/
structure Follows (full part : Out) : Prop where
  writes : full.rest ≠ none → OnlyWrites full.effects
  same : part = full ∨ (part.rest = none ∧ (full.rest ≠ none → Among part.effects full.effects))

theorem onlyWrites_append (writes : OnlyWrites first)
    (writes' : OnlyWrites second) : OnlyWrites (first ++ second) := by
  intro e member
  rcases mem_append.mp member with left | right
  · exact writes e left
  · exact writes' e right

theorem onlyWrites_single (start : Nat) (cells : List Cell) : OnlyWrites [.write start cells] := by
  intro e member
  exact ⟨start, cells, mem_singleton.mp member⟩

theorem onlyWrites_nil : OnlyWrites [] := by
  intro e member
  cases member

theorem among_nil : Among [] full := by
  intro start cells member
  cases member

theorem among_cleaned (part full cleanup : List Effect) (among : Among part full)
    (silent : ∀ start cells, Effect.write start cells ∉ cleanup) : Among (part ++ cleanup) full := by
  intro start cells member
  rcases mem_append.mp member with left | right
  · exact among start cells left
  · exact absurd right (silent start cells)

theorem among_extend (among : Among part full) : Among part (full ++ more) :=
  fun start cells member => mem_append_left more (among start cells member)

theorem among_prepend (among : Among part full) :
    Among (before ++ part) (before ++ full) := by
  intro start cells member
  rcases mem_append.mp member with left | right
  · exact mem_append_left full left
  · exact mem_append_right before (among start cells right)

theorem follows_self (writes : out.rest ≠ none → OnlyWrites out.effects) : Follows out out :=
  ⟨writes, Or.inl rfl⟩

theorem follows_fail (failed : out.rest = none) : Follows out out :=
  ⟨fun success => absurd failed success, Or.inl rfl⟩

theorem follows_ofCells (start : Nat)
    (same : part = full ∨ part = none) : Follows (.ofCells start full) (.ofCells start part) := by
  constructor
  · cases full with
    | none => exact fun success => absurd rfl success
    | some found => exact fun _ => onlyWrites_single _ _
  · rcases same with rfl | rfl
    · exact Or.inl rfl
    · exact Or.inr ⟨rfl, fun _ => among_nil⟩

theorem follows_andThen (next : Bytes → Out) (follows : Follows full part)
    (writes : ∀ rest, (next rest).rest ≠ none → OnlyWrites (next rest).effects) :
    Follows (full.andThen next) (part.andThen next) := by
  cases read : full.rest with
  | none =>
    have whole : full.andThen next = full := by rw [Out.andThen, read]
    rw [whole]
    rcases follows.same with rfl | ⟨failed, -⟩
    · rw [whole]
      exact follows_fail read
    · rw [Out.andThen, failed]
      exact follows
  | some rest =>
    have success : full.rest ≠ none := by simp [read]
    have whole : full.andThen next = ⟨full.effects ++ (next rest).effects, (next rest).rest⟩ := by
      rw [Out.andThen, read]
    constructor
    · rw [whole]
      exact fun found => onlyWrites_append (follows.writes success) (writes rest found)
    · rcases follows.same with rfl | ⟨failed, among⟩
      · exact Or.inl rfl
      · have short : part.andThen next = part := by rw [Out.andThen, failed]
        rw [short, whole]
        exact Or.inr ⟨failed, fun _ => among_extend (among success)⟩

theorem setTag_writes (rest : Bytes)
    (success : (setTag d base size rest).rest ≠ none) : OnlyWrites (setTag d base size rest).effects := by
  unfold setTag at success ⊢
  split_ifs at success ⊢
  · exact absurd rfl success
  · exact onlyWrites_single _ _

theorem follows_field (value value' : Nat → Bytes → Out)
    (follows : ∀ start rest, Follows (value start rest) (value' start rest)) (d : JsonField)
    (size : Int) :
    Follows (writeField value d base size rest) (writeField value' d base size rest) := by
  unfold writeField
  cases fieldWidth d with
  | none => exact follows_fail rfl
  | some width =>
    dsimp only
    split_ifs with inside required
    · exact follows _ rest
    · cases skipNull rest with
      | some rest => exact follows_self fun _ => onlyWrites_nil
      | none => exact follows_andThen _ (follows _ rest) (setTag_writes)
    · exact follows_fail rfl

theorem follows_fieldAt (writer writer' : (d : JsonField) → d ∈ fields → Bytes → Out)
    (follows : ∀ d member rest, Follows (writer d member rest) (writer' d member rest)) (i : Nat)
    : Follows (fieldAt fields writer i rest) (fieldAt fields writer' i rest) := by
  unfold fieldAt
  split
  · exact follows_fail rfl
  · exact follows _ _ rest

section Objects
variable (find : Bytes → Option Nat) (field field' : Nat → Bytes → Out)
  (follows : ∀ i rest, Follows (field i rest) (field' i rest))
include follows

theorem follows_member :
    Follows (member find field seen rest).1 (member find field' seen rest).1 ∧
      (member find field' seen rest).2 = (member find field seen rest).2 := by
  unfold member
  cases stringBody (ws rest) with
  | none => exact ⟨follows_fail rfl, rfl⟩
  | some found =>
    dsimp only
    cases expect colon (ws found.2) with
    | none => exact ⟨follows_fail rfl, rfl⟩
    | some rest =>
      cases find found.1 with
      | none => exact ⟨follows_self fun _ => onlyWrites_nil, rfl⟩
      | some i =>
        dsimp only
        cases seen.mark i with
        | none => exact ⟨follows_fail rfl, rfl⟩
        | some seen => exact ⟨follows i _, rfl⟩

omit follows in
theorem follows_rest (others others' : SeenSet → Bytes → Out × SeenSet)
    (writes : first.rest ≠ none → OnlyWrites first.effects)
    (next : ∀ seen rest, Follows (others seen rest).1 (others' seen rest).1 ∧
      ((others' seen rest).1.rest = none ∨ others' seen rest = others seen rest)) :
    Follows (delimit first seen others).1 (delimit first seen others').1 ∧
      ((delimit first seen others').1.rest = none ∨ delimit first seen others' = delimit first seen others) := by
  unfold delimit
  rcases read : first.rest with _ | behind
  · exact ⟨follows_fail read, Or.inl read⟩
  have wrote := writes (by simp [read])
  obtain ⟨later, ends⟩ := next seen (ws behind).tail
  simp only [map_some]
  split_ifs
  · refine ⟨⟨fun found => onlyWrites_append wrote (later.writes found), ?_⟩, ?_⟩
    · rcases later.same with same | ⟨failed, among⟩
      · rw [same]
        exact Or.inl rfl
      · exact Or.inr ⟨failed, fun found => among_prepend (among found)⟩
    · rcases ends with failed | same
      · exact Or.inl failed
      · rw [same]
        exact Or.inr rfl
  · exact ⟨follows_self fun _ => wrote, Or.inr rfl⟩
  · exact ⟨follows_fail rfl, Or.inl rfl⟩

omit follows in
theorem follows_delimit (others others' : SeenSet → Bytes → Out × SeenSet)
    (first : Follows full part) (next : ∀ seen rest, Follows (others seen rest).1 (others' seen rest).1 ∧
      ((others' seen rest).1.rest = none ∨ others' seen rest = others seen rest)) :
    Follows (delimit full seen others).1 (delimit part seen others').1 ∧
      ((delimit part seen others').1.rest = none ∨ delimit part seen others' = delimit full seen others) := by
  rcases first.same with rfl | ⟨failed, among⟩
  · exact follows_rest _ _ first.writes next
  have short : delimit part seen others' = (part, seen) := by simp only [delimit, failed, map_none]
  refine ⟨⟨(follows_rest _ _ first.writes next).1.writes, ?_⟩, Or.inl (by rw [short]; exact failed)⟩
  rw [short]
  refine Or.inr ⟨failed, fun found => ?_⟩
  -- whatever the first loop went on to write, it wrote its first member before
  unfold delimit at found ⊢
  rcases read : full.rest with _ | behind
  · simp [read] at found
  have wrote := among (by simp [read])
  simp only [map_some]
  split_ifs
  · exact among_extend wrote
  · exact wrote
  · exact wrote

theorem follows_members (seen : SeenSet) (rest : Bytes) :
    Follows (members find field fuel seen rest).1 (members find field' fuel seen rest).1 ∧
      ((members find field' fuel seen rest).1.rest = none ∨
        members find field' fuel seen rest = members find field fuel seen rest) := by
  induction fuel generalizing seen rest with
  | zero => exact ⟨follows_fail rfl, Or.inl rfl⟩
  | succ fuel ih =>
    obtain ⟨first, marked⟩ := follows_member _ _ _ follows
    rw [members, members, marked]
    exact follows_delimit _ _ first ih

theorem follows_objectBody :
    Follows (objectBody descs find field rest).1 (objectBody descs find field' rest).1 ∧
      ((objectBody descs find field' rest).1.rest = none ∨
        objectBody descs find field' rest = objectBody descs find field rest) := by
  unfold objectBody
  cases expect openBrace (ws rest) with
  | none => exact ⟨follows_fail rfl, Or.inl rfl⟩
  | some rest =>
    dsimp only
    split_ifs
    · exact ⟨follows_self fun _ => onlyWrites_nil, Or.inr rfl⟩
    · exact follows_members _ _ _ follows _ _

theorem follows_object :
    Follows (objectWith descs find field base rest) (objectWith descs find field' base rest) := by
  obtain ⟨body, ends⟩ := follows_objectBody _ _ _ follows
  unfold objectWith
  generalize objectBody descs find field rest = full at body ends ⊢
  generalize objectBody descs find field' rest = part at body ends ⊢
  dsimp only
  have silent : ∀ start cells, Effect.write start cells ∉ [Effect.clean base descs (some part.2)] := by simp
  rcases ends with failed | rfl
  · have short : (part.1.rest.isSome && part.2.allRequiredSeen descs) = false := by simp [failed]
    rw [short, if_neg Bool.false_ne_true]
    split_ifs with success
    · have read : full.1.rest ≠ none := by
        intro failed
        simp [failed] at success
      refine ⟨body.writes, Or.inr ⟨rfl, fun _ => among_cleaned _ _ _ ?_ silent⟩⟩
      rcases body.same with same | ⟨_, among⟩
      · rw [same] at failed
        exact absurd failed read
      · exact among read
    · exact ⟨fun success => absurd rfl success, Or.inr ⟨rfl, fun success => absurd rfl success⟩⟩
  · split_ifs
    · exact follows_self body.writes
    · exact follows_fail rfl

end Objects

theorem follows_union (arm arm' : Nat → Bytes → Out)
    (follows : ∀ i rest, Follows (arm i rest) (arm' i rest)) :
    Follows (unionWith u arm base rest) (unionWith u arm' base rest) := by
  unfold unionWith
  dsimp only
  cases selectArm u (ws rest) with
  | none => exact follows_fail rfl
  | some chosen =>
    obtain ⟨i, tag⟩ := chosen
    dsimp only
    have value := follows i (ws rest)
    generalize arm i (ws rest) = full at value ⊢
    generalize arm' i (ws rest) = part at value ⊢
    rcases value.same with rfl | ⟨failed, among⟩
    · cases read : part.rest with
      | none => exact follows_fail rfl
      | some rest =>
        have wrote := value.writes (by simp [read])
        exact follows_self fun _ => onlyWrites_append wrote (onlyWrites_single _ _)
    · rw [failed]
      rcases read : full.rest with _ | rest
      · exact ⟨fun success => absurd rfl success, Or.inr ⟨rfl, fun success => absurd rfl success⟩⟩
      have success : full.rest ≠ none := by simp [read]
      refine ⟨fun _ => onlyWrites_append (value.writes success) (onlyWrites_single _ _),
        Or.inr ⟨rfl, fun _ => ?_⟩⟩
      exact among_cleaned _ _ _ (among_extend (among success)) (by simp)

/-! Values that are staged before they are written. -/

/-- The second reader reads what the first does, or nothing. -/
def Weaker {α : Type} (read read' : Bytes → Option α) : Prop := ∀ rest, read' rest = read rest ∨ read' rest = none

theorem weaker_map (read read' : Bytes → Option α) (f : α → β) (weaker : Weaker read read') :
    Weaker (fun rest => (read rest).map f) fun rest => (read' rest).map f := by
  intro rest
  rcases weaker rest with same | failed
  · exact Or.inl (congrArg (Option.map f) same)
  · exact Or.inr (congrArg (Option.map f) failed)

theorem weaker_items (elem elem' : Bytes → Option (α × Bytes)) (weaker : Weaker elem elem')
    : Weaker (items elem fuel) (items elem' fuel) := by
  induction fuel with
  | zero => exact fun _ => Or.inl rfl
  | succ fuel ih =>
    intro rest
    rw [items, items]
    rcases weaker rest with same | failed
    · rw [same]
      cases elem rest with
      | none => exact Or.inl rfl
      | some found =>
        simp only [bind_some]
        split_ifs
        · exact weaker_map _ _ _ ih (ws (ws found.2).tail)
        · exact Or.inl rfl
        · exact Or.inl rfl
    · rw [failed]
      exact Or.inr rfl

theorem weaker_array (elem elem' : Bytes → Option (α × Bytes)) (weaker : Weaker elem elem') :
    Weaker (arrayOf elem) (arrayOf elem') := by
  intro rest
  unfold arrayOf
  cases expect openBracket (ws rest) with
  | none => exact Or.inl rfl
  | some rest =>
    simp only [bind_some]
    split_ifs
    · exact Or.inl rfl
    · exact weaker_items _ _ weaker _

theorem weaker_scalarArray (elem elem' : Bytes → Option (List Cell × Bytes)) (weaker : Weaker elem elem') :
    Weaker (scalarArray elem) (scalarArray elem') := weaker_map _ _ _ (weaker_array _ _ weaker)

theorem weaker_string (env : Env) : Weaker (stringValue env) (stringValue (withoutArena env)) := by
  intro rest
  unfold stringValue
  cases stringBody rest with
  | none => exact Or.inl rfl
  | some found =>
    simp only [bind_some]
    split
    · exact Or.inl rfl
    · exact Or.inr (if_pos Bool.false_ne_true)

variable (env : Env) (kind w : Nat) (signed : Bool)

theorem weaker_leaf :
    Weaker (writeLeaf env kind w signed) (writeLeaf (withoutArena env) kind w signed) := by
  intro rest
  unfold writeLeaf
  split
  · exact Or.inl rfl
  · exact Or.inl rfl
  · split_ifs
    · exact Or.inl rfl
    · exact weaker_map _ _ _ (weaker_string _) rest
  · exact Or.inl rfl
  · exact Or.inl rfl
  · exact Or.inl rfl

theorem weaker_elem :
    Weaker (writeElem env kind w signed) (writeElem (withoutArena env) kind w signed) := by
  intro rest
  unfold writeElem
  split_ifs
  · exact Or.inl rfl
  · exact Or.inl rfl
  · exact weaker_scalarArray _ _ (weaker_leaf _ 0 0 _) rest
  · exact weaker_leaf _ _ w _ rest

theorem follows_staged (start : Nat) (read read' : Bytes → Option (List Cell × Bytes))
    (weaker : Weaker read read') :
    Follows (.ofCells start (read rest)) (.ofCells start (read' rest)) :=
  follows_ofCells _ (weaker rest)

theorem follows_table (value value' : (d : JsonField) → d ∈ t.descs → Nat → Bytes → Out)
    (follows : ∀ d member start rest, Follows (value d member start rest) (value' d member start rest))
    (base : Nat) (size : Int) (rest : Bytes) :
    Follows (tableObject t value base size rest) (tableObject t value' base size rest) := by
  refine follows_object _ _ _ (fun i rest => ?_)
  refine follows_fieldAt _ _ (fun d member rest => ?_) i
  exact follows_field _ _ (follows d member) d _

theorem weaker_row (size : Nat) (row row' : Bytes → Out) (follows : ∀ rest, Follows (row rest) (row' rest)) :
    Weaker (fun rest => (row rest).rest.map fun behind => (snapshot size (row rest).effects, behind))
      (fun rest => (row' rest).rest.map fun behind => (snapshot size (row' rest).effects, behind)) := by
  intro rest
  dsimp only
  rcases (follows rest).same with same | ⟨failed, -⟩
  · rw [same]
    exact Or.inl rfl
  · rw [failed]
    exact Or.inr rfl

theorem follows_writeWith (inner inner' : (d' : JsonField) → d' ∈ d.children → Nat → Bytes → Out)
    (follows : ∀ d' member start rest, Follows (inner d' member start rest) (inner' d' member start rest))
    (start : Nat) :
    Follows (writeWith env d inner start rest) (writeWith (withoutArena env) d inner' start rest) := by
  unfold writeWith
  by_cases scalars : d.kind = 7
  · rw [if_pos scalars, if_pos scalars]
    split_ifs
    · exact follows_fail rfl
    · exact follows_staged _ _ _ (weaker_scalarArray _ _ (weaker_elem _ _ _ _))
  rw [if_neg scalars, if_neg scalars]
  by_cases below : d.kind = 4 ∨ d.kind = 5 ∨ d.kind = 6
  · rw [if_pos below, if_pos below]
    split
    · exact follows_fail rfl
    · split_ifs
      · exact follows_table _ _ (fun d' member => follows d' _) _ _ _
      · exact follows_staged _ _ _
          (weaker_scalarArray _ _ (weaker_row _ _ _ (follows_table _ _ (fun d' member => follows d' _) 0 _)))
      · exact follows_fail rfl
    · split_ifs
      · refine follows_union _ _ (fun i rest => ?_)
        exact follows_fieldAt _ _ (fun d' member rest => follows d' _ _ rest) i
      · exact follows_fail rfl
  · rw [if_neg below, if_neg below]
    exact follows_staged _ _ _ (weaker_leaf _ _ _ _)

theorem follows_writeValue (d : JsonField) :
    ∀ start rest, Follows (writeValue env d start rest) (writeValue (withoutArena env) d start rest) := by
  induction d using field_induction with
  | step d ih =>
    intro start rest
    rw [writeValue, writeValue]
    exact follows_writeWith _ _ _ (fun d' child => ih d' child) _

theorem flat_writes (flat : d.kind ≠ 4 ∧ d.kind ≠ 6) (start : Nat) (rest : Bytes) :
    OnlyWrites (writeValue env d start rest).effects := by
  have staged : ∀ found, OnlyWrites (Out.ofCells start found).effects := by
    intro found
    cases found with
    | none => exact onlyWrites_nil
    | some found => exact onlyWrites_single _ _
  rw [writeValue]
  unfold writeWith
  by_cases scalars : d.kind = 7
  · rw [if_pos scalars]
    split_ifs
    · exact onlyWrites_nil
    · exact staged _
  rw [if_neg scalars]
  by_cases below : d.kind = 4 ∨ d.kind = 5 ∨ d.kind = 6
  · rw [if_pos below]
    split
    · exact onlyWrites_nil
    · rw [if_neg flat.1]
      split_ifs
      · exact staged _
      · exact onlyWrites_nil
    · rw [if_neg flat.2]
      exact onlyWrites_nil
  · rw [if_neg below]
    exact staged _

theorem andThen_writes (first : Out) (next : Bytes → Out) (writes : OnlyWrites first.effects)
    (writes' : ∀ rest, OnlyWrites (next rest).effects) : OnlyWrites (first.andThen next).effects := by
  unfold Out.andThen
  split
  · exact writes
  · exact onlyWrites_append writes (writes' _)

def Covers (effects : List Effect) (k : Nat) : Prop :=
  ∃ start cells, Effect.write start cells ∈ effects ∧ start ≤ k ∧ k < start + cells.length

variable (start : Nat) (cells : List Cell) (m : Memory)

theorem store_outside (outside : ¬ (start ≤ k ∧ k < start + cells.length)) : store start cells m k = m k := by
  unfold store
  split_ifs with above
  · have past : cells.length ≤ k - start := by omega
    rw [getElem?_eq_none past, getD_none]
  · rfl

theorem store_inside (inside : start ≤ k ∧ k < start + cells.length) : store start cells m k = store start cells m' k := by
  have bound : k - start < cells.length := by omega
  rw [store, store, if_pos inside.1, if_pos inside.1, getElem?_eq_getElem bound, getD_some, getD_some]

theorem run_append (first second : List Effect) (m : Memory) :
    run (first ++ second) m = run second (run first m) := by
  rw [run, foldl_append]
  rfl

theorem store_pointwise (same : m k = m' k) :
    store start cells m k = store start cells m' k := by
  by_cases inside : start ≤ k ∧ k < start + cells.length
  · exact store_inside _ _ m inside
  · rw [store_outside _ _ m inside, store_outside _ _ _ inside, same]

theorem run_pointwise (writes : OnlyWrites effects) (m m' : Memory)
    (same : Covers effects k ∨ m k = m' k) : run effects m k = run effects m' k := by
  induction effects generalizing m m' with
  | nil =>
    rcases same with ⟨_, _, impossible, _⟩ | same
    · cases impossible
    · exact same
  | cons e rest ih =>
    obtain ⟨start, cells, rfl⟩ := writes e (mem_cons_self ..)
    refine ih (forall_mem_cons.mp writes).2 _ _ ?_
    rcases same with ⟨start', cells', member, inside⟩ | same
    · rcases mem_cons.mp member with here | later
      · cases here
        exact Or.inr (store_inside _ _ m inside)
      · exact Or.inl ⟨start', cells', later, inside⟩
    · exact Or.inr (store_pointwise _ _ m same)

/-- A change of memory that only sets bytes to zero. -/
def Zeroes (change : Memory → Memory) : Prop := ∀ m k, change m k = m k ∨ change m k = .byte 0

theorem zeroes_id : Zeroes fun m => m := fun _ _ => Or.inl rfl

theorem zeroes_comp (first second : Memory → Memory) (zeroes : Zeroes first) (zeroes' : Zeroes second) :
    Zeroes fun m => second (first m) := by
  intro m k
  dsimp only
  rcases zeroes' (first m) k with same | zero
  · rw [same]
    exact zeroes m k
  · exact Or.inr zero

theorem zeroes_foldl (change : α → Memory → Memory) (zeroes : ∀ a, Zeroes (change a)) (items : List α) :
    Zeroes fun m => items.foldl (fun m a => change a m) m := by
  induction items with
  | nil => exact zeroes_id
  | cons a rest ih => exact zeroes_comp _ _ (zeroes a) ih

theorem zeroes_fill (len : Nat) : Zeroes (fill start len) := by
  intro m k
  by_cases inside : start ≤ k ∧ k < start + (List.replicate len (Cell.byte 0)).length
  · have bound : k - start < len := by
      rw [length_replicate] at inside
      omega
    refine Or.inr ?_
    rw [fill, store, if_pos inside.1, getElem?_replicate, if_pos bound, getD_some]
  · exact Or.inl (store_outside _ _ m inside)

theorem zeroes_released (inner : (d' : JsonField) → d' ∈ d.children → Nat → Memory → Memory)
    (zeroes : ∀ d' child start, Zeroes (inner d' child start)) (start : Nat) : Zeroes (releaseOwned d inner start) := by
  intro m k
  generalize released : releaseOwned d inner start m = after
  unfold releaseOwned at released
  by_cases owner : d.kind = 5 ∨ d.kind = 7 ∨ d.kind = 8 ∨ d.kind = 9
  · rw [if_pos owner] at released
    subst released
    exact zeroes_fill _ _ m k
  rw [if_neg owner] at released
  split at released
  · subst released
    exact Or.inl rfl
  · split_ifs at released
    · subst released
      refine zeroes_foldl _ ?_ _ m k
      exact fun field => zeroes field.val _ start
    · subst released
      exact Or.inl rfl
  · split_ifs at released
    · split at released
      · subst released
        exact zeroes _ _ start m k
      · subst released
        exact Or.inl rfl
    · subst released
      exact Or.inl rfl

theorem zeroes_option (d : JsonField) : Zeroes (clearOption d base) := by
  unfold clearOption
  cases fieldWidth d with
  | none => exact zeroes_fill _ 1
  | some width => exact zeroes_comp _ _ (zeroes_fill _ 1) (zeroes_fill _ _)

theorem zeroes_dropField (d : JsonField) : ∀ base, Zeroes (dropField d base) := by
  induction d using field_induction with
  | step d ih =>
    intro base m k
    have released := zeroes_released _ (fun d' child => ih d' child)
      (base + d.offset.toNat)
    rw [dropField]
    split_ifs
    · exact Or.inl rfl
    · exact zeroes_comp _ _ released (zeroes_option d) m k
    · exact released m k

theorem zeroes_drop :
    Zeroes (dropDecodedOwned base descs seen) := by
  refine zeroes_foldl (fun (field : JsonField × Nat) m =>
    if seen.any fun seen => !seen.isSet field.2 then m else dropField field.1 base m) ?_ _
  rintro ⟨d, i⟩ m k
  split_ifs
  · exact Or.inl rfl
  · exact zeroes_dropField d _ m k

/-- Zero wherever the given effects do not write. -/
def Blank (effects : List Effect) (m : Memory) : Prop := ∀ k, ¬ Covers effects k → m k = .byte 0

theorem run_blank (among : Among part full) (m : Memory) (blank : Blank full m) :
    Blank full (run part m) := by
  induction part generalizing m with
  | nil => exact blank
  | cons e rest ih =>
    refine ih (fun start cells member => among start cells (mem_cons_of_mem _ member)) _ ?_
    intro k uncovered
    have cleaned : ∀ change : Memory → Memory, Zeroes change → change m k = .byte 0 := by
      intro change zeroes
      rcases zeroes m k with same | zero
      · rw [same, blank k uncovered]
      · exact zero
    cases e with
    | write start cells =>
      have outside : ¬ (start ≤ k ∧ k < start + cells.length) :=
        fun inside => uncovered ⟨start, cells, among start cells (mem_cons_self ..), inside⟩
      exact (store_outside _ _ m outside).trans (blank k uncovered)
    | zero start len => exact cleaned _ (zeroes_fill _ _)
    | clean base descs seen => exact cleaned _ (zeroes_drop)

theorem run_again (part full : List Effect) (writes : OnlyWrites full) (among : Among part full) :
    run (part ++ full) zeroed = run full zeroed := by
  rw [run_append]
  funext k
  refine run_pointwise writes _ _ ?_
  by_cases covered : Covers full k
  · exact Or.inl covered
  · exact Or.inr (run_blank among _ (fun _ _ => rfl) k covered)

theorem run_over (writes : OnlyWrites full) (writes' : OnlyWrites part)
    (among : Among part full) (m : Memory) : run (part ++ full) m = run full m := by
  rw [run_append]
  funext k
  refine run_pointwise writes _ _ ?_
  by_cases covered : Covers full k
  · exact Or.inl covered
  refine Or.inr ?_
  induction part generalizing m with
  | nil => rfl
  | cons e rest ih =>
    obtain ⟨start, cells, rfl⟩ := writes' e (mem_cons_self ..)
    have outside : ¬ (start ≤ k ∧ k < start + cells.length) :=
      fun inside => covered ⟨start, cells, among start cells (mem_cons_self ..), inside⟩
    have later := ih (forall_mem_cons.mp writes').2
      (fun start cells member => among start cells (mem_cons_of_mem _ member)) (store start cells m)
    exact later.trans (store_outside _ _ m outside)

end Align.JsonWriters
