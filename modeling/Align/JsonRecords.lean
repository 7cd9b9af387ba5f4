import Align.JsonSkip

/-! Arrays of objects, taken apart: each member with its spelling. The counting
pass accepts exactly these texts, whatever the nesting inside a member. -/
namespace Align.JsonRecords
open JsonText JsonParser JsonSkip List Option

/-- One `"key": value` of an object, with the white space around its parts. -/
structure Member where
  before : Bytes
  raw : Bytes
  key : Bytes
  behind : Bytes
  gap : Bytes
  tree : Json Bytes
  text : Bytes
  after : Bytes
  beforeBlank : Ws before
  name : Body raw key
  behindBlank : Ws behind
  gapBlank : Ws gap
  value : Deep tree text
  afterBlank : Ws after

def Member.spell (m : Member) : Bytes :=
  m.before ++ (quoted m.raw ++ (m.behind ++ colon :: (m.gap ++ (m.text ++ m.after))))

def spellMembers : List Member → Bytes
  | [] => []
  | [m] => m.spell
  | m :: ms => m.spell ++ comma :: spellMembers ms

/-- One object of the array; `blank` is what an empty object holds. -/
structure Record where
  before : Bytes
  blank : Bytes
  members : List Member
  after : Bytes
  beforeBlank : Ws before
  blankBlank : Ws blank
  afterBlank : Ws after

def Record.body (r : Record) : Bytes := if r.members = [] then r.blank else spellMembers r.members

def Record.text (r : Record) : Bytes := openBrace :: (r.body ++ [closeBrace])

def Record.spell (r : Record) : Bytes := r.before ++ (r.text ++ r.after)

def spellRecords : List Record → Bytes
  | [] => []
  | [r] => r.spell
  | r :: rs => r.spell ++ comma :: spellRecords rs

structure RecordArray where
  before : Bytes
  blank : Bytes
  records : List Record
  after : Bytes
  beforeBlank : Ws before
  blankBlank : Ws blank
  afterBlank : Ws after

def RecordArray.body (a : RecordArray) : Bytes := if a.records = [] then a.blank else spellRecords a.records

def RecordArray.spell (a : RecordArray) : Bytes :=
  a.before ++ openBracket :: (a.body ++ closeBracket :: a.after)

theorem elements_level (items : Elements Deep js body) :
    ∃ n, Elements (Value Body n) js body := by
  induction items with
  | last w t w' j before value after =>
    obtain ⟨n, ok⟩ := value
    exact ⟨n, .last w t w' j before ok after⟩
  | more w t w' body j js before value after _ ih =>
    obtain ⟨n, ok⟩ := value
    obtain ⟨m, tail⟩ := ih
    refine ⟨max n m, .more w t w' body j js before ?_ after ?_⟩
    · exact value_mono (Nat.le_max_left n m) j t ok
    · exact elements_mono (value_mono (Nat.le_max_right n m)) tail

theorem members_level (items : Members Body Deep ms body) :
    ∃ n, Members Body (Value Body n) ms body := by
  induction items with
  | last w raw w₁ w₂ t w' key j before name behind gap value after =>
    obtain ⟨n, ok⟩ := value
    exact ⟨n, .last w raw w₁ w₂ t w' key j before name behind gap ok after⟩
  | more w raw w₁ w₂ t w' body key j ms before name behind gap value after _ ih =>
    obtain ⟨n, ok⟩ := value
    obtain ⟨m, tail⟩ := ih
    refine ⟨max n m, .more w raw w₁ w₂ t w' body key j ms before name behind gap ?_ after ?_⟩
    · exact value_mono (Nat.le_max_left n m) j t ok
    · exact members_mono (value_mono (Nat.le_max_right n m)) tail

theorem deep_layer (layer : Layer Body Deep j t) : Deep j t := by
  cases layer with
  | scalar j t ok => exact ⟨0, .scalar j t ok⟩
  | emptyArray w blank => exact ⟨0, .emptyArray w blank⟩
  | emptyObject w blank => exact ⟨0, .emptyObject w blank⟩
  | array js body items =>
    obtain ⟨n, items⟩ := elements_level items
    exact ⟨n + 1, .array js body items⟩
  | object ms body items =>
    obtain ⟨n, items⟩ := members_level items
    exact ⟨n + 1, .object ms body items⟩

theorem layer_deep (deep : Deep j t) : Layer Body Deep j t := by
  obtain ⟨n, ok⟩ := deep
  cases n with
  | zero => exact layer_mono (fun _ _ impossible => impossible.elim) ok
  | succ n => exact layer_mono (fun _ _ inner => ⟨n, inner⟩) ok

theorem spellMembers_cons (m : Member) (some' : ms ≠ []) :
    spellMembers (m :: ms) = m.spell ++ comma :: spellMembers ms := by
  cases ms with
  | nil => contradiction
  | cons first rest => rfl

theorem spellRecords_cons (r : Record) (some' : rs ≠ []) :
    spellRecords (r :: rs) = r.spell ++ comma :: spellRecords rs := by
  cases rs with
  | nil => contradiction
  | cons first rest => rfl

theorem members_spelled (items : Members Body Deep ms body) :
    ∃ parts : List Member, parts ≠ [] ∧ spellMembers parts = body ∧
      parts.map (fun m => (m.key, m.tree)) = ms := by
  induction items with
  | last w raw w₁ w₂ t w' key j before name behind gap value after =>
    exact ⟨[⟨w, raw, key, w₁, w₂, j, t, w', before, name, behind, gap, value, after⟩], by simp, rfl, rfl⟩
  | more w raw w₁ w₂ t w' body key j ms before name behind gap value after _ ih =>
    obtain ⟨parts, filled, spelled, same⟩ := ih
    refine ⟨⟨w, raw, key, w₁, w₂, j, t, w', before, name, behind, gap, value, after⟩ :: parts,
      by simp, ?_, by simp [same]⟩
    rw [spellMembers_cons _ filled, spelled]
    simp [Member.spell]

theorem spelled_members (filled : parts ≠ []) :
    Members Body Deep (parts.map fun m => (m.key, m.tree)) (spellMembers parts) := by
  induction parts with
  | nil => contradiction
  | cons m ms ih =>
    by_cases last : ms = []
    · subst last
      exact .last m.before m.raw m.behind m.gap m.text m.after m.key m.tree m.beforeBlank m.name
        m.behindBlank m.gapBlank m.value m.afterBlank
    · rw [spellMembers_cons m last]
      have more := Members.more m.before m.raw m.behind m.gap m.text m.after _ m.key m.tree _
        m.beforeBlank m.name m.behindBlank m.gapBlank m.value m.afterBlank (ih last)
      simpa [Member.spell] using more

def Row (j : Json Bytes) (t : Bytes) : Prop := Deep j t ∧ ∃ ms, j = .object ms

theorem record_spelled (row : Row j t) (before : Ws w) (after : Ws w') :
    ∃ r : Record, r.before = w ∧ r.text = t ∧ r.after = w' := by
  obtain ⟨deep, ms, rfl⟩ := row
  cases layer_deep deep with
  | scalar _ _ ok => cases ok
  | emptyObject v blank => exact ⟨⟨w, v, [], w', before, blank, after⟩, rfl, rfl, rfl⟩
  | object _ body items =>
    obtain ⟨parts, filled, spelled, _⟩ := members_spelled items
    refine ⟨⟨w, [], parts, w', before, ws_nil, after⟩, rfl, ?_, rfl⟩
    rw [Record.text, Record.body, if_neg filled, spelled]

theorem spelled_record (r : Record) : ∃ j, Row j r.text := by
  rw [Record.text, Record.body]
  split_ifs with empty
  · exact ⟨_, ⟨0, .emptyObject r.blank r.blankBlank⟩, [], rfl⟩
  · exact ⟨_, deep_layer (.object _ _ (spelled_members empty)), _, rfl⟩

theorem elements_spelled (items : Elements Row js body) :
    ∃ rs : List Record, rs ≠ [] ∧ spellRecords rs = body ∧ rs.length = js.length := by
  induction items with
  | last w t w' j before value after =>
    obtain ⟨r, rfl, rfl, rfl⟩ := record_spelled value before after
    exact ⟨[r], by simp, rfl, rfl⟩
  | more w t w' body j js before value after _ ih =>
    obtain ⟨r, rfl, rfl, rfl⟩ := record_spelled value before after
    obtain ⟨rs, filled, spelled, size⟩ := ih
    refine ⟨r :: rs, by simp, ?_, by simp [size]⟩
    rw [spellRecords_cons r filled, spelled]
    simp [Record.spell]

/-- From one configuration of the loop to another, in no more turns than bytes
consumed. -/
def Reaches (stack : List GrammarState) (rows : Nat) (rest : Bytes) (stack' : List GrammarState)
    (rows' : Nat) (rest' : Bytes) : Prop :=
  ∃ turns, turns + rest'.length ≤ rest.length ∧
    ∀ fuel, countLoop (fuel + turns) stack rows rest = countLoop fuel stack' rows' rest'

theorem reaches_step (shorter : rest'.length < rest.length)
    (step : countStep state below rows (ws rest) = some (stack, rows', rest')) :
    Reaches (state :: below) rows rest stack rows' rest' := by
  refine ⟨1, by omega, fun fuel => ?_⟩
  rw [countLoop, step, bind_some]

theorem reaches_mark (blank : Ws w) (solid : isWs b = false)
    (step : countStep state below rows (b :: rest) = some (stack, rows', rest)) :
    Reaches (state :: below) rows (w ++ b :: rest) stack rows' rest := by
  refine reaches_step (by simp; omega) ?_
  rw [ws_to b blank solid]
  exact step

theorem reaches_trans (first : Reaches stack rows rest stack' rows' rest')
    (second : Reaches stack' rows' rest' stack'' rows'' rest'') :
    Reaches stack rows rest stack'' rows'' rest'' := by
  obtain ⟨k, short, run⟩ := first
  obtain ⟨l, short', run'⟩ := second
  refine ⟨l + k, by omega, fun fuel => ?_⟩
  rw [← Nat.add_assoc, run, run']

def Awaits (state : GrammarState) : Prop := (∃ empty, state = .arrayValue empty) ∨ state = .objectValue

theorem countStep_value (awaits : Awaits state)
    (inner : below ≠ []) (begins : b ≠ closeBracket) :
    countStep state below rows (b :: rest) =
      (beginValue (state.delimiter :: below) (b :: rest)).map fun found => (found.1, rows, found.2) := by
  rcases awaits with ⟨empty, rfl⟩ | rfl
  · have other : ¬ (empty = true ∧ peek (b :: rest) = some closeBracket) :=
      fun closes => begins (Option.some.inj closes.2)
    rw [countStep, if_neg other, if_neg inner]
    rfl
  · rw [countStep, if_neg inner]
    rfl

/-- A text in `P`, wherever a value is awaited inside a container, is passed over. -/
def Counts (P : Json Bytes → Bytes → Prop) : Prop :=
  ∀ (j : Json Bytes) (t w rest : Bytes) (state : GrammarState) (below : List GrammarState) (rows : Nat),
    P j t → Ws w → Stops rest → Awaits state → below ≠ [] →
    Reaches (state :: below) rows (w ++ (t ++ rest)) (state.delimiter :: below) rows rest

theorem push_counts (awaits : Awaits state) (inner : below ≠ [])
    (blank : Ws w) (solid : isWs b = false) (begins : b ≠ closeBracket)
    (pushed : beginValue (state.delimiter :: below) (b :: body) = some (top :: state.delimiter :: below, body))
    (items : Reaches (top :: state.delimiter :: below) rows body (state.delimiter :: below) rows rest) :
    Reaches (state :: below) rows (w ++ b :: body) (state.delimiter :: below) rows rest := by
  refine reaches_trans (reaches_mark blank solid ?_) items
  rw [countStep_value awaits inner begins, pushed, map_some]

section Layers
variable (P : Json Bytes → Bytes → Prop) (counts : Counts P)
include counts

theorem elements_counts (items : Elements P js body)
    (empty : Bool) (inner : below ≠ []) :
    Reaches (.arrayValue empty :: below) rows (body ++ closeBracket :: rest) below rows rest := by
  induction items generalizing empty with
  | last w t w' j blank ok after =>
    have stop := stops_mark rest after (Or.inr (Or.inl rfl))
    have value := counts j t w _ (.arrayValue empty) below rows ok blank stop (Or.inl ⟨_, rfl⟩) inner
    rw [append_assoc, append_assoc]
    exact reaches_trans value (reaches_mark after rfl rfl)
  | more w t w' body j js blank ok after _ ih =>
    have stop := stops_mark (body ++ closeBracket :: rest) after (Or.inl rfl)
    have value := counts j t w _ (.arrayValue empty) below rows ok blank stop (Or.inl ⟨_, rfl⟩) inner
    rw [append_assoc, append_assoc, append_assoc, cons_append]
    exact reaches_trans value (reaches_trans (reaches_mark after rfl rfl) (ih false))

theorem member_counts (blank : Ws w) (name : Body raw key)
    (behind : Ws w₁) (gap : Ws w₂) (ok : P j t) (stop : Stops rest) (empty : Bool)
    (inner : below ≠ []) (rows : Nat) :
    Reaches (.objectKey empty :: below) rows (w ++ (quoted raw ++ (w₁ ++ colon :: (w₂ ++ (t ++ rest)))))
      (.objectDelimiter :: below) rows rest := by
  have named : Reaches (.objectKey empty :: below) rows
    (w ++ (quoted raw ++ (w₁ ++ colon :: (w₂ ++ (t ++ rest))))) (.objectColon :: below) rows
    (w₁ ++ colon :: (w₂ ++ (t ++ rest))) := by
    refine reaches_step (by simp [quoted]; omega) ?_
    rw [ws_skip _ blank (noWs_quoted _ _), countStep, if_neg fun closes => absurd closes.2 (by simp [quoted, quote, closeBrace]),
      skipString_complete name, map_some]
  have marked : Reaches (.objectColon :: below) rows (w₁ ++ colon :: (w₂ ++ (t ++ rest)))
    (.objectValue :: below) rows (w₂ ++ (t ++ rest)) := by
    refine reaches_mark behind rfl ?_
    rw [countStep, expect_cons, map_some]
  exact reaches_trans named (reaches_trans marked
    (counts j t w₂ rest .objectValue below rows ok gap stop (Or.inr rfl) inner))

theorem members_counts (items : Members Body P ms body)
    (empty : Bool) (inner : below ≠ []) :
    Reaches (.objectKey empty :: below) rows (body ++ closeBrace :: rest) below rows rest := by
  induction items generalizing empty with
  | last w raw w₁ w₂ t w' key j blank name behind gap ok after =>
    have stop := stops_mark rest after (Or.inr (Or.inr rfl))
    have member := member_counts P counts blank name behind gap ok stop empty inner rows
    simp only [append_assoc, cons_append]
    exact reaches_trans member (reaches_mark after rfl rfl)
  | more w raw w₁ w₂ t w' body key j ms blank name behind gap ok after _ ih =>
    have stop := stops_mark (body ++ closeBrace :: rest) after (Or.inl rfl)
    have member := member_counts P counts blank name behind gap ok stop empty inner rows
    simp only [append_assoc, cons_append]
    exact reaches_trans member (reaches_trans (reaches_mark after rfl rfl) (ih false))

theorem layer_counts : Counts (Layer Body P) := by
  intro j t w rest state below rows layer blank stop awaits inner
  have deeper : state.delimiter :: below ≠ [] := by simp
  cases layer with
  | scalar j t ok =>
    obtain ⟨b, tail, rfl, brace, bracket, read⟩ := skipScalar_complete ok stop
    obtain ⟨b', tail', same, solid, begins⟩ := layer_head j _ (Layer.scalar (P := P) j (b :: tail) ok)
    cases same
    refine reaches_step (by simp; omega) ?_
    rw [cons_append] at read ⊢
    rw [ws_to b blank solid, countStep_value awaits inner begins, beginValue, peek_cons]
    simp only [if_neg brace, if_neg bracket, read, map_some]
  | emptyArray v blank' =>
    rw [cons_append, append_assoc, singleton_append]
    exact push_counts awaits inner blank (by decide) (by decide) rfl (reaches_mark blank' rfl rfl)
  | array js body items =>
    rw [cons_append, append_assoc, singleton_append]
    exact push_counts awaits inner blank
      (by decide) (by decide) rfl (elements_counts P counts items _ deeper)
  | emptyObject v blank' =>
    rw [cons_append, append_assoc, singleton_append]
    exact push_counts awaits inner blank (by decide) (by decide) rfl (reaches_mark blank' rfl rfl)
  | object ms body items =>
    rw [cons_append, append_assoc, singleton_append]
    exact push_counts awaits inner blank
      (by decide) (by decide) rfl (members_counts P counts items _ deeper)

end Layers

theorem value_counts (n : Nat) : Counts (Value Body n) := by
  induction n with
  | zero =>
    refine layer_counts _ ?_
    intro _ _ _ _ _ _ _ impossible
    exact impossible.elim
  | succ n ih => exact layer_counts _ ih

theorem deep_counts : Counts Deep := by
  rintro j t w rest state below rows ⟨n, ok⟩
  exact value_counts n j t w rest state below rows ok

theorem record_counts (r : Record) (rest : Bytes) (empty : Bool) (rows : Nat) :
    Reaches [.arrayValue empty] rows (r.before ++ (r.text ++ rest)) [.arrayDelimiter] (rows + 1) rest := by
  have opened : Reaches [.arrayValue empty] rows (r.before ++ (r.text ++ rest))
    [.objectKey true, .arrayDelimiter] (rows + 1) (r.body ++ closeBrace :: rest) := by
    refine reaches_step (by simp [Record.text]; omega) ?_
    rw [Record.text, cons_append, ws_to _ r.beforeBlank rfl, append_assoc, singleton_append,
      countStep, if_neg fun closes => absurd closes.2 (by simp [openBrace, closeBracket])]
    rfl
  refine reaches_trans opened ?_
  rw [Record.body]
  split_ifs with none
  · exact reaches_mark r.blankBlank rfl rfl
  · exact members_counts _ deep_counts (spelled_members none) _ (by simp)

theorem records_count (filled : rs ≠ []) (rest : Bytes) (empty : Bool) (rows : Nat) :
    Reaches [.arrayValue empty] rows (spellRecords rs ++ closeBracket :: rest) [] (rows + rs.length) rest := by
  induction rs generalizing empty rows with
  | nil => contradiction
  | cons r rs ih =>
    by_cases last : rs = []
    · subst last
      have first := record_counts r (r.after ++ closeBracket :: rest) empty rows
      rw [spellRecords, Record.spell, append_assoc, append_assoc]
      exact reaches_trans first (reaches_mark r.afterBlank rfl rfl)
    · have first := record_counts r (r.after ++ comma :: (spellRecords rs ++ closeBracket :: rest)) empty rows
      have next := ih last false (rows + 1)
      rw [spellRecords_cons r last, Record.spell]
      simp only [append_assoc, cons_append, length_cons]
      rw [Nat.add_right_comm] at next
      exact reaches_trans first (reaches_trans (reaches_mark r.afterBlank rfl rfl) next)

theorem count_complete (a : RecordArray) : jsonRecordArrayCount a.spell = some a.records.length := by
  have run : Reaches [.arrayValue true] 0 (a.body ++ closeBracket :: a.after) [] a.records.length a.after := by
    rw [RecordArray.body]
    split_ifs with none
    · rw [none]
      exact reaches_mark a.blankBlank rfl rfl
    · have rows := records_count none a.after true 0
      rwa [Nat.zero_add] at rows
  obtain ⟨turns, short, loop⟩ := run
  obtain ⟨spare, fuel⟩ := Nat.exists_eq_add_of_le (Nat.le_of_add_right_le short)
  have spent : ws a.after = [] := by
    have nothing := ws_append [] a.afterBlank
    rwa [append_nil] at nothing
  rw [jsonRecordArrayCount, RecordArray.spell, ws_to _ a.beforeBlank rfl, expect_cons, bind_some,
    fuel, Nat.add_comm turns, loop, countLoop, bind_some]
  simp only [spent]
  rfl

/-! The counting pass is sound. What is left of a container in each state, and of
the whole stack. -/

/-- The end of an array behind one of its values, with the values still to come. -/
def ArrayTail (P : Json Bytes → Bytes → Prop) (js : List (Json Bytes)) (r : Bytes) : Prop :=
  ∃ w, Ws w ∧ ((js = [] ∧ r = w ++ [closeBracket]) ∨
    ∃ body, Elements P js body ∧ r = w ++ comma :: (body ++ [closeBracket]))

def ArrayRest (P : Json Bytes → Bytes → Prop) (empty : Bool) (js : List (Json Bytes)) (r : Bytes) : Prop :=
  (empty = true ∧ js = [] ∧ ∃ w, Ws w ∧ r = w ++ [closeBracket]) ∨
    ∃ body, Elements P js body ∧ r = body ++ [closeBracket]

def ObjectTail (r : Bytes) : Prop :=
  ∃ w, Ws w ∧ (r = w ++ [closeBrace] ∨
    ∃ ms body, Members Body Deep ms body ∧ r = w ++ comma :: (body ++ [closeBrace]))

def ObjectValue (r : Bytes) : Prop :=
  ∃ w j t r', Ws w ∧ Deep j t ∧ ObjectTail r' ∧ r = w ++ (t ++ r')

def Remains : GrammarState → Bytes → Prop
  | .arrayValue empty, r => ∃ js, ArrayRest Deep empty js r
  | .arrayDelimiter, r => ∃ js, ArrayTail Deep js r
  | .objectKey empty, r => (empty = true ∧ ∃ w, Ws w ∧ r = w ++ [closeBrace]) ∨
      ∃ ms body, Members Body Deep ms body ∧ r = body ++ [closeBrace]
  | .objectColon, r => ∃ w r', Ws w ∧ ObjectValue r' ∧ r = w ++ colon :: r'
  | .objectValue, r => ObjectValue r
  | .objectDelimiter, r => ObjectTail r

/-- What is left of the outermost array, with the rows still to be counted. -/
def Outer : GrammarState → Nat → Bytes → Prop
  | .arrayValue empty, rows, r => ∃ js, js.length = rows ∧ ArrayRest Row empty js r
  | .arrayDelimiter, rows, r => ∃ js, js.length = rows ∧ ArrayTail Row js r
  | _, _, _ => False

def Closes : List GrammarState → Nat → Bytes → Bytes → Prop
  | [], rows, rest, rest' => rows = 0 ∧ rest = rest'
  | [state], rows, rest, rest' => ∃ r, Outer state rows r ∧ rest = r ++ rest'
  | state :: below, rows, rest, rest' => ∃ r middle, Remains state r ∧ rest = r ++ middle ∧
      Closes below rows middle rest'

/-- The outermost container of the loop is an array. -/
def Based : List GrammarState → Prop
  | [] => True
  | [state] => (∃ empty, state = .arrayValue empty) ∨ state = .arrayDelimiter
  | _ :: below => Based below

theorem beginValue_cases (begun : beginValue below rest = some (stack, rest')) :
    (rest = openBracket :: rest' ∧ stack = .arrayValue true :: below) ∨
      (rest = openBrace :: rest' ∧ stack = .objectKey true :: below) ∨
      stack = below ∧ ∃ j t, Scalar Body j t ∧ rest = t ++ rest' := by
  unfold beginValue at begun
  rcases head : peek rest with _ | b
  · simp [head] at begun
  simp only [head] at begun
  split_ifs at begun with bracket brace
  · cases begun
    exact Or.inl ⟨bracket ▸ peek_some head, rfl⟩
  · cases begun
    exact Or.inr (Or.inl ⟨brace ▸ peek_some head, rfl⟩)
  · obtain ⟨_, read, same⟩ := map_eq_some_iff.mp begun
    cases same
    exact Or.inr (Or.inr ⟨rfl, skipScalar_sound read⟩)

variable (P : Json Bytes → Bytes → Prop) (r : Bytes)

theorem array_cons (blank : Ws w) (ok : P j t) (tail : ArrayTail P js r) :
    ArrayRest P empty (j :: js) (w ++ (t ++ r)) := by
  obtain ⟨w', after, ⟨rfl, rfl⟩ | ⟨body, items, rfl⟩⟩ := tail
  · exact Or.inr ⟨_, .last w t w' j blank ok after, by simp⟩
  · exact Or.inr ⟨_, .more w t w' body j js blank ok after items, by simp⟩

theorem array_delimited (blank : Ws w) (rest : ArrayRest P false js r) : ArrayTail P js (w ++ comma :: r) := by
  rcases rest with ⟨impossible, _⟩ | ⟨body, items, rfl⟩
  · contradiction
  · exact ⟨w, blank, Or.inr ⟨body, items, rfl⟩⟩

theorem remains_value (awaits : Awaits state) {w t r : Bytes}
    (blank : Ws w) (ok : Deep j t) (tail : Remains state.delimiter r) : Remains state (w ++ (t ++ r)) := by
  rcases awaits with ⟨empty, rfl⟩ | rfl
  · obtain ⟨js, tail⟩ := tail
    exact ⟨j :: js, array_cons _ r blank ok tail⟩
  · exact ⟨w, j, t, r, blank, ok, tail, rfl⟩

theorem container_deep :
    (Remains (.arrayValue true) r → ∃ j, Deep j (openBracket :: r)) ∧
      (Remains (.objectKey true) r → ∃ j, Row j (openBrace :: r)) := by
  constructor
  · rintro ⟨js, ⟨_, rfl, w, blank, rfl⟩ | ⟨body, items, rfl⟩⟩
    · exact ⟨_, 0, .emptyArray w blank⟩
    · exact ⟨_, deep_layer (.array js body items)⟩
  · rintro (⟨_, w, blank, rfl⟩ | ⟨ms, body, items, rfl⟩)
    · exact ⟨_, ⟨0, .emptyObject w blank⟩, [], rfl⟩
    · exact ⟨_, deep_layer (.object ms body items), ms, rfl⟩

theorem begin_sound (begun : beginValue (top :: below) rest = some (stack, rest'))
    (closes : Closes stack rows rest' rest'') :
    ∃ j t middle, Deep j t ∧ rest = t ++ middle ∧ Closes (top :: below) rows middle rest'' := by
  rcases beginValue_cases begun with ⟨shape, rfl⟩ | ⟨shape, rfl⟩ | ⟨rfl, j, t, scalar, split⟩
  · obtain ⟨r, middle, remains, split, closes⟩ := closes
    obtain ⟨j, deep⟩ := (container_deep r).1 remains
    exact ⟨j, _, middle, deep, by rw [shape, split]; rfl, closes⟩
  · obtain ⟨r, middle, remains, split, closes⟩ := closes
    obtain ⟨j, row⟩ := (container_deep r).2 remains
    exact ⟨j, _, middle, row.1, by rw [shape, split]; rfl, closes⟩
  · exact ⟨j, t, rest', ⟨0, .scalar j t scalar⟩, split, closes⟩

theorem inner_value_sound (awaits : Awaits state)
     (blank : Ws w)
    (begun : beginValue (state.delimiter :: under :: below) rest = some (stack, rest'))
    (closes : Closes stack rows rest' rest'') :
    Closes (state :: under :: below) rows (w ++ rest) rest'' := by
  obtain ⟨j, t, middle, deep, split, tail⟩ := begin_sound begun closes
  obtain ⟨r, behind, remains, split', closes⟩ := tail
  refine ⟨_, behind, remains_value awaits blank deep remains, ?_, closes⟩
  rw [split, split']
  simp

variable {below stack : List GrammarState}

theorem mark_front {w rest r middle : Bytes} (front : rest = w ++ ws rest)
    (seen : peek (ws rest) = some b) (split : (ws rest).tail = r ++ middle) :
    rest = w ++ b :: r ++ middle := by
  rw [append_assoc, cons_append, ← split, ← peek_some seen]
  exact front

theorem inner_sound (step : countStep state (under :: below) rows (ws rest) = some (stack, rows', rest'))
    (closes : Closes stack d rest' rest'') :
    rows' = rows ∧ Closes (state :: under :: below) d rest rest'' := by
  obtain ⟨w, blank, front⟩ := ws_split rest
  cases state with
  | arrayValue empty =>
    simp only [countStep, if_neg (cons_ne_nil under below)] at step
    split_ifs at step with ends
    · cases step
      exact ⟨rfl, w ++ [closeBracket], _, ⟨[], Or.inl ⟨ends.1, rfl, w, blank, rfl⟩⟩, mark_front front ends.2 rfl, closes⟩
    obtain ⟨⟨_, _⟩, begun, same⟩ := map_eq_some_iff.mp step
    cases same
    rw [front]
    exact ⟨rfl, inner_value_sound (Or.inl ⟨_, rfl⟩) blank begun closes⟩
  | arrayDelimiter =>
    simp only [countStep] at step
    split_ifs at step with more ends
    · cases step
      obtain ⟨r, middle, ⟨js, remains⟩, split, closes⟩ := closes
      exact ⟨rfl, w ++ comma :: r, middle, ⟨js, array_delimited _ r blank remains⟩, mark_front front more split, closes⟩
    · cases step
      exact ⟨rfl, w ++ [closeBracket], _, ⟨[], w, blank, Or.inl ⟨rfl, rfl⟩⟩, mark_front front ends rfl, closes⟩
  | objectKey empty =>
    simp only [countStep] at step
    split_ifs at step with ends
    · cases step
      exact ⟨rfl, w ++ [closeBrace], _, Or.inl ⟨ends.1, w, blank, rfl⟩, mark_front front ends.2 rfl, closes⟩
    obtain ⟨behind, read, same⟩ := map_eq_some_iff.mp step
    cases same
    obtain ⟨raw, key, name, keyed⟩ := skipString_sound read
    obtain ⟨r, middle, ⟨w₁, r', between, ⟨w₂, j, t, r'', gap, deep, ⟨w', after, tail⟩, rfl⟩, rfl⟩, split,
      closes⟩ := closes
    rcases tail with rfl | ⟨ms, body, items, rfl⟩
    · refine ⟨rfl, _, middle, Or.inr ⟨_, _, .last w raw w₁ w₂ t w' key j blank name between gap deep after,
        rfl⟩, ?_, closes⟩
      rw [front, keyed, split]
      simp
    · refine ⟨rfl, _, middle, Or.inr ⟨_, _,
        .more w raw w₁ w₂ t w' body key j ms blank name between gap deep after items, rfl⟩, ?_, closes⟩
      rw [front, keyed, split]
      simp
  | objectColon =>
    obtain ⟨behind, marked, same⟩ := map_eq_some_iff.mp step
    cases same
    obtain ⟨r, middle, remains, split, closes⟩ := closes
    refine ⟨rfl, w ++ colon :: r, middle, ⟨w, r, blank, remains, rfl⟩, ?_, closes⟩
    rw [append_assoc, cons_append, ← split, ← expect_some marked]
    exact front
  | objectValue =>
    obtain ⟨⟨_, _⟩, begun, same⟩ := map_eq_some_iff.mp step
    cases same
    rw [front]
    exact ⟨rfl, inner_value_sound (Or.inr rfl) blank begun closes⟩
  | objectDelimiter =>
    simp only [countStep] at step
    split_ifs at step with more ends
    · cases step
      obtain ⟨r, middle, remains, split, closes⟩ := closes
      have filled : ∃ ms body, Members Body Deep ms body ∧ r = body ++ [closeBrace] := by
        rcases remains with ⟨impossible, _⟩ | filled
        · contradiction
        · exact filled
      obtain ⟨ms, body, items, rfl⟩ := filled
      exact ⟨rfl, w ++ comma :: (body ++ [closeBrace]), middle, ⟨w, blank, Or.inr ⟨ms, body, items, rfl⟩⟩,
        mark_front front more split, closes⟩
    · cases step
      exact ⟨rfl, w ++ [closeBrace], _, ⟨w, blank, Or.inl rfl⟩, mark_front front ends rfl, closes⟩

theorem outer_sound (based : Based [state])
    (step : countStep state [] rows (ws rest) = some (stack, rows', rest'))
    (closes : Closes stack d rest' rest'') :
    ∃ k, rows' = rows + k ∧ Closes [state] (k + d) rest rest'' := by
  obtain ⟨w, blank, front⟩ := ws_split rest
  rcases based with ⟨empty, rfl⟩ | rfl
  · simp only [countStep] at step
    split_ifs at step with ends other
    · cases step
      obtain ⟨rfl, rfl⟩ := closes
      exact ⟨0, rfl, w ++ [closeBracket], ⟨[], rfl, Or.inl ⟨ends.1, rfl, w, blank, rfl⟩⟩, mark_front front ends.2 rfl⟩
    obtain ⟨⟨_, _⟩, begun, same⟩ := map_eq_some_iff.mp step
    cases same
    have brace := not_not.mp other
    have pushed : beginValue [.arrayDelimiter] (ws rest) =
      some ([.objectKey true, .arrayDelimiter], (ws rest).tail) := by
      rw [beginValue, brace]
      rfl
    rw [pushed] at begun
    cases begun
    obtain ⟨r, middle, remains, split, r', ⟨js, counted, tail⟩, split'⟩ := closes
    obtain ⟨j, row⟩ := (container_deep r).2 remains
    refine ⟨1, rfl, _, ⟨j :: js, by simp [counted, Nat.add_comm],
      array_cons _ _ blank row tail⟩, ?_⟩
    dsimp only at split
    rw [front, peek_some brace, split, split']
    simp
  · simp only [countStep] at step
    split_ifs at step with more ends
    · cases step
      obtain ⟨r, ⟨js, counted, remains⟩, split⟩ := closes
      exact ⟨0, rfl, w ++ comma :: r, ⟨js, by omega, array_delimited _ r blank remains⟩, mark_front front more split⟩
    · cases step
      obtain ⟨rfl, rfl⟩ := closes
      exact ⟨0, rfl, w ++ [closeBracket], ⟨[], rfl, w, blank, Or.inl ⟨rfl, rfl⟩⟩, mark_front front ends rfl⟩

theorem countStep_stack (step : countStep state below rows rest = some (stack, rows', rest')) :
    stack = below ∨ ∃ state', (stack = state' :: below ∨ ∃ top, stack = top :: state' :: below) ∧
      (Based [state] → Based [state']) := by
  have begun (top : GrammarState) (found : beginValue (top :: below) rest = some (stack, rest')) :
      stack = top :: below ∨ ∃ first, stack = first :: top :: below := by
    rcases beginValue_cases found with ⟨_, rfl⟩ | ⟨_, rfl⟩ | ⟨rfl, _⟩
    · exact Or.inr ⟨_, rfl⟩
    · exact Or.inr ⟨_, rfl⟩
    · exact Or.inl rfl
  cases state with
  | arrayValue empty =>
    simp only [countStep] at step
    split_ifs at step
    · cases step
      exact Or.inl rfl
    · obtain ⟨⟨_, _⟩, found, same⟩ := map_eq_some_iff.mp step
      cases same
      exact Or.inr ⟨.arrayDelimiter, begun _ found, fun _ => Or.inr rfl⟩
    · obtain ⟨⟨_, _⟩, found, same⟩ := map_eq_some_iff.mp step
      cases same
      exact Or.inr ⟨.arrayDelimiter, begun _ found, fun _ => Or.inr rfl⟩
  | arrayDelimiter =>
    simp only [countStep] at step
    split_ifs at step
    · cases step
      exact Or.inr ⟨.arrayValue false, Or.inl rfl, fun _ => Or.inl ⟨false, rfl⟩⟩
    · cases step
      exact Or.inl rfl
  | objectKey empty =>
    simp only [countStep] at step
    split_ifs at step
    · cases step
      exact Or.inl rfl
    · obtain ⟨_, _, same⟩ := map_eq_some_iff.mp step
      cases same
      exact Or.inr ⟨_, Or.inl rfl, by simp [Based]⟩
  | objectColon =>
    obtain ⟨_, _, same⟩ := map_eq_some_iff.mp step
    cases same
    exact Or.inr ⟨_, Or.inl rfl, by simp [Based]⟩
  | objectValue =>
    simp only [countStep] at step
    split_ifs at step
    · obtain ⟨⟨_, _⟩, found, same⟩ := map_eq_some_iff.mp step
      cases same
      exact Or.inr ⟨_, begun _ found, by simp [Based]⟩
    · obtain ⟨⟨_, _⟩, found, same⟩ := map_eq_some_iff.mp step
      cases same
      exact Or.inr ⟨_, begun _ found, by simp [Based]⟩
  | objectDelimiter =>
    simp only [countStep] at step
    split_ifs at step
    · cases step
      exact Or.inr ⟨_, Or.inl rfl, by simp [Based]⟩
    · cases step
      exact Or.inl rfl

theorem step_based (based : Based (state :: below))
    (step : countStep state below rows rest = some (stack, rows', rest')) : Based stack := by
  have kept : ∀ state', (Based [state] → Based [state']) → Based (state' :: below) := by
    intro state' keeps
    cases below with
    | nil => exact keeps based
    | cons under below => exact based
  rcases countStep_stack step with
    rfl | ⟨state', rfl | ⟨top, rfl⟩, keeps⟩
  · cases stack with
    | nil => trivial
    | cons under below => exact based
  · exact kept state' keeps
  · exact kept state' keeps

theorem countLoop_sound (stack : List GrammarState) (rows rows' : Nat) (rest rest' : Bytes)
    (based : Based stack) (run : countLoop fuel stack rows rest = some (rows', rest')) :
    ∃ k, rows' = rows + k ∧ Closes stack k rest rest' := by
  induction fuel generalizing stack rows rest with
  | zero =>
    cases stack with
    | nil =>
      cases run
      exact ⟨0, rfl, rfl, rfl⟩
    | cons state below => contradiction
  | succ fuel ih =>
    cases stack with
    | nil =>
      cases run
      exact ⟨0, rfl, rfl, rfl⟩
    | cons state below =>
      obtain ⟨⟨stack, middle, behind⟩, step, loop⟩ := bind_eq_some_iff.mp run
      obtain ⟨k, counted, closes⟩ := ih stack middle behind (step_based based step) loop
      cases below with
      | nil =>
        obtain ⟨l, same, closes⟩ := outer_sound based step closes
        exact ⟨l + k, by omega, closes⟩
      | cons under below =>
        obtain ⟨same, closes⟩ := inner_sound step closes
        exact ⟨k, by omega, closes⟩

theorem count_sound (counted : jsonRecordArrayCount src = some rows) :
    ∃ a : RecordArray, a.spell = src ∧ a.records.length = rows := by
  obtain ⟨inner, marked, next⟩ := bind_eq_some_iff.mp counted
  obtain ⟨⟨rows', rest⟩, loop, ends⟩ := bind_eq_some_iff.mp next
  dsimp only at ends
  split_ifs at ends with spent
  cases ends
  obtain ⟨w, blank, front⟩ := ws_split src
  obtain ⟨w', after, tail⟩ := ws_split _
  rw [length_eq_zero_iff.mp spent, append_nil] at tail
  obtain ⟨k, same, r, ⟨js, length, remains⟩, split⟩ := countLoop_sound [.arrayValue true] _ _ _ _
    (Or.inl ⟨true, rfl⟩) loop
  rcases remains with ⟨_, rfl, v, inside, rfl⟩ | ⟨body, items, rfl⟩
  · refine ⟨⟨w, v, [], rest, blank, inside, tail ▸ after⟩, ?_, by simp at length ⊢; omega⟩
    rw [front, expect_some marked, split]
    simp [RecordArray.spell, RecordArray.body]
  · obtain ⟨rs, filled, spelled, size⟩ := elements_spelled items
    refine ⟨⟨w, [], rs, rest, blank, ws_nil, tail ▸ after⟩, ?_, by dsimp only; omega⟩
    rw [front, expect_some marked, split, RecordArray.spell, RecordArray.body, if_neg filled, spelled]
    simp

end Align.JsonRecords
