import Align.JsonWalk

/-! Reading a key backwards from its colon. Inside a string body a quote has an odd
run of backslashes in front of it, so the first quote with an even run is the
opening one; and no text in front of a key ends in a backslash. -/
namespace Align.JsonKeys
open JsonText JsonParser JsonSkip JsonRecords JsonDecode JsonIndexed JsonWalk List

/-- Whether the next byte would be an escaped one. -/
def escAfter (before : Bytes) : Bool := before.foldl (fun esc b => b == backslash && !esc) false

def runLength (before : Bytes) : Nat := (before.reverse.takeWhile (· == backslash)).length

theorem runLength_snoc_backslash (before : Bytes) : runLength (before ++ [backslash]) = runLength before + 1 := by
  simp [runLength]

variable (before : Bytes) (b : UInt8)

theorem runLength_snoc_other (other : b ≠ backslash) : runLength (before ++ [b]) = 0 := by
  simp [runLength, other]

theorem escAfter_run : escAfter before = decide (runLength before % 2 = 1) := by
  induction before using List.reverseRecOn with
  | nil => rfl
  | append_singleton before b ih =>
    rw [escAfter, foldl_append, ← escAfter, ih]
    by_cases mark : b = backslash
    · subst mark
      rw [runLength_snoc_backslash]
      rcases Nat.mod_two_eq_zero_or_one (runLength before) with even | odd
      · simp [even, Nat.add_mod]
      · simp [odd, Nat.add_mod]
    · rw [runLength_snoc_other _ b mark]
      simp [mark]

def Sealed (raw : Bytes) : Prop := ∀ before behind, raw = before ++ quote :: behind → escAfter before = true

theorem sealed_nil : Sealed [] := by
  intro before behind impossible
  cases before <;> contradiction

theorem sealed_plain (plain : b ≠ quote ∧ b ≠ backslash) (rest : Sealed raw) :
    Sealed (b :: raw) := by
  intro before behind same
  cases before with
  | nil => exact absurd (List.cons.inj same).1 plain.1
  | cons first before =>
    obtain ⟨rfl, tails⟩ := List.cons.inj same
    have clean : (b == backslash && !false) = false := by simp [plain.2]
    rw [escAfter, foldl_cons, clean]
    exact rest before behind tails

theorem sealed_escape (e : UInt8) (rest : Sealed raw) : Sealed (backslash :: e :: raw) := by
  intro before behind same
  rcases before with _ | ⟨first, _ | ⟨second, before⟩⟩
  · exact absurd (List.cons.inj same).1 (by decide)
  · obtain ⟨rfl, _⟩ := List.cons.inj same
    rfl
  obtain ⟨rfl, tails⟩ := List.cons.inj same
  obtain ⟨rfl, ends⟩ := List.cons.inj tails
  have escaped : (e == backslash && !(backslash == backslash && !false)) = false := by simp
  rw [escAfter, foldl_cons, foldl_cons, escaped]
  exact rest before behind ends

theorem body_sealed (body : Body raw text) : Sealed raw := by
  induction body with
  | nil => exact sealed_nil
  | plain b raw text ok _ ih => exact sealed_plain b ok.2 ih
  | short e v raw text ok _ ih => exact sealed_escape e ih
  | unit a b c d cp raw text hex _ _ _ ih =>
    obtain ⟨pa, pb, pc, pd⟩ := hex4_plain hex
    exact sealed_escape _ (sealed_plain a pa (sealed_plain b pb (sealed_plain c pc (sealed_plain d pd ih))))
  | pair a b c d a' b' c' d' high low raw text hex _ hex' _ _ ih =>
    obtain ⟨pa, pb, pc, pd⟩ := hex4_plain hex
    obtain ⟨pa', pb', pc', pd'⟩ := hex4_plain hex'
    have second := sealed_escape 0x75
      (sealed_plain _ pa' (sealed_plain _ pb' (sealed_plain _ pc' (sealed_plain _ pd' ih))))
    exact sealed_escape _
      (sealed_plain a pa (sealed_plain b pb (sealed_plain c pc (sealed_plain d pd second))))

/-- The text does not end in a backslash. -/
def Clean (before : Bytes) : Prop := before.getLast? ≠ some backslash

/-- Neither of the last two bytes is a backslash, and there is a last one. -/
def Tidy (before : Bytes) : Prop :=
  ∃ b tail, before.reverse = b :: tail ∧ b ≠ backslash ∧ tail.head? ≠ some backslash

theorem tidy_snoc (clean : Clean before) (other : b ≠ backslash) :
    Tidy (before ++ [b]) := by
  refine ⟨b, before.reverse, by simp, other, ?_⟩
  rw [head?_reverse]
  exact clean

theorem tidy_clean (tidy : Tidy before) : Clean before := by
  obtain ⟨b, tail, shape, other, _⟩ := tidy
  rw [Clean, ← head?_reverse, shape]
  intro same
  exact other (Option.some.inj same)

theorem blank_not_backslash (blank : isWs b = true) : b ≠ backslash := by
  rintro rfl
  contradiction

theorem tidy_blank (tidy : Tidy before) (blank : Ws w) : Tidy (before ++ w) := by
  induction w using List.reverseRecOn with
  | nil => simpa using tidy
  | append_singleton w b ih =>
    have kept := ih fun b member => blank b (mem_append_left _ member)
    rw [← append_assoc]
    exact tidy_snoc _ b (tidy_clean _ kept) (blank_not_backslash b (blank b (by simp)))

theorem clean_append (filled : t ≠ []) (clean : Clean t) : Clean (before ++ t) := by
  rw [Clean, getLast?_append_of_ne_nil _ filled]
  exact clean

theorem clean_snoc (other : b ≠ backslash) : Clean (before ++ [b]) := by
  rw [Clean, getLast?_concat]
  exact fun same => other (Option.some.inj same)

theorem clean_of_all (all : ∀ b ∈ t, b ≠ backslash) : Clean t :=
  fun last => all backslash (mem_of_getLast? last) rfl

theorem scalar_clean (scalar : Scalar Body j t) : Clean t := by
  cases scalar with
  | null => exact fun last => absurd last (by decide)
  | true => exact fun last => absurd last (by decide)
  | false => exact fun last => absurd last (by decide)
  | number span ok => exact clean_of_all fun b member => (number_inert _ ok b member).2.1
  | string raw text ok => exact clean_snoc (quote :: raw) _ (by decide)

theorem deep_clean (deep : Deep j t) : Clean t := by
  cases layer_deep deep with
  | scalar j t ok => exact scalar_clean ok
  | emptyArray w blank => exact clean_snoc (openBracket :: w) _ (by decide)
  | array js body items => exact clean_snoc (openBracket :: body) _ (by decide)
  | emptyObject w blank => exact clean_snoc (openBrace :: w) _ (by decide)
  | object ms body items => exact clean_snoc (openBrace :: body) _ (by decide)

theorem clean_blank (clean : Clean before) (blank : Ws w) : Clean (before ++ w) := by
  by_cases empty : w = []
  · rw [empty, append_nil]
    exact clean
  · exact clean_append _ empty (clean_of_all fun b member => blank_not_backslash b (blank b member))

/-- A key stands in front of the colon at this position. -/
structure Keyed (src : Bytes) (cpos : Nat) (raw key : Bytes) : Prop where
  body : Body raw key
  place : ∃ before behind, Tidy before ∧ Ws behind ∧ src.take cpos = before ++ (quoted raw ++ behind)

theorem openingQuote_body {raw before : Bytes} (tidy : Tidy before) (acc : Bytes)
    (closed : Sealed raw) (split : raw = front ++ acc) :
    openingQuote acc (front.reverse ++ quote :: before.reverse) = some (raw, before.reverse) := by
  induction front using List.reverseRecOn generalizing acc with
  | nil =>
    obtain ⟨b, tail, shape, other, _⟩ := tidy
    have even : (before.reverse.takeWhile (· == backslash)).length % 2 = 0 := by simp [shape, other]
    rw [reverse_nil, nil_append, openingQuote, if_pos ⟨rfl, even⟩, shape, split]
    rfl
  | append_singleton front b ih =>
    rw [reverse_append, reverse_singleton, singleton_append, cons_append, openingQuote]
    rw [append_assoc] at split
    have skipped : ¬ (b = quote ∧
      ((front.reverse ++ quote :: before.reverse).takeWhile (· == backslash)).length % 2 = 0) := by
      rintro ⟨rfl, even⟩
      have escaped := closed front acc split
      rw [escAfter_run, decide_eq_true_eq, runLength] at escaped
      have stops : (front.reverse ++ quote :: before.reverse).takeWhile (· == backslash) =
        front.reverse.takeWhile (· == backslash) := by
        rw [takeWhile_append]
        split_ifs with whole
        · have mark : (quote == backslash) = false := by decide
          rw [takeWhile_cons, mark, if_neg Bool.false_ne_true, append_nil]
          exact ((List.takeWhile_prefix _).eq_of_length whole).symm
        · rfl
      rw [stops] at even
      omega
    rw [if_neg skipped]
    exact ih (b :: acc) split

variable {src raw key : Bytes}

theorem keyed_backwards (keyed : Keyed src cpos raw key) :
    ∃ before, Tidy before ∧
      (backwards src cpos).dropWhile isWs = quote :: (raw.reverse ++ quote :: before.reverse) := by
  obtain ⟨before, behind, tidy, blank, place⟩ := keyed.place
  refine ⟨before, tidy, ?_⟩
  have reversed : Ws behind.reverse := fun b member => blank b (mem_reverse.mp member)
  have shape : backwards src cpos = behind.reverse ++ quote :: (raw.reverse ++ quote :: before.reverse) := by
    rw [backwards, place]
    simp [quoted]
  rw [shape]
  exact ws_to _ reversed rfl

theorem keyBeforeColon_keyed (keyed : Keyed src cpos raw key) :
    keyBeforeColon src cpos = some raw := by
  obtain ⟨before, tidy, shape⟩ := keyed_backwards keyed
  have found := openingQuote_body tidy [] (body_sealed keyed.body) (append_nil raw).symm
  obtain ⟨b, tail, turned, other, second⟩ := tidy
  have apart : ¬ before.reverse[1]? = some backslash := by
    rw [turned, getElem?_cons_succ, ← head?_eq_getElem?]
    exact second
  rw [keyBeforeColon, shape]
  simp only [ne_eq, not_true_eq_false, if_false, found, Option.bind_some, if_neg apart,
    unescapedLen_body _ keyed.body, Option.map_some]

def Plain (name : Bytes) : Prop := quote ∉ name ∧ backslash ∉ name

theorem escaped_head (tail : Bytes) (escaped : escAfter tail.reverse = true) : tail.head? = some backslash := by
  rw [escAfter_run, decide_eq_true_eq, runLength, reverse_reverse] at escaped
  cases tail with
  | nil => contradiction
  | cons b tail =>
    by_cases mark : b = backslash
    · rw [mark]
      rfl
    · simp [mark] at escaped

/-- Right in front of the closing quote stands the name, and in front of it a quote
that is not escaped: then the name is the whole body. -/
theorem cleanKey_body {raw before name : Bytes} (closed : Sealed raw) (plain : Plain name)
    (found : cleanKeyMatches name (quote :: (raw.reverse ++ quote :: before.reverse)) = true) : raw = name := by
  simp only [cleanKeyMatches, Bool.and_eq_true, beq_iff_eq, decide_eq_true_eq, bne_iff_ne] at found
  obtain ⟨⟨⟨⟨_, room⟩, opening⟩, unescaped⟩, same⟩ := found
  have spelled : (raw.reverse ++ quote :: before.reverse).take name.length = name.reverse := by
    rw [← reverse_reverse (List.take _ _), same]
  rcases Nat.lt_trichotomy name.length raw.length with longer | equal | shorter
  · -- the quote found lies inside the body, so it is escaped
    have inner : raw.reverse = name.reverse ++ quote :: raw.reverse.drop (name.length + 1) := by
      rw [take_append_of_le_length (by simp; omega)] at spelled
      rw [getElem?_append_left (by simp; omega)] at opening
      rw [← spelled]
      conv_lhs => rw [← take_append_drop name.length raw.reverse]
      rw [drop_eq_getElem_cons (by simp; omega)]
      rw [getElem?_eq_getElem (by simp; omega), Option.some.injEq] at opening
      rw [opening]
    have split : raw = (raw.reverse.drop (name.length + 1)).reverse ++ quote :: name := by
      rw [← reverse_reverse raw]
      conv_lhs => rw [inner]
      simp
    have mark := escaped_head _ (closed _ _ split)
    rw [head?_drop] at mark
    rw [getElem?_append_left] at unescaped
    · exact absurd mark unescaped
    · exact (List.getElem?_eq_some_iff.mp mark).1
  · rw [take_left' (by simp [equal])] at spelled
    exact reverse_injective spelled
  · have inside : (name.reverse)[raw.length]? = some quote := by
      rw [← spelled, getElem?_take_of_lt shorter, getElem?_append_right (by simp)]
      simp
    exact absurd (mem_reverse.mp (mem_of_getElem? inside)) plain.1

theorem keyMatches_keyed (keyed : Keyed src cpos raw key) (plain : Plain name)
    (found : keyMatchesBeforeColon src cpos name = true) : key = name := by
  obtain ⟨before, _, shape⟩ := keyed_backwards keyed
  rw [keyMatchesBeforeColon, shape, keyBeforeColon_keyed keyed, Bool.or_eq_true] at found
  rcases found with direct | escaped
  · have same := cleanKey_body (body_sealed keyed.body) plain direct
    subst same
    exact (body_plain _ keyed.body plain.2).symm
  · simp only [Option.any_some, Bool.and_eq_true] at escaped
    exact ((stringEquals_body _ _ keyed.body).mp escaped.2)

theorem take_more {t rest : Bytes} {i : Nat} (at' : src.drop i = t ++ rest) :
    src.take (i + t.length) = src.take i ++ t := by
  rw [take_add, at', take_left]

variable (src : Bytes) (i : Nat) (m : Member) (rest : Bytes)

theorem keyed_member (at' : src.drop i = m.spell ++ rest) (tidy : Tidy (src.take i)) : Keyed src (colonAt i m) m.raw m.key := by
  refine ⟨m.name, src.take i ++ m.before, m.behind, tidy_blank _ tidy m.beforeBlank, m.behindBlank, ?_⟩
  have front : src.drop i =
    (m.before ++ (quoted m.raw ++ m.behind)) ++ (colon :: (m.gap ++ (m.text ++ m.after)) ++ rest) := by
    rw [at', Member.spell]
    simp
  rw [colonAt, take_more front]
  simp

theorem member_clean : Clean m.spell := by
  have shape : m.spell = (m.before ++ (quoted m.raw ++ (m.behind ++ colon :: m.gap))) ++ (m.text ++ m.after) := by
    simp [Member.spell]
  rw [shape]
  refine clean_append _ ?_ (clean_blank _ (deep_clean m.value) m.afterBlank)
  obtain ⟨b, tail, text, _⟩ := deep_head _ _ m.value
  simp [text]

theorem tidy_next (at' : src.drop i = m.spell ++ comma :: rest) : Tidy (src.take (i + (m.spell.length + 1))) := by
  have front : src.drop i = (m.spell ++ [comma]) ++ rest := by
    rw [at', append_assoc, singleton_append]
  have shape : src.take (i + (m.spell.length + 1)) = (src.take i ++ m.spell) ++ [comma] := by
    have taken := take_more front
    rw [length_append, length_singleton] at taken
    rw [taken, append_assoc]
  rw [shape]
  refine tidy_snoc _ _ (clean_append _ ?_ (member_clean m)) (by decide)
  simp [Member.spell, quoted]

/-- The members with the places of their colons. -/
def colonMembers : Nat → List Member → List (Nat × Member)
  | _, [] => []
  | i, m :: ms => (colonAt i m, m) :: colonMembers (i + (m.spell.length + 1)) ms

theorem colonMembers_colons : (colonMembers i ms).map Prod.fst = colonsOf i ms := by
  induction ms generalizing i with
  | nil => rfl
  | cons m ms ih => rw [colonMembers, map_cons, ih, colonsOf]

theorem keyed_members {rest : Bytes} (at' : src.drop i = spellMembers ms ++ rest) (tidy : Tidy (src.take i)) :
    ∀ cm ∈ colonMembers i ms, Keyed src cm.1 cm.2.raw cm.2.key := by
  induction ms generalizing i with
  | nil =>
    intro cm member
    cases member
  | cons m ms ih =>
    intro cm member
    by_cases last : ms = []
    · subst last
      cases mem_singleton.mp member
      exact keyed_member _ i m _ at' tidy
    · rw [spellMembers_cons m last, append_assoc, cons_append] at at'
      rcases mem_cons.mp member with rfl | later
      · exact keyed_member _ i m _ at' tidy
      · exact ih _ (drop_tail (drop_rest at')) (tidy_next _ i m _ at') cm later

variable {src : Bytes} (i : Nat) {r : Record} {rest : Bytes}

theorem tidy_record (at' : src.drop i = r.spell ++ rest) (clean : Clean (src.take i)) :
    src.drop (i + r.before.length + 1) = r.body ++ closeBrace :: (r.after ++ rest) ∧
      Tidy (src.take (i + r.before.length + 1)) := by
  have front : src.drop i = r.before ++ openBrace :: (r.body ++ closeBrace :: (r.after ++ rest)) := by
    rw [at', Record.spell, Record.text]
    simp
  have opening := drop_rest front
  refine ⟨drop_tail opening, ?_⟩
  have shape : src.take (i + r.before.length + 1) = (src.take i ++ r.before) ++ [openBrace] := by
    rw [← take_more front]
    exact take_more (t := [openBrace]) opening
  rw [shape]
  exact tidy_snoc _ _ (clean_blank _ clean r.beforeBlank) (by decide)

theorem keyed_record (at' : src.drop i = r.spell ++ rest) (clean : Clean (src.take i)) :
    ∀ cm ∈ colonMembers (i + r.before.length + 1) r.members, Keyed src cm.1 cm.2.raw cm.2.key := by
  obtain ⟨inner, tidy⟩ := tidy_record i at' clean
  rw [Record.body] at inner
  split_ifs at inner with empty
  · rw [empty]
    intro cm member
    cases member
  · exact keyed_members _ _ inner tidy

theorem keyed_colons (at' : src.drop i = r.spell ++ rest) (clean : Clean (src.take i)) :
    ∀ c ∈ colonsOf (i + r.before.length + 1) r.members, ∃ raw key, Keyed src c raw key := by
  intro c member
  rw [← colonMembers_colons] at member
  obtain ⟨cm, inside, rfl⟩ := List.mem_map.mp member
  exact ⟨_, _, keyed_record i at' clean _ inside⟩

theorem clean_next (at' : src.drop i = r.spell ++ comma :: rest) : Clean (src.take (i + (r.spell.length + 1))) := by
  have front : src.drop i = (r.spell ++ [comma]) ++ rest := by
    rw [at', append_assoc, singleton_append]
  have taken := take_more front
  rw [length_append, length_singleton] at taken
  rw [taken, ← append_assoc]
  exact clean_snoc _ _ (by decide)

theorem clean_start (a : RecordArray) : Clean (a.spell.take (a.before.length + 1)) := by
  have shape : a.spell = (a.before ++ [openBracket]) ++ (a.body ++ closeBracket :: a.after) := by
    simp [RecordArray.spell]
  have length : a.before.length + 1 = (a.before ++ [openBracket]).length := by simp
  rw [shape, length, take_left]
  exact clean_snoc _ _ (by decide)

theorem drop_start (a : RecordArray) (filled : a.records ≠ []) :
    a.spell.drop (a.before.length + 1) = spellRecords a.records ++ closeBracket :: a.after := by
  have shape : a.spell = (a.before ++ [openBracket]) ++ (spellRecords a.records ++ closeBracket :: a.after) := by
    simp [RecordArray.spell, RecordArray.body, filled]
  have length : a.before.length + 1 = (a.before ++ [openBracket]).length := by simp
  rw [shape, length, drop_left]

/-- The direct members of the records, the first record beginning at `i`. -/
def directMembers : Nat → List Record → List (Nat × Member)
  | _, [] => []
  | i, r :: rs => colonMembers (i + r.before.length + 1) r.members ++ directMembers (i + (r.spell.length + 1)) rs

theorem keyed_direct {rs : List Record} (at' : src.drop i = spellRecords rs ++ rest) (clean : Clean (src.take i)) :
    ∀ cm ∈ directMembers i rs, Keyed src cm.1 cm.2.raw cm.2.key := by
  induction rs generalizing i with
  | nil =>
    intro cm member
    cases member
  | cons r rs ih =>
    intro cm member
    by_cases last : rs = []
    · subst last
      rw [directMembers, directMembers, append_nil] at member
      exact keyed_record i at' clean _ member
    · rw [spellRecords_cons r last, append_assoc, cons_append] at at'
      rcases mem_append.mp member with here | later
      · exact keyed_record i at' clean _ here
      · exact ih _ (drop_tail (drop_rest at')) (clean_next i at') cm later

/-- Hands on the colons of the records, as the walk over the index finds them. -/
def colonHandler : Handler (List Nat) where
  arrayOpens s := s
  recordOpens s := s
  recordCloses cols s := some (s ++ cols)
  arrayCloses _ _ s := some s

theorem decodeAll_colons (i : Nat) (rs : List Record) (s : List Nat) :
    decodeAll colonHandler i rs s = some (s ++ (directMembers i rs).map Prod.fst) := by
  induction rs generalizing i s with
  | nil => exact congrArg some (append_nil s).symm
  | cons r rs ih =>
    rw [decodeAll, directMembers, map_append, colonMembers_colons, ← append_assoc]
    exact ih _ _

theorem keyMatches_iff (keyed : Keyed src cpos raw key) (plain : Plain name) :
    keyMatchesBeforeColon src cpos name = true ↔ key = name := by
  refine ⟨keyMatches_keyed keyed plain, ?_⟩
  rintro rfl
  obtain ⟨before, tidy, shape⟩ := keyed_backwards keyed
  rw [keyMatchesBeforeColon, shape, keyBeforeColon_keyed keyed, Bool.or_eq_true]
  by_cases escaped : backslash ∈ raw
  · right
    simp [escaped, (stringEquals_body _ _ keyed.body).mpr rfl]
  · left
    obtain ⟨b, tail, turned, other, -⟩ := tidy
    obtain rfl := body_plain _ keyed.body escaped
    have behind : (raw.reverse ++ quote :: b :: tail)[raw.length + 1]? = some b := by
      simp
    have opening : (raw.reverse ++ quote :: b :: tail)[raw.length]? = some quote := by simp
    rw [cleanKeyMatches, turned, opening, behind, take_left' length_reverse, reverse_reverse]
    simp [other]

/-- An accepted input is an array of records, and in every such array the key in front of
the colon of a direct member, where the walk over the index finds it, is that member's.
A name without quotes and backslashes matches exactly when it is the decoded key. -/
theorem keys_recovered :
    (∀ src rows, jsonRecordArrayCount src = some rows → ∃ a : RecordArray, a.spell = src) ∧
    ∀ a : RecordArray,
      (a.spell.length < 2 ^ 32 → ∀ target pclmul,
        (walk colonHandler a.spell (jsonDecodeIndex target pclmul a.spell) ⟨0, [], []⟩).map Walk.state =
          some ((directMembers (a.before.length + 1) a.records).map Prod.fst)) ∧
      ∀ cm ∈ directMembers (a.before.length + 1) a.records,
        keyBeforeColon a.spell cm.1 = some cm.2.raw ∧
        ∀ name, Plain name → (keyMatchesBeforeColon a.spell cm.1 name = true ↔ cm.2.key = name) := by
  refine ⟨fun src rows counted => (count_sound counted).imp fun a found => found.1, fun a => ⟨?_, ?_⟩⟩
  · intro small target pclmul
    rw [index_scan, walk_array colonHandler a small, decodeAll_colons]
    rfl
  · intro cm member
    have keyed : Keyed a.spell cm.1 cm.2.raw cm.2.key := by
      by_cases empty : a.records = []
      · rw [empty] at member
        cases member
      · exact keyed_direct _ (drop_start a empty) (clean_start a) cm member
    exact ⟨keyBeforeColon_keyed keyed, fun name => keyMatches_iff keyed⟩

/-- Every declared name is looked up to its own field. -/
def Resolves (t : JsonSubTable JsonField) : Prop :=
  ∀ i d, t.descs[i]? = some d → findField t.descs d.name t.phf t.phfSeed = some i

/-- The table, where there is one, was built by the compiler for these names. -/
def Built (t : JsonSubTable JsonField) : Prop :=
  ∀ slots, t.phf = some slots → buildPhf (t.descs.map JsonField.name) = some (slots, t.phfSeed)

theorem placed_names (i : Nat) (slots : List Int) (placed : placeNames mask seed i names slots = some slots') :
    slots'.length = slots.length ∧ (∀ (p : Nat) v, slots[p]? = some v → v ≠ -1 → slots'[p]? = some v) ∧
      ∀ (k : Nat) name, names[k]? = some name →
        slots'[(jsonPhfHash name seed &&& mask).toNat]? = some ((i + k : Nat) : Int) := by
  induction names generalizing i slots with
  | nil =>
    cases placed
    exact ⟨rfl, fun _ _ found _ => found, fun _ _ impossible => by simp at impossible⟩
  | cons name names ih =>
    rw [placeNames] at placed
    split_ifs at placed with taken
    obtain ⟨length, kept, found⟩ := ih _ _ placed
    have free := not_not.mp taken
    have bound := (List.getElem?_eq_some_iff.mp free).1
    rw [length_set] at length
    refine ⟨length, ?_, ?_⟩
    · intro p v old set
      refine kept p v ?_ set
      rw [getElem?_set]
      split_ifs with here
      · rw [← here, free] at old
        exact absurd (Option.some.inj old).symm set
      · exact old
    · intro k other named
      cases k with
      | zero =>
        cases named
        exact kept _ _ (by rw [getElem?_set_self bound]; rfl) (by omega)
      | succ k =>
        have later := found k other named
        rwa [show i + 1 + k = i + (k + 1) by omega] at later

theorem built_names (built : buildPhf names = some (slots, seed)) {k : Nat} (named : names[k]? = some name) :
    slots ≠ [] ∧ slots[(jsonPhfHash name seed &&& (UInt64.ofNat slots.length - 1)).toNat]? = some (k : Int) := by
  unfold buildPhf at built
  split_ifs at built
  obtain ⟨m, _, tried⟩ := exists_of_findSome?_eq_some built
  obtain ⟨s, _, tried⟩ := exists_of_findSome?_eq_some tried
  obtain ⟨slots', placed, same⟩ := Option.map_eq_some_iff.mp tried
  cases same
  obtain ⟨length, _, found⟩ := placed_names _ _ placed
  have here := found k name named
  rw [length_replicate] at length
  rw [Nat.zero_add] at here
  rw [length]
  refine ⟨?_, here⟩
  rintro rfl
  simp at here

theorem names_resolve (distinct : (t.descs.map JsonField.name).Nodup) (built : Built t) : Resolves t := by
  intro i d found
  have named : (t.descs.map JsonField.name)[i]? = some d.name := by simp [found]
  have scanned : (t.descs.findIdx? fun d' => d'.name == d.name) = some i := by
    obtain ⟨bound, here⟩ := List.getElem?_eq_some_iff.mp found
    rw [findIdx?_eq_some_iff_getElem]
    refine ⟨bound, by simp [here], fun j before => ?_⟩
    rw [Bool.not_eq_true, beq_eq_false_iff_ne]
    intro same
    have apart := pairwise_iff_getElem.mp distinct j i (by simp; omega) (by simp; omega) before
    simp only [getElem_map, here] at apart
    exact apart same
  unfold findField
  rcases table : t.phf with _ | slots
  · exact scanned
  obtain ⟨filled, slot⟩ := built_names (built slots table) named
  cases slots with
  | nil => contradiction
  | cons first rest =>
    dsimp only
    rw [getD_eq_getElem?_getD, slot, Option.getD_some, if_neg (by omega), Int.toNat_natCast, found]
    simp

theorem findKey_name (resolves : Resolves t) (body : Body raw key)
    {i : Nat} (found : t.descs[i]? = some d) (same : key = d.name) : findKey t raw = some i := by
  unfold findKey findFieldToken
  split_ifs with escaped
  · obtain ⟨bound, here⟩ := List.getElem?_eq_some_iff.mp found
    rw [findIdx?_eq_some_iff_getElem]
    refine ⟨bound, ?_, fun j before => ?_⟩
    · rw [here]
      exact (stringEquals_body _ _ body).mpr same
    · intro equal
      have other := (stringEquals_body _ _ body).mp equal
      have first := resolves j _ (getElem?_eq_getElem (by omega))
      rw [← other, same, resolves i d found, Option.some.injEq] at first
      omega
  · have clean : backslash ∉ raw := by simpa using escaped
    rw [body_plain _ body clean, same]
    exact resolves i d found

end Align.JsonKeys
