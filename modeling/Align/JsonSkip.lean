import Align.JsonParser

/-! Two readers that only check: `skip_value`, a recursive descent over ignored
values with a nesting bound, and the counting pass in front of the indexed
decoders, a loop over an explicit stack with none. Both accept texts of the one
grammar. -/
namespace Align.JsonSkip
open JsonText JsonParser List Option

/-! Skipping. `left` counts the levels that remain; the source counts up from
zero and fails past 128. -/

/-- The member loop of `skip_object`, over the skipper of the level below. The
first argument bounds the iterations only. -/
def skipMembers (value : Bytes → Option Bytes) : Nat → Bytes → Option Bytes
  | 0, _ => none
  | fuel + 1, rest =>
      (skipString (ws rest)).bind fun rest =>
        (expect colon (ws rest)).bind fun rest =>
          (value (ws rest)).bind fun rest =>
            let rest := ws rest
            if peek rest = some comma then skipMembers value fuel rest.tail
            else if peek rest = some closeBrace then some rest.tail
            else none

def skipObject (value : Bytes → Option Bytes) (rest : Bytes) : Option Bytes :=
  (expect openBrace rest).bind fun rest =>
    let rest := ws rest
    if peek rest = some closeBrace then some rest.tail else skipMembers value rest.length rest

def skipElements (value : Bytes → Option Bytes) : Nat → Bytes → Option Bytes
  | 0, _ => none
  | fuel + 1, rest =>
      (value (ws rest)).bind fun rest =>
        let rest := ws rest
        if peek rest = some comma then skipElements value fuel rest.tail
        else if peek rest = some closeBracket then some rest.tail
        else none

def skipArray (value : Bytes → Option Bytes) (rest : Bytes) : Option Bytes :=
  (expect openBracket rest).bind fun rest =>
    let rest := ws rest
    if peek rest = some closeBracket then some rest.tail else skipElements value rest.length rest

def skipScalar (b : UInt8) (rest : Bytes) : Option Bytes :=
  if b = 0x74 ∨ b = 0x66 then (boolean rest).map Prod.snd
  else if b = 0x6E then skipNull rest
  else if b = 0x2D ∨ isDigit b then skipNumber rest
  else if b = quote then skipString rest
  else none

def skipValueDepth : Nat → Bytes → Option Bytes
  | 0, _ => none
  | left + 1, rest =>
      match peek rest with
      | none => none
      | some b =>
          if b = openBrace then skipObject (skipValueDepth left) rest
          else if b = openBracket then skipArray (skipValueDepth left) rest
          else skipScalar b rest

def MAX_DEPTH : Nat := 128

def skipValue (rest : Bytes) : Option Bytes := skipValueDepth (MAX_DEPTH + 1) rest

inductive GrammarState where
  | arrayValue (empty : Bool)
  | arrayDelimiter
  | objectKey (empty : Bool)
  | objectColon
  | objectValue
  | objectDelimiter
  deriving DecidableEq

/-- The state a container is left in while one of its values is read. -/
def GrammarState.delimiter : GrammarState → GrammarState
  | .arrayValue _ => .arrayDelimiter
  | _ => .objectDelimiter

/-- One value in front of the cursor: a scalar is skipped, a container pushed. -/
def beginValue (below : List GrammarState) (rest : Bytes) : Option (List GrammarState × Bytes) :=
  match peek rest with
  | none => none
  | some b =>
      if b = openBracket then some (.arrayValue true :: below, rest.tail)
      else if b = openBrace then some (.objectKey true :: below, rest.tail)
      else (skipScalar b rest).map fun rest => (below, rest)

/-- One turn of the loop, at a cursor past white space: the stack, the rows
counted and the cursor behind it. -/
def countStep (state : GrammarState) (below : List GrammarState) (rows : Nat) (rest : Bytes) :
    Option (List GrammarState × Nat × Bytes) :=
  match state with
  | .arrayValue empty =>
      if empty ∧ peek rest = some closeBracket then some (below, rows, rest.tail)
      else if below = [] then
        if peek rest ≠ some openBrace then none
        else (beginValue (.arrayDelimiter :: below) rest).map fun (stack, rest) => (stack, rows + 1, rest)
      else (beginValue (.arrayDelimiter :: below) rest).map fun (stack, rest) => (stack, rows, rest)
  | .objectValue =>
      if below = [] then
        if peek rest ≠ some openBrace then none
        else (beginValue (.objectDelimiter :: below) rest).map fun (stack, rest) => (stack, rows + 1, rest)
      else (beginValue (.objectDelimiter :: below) rest).map fun (stack, rest) => (stack, rows, rest)
  | .arrayDelimiter =>
      if peek rest = some comma then some (.arrayValue false :: below, rows, rest.tail)
      else if peek rest = some closeBracket then some (below, rows, rest.tail)
      else none
  | .objectKey empty =>
      if empty ∧ peek rest = some closeBrace then some (below, rows, rest.tail)
      else (skipString rest).map fun rest => (.objectColon :: below, rows, rest)
  | .objectColon => (expect colon rest).map fun rest => (.objectValue :: below, rows, rest)
  | .objectDelimiter =>
      if peek rest = some comma then some (.objectKey false :: below, rows, rest.tail)
      else if peek rest = some closeBrace then some (below, rows, rest.tail)
      else none

/-- The loop, until the stack is empty. Every turn consumes a byte, so the length
of the input bounds the turns. -/
def countLoop : Nat → List GrammarState → Nat → Bytes → Option (Nat × Bytes)
  | _, [], rows, rest => some (rows, rest)
  | 0, _ :: _, _, _ => none
  | fuel + 1, state :: below, rows, rest =>
      (countStep state below rows (ws rest)).bind fun (stack, rows, rest) => countLoop fuel stack rows rest

def jsonRecordArrayCount (src : Bytes) : Option Nat :=
  (expect openBracket (ws src)).bind fun rest =>
    (countLoop rest.length [.arrayValue true] 0 rest).bind fun (rows, rest) =>
      if (ws rest).length = 0 then some rows else none

/-- The skipper passes exactly over a text in `P`, whatever follows that text. -/
def Passes (value : Bytes → Option Bytes) (P : Json Bytes → Bytes → Prop) : Prop :=
  ∀ j t rest, P j t → Stops rest → value (t ++ rest) = some rest

/-- What the skipper passes over is a text in `P`. -/
def Only (value : Bytes → Option Bytes) (P : Json Bytes → Bytes → Prop) : Prop :=
  ∀ rest rest', value rest = some rest' → ∃ j t, P j t ∧ rest = t ++ rest'

theorem number_dispatch (start : b = 0x2D ∨ isDigit b = true) :
    isWs b = false ∧ b ≠ openBrace ∧ b ≠ openBracket ∧ ¬ (b = 0x74 ∨ b = 0x66) ∧ b ≠ 0x6E := by
  rcases start with rfl | digit
  · decide
  · obtain ⟨solid, _, brace, bracket, _, word, null⟩ := digits_start digit
    exact ⟨solid, brace, bracket, word, null⟩

theorem skipString_complete (body : Body raw text) :
    skipString (quoted raw ++ rest) = some rest := by
  rw [skipString, stringBody_complete _ body, map_some]

theorem skipString_sound (found : skipString rest = some rest') :
    ∃ raw text, Body raw text ∧ rest = quoted raw ++ rest' := by
  obtain ⟨⟨raw, behind⟩, body, same⟩ := map_eq_some_iff.mp found
  cases same
  obtain ⟨text, decoded, shape⟩ := stringBody_sound _ body
  exact ⟨raw, text, decoded, shape⟩

theorem skipScalar_complete (scalar : Scalar Body j t) (stop : Stops rest) :
    ∃ b tail, t = b :: tail ∧ b ≠ openBrace ∧ b ≠ openBracket ∧ skipScalar b (t ++ rest) = some rest := by
  cases scalar with
  | null =>
    refine ⟨_, _, rfl, by decide, by decide, ?_⟩
    rw [skipScalar, if_neg (by decide), if_pos rfl, skipNull, afterLiteral_append]
  | true =>
    refine ⟨_, _, rfl, by decide, by decide, ?_⟩
    rw [skipScalar, if_pos (Or.inl rfl), boolean_true, map_some]
  | false =>
    refine ⟨_, _, rfl, by decide, by decide, ?_⟩
    rw [skipScalar, if_pos (Or.inr rfl), boolean_false, map_some]
  | string raw text ok =>
    refine ⟨_, _, rfl, by decide, by decide, ?_⟩
    rw [skipScalar, if_neg (by decide), if_neg (by decide), if_neg (by decide), if_pos rfl,
      skipString_complete ok]
  | number span ok =>
    obtain ⟨b, tail, rfl, start⟩ := number_start t ok
    obtain ⟨_, brace, bracket, word, null⟩ := number_dispatch start
    refine ⟨b, tail, rfl, brace, bracket, ?_⟩
    rw [skipScalar, if_neg word, if_neg null, if_pos start, skipNumber, numberSpan_complete ok stop,
      map_some]

theorem skipScalar_sound (found : skipScalar b rest = some rest') :
    ∃ j t, Scalar Body j t ∧ rest = t ++ rest' := by
  unfold skipScalar at found
  split_ifs at found
  · obtain ⟨⟨v, behind⟩, read, same⟩ := map_eq_some_iff.mp found
    cases same
    have shape := boolean_some read
    cases v with
    | true => exact ⟨_, _, .true, shape⟩
    | false => exact ⟨_, _, .false, shape⟩
  · exact ⟨_, _, .null, afterLiteral_some found⟩
  · obtain ⟨⟨span, behind⟩, read, same⟩ := map_eq_some_iff.mp found
    cases same
    obtain ⟨ok, shape⟩ := numberSpan_sound _ read
    exact ⟨_, _, .number span ok, shape⟩
  · obtain ⟨raw, text, ok, shape⟩ := skipString_sound found
    exact ⟨_, _, .string raw text ok, shape⟩

section Levels
variable (value : Bytes → Option Bytes) (P : Json Bytes → Bytes → Prop)

theorem skipElements_complete (passes : Passes value P) (heads : Heads P)
    (items : Elements P js body) (fuel : Nat) (enough : body.length ≤ fuel) :
    skipElements value fuel (body ++ closeBracket :: rest) = some rest := by
  induction items generalizing fuel with
  | last w t w' j blank ok after =>
    have filled := heads_length heads ok
    obtain ⟨fuel, rfl⟩ : ∃ k, fuel = k + 1 := ⟨fuel - 1, by simp at enough; omega⟩
    have stop := stops_mark rest after (Or.inr (Or.inl rfl))
    rw [append_assoc, append_assoc, skipElements, ws_skip _ blank (heads_noWs heads _ ok),
      passes j t _ ok stop, bind_some]
    simp only [ws_to closeBracket after rfl, peek_cons]
    rfl
  | more w t w' body j js blank ok after _ ih =>
    obtain ⟨fuel, rfl⟩ : ∃ k, fuel = k + 1 := ⟨fuel - 1, by simp at enough; omega⟩
    have stop := stops_mark (body ++ closeBracket :: rest) after (Or.inl rfl)
    rw [append_assoc, append_assoc, append_assoc, cons_append, skipElements,
      ws_skip _ blank (heads_noWs heads _ ok), passes j t _ ok stop, bind_some]
    simp only [ws_to comma after rfl, peek_cons, tail_cons, if_true]
    exact ih fuel (by simp at enough; omega)

theorem skipMembers_first (passes : Passes value P) (heads : Heads P) (blank : Ws w) (name : Body raw key)
    (behind : Ws w₁) (gap : Ws w₂) (ok : P j t) (stop : Stops rest) (fuel : Nat) :
    skipMembers value (fuel + 1) (w ++ (quoted raw ++ (w₁ ++ colon :: (w₂ ++ (t ++ rest))))) =
      if peek (ws rest) = some comma then skipMembers value fuel (ws rest).tail
      else if peek (ws rest) = some closeBrace then some (ws rest).tail else none := by
  rw [skipMembers, ws_skip _ blank (noWs_quoted _ _), skipString_complete name, bind_some,
    ws_to _ behind rfl, expect_cons, bind_some, ws_skip _ gap (heads_noWs heads _ ok), passes j t _ ok stop,
    bind_some]

theorem skipMembers_complete (passes : Passes value P) (heads : Heads P)
    (items : Members Body P ms body) (fuel : Nat) (enough : body.length ≤ fuel) :
    skipMembers value fuel (body ++ closeBrace :: rest) = some rest := by
  induction items generalizing fuel with
  | last w raw w₁ w₂ t w' key j blank name behind gap ok after =>
    obtain ⟨fuel, rfl⟩ : ∃ k, fuel = k + 1 := ⟨fuel - 1, by simp at enough; omega⟩
    have stop := stops_mark rest after (Or.inr (Or.inr rfl))
    simp only [append_assoc, cons_append]
    rw [skipMembers_first _ P passes heads blank name behind gap ok stop]
    simp only [ws_to closeBrace after rfl, peek_cons]
    rfl
  | more w raw w₁ w₂ t w' body key j ms blank name behind gap ok after _ ih =>
    obtain ⟨fuel, rfl⟩ : ∃ k, fuel = k + 1 := ⟨fuel - 1, by simp at enough; omega⟩
    have stop := stops_mark (body ++ closeBrace :: rest) after (Or.inl rfl)
    simp only [append_assoc, cons_append]
    rw [skipMembers_first _ P passes heads blank name behind gap ok stop]
    simp only [ws_to comma after rfl, peek_cons, tail_cons, if_true]
    exact ih fuel (by simp at enough; omega)

theorem skipElements_sound (only : Only value P) (fuel : Nat) (rest rest' : Bytes)
    (found : skipElements value fuel rest = some rest') :
    ∃ js body, Elements P js body ∧ rest = body ++ closeBracket :: rest' := by
  induction fuel generalizing rest with
  | zero => contradiction
  | succ fuel ih =>
    obtain ⟨behind, first, next⟩ := bind_eq_some_iff.mp found
    obtain ⟨w, blank, front⟩ := ws_split rest
    obtain ⟨j, t, ok, shape⟩ := only _ _ first
    rw [front, shape]
    apply elements_step blank ok
    dsimp only at next
    split_ifs at next with more last
    · exact Or.inl ⟨more, ih _ next⟩
    · cases next
      exact Or.inr ⟨last, rfl⟩

theorem skipMembers_sound (only : Only value P) (fuel : Nat) (rest rest' : Bytes)
    (found : skipMembers value fuel rest = some rest') :
    ∃ ms body, Members Body P ms body ∧ rest = body ++ closeBrace :: rest' := by
  induction fuel generalizing rest with
  | zero => contradiction
  | succ fuel ih =>
    obtain ⟨named, string, found⟩ := bind_eq_some_iff.mp found
    obtain ⟨inner, marked, found⟩ := bind_eq_some_iff.mp found
    obtain ⟨behind, first, next⟩ := bind_eq_some_iff.mp found
    obtain ⟨w, blank, front⟩ := ws_split rest
    obtain ⟨raw, key, name, keyed⟩ := skipString_sound string
    obtain ⟨w₁, between, colons⟩ := ws_split named
    obtain ⟨w₂, gap, starts⟩ := ws_split inner
    obtain ⟨j, t, ok, shape⟩ := only _ _ first
    rw [front, keyed, colons, expect_some marked, starts, shape]
    apply members_step blank name between gap ok
    dsimp only at next
    split_ifs at next with more last
    · exact Or.inl ⟨more, ih _ next⟩
    · cases next
      exact Or.inr ⟨last, rfl⟩

theorem skipArray_complete (passes : Passes value P) (heads : Heads P) (items : Elements P js body) :
    skipArray value (openBracket :: (body ++ closeBracket :: rest)) = some rest := by
  obtain ⟨w, t, tail, blank, ⟨j, ok⟩, rfl, items'⟩ := elements_trim items
  obtain ⟨b, t', rfl, solid, inner⟩ := heads j t ok
  have skipped : ws (w ++ (b :: t' ++ tail) ++ closeBracket :: rest) =
    b :: t' ++ tail ++ closeBracket :: rest := by
    rw [append_assoc]
    exact ws_to b blank solid
  rw [skipArray, expect_cons, bind_some]
  simp only [skipped]
  have begun : peek (b :: t' ++ tail ++ closeBracket :: rest) ≠ some closeBracket :=
    fun closes => inner (Option.some.inj closes)
  rw [if_neg begun]
  exact skipElements_complete _ P passes heads items' _ (by simp)

theorem skipObject_complete (passes : Passes value P) (heads : Heads P)
    (items : Members Body P ms body) :
    skipObject value (openBrace :: (body ++ closeBrace :: rest)) = some rest := by
  obtain ⟨w, tail, blank, rfl, items'⟩ := members_trim items
  have skipped : ws (w ++ quote :: tail ++ closeBrace :: rest) = quote :: tail ++ closeBrace :: rest := by
    rw [append_assoc]
    exact ws_to _ blank rfl
  rw [skipObject, expect_cons, bind_some]
  simp only [skipped]
  have begun : peek (quote :: tail ++ closeBrace :: rest) ≠ some closeBrace :=
    fun closes => absurd (Option.some.inj closes) (by decide)
  exact skipMembers_complete _ P passes heads items' _ (by simp)

theorem skipArray_sound (only : Only value P) (rest rest' : Bytes) (found : skipArray value rest = some rest') :
    ∃ j t, Layer Body P j t ∧ rest = t ++ rest' := by
  obtain ⟨inner, marked, next⟩ := bind_eq_some_iff.mp found
  apply array_step marked
  dsimp only at next
  split_ifs at next with empty
  · cases next
    exact Or.inl ⟨empty, rfl⟩
  · exact Or.inr (skipElements_sound _ P only _ _ _ next)

theorem skipObject_sound (only : Only value P) (rest rest' : Bytes)
    (found : skipObject value rest = some rest') :
    ∃ ms t, Layer Body P (.object ms) t ∧ rest = t ++ rest' := by
  obtain ⟨inner, marked, next⟩ := bind_eq_some_iff.mp found
  apply object_step marked
  dsimp only at next
  split_ifs at next with empty
  · cases next
    exact Or.inl ⟨empty, rfl⟩
  · exact Or.inr (skipMembers_sound _ P only _ _ _ next)

end Levels

theorem skip_level (P : Json Bytes → Bytes → Prop) (heads : Heads P)
    (passes : Passes (skipValueDepth left) P) : Passes (skipValueDepth (left + 1)) (Layer Body P) := by
  intro j t rest layer stop
  cases layer with
  | scalar j t ok =>
    obtain ⟨b, tail, rfl, brace, bracket, read⟩ := skipScalar_complete ok stop
    rw [cons_append] at read ⊢
    rw [skipValueDepth, peek_cons]
    simp only [if_neg brace, if_neg bracket]
    exact read
  | emptyArray w blank =>
    rw [cons_append, append_assoc, skipValueDepth, peek_cons]
    simp only [if_neg (show ¬ openBracket = openBrace by decide), if_true, skipArray, expect_cons,
      bind_some, singleton_append,
      ws_to closeBracket blank rfl, peek_cons, tail_cons]
  | array js body items =>
    rw [cons_append, append_assoc, skipValueDepth, peek_cons]
    exact skipArray_complete _ P passes heads items
  | emptyObject w blank =>
    rw [cons_append, append_assoc, skipValueDepth, peek_cons]
    simp only [if_true, skipObject, expect_cons, bind_some, singleton_append, ws_to closeBrace blank rfl,
      peek_cons, tail_cons]
  | object ms body items =>
    rw [cons_append, append_assoc, skipValueDepth, peek_cons]
    exact skipObject_complete _ P passes heads items

/-- With `n + 1` levels the skipper passes over every value nested in at most `n`
containers. -/
theorem skip_passes (n : Nat) : Passes (skipValueDepth (n + 1)) (Value Body n) := by
  induction n with
  | zero =>
    refine skip_level _ ?_ ?_
    · intro _ _ impossible
      exact impossible.elim
    · intro _ _ _ impossible
      exact impossible.elim
  | succ n ih => exact skip_level _ (value_head n) ih

theorem skip_only_level (P : Json Bytes → Bytes → Prop)
    (only : Only (skipValueDepth left) P) : Only (skipValueDepth (left + 1)) (Layer Body P) := by
  intro rest rest' found
  rw [skipValueDepth] at found
  rcases head : peek rest with _ | b
  · simp [head] at found
  simp only [head] at found
  split_ifs at found
  · obtain ⟨ms, t, layer, shape⟩ := skipObject_sound _ P only rest rest' found
    exact ⟨_, t, layer, shape⟩
  · exact skipArray_sound _ P only rest rest' found
  · obtain ⟨j, t, ok, shape⟩ := skipScalar_sound found
    exact ⟨j, t, .scalar j t ok, shape⟩

theorem skip_only : Only (skipValueDepth (n + 1)) (Value Body n) := by
  induction n with
  | zero =>
    refine skip_only_level _ ?_
    intro _ _ impossible
    contradiction
  | succ n ih => exact skip_only_level _ ih

def Deep (j : Json Bytes) (t : Bytes) : Prop := ∃ n, Value Body n j t

theorem deep_head : Heads Deep := by
  rintro j t ⟨n, ok⟩
  exact value_head n j t ok

theorem deep_unique (ok : Deep j t) (ok' : Deep j' t')
    (stop : Stops rest) (stop' : Stops rest') (same : t ++ rest = t' ++ rest') : t = t' ∧ rest = rest' := by
  obtain ⟨n, ok⟩ := ok
  obtain ⟨m, ok'⟩ := ok'
  have first := skip_passes _ j t rest (value_mono (Nat.le_max_left n m) j t ok) stop
  have second := skip_passes _ j' t' rest' (value_mono (Nat.le_max_right n m) _ _ ok') stop'
  rw [same, second] at first
  cases first
  exact ⟨append_cancel_right same, rfl⟩

end Align.JsonSkip
