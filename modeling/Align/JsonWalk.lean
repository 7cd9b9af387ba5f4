import Align.JsonRecords
import Align.JsonIndexed

/-! The walk over an array of objects. Whatever a decoder does at the ends of the
records, the walk hands it one record after the other, each with the positions of
the colons of its own members and of no nested ones. -/
namespace Align.JsonWalk
open JsonText JsonParser JsonSkip JsonRecords JsonIndexed List Option
open JsonIndex (scanFrom isOp)
open Utf8Validate (Target)

theorem index_scan (target : Target) (pclmul : Bool) (src : Bytes) :
    jsonDecodeIndex target pclmul src = scanFrom false false 0 src := by
  unfold jsonDecodeIndex
  split
  · split_ifs
    · exact JsonIndex.avx2_scalar src
    · rfl
  · exact JsonIndex.neon_scalar src
  · rfl

variable {src rest : Bytes} {i : Nat} {b : UInt8}

theorem drop_tail (at' : src.drop i = b :: rest) :
    src.drop (i + 1) = rest := by
  rw [← drop_drop, at']
  rfl

variable {t : Bytes}

theorem drop_rest {rest : Bytes} {i : Nat} (at' : src.drop i = t ++ rest) :
    src.drop (i + t.length) = rest := by
  rw [← drop_drop, at', drop_left]

theorem drop_byte (at' : src.drop i = b :: rest) :
    src.getD i 0 = b := by
  have found : (src.drop i)[0]? = some b := by rw [at']; rfl
  rw [getElem?_drop, Nat.add_zero] at found
  rw [getD_eq_getElem?_getD, found, getD_some]

theorem drop_bound (at' : src.drop i = b :: rest) :
    i < src.length := by
  by_contra past
  rw [drop_eq_nil_of_le (by omega)] at at'
  contradiction

/-- Bytes the index leaves out and that open no string. -/
def Inert (b : UInt8) : Prop := b ≠ quote ∧ b ≠ backslash ∧ isOp b = false

theorem inert_all (checked : t.all (fun b => decide (b ≠ quote ∧ b ≠ backslash ∧ isOp b = false)) = true) :
    ∀ b ∈ t, Inert b := by
  intro b member
  have inert := List.all_eq_true.mp checked b member
  rw [decide_eq_true_eq] at inert
  exact inert

variable (b : UInt8) (rest : Bytes) (i : Nat)

theorem scan_inert (inert : Inert b) :
    scanFrom false false i (b :: rest) = scanFrom false false (i + 1) rest := by
  obtain ⟨plain, clean, other⟩ := inert
  have plain' : (b == JsonIndex.quote) = false := beq_eq_false_iff_ne.mpr plain
  have clean' : (b == JsonIndex.backslash) = false := beq_eq_false_iff_ne.mpr clean
  simp [scanFrom, plain', clean', other]

theorem scan_plain (plain : b ≠ quote ∧ b ≠ backslash) :
    scanFrom true false i (b :: rest) = scanFrom true false (i + 1) rest := by
  have plain' : (b == JsonIndex.quote) = false := beq_eq_false_iff_ne.mpr plain.1
  have clean' : (b == JsonIndex.backslash) = false := beq_eq_false_iff_ne.mpr plain.2
  simp [scanFrom, plain', clean']

theorem scan_escape (e : UInt8) (rest : Bytes) (i : Nat) :
    scanFrom true false i (backslash :: e :: rest) = scanFrom true false (i + 2) rest := by
  have mark : (backslash == JsonIndex.backslash) = true := by decide
  have other : (backslash == JsonIndex.quote) = false := by decide
  simp [scanFrom, mark, other]

theorem scan_body (rest : Bytes) (body : Body raw text) (i : Nat) :
    scanFrom true false i (raw ++ quote :: rest) = scanFrom false false (i + (raw.length + 1)) rest := by
  induction body generalizing i with
  | nil =>
    have mark : (quote == JsonIndex.quote) = true := by decide
    have other : (quote == JsonIndex.backslash) = false := by decide
    simp [scanFrom, mark, other]
  | plain b raw text ok _ ih =>
    rw [cons_append, scan_plain b _ i ok.2, ih, length_cons]
    congr 1
    omega
  | short e v raw text ok _ ih =>
    rw [cons_append, cons_append, scan_escape, ih, length_cons, length_cons]
    congr 1
    omega
  | unit a b c d cp raw text hex _ _ _ ih =>
    obtain ⟨pa, pb, pc, pd⟩ := hex4_plain hex
    simp only [cons_append]
    rw [scan_escape, scan_plain a _ _ pa, scan_plain b _ _ pb, scan_plain c _ _ pc, scan_plain d _ _ pd, ih]
    congr 1
    simp only [length_cons]
    omega
  | pair a b c d a' b' c' d' high low raw text hex _ hex' _ _ ih =>
    obtain ⟨pa, pb, pc, pd⟩ := hex4_plain hex
    obtain ⟨pa', pb', pc', pd'⟩ := hex4_plain hex'
    simp only [cons_append]
    rw [scan_escape, scan_plain a _ _ pa, scan_plain b _ _ pb, scan_plain c _ _ pc, scan_plain d _ _ pd,
      scan_escape, scan_plain _ _ _ pa', scan_plain _ _ _ pb', scan_plain _ _ _ pc', scan_plain _ _ _ pd', ih]
    congr 1
    simp only [length_cons]
    omega

theorem scan_string (rest : Bytes) (body : Body raw text) (i : Nat) :
    scanFrom false false i (quoted raw ++ rest) = scanFrom false false (i + (quoted raw).length) rest := by
  have mark : (quote == JsonIndex.quote) = true := by decide
  have other : (quote == JsonIndex.backslash) = false := by decide
  have opened : scanFrom false false i (quoted raw ++ rest) =
    scanFrom true false (i + 1) (raw ++ quote :: rest) := by
    simp [quoted, scanFrom, mark, other]
  rw [opened, scan_body _ body]
  congr 1
  simp [quoted]
  omega

theorem scan_op (op : isOp b = true) :
    scanFrom false false i (b :: rest) = UInt32.ofNat i :: scanFrom false false (i + 1) rest := by
  have plain := JsonIndex.op_not_quote op
  have clean : (b == JsonIndex.backslash) = false := by
    simp only [isOp, Bool.or_eq_true, beq_iff_eq] at op
    rcases op with (((rfl | rfl) | rfl) | rfl) | rfl <;> decide
  simp [scanFrom, plain, clean, op]

section Walking
variable {S : Type} (h : Handler S) (src : Bytes)

/-- The walk over what the index holds from a position on. -/
def walkFrom (i : Nat) (w : Walk S) : Option (Walk S) := walk h src (scanFrom false false i (src.drop i)) w

/-- Wherever the text stands, the walk comes out behind it in the second state. -/
def Crosses (t : Bytes) (w w' : Walk S) : Prop :=
  ∀ i rest, src.drop i = t ++ rest → walkFrom h src i w = walkFrom h src (i + t.length) w'

theorem crosses_nil (w : Walk S) : Crosses h src [] w w := fun _ _ _ => rfl

variable {h src} in
theorem crosses_append {t u : Bytes} {w w' w'' : Walk S} (first : Crosses h src t w w')
    (second : Crosses h src u w' w'') : Crosses h src (t ++ u) w w'' := by
  intro i rest at'
  rw [append_assoc] at at'
  rw [first i _ at', second _ rest (drop_rest at'), length_append, Nat.add_assoc]

theorem crosses_inert (inert : ∀ b ∈ t, Inert b) (w : Walk S) : Crosses h src t w w := by
  induction t with
  | nil => exact crosses_nil h _ w
  | cons b t ih =>
    refine crosses_append (t := [b]) ?_ (ih (forall_mem_cons.mp inert).2)
    intro i rest at'
    rw [walkFrom, walkFrom, at', drop_rest at', singleton_append,
      scan_inert b _ i (inert b (mem_cons_self ..))]
    rfl

theorem crosses_string (body : Body raw text) (w : Walk S) :
    Crosses h src (quoted raw) w w := by
  intro i rest at'
  rw [walkFrom, walkFrom, at', drop_rest at', scan_string _ body]

theorem ws_inert (blank : Ws t) : ∀ b ∈ t, Inert b := by
  intro b member
  have space := blank b member
  simp only [isWs, Bool.or_eq_true, beq_iff_eq] at space
  rcases space with ((rfl | rfl) | rfl) | rfl <;> exact ⟨by decide, by decide, by decide⟩

theorem digit_inert (b : UInt8) (digit : isDigit b = true) : Inert b := by
  simp only [isDigit, Bool.and_eq_true, decide_eq_true_eq] at digit
  have bounds : 0x30 ≤ b.toNat ∧ b.toNat ≤ 0x39 := ⟨digit.1, digit.2⟩
  have other : ∀ c : UInt8, (c.toNat < 0x30 ∨ 0x39 < c.toNat) → b ≠ c := by
    rintro c far rfl
    omega
  refine ⟨other quote (by decide), other backslash (by decide), ?_⟩
  simp only [isOp, Bool.or_eq_false_iff, beq_eq_false_iff_ne]
  exact ⟨⟨⟨⟨other _ (by decide), other _ (by decide)⟩, other _ (by decide)⟩, other _ (by decide)⟩,
    other _ (by decide)⟩

theorem digits_inert (digits : Digits t) : ∀ b ∈ t, Inert b :=
  fun b member => digit_inert b (digits.2 b member)

theorem sign_inert : ∀ b ∈ [(0x2B : UInt8), 0x2D, 0x2E, 0x65, 0x45, 0x2C], Inert b := inert_all (by decide)

theorem number_inert (t : Bytes) (number : Number t) : ∀ b ∈ t, Inert b := by
  obtain ⟨sign, int, frac, exp, signed, int', fraction, exponent, rfl⟩ := number
  simp only [forall_mem_append]
  refine ⟨?_, digits_inert int'.1, ?_, ?_⟩
  · rcases signed with rfl | rfl <;> exact inert_all (by decide)
  · rcases fraction with rfl | ⟨ds, digits, rfl⟩
    · exact forall_mem_nil _
    · exact forall_mem_cons.mpr ⟨sign_inert _ (by decide), digits_inert digits⟩
  · rcases exponent with rfl | ⟨e, sign, ds, letter, signed, digits, rfl⟩
    · exact forall_mem_nil _
    refine forall_mem_cons.mpr ⟨?_, forall_mem_append.mpr ⟨?_, digits_inert digits⟩⟩
    · rcases letter with rfl | rfl <;> exact sign_inert _ (by decide)
    · rcases signed with rfl | rfl | rfl <;> exact inert_all (by decide)

theorem crosses_scalar (t : Bytes) (scalar : Scalar Body j t) (w : Walk S) :
    Crosses h src t w w := by
  cases scalar with
  | null => exact crosses_inert h _ (inert_all (by decide)) w
  | true => exact crosses_inert h _ (inert_all (by decide)) w
  | false => exact crosses_inert h _ (inert_all (by decide)) w
  | number span ok => exact crosses_inert h _ (number_inert _ ok) w
  | string raw text ok => exact crosses_string h _ ok w

variable (small : src.length < 2 ^ 32)
include small

theorem walkFrom_op {i : Nat} {b : UInt8} {rest : Bytes} (at' : src.drop i = b :: rest) (op : isOp b = true)
    (w : Walk S) :
    walkFrom h src i w =
      (step h src i (scanFrom false false (i + 1) rest).isEmpty w).bind (walkFrom h src (i + 1)) := by
  have bound := drop_bound at'
  have position : (UInt32.ofNat i).toNat = i := by
    exact Nat.mod_eq_of_lt (by omega)
  rw [walkFrom, at', scan_op b _ i op, walk, position]
  congr 1
  funext w'
  rw [walkFrom, drop_tail at']

variable {w : Walk S}

theorem crosses_mark {b : UInt8} (op : isOp b = true)
    (stepped : ∀ i last, src.getD i 0 = b → step h src i last w = some w') : Crosses h src [b] w w' := by
  intro i rest at'
  rw [walkFrom_op h _ small at' op, stepped i _ (drop_byte at'), bind_some]
  rfl

/-- The walk one level further down, or up. -/
def Deeper (w : Walk S) : Walk S := { w with depth := w.depth + 1 }

theorem crosses_open (b : UInt8) (opens : b = openBracket ∨ b = openBrace) (w : Walk S) (inside : 2 ≤ w.depth) :
    Crosses h src [b] w (Deeper w) := by
  have notArray : w.depth + 1 ≠ 1 := by omega
  have notRecord : w.depth + 1 ≠ 2 := by omega
  rcases opens with rfl | rfl
  · refine crosses_mark h _ small (by decide) fun i last byte => ?_
    rw [step, byte, if_pos rfl, if_neg notArray]
    rfl
  · refine crosses_mark h _ small (by decide) fun i last byte => ?_
    rw [step, byte, if_neg (by decide), if_pos rfl, if_neg notRecord]
    rfl

theorem crosses_close (b : UInt8) (closes : b = closeBracket ∨ b = closeBrace) (w : Walk S) (inside : 2 ≤ w.depth) :
    Crosses h src [b] (Deeper w) w := by
  have notArray : w.depth + 1 - 1 ≠ 0 := by omega
  have notRecord : w.depth + 1 ≠ 2 := by omega
  have back : ({ w with depth := w.depth + 1 - 1 } : Walk S) = w := by rw [Int.add_sub_cancel]
  rcases closes with rfl | rfl
  · refine crosses_mark h _ small (by decide) fun i last byte => ?_
    rw [step, byte, if_neg (by decide), if_neg (by decide), if_neg fun named => absurd named.1 (by decide),
      if_neg (by decide), if_pos rfl]
    exact (if_neg notArray).trans (congrArg some back)
  · refine crosses_mark h _ small (by decide) fun i last byte => ?_
    rw [step, byte, if_neg (by decide), if_neg (by decide), if_neg fun named => absurd named.1 (by decide),
      if_pos rfl]
    exact (if_neg notRecord).trans (congrArg some back)

theorem crosses_colon (w : Walk S) (inside : 2 ≤ w.depth) : Crosses h src [colon] (Deeper w) (Deeper w) := by
  have notRecord : w.depth + 1 ≠ 2 := by omega
  refine crosses_mark h _ small (by decide) fun i last byte => ?_
  rw [step, byte, if_neg (by decide), if_neg (by decide), if_neg fun named => notRecord named.2,
    if_neg (by decide), if_neg (by decide)]

omit small in
theorem crosses_blank (blank : Ws v) (w : Walk S) : Crosses h src v w w := crosses_inert h _ (ws_inert blank) w

omit small in
theorem crosses_comma (w : Walk S) : Crosses h src [comma] w w := crosses_inert h _ (inert_all (by decide)) w

section Layers
variable (P : Json Bytes → Bytes → Prop)
  (crosses : ∀ j t, P j t → ∀ w : Walk S, 2 ≤ w.depth → Crosses h src t w w)
include crosses

variable {body : Bytes}

omit small in
theorem crosses_elements (items : Elements P js body) (inside : 2 ≤ w.depth) : Crosses h src body w w := by
  induction items with
  | last v t v' j before value after =>
    have item := crosses j t value w inside
    exact crosses_append (crosses_blank h _ before _) (crosses_append item (crosses_blank h _ after _))
  | more v t v' body j js before value after _ ih =>
    have item := crosses j t value w inside
    have tail := crosses_append (crosses_comma h _ _) ih
    exact crosses_append (crosses_blank h _ before _) (crosses_append item
      (crosses_append (crosses_blank h _ after _) tail))

theorem crosses_members (items : Members Body P ms body) (inside : 2 ≤ w.depth) : Crosses h src body (Deeper w) (Deeper w) := by
  have deeper : 2 ≤ (Deeper w).depth := by
    show 2 ≤ w.depth + 1
    omega
  -- a member up to its value, before whatever is crossed behind it
  have member : ∀ {v raw v₁ v₂ t key j rest}, Ws v → Body raw key → Ws v₁ → Ws v₂ → P j t →
      Crosses h src rest (Deeper w) (Deeper w) →
      Crosses h src (v ++ (quoted raw ++ (v₁ ++ colon :: (v₂ ++ (t ++ rest))))) (Deeper w) (Deeper w) := by
    intro v raw v₁ v₂ t key j rest before name behind gap value crossed
    have item := crosses_append (crosses j t value _ deeper) crossed
    have named := crosses_append (crosses_colon h _ small w inside)
      (crosses_append (crosses_blank h _ gap _) item)
    exact crosses_append (crosses_blank h _ before _) (crosses_append
      (crosses_string h _ name _) (crosses_append (crosses_blank h _ behind _) named))
  induction items with
  | last v raw v₁ v₂ t v' key j before name behind gap value after =>
    exact member before name behind gap value (crosses_blank h _ after _)
  | more v raw v₁ v₂ t v' body key j ms before name behind gap value after _ ih =>
    have tail := crosses_append (crosses_comma h _ _) ih
    exact member before name behind gap value (crosses_append (crosses_blank h _ after _) tail)

theorem crosses_layer (layer : Layer Body P j t) (inside : 2 ≤ w.depth) : Crosses h src t w w := by
  have deeper : 2 ≤ (Deeper w).depth := by
    show 2 ≤ w.depth + 1
    omega
  -- an opening mark, something crossed one level down, and the closing mark
  have container : ∀ b body b', (b = openBracket ∨ b = openBrace) → (b' = closeBracket ∨ b' = closeBrace) →
    Crosses h src body (Deeper w) (Deeper w) → Crosses h src (b :: (body ++ [b'])) w w := by
    intro b body b' opens closes inner
    exact crosses_append (crosses_open h _ small b opens w inside)
      (crosses_append inner (crosses_close h _ small _ closes w inside))
  cases layer with
  | scalar j t ok => exact crosses_scalar h _ t ok w
  | emptyArray v blank =>
    exact container _ v _ (Or.inl rfl) (Or.inl rfl) (crosses_inert h _ (ws_inert blank) _)
  | emptyObject v blank =>
    exact container _ v _ (Or.inr rfl) (Or.inr rfl) (crosses_inert h _ (ws_inert blank) _)
  | array js body items =>
    exact container _ body _ (Or.inl rfl) (Or.inl rfl) (crosses_elements h _ P crosses items deeper)
  | object ms body items =>
    exact container _ body _ (Or.inr rfl) (Or.inr rfl) (crosses_members h _ small P crosses items inside)

end Layers

theorem crosses_value (j : Json Bytes) (t : Bytes) (ok : Value Body n j t) (w : Walk S)
    (inside : 2 ≤ w.depth) : Crosses h src t w w := by
  induction n generalizing j t w with
  | zero => exact crosses_layer h _ small _ (fun _ _ impossible => impossible.elim) ok inside
  | succ n ih => exact crosses_layer h _ small _ ih ok inside

/-- The colon of a member that begins at `i`. -/
def colonAt (i : Nat) (m : Member) : Nat := i + (m.before ++ (quoted m.raw ++ m.behind)).length

def colonsOf : Nat → List Member → List Nat
  | _, [] => []
  | i, m :: ms => colonAt i m :: colonsOf (i + (m.spell.length + 1)) ms

theorem walk_member {i : Nat} {rest : Bytes} (at' : src.drop i = m.spell ++ rest) (s : S) :
    walkFrom h src i ⟨2, cols, s⟩ = walkFrom h src (i + m.spell.length) ⟨2, cols ++ [colonAt i m], s⟩ := by
  obtain ⟨n, ok⟩ := m.value
  have front : ∀ w : Walk S, Crosses h src (m.before ++ (quoted m.raw ++ m.behind)) w w := fun w =>
    crosses_append (crosses_blank h _ m.beforeBlank w)
      (crosses_append (crosses_string h _ m.name w) (crosses_blank h _ m.behindBlank w))
  have back : ∀ w : Walk S, 2 ≤ w.depth → Crosses h src (m.gap ++ (m.text ++ m.after)) w w := fun w inside =>
    crosses_append (crosses_blank h _ m.gapBlank w)
      (crosses_append (crosses_value h _ small _ _ ok w inside)
        (crosses_blank h _ m.afterBlank w))
  have shape : m.spell = (m.before ++ (quoted m.raw ++ m.behind)) ++ colon :: (m.gap ++ (m.text ++ m.after)) := by
    simp [Member.spell]
  rw [shape, append_assoc, cons_append] at at'
  have marked : src.drop (colonAt i m) = _ := drop_rest at'
  have stepped : ∀ last, step h src (colonAt i m) last ⟨2, cols, s⟩ =
    some ⟨2, cols ++ [colonAt i m], s⟩ := by
    intro last
    rw [step, drop_byte marked, if_neg (by decide), if_neg (by decide), if_pos ⟨rfl, rfl⟩]
  have length : i + m.spell.length = colonAt i m + 1 + (m.gap ++ (m.text ++ m.after)).length := by
    rw [shape, length_append, length_cons, colonAt]
    omega
  rw [front _ i _ at', ← colonAt, walkFrom_op h _ small marked (by decide), stepped,
    bind_some, back _ (by simp) _ _ (drop_tail marked), length]

theorem walk_members (i : Nat) (filled : ms ≠ []) {rest : Bytes}
    (at' : src.drop i = spellMembers ms ++ rest) (cols : List Nat) (s : S) :
    walkFrom h src i ⟨2, cols, s⟩ = walkFrom h src (i + (spellMembers ms).length) ⟨2, cols ++ colonsOf i ms, s⟩ := by
  induction ms generalizing i cols with
  | nil => contradiction
  | cons m ms ih =>
    by_cases last : ms = []
    · subst last
      exact walk_member h _ small at' s
    rw [spellMembers_cons m last] at at' ⊢
    rw [append_assoc, cons_append] at at'
    have behind := drop_rest at'
    rw [walk_member h _ small at' s, crosses_comma h _ _ _ _ behind,
      ih _ last (drop_rest (t := [comma]) behind), colonsOf, length_append, length_singleton, length_cons,
      append_assoc, singleton_append, Nat.add_assoc i]
    congr 1
    omega

variable (i : Nat) (r : Record) {rest : Bytes}

theorem walk_body (at' : src.drop i = r.body ++ rest) (s : S) :
    walkFrom h src i ⟨2, [], s⟩ = walkFrom h src (i + r.body.length) ⟨2, colonsOf i r.members, s⟩ := by
  unfold Record.body at at' ⊢
  split_ifs at at' ⊢ with empty
  · rw [empty]
    exact crosses_inert h _ (ws_inert r.blankBlank) _ i rest at'
  · exact walk_members h _ small i empty at' [] s

theorem walk_record (at' : src.drop i = r.text ++ rest) (cols : List Nat) (s : S) :
    walkFrom h src i ⟨1, cols, s⟩ =
      (h.recordCloses (colonsOf (i + 1) r.members) (h.recordOpens s)).bind fun s' =>
        walkFrom h src (i + r.text.length) ⟨1, colonsOf (i + 1) r.members, s'⟩ := by
  rw [Record.text, cons_append, append_assoc, singleton_append] at at'
  have inner := drop_tail at'
  have closing := drop_rest inner
  have opened : ∀ last, step h src i last ⟨1, cols, s⟩ = some ⟨2, [], h.recordOpens s⟩ := by
    intro last
    rw [step, drop_byte at', if_neg (by decide), if_pos rfl]
    exact if_pos rfl
  have closed : ∀ last, step h src (i + 1 + r.body.length) last
    ⟨2, colonsOf (i + 1) r.members, h.recordOpens s⟩ =
    (h.recordCloses (colonsOf (i + 1) r.members) (h.recordOpens s)).map fun s' =>
      ⟨1, colonsOf (i + 1) r.members, s'⟩ := by
    intro last
    rw [step, drop_byte closing, if_neg (by decide), if_neg (by decide),
      if_neg fun named => absurd named.1 (by decide), if_pos rfl]
    exact if_pos rfl
  rw [walkFrom_op h _ small at' (by decide), opened, bind_some,
    walk_body h _ small _ r inner, walkFrom_op h _ small closing (by decide), closed,
    bind_map]
  have length : i + r.text.length = i + 1 + r.body.length + 1 := by
    simp [Record.text]
    omega
  rw [length]
  rfl

/-- The records one after the other, the first beginning at `i`. -/
def decodeAll (h : Handler S) : Nat → List Record → S → Option S
  | _, [], s => some s
  | i, r :: rs, s =>
      (h.recordCloses (colonsOf (i + r.before.length + 1) r.members) (h.recordOpens s)).bind
        (decodeAll h (i + (r.spell.length + 1)) rs)

/-- The colons the walk still holds behind the records. -/
def lastColons : Nat → List Nat → List Record → List Nat
  | _, cols, [] => cols
  | i, _, r :: rs => lastColons (i + (r.spell.length + 1)) (colonsOf (i + r.before.length + 1) r.members) rs

theorem walk_spell (at' : src.drop i = r.spell ++ rest) (s : S) :
    walkFrom h src i ⟨1, cols, s⟩ =
      (h.recordCloses (colonsOf (i + r.before.length + 1) r.members) (h.recordOpens s)).bind fun s' =>
        walkFrom h src (i + r.spell.length) ⟨1, colonsOf (i + r.before.length + 1) r.members, s'⟩ := by
  rw [Record.spell, append_assoc, append_assoc] at at'
  have text := drop_rest at'
  have behind := drop_rest text
  have length : i + r.spell.length = i + r.before.length + r.text.length + r.after.length := by
    simp [Record.spell]
    omega
  rw [crosses_blank h _ r.beforeBlank _ i _ at', walk_record h _ small _ r text, length]
  congr 1
  funext s'
  exact crosses_blank h _ r.afterBlank _ _ _ behind

theorem walk_records (filled : rs ≠ []) {rest : Bytes}
    (at' : src.drop i = spellRecords rs ++ rest) (cols : List Nat) (s : S) :
    walkFrom h src i ⟨1, cols, s⟩ =
      (decodeAll h i rs s).bind fun s' =>
        walkFrom h src (i + (spellRecords rs).length) ⟨1, lastColons i cols rs, s'⟩ := by
  induction rs generalizing i cols s with
  | nil => contradiction
  | cons r rs ih =>
    by_cases last : rs = []
    · subst last
      rw [walk_spell h _ small i r at' s]
      simp only [decodeAll, bind_fun_some]
      rfl
    · rw [spellRecords_cons r last, append_assoc, cons_append] at at'
      have behind := drop_rest at'
      have next : src.drop (i + (r.spell.length + 1)) = spellRecords rs ++ rest := drop_tail behind
      rw [walk_spell h _ small i r at' s, decodeAll, bind_assoc]
      congr 1
      funext s'
      rw [crosses_comma h _ _ _ _ behind, length_singleton, Nat.add_assoc, ih _ last next, spellRecords_cons r last,
        length_append, length_cons]
      congr 1
      funext s''
      congr 1
      omega

omit small in
theorem scan_blank (blank : Ws v) (i : Nat) : scanFrom false false i v = [] := by
  induction v generalizing i with
  | nil => rfl
  | cons b v ih =>
    rw [scan_inert b v i (ws_inert blank b (mem_cons_self ..))]
    exact ih (forall_mem_cons.mp blank).2 _

theorem walk_items (a : RecordArray) (i : Nat) (rest : Bytes) (at' : src.drop i = a.body ++ rest)
    (cols : List Nat) (s : S) :
    walkFrom h src i ⟨1, cols, s⟩ =
      (decodeAll h i a.records s).bind fun s' =>
        walkFrom h src (i + a.body.length) ⟨1, lastColons i cols a.records, s'⟩ := by
  unfold RecordArray.body at at' ⊢
  split_ifs at at' ⊢ with empty
  · rw [empty, decodeAll, bind_some]
    exact crosses_inert h _ (ws_inert a.blankBlank) _ i rest at'
  · exact walk_records h _ small i empty at' _ s

omit small in
theorem walk_array (a : RecordArray) (small : a.spell.length < 2 ^ 32) (s : S) :
    walk h a.spell (scanFrom false false 0 a.spell) ⟨0, [], s⟩ =
      (decodeAll h (a.before.length + 1) a.records (h.arrayOpens s)).bind fun s' =>
        (h.arrayCloses (a.before.length + 1 + a.body.length) true s').map fun s'' =>
          ⟨0, lastColons (a.before.length + 1) [] a.records, s''⟩ := by
  have start : a.spell.drop 0 = a.before ++ openBracket :: (a.body ++ closeBracket :: a.after) := rfl
  have opening := drop_rest start
  rw [Nat.zero_add] at opening
  have inner := drop_tail opening
  have closing := drop_rest inner
  have opened : ∀ last, step h a.spell a.before.length last ⟨0, [], s⟩ = some ⟨1, [], h.arrayOpens s⟩ := by
    intro last
    rw [step, drop_byte opening, if_pos rfl]
    rfl
  have closed : ∀ cols s', step h a.spell (a.before.length + 1 + a.body.length) true ⟨1, cols, s'⟩ =
      (h.arrayCloses (a.before.length + 1 + a.body.length) true s').map fun s'' => ⟨0, cols, s''⟩ := by
    intro cols s'
    rw [step, drop_byte closing, if_neg (by decide), if_neg (by decide),
      if_neg fun named => absurd named.1 (by decide), if_neg (by decide), if_pos rfl]
    exact if_pos rfl
  have ended : ∀ w, walkFrom h a.spell (a.before.length + 1 + a.body.length + 1) w = some w := by
    intro w
    rw [walkFrom, drop_tail closing, scan_blank a.afterBlank, walk]
  calc walk h a.spell (scanFrom false false 0 a.spell) ⟨0, [], s⟩
      = walkFrom h a.spell a.before.length ⟨0, [], s⟩ := by
        have crossed := crosses_inert h _ (ws_inert a.beforeBlank) ⟨0, [], s⟩ 0 _ start
        rw [Nat.zero_add] at crossed
        exact crossed
    _ = walkFrom h a.spell (a.before.length + 1) ⟨1, [], h.arrayOpens s⟩ := by
        rw [walkFrom_op h _ small opening (by decide), opened, bind_some]
    _ = _ := by
        rw [walk_items h _ small a _ _ inner [] (h.arrayOpens s)]
        congr 1
        funext s'
        rw [walkFrom_op h _ small closing (by decide), scan_blank a.afterBlank,
          isEmpty_nil, closed, bind_map]
        cases h.arrayCloses (a.before.length + 1 + a.body.length) true s' with
        | none => rfl
        | some s'' => exact ended _

end Walking

end Align.JsonWalk
