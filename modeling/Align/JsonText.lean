import Mathlib

/-! The JSON grammar of RFC 8259 over bytes, as relations between a tree and the
text that spells it. What a string body may contain and what it stands for is a
parameter: the RFC admits any four hex digits behind `\u`, a reader that must
produce Unicode text needs surrogates in pairs. -/
namespace Align.JsonText

abbrev Bytes := List UInt8

def quote : UInt8 := 0x22
def backslash : UInt8 := 0x5C
def comma : UInt8 := 0x2C
def colon : UInt8 := 0x3A
def openBrace : UInt8 := 0x7B
def closeBrace : UInt8 := 0x7D
def openBracket : UInt8 := 0x5B
def closeBracket : UInt8 := 0x5D

def isWs (b : UInt8) : Bool := b == 0x20 || b == 0x09 || b == 0x0A || b == 0x0D

def isDigit (b : UInt8) : Bool := 0x30 ≤ b && b ≤ 0x39

def Ws (t : Bytes) : Prop := ∀ b ∈ t, isWs b = true

def Digits (t : Bytes) : Prop := t ≠ [] ∧ ∀ b ∈ t, isDigit b = true

/-- No leading zero in front of further digits. -/
def IntPart (t : Bytes) : Prop := Digits t ∧ ¬ (1 < t.length ∧ t.head? = some 0x30)

def Fraction (t : Bytes) : Prop := t = [] ∨ ∃ ds, Digits ds ∧ t = 0x2E :: ds

def Exponent (t : Bytes) : Prop :=
  t = [] ∨ ∃ e sign ds, (e = 0x65 ∨ e = 0x45) ∧ (sign = [] ∨ sign = [0x2B] ∨ sign = [0x2D]) ∧
    Digits ds ∧ t = e :: (sign ++ ds)

def Number (t : Bytes) : Prop :=
  ∃ sign int frac exp, (sign = [] ∨ sign = [0x2D]) ∧ IntPart int ∧ Fraction frac ∧ Exponent exp ∧
    t = sign ++ (int ++ (frac ++ exp))

/-- The two-character escapes other than `\u`. -/
def shortEscape (e : UInt8) : Option UInt8 :=
  if e = 0x22 then some 0x22
  else if e = 0x5C then some 0x5C
  else if e = 0x2F then some 0x2F
  else if e = 0x62 then some 0x08
  else if e = 0x66 then some 0x0C
  else if e = 0x6E then some 0x0A
  else if e = 0x72 then some 0x0D
  else if e = 0x74 then some 0x09
  else none

def hexDigit (b : UInt8) : Option Nat :=
  if 0x30 ≤ b ∧ b ≤ 0x39 then some (b.toNat - 0x30)
  else if 0x61 ≤ b ∧ b ≤ 0x66 then some (b.toNat - 0x61 + 10)
  else if 0x41 ≤ b ∧ b ≤ 0x46 then some (b.toNat - 0x41 + 10)
  else none

def hex4 (a b c d : UInt8) : Option Nat := do
  let a ← hexDigit a
  let b ← hexDigit b
  let c ← hexDigit c
  let d ← hexDigit d
  return ((a * 16 + b) * 16 + c) * 16 + d

def IsHigh (cp : Nat) : Prop := 0xD800 ≤ cp ∧ cp ≤ 0xDBFF

def IsLow (cp : Nat) : Prop := 0xDC00 ≤ cp ∧ cp ≤ 0xDFFF

instance (cp : Nat) : Decidable (IsHigh cp) := inferInstanceAs (Decidable (_ ∧ _))

instance (cp : Nat) : Decidable (IsLow cp) := inferInstanceAs (Decidable (_ ∧ _))

def IsPlain (b : UInt8) : Prop := 0x20 ≤ b ∧ b ≠ quote ∧ b ≠ backslash

/-- The scalar value of a surrogate pair. -/
def pairValue (high low : Nat) : Nat := 0x10000 + (high - 0xD800) * 1024 + (low - 0xDC00)

def utf8 (scalar : Nat) : Bytes := String.utf8EncodeChar (Char.ofNat scalar)

/-- A string body and the text it stands for, surrogates in pairs. -/
inductive Body : Bytes → Bytes → Prop where
  | nil : Body [] []
  | plain (b : UInt8) (raw text : Bytes) (ok : IsPlain b) (rest : Body raw text) :
      Body (b :: raw) (b :: text)
  | short (e v : UInt8) (raw text : Bytes) (ok : shortEscape e = some v) (rest : Body raw text) :
      Body (backslash :: e :: raw) (v :: text)
  | unit (a b c d : UInt8) (cp : Nat) (raw text : Bytes) (hex : hex4 a b c d = some cp)
      (notHigh : ¬ IsHigh cp) (notLow : ¬ IsLow cp) (rest : Body raw text) :
      Body (backslash :: 0x75 :: a :: b :: c :: d :: raw) (utf8 cp ++ text)
  | pair (a b c d a' b' c' d' : UInt8) (high low : Nat) (raw text : Bytes)
      (hex : hex4 a b c d = some high) (isHigh : IsHigh high)
      (hex' : hex4 a' b' c' d' = some low) (isLow : IsLow low) (rest : Body raw text) :
      Body (backslash :: 0x75 :: a :: b :: c :: d ::
        backslash :: 0x75 :: a' :: b' :: c' :: d' :: raw) (utf8 (pairValue high low) ++ text)

/-- The string bodies of the RFC's own grammar: any `\u` escape stands. -/
inductive RfcBody : Bytes → Prop where
  | nil : RfcBody []
  | plain (b : UInt8) (raw : Bytes) (ok : IsPlain b) (rest : RfcBody raw) : RfcBody (b :: raw)
  | short (e v : UInt8) (raw : Bytes) (ok : shortEscape e = some v) (rest : RfcBody raw) :
      RfcBody (backslash :: e :: raw)
  | unit (a b c d : UInt8) (cp : Nat) (raw : Bytes) (hex : hex4 a b c d = some cp)
      (rest : RfcBody raw) : RfcBody (backslash :: 0x75 :: a :: b :: c :: d :: raw)

/-- Trees whose strings carry a `σ`; object members keep their order and their
duplicates. -/
inductive Json (σ : Type) where
  | null
  | bool (value : Bool)
  | number (span : Bytes)
  | string (value : σ)
  | array (items : List (Json σ))
  | object (members : List (σ × Json σ))

section Grammar
variable {σ : Type} (Str : Bytes → σ → Prop)

def quoted (raw : Bytes) : Bytes := quote :: (raw ++ [quote])

inductive Scalar : Json σ → Bytes → Prop where
  | null : Scalar .null [0x6E, 0x75, 0x6C, 0x6C]
  | true : Scalar (.bool true) [0x74, 0x72, 0x75, 0x65]
  | false : Scalar (.bool false) [0x66, 0x61, 0x6C, 0x73, 0x65]
  | number (span : Bytes) (ok : Number span) : Scalar (.number span) span
  | string (raw : Bytes) (value : σ) (ok : Str raw value) : Scalar (.string value) (quoted raw)

/-- One or more values between commas, white space around each. -/
inductive Elements (P : Json σ → Bytes → Prop) : List (Json σ) → Bytes → Prop where
  | last (w t w' : Bytes) (j : Json σ) (before : Ws w) (value : P j t) (after : Ws w') :
      Elements P [j] (w ++ (t ++ w'))
  | more (w t w' body : Bytes) (j : Json σ) (js : List (Json σ)) (before : Ws w) (value : P j t)
      (after : Ws w') (rest : Elements P js body) :
      Elements P (j :: js) (w ++ (t ++ (w' ++ comma :: body)))

/-- One or more `"key": value` members between commas. -/
inductive Members (P : Json σ → Bytes → Prop) : List (σ × Json σ) → Bytes → Prop where
  | last (w raw w₁ w₂ t w' : Bytes) (key : σ) (j : Json σ) (before : Ws w) (name : Str raw key)
      (behind : Ws w₁) (gap : Ws w₂) (value : P j t) (after : Ws w') :
      Members P [(key, j)] (w ++ (quoted raw ++ (w₁ ++ colon :: (w₂ ++ (t ++ w')))))
  | more (w raw w₁ w₂ t w' body : Bytes) (key : σ) (j : Json σ) (js : List (σ × Json σ))
      (before : Ws w) (name : Str raw key) (behind : Ws w₁) (gap : Ws w₂) (value : P j t)
      (after : Ws w') (rest : Members P js body) :
      Members P ((key, j) :: js)
        (w ++ (quoted raw ++ (w₁ ++ colon :: (w₂ ++ (t ++ (w' ++ comma :: body))))))

/-- One level of the grammar over the values `P` allowed inside containers. -/
inductive Layer (P : Json σ → Bytes → Prop) : Json σ → Bytes → Prop where
  | scalar (j : Json σ) (t : Bytes) (ok : Scalar Str j t) : Layer P j t
  | emptyArray (w : Bytes) (blank : Ws w) : Layer P (.array []) (openBracket :: (w ++ [closeBracket]))
  | array (js : List (Json σ)) (body : Bytes) (items : Elements P js body) :
      Layer P (.array js) (openBracket :: (body ++ [closeBracket]))
  | emptyObject (w : Bytes) (blank : Ws w) : Layer P (.object []) (openBrace :: (w ++ [closeBrace]))
  | object (ms : List (σ × Json σ)) (body : Bytes) (items : Members Str P ms body) :
      Layer P (.object ms) (openBrace :: (body ++ [closeBrace]))

/-- Values in which no value lies inside more than `n` containers. -/
def Value : Nat → Json σ → Bytes → Prop
  | 0 => Layer Str fun _ _ => False
  | n + 1 => Layer Str (Value n)

/-- A whole text: one value, white space around it. -/
def Text (n : Nat) (j : Json σ) (t : Bytes) : Prop :=
  ∃ w v w', Ws w ∧ Value Str n j v ∧ Ws w' ∧ t = w ++ (v ++ w')

end Grammar

mutual

/-- How many containers lie inside one another at most. -/
def levels {σ : Type} : Json σ → Nat
  | .array items => 1 + levelsOfItems items
  | .object members => 1 + levelsOfMembers members
  | _ => 0

def levelsOfItems {σ : Type} : List (Json σ) → Nat
  | [] => 0
  | j :: rest => max (levels j) (levelsOfItems rest)

def levelsOfMembers {σ : Type} : List (σ × Json σ) → Nat
  | [] => 0
  | (_, j) :: rest => max (levels j) (levelsOfMembers rest)

end

theorem ws_nil : Ws [] := fun _ member => by cases member

theorem digits_head (digits : Digits ds) :
    ∃ b tail, ds = b :: tail ∧ isDigit b = true := by
  cases ds with
  | nil => exact absurd rfl digits.1
  | cons b tail => exact ⟨b, tail, rfl, digits.2 b (by simp)⟩

theorem digits_start (digit : isDigit b = true) :
    isWs b = false ∧ b ≠ closeBracket ∧ b ≠ openBrace ∧ b ≠ openBracket ∧ b ≠ quote ∧
      ¬ (b = 0x74 ∨ b = 0x66) ∧ b ≠ 0x6E := by
  have range : 0x30 ≤ b.toNat ∧ b.toNat ≤ 0x39 := by
    simpa [isDigit, UInt8.le_iff_toNat_le] using digit
  have differs : ∀ c : UInt8, (c.toNat < 0x30 ∨ 0x39 < c.toNat) → b ≠ c := by
    rintro c outside rfl
    omega
  have noBlank : isWs b = false := by
    simp [isWs, differs 0x20 (by decide), differs 0x09 (by decide), differs 0x0A (by decide),
      differs 0x0D (by decide)]
  refine ⟨noBlank, differs _ (by decide), differs _ (by decide), differs _ (by decide),
    differs _ (by decide), ?_, differs _ (by decide)⟩
  rintro (rfl | rfl) <;> contradiction

theorem number_start (span : Bytes) (number : Number span) :
    ∃ b tail, span = b :: tail ∧ (b = 0x2D ∨ isDigit b = true) := by
  obtain ⟨sign, int, frac, exp, signed, ⟨digits, _⟩, _, _, rfl⟩ := number
  rcases signed with rfl | rfl
  · obtain ⟨b, tail, rfl, digit⟩ := digits_head digits
    exact ⟨b, _, rfl, Or.inr digit⟩
  · exact ⟨0x2D, _, rfl, Or.inl rfl⟩

/-- The values in `P` begin with a byte that is neither white space nor a closing
bracket. -/
def Heads {σ : Type} (P : Json σ → Bytes → Prop) : Prop :=
  ∀ j t, P j t → ∃ b tail, t = b :: tail ∧ isWs b = false ∧ b ≠ closeBracket

section Heads
variable {σ : Type}

theorem layer_head : Heads (Layer Str P) := by
  intro j t layer
  cases layer with
  | scalar j t ok =>
    cases ok with
    | null => exact ⟨_, _, rfl, by decide, by decide⟩
    | true => exact ⟨_, _, rfl, by decide, by decide⟩
    | false => exact ⟨_, _, rfl, by decide, by decide⟩
    | string raw value ok => exact ⟨_, _, rfl, by decide, by decide⟩
    | number span ok =>
      obtain ⟨b, tail, rfl, rfl | digit⟩ := number_start t ok
      · exact ⟨_, tail, rfl, by decide, by decide⟩
      · obtain ⟨solid, bracket, _⟩ := digits_start digit
        exact ⟨b, tail, rfl, solid, bracket⟩
  | emptyArray w blank => exact ⟨_, _, rfl, by decide, by decide⟩
  | array js body items => exact ⟨_, _, rfl, by decide, by decide⟩
  | emptyObject w blank => exact ⟨_, _, rfl, by decide, by decide⟩
  | object ms body items => exact ⟨_, _, rfl, by decide, by decide⟩

theorem value_layer (ok : Value Str n j t) :
    ∃ Q, Layer Str Q j t := by
  cases n with
  | zero => exact ⟨_, ok⟩
  | succ n => exact ⟨_, ok⟩

theorem value_head (n : Nat) : Heads (Value Str n) := by
  intro j t ok
  obtain ⟨_, layer⟩ := value_layer ok
  exact layer_head j t layer

theorem elements_trim (items : Elements P js body) :
    ∃ w t tail, Ws w ∧ (∃ j, P j t) ∧ body = w ++ (t ++ tail) ∧ Elements P js (t ++ tail) := by
  cases items with
  | last w t w' j before value after =>
    exact ⟨w, t, w', before, ⟨j, value⟩, rfl, .last [] t w' j ws_nil value after⟩
  | more w t w' body j js before value after rest =>
    exact ⟨w, t, _, before, ⟨j, value⟩, rfl, .more [] t w' body j js ws_nil value after rest⟩

theorem members_trim (items : Members Str P ms body) :
    ∃ w tail, Ws w ∧ body = w ++ quote :: tail ∧ Members Str P ms (quote :: tail) := by
  cases items with
  | last w raw w₁ w₂ t w' key j before name behind gap value after =>
    exact ⟨w, _, before, rfl, .last [] raw w₁ w₂ t w' key j ws_nil name behind gap value after⟩
  | more w raw w₁ w₂ t w' body key j js before name behind gap value after rest =>
    exact ⟨w, _, before, rfl, .more [] raw w₁ w₂ t w' body key j js ws_nil name behind gap value after rest⟩

theorem ws_join (first : Ws v) (second : Ws w) : Ws (v ++ w) := by
  intro b member
  rcases List.mem_append.mp member with left | right
  · exact first b left
  · exact second b right

theorem elements_pad (blank : Ws v) (items : Elements P js body) : Elements P js (v ++ body) := by
  cases items with
  | last w t w' j before value after =>
    rw [← List.append_assoc]
    exact .last _ t w' j (ws_join blank before) value after
  | more w t w' body j js before value after rest =>
    rw [← List.append_assoc]
    exact .more _ t w' body j js (ws_join blank before) value after rest

theorem members_pad (blank : Ws v) (items : Members Str P ms body) : Members Str P ms (v ++ body) := by
  cases items with
  | last w raw w₁ w₂ t w' key j before name behind gap value after =>
    rw [← List.append_assoc]
    exact .last _ raw w₁ w₂ t w' key j (ws_join blank before) name behind gap value after
  | more w raw w₁ w₂ t w' body key j js before name behind gap value after rest =>
    rw [← List.append_assoc]
    exact .more _ raw w₁ w₂ t w' body key j js (ws_join blank before) name behind gap value after rest

end Heads

section Monotone
variable {σ : Type}

theorem elements_mono (widen : ∀ j t, P j t → Q j t)
    (items : Elements P js body) : Elements Q js body := by
  induction items with
  | last w t w' j before value after => exact .last w t w' j before (widen j t value) after
  | more w t w' body j js before value after _ ih =>
    exact .more w t w' body j js before (widen j t value) after ih

theorem members_mono (widen : ∀ j t, P j t → Q j t)
    (items : Members Str P ms body) : Members Str Q ms body := by
  induction items with
  | last w raw w₁ w₂ t w' key j before name behind gap value after =>
    exact .last w raw w₁ w₂ t w' key j before name behind gap (widen j t value) after
  | more w raw w₁ w₂ t w' body key j ms before name behind gap value after _ ih =>
    exact .more w raw w₁ w₂ t w' body key j ms before name behind gap (widen j t value) after ih

theorem layer_mono (widen : ∀ j t, P j t → Q j t) (layer : Layer Str P j t) : Layer Str Q j t := by
  cases layer with
  | scalar j t ok => exact .scalar j t ok
  | emptyArray w blank => exact .emptyArray w blank
  | emptyObject w blank => exact .emptyObject w blank
  | array js body items => exact .array js body (elements_mono widen items)
  | object ms body items => exact .object ms body (members_mono widen items)

theorem value_succ (j : Json σ) (t : Bytes) (ok : Value Str n j t) : Value Str (n + 1) j t := by
  induction n generalizing j t with
  | zero => exact layer_mono (fun _ _ impossible => impossible.elim) ok
  | succ n ih => exact layer_mono ih ok

theorem value_mono (le : n ≤ m) (j : Json σ) (t : Bytes) (ok : Value Str n j t) :
    Value Str m j t := by
  induction le with
  | refl => exact ok
  | step _ ih => exact value_succ j t ih

end Monotone

end Align.JsonText
