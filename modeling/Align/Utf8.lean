import Mathlib

/-! Well-formed UTF-8 as a small machine. The machine looks at one byte at a
time and judges a lead byte only together with the byte after it, which is what
a validator that compares neighbouring bytes can do. It returns to `complete`
exactly on the encodings of sequences of Unicode scalar values. -/
namespace Align.Utf8
open List

inductive State where
  | complete
  /-- A byte from `0xC0` up was just read, not judged yet. -/
  | lead (first : UInt8)
  | need1
  | need2
  deriving DecidableEq

def IsCont (b : UInt8) : Prop := 0x80 ≤ b.toNat ∧ b.toNat < 0xC0

instance (b : UInt8) : Decidable (IsCont b) := inferInstanceAs (Decidable (_ ∧ _))

/-- The byte after a lead byte: overlong forms, surrogates and values past
`U+10FFFF` are excluded here. -/
def second (first b : UInt8) : Option State :=
  if ¬ IsCont b then none
  else if first.toNat < 0xC2 then none
  else if first.toNat < 0xE0 then some .complete
  else if first.toNat < 0xF0 then
    if (first.toNat = 0xE0 ∧ b.toNat < 0xA0) ∨ (first.toNat = 0xED ∧ 0xA0 ≤ b.toNat) then none
    else some .need1
  else if first.toNat < 0xF5 then
    if (first.toNat = 0xF0 ∧ b.toNat < 0x90) ∨ (first.toNat = 0xF4 ∧ 0x90 ≤ b.toNat) then none
    else some .need2
  else none

def step : State → UInt8 → Option State
  | .complete, b =>
      if b.toNat < 0x80 then some .complete else if b.toNat < 0xC0 then none else some (.lead b)
  | .lead first, b => second first b
  | .need2, b => if IsCont b then some .need1 else none
  | .need1, b => if IsCont b then some .complete else none

def run : State → List UInt8 → Option State
  | state, [] => some state
  | state, b :: rest => (step state b).bind (run · rest)

theorem run_append (state : State) (first second : List UInt8) :
    run state (first ++ second) = (run state first).bind (run · second) := by
  induction first generalizing state with
  | nil => rfl
  | cons b rest ih =>
    simp only [cons_append, run, Option.bind_assoc]
    congr 1
    funext next
    exact ih next

/-- The rows of the well-formedness table, by length. -/
inductive Sequence : List UInt8 → Prop where
  | one (a : UInt8) (ascii : a.toNat < 0x80) : Sequence [a]
  | two (a b : UInt8) (low : 0xC2 ≤ a.toNat) (high : a.toNat < 0xE0) (tail : IsCont b) :
      Sequence [a, b]
  | three (a b c : UInt8) (low : 0xE0 ≤ a.toNat) (high : a.toNat < 0xF0)
      (judged : ¬ ((a.toNat = 0xE0 ∧ b.toNat < 0xA0) ∨ (a.toNat = 0xED ∧ 0xA0 ≤ b.toNat)))
      (next : IsCont b) (tail : IsCont c) : Sequence [a, b, c]
  | four (a b c d : UInt8) (low : 0xF0 ≤ a.toNat) (high : a.toNat < 0xF5)
      (judged : ¬ ((a.toNat = 0xF0 ∧ b.toNat < 0x90) ∨ (a.toNat = 0xF4 ∧ 0x90 ≤ b.toNat)))
      (next : IsCont b) (third : IsCont c) (tail : IsCont d) : Sequence [a, b, c, d]

theorem step_lead (high : 0xC0 ≤ a.toNat) : step .complete a = some (.lead a) := by
  have notAscii : ¬ a.toNat < 0x80 := by omega
  have notCont : ¬ a.toNat < 0xC0 := by omega
  simp [step, notAscii, notCont]

theorem run_step {next : State}
    (moves : step state b = some next) : run state (b :: rest) = run next rest := by
  rw [run, moves, Option.bind_some]

theorem sequence_run (row : Sequence bytes) :
    run .complete bytes = some .complete := by
  cases row with
  | one a ascii => simp [run, step, ascii]
  | two a b low high tail =>
    have moves : step (.lead a) b = some .complete := by
      simp [step, second, tail, high, low]
    rw [run_step (step_lead (by omega)), run_step moves, run]
  | three a b c low high judged next tail =>
    have moves : step (.lead a) b = some .need1 := by
      rw [step, second, if_neg (not_not_intro next), if_neg (by omega), if_neg (by omega),
        if_pos high, if_neg judged]
    have closes : step .need1 c = some .complete := if_pos tail
    rw [run_step (step_lead (by omega)), run_step moves, run_step closes, run]
  | four a b c d low high judged next third tail =>
    have moves : step (.lead a) b = some .need2 := by
      rw [step, second, if_neg (not_not_intro next), if_neg (by omega), if_neg (by omega),
        if_neg (by omega), if_pos high, if_neg judged]
    have inner : step .need2 c = some .need1 := if_pos third
    have closes : step .need1 d = some .complete := if_pos tail
    rw [run_step (step_lead (by omega)), run_step moves, run_step inner,
      run_step closes, run]

theorem need1_inv (ends : run .need1 bytes = some .complete) :
    ∃ c rest, bytes = c :: rest ∧ IsCont c ∧ run .complete rest = some .complete := by
  cases bytes with
  | nil => contradiction
  | cons c rest =>
    by_cases tail : IsCont c
    · exact ⟨c, rest, rfl, tail, by simpa [run, step, tail] using ends⟩
    · simp [run, step, tail] at ends

theorem need2_inv (ends : run .need2 bytes = some .complete) :
    ∃ b rest, bytes = b :: rest ∧ IsCont b ∧ run .need1 rest = some .complete := by
  cases bytes with
  | nil => contradiction
  | cons b rest =>
    by_cases tail : IsCont b
    · exact ⟨b, rest, rfl, tail, by simpa [run, step, tail] using ends⟩
    · simp [run, step, tail] at ends

theorem lead_inv (ends : run (.lead a) bytes = some .complete) :
    ∃ tail rest, Sequence (a :: tail) ∧ bytes = tail ++ rest ∧ run .complete rest = some .complete := by
  cases bytes with
  | nil => simp [run] at ends
  | cons b rest =>
    rw [run, step, second] at ends
    by_cases next : IsCont b
    · rw [if_neg (not_not_intro next)] at ends
      split at ends
      · contradiction
      split at ends
      · exact ⟨[b], rest, .two a b (by omega) (by omega) next, rfl, ends⟩
      split at ends
      · split at ends
        · contradiction
        · obtain ⟨c, rest, rfl, third, ends⟩ := need1_inv ends
          exact ⟨[b, c], rest, .three a b c (by omega) (by omega) ‹_› next third, rfl, ends⟩
      · split at ends
        · split at ends
          · contradiction
          · obtain ⟨c, rest, rfl, third, ends⟩ := need2_inv ends
            obtain ⟨d, rest, rfl, fourth, ends⟩ := need1_inv ends
            exact ⟨[b, c, d], rest, .four a b c d (by omega) (by omega) ‹_› next third fourth,
              rfl, ends⟩
        · contradiction
    · rw [if_pos next] at ends
      contradiction

theorem complete_inv (ends : run .complete (a :: bytes) = some .complete) :
    ∃ tail rest, Sequence (a :: tail) ∧ bytes = tail ++ rest ∧ run .complete rest = some .complete := by
  by_cases ascii : a.toNat < 0x80
  · exact ⟨[], bytes, .one a ascii, rfl, by simpa [run, step, ascii] using ends⟩
  · by_cases cont : a.toNat < 0xC0
    · simp [run, step, ascii, cont] at ends
    · exact lead_inv (by simpa [run, step, ascii, cont] using ends)

theorem byte_toNat (v : Nat) (small : v < 256) : (UInt8.ofNat v).toNat = v :=
  UInt8.toNat_ofNat_of_lt' small

theorem byte_eq (b : UInt8) (same : v = b.toNat) : UInt8.ofNat v = b := by
  rw [same, UInt8.ofNat_toNat]

theorem scalar_range (c : Char) :
    c.val.toNat < 0xD800 ∨ (0xDFFF < c.val.toNat ∧ c.val.toNat < 0x110000) := c.valid

theorem encode_sequence (c : Char) : Sequence (String.utf8EncodeChar c) := by
  have range := scalar_range c
  simp only [String.utf8EncodeChar]
  generalize c.val.toNat = v at range
  have cont : ∀ u, IsCont (UInt8.ofNat (u % 64 + 128)) := by
    intro u
    rw [IsCont, byte_toNat _ (by omega)]
    omega
  split
  · exact .one _ (by rw [byte_toNat _ (by omega)]; omega)
  split
  · have first := byte_toNat (v / 64 % 32 + 192) (by omega)
    exact .two _ _ (by omega) (by omega) (cont v)
  split
  · have first := byte_toNat (v / 4096 % 16 + 224) (by omega)
    have next := byte_toNat (v / 64 % 64 + 128) (by omega)
    exact .three _ _ _ (by omega) (by omega) (by omega) (cont (v / 64)) (cont v)
  · have first := byte_toNat (v / 262144 % 8 + 240) (by omega)
    have next := byte_toNat (v / 4096 % 64 + 128) (by omega)
    exact .four _ _ _ _ (by omega) (by omega) (by omega) (cont (v / 4096)) (cont (v / 64)) (cont v)

theorem scalar_exists (v : Nat) (valid : v < 0xD800 ∨ (0xDFFF < v ∧ v < 0x110000)) :
    ∃ c : Char, c.val.toNat = v :=
  ⟨Char.ofNatAux v valid, rfl⟩

theorem sequence_encode (row : Sequence bytes) :
    ∃ c : Char, String.utf8EncodeChar c = bytes := by
  cases row with
  | one a ascii =>
    obtain ⟨c, value⟩ := scalar_exists a.toNat (by omega)
    refine ⟨c, ?_⟩
    simp only [String.utf8EncodeChar, value]
    rw [if_pos (by omega), UInt8.ofNat_toNat]
  | two a b low high tail =>
    obtain ⟨tailLow, tailHigh⟩ := tail
    obtain ⟨c, value⟩ := scalar_exists ((a.toNat - 192) * 64 + (b.toNat - 128)) (by omega)
    refine ⟨c, ?_⟩
    simp only [String.utf8EncodeChar, value]
    rw [if_neg (by omega), if_pos (by omega), byte_eq a (by omega), byte_eq b (by omega)]
  | three a b c low high judged next tail =>
    obtain ⟨nextLow, nextHigh⟩ := next
    obtain ⟨tailLow, tailHigh⟩ := tail
    obtain ⟨u, value⟩ := scalar_exists
      ((a.toNat - 224) * 4096 + (b.toNat - 128) * 64 + (c.toNat - 128)) (by omega)
    refine ⟨u, ?_⟩
    simp only [String.utf8EncodeChar, value]
    rw [if_neg (by omega), if_neg (by omega), if_pos (by omega), byte_eq a (by omega),
      byte_eq b (by omega), byte_eq c (by omega)]
  | four a b c d low high judged next third tail =>
    obtain ⟨nextLow, nextHigh⟩ := next
    obtain ⟨thirdLow, thirdHigh⟩ := third
    obtain ⟨tailLow, tailHigh⟩ := tail
    obtain ⟨u, value⟩ := scalar_exists
      ((a.toNat - 240) * 262144 + (b.toNat - 128) * 4096 + (c.toNat - 128) * 64 + (d.toNat - 128))
      (by omega)
    refine ⟨u, ?_⟩
    simp only [String.utf8EncodeChar, value]
    rw [if_neg (by omega), if_neg (by omega), if_neg (by omega), byte_eq a (by omega),
      byte_eq b (by omega), byte_eq c (by omega), byte_eq d (by omega)]

theorem text_run (text : List Char) :
    run .complete (text.flatMap String.utf8EncodeChar) = some .complete := by
  induction text with
  | nil => rfl
  | cons c rest ih =>
    rw [flatMap_cons, run_append, sequence_run (encode_sequence c), Option.bind_some, ih]

theorem run_text (ends : run .complete bytes = some .complete) :
    ∃ text : List Char, text.flatMap String.utf8EncodeChar = bytes := by
  match bytes with
  | [] => exact ⟨[], rfl⟩
  | a :: tail =>
    obtain ⟨row, rest, sequence, split, restEnds⟩ := complete_inv ends
    obtain ⟨c, encoded⟩ := sequence_encode sequence
    obtain ⟨text, decoded⟩ := run_text restEnds
    refine ⟨c :: text, ?_⟩
    rw [flatMap_cons, encoded, decoded, split, cons_append]
termination_by bytes.length

theorem run_valid (bytes : List UInt8) :
    run .complete bytes = some .complete ↔ bytes.toByteArray.IsValidUTF8 := by
  constructor
  · intro ends
    obtain ⟨text, same⟩ := run_text ends
    exact ⟨text, by rw [List.utf8Encode, same]⟩
  · rintro ⟨text, same⟩
    rw [List.utf8Encode, toByteArray_inj] at same
    rw [same, text_run]

/-! Decoding that puts `U+FFFD` in place of what is not UTF-8. -/

def replacement : List UInt8 := [0xEF, 0xBF, 0xBD]

/-- `pending` holds the bytes of an unfinished sequence. A byte that cannot
continue it replaces the whole sequence by one mark and is read again. -/
def lossy : State → List UInt8 → List UInt8 → List UInt8
  | .complete, _, [] => []
  | _, _, [] => replacement
  | state, pending, b :: rest =>
      match step state b with
      | some .complete => pending ++ b :: lossy .complete [] rest
      | some next => lossy next (pending ++ [b]) rest
      | none =>
          replacement ++
            if pending = [] then lossy .complete [] rest
            else
              match step .complete b with
              | some .complete => b :: lossy .complete [] rest
              | some next => lossy next [b] rest
              | none => replacement ++ lossy .complete [] rest

def fromUtf8Lossy (bytes : List UInt8) : List UInt8 := lossy .complete [] bytes

theorem lossy_mem (state : State) (pending bytes : List UInt8)
    (inside : x ∈ lossy state pending bytes) : x ∈ pending ∨ x ∈ bytes ∨ x ∈ replacement := by
  induction bytes generalizing state pending with
  | nil =>
    cases state with
    | complete => cases inside
    | lead first => exact Or.inr (Or.inr inside)
    | need1 => exact Or.inr (Or.inr inside)
    | need2 => exact Or.inr (Or.inr inside)
  | cons b rest ih => grind [lossy]

theorem step_ascii (low : b < 128) : step .complete b = some .complete := by
  have small : b.toNat < 0x80 := UInt8.lt_iff_toNat_lt.mp low
  rw [step, if_pos small]

theorem fromUtf8Lossy_ascii (low : ∀ b ∈ bytes, b < 128) : fromUtf8Lossy bytes = bytes := by
  rw [fromUtf8Lossy]
  induction bytes with
  | nil => rfl
  | cons b rest ih =>
    rw [lossy, step_ascii (low b mem_cons_self)]
    rw [nil_append, ih fun x mem => low x (mem_cons_of_mem b mem)]

end Align.Utf8
