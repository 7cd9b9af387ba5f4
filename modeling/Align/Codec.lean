import Mathlib

/-! Byte formats with a writer and a reader written apart from each other. A writer
may give up (a length that its prefix cannot hold), a reader may fail, and the reader
of a part is given everything that is left. `Exact` says that a reader accepts exactly
the spellings of the values in `fits`: what it read is what the writer writes, and what
the writer writes of such a value is read back in front of anything. The rules follow
the reader's steps. A record's fields that are already read are kept in `known`, so
that a later check may speak of them. -/
namespace Align.Codec
open List

abbrev Bytes := List UInt8

/-- What a writer leaves, or nothing where it gives up. -/
abbrev Wire := Option Bytes

instance : Append Wire := ⟨fun first second => first.bind fun out => second.map (out ++ ·)⟩

abbrev Reader (ε α : Type) := StateT Bytes (Except ε) α

variable {ε α β γ : Type}

theorem append_some {first second : Wire} {out : Bytes} :
    first ++ second = some out ↔ ∃ front back, first = some front ∧ second = some back ∧ out = front ++ back := by
  change (first.bind fun out => second.map (out ++ ·)) = some out ↔ _
  cases first <;> cases second <;> simp [eq_comm]

@[simp] theorem append_empty (first : Wire) : first ++ (some [] : Wire) = first := by
  change (first.bind fun out => (some []).map (out ++ ·)) = first
  cases first <;> simp

theorem append_assoc (first second third : Wire) : first ++ second ++ third = first ++ (second ++ third) := by
  change ((first.bind fun out => second.map (out ++ ·)).bind fun out => third.map (out ++ ·)) =
    first.bind fun out => (second.bind fun out => third.map (out ++ ·)).map (out ++ ·)
  cases first <;> cases second <;> cases third <;> simp

theorem bind_ok {next : α → Reader ε β} :
    (first >>= next) bytes = .ok (b, rest) ↔
      ∃ a mid, first bytes = .ok (a, mid) ∧ next a mid = .ok (b, rest) := by
  change (first bytes >>= fun (a, mid) => next a mid) = .ok (b, rest) ↔ _
  cases first bytes with
  | error e => simp [Bind.bind, Except.bind]
  | ok found =>
    obtain ⟨a, mid⟩ := found
    simp [Bind.bind, Except.bind]

/-- The next `n` bytes. -/
def take (short : ε) (n : Nat) : Reader ε Bytes := fun rest =>
  if n ≤ rest.length then .ok (rest.take n, rest.drop n) else .error short

def byte (short : ε) : Reader ε UInt8 := fun rest =>
  match rest with
  | [] => .error short
  | b :: rest => .ok (b, rest)

def check (verdict : Except ε Unit) : Reader ε Unit := fun rest => verdict.map fun _ => ((), rest)

def times (read : Reader ε α) : Nat → Reader ε (List α)
  | 0 => pure []
  | n + 1 => do
      let first ← read
      let rest ← times read n
      pure (first :: rest)

def toLe : Nat → Nat → Bytes
  | 0, _ => []
  | width + 1, n => UInt8.ofNat n :: toLe width (n / 256)

def ofLe : Bytes → Nat
  | [] => 0
  | b :: rest => b.toNat + 256 * ofLe rest

@[simp] theorem toLe_length (width n : Nat) : (toLe width n).length = width := by
  induction width generalizing n with
  | zero => rfl
  | succ width ih => rw [toLe, length_cons, ih]

theorem ofLe_toLe (n : Nat) (small : n < 256 ^ width) : ofLe (toLe width n) = n := by
  induction width generalizing n with
  | zero => simp [toLe, ofLe]; omega
  | succ width ih =>
    have less : n / 256 < 256 ^ width := by
      exact Nat.div_lt_of_lt_mul (by omega)
    rw [toLe, ofLe, ih _ less, UInt8.toNat_ofNat']
    omega

theorem ofLe_lt (bytes : Bytes) : ofLe bytes < 256 ^ bytes.length := by
  induction bytes with
  | nil => simp [ofLe]
  | cons b rest ih =>
    have := b.toNat_lt
    rw [ofLe, length_cons, Nat.pow_succ]
    omega

theorem toLe_ofLe (bytes : Bytes) : toLe bytes.length (ofLe bytes) = bytes := by
  induction bytes with
  | nil => rfl
  | cons b rest ih =>
    have := b.toNat_lt
    have low : UInt8.ofNat (ofLe (b :: rest)) = b := by
      apply UInt8.toNat_inj.mp
      rw [ofLe, UInt8.toNat_ofNat']
      omega
    have high : ofLe (b :: rest) / 256 = ofLe rest := by
      rw [ofLe]
      omega
    rw [length_cons, toLe, low, high, ih]

structure Exact (read : Reader ε α) (write : α → Wire) (fits : α → Prop) : Prop where
  sound : ∀ bytes a rest, read bytes = .ok (a, rest) → fits a ∧ ∃ out, write a = some out ∧ bytes = out ++ rest
  complete : ∀ a, fits a → ∃ out, write a = some out ∧ ∀ rest, read (out ++ rest) = .ok (a, rest)

variable {read : Reader ε α} {write write' : α → Wire} {fits fits' : α → Prop}

theorem Exact.extend (exact' : Exact read write fits) (more : Bytes) (ok : read bytes = .ok (a, rest)) :
    read (bytes ++ more) = .ok (a, rest ++ more) := by
  obtain ⟨fit, out, wrote, rfl⟩ := exact'.sound _ _ _ ok
  obtain ⟨_, same, reads⟩ := exact'.complete a fit
  cases wrote.symm.trans same
  rw [List.append_assoc, reads]

theorem Exact.congrWith (exact' : Exact read write fits) (same : ∀ a, fits' a ↔ fits a)
    (writes : ∀ a, fits a → write' a = write a) :
    Exact read write' fits' := by
  constructor
  · intro bytes a rest ok
    obtain ⟨fit, out, written, shape⟩ := exact'.sound bytes a rest ok
    exact ⟨(same a).mpr fit, out, (writes a fit).trans written, shape⟩
  · intro a fit
    obtain ⟨out, written, reads⟩ := exact'.complete a ((same a).mp fit)
    exact ⟨out, (writes a ((same a).mp fit)).trans written, reads⟩

theorem Exact.congr (exact' : Exact read write fits) (same : ∀ a, fits' a ↔ fits a) : Exact read write fits' :=
  exact'.congrWith same fun _ _ => rfl

theorem Exact.ofShape
    (exact' : Exact read' write fits) (shape : read = read') : Exact read write fits := shape ▸ exact'

theorem Exact.pure (a : α) (only : ∀ b, fits b ↔ b = a) (empty : write a = some []) : Exact (pure a : Reader ε α) write fits := by
  constructor
  · intro bytes b rest ok
    cases ok
    exact ⟨(only a).mpr rfl, [], empty, rfl⟩
  · intro b fit
    cases (only b).mp fit
    exact ⟨[], empty, fun rest => rfl⟩

theorem Exact.fail (e : ε) (none : ∀ a, ¬ fits a) :
    Exact (throw e : Reader ε α) write fits := by
  constructor
  · intro bytes a rest ok
    cases ok
  · intro a fit
    exact absurd fit (none a)

variable (field : γ → α) {first : Reader ε α} {next : α → Reader ε γ} {write : α → Wire}
  {writeRest : γ → Wire} {fits : α → Prop} {known fitsRest : γ → Prop}

theorem Exact.bind (exactFirst : Exact first write fits)
    (exactNext : ∀ a, fits a → Exact (next a) writeRest fun g => (known g ∧ field g = a) ∧ fitsRest g) :
    Exact (first >>= next) (fun g => write (field g) ++ writeRest g)
      fun g => known g ∧ fits (field g) ∧ fitsRest g := by
  constructor
  · intro bytes g rest ok
    obtain ⟨a, mid, one, two⟩ := bind_ok.mp ok
    obtain ⟨fit, front, written, rfl⟩ := exactFirst.sound bytes a mid one
    obtain ⟨⟨⟨knows, rfl⟩, fitRest⟩, back, writtenRest, rfl⟩ := (exactNext a fit).sound mid g rest two
    refine ⟨⟨knows, fit, fitRest⟩, front ++ back, ?_, (List.append_assoc ..).symm⟩
    exact append_some.mpr ⟨front, back, written, writtenRest, rfl⟩
  · rintro g ⟨knows, fit, fitRest⟩
    obtain ⟨front, written, reads⟩ := exactFirst.complete (field g) fit
    obtain ⟨back, writtenRest, readsRest⟩ := (exactNext (field g) fit).complete g ⟨⟨knows, rfl⟩, fitRest⟩
    refine ⟨front ++ back, append_some.mpr ⟨front, back, written, writtenRest, rfl⟩, ?_⟩
    intro rest
    rw [List.append_assoc]
    exact bind_ok.mpr ⟨field g, back ++ rest, reads _, readsRest rest⟩

theorem Exact.bindFree (exactFirst : Exact first write fun _ => True)
    (exactNext : ∀ a, Exact (next a) writeRest fun g => (known g ∧ field g = a) ∧ fitsRest g) :
    Exact (first >>= next) (fun g => write (field g) ++ writeRest g) fun g => known g ∧ fitsRest g :=
  (Exact.bind _ exactFirst fun a _ => exactNext a).congr fun g => by rw [true_and]

/-- One more field, whose own condition depends on the fields in front of it. -/
theorem Exact.bindWith {holds fitsRest : γ → Prop} (exactFirst : Exact first write fits)
    (means : ∀ g, known g → (holds g ↔ fits (field g)))
    (exactNext : ∀ a, fits a → Exact (next a) writeRest fun g => (known g ∧ field g = a) ∧ fitsRest g) :
    Exact (first >>= next) (fun g => write (field g) ++ writeRest g) fun g => known g ∧ holds g ∧ fitsRest g :=
  (Exact.bind _ exactFirst exactNext).congr
    fun g => and_congr_right fun knows => and_congr_left fun _ => means g knows

theorem Exact.final (exactFirst : Exact first write fits)
    (exactNext : ∀ a, fits a → Exact (next a) (fun _ => some []) fun g => (known g ∧ field g = a) ∧ fitsRest g) :
    Exact (first >>= next) (fun g => write (field g)) fun g => known g ∧ fits (field g) ∧ fitsRest g :=
  (Exact.bind _ exactFirst exactNext).congrWith (fun _ => Iff.rfl) fun _ _ => (append_empty _).symm

theorem Exact.last {build : α → γ} (exactFirst : Exact first write fits)
    (built : ∀ a g, fits a → ((known g ∧ field g = a) ↔ g = build a)) :
    Exact (first >>= fun a => Pure.pure (build a)) (fun g => write (field g)) fun g => known g ∧ fits (field g) := by
  have whole : Exact (first >>= fun a => Pure.pure (build a)) (fun g => write (field g))
    fun g => known g ∧ fits (field g) ∧ True :=
    Exact.final _ exactFirst fun a fit => Exact.pure _ (fun g => by rw [and_true]; exact built a g fit) rfl
  exact whole.congr fun g => by rw [and_true]

theorem Exact.checked {verdict : Except ε Unit} {next : Unit → Reader ε γ} {write : γ → Wire}
    {known holds fits : γ → Prop} (means : ∀ g, known g → (holds g ↔ verdict = .ok ()))
    (exactNext : verdict = .ok () → Exact (next ()) write fun g => known g ∧ fits g) :
    Exact (check verdict >>= next) write fun g => known g ∧ holds g ∧ fits g := by
  constructor
  · intro bytes g rest ok
    obtain ⟨⟨⟩, mid, one, two⟩ := bind_ok.mp ok
    obtain ⟨⟨⟩, passed, same⟩ : ∃ u, verdict = .ok u ∧ bytes = mid := by
      unfold check at one
      cases verdict with
      | error e => cases one
      | ok u =>
        cases one
        exact ⟨(), rfl, rfl⟩
    subst same
    obtain ⟨⟨knows, fit⟩, written⟩ := (exactNext passed).sound bytes g rest two
    exact ⟨⟨knows, (means g knows).mpr passed, fit⟩, written⟩
  · rintro g ⟨knows, held, fit⟩
    obtain ⟨out, written, reads⟩ := (exactNext ((means g knows).mp held)).complete g ⟨knows, fit⟩
    refine ⟨out, written, fun rest => bind_ok.mpr ⟨(), out ++ rest, ?_, reads rest⟩⟩
    rw [(means g knows).mp held]
    rfl

theorem Exact.record (exact' : Exact read write fun a => True ∧ fits a) : Exact read write fits :=
  exact'.congr fun a => (true_and (fits a)).symm ▸ Iff.rfl

theorem Exact.checkedLast {verdict : Except ε Unit} {g : γ} {known holds : γ → Prop}
    (means : holds g ↔ verdict = .ok ()) (built : ∀ g', known g' ↔ g' = g) :
    Exact (check verdict >>= fun _ => Pure.pure g) (fun _ => some []) fun g => known g ∧ holds g := by
  have whole : Exact (check verdict >>= fun _ => Pure.pure g) (fun _ => some []) fun g => known g ∧ holds g ∧ True :=
    Exact.checked (fun g' known => (built g').mp known ▸ means) fun _ =>
      Exact.pure g (fun g' => by rw [and_true]; exact built g') rfl
  exact whole.congr fun g => by rw [and_true]

/-- One alternative of several: the values of the form `build b`. -/
theorem Exact.via {read : Reader ε β} {write : β → Wire} {fits : β → Prop} {write' : γ → Wire} {fits' : γ → Prop}
    (build : β → γ) (exact' : Exact read write fits) (image : ∀ g, fits' g ↔ ∃ b, g = build b ∧ fits b)
    (writes : ∀ b, write' (build b) = write b) : Exact (build <$> read) write' fits' := by
  have mapped : build <$> read = read >>= fun b => Pure.pure (build b) := map_eq_pure_bind build read
  constructor
  · intro bytes g rest ok
    rw [mapped] at ok
    obtain ⟨b, mid, one, two⟩ := bind_ok.mp ok
    cases two
    obtain ⟨fit, out, written, shape⟩ := exact'.sound bytes b rest one
    exact ⟨(image _).mpr ⟨b, rfl, fit⟩, out, (writes b).trans written, shape⟩
  · intro g fit
    obtain ⟨b, rfl, inner⟩ := (image g).mp fit
    obtain ⟨out, written, reads⟩ := exact'.complete b inner
    refine ⟨out, (writes b).trans written, fun rest => ?_⟩
    rw [mapped]
    exact bind_ok.mpr ⟨b, rest, reads rest, rfl⟩

theorem Exact.pairWith {second : α → Reader ε β} {writeFirst : α → Wire} {writeSecond : β → Wire}
    {fitsSecond : α → β → Prop} {write : γ → Wire} {fits : γ → Prop}
    (build : α → β → γ) (exactFirst : Exact first writeFirst fitsFirst)
    (exactSecond : ∀ a, fitsFirst a → Exact (second a) writeSecond (fitsSecond a))
    (image : ∀ g, fits g ↔ ∃ a b, g = build a b ∧ fitsFirst a ∧ fitsSecond a b)
    (writes : ∀ a b, write (build a b) = writeFirst a ++ writeSecond b) :
    Exact (do let a ← first; let b ← second a; return build a b) write fits := by
  have both : Exact (do let a ← first; let b ← second a; return (a, b)) (fun p => writeFirst p.1 ++ writeSecond p.2)
    fun p => fitsFirst p.1 ∧ fitsSecond p.1 p.2 := by
    refine Exact.record (Exact.bind _ exactFirst fun a fit => ?_)
    have tail : Exact (do let b ← second a; return (a, b)) (fun p => writeSecond p.2)
      fun p => (True ∧ p.1 = a) ∧ fitsSecond a p.2 := by
      refine Exact.last _ (exactSecond a fit) ?_
      intro b p _
      rw [true_and, Prod.ext_iff]
    refine tail.congr ?_
    rintro ⟨a', b⟩
    exact and_congr_right fun known => by rw [← known.2]
  have shape : (do let a ← first; let b ← second a; return build a b) =
    (fun p : α × β => build p.1 p.2) <$> (do let a ← first; let b ← second a; return (a, b)) := by
    simp only [map_bind, map_pure]
  rw [shape]
  refine Exact.via _ both ?_ fun p => writes p.1 p.2
  intro g
  rw [image g, Prod.exists]

theorem Exact.pair {writeFirst : α → Wire} {writeSecond : β → Wire}
    {fitsFirst : α → Prop} {write : γ → Wire} {fits : γ → Prop}
    (build : α → β → γ) (exactFirst : Exact first writeFirst fitsFirst)
    (exactSecond : Exact second writeSecond fitsSecond)
    (image : ∀ g, fits g ↔ ∃ a b, g = build a b ∧ fitsFirst a ∧ fitsSecond b)
    (writes : ∀ a b, write (build a b) = writeFirst a ++ writeSecond b) :
    Exact (do let a ← first; let b ← second; return build a b) write fits :=
  Exact.pairWith _ exactFirst (fun _ _ => exactSecond) image writes

def untagged (wire : Wire) : Wire := wire.map List.tail

@[simp] theorem untagged_tagged (b : UInt8) : untagged ((some [b] : Wire) ++ wire) = wire := by
  cases wire <;> rfl

@[simp] theorem untagged_tag (b : UInt8) : untagged (some [b]) = some [] := rfl

theorem Exact.tagged (tag : γ → UInt8) {readTag : Reader ε UInt8} {write : γ → Wire}
    {fits : γ → Prop} (exactTag : Exact readTag (fun b => some [b]) fun _ => True)
    (starts : ∀ g, (some [tag g] : Wire) ++ untagged (write g) = write g)
    (exactAlternative : ∀ b, Exact (alternative b) (fun g => untagged (write g)) fun g => tag g = b ∧ fits g) :
    Exact (readTag >>= alternative) write fits := by
  have whole : Exact (readTag >>= alternative) (fun g => some [tag g] ++ untagged (write g)) fun g => True ∧ fits g :=
    Exact.bindFree _ exactTag fun b => (exactAlternative b).congr fun g => by rw [true_and]
  exact whole.congrWith (fun g => by rw [true_and]) fun g _ => (starts g).symm

theorem Exact.enum (tag : γ → UInt8) {readTag : Reader ε UInt8} {alternative : UInt8 → Reader ε γ}
    (exactTag : Exact readTag (fun b => some [b]) fun _ => True) (back : ∀ g, alternative (tag g) = Pure.pure g)
    (only : ∀ b bytes g rest, alternative b bytes = .ok (g, rest) → tag g = b ∧ bytes = rest) :
    Exact (readTag >>= alternative) (fun g => some [tag g]) fun _ => True := by
  constructor
  · intro bytes g rest ok
    obtain ⟨b, mid, one, two⟩ := bind_ok.mp ok
    obtain ⟨rfl, rfl⟩ := only b mid g rest two
    obtain ⟨_, out, written, shape⟩ := exactTag.sound bytes _ mid one
    exact ⟨trivial, out, written, shape⟩
  · intro g _
    obtain ⟨out, written, reads⟩ := exactTag.complete (tag g) trivial
    exact ⟨out, written, fun rest => bind_ok.mpr ⟨tag g, rest, reads rest, by rw [back]; rfl⟩⟩

theorem byte_exact (short : ε) : Exact (byte short) (fun b => some [b]) fun _ => True := by
  constructor
  · intro bytes b rest ok
    cases bytes with
    | nil => cases ok
    | cons b' rest' =>
      cases ok
      exact ⟨trivial, [b], rfl, rfl⟩
  · intro b _
    exact ⟨[b], rfl, fun rest => rfl⟩

theorem take_exact (short : ε) (n : Nat) : Exact (take short n) (fun bytes => some bytes) fun bytes => bytes.length = n := by
  constructor
  · intro bytes front rest ok
    unfold take at ok
    split_ifs at ok with enough
    cases ok
    exact ⟨length_take_of_le enough, _, rfl, (take_append_drop n bytes).symm⟩
  · rintro bytes rfl
    refine ⟨bytes, rfl, fun rest => ?_⟩
    rw [take, if_pos (by simp), take_left, drop_left]

theorem word_exact (short : ε) (number : Nat → α) (value : α → Nat) (small : ∀ v, value v < 256 ^ width)
    (back : ∀ v, number (value v) = v) (forth : ∀ n, n < 256 ^ width → value (number n) = n) :
    Exact (do let bytes ← take short width; pure (number (ofLe bytes))) (fun v => some (toLe width (value v)))
      fun _ => True := by
  have whole : Exact (do let bytes ← take short width; pure (number (ofLe bytes))) (fun v => some (toLe width (value v)))
    fun v => True ∧ (toLe width (value v)).length = width := by
    refine Exact.last _ (take_exact _ _) fun bytes v size => ?_
    rw [true_and]
    constructor
    · rintro rfl
      rw [ofLe_toLe _ (small v), back]
    · rintro rfl
      rw [forth _ (size ▸ ofLe_lt _)]
      nth_rewrite 1 [← size]
      exact toLe_ofLe _
  exact whole.congr fun v => by simp

def each (write : α → Wire) : List α → Wire
  | [] => some []
  | a :: rest => write a ++ each write rest

theorem times_exact {read : Reader ε α} {fits : α → Prop} (exact' : Exact read write fits) (n : Nat) :
    Exact (times read n) (each write) fun items => items.length = n ∧ ∀ a ∈ items, fits a := by
  induction n with
  | zero =>
    refine Exact.pure [] (fun items => ?_) rfl
    constructor
    · rintro ⟨none, _⟩
      exact length_eq_zero_iff.mp none
    · rintro rfl
      exact ⟨rfl, fun a member => by cases member⟩
  | succ n ih =>
    refine Exact.pair _ exact' ih (fun items => ?_) fun _ _ => rfl
    cases items <;> simp [and_left_comm]

end Align.Codec
