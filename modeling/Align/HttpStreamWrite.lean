import Mathlib

/-! Vectored stream writes. The parts are the bytes of the vectors from `first` on, so an
advanced cursor is a shorter list; the descriptor is the transport's own. Besides the
status, a run gives the bytes the transport took: of each offer the first `result` bytes. -/
namespace Align.HttpStreamWrite
open List

abbrev Bytes := List UInt8

def invalid : Nat := 2
def timeout : Nat := 4
def code : Nat := 5
def eintr : Nat := 4
def eagain : Nat := 11

structure SocketCallOutcome where
  result : Int
  errno : Nat

/-- `AL_CODE.saturating_add(errno)`, the kinds of the system's error numbers aside. -/
def ioErrorToStatus (errno : Nat) : Nat :=
  if errno = 2 then 1
  else if errno = 1 ∨ errno = 13 then 3
  else if errno = 22 then invalid
  else min (code + errno) (2 ^ 31 - 1)

def ioReadWriteStatus (errno : Nat) : Nat :=
  if errno = eagain then timeout else ioErrorToStatus errno

inductive SocketWriteAttempt where
  | sent (count : Nat)
  | zero
  | interrupted
  | failed (status : Nat)

def socketWriteAttempt (outcome : SocketCallOutcome) : SocketWriteAttempt :=
  if 0 < outcome.result then .sent outcome.result.toNat
  else if outcome.result = 0 then .zero
  else if outcome.errno = eintr then .interrupted
  else .failed (ioReadWriteStatus outcome.errno)

/-- The transport and the clock: each call answers and moves to a next state. -/
structure WriteOps (σ : Type) where
  remaining : σ → Option Nat × σ
  sendParts : σ → List Bytes → Nat → SocketCallOutcome × σ
  waitWritable : σ → Int → SocketCallOutcome × σ

def pollTimeoutMs (remaining : Nat) : Option Int :=
  if remaining = 0 then none
  else some (min ((remaining + 999999) / 1000000) (2 ^ 31 - 1) : Nat)

def advance : List Bytes → Nat → Option (List Bytes)
  | parts, 0 => some parts
  | [], _ + 1 => none
  | part :: rest, accepted + 1 =>
    if accepted + 1 < part.length then some (part.drop (accepted + 1) :: rest)
    else advance rest (accepted + 1 - part.length)

/-- How a round of a loop ends: by a return, or with what the next round starts from. -/
inductive Round (α σ : Type) where
  | returns (status : Nat)
  | next (value : α) (state : σ)

section
variable {σ : Type} (ops : WriteOps σ) (budget nonblocking : Bool)

def expired (state : σ) : Bool × σ :=
  if budget then ((ops.remaining state).1.isNone, (ops.remaining state).2) else (false, state)

def waitTime (state : σ) : Option Int × σ :=
  if budget then ((ops.remaining state).1.bind pollTimeoutMs, (ops.remaining state).2)
  else (some (-1), state)

def sendFlags : Nat := 0x4000 ||| if budget then 0x40 else 0

/-- The inner loop, `none` while it is still waiting. -/
def waitLoop : Nat → σ → Option (Round Unit σ)
  | 0, _ => none
  | fuel + 1, state =>
    match waitTime ops budget state with
    | (none, _) => some (.returns timeout)
    | (some timeoutMs, state) =>
      let (waited, state) := ops.waitWritable state timeoutMs
      let (late, state) := expired ops budget state
      if late then some (.returns timeout)
      else if 0 ≤ waited.result then some (.next () state)
      else if waited.errno ≠ eintr then some (.returns (ioReadWriteStatus waited.errno))
      else waitLoop fuel state

/-- What follows a send within the budget. -/
def afterSend (fuel : Nat) (parts : List Bytes) (remaining : Nat) (outcome : SocketCallOutcome)
    (state : σ) : Option (Round (List Bytes × Nat) σ) :=
  if (budget || nonblocking) && outcome.result < 0 && outcome.errno == eagain then
    (waitLoop ops budget fuel state).map fun
      | .returns status => .returns status
      | .next _ state => .next (parts, remaining) state
  else some <|
    match socketWriteAttempt outcome with
    | .sent count =>
      if count ≤ remaining then
        match advance parts count with
        | none => .returns invalid
        | some parts => .next (parts, remaining - count) state
      else .returns invalid
    | .interrupted => .next (parts, remaining) state
    | .zero => .returns code
    | .failed status => .returns status

/-- One round of the outer loop, with the bytes the transport took in it. -/
def sendRound (fuel : Nat) (parts : List Bytes) (remaining : Nat) (state : σ) :
    Bytes × Option (Round (List Bytes × Nat) σ) :=
  let (late, state) := expired ops budget state
  if late then ([], some (.returns timeout))
  else
    let (outcome, state) := ops.sendParts state parts (sendFlags budget)
    let (late, state) := expired ops budget state
    (parts.flatten.take outcome.result.toNat,
      if late then some (.returns timeout)
      else afterSend ops budget nonblocking fuel parts remaining outcome state)

/-- The bytes taken by the transport in at most `fuel` rounds, and the status when the
call has returned by then. -/
def httpStreamWriteParts : Nat → List Bytes → Nat → σ → Bytes × Option Nat
  | 0, _, _, _ => ([], none)
  | fuel + 1, parts, remaining, state =>
    if remaining = 0 then ([], some 0)
    else
      match sendRound ops budget nonblocking fuel parts remaining state with
      | (taken, none) => (taken, none)
      | (taken, some (.returns status)) => (taken, some status)
      | (taken, some (.next (parts, remaining) state)) =>
        let (wire, status) := httpStreamWriteParts fuel parts remaining state
        (taken ++ wire, status)

theorem advance_flatten (within : accepted ≤ parts.flatten.length) :
    ∃ rest, advance parts accepted = some rest ∧
      rest.flatten = parts.flatten.drop accepted := by
  fun_induction advance parts accepted with
  | case1 parts => exact ⟨parts, rfl, rfl⟩
  | case2 => simp at within
  | case3 part rest accepted inside =>
    exact ⟨_, rfl, by simp [drop_append_of_le_length (Nat.le_of_lt inside)]⟩
  | case4 part rest accepted past ih =>
    -- The whole part went out; an empty one is stepped over the same way.
    obtain ⟨left, moved, same⟩ := ih (by rw [flatten_cons, length_append] at within; omega)
    have out : part.drop (accepted + 1) = [] := drop_of_length_le (Nat.not_lt.mp past)
    exact ⟨left, moved, by rw [same, flatten_cons, drop_append, out, nil_append]⟩

theorem ioReadWriteStatus_pos : ioReadWriteStatus errno ≠ 0 := by
  unfold ioReadWriteStatus ioErrorToStatus timeout invalid code
  split_ifs <;> omega

theorem waitLoop_returns (state : σ)
    (found : waitLoop ops budget fuel state = some (.returns status)) : status ≠ 0 := by
  induction fuel generalizing state with
  | zero => simp [waitLoop] at found
  | succ fuel ih =>
    unfold waitLoop at found
    split at found
    · cases found
      decide
    dsimp only at found
    split_ifs at found
    · cases found
      decide
    · cases found
    · cases found
      exact ioReadWriteStatus_pos
    · exact ih _ found

/-- What a round can do: return another status than success, or leave exactly the bytes
that the transport did not take. -/
def Keeps (parts : List Bytes) (taken : Bytes) : Option (Round (List Bytes × Nat) σ) → Prop
  | none => taken <+: parts.flatten
  | some (.returns status) => taken <+: parts.flatten ∧ status ≠ 0
  | some (.next (left, remaining) _) =>
    taken ++ left.flatten = parts.flatten ∧ remaining = left.flatten.length

theorem afterSend_keeps (state : σ) :
    Keeps parts (parts.flatten.take outcome.result.toNat)
      (afterSend ops budget nonblocking fuel parts parts.flatten.length outcome state) := by
  have part := take_prefix outcome.result.toNat parts.flatten
  unfold afterSend
  split_ifs with blocked
  · -- Nothing was taken, and the same parts are offered again after the wait.
    have none_taken : outcome.result.toNat = 0 := by simp at blocked; omega
    rcases waited : waitLoop ops budget fuel state with _ | _ | _
    · exact part
    · exact ⟨part, waitLoop_returns _ _ _ waited⟩
    · exact ⟨by rw [none_taken]; rfl, rfl⟩
  · unfold socketWriteAttempt
    split_ifs with positive zero interrupted
    · dsimp only
      split_ifs with fits
      · obtain ⟨rest, moved, same⟩ := advance_flatten fits
        rw [moved]
        exact ⟨by rw [same, take_append_drop], by rw [same, length_drop]⟩
      · exact ⟨part, by decide⟩
    · exact ⟨part, by decide⟩
    · exact ⟨by rw [show outcome.result.toNat = 0 by omega]; rfl, rfl⟩
    · exact ⟨part, ioReadWriteStatus_pos⟩

theorem sendRound_keeps (fuel : Nat) (parts : List Bytes) (state : σ) :
    Keeps parts (sendRound ops budget nonblocking fuel parts parts.flatten.length state).1
      (sendRound ops budget nonblocking fuel parts parts.flatten.length state).2 := by
  unfold sendRound
  dsimp only
  split_ifs
  · exact ⟨ nil_prefix, by decide⟩
  · exact ⟨ take_prefix _ _, by decide⟩
  · exact afterSend_keeps _ _ _ _

/-- Over every transport: the bytes it took are at any moment a prefix of the parts put
together, and success is only reported when they are all of them. -/
theorem httpStreamWriteParts_resumes (fuel : Nat) (parts : List Bytes) (state : σ) :
    (httpStreamWriteParts ops budget nonblocking fuel parts parts.flatten.length state).1
        <+: parts.flatten ∧
      ((httpStreamWriteParts ops budget nonblocking fuel parts parts.flatten.length state).2 =
          some 0 →
        (httpStreamWriteParts ops budget nonblocking fuel parts parts.flatten.length state).1 =
          parts.flatten) := by
  induction fuel generalizing parts state with
  | zero => exact ⟨ nil_prefix, by simp [httpStreamWriteParts]⟩
  | succ fuel ih =>
    have kept := sendRound_keeps ops budget nonblocking fuel parts state
    unfold httpStreamWriteParts
    split_ifs with done
    · exact ⟨ nil_prefix, fun _ => (length_eq_zero_iff.mp done).symm⟩
    split <;> rename_i round <;> rw [round] at kept
    · exact ⟨kept, nofun⟩
    · exact ⟨kept.1, fun success => absurd (Option.some.inj success) kept.2⟩
    · obtain ⟨whole, rfl⟩ := kept
      rw [← whole]
      exact ⟨(prefix_append_right_inj _).mpr (ih _ _).1, fun success => congrArg _ ((ih _ _).2 success)⟩

end

end Align.HttpStreamWrite
