import Align.HttpDecoder
import Align.Outcomes

/-! The response decoder does not depend on how its bytes arrive. In every state a
turn over several bytes either looks at the first one only or is a turn over the
first one followed by a turn over the others, with the same error where one of
them fails; the rest is the general rule for consumers fed piece by piece. -/
namespace Align.Http
open Segments Feeding Outcomes List Option

namespace HttpResponseDecoder

variable {seen : Nat}

section States
variable {d : HttpResponseDecoder} {rest : Bytes}

section Runs
variable (some_ : rest ≠ [])
include some_

theorem feedStep_head (here : d.state = .head) : d.feedStep rest = d.headStep rest := by
  rcases exists_cons_of_ne_nil some_ with ⟨b, more, rfl⟩
  delta feedStep
  rw [here]

theorem feedStep_fixed (here : d.state = .fixed remaining) :
    d.feedStep rest = d.bodyRun remaining .complete .fixed rest := by
  rcases exists_cons_of_ne_nil some_ with ⟨b, more, rfl⟩
  delta feedStep
  rw [here]

theorem feedStep_closeDelimited (here : d.state = .closeDelimited) :
    d.feedStep rest = d.closeDelimitedStep rest := by
  rcases exists_cons_of_ne_nil some_ with ⟨b, more, rfl⟩
  delta feedStep
  rw [here]

theorem feedStep_chunkSize (here : d.state = .chunkSize) : d.feedStep rest = d.chunkSizeStep rest := by
  rcases exists_cons_of_ne_nil some_ with ⟨b, more, rfl⟩
  delta feedStep
  rw [here]

theorem feedStep_chunkData (here : d.state = .chunkData remaining) :
    d.feedStep rest = d.bodyRun remaining (.chunkDataCrLf 0) .chunkData rest := by
  rcases exists_cons_of_ne_nil some_ with ⟨b, more, rfl⟩
  delta feedStep
  rw [here]

end Runs

theorem feedStep_chunkDataCrLf (here : d.state = .chunkDataCrLf seen) (b : UInt8)
    (rest : Bytes) : d.feedStep (b :: rest) = (d.crLfByte seen b).map fun d => (1, d) := by
  delta feedStep
  rw [here]

theorem feedStep_trailers (here : d.state = .trailers) (b : UInt8) (rest : Bytes) :
    d.feedStep (b :: rest) = (d.feedTrailerByte b).map fun d => (1, d) := by
  delta feedStep
  rw [here]

end States

theorem extendFromSlice_append (acc : HttpResponseAccumulator) (first second : Bytes) :
    acc.extendFromSlice (first ++ second) =
      (acc.extendFromSlice first).bind (·.extendFromSlice second) := by
  rw [HttpResponseAccumulator.extendFromSlice, HttpResponseAccumulator.extendFromSlice, length_append]
  by_cases fits : acc.bytes.length + first.length ≤ acc.capacity
  · rw [if_pos fits]
    dsimp only [Except.bind]
    rw [HttpResponseAccumulator.extendFromSlice, length_append, append_assoc, Nat.add_assoc]
  · rw [if_neg fits, if_neg (by omega)]
    rfl

theorem appendBody_append (d : HttpResponseDecoder) (first second : Bytes) :
    d.appendBody (first ++ second) = (d.appendBody first).bind (·.appendBody second) := by
  rw [appendBody, appendBody]
  cases bounded : d.boundedBody with
  | none =>
    rw [extendFromSlice_append]
    cases d.acc.extendFromSlice first with
    | error e => rfl
    | ok acc => rfl
  | some body =>
    dsimp only
    rw [extendFromSlice_append, length_append]
    by_cases late : body.capacity < body.bytes.length + first.length
    · rw [if_pos late, if_pos (by omega)]
      rfl
    · have fits : body.bytes.length + first.length ≤ body.capacity := by omega
      rw [if_neg late, HttpResponseAccumulator.extendFromSlice, if_pos fits]
      dsimp only [Except.bind, Except.map, appendBody]
      rw [length_append, Nat.add_assoc]

theorem appendBody_setState (d : HttpResponseDecoder) (state : HttpDecodeState) (bytes : Bytes) :
    (d.setState state).appendBody bytes = (d.appendBody bytes).map (·.setState state) := by
  rw [appendBody, appendBody]
  dsimp only [setState]
  cases d.boundedBody with
  | none =>
    cases d.acc.extendFromSlice bytes with
    | error e => rfl
    | ok acc => rfl
  | some body =>
    dsimp only
    by_cases late : body.capacity < body.bytes.length + bytes.length
    · rw [if_pos late, if_pos late]
      rfl
    · rw [if_neg late, if_neg late]
      cases body.extendFromSlice bytes with
      | error e => rfl
      | ok body => rfl

theorem bodyRun_first (d : HttpResponseDecoder) (remaining : Nat) (done : HttpDecodeState)
    (going : Nat → HttpDecodeState) (b : UInt8) (rest : Bytes) :
    Splits (d.bodyRun remaining done going) (·.state = going (remaining - 1))
      (·.bodyRun (remaining - 1) done going rest) b rest := by
  match remaining with
  | 0 =>
    left
    rfl
  | 1 =>
    left
    rfl
  | more + 2 =>
    have taken : min (more + 2) (b :: rest).length = min (more + 1) rest.length + 1 := by
      rw [length_cons]
      omega
    have shorter : more + 2 - (min (more + 1) rest.length + 1) =
      more + 1 - min (more + 1) rest.length := by omega
    have one : min (more + 2) [b].length = 1 := by
      rw [length_singleton]
      omega
    rw [Splits, bodyRun, bodyRun, taken, one, take_succ_cons, ← singleton_append, appendBody_append, shorter]
    rcases first : d.appendBody [b] with _ | d1
    · exact Or.inl (by rw [show List.take 1 [b] = [b] from rfl, first]; rfl)
    right
    rw [show List.take 1 [b] = [b] from rfl, first]
    refine ⟨_, rfl, rfl, ?_⟩
    simp only [bodyRun, andThen_map, Except.bind, show more + 2 - 1 = more + 1 from rfl, appendBody_setState]
    cases d1.appendBody (rest.take (min (more + 1) rest.length)) with
    | error e => rfl
    | ok d2 => rfl

theorem extendFromSlice_ok {acc after : HttpResponseAccumulator}
    (done : acc.extendFromSlice bytes = .ok after) :
    acc.bytes.length + bytes.length ≤ acc.capacity ∧ after = { acc with bytes := acc.bytes ++ bytes } := by
  rw [HttpResponseAccumulator.extendFromSlice, require_ok, Except.ok.injEq] at done
  exact ⟨done.1, done.2.symm⟩

theorem extendFromSlice_error {acc : HttpResponseAccumulator} {e : HttpParseErr}
    (failed : acc.extendFromSlice bytes = .error e) :
    e = .invalid ∧ acc.capacity < acc.bytes.length + bytes.length := by
  rw [HttpResponseAccumulator.extendFromSlice, require_error] at failed
  rcases failed with ⟨_, ok⟩ | ⟨full, rfl⟩
  · cases ok
  · exact ⟨rfl, Nat.not_le.mp full⟩

variable {d t : HttpResponseDecoder} {bytes : Bytes}

theorem appendBody_ok (done : d.appendBody bytes = .ok t) :
    (∃ body, d.boundedBody = some body ∧ body.bytes.length + bytes.length ≤ body.capacity ∧
        t = { d with boundedBody := some { body with bytes := body.bytes ++ bytes } }) ∨
      (d.boundedBody = none ∧ d.acc.bytes.length + bytes.length ≤ d.acc.capacity ∧
        t = { d with acc := { d.acc with bytes := d.acc.bytes ++ bytes } }) := by
  rw [appendBody] at done
  rcases bounded : d.boundedBody with _ | body
  · simp only [bounded, map_ok] at done
    rcases done with ⟨acc, grown, rfl⟩
    rcases extendFromSlice_ok grown with ⟨fits, rfl⟩
    exact Or.inr ⟨rfl, fits, rfl⟩
  simp only [bounded, refuse_ok, map_ok] at done
  rcases done with ⟨_, after, grown, rfl⟩
  rcases extendFromSlice_ok grown with ⟨fits, rfl⟩
  exact Or.inl ⟨body, rfl, fits, rfl⟩

/-- What the buffered decoder keeps between turns. -/
structure Valid (d : HttpResponseDecoder) : Prop where
  buffered : d.streaming = false
  unbounded : d.explicitBodyLimit = none → d.boundedBody = none
  head : d.state = .closeDelimited → d.finalHead.isSome = true
  bounded : d.state = .closeDelimited → d.explicitBodyLimit.isSome = true → d.boundedBody.isSome = true
  lineStart : d.state = .head → d.headLineStart ≤ d.acc.bytes.length

variable {e : HttpParseErr}

theorem appendBody_error (valid : Valid d) (here : d.state = .closeDelimited)
    (failed : d.appendBody bytes = .error e) : e = d.limitErr := by
  rw [appendBody] at failed
  rw [limitErr]
  cases bounded : d.boundedBody with
  | none =>
    have noLimit : ¬ d.explicitBodyLimit.isSome = true := fun limit => by
      have stored := valid.bounded here limit
      rw [bounded] at stored
      cases stored
    simp only [bounded, map_error] at failed
    rw [if_neg noLimit, (extendFromSlice_error failed).1]
  | some body =>
    have limit : d.explicitBodyLimit.isSome = true := by
      rw [← ne_none_iff_isSome]
      intro absent
      rw [valid.unbounded absent] at bounded
      cases bounded
    simp only [bounded, refuse_error, map_error] at failed
    rw [if_pos limit]
    rcases failed with ⟨_, rfl⟩ | ⟨inside, failed⟩
    · rfl
    · exact absurd (extendFromSlice_error failed).2 inside

theorem bodyLen_append (buffered : d.streaming = false)
    (head : d.finalHead.isSome = true) (before : d.bodyLen = .ok n) (done : d.appendBody bytes = .ok t) :
    t.bodyLen = .ok (n + bytes.length) := by
  rcases isSome_iff_exists.mp head with ⟨final, known⟩
  rw [bodyLen, buffered, if_neg Bool.false_ne_true] at before
  rcases appendBody_ok done with ⟨body, bounded, _, rfl⟩ | ⟨unbounded, _, rfl⟩
  · rw [bounded] at before
    cases before
    simp only [bodyLen, buffered, Bool.false_eq_true, if_false, length_append]
  · simp only [unbounded, known, require_ok, Except.ok.injEq] at before
    simp only [bodyLen, buffered, Bool.false_eq_true, if_false, unbounded, known, length_append, require_ok,
      Except.ok.injEq]
    omega

theorem closeDelimitedStep_first (valid : Valid d) (here : d.state = .closeDelimited) (b : UInt8)
    (rest : Bytes) :
    Splits d.closeDelimitedStep (·.state = .closeDelimited) (·.closeDelimitedStep rest) b rest := by
  rw [Splits, closeDelimitedStep, closeDelimitedStep]
  rcases length : d.bodyLen with _ | n
  · exact Or.inl rfl
  dsimp only [Except.bind]
  rw [length_cons, length_singleton]
  by_cases late : d.explicitBodyLimit.getD httpMaxBody < n + 1
  · rw [if_pos late, if_pos (by omega)]
    exact Or.inl rfl
  rw [if_neg late, ← singleton_append, appendBody_append]
  rcases first : d.appendBody [b] with _ | t
  · left
    rw [appendBody_error valid here first]
    split_ifs <;> rfl
  right
  have longer := bodyLen_append valid.buffered (valid.head here) length first
  obtain ⟨state, limits⟩ : t.state = d.state ∧ t.explicitBodyLimit = d.explicitBodyLimit := by
    rcases appendBody_ok first with ⟨body, _, _, rfl⟩ | ⟨_, _, rfl⟩
    · exact ⟨rfl, rfl⟩
    · exact ⟨rfl, rfl⟩
  refine ⟨t, rfl, state.trans here, ?_⟩
  have sums : n + (rest.length + 1) = n + 1 + rest.length := by omega
  dsimp only [andThen, Except.bind]
  rw [closeDelimitedStep, longer, length_singleton]
  dsimp only [Except.bind]
  rw [show t.limitErr = d.limitErr by rw [limitErr, limitErr, limits], limits, sums]
  split_ifs
  · rfl
  · exact (andThen_map t (·.appendBody rest) id).symm

section Charge
variable (d : HttpResponseDecoder) (count : Nat)

@[simp] theorem chargeFraming_line : (d.chargeFraming count).line = d.line := rfl

@[simp] theorem chargeFraming_bodyLen : (d.chargeFraming count).bodyLen = d.bodyLen := rfl

@[simp] theorem chargeFraming_bodyCap : (d.chargeFraming count).bodyCap = d.bodyCap := rfl

@[simp] theorem chargeFraming_limitErr : (d.chargeFraming count).limitErr = d.limitErr := rfl

@[simp] theorem chargeFraming_sizeCeiling : (d.chargeFraming count).sizeCeiling = d.sizeCeiling := rfl

@[simp] theorem chargeFraming_streaming : (d.chargeFraming count).streaming = d.streaming := rfl

@[simp] theorem chargeFraming_explicitBodyLimit :
    (d.chargeFraming count).explicitBodyLimit = d.explicitBodyLimit := rfl

theorem chargeFraming_setLine (line : ChunkLine) :
    (d.chargeFraming count).setLine line = (d.setLine line).chargeFraming count := rfl

theorem startChunk_charge (size : Nat) :
    (d.chargeFraming count).startChunk size = (d.startChunk size).chargeFraming count := by
  rw [startChunk, startChunk]
  split_ifs <;> rfl

theorem finishChunkLine_charge :
    (d.chargeFraming count).finishChunkLine = d.finishChunkLine.map (·.chargeFraming count) := by
  simp only [finishChunkLine, chargeFraming_line, chargeFraming_bodyLen, chargeFraming_bodyCap,
    chargeFraming_limitErr, startChunk_charge]
  cases d.bodyLen with
  | error e => split_ifs <;> rfl
  | ok n =>
    dsimp only [Except.bind]
    split_ifs <;> rfl

theorem chunkLineByte_charge (b : UInt8) :
    (d.chargeFraming count).chunkLineByte b = (d.chunkLineByte b).map (·.chargeFraming count) := by
  rw [chunkLineByte, chunkLineByte, chargeFraming_line, chargeFraming_sizeCeiling, chargeFraming_streaming,
    chargeFraming_explicitBodyLimit, chargeFraming_setLine]
  split_ifs
  · rfl
  · exact finishChunkLine_charge _ _
  · rfl
  · rfl
  · rfl
  cases chunkLineNext d.sizeCeiling (!d.streaming && d.explicitBodyLimit.isNone) d.line.counted b with
  | error e => rfl
  | ok line => rfl

end Charge

variable {strict : Bool} {line : ChunkLine} {ceiling : Nat}

theorem chunkLineNext_error (failed : chunkLineNext ceiling strict line b = .error e) : e = .invalid := by
  grind [chunkLineNext, chunkSizeDigit]

theorem chunkLineNext_len {after : ChunkLine}
    (done : chunkLineNext ceiling strict line b = .ok after) : after.len = line.len := by
  grind [chunkLineNext, chunkSizeDigit]

variable {d : HttpResponseDecoder} {b : UInt8}

theorem chunkLineByte_open (inner : b ≠ lf) :
    d.chunkLineByte b = .error .invalid ∨
      ∃ line, d.chunkLineByte b = .ok (d.setLine line) ∧ line.len = d.line.len + 1 := by
  rw [chunkLineByte]
  split_ifs
  · exact Or.inl rfl
  · exact Or.inr ⟨_, rfl, rfl⟩
  · exact Or.inl rfl
  cases next : chunkLineNext d.sizeCeiling (!d.streaming && d.explicitBodyLimit.isNone)
    d.line.counted b with
  | error e =>
    rw [chunkLineNext_error next]
    exact Or.inl rfl
  | ok line => exact Or.inr ⟨line, rfl, chunkLineNext_len next⟩

theorem memchr_cons_ne (other : b ≠ needle) (rest : Bytes) :
    memchr needle (b :: rest) = (memchr needle rest).map (· + 1) := by
  rw [memchr, memchr, findIdx?_cons, if_neg (by rw [beq_iff_eq]; exact other)]

theorem lineTake_cons (inner : b ≠ lf) (rest : Bytes) :
    lineTake (b :: rest) = lineTake rest + 1 := by
  rw [lineTake, memchr_cons_ne inner, lineTake]
  cases memchr lf rest with
  | none => rfl
  | some nl => rfl

theorem lineTake_le (rest : Bytes) : lineTake rest ≤ rest.length := by
  rw [lineTake]
  cases hit : memchr lf rest with
  | none => exact Nat.le_refl _
  | some nl => exact memchr_lt hit

theorem lineTake_pos (some_ : rest ≠ []) : 0 < (rest.take (lineTake rest)).length := by
  have length := length_pos_iff.mpr some_
  rw [length_take, lineTake]
  cases memchr lf rest with
  | none =>
    dsimp only
    omega
  | some nl =>
    dsimp only
    omega

theorem chargeFraming_add (d : HttpResponseDecoder) (first second : Nat) :
    (d.chargeFraming first).chargeFraming second = d.chargeFraming (first + second) := by
  rw [chargeFraming, chargeFraming, chargeFraming, Nat.add_assoc]

theorem feedChunkLine_cons (inner : b ≠ lf) (line : Bytes) :
    (d.feedChunkLine [b] = .error .invalid ∧ d.feedChunkLine (b :: line) = .error .invalid) ∨
      ∃ t, d.feedChunkLine [b] = .ok t ∧ t.state = d.state ∧
        d.feedChunkLine (b :: line) = t.feedChunkLine line := by
  rw [feedChunkLine, feedChunkLine, length_singleton, length_cons]
  by_cases full : httpMaxChunkFraming < d.chunkFramingBytes + 1 ∨ httpMaxChunkLine < d.line.len + 1
  · rw [if_pos full, if_pos (by omega)]
    exact Or.inl ⟨rfl, rfl⟩
  rw [if_neg full, foldlM_cons, foldlM_cons, chunkLineByte_charge, chunkLineByte_charge]
  rcases chunkLineByte_open inner (d := d) with failed | ⟨next, done, length⟩
  · left
    rw [failed]
    refine ⟨rfl, ?_⟩
    split_ifs <;> rfl
  · right
    rw [done]
    refine ⟨(d.setLine next).chargeFraming 1, rfl, rfl, ?_⟩
    have counts : (d.setLine next).chargeFraming (line.length + 1) =
      ((d.setLine next).chargeFraming 1).chargeFraming line.length := by
      rw [chargeFraming_add, Nat.add_comm]
    rw [feedChunkLine, ← counts]
    refine if_congr ?_ rfl rfl
    dsimp only [chargeFraming, setLine]
    omega

theorem chunkSizeStep_first (here : d.state = .chunkSize) (b : UInt8) {rest : Bytes} (some_ : rest ≠ []) :
    Splits d.chunkSizeStep (·.state = .chunkSize) (·.chunkSizeStep rest) b rest := by
  by_cases isLf : b = lf
  · subst isLf
    left
    rfl
  have more := lineTake_pos some_
  rw [Splits, chunkSizeStep, chunkSizeStep, lineTake_cons isLf, lineTake_cons isLf,
    show lineTake [] + 1 = 1 from rfl, show List.take 1 [b] = [b] from rfl, take_succ_cons]
  rcases feedChunkLine_cons isLf _ (d := d) with
    ⟨single, bulk⟩ | ⟨t, single, state, bulk⟩
  · rw [single, bulk]
    exact Or.inl rfl
  rw [single, bulk]
  have open_ : t.state ≠ .trailers := by
    rw [state, here]
    intro absurd_
    cases absurd_
  dsimp only [Except.bind]
  by_cases spent : t.chunkFramingBytes = httpMaxChunkFraming
  · -- The allowance is gone and the line goes on.
    left
    rw [if_pos ⟨spent, open_⟩, feedChunkLine, if_pos (Or.inl (by omega))]
  right
  rw [if_neg (fun both => spent both.1)]
  refine ⟨t, rfl, state.trans here, ?_⟩
  dsimp only [andThen]
  rw [chunkSizeStep]
  cases t.feedChunkLine (rest.take (lineTake rest)) with
  | error e => rfl
  | ok u =>
    dsimp only [Except.bind]
    split_ifs
    · rfl
    · dsimp only
      rw [Nat.add_comm 1]

variable {d t : HttpResponseDecoder} {bytes : Bytes}

theorem appendHead_ok (done : d.appendHead bytes = .ok t) :
    d.cumulativeHeadBytes + bytes.length ≤ httpMaxHeaderBlock ∧
      t = { d with
        acc := { d.acc with bytes := d.acc.bytes ++ bytes }
        cumulativeHeadBytes := d.cumulativeHeadBytes + bytes.length } := by
  rw [appendHead, refuse_ok, map_ok] at done
  rcases done with ⟨fits, acc, grown, rfl⟩
  rw [(extendFromSlice_ok grown).2]
  exact ⟨Nat.not_lt.mp fits, rfl⟩

theorem appendHead_error (failed : d.appendHead bytes = .error e) : e = .invalid := by
  rw [appendHead, refuse_error, map_error] at failed
  rcases failed with ⟨_, rfl⟩ | ⟨_, failed⟩
  · rfl
  · exact (extendFromSlice_error failed).1

theorem appendHead_append (d : HttpResponseDecoder) (first second : Bytes) :
    d.appendHead (first ++ second) = (d.appendHead first).bind (·.appendHead second) := by
  rw [appendHead, appendHead, extendFromSlice_append, length_append]
  by_cases late : httpMaxHeaderBlock < d.cumulativeHeadBytes + first.length
  · rw [if_pos late, if_pos (by omega)]
    rfl
  rw [if_neg late]
  cases grown : d.acc.extendFromSlice first with
  | error e =>
    cases (extendFromSlice_error grown).1
    split_ifs <;> rfl
  | ok acc =>
    dsimp only [Except.bind, Except.map]
    rw [appendHead, Nat.add_assoc]
    rfl

theorem slice_line (rest : text.drop start = body ++ [lf])
    (long : start + 2 ≤ text.length) (ends : text[text.length - 2]? = some Http.cr) :
    slice text start (text.length - 2) ++ [Http.cr] = body := by
  have cut : text.drop start = slice text start (text.length - 2) ++ text.drop (text.length - 2) := by
    rw [slice]
    nth_rewrite 1 [← take_append_drop (text.length - 2 - start) (text.drop start)]
    rw [drop_drop, Nat.add_sub_cancel' (by omega)]
  have last : text.drop (text.length - 2) = [Http.cr] ++ text.drop (text.length - 1) := by
    rcases List.getElem?_eq_some_iff.mp ends with ⟨bound, byte⟩
    rw [drop_eq_getElem_cons bound, byte, singleton_append]
    congr 2
    omega
  rw [rest, last, ← append_assoc] at cut
  have tail : (text.drop (text.length - 1)).length = [lf].length := by
    rw [length_drop, length_singleton]
    omega
  exact (append_inj' cut.symm tail).1

theorem finishHeadLine_rejects (text : d.acc.bytes.drop d.headLineStart = start ++ (more ++ [lf]))
    (bad : partialLineOk (d.headLineStart == 0) start = false) :
    d.finishHeadLine = .error .invalid := by
  rw [finishHeadLine]
  by_cases short : d.acc.bytes.length < d.headLineStart + 2 ∨
    d.acc.bytes[d.acc.bytes.length - 2]? ≠ some Http.cr
  · rw [if_pos short]
  rw [if_neg short]
  rw [not_or, Nat.not_lt, not_not] at short
  rw [← append_assoc] at text
  have line := slice_line text short.1 short.2
  have refused : lineOk (d.headLineStart == 0)
    (slice d.acc.bytes d.headLineStart (d.acc.bytes.length - 2)) = false := by
    cases verdict : lineOk (d.headLineStart == 0)
      (slice d.acc.bytes d.headLineStart (d.acc.bytes.length - 2)) with
    | false => rfl
    | true =>
      rw [partialLineOk_of_lineOk verdict line] at bad
      cases bad
  by_cases isFirst : d.headLineStart = 0
  · rw [beq_iff_eq.mpr isFirst, lineOk, if_pos rfl] at refused
    rw [if_pos isFirst, refused]
    rfl
  rw [beq_false_of_ne isFirst, lineOk, if_neg Bool.false_ne_true, Bool.or_eq_false_iff] at refused
  rw [if_neg isFirst, refused.1, if_neg Bool.false_ne_true]
  by_cases flood : d.headHeaderCount = httpMaxHeaders
  · rw [if_pos flood]
  have width : d.headLineStart + (d.acc.bytes.length - 2 - d.headLineStart) =
    d.acc.bytes.length - 2 := by omega
  rw [if_neg flood, validateIncrementalHeader, responseHeaderLine, width,
    isSome_eq_false_iff.mp refused.2 |> isNone_iff_eq_none.mp]
  rfl

theorem headStep_none (miss : memchr lf rest = none) :
    d.headStep rest = (d.appendHead rest).bind fun d =>
      if !partialLineOk (d.headLineStart == 0) (d.acc.bytes.drop d.headLineStart) then
        .error .invalid
      else if d.cumulativeHeadBytes = httpMaxHeaderBlock then .error .invalid
      else .ok (rest.length, d) := by
  rw [headStep, miss]

theorem headStep_some (hit : memchr lf rest = some nl) :
    d.headStep rest =
      (d.appendHead (rest.take (nl + 1))).bind fun d => d.finishHeadLine.map fun d => (nl + 1, d) := by
  rw [headStep, hit]

/-- The end of a turn inside a line: its beginning has to be one of a good line. -/
def pauseHeadLine (d : HttpResponseDecoder) : Except HttpParseErr HttpResponseDecoder :=
  if !partialLineOk (d.headLineStart == 0) (d.acc.bytes.drop d.headLineStart) then .error .invalid
  else if d.cumulativeHeadBytes = httpMaxHeaderBlock then .error .invalid
  else .ok d

theorem headStep_line (rest : Bytes) :
    d.headStep rest = ((d.appendHead (rest.take (lineTake rest))).bind fun d =>
      if (memchr lf rest).isSome then d.finishHeadLine else d.pauseHeadLine).map
        fun d => (lineTake rest, d) := by
  cases hit : memchr lf rest with
  | none =>
    rw [headStep_none hit, lineTake, hit]
    rw [take_length]
    cases d.appendHead rest with
    | error e => rfl
    | ok u =>
      dsimp only [Except.bind]
      rw [isSome_none, if_neg Bool.false_ne_true, pauseHeadLine]
      split_ifs <;> rfl
  | some nl =>
    rw [headStep_some hit, lineTake, hit]
    dsimp only
    cases d.appendHead (rest.take (nl + 1)) with
    | error e => rfl
    | ok u => rfl

theorem headStep_append (d : HttpResponseDecoder) (inner : b ≠ lf) (rest : Bytes) :
    d.headStep (b :: rest) =
      (d.appendHead [b]).bind fun t => andThen (.ok (1, t)) fun _ t => t.headStep rest := by
  rw [headStep_line, lineTake_cons inner, take_succ_cons, ← singleton_append, appendHead_append,
    memchr_cons_ne inner, isSome_map]
  cases d.appendHead [b] with
  | error e => rfl
  | ok t => simp only [Except.bind, headStep_line rest, andThen_map]

theorem headStep_rejects (inner : b ≠ lf) (some_ : rest ≠ [])
    (inside : d.headLineStart ≤ d.acc.bytes.length) (first : d.appendHead [b] = .ok t)
    (bad : partialLineOk (t.headLineStart == 0) (t.acc.bytes.drop t.headLineStart) = false) :
    d.headStep (b :: rest) = .error .invalid := by
  have inside' : t.headLineStart ≤ t.acc.bytes.length := by
    rw [(appendHead_ok first).2]
    dsimp only
    rw [length_append]
    omega
  rw [headStep_append d inner, first]
  dsimp only [Except.bind, andThen]
  rw [headStep_line]
  rcases more : t.appendHead (rest.take (lineTake rest)) with _ | u
  · rw [appendHead_error more]; rfl
  -- Where the rest was appended too, the line is the refused beginning and more.
  have text : u.headLineStart = t.headLineStart ∧ u.acc.bytes.drop u.headLineStart =
    t.acc.bytes.drop t.headLineStart ++ rest.take (lineTake rest) := by
    rw [(appendHead_ok more).2]
    exact ⟨rfl, drop_append_of_le_length inside'⟩
  dsimp only [Except.bind]
  have begun : partialLineOk (u.headLineStart == 0) (t.acc.bytes.drop t.headLineStart) = false := by
    rw [text.1]
    exact bad
  cases hit : memchr lf rest with
  | none =>
    rw [lineTake, hit, take_length] at text
    have still : partialLineOk (u.headLineStart == 0) (u.acc.bytes.drop u.headLineStart) = false := by
      refine Bool.eq_false_iff.mpr fun verdict => ?_
      rw [text.2] at verdict
      rw [partialLineOk_front some_ verdict] at begun
      cases begun
    rw [pauseHeadLine, still]
    rfl
  | some nl =>
    rcases memchr_some_split hit with ⟨before, after, rfl, _, size⟩
    have taken : (before ++ lf :: after).take (nl + 1) = before ++ [lf] := by
      rw [← size, append_cons, take_left']
      rw [length_append]
      rfl
    rw [lineTake, hit, taken] at text
    rw [finishHeadLine_rejects text.2 begun]
    rfl

theorem headStep_full (some_ : rest ≠ [])
    (full : d.cumulativeHeadBytes = httpMaxHeaderBlock) : d.headStep rest = .error .invalid := by
  have more := lineTake_pos some_
  rw [headStep_line, appendHead, if_pos (by omega)]
  rfl

theorem headStep_first (here : d.state = .head) (inside : d.headLineStart ≤ d.acc.bytes.length)
    (b : UInt8) {rest : Bytes} (some_ : rest ≠ []) :
    Splits d.headStep (·.state = .head) (·.headStep rest) b rest := by
  by_cases isLf : b = lf
  · subst isLf
    left
    rfl
  have alone : memchr lf [b] = none := by rw [memchr_cons_ne isLf]; rfl
  have bulk := headStep_append d isLf rest
  rw [Splits, headStep_none alone]
  rcases first : d.appendHead [b] with _ | t
  · rw [first] at bulk
    exact Or.inl bulk
  rw [first] at bulk
  dsimp only [Except.bind] at bulk ⊢
  cases verdict : partialLineOk (t.headLineStart == 0) (t.acc.bytes.drop t.headLineStart) with
  | false =>
    left
    rw [headStep_rejects isLf some_ inside first verdict]
    rfl
  | true =>
    by_cases full : t.cumulativeHeadBytes = httpMaxHeaderBlock
    · left
      rw [bulk, if_neg (by decide), if_pos full]
      dsimp only [andThen]
      rw [headStep_full some_ full]
    · right
      rw [if_neg (by decide), if_neg full]
      refine ⟨t, rfl, ?_, bulk⟩
      rw [(appendHead_ok first).2]
      exact here

/-- The mode of the decoder and its agreement with the body's storage. -/
structure Steady (d : HttpResponseDecoder) : Prop where
  buffered : d.streaming = false
  unbounded : d.explicitBodyLimit = none → d.boundedBody = none

theorem Valid.steady (valid : Valid d) : Steady d :=
  ⟨valid.buffered, valid.unbounded⟩

theorem Steady.valid (steady : Steady d) (notHead : d.state ≠ .head)
    (notClose : d.state ≠ .closeDelimited) : Valid d :=
  ⟨steady.buffered, steady.unbounded, fun here => absurd here notClose,
    fun here => absurd here notClose, fun here => absurd here notHead⟩

theorem Steady.setState (steady : Steady d) (state : HttpDecodeState) :
    Steady (d.setState state) :=
  ⟨steady.buffered, steady.unbounded⟩

/-- A turn that leaves the body's storage alone and stays inside a framed body. -/
theorem Valid.moved (valid : Valid d) (s : HttpDecodeState)
    (inner : s ≠ .head ∧ s ≠ .closeDelimited) (state : t.state = s)
    (streaming : t.streaming = d.streaming) (limit : t.explicitBodyLimit = d.explicitBodyLimit)
    (bounded : t.boundedBody = d.boundedBody) : Valid t := by
  apply Steady.valid
  · constructor
    · rw [streaming]
      exact valid.buffered
    · rw [limit, bounded]
      exact valid.unbounded
  · rw [state]
    exact inner.1
  · rw [state]
    exact inner.2

theorem appendBody_steady (steady : Steady d) (done : d.appendBody bytes = .ok t) : Steady t := by
  rcases appendBody_ok done with ⟨body, bounded, _, rfl⟩ | ⟨_, _, rfl⟩
  · refine ⟨steady.buffered, fun none_ => ?_⟩
    rw [steady.unbounded none_] at bounded
    cases bounded
  · exact ⟨steady.buffered, steady.unbounded⟩

theorem prepareBody_steady (steady : Steady d) : Steady d.prepareBody := by
  refine ⟨steady.buffered, fun none_ => ?_⟩
  have absent : d.explicitBodyLimit = none := none_
  rw [prepareBody]
  rw [steady.buffered, if_neg Bool.false_ne_true, absent]
  exact steady.unbounded absent

theorem prepareBody_bounded (buffered : d.streaming = false)
    (limited : d.explicitBodyLimit.isSome = true) : d.prepareBody.boundedBody.isSome = true := by
  rcases isSome_iff_exists.mp limited with ⟨limit, known⟩
  rw [prepareBody]
  rw [buffered, if_neg Bool.false_ne_true, known]
  cases d.boundedBody with
  | none => rfl
  | some body => rfl

variable {d t : HttpResponseDecoder} {remaining n : Nat} {done : HttpDecodeState}
  {rest : Bytes}

theorem bodyRun_ok (ran : d.bodyRun remaining done going rest = .ok (n, t)) :
    n = min remaining rest.length ∧ ∃ u, d.appendBody (rest.take n) = .ok u ∧
      t = u.setState (if remaining - n = 0 then done else going (remaining - n)) := by
  rw [bodyRun, map_ok] at ran
  rcases ran with ⟨u, appended, same⟩
  cases same
  exact ⟨rfl, u, appended, rfl⟩

theorem bodyRun_valid (valid : Valid d) (ran : d.bodyRun remaining done going rest = .ok (n, t))
    (doneOk : done ≠ .head ∧ done ≠ .closeDelimited)
    (goingOk : ∀ k, going k ≠ .head ∧ going k ≠ .closeDelimited) : Valid t := by
  rcases (bodyRun_ok ran).2 with ⟨u, appended, rfl⟩
  have steady := appendBody_steady valid.steady appended
  by_cases all : remaining - n = 0
  · rw [if_pos all]
    exact (steady.setState _).valid doneOk.1 doneOk.2
  · rw [if_neg all]
    exact (steady.setState _).valid (goingOk _).1 (goingOk _).2

theorem closeDelimitedStep_ok (ran : d.closeDelimitedStep rest = .ok (n, t)) : n = rest.length ∧ d.appendBody rest = .ok t := by
  simp only [closeDelimitedStep, bind_ok, refuse_ok, map_ok, Prod.mk.injEq] at ran
  rcases ran with ⟨_, _, _, u, appended, rfl, rfl⟩
  exact ⟨rfl, appended⟩

theorem closeDelimitedStep_valid (valid : Valid d) (here : d.state = .closeDelimited)
    (ran : d.closeDelimitedStep rest = .ok (n, t)) : Valid t := by
  have appended := (closeDelimitedStep_ok ran).2
  have steady := appendBody_steady valid.steady appended
  have notHead : d.state ≠ .head := by
    rw [here]
    nofun
  rcases appendBody_ok appended with ⟨body, bounded, _, rfl⟩ | ⟨unbounded, _, rfl⟩
  · exact ⟨steady.buffered, steady.unbounded, fun _ => valid.head here, fun _ _ => rfl,
      fun wrong => absurd wrong notHead⟩
  · exact ⟨steady.buffered, steady.unbounded, fun _ => valid.head here, fun _ => valid.bounded here,
      fun wrong => absurd wrong notHead⟩

def Chunked (d : HttpResponseDecoder) : Prop :=
  Steady d ∧ d.state ≠ .head ∧ d.state ≠ .closeDelimited

theorem Chunked.valid (chunked : Chunked d) : Valid d :=
  chunked.1.valid chunked.2.1 chunked.2.2

theorem startChunk_chunked (steady : Steady d) (size : Nat) :
    Chunked (d.startChunk size) := by
  by_cases last : size = 0
  · subst last
    exact ⟨⟨steady.buffered, steady.unbounded⟩, nofun, nofun⟩
  · have prepared := prepareBody_steady steady
    rw [startChunk, if_neg last, if_pos last]
    exact ⟨⟨prepared.buffered, prepared.unbounded⟩, nofun, nofun⟩

theorem finishChunkLine_ok (done : d.finishChunkLine = .ok t) :
    t = d.startChunk d.line.size := by
  simp only [finishChunkLine, refuse_ok, bind_ok, Except.ok.injEq] at done
  rcases done with ⟨_, _, _, _, rfl⟩
  rfl

theorem chunkLineByte_ok (done : d.chunkLineByte b = .ok t) :
    (∃ line, t = d.setLine line) ∨ t = (d.setLine d.line.counted).startChunk d.line.size := by
  by_cases isLf : b = lf
  · simp only [chunkLineByte, isLf, ne_eq, not_true_eq_false, if_false, if_true, require_ok] at done
    exact Or.inr (finishChunkLine_ok done.2)
  rcases chunkLineByte_open isLf (d := d) with failed | ⟨line, next, _⟩
  · rw [failed] at done
    cases done
  · rw [next] at done
    cases done
    exact Or.inl ⟨line, rfl⟩

theorem chunkLineByte_chunked (chunked : Chunked d) (done : d.chunkLineByte b = .ok t) : Chunked t := by
  rcases chunkLineByte_ok done with ⟨line, rfl⟩ | rfl
  · exact ⟨⟨chunked.1.buffered, chunked.1.unbounded⟩, chunked.2⟩
  · have steady : Steady (d.setLine d.line.counted) := ⟨chunked.1.buffered, chunked.1.unbounded⟩
    exact startChunk_chunked steady _

theorem chunkSizeStep_ok (ran : d.chunkSizeStep rest = .ok (n, t)) :
    n = lineTake rest ∧ d.feedChunkLine (rest.take n) = .ok t ∧
      ¬ (t.chunkFramingBytes = httpMaxChunkFraming ∧ t.state ≠ .trailers) := by
  simp only [chunkSizeStep, bind_ok, refuse_ok, Except.ok.injEq, Prod.mk.injEq] at ran
  rcases ran with ⟨u, fed, going, rfl, rfl⟩
  exact ⟨rfl, fed, going⟩

theorem chunkSizeStep_valid (valid : Valid d) (here : d.state = .chunkSize)
    (ran : d.chunkSizeStep rest = .ok (n, t)) : Valid t := by
  have fed := (chunkSizeStep_ok ran).2.1
  rw [feedChunkLine, refuse_ok] at fed
  have start : Chunked (d.chargeFraming (rest.take n).length) := by
    rw [Chunked, show (d.chargeFraming _).state = _ from here]
    exact ⟨⟨valid.buffered, valid.unbounded⟩, by decide, by decide⟩
  exact (foldlM_keeps _ (fun _ _ _ => chunkLineByte_chunked) _ t start fed.2).valid

theorem crLfByte_valid (valid : Valid d) (done : d.crLfByte seen b = .ok t) : Valid t := by
  rw [crLfByte] at done
  dsimp only at done
  split_ifs at done
  · cases done
    exact valid.moved .chunkSize (by decide) rfl rfl rfl rfl
  · cases done
    exact valid.moved (.chunkDataCrLf 1) (by decide) rfl rfl rfl rfl

theorem trailerNext_ok (done : d.trailerNext b = .ok t) :
    (∃ trailer, t = { d with trailer } ∧ trailer.bytes = d.trailer.bytes) ∨ t = d.setState .complete := by
  rw [trailerNext] at done
  cases here : d.trailer.state with
  | start =>
    rw [here] at done
    rcases ite_eq_iff.mp done with ⟨_, blank⟩ | ⟨_, named⟩
    · cases blank
      exact Or.inl ⟨_, rfl, rfl⟩
    rw [require_ok] at named
    rcases final : d.finalHead with _ | head
    · rw [final] at named
      cases named.2
    rw [final] at named
    cases (refuse_ok.mp named.2).2
    exact Or.inl ⟨_, rfl, rfl⟩
  | name =>
    simp only [here] at done
    split_ifs at done <;> cases done <;> exact Or.inl ⟨_, rfl, rfl⟩
  | value =>
    simp only [here] at done
    split_ifs at done <;> cases done <;> exact Or.inl ⟨_, rfl, rfl⟩
  | lineLf =>
    simp only [here, refuse_ok, Except.ok.injEq] at done
    exact Or.inl ⟨_, done.2.symm, rfl⟩
  | finalLf =>
    simp only [here, refuse_ok, Except.ok.injEq] at done
    exact Or.inr done.2.symm

theorem feedTrailerByte_ok (done : d.feedTrailerByte b = .ok t) :
    ∃ trailer, t = { d with trailer } ∨ t = { d with trailer }.setState .complete := by
  simp only [feedTrailerByte, refuse_ok, bind_ok, Except.ok.injEq] at done
  rcases done with ⟨_, u, next, _, rfl⟩
  rcases trailerNext_ok next with ⟨trailer, rfl, _⟩ | rfl
  · exact ⟨trailer, Or.inl rfl⟩
  · exact ⟨_, Or.inr rfl⟩

theorem feedTrailerByte_valid (valid : Valid d) (here : d.state = .trailers)
    (done : d.feedTrailerByte b = .ok t) : Valid t := by
  rcases feedTrailerByte_ok done with ⟨trailer, rfl | rfl⟩
  · exact valid.moved _ (by decide) here rfl rfl rfl
  · exact valid.moved .complete (by decide) rfl rfl rfl rfl

variable {head : HttpHead}

theorem selectBody_valid (valid : Valid d) (done : d.selectBody head = .ok t) : Valid t := by
  have accepted : ∀ delimited, Steady (d.acceptHead head delimited) :=
    fun _ => ⟨valid.buffered, valid.unbounded⟩
  rw [selectBody] at done
  split_ifs at done
  · cases done
    exact valid.moved .complete (by decide) rfl rfl rfl rfl
  · cases done
    exact valid.moved .chunkSize (by decide) rfl rfl rfl rfl
  cases length : head.contentLength with
  | some span =>
    simp only [length, map_ok] at done
    rcases done with ⟨remaining, _, rfl⟩
    apply Steady.valid ((prepareBody_steady (accepted true)).setState _)
    · split_ifs <;> nofun
    · split_ifs <;> nofun
  | none =>
    rw [length] at done
    cases done
    have steady := prepareBody_steady (accepted false)
    refine ⟨steady.buffered, steady.unbounded, fun _ => rfl, fun _ limited => ?_, nofun⟩
    exact prepareBody_bounded (d := d.acceptHead head false) valid.buffered limited

theorem selectHead_valid (valid : Valid d) (done : d.selectHead head = .ok t) : Valid t := by
  rw [selectHead] at done
  split_ifs at done
  · cases done
    exact ⟨valid.buffered, valid.unbounded, nofun, nofun, fun _ => Nat.zero_le _⟩
  · exact selectBody_valid valid done

theorem validateIncrementalHeader_ok (done : d.validateIncrementalHeader lineStart lineEnd = .ok t) :
    ∃ framing, t = { d with headFraming := framing } := by
  rw [validateIncrementalHeader, bind_ok] at done
  rcases done with ⟨⟨_, framing⟩, _, checked⟩
  cases status : d.headStatus with
  | none =>
    rw [status] at checked
    cases checked
  | some code =>
    simp only [status, refuse_ok, Except.ok.injEq] at checked
    exact ⟨framing, status ▸ checked.2.symm⟩

theorem finishHeadLine_valid (valid : Valid d) (done : d.finishHeadLine = .ok t) : Valid t := by
  rw [finishHeadLine, refuse_ok] at done
  rcases ite_eq_iff.mp done.2 with ⟨_, first⟩ | ⟨_, later⟩
  · rw [refuse_ok] at first
    cases first.2
    exact ⟨valid.buffered, valid.unbounded, valid.head, valid.bounded, fun _ => Nat.le_refl _⟩
  rcases ite_eq_iff.mp later with ⟨_, blank⟩ | ⟨_, header⟩
  · rcases bind_ok.mp blank with ⟨head, _, selected⟩
    exact selectHead_valid valid selected
  · rw [refuse_ok, map_ok] at header
    rcases header with ⟨_, u, read, rfl⟩
    rcases validateIncrementalHeader_ok read with ⟨framing, rfl⟩
    exact ⟨valid.buffered, valid.unbounded, valid.head, valid.bounded, fun _ => Nat.le_refl _⟩

theorem appendHead_valid (valid : Valid d) (here : d.state = .head)
    (done : d.appendHead bytes = .ok t) : Valid t ∧ t.state = .head := by
  rw [(appendHead_ok done).2]
  refine ⟨⟨valid.buffered, valid.unbounded, valid.head, valid.bounded, fun _ => ?_⟩, here⟩
  have inside := valid.lineStart here
  dsimp only
  rw [length_append]
  omega

theorem headStep_valid (valid : Valid d) (here : d.state = .head) (some_ : rest ≠ [])
    (ran : d.headStep rest = .ok (n, t)) :
    Valid t ∧ 0 < n ∧ n ≤ rest.length := by
  rcases hit : memchr lf rest with _ | nl
  · simp only [headStep_none hit, bind_ok, refuse_ok, Except.ok.injEq, Prod.mk.injEq] at ran
    rcases ran with ⟨u, appended, _, _, rfl, rfl⟩
    exact ⟨(appendHead_valid valid here appended).1, length_pos_iff.mpr some_, Nat.le_refl _⟩
  simp only [headStep_some hit, bind_ok, map_ok, Prod.mk.injEq] at ran
  rcases ran with ⟨u, appended, w, finished, rfl, rfl⟩
  rcases appendHead_valid valid here appended with ⟨valid', _⟩
  exact ⟨finishHeadLine_valid valid' finished, Nat.succ_pos _, memchr_lt hit⟩

/-- A body run of no bytes takes a turn of its own. -/
def owesTurn (d : HttpResponseDecoder) : Bool :=
  match d.state with
  | .fixed remaining => remaining == 0
  | .chunkData remaining => remaining == 0
  | _ => false

theorem bodyRun_progress (some_ : rest ≠ []) (ran : d.bodyRun remaining done going rest = .ok (n, t)) :
    n ≤ rest.length ∧ (n = 0 → remaining = 0 ∧ t.state = done) := by
  have length := length_pos_iff.mpr some_
  rcases bodyRun_ok ran with ⟨taken, u, _, rfl⟩
  refine ⟨by omega, fun none_ => ?_⟩
  have empty : remaining = 0 := by omega
  refine ⟨empty, ?_⟩
  rw [empty]
  exact if_pos (Nat.zero_sub n)

theorem feedStep_turn {d t : HttpResponseDecoder} (valid : Valid d)
    (running : d.complete = false) (some_ : rest ≠ []) (ran : d.feedStep rest = .ok (n, t)) :
    Valid t ∧ n ≤ rest.length ∧ (n = 0 → d.owesTurn = true ∧ t.owesTurn = false) := by
  rcases exists_cons_of_ne_nil some_ with ⟨b, more, rfl⟩
  cases here : d.state with
  | head =>
    rw [feedStep_head some_ here] at ran
    rcases headStep_valid valid here some_ ran with ⟨kept, positive, inside⟩
    exact ⟨kept, inside, fun none_ => absurd none_ (by omega)⟩
  | fixed remaining =>
    rw [feedStep_fixed some_ here] at ran
    rcases bodyRun_progress some_ ran with ⟨inside, idle⟩
    refine ⟨bodyRun_valid valid ran ⟨nofun, nofun⟩ fun _ => ⟨nofun, nofun⟩, inside, fun none_ => ?_⟩
    rw [owesTurn, here, owesTurn, (idle none_).2, (idle none_).1]
    exact ⟨rfl, rfl⟩
  | closeDelimited =>
    rw [feedStep_closeDelimited some_ here] at ran
    refine ⟨closeDelimitedStep_valid valid here ran, ?_⟩
    rw [(closeDelimitedStep_ok ran).1]
    exact ⟨Nat.le_refl _, fun none_ => absurd none_ (Nat.succ_ne_zero _)⟩
  | chunkSize =>
    rw [feedStep_chunkSize some_ here] at ran
    refine ⟨chunkSizeStep_valid valid here ran, ?_⟩
    have positive := lineTake_pos some_
    rw [length_take] at positive
    rw [(chunkSizeStep_ok ran).1]
    exact ⟨lineTake_le _, fun none_ => absurd none_ (by omega)⟩
  | chunkData remaining =>
    rw [feedStep_chunkData some_ here] at ran
    rcases bodyRun_progress some_ ran with ⟨inside, idle⟩
    refine ⟨bodyRun_valid valid ran ⟨nofun, nofun⟩ fun _ => ⟨nofun, nofun⟩, inside, fun none_ => ?_⟩
    rw [owesTurn, here, owesTurn, (idle none_).2, (idle none_).1]
    exact ⟨rfl, rfl⟩
  | chunkDataCrLf seen =>
    simp only [feedStep_chunkDataCrLf here, map_ok, Prod.mk.injEq] at ran
    rcases ran with ⟨u, byte, rfl, rfl⟩
    exact ⟨crLfByte_valid valid byte, Nat.succ_pos _, nofun⟩
  | trailers =>
    simp only [feedStep_trailers here, map_ok, Prod.mk.injEq] at ran
    rcases ran with ⟨u, byte, rfl, rfl⟩
    exact ⟨feedTrailerByte_valid valid here byte, Nat.succ_pos _, nofun⟩
  | complete =>
    rw [complete, here] at running
    cases running

theorem feedStep_split {rest : Bytes} {after : HttpDecodeState}
    {run : Bytes → Except HttpParseErr (Nat × HttpResponseDecoder)}
    {next : HttpResponseDecoder → Except HttpParseErr (Nat × HttpResponseDecoder)}
    (turn : ∀ {rest}, rest ≠ [] → d.feedStep rest = run rest)
    (first : Splits run (·.state = after) next b rest)
    (onward : ∀ t : HttpResponseDecoder, t.state = after → t.feedStep rest = next t)
    (going : after ≠ .complete) :
    Splits d.feedStep (·.complete = false) (·.feedStep rest) b rest := by
  rw [Splits, turn (cons_ne_nil _ _), turn (cons_ne_nil _ _)]
  rcases first with same | ⟨t, one, state, all⟩
  · exact Or.inl same
  · refine Or.inr ⟨t, one, beq_false_of_ne (state ▸ going), ?_⟩
    rw [all]
    dsimp only [andThen]
    rw [onward t state]

/-- In every state a turn is its first byte and a turn over the others, or the first
byte alone. -/
theorem feedStep_first (d : HttpResponseDecoder) (b : UInt8) (rest : Bytes) (valid : Valid d)
    (running : d.complete = false) (some_ : rest ≠ []) :
    Splits d.feedStep (·.complete = false) (·.feedStep rest) b rest := by
  cases here : d.state with
  | head =>
    exact feedStep_split (feedStep_head · here) (headStep_first here (valid.lineStart here) b some_)
      (fun _ => feedStep_head some_) nofun
  | fixed remaining =>
    exact feedStep_split (feedStep_fixed · here) (bodyRun_first d _ _ _ b _)
      (fun _ => feedStep_fixed some_) nofun
  | closeDelimited =>
    exact feedStep_split (feedStep_closeDelimited · here)
      (closeDelimitedStep_first valid here b _)
      (fun _ => feedStep_closeDelimited some_) nofun
  | chunkSize =>
    exact feedStep_split (feedStep_chunkSize · here) (chunkSizeStep_first here b some_)
      (fun _ => feedStep_chunkSize some_) nofun
  | chunkData remaining =>
    exact feedStep_split (feedStep_chunkData · here)
      (bodyRun_first d _ _ _ b _)
      (fun _ => feedStep_chunkData some_) nofun
  | chunkDataCrLf seen =>
    exact Or.inl (by rw [feedStep_chunkDataCrLf here, feedStep_chunkDataCrLf here])
  | trailers =>
    exact Or.inl (by rw [feedStep_trailers here, feedStep_trailers here])
  | complete =>
    rw [complete, here] at running
    cases running

theorem machine_local : Local machine Valid owesTurn where
  keeps _ _ _ _ valid running some_ ran := (feedStep_turn valid running some_ ran).1
  progress _ _ _ _ valid running some_ ran := (feedStep_turn valid running some_ ran).2
  first := feedStep_first

theorem newWithLimit_valid (methodIsHead : Bool) (limit : Option Nat) :
    Valid (newWithLimit methodIsHead limit) :=
  ⟨rfl, fun _ => rfl, nofun, nofun, fun _ => Nat.zero_le _⟩

/-- Successive calls on the pieces of a delivery. -/
def feedAll (d : HttpResponseDecoder) (pieces : List Bytes) :
    Except HttpParseErr (Nat × HttpResponseDecoder) :=
  machine.feedAll d pieces

/-- However a response is cut into pieces, the decoder ends with the error of the uncut
feed, or with its count of consumed bytes and its whole state: completeness, status,
header spans, keep-alive decision, body, and everything a later byte would meet. -/
theorem feedAll_eq_feed (methodIsHead : Bool) (limit : Option Nat) (pieces : List Bytes) :
    (newWithLimit methodIsHead limit).feedAll pieces =
      (newWithLimit methodIsHead limit).feed pieces.flatten :=
  feedAll_flatten machine_local _ pieces (newWithLimit_valid methodIsHead limit)

end HttpResponseDecoder

end Align.Http
