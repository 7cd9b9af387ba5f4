import Align.HttpStreaming

/-! The streaming decoder beside the buffered one. At the same place of an accepted
wire the two differ only in where the body went and in the framing bytes charged,
which a read may have reset; one turn of the streaming loop is a buffered feed of the
bytes it took. -/
namespace Align.Http
open Segments Feeding Outcomes List

/-- The states whose bytes are body bytes. -/
def HttpDecodeState.carriesBody : HttpDecodeState → Bool
  | .fixed _ => true
  | .closeDelimited => true
  | .chunkData _ => true
  | _ => false

namespace HttpResponseDecoder

/-- The streaming counterpart of a buffered decoder. -/
def mirror (s : HttpResponseDecoder) (acc : HttpResponseAccumulator) (streamed framing : Nat) :
    HttpResponseDecoder :=
  { s with
    acc, boundedBody := none, streaming := true, streamedBodyLen := streamed
    chunkFramingBytes := framing }

def Prepared (s : HttpResponseDecoder) : Prop :=
  s.explicitBodyLimit.isSome = true → s.boundedBody.isSome = true

/-- The buffered decoder holds the body `out`. -/
structure Stores (s : HttpResponseDecoder) (out : Bytes) : Prop where
  bounded : ∀ body, s.boundedBody = some body →
    body.bytes = out ∧ s.explicitBodyLimit = some body.capacity ∧ out.length ≤ body.capacity
  unbounded : s.boundedBody = none →
    (∃ head, s.finalHead = some head ∧ s.acc.bytes.length = head.bodyStart + out.length ∧
      s.acc.bytes.drop head.bodyStart = out) ∧
    s.acc.bytes.length ≤ httpMaxResponseLogical ∧ s.acc.capacity ≤ httpMaxResponseLogical
  waiting : s.explicitBodyLimit.isSome = true → s.boundedBody = none → out = []
  word : ∀ limit, s.explicitBodyLimit = some limit → limit < 2 ^ 64

section Storage
variable {s u : HttpResponseDecoder} {out x : Bytes}

theorem Stores.bodyLen_eq (stores : Stores s out) (buffered : s.streaming = false) :
    s.bodyLen = .ok out.length := by
  rw [bodyLen, buffered, if_neg Bool.false_ne_true]
  cases bounded : s.boundedBody with
  | some body =>
    dsimp only
    rw [(stores.bounded body bounded).1]
  | none =>
    rcases (stores.unbounded bounded).1 with ⟨head, final, length, _⟩
    dsimp only
    rw [final]
    dsimp only
    rw [length, if_pos (Nat.le_add_right _ _), Nat.add_sub_cancel_left]

theorem Stores.length_le (stores : Stores s out) (limit : Nat)
    (explicit : s.explicitBodyLimit = some limit) : out.length ≤ limit := by
  cases bounded : s.boundedBody with
  | some body =>
    rcases stores.bounded body bounded with ⟨_, same, fits⟩
    rw [explicit] at same
    cases same
    exact fits
  | none =>
    rw [stores.waiting (by rw [explicit]; rfl) bounded]
    exact Nat.zero_le _

theorem Stores.length_lt (stores : Stores s out) : out.length < 2 ^ 64 := by
  cases bounded : s.boundedBody with
  | some body =>
    rcases stores.bounded body bounded with ⟨_, same, fits⟩
    exact Nat.lt_of_le_of_lt fits (stores.word _ same)
  | none =>
    rcases stores.unbounded bounded with ⟨⟨head, _, length, _⟩, short, _⟩
    rw [httpMaxResponseLogical, httpMaxHeaderBlock, httpMaxBody] at short
    omega

theorem Stores.append (stores : Stores s out) (prepared : Prepared s)
    (done : s.appendBody x = .ok u) : Stores u (out ++ x) ∧ Prepared u := by
  rcases appendBody_ok done with ⟨body, bounded, fits, rfl⟩ | ⟨unbounded, fits, rfl⟩
  · rcases stores.bounded body bounded with ⟨same, explicit, _⟩
    refine ⟨⟨?_, nofun, fun _ => nofun, stores.word⟩, fun _ => rfl⟩
    intro after hit
    cases hit
    refine ⟨by rw [same], explicit, ?_⟩
    rw [length_append, ← same]
    exact fits
  · rcases stores.unbounded unbounded with ⟨⟨head, final, length, text⟩, short, capacity⟩
    refine ⟨⟨?_, ?_, ?_, stores.word⟩, prepared⟩
    · intro body hit
      rw [show s.boundedBody = some body from hit] at unbounded
      cases unbounded
    · intro _
      refine ⟨⟨head, final, ?_, ?_⟩, ?_, capacity⟩
      · dsimp only
        rw [length_append, length_append, length, Nat.add_assoc]
      · dsimp only
        rw [drop_append_of_le_length (by omega), text]
      · dsimp only
        rw [length_append]
        omega
    · intro limited none_
      have some_ := prepared limited
      rw [unbounded] at some_
      cases some_

theorem Stores.same (stores : Stores s out) (bounded : u.boundedBody = s.boundedBody)
    (limit : u.explicitBodyLimit = s.explicitBodyLimit) (final : u.finalHead = s.finalHead)
    (acc : u.acc = s.acc) : Stores u out := by
  constructor
  · rw [bounded, limit]
    exact stores.bounded
  · rw [bounded, final, acc]
    exact stores.unbounded
  · rw [bounded, limit]
    exact stores.waiting
  · rw [limit]
    exact stores.word

theorem Stores.prepare (stores : Stores s out) (buffered : s.streaming = false) :
    Stores s.prepareBody out := by
  rcases explicit : s.explicitBodyLimit with _ | limit
  · have form : s.prepareBody.boundedBody = s.boundedBody := by
      simp only [prepareBody, explicit, ite_self]
    exact stores.same form rfl rfl rfl
  cases bounded : s.boundedBody with
  | some body =>
    have form : s.prepareBody.boundedBody = s.boundedBody := by
      simp [prepareBody, explicit, bounded]
    exact stores.same form rfl rfl rfl
  | none =>
    have form : s.prepareBody.boundedBody = some { bytes := [], capacity := limit } := by
      simp [prepareBody, explicit, bounded, buffered]
    have empty := stores.waiting (by rw [explicit]; rfl) bounded
    refine ⟨?_, ?_, fun _ _ => empty, stores.word⟩
    · intro body hit
      rw [form] at hit
      cases hit
      rw [empty]
      exact ⟨rfl, explicit, Nat.zero_le _⟩
    · intro none_
      rw [form] at none_
      cases none_

end Storage

theorem chunkSizeDigit_intact {line after : ChunkLine} (room : ceiling ≤ higher)
    (intact : line.magnitudeOk = true) (done : chunkSizeDigit ceiling strict line b = .ok after)
    (still : after.magnitudeOk = true) :
    chunkSizeDigit higher lax line b = .ok after := by
  have below : (ceiling - hexValue b) / 16 ≤ (higher - hexValue b) / 16 :=
    Nat.div_le_div_right (Nat.sub_le_sub_right room _)
  simp only [chunkSizeDigit, if_pos intact] at done ⊢
  split_ifs at done
  · cases done
    cases still
  · rw [if_neg (by omega)]
    exact done

theorem chunkSizeDigit_lost {line after : ChunkLine} (lost : line.magnitudeOk = false)
    (done : chunkSizeDigit ceiling strict line b = .ok after) :
    after.magnitudeOk = false := by
  rw [chunkSizeDigit] at done
  dsimp only at done
  rw [if_neg (by rw [lost]; exact Bool.false_ne_true)] at done
  cases done
  exact lost

theorem chunkLineNext_intact {line after : ChunkLine} (room : ceiling ≤ higher)
    (intact : line.magnitudeOk = true) (done : chunkLineNext ceiling strict line b = .ok after)
    (still : after.magnitudeOk = true) :
    chunkLineNext higher lax line b = .ok after := by
  by_cases sizing : line.state = .size
  · rw [chunkLineNext, sizing] at done ⊢
    dsimp only at done ⊢
    by_cases digit : isAsciiHexdigit b = true
    · rw [if_pos digit] at done ⊢
      exact chunkSizeDigit_intact room intact done still
    · rw [if_neg digit] at done ⊢
      exact done
  · rw [chunkLineNext] at done ⊢
    cases state : line.state <;> rw [state] at done <;> first | exact absurd state sizing | exact done

theorem chunkLineNext_lost {line after : ChunkLine} (lost : line.magnitudeOk = false)
    (done : chunkLineNext ceiling strict line b = .ok after) :
    after.magnitudeOk = false := by
  rw [chunkLineNext] at done
  dsimp only at done
  cases state : line.state <;> rw [state] at done <;> dsimp only at done <;> try split_ifs at done
  all_goals first
    | exact chunkSizeDigit_lost lost done
    | (cases done; exact lost)
    | cases done

section Lines
variable {s u : HttpResponseDecoder} {out : Bytes} {b : UInt8} (acc : HttpResponseAccumulator)
  (framing : Nat)

theorem startChunk_mirror (size streamed : Nat) :
    (s.mirror acc streamed framing).startChunk size =
      (s.startChunk size).mirror acc streamed framing := by
  rw [startChunk, startChunk]
  split_ifs <;> rfl

theorem mirror_bodyCap (streamed : Nat) (buffered : s.streaming = false) :
    s.bodyCap ≤ (s.mirror acc streamed framing).bodyCap := by
  rw [bodyCap, bodyCap, buffered]
  change s.explicitBodyLimit.getD httpMaxBody ≤ s.explicitBodyLimit.getD (2 ^ 64 - 1)
  cases s.explicitBodyLimit with
  | none => exact (by decide : httpMaxBody ≤ 2 ^ 64 - 1)
  | some limit => exact Nat.le_refl _

theorem finishChunkLine_mirror (stores : Stores s out) (buffered : s.streaming = false)
    (done : s.finishChunkLine = .ok u) :
    (s.mirror acc out.length framing).finishChunkLine = .ok (u.mirror acc out.length framing) := by
  simp only [finishChunkLine, stores.bodyLen_eq buffered, Except.bind, refuse_ok, Except.ok.injEq] at done
  rcases done with ⟨known, fits, rfl⟩
  have caps := mirror_bodyCap acc framing out.length buffered
  have length : (s.mirror acc out.length framing).bodyLen = .ok out.length := rfl
  have size : (s.mirror acc out.length framing).line = s.line := rfl
  rw [finishChunkLine, length, size, if_neg known]
  dsimp only [Except.bind]
  rw [if_neg (by omega), startChunk_mirror]

theorem chunkLineByte_mirror (stores : Stores s out) (buffered : s.streaming = false)
    (intact : s.line.magnitudeOk = true) (done : s.chunkLineByte b = .ok u)
    (still : u.line.magnitudeOk = true) :
    (s.mirror acc out.length framing).chunkLineByte b = .ok (u.mirror acc out.length framing) := by
  rw [chunkLineByte] at done ⊢
  rw [show (s.mirror acc out.length framing).line = s.line from rfl]
  split_ifs at done ⊢
  · have counted : Stores (s.setLine s.line.counted) out := stores.same rfl rfl rfl rfl
    exact finishChunkLine_mirror acc framing counted buffered done
  · cases done
    rfl
  rcases map_ok.mp done with ⟨after, next, rfl⟩
  have room : s.sizeCeiling ≤ (s.mirror acc out.length framing).sizeCeiling := by
    rw [sizeCeiling, buffered]
    exact (by decide : httpMaxBody ≤ 2 ^ 64 - 1)
  have counted : s.line.counted.magnitudeOk = true := intact
  rw [chunkLineNext_intact room counted next still]
  rfl

/-- A size line whose magnitude is lost is never completed. -/
def Lost (s : HttpResponseDecoder) : Prop := s.state = .chunkSize ∧ s.line.magnitudeOk = false

theorem chunkLineByte_lost (lost : Lost s) (done : s.chunkLineByte b = .ok u) : Lost u := by
  rw [chunkLineByte] at done
  split_ifs at done
  · have unknown : (!(s.setLine s.line.counted).line.magnitudeOk) = true := by
      change (!s.line.magnitudeOk) = true
      rw [lost.2, Bool.not_false]
    rw [finishChunkLine, if_pos unknown] at done
    cases done
  · cases done
    exact lost
  · rcases map_ok.mp done with ⟨after, next, rfl⟩
    have counted : s.line.counted.magnitudeOk = false := lost.2
    exact ⟨lost.1, chunkLineNext_lost counted next⟩

theorem foldlM_lost {bytes : Bytes} {s : HttpResponseDecoder} (lost : Lost s)
    (done : bytes.foldlM chunkLineByte s = .ok u) : Lost u :=
  foldlM_keeps Lost (fun _ _ _ => chunkLineByte_lost) s u lost done

theorem chunkLineByte_lands (stores : Stores s out) (buffered : s.streaming = false)
    (here : s.state = .chunkSize) (done : s.chunkLineByte b = .ok u) :
    Stores u out ∧ u.streaming = false ∧ u.chunkFramingBytes = s.chunkFramingBytes ∧
      (u.state = .chunkSize ∨
        (u.line.magnitudeOk = true ∧
          (u.state = .trailers ∨ ∃ size, size ≠ 0 ∧ u.state = .chunkData size ∧ Prepared u))) := by
  rcases chunkLineByte_ok done with ⟨line, rfl⟩ | rfl
  · exact ⟨stores.same rfl rfl rfl rfl, buffered, rfl, Or.inl here⟩
  have counted : Stores (s.setLine s.line.counted) out := stores.same rfl rfl rfl rfl
  by_cases last : s.line.size = 0
  · rw [last]
    exact ⟨counted.same rfl rfl rfl rfl, buffered, rfl, Or.inr ⟨rfl, Or.inl rfl⟩⟩
  · rw [startChunk, if_neg last, if_pos last]
    refine ⟨(counted.prepare buffered).same rfl rfl rfl rfl, buffered, rfl, Or.inr ⟨rfl, Or.inr ?_⟩⟩
    exact ⟨_, last, rfl, prepareBody_bounded (d := s.setLine s.line.counted) buffered⟩

theorem foldlM_mirror (bytes : Bytes) (s : HttpResponseDecoder) (stores : Stores s out)
    (buffered : s.streaming = false) (here : s.state = .chunkSize)
    (intact : s.line.magnitudeOk = true) (inner : lf ∉ bytes.dropLast)
    (done : bytes.foldlM chunkLineByte s = .ok u) (kept : ¬ Lost u) :
    bytes.foldlM chunkLineByte (s.mirror acc out.length framing) =
        .ok (u.mirror acc out.length framing) ∧
      Stores u out ∧ u.chunkFramingBytes = s.chunkFramingBytes ∧ u.line.magnitudeOk = true ∧
        (u.state = .chunkSize ∨ u.state = .trailers ∨
          ∃ size, size ≠ 0 ∧ u.state = .chunkData size ∧ Prepared u) := by
  induction bytes generalizing s with
  | nil =>
    cases done
    exact ⟨rfl, stores, rfl, intact, Or.inl here⟩
  | cons b rest ih =>
    rw [foldlM_cons] at done ⊢
    rcases bind_ok.mp done with ⟨v, first, others⟩
    rcases chunkLineByte_lands stores buffered here first with ⟨stores', buffered', charged, lands⟩
    cases rest with
    | nil =>
      cases others
      have still : u.line.magnitudeOk = true := by
        rcases lands with same | ⟨known, _⟩
        · cases known : u.line.magnitudeOk with
          | false => exact absurd ⟨same, known⟩ kept
          | true => rfl
        · exact known
      rw [chunkLineByte_mirror acc framing stores buffered intact first still]
      exact ⟨rfl, stores', charged, still, lands.imp_right And.right⟩
    | cons c more =>
      rw [dropLast_cons_of_ne_nil (cons_ne_nil _ _), mem_cons, not_or] at inner
      rcases chunkLineByte_open (fun isLf => inner.1 isLf.symm) (d := s) with
        failed | ⟨line, next, _⟩
      · rw [failed] at first
        cases first
      rw [next] at first
      cases first
      have still : line.magnitudeOk = true := by
        cases known : line.magnitudeOk with
        | false =>
          have lost : Lost (s.setLine line) := ⟨here, known⟩
          exact absurd (foldlM_lost lost others) kept
        | true => rfl
      rw [chunkLineByte_mirror acc framing stores buffered intact next still]
      exact ih (s.setLine line) stores' buffered here still inner.2 others

theorem feedChunkLine_mirror (stores : Stores s out) (buffered : s.streaming = false)
    (here : s.state = .chunkSize) (intact : s.line.magnitudeOk = true) (inner : lf ∉ bytes.dropLast)
    (below : framing ≤ s.chunkFramingBytes) (done : s.feedChunkLine bytes = .ok u) (kept : ¬ Lost u) :
    (s.mirror acc out.length framing).feedChunkLine bytes =
        .ok (u.mirror acc out.length (framing + bytes.length)) ∧
      Stores u out ∧ u.chunkFramingBytes = s.chunkFramingBytes + bytes.length ∧
        s.chunkFramingBytes + bytes.length ≤ httpMaxChunkFraming ∧ u.line.magnitudeOk = true ∧
        (u.state = .chunkSize ∨ u.state = .trailers ∨
          ∃ size, size ≠ 0 ∧ u.state = .chunkData size ∧ Prepared u) := by
  rw [feedChunkLine, refuse_ok] at done
  rcases done with ⟨fits, done⟩
  have charged : Stores (s.chargeFraming bytes.length) out := stores.same rfl rfl rfl rfl
  rcases foldlM_mirror acc (framing + bytes.length) bytes _ charged buffered here intact inner done
    kept with ⟨mirrored, stores', framed, lands⟩
  refine ⟨?_, stores', framed, by omega, lands⟩
  have within : ¬ (httpMaxChunkFraming <
    (s.mirror acc out.length framing).chunkFramingBytes + bytes.length ∨
    httpMaxChunkLine < (s.mirror acc out.length framing).line.len + bytes.length) := by
    change ¬ (httpMaxChunkFraming < framing + bytes.length ∨ httpMaxChunkLine < s.line.len + bytes.length)
    omega
  rw [feedChunkLine, if_neg within]
  exact mirrored

end Lines

/-- The buffered decoder `s` and the streaming decoder `t` at the same place of the
wire, past the head, with the body `out` read so far. -/
structure Twin (s t : HttpResponseDecoder) (out : Bytes) : Prop where
  shape : ∃ acc framing, t = s.mirror acc out.length framing ∧ framing ≤ s.chunkFramingBytes
  valid : Valid s
  body : s.state ≠ .head
  intact : s.line.magnitudeOk = true
  stores : Stores s out
  settled : s.owesTurn = false
  prepared : s.state.carriesBody = true → Prepared s

/-- The whole of `rest` leads to an accepted response. -/
def Accepts (s : HttpResponseDecoder) (rest : Bytes) : Prop :=
  ∃ n t, s.feed rest = .ok (n, t) ∧ (t.state = .complete ∨ t.state = .closeDelimited)

/-- One streaming turn on `rest`: the buffered decoder feeds the same bytes, and what
they added to the body is in the window. -/
def Turned (s : HttpResponseDecoder) (out : Bytes) (w : Window) (rest : Bytes) (turn : StreamTurn) :
    Prop :=
  ∃ u bytes, s.feed (rest.take turn.taken) = .ok (turn.taken, u) ∧
    Twin u turn.decoder (out ++ bytes) ∧ turn.window = w.write bytes ∧ turn.taken ≤ rest.length ∧
    (turn.more = true → 0 < turn.taken) ∧ (0 < w.space → turn.more = true)

section Turns
variable {s t u : HttpResponseDecoder} {out rest more : Bytes} {w : Window}

theorem Accepts.feed_ok (accepts : Accepts s (rest ++ more)) (valid : Valid s) :
    ∃ n u, s.feed rest = .ok (n, u) ∧ Accepts u more := by
  rcases accepts with ⟨n, t, fed, ends⟩
  rw [feed, feed_append machine_local s rest more valid] at fed
  rcases andThen_ok_iff.mp fed with ⟨k, u, l, first, second, _⟩
  exact ⟨k, u, first, l, t, second, ends⟩

theorem Accepts.after {n : Nat} (accepts : Accepts s (rest ++ more)) (valid : Valid s)
    (fed : s.feed rest = .ok (n, u)) : Accepts u more := by
  rcases accepts.feed_ok valid with ⟨k, v, again, onward⟩
  rw [fed] at again
  cases again
  exact onward

theorem Accepts.cut (accepts : Accepts s (rest ++ more)) (n : Nat) :
    Accepts s (rest.take n ++ (rest.drop n ++ more)) := by
  rwa [← append_assoc, take_append_drop]

theorem Accepts.step_ok (accepts : Accepts s (rest ++ more)) (valid : Valid s) (some_ : rest ≠ [])
    (running : s.complete = false) : ∃ n u, s.feedStep rest = .ok (n, u) ∧ Valid u := by
  rcases accepts.feed_ok valid with ⟨n, u, fed, _⟩
  rw [feed, feed_step machine_local s rest valid some_ running] at fed
  cases taken : machine.step s rest with
  | error e =>
    rw [taken] at fed
    cases fed
  | ok result => exact ⟨_, _, taken, (feedStep_turn valid running some_ taken).1⟩

theorem feed_turn (valid : Valid s) (some_ : rest ≠ []) (running : s.complete = false)
    (taken : s.feedStep rest = .ok (rest.length, u)) : s.feed rest = .ok (rest.length, u) := by
  rw [feed, feed_step machine_local s rest valid some_ running,
    show machine.step s rest = .ok (rest.length, u) from taken]
  apply andThen_ok u _ 0 u
  rw [drop_length]
  exact feed_stop [] (Or.inl rfl)

theorem feed_part (valid : Valid s) (positive : 0 < n) (inside : n ≤ rest.length)
    (running : s.complete = false) (taken : s.feedStep (rest.take n) = .ok (n, u)) :
    s.feed (rest.take n) = .ok (n, u) := by
  have width := length_take_of_le inside
  have some_ : rest.take n ≠ [] := length_pos_iff.mp (by omega)
  rw [feed_turn valid some_ running (by rw [width]; exact taken), width]

theorem turned_idle (twin : Twin s t out) (full : w.space = 0) :
    Turned s out w rest { taken := 0, decoder := t, window := w, more := false } := by
  refine ⟨s, [], feed_stop _ (Or.inl rfl), ?_, ?_, Nat.zero_le _, nofun, ?_⟩
  · rw [append_nil]
    exact twin
  · rw [Window.write, append_nil]
  · intro positive
    rw [full] at positive
    cases positive

theorem appendBody_mirror (done : s.appendBody x = .ok u) :
    u.state = s.state ∧ u.explicitBodyLimit = s.explicitBodyLimit ∧
      ∀ acc streamed framing, u.mirror acc streamed framing = s.mirror acc streamed framing := by
  rcases appendBody_ok done with ⟨body, _, _, rfl⟩ | ⟨_, _, rfl⟩
  · exact ⟨rfl, rfl, fun _ _ _ => rfl⟩
  · exact ⟨rfl, rfl, fun _ _ _ => rfl⟩

theorem streamChargePayload_ok {count : Nat} (word : t.streamedBodyLen + count < 2 ^ 64)
    (inside : ∀ limit, t.explicitBodyLimit = some limit → t.streamedBodyLen + count ≤ limit) :
    t.streamChargePayload count = .ok { t with streamedBodyLen := t.streamedBodyLen + count } := by
  have fits : ¬ t.explicitBodyLimit.any (· < t.streamedBodyLen + count) = true := by
    cases explicit : t.explicitBodyLimit with
    | none => exact Bool.false_ne_true
    | some limit =>
      rw [Option.any_some, decide_eq_true_iff]
      exact Nat.not_lt.mpr (inside limit explicit)
  rw [streamChargePayload, if_neg (by omega), if_neg fits]

theorem owesTurn_setState {state : HttpDecodeState}
    (lands : state ≠ .fixed 0 ∧ state ≠ .chunkData 0) : (s.setState state).owesTurn = false := by
  rw [owesTurn, setState]
  cases state with
  | fixed remaining => exact beq_false_of_ne fun zero => lands.1 (by rw [zero])
  | chunkData remaining => exact beq_false_of_ne fun zero => lands.2 (by rw [zero])
  | _ => rfl

theorem Twin.payload {state : HttpDecodeState} (twin : Twin s t out)
    (carries : s.state.carriesBody = true) (appended : s.appendBody x = .ok u)
    (valid : Valid (u.setState state)) (body : state ≠ .head)
    (lands : state ≠ .fixed 0 ∧ state ≠ .chunkData 0) :
    ∃ charged, t.streamChargePayload x.length = .ok charged ∧
      Twin (u.setState state) (charged.setState state) (out ++ x) := by
  rcases twin.shape with ⟨acc, framing, rfl, below⟩
  rcases twin.stores.append (twin.prepared carries) appended with ⟨stores, prepared⟩
  rcases appendBody_mirror appended with ⟨_, explicit, mirrored⟩
  have word := stores.length_lt
  rw [length_append] at word
  have inside : ∀ limit, (s.mirror acc out.length framing).explicitBodyLimit = some limit →
    (s.mirror acc out.length framing).streamedBodyLen + x.length ≤ limit := by
    intro limit known
    have fits := stores.length_le limit (explicit.trans known)
    rw [length_append] at fits
    exact fits
  refine ⟨_, streamChargePayload_ok word inside, ?_⟩
  have framed : framing ≤ (u.setState state).chunkFramingBytes := by
    rcases appendBody_ok appended with ⟨_, _, _, rfl⟩ | ⟨_, _, rfl⟩
    · exact below
    · exact below
  have intact : (u.setState state).line.magnitudeOk = true := by
    have same := congrArg HttpResponseDecoder.line (mirrored acc 0 framing)
    rw [show (u.setState state).line = s.line from same]
    exact twin.intact
  refine ⟨⟨acc, framing, ?_, framed⟩, valid, body, intact, stores.same rfl rfl rfl rfl,
    owesTurn_setState lands, fun _ => prepared⟩
  have flat : (u.setState state).mirror acc (out ++ x).length framing =
    (u.mirror acc (out ++ x).length framing).setState state := rfl
  rw [flat, mirrored, length_append]
  rfl

theorem streamPayload_turned (twin : Twin s t out) (accepts : Accepts s (rest ++ more))
    (some_ : rest ≠ []) (running : s.complete = false) (carries : s.state.carriesBody = true)
    {framed : Nat} (after : Nat → HttpDecodeState) (positive : framed ≠ 0)
    (buffered : ∀ x n u, x ≠ [] → x.length ≤ framed → s.feedStep x = .ok (n, u) →
      n = x.length ∧ ∃ v, s.appendBody x = .ok v ∧ u = v.setState (after (framed - x.length)))
    (body : ∀ k, after k ≠ .head) (lands : ∀ k, after k ≠ .fixed 0 ∧ after k ≠ .chunkData 0) :
    ∃ turn, t.streamPayload w framed after rest = .ok turn ∧ Turned s out w rest turn := by
  by_cases full : w.space = 0
  · exact ⟨_, by rw [streamPayload, if_pos full], turned_idle twin full⟩
  have length := length_pos_iff.mpr some_
  obtain ⟨take, taking⟩ : ∃ take, take = min (min framed rest.length) w.space := ⟨_, rfl⟩
  have taken_pos : 0 < take := by omega
  have inside : take ≤ rest.length := by omega
  have width := length_take_of_le inside
  have first : rest.take take ≠ [] := length_pos_iff.mp (by omega)
  rcases (accepts.cut take).step_ok twin.valid first running with ⟨n, u, stepped, valid⟩
  rcases buffered _ n u first (by omega) stepped with ⟨rfl, v, appended, rfl⟩
  rw [width] at valid stepped
  rcases twin.payload carries appended valid (body _) (lands _) with ⟨charged, paid, twin'⟩
  rw [width] at paid
  refine ⟨{
    taken := take, decoder := charged.setState (after (framed - take))
    window := w.write (rest.take take), more := true }, ?_,
    v.setState (after (framed - take)), rest.take take, ?_, twin', rfl, ?_, ?_, ?_⟩
  · rw [streamPayload, if_neg full, ← taking]
    dsimp only
    rw [paid]
    rfl
  · exact feed_part twin.valid taken_pos inside running stepped
  · exact inside
  · exact fun _ => taken_pos
  · exact fun _ => rfl

theorem turned_framing (twin : Twin s t out) (running : s.complete = false)
    (positive : 0 < n) (inside : n ≤ rest.length)
    (stepped : s.feedStep (rest.take n) = .ok (n, u)) (after : Twin u d out) :
    Turned s out w rest { taken := n, decoder := d, window := w, more := true } := by
  refine ⟨u, [], feed_part twin.valid positive inside running stepped, ?_, ?_, inside,
    fun _ => positive, fun _ => rfl⟩
  · rw [append_nil]
    exact after
  · rw [Window.write, append_nil]

theorem lineTake_take (rest : Bytes) :
    lineTake (rest.take (lineTake rest)) = lineTake rest ∧
      lf ∉ (rest.take (lineTake rest)).dropLast := by
  rcases hit : memchr lf rest with _ | nl
  · have whole : lineTake rest = rest.length := by rw [lineTake, hit]
    rw [whole, take_length]
    exact ⟨whole, fun inside => memchr_none hit ((dropLast_sublist rest).subset inside)⟩
  rcases memchr_some_split hit with ⟨before, after, rfl, absent, rfl⟩
  have line : lineTake (before ++ lf :: after) = before.length + 1 := by rw [lineTake, hit]
  have cut : (before ++ lf :: after).take (before.length + 1) = before ++ [lf] := by
    rw [take_length_add_append]
    rfl
  rw [line, cut, dropLast_concat, lineTake, memchr_at absent []]
  exact ⟨rfl, absent⟩

theorem Twin.framed (shape : ∃ acc framing, t = u.mirror acc out.length framing ∧ framing ≤ u.chunkFramingBytes)
    (valid : Valid u) (intact : u.line.magnitudeOk = true) (stores : Stores u out)
    (body : u.state ≠ .head) (empty : u.state.carriesBody = false) : Twin u t out := by
  refine ⟨shape, valid, body, intact, stores, ?_, ?_⟩
  · rw [owesTurn]
    cases here : u.state <;> rw [here] at empty <;> first | rfl | cases empty
  · intro carries
    rw [empty] at carries
    cases carries

theorem Twin.lands (shape : ∃ acc framing, t = u.mirror acc out.length framing ∧ framing ≤ u.chunkFramingBytes)
    (valid : Valid u) (intact : u.line.magnitudeOk = true) (stores : Stores u out)
    (lands : u.state = .chunkSize ∨ u.state = .trailers ∨
      ∃ size, size ≠ 0 ∧ u.state = .chunkData size ∧ Prepared u) : Twin u t out := by
  rcases lands with here | here | ⟨size, positive, here, prepared⟩
  · exact Twin.framed shape valid intact stores (by rw [here]; decide) (by rw [here]; rfl)
  · exact Twin.framed shape valid intact stores (by rw [here]; decide) (by rw [here]; rfl)
  refine ⟨shape, valid, ?_, intact, stores, ?_, fun _ => prepared⟩
  · rw [here]
    intro absurd_
    cases absurd_
  · rw [owesTurn, here]
    exact beq_false_of_ne positive

theorem Lost.not_accepts (lost : Lost s) : ¬ Accepts s rest := by
  rintro ⟨n, t, fed, ends⟩
  have still : Lost t := by
    refine loop_keeps (m := machine) Lost ?_ _ s rest n t lost fed
    intro s rest n u lost _ some_ stepped
    rw [show machine.step s rest = s.feedStep rest from rfl, feedStep_chunkSize some_ lost.1] at stepped
    have fed := (chunkSizeStep_ok stepped).2.1
    rw [feedChunkLine] at fed
    split_ifs at fed
    have charged : Lost (s.chargeFraming (rest.take n).length) := ⟨lost.1, lost.2⟩
    exact foldlM_lost charged fed
  rcases ends with complete | close
  · rw [still.1] at complete
    cases complete
  · rw [still.1] at close
    cases close

theorem streamChunkSize_turned (twin : Twin s t out) (accepts : Accepts s (rest ++ more))
    (some_ : rest ≠ []) (here : s.state = .chunkSize) :
    ∃ turn, t.streamChunkSize w rest = .ok turn ∧ Turned s out w rest turn := by
  have running : s.complete = false := beq_false_of_ne (by rw [here]; decide)
  rcases lineTake_take rest with ⟨again, inner⟩
  have inside := lineTake_le rest
  have positive := lineTake_pos some_
  have width := length_take_of_le inside
  have first : rest.take (lineTake rest) ≠ [] := length_pos_iff.mp (by omega)
  have cut := accepts.cut (lineTake rest)
  rcases cut.step_ok twin.valid first running with ⟨n, u, stepped, valid⟩
  rcases chunkSizeStep_ok (feedStep_chunkSize first here ▸ stepped) with ⟨rfl, fed, open_⟩
  rw [again] at stepped
  rw [again, take_take, Nat.min_self] at fed
  have kept : ¬ Lost u := fun lost =>
    lost.not_accepts (cut.after twin.valid (feed_part twin.valid (by omega) inside running stepped))
  rcases twin.shape with ⟨acc, framing, rfl, below⟩
  rcases feedChunkLine_mirror acc framing twin.stores twin.valid.buffered here twin.intact inner below
    fed kept with ⟨mirrored, stores, charged, within, intact, lands⟩
  rw [width] at mirrored charged within
  have enough : min (lineTake rest) (httpMaxChunkFraming - framing) = lineTake rest := by omega
  refine ⟨{
    taken := lineTake rest, decoder := u.mirror acc out.length (framing + lineTake rest)
    window := w, more := true }, ?_, ?_⟩
  · have allowed : ¬ httpMaxChunkFraming - (s.mirror acc out.length framing).chunkFramingBytes = 0 := by
      change ¬ httpMaxChunkFraming - framing = 0
      omega
    have between : ¬ (lineTake rest < lineTake rest ∨
      ((u.mirror acc out.length (framing + lineTake rest)).chunkFramingBytes = httpMaxChunkFraming ∧
        (u.mirror acc out.length (framing + lineTake rest)).state.betweenChunks = true)) := by
      rintro (shorter | ⟨spent, waits⟩)
      · omega
      · have full : u.chunkFramingBytes = httpMaxChunkFraming := by
          have spent : framing + lineTake rest = httpMaxChunkFraming := spent
          omega
        have last : u.state = .trailers := by_contra fun other => open_ ⟨full, other⟩
        have waits : u.state.betweenChunks = true := waits
        rw [last] at waits
        cases waits
    rw [streamChunkSize, if_neg allowed]
    dsimp only
    rw [show (s.mirror acc out.length framing).chunkFramingBytes = framing from rfl, enough, mirrored]
    dsimp only [Except.bind]
    rw [if_neg between]
  · exact turned_framing twin running (by omega) inside stepped
      (Twin.lands ⟨acc, _, rfl, by omega⟩ valid intact stores lands)

theorem crLfByte_ok (done : s.crLfByte seen b = .ok u) :
    s.chunkFramingBytes + 1 < httpMaxChunkFraming ∧
      ¬ ((seen = 0 ∧ b ≠ Http.cr) ∨ (seen = 1 ∧ b ≠ lf)) ∧
      u = (if seen = 1 then ((s.chargeFraming 1).setLine resetChunkLine).setState .chunkSize
        else (s.chargeFraming 1).setState (.chunkDataCrLf 1)) := by
  have counted : (if seen = 1 then ((s.chargeFraming 1).setLine resetChunkLine).setState .chunkSize
    else (s.chargeFraming 1).setState (.chunkDataCrLf 1)).chunkFramingBytes = s.chunkFramingBytes + 1 := by
    split_ifs <;> rfl
  rw [crLfByte, refuse_ok, refuse_ok, not_or, Except.ok.injEq, counted] at done
  rcases done with ⟨⟨charged, good⟩, full, same⟩
  have charged : ¬ httpMaxChunkFraming < s.chunkFramingBytes + 1 := charged
  exact ⟨by omega, good, same.symm⟩

variable {seen : Nat} {b : UInt8} (acc : HttpResponseAccumulator) (streamed framing : Nat)

theorem streamCrLf_mirror (below : framing ≤ s.chunkFramingBytes) (done : s.crLfByte seen b = .ok u) :
    (s.mirror acc streamed framing).streamCrLf w seen b =
      .ok { taken := 1, decoder := u.mirror acc streamed (framing + 1), window := w, more := true } := by
  rcases crLfByte_ok done with ⟨room, good, rfl⟩
  have before : ¬ (s.mirror acc streamed framing).chunkFramingBytes = httpMaxChunkFraming := by
    change ¬ framing = httpMaxChunkFraming
    omega
  have after : ¬ framing + 1 = httpMaxChunkFraming := by omega
  rw [streamCrLf, if_neg before, if_neg good]
  dsimp only
  by_cases second : seen = 1
  · rw [if_pos second, if_pos second]
    exact if_neg after
  · rw [if_neg second, if_neg second]
    exact if_neg after

theorem Twin.one {run : Except HttpParseErr HttpResponseDecoder} (twin : Twin s t out)
    (accepts : Accepts s (b :: rest ++ more)) (running : s.complete = false)
    (turn : s.feedStep [b] = run.map fun d => (1, d)) :
    ∃ u, run = .ok u ∧ Valid u ∧ ∀ {d w}, Twin u d out →
      Turned s out w (b :: rest) { taken := 1, decoder := d, window := w, more := true } := by
  have single : Accepts s ([b] ++ (rest ++ more)) := accepts
  rcases single.step_ok twin.valid (cons_ne_nil _ _) running with ⟨n, u, stepped, valid⟩
  rcases map_ok.mp (turn.symm.trans stepped) with ⟨_, done, same⟩
  cases same
  have taken : s.feedStep ((b :: rest).take 1) = .ok (1, u) := stepped
  exact ⟨u, done, valid, turned_framing twin running Nat.one_pos (Nat.le_add_left _ _) taken⟩

theorem streamCrLf_turned (twin : Twin s t out) (accepts : Accepts s (b :: rest ++ more))
    (here : s.state = .chunkDataCrLf seen) :
    ∃ turn, t.streamCrLf w seen b = .ok turn ∧ Turned s out w (b :: rest) turn := by
  have running : s.complete = false := beq_false_of_ne (by rw [here]; exact nofun)
  rcases twin.one accepts running (feedStep_chunkDataCrLf here b []) with ⟨u, done, valid, onward⟩
  rcases twin.shape with ⟨acc, framing, rfl, below⟩
  refine ⟨_, streamCrLf_mirror acc out.length framing below done, onward ?_⟩
  rcases crLfByte_ok done with ⟨_, _, form⟩
  by_cases second : seen = 1
  · rw [if_pos second] at form
    subst form
    exact Twin.framed ⟨acc, framing + 1, rfl, Nat.succ_le_succ below⟩ valid rfl
      (twin.stores.same rfl rfl rfl rfl) nofun rfl
  · rw [if_neg second] at form
    subst form
    exact Twin.framed ⟨acc, framing + 1, rfl, Nat.succ_le_succ below⟩ valid twin.intact
      (twin.stores.same rfl rfl rfl rfl) nofun rfl

theorem trailerNext_mirror :
    (s.mirror acc streamed framing).trailerNext b =
      (s.trailerNext b).map (·.mirror acc streamed framing) := by
  have trailer : (s.mirror acc streamed framing).trailer = s.trailer := rfl
  have final : (s.mirror acc streamed framing).finalHead = s.finalHead := rfl
  rw [trailerNext, trailerNext, trailer, final]
  cases s.trailer.state with
  | start =>
    dsimp only
    split_ifs
    · rfl
    · cases s.finalHead with
      | none => rfl
      | some head =>
        dsimp only
        split_ifs <;> rfl
    · rfl
  | name =>
    dsimp only
    split_ifs <;> rfl
  | value =>
    dsimp only
    split_ifs <;> rfl
  | lineLf =>
    dsimp only
    split_ifs <;> rfl
  | finalLf =>
    dsimp only
    split_ifs <;> rfl

theorem feedTrailerByte_mirror (done : s.feedTrailerByte b = .ok u) :
    (s.mirror acc streamed framing).feedTrailerByte b = .ok (u.mirror acc streamed framing) := by
  simp only [feedTrailerByte, refuse_ok, bind_ok, Except.ok.injEq] at done ⊢
  rcases done with ⟨late, v, next, full, rfl⟩
  refine ⟨late, v.mirror acc streamed framing, ?_, full, rfl⟩
  have counted := trailerNext_mirror acc streamed framing (b := b)
    (s := { s with trailer := { s.trailer with bytes := s.trailer.bytes + 1 } })
  rw [next] at counted
  exact counted

theorem streamTrailer_turned (twin : Twin s t out) (accepts : Accepts s (b :: rest ++ more))
    (here : s.state = .trailers) :
    ∃ d, t.feedTrailerByte b = .ok d ∧
      Turned s out w (b :: rest) { taken := 1, decoder := d, window := w, more := true } := by
  have running : s.complete = false := beq_false_of_ne (by rw [here]; decide)
  rcases twin.one accepts running (feedStep_trailers here b []) with ⟨u, done, valid, onward⟩
  rcases twin.shape with ⟨acc, framing, rfl, below⟩
  refine ⟨_, feedTrailerByte_mirror acc out.length framing done, onward ?_⟩
  rcases feedTrailerByte_ok done with ⟨trailer, rfl | rfl⟩
  · exact Twin.framed ⟨acc, framing, rfl, below⟩ valid twin.intact
      (twin.stores.same rfl rfl rfl rfl) (by rw [here]; decide) (by rw [here]; rfl)
  · exact Twin.framed ⟨acc, framing, rfl, below⟩ valid twin.intact
      (twin.stores.same rfl rfl rfl rfl) nofun rfl

theorem bodyRun_turned
    (run : ∀ x, x ≠ [] → s.feedStep x = s.bodyRun remaining done going x) (x : Bytes) (n : Nat)
    (u : HttpResponseDecoder) (some_ : x ≠ []) (inside : x.length ≤ remaining)
    (stepped : s.feedStep x = .ok (n, u)) :
    n = x.length ∧ ∃ v, s.appendBody x = .ok v ∧
      u = v.setState (if remaining - x.length = 0 then done else going (remaining - x.length)) := by
  rw [run x some_] at stepped
  rcases bodyRun_ok stepped with ⟨taken, v, appended, rfl⟩
  have all : n = x.length := by omega
  rw [all, take_length] at appended
  rw [all]
  exact ⟨rfl, v, appended, rfl⟩

theorem streamStep_turned (twin : Twin s t out) (accepts : Accepts s (b :: rest ++ more))
    (running : s.complete = false) :
    ∃ turn, t.streamStep w (b :: rest) = .ok turn ∧ Turned s out w (b :: rest) turn := by
  have some_ : b :: rest ≠ [] := cons_ne_nil b rest
  have state : t.state = s.state := by
    rcases twin.shape with ⟨acc, framing, rfl, _⟩
    rfl
  have settled := twin.settled
  cases here : s.state with
  | head => exact absurd here twin.body
  | fixed remaining =>
    simp only [streamStep, state, here]
    rw [owesTurn, here] at settled
    apply streamPayload_turned twin accepts some_ running (by rw [here]; rfl) _
      (ne_of_beq_false settled) (bodyRun_turned fun _ => (feedStep_fixed · here))
    · intro k
      split_ifs <;> intro absurd_ <;> cases absurd_
    · intro k
      split_ifs with last
      · exact ⟨by simp, by simp⟩
      · exact ⟨fun same => last (HttpDecodeState.fixed.inj same), by simp⟩
  | closeDelimited =>
    simp only [streamStep, state, here]
    apply streamPayload_turned twin accepts some_ running (by rw [here]; rfl) _
      (Nat.succ_ne_zero rest.length)
    · intro x n u first _ stepped
      rw [feedStep_closeDelimited first here] at stepped
      rcases closeDelimitedStep_ok stepped with ⟨taken, appended⟩
      refine ⟨taken, u, appended, ?_⟩
      rw [← here, ← (appendBody_mirror appended).1]
      rfl
    · simp
    · exact fun _ => ⟨by simp, by simp⟩
  | chunkSize =>
    simp only [streamStep, state, here]
    exact streamChunkSize_turned twin accepts some_ here
  | chunkData remaining =>
    simp only [streamStep, state, here]
    rw [owesTurn, here] at settled
    apply streamPayload_turned twin accepts some_ running (by rw [here]; rfl) _
      (ne_of_beq_false settled) (bodyRun_turned fun _ => (feedStep_chunkData · here))
    · intro k
      split_ifs <;> intro absurd_ <;> cases absurd_
    · intro k
      split_ifs with last
      · exact ⟨by simp, by simp⟩
      · exact ⟨by simp, fun same => last (HttpDecodeState.chunkData.inj same)⟩
  | chunkDataCrLf seen =>
    simp only [streamStep, state, here]
    exact streamCrLf_turned twin accepts here
  | trailers =>
    simp only [streamStep, state, here]
    rcases streamTrailer_turned twin accepts here with ⟨d, byte, turned⟩
    rw [byte]
    exact ⟨_, rfl, turned⟩
  | complete =>
    rw [complete, here] at running
    cases running

/-- A whole streaming call on an accepted wire is a buffered feed of what it consumed. -/
theorem streamLoop_twin (fuel : Nat) (s t : HttpResponseDecoder) (out : Bytes) (w : Window)
    (rest : Bytes) (enough : rest.length < fuel) (twin : Twin s t out) (accepts : Accepts s (rest ++ more)) :
    ∃ n u d bytes, streamLoop fuel t w rest = .ok (n, d, w.write bytes) ∧ n ≤ rest.length ∧
      s.feed (rest.take n) = .ok (n, u) ∧ Twin u d (out ++ bytes) ∧
      (rest ≠ [] → s.complete = false → 0 < w.space → 0 < n) := by
  induction fuel generalizing s t out w rest with
  | zero => cases enough
  | succ fuel ih =>
    have state : t.complete = s.complete := by
      rcases twin.shape with ⟨acc, framing, rfl, _⟩
      rfl
    have unwritten : w.write [] = w := by rw [Window.write, append_nil]
    rw [streamLoop, state]
    by_cases stop : (rest.isEmpty || s.complete) = true
    · refine ⟨0, s, t, [], ?_, Nat.zero_le _, feed_stop _ (Or.inl rfl), ?_, ?_⟩
      · rw [if_pos stop, unwritten]
      · rw [append_nil]
        exact twin
      · intro some_ running _
        rw [running, Bool.or_false, List.isEmpty_iff] at stop
        exact absurd stop some_
    · rw [if_neg stop]
      rw [Bool.or_eq_true, not_or, List.isEmpty_iff, Bool.not_eq_true] at stop
      rcases exists_cons_of_ne_nil stop.1 with ⟨b, tail, rfl⟩
      rcases streamStep_turned twin accepts stop.2 (w := w) with
        ⟨turn, stepped, u, bytes, fed, twin', written, inside, progress, going⟩
      rw [stepped]
      dsimp only [Except.bind]
      by_cases onward : turn.more = true
      · -- The loop goes on where the turn stopped.
        have positive := progress onward
        have shorter : ((b :: tail).drop turn.taken).length < fuel := by
          rw [length_drop]
          omega
        rcases ih u turn.decoder (out ++ bytes) turn.window _ shorter twin'
          ((accepts.cut _).after twin.valid fed) with ⟨k, v, d, others, looped, inside', fed', twin'', _⟩
        rw [length_drop] at inside'
        rw [if_pos onward, looped]
        refine ⟨turn.taken + k, v, d, bytes ++ others, ?_, by omega, ?_, ?_, fun _ _ _ => by omega⟩
        · rw [written, Window.write, Window.write, Window.write, append_assoc]
          rfl
        · rw [take_add, feed, feed_append machine_local s _ _ twin.valid,
            show machine.feed s _ = _ from fed]
          exact andThen_ok u _ k v fed'
        · rw [← append_assoc]
          exact twin''
      · rw [if_neg onward, written]
        exact ⟨turn.taken, u, turn.decoder, bytes, rfl, inside, fed, twin',
          fun _ _ room => absurd (going room) onward⟩

end Turns

end HttpResponseDecoder

end Align.Http
