import Align.HttpStreamHead

/-! A response read through windows. Whatever the pieces the wire comes in and the
sizes of the reads, the reader stays beside a buffered decoder that was fed the bytes
consumed so far; so on a wire the buffered decoder accepts it ends with the same
bytes consumed and the same body. An explicit limit bounds what any run gives out. -/
namespace Align.Http
open Segments Feeding Outcomes List

def HttpResponse.body (response : HttpResponse) : Bytes :=
  match response.boundedBody with
  | some body => body
  | none => slice response.buf response.bodyStart (response.bodyStart + response.bodyLen)

/-- A whole wire through the buffered decoder, its end included: the bytes consumed and
the response. -/
def decodeBuffered (methodIsHead : Bool) (limit : Option Nat) (wire : Bytes) :
    Except HttpParseErr (Nat × HttpResponse) :=
  ((HttpResponseDecoder.newWithLimit methodIsHead limit).feed wire).bind fun (n, d) =>
    d.finishEof.bind fun d => d.intoResponse.map fun response => (n, response)

/-- What the wire delivered along a run. -/
def delivered : List StreamEvent → Bytes
  | [] => []
  | .deliver piece :: events => piece ++ delivered events
  | _ :: events => delivered events

namespace StreamReader
open HttpResponseDecoder

/-- The reader beside the buffered decoder `s`, with `wire` delivered so far. -/
structure Follows (start : HttpResponseDecoder) (wire : Bytes) (r : StreamReader)
    (s : HttpResponseDecoder) : Prop where
  inside : r.consumed ≤ wire.length
  pending : r.pending = wire.drop r.consumed
  fed : start.feed (wire.take r.consumed) = .ok (r.consumed, s)
  beside : (HeadTwin s r.decoder ∧ r.output = []) ∨ Twin s r.decoder r.output

def Settled (r : StreamReader) : Prop := r.decoder.state = .head → r.pending = []

section Steps
theorem Follows.accepts (follows : Follows start wire r s) (valid : Valid start)
    (accepts : Accepts start (wire ++ more)) : Accepts s (r.pending ++ more) := by
  have whole : wire ++ more = wire.take r.consumed ++ (r.pending ++ more) := by
    rw [follows.pending, ← append_assoc, take_append_drop]
  rw [whole] at accepts
  exact accepts.after valid follows.fed

theorem Follows.advance (follows : Follows start wire r s) (valid : Valid start) (inside : n ≤ r.pending.length)
    (fed : s.feed (r.pending.take n) = .ok (n, u)) (pending : t.pending = r.pending.drop n)
    (consumed : t.consumed = r.consumed + n)
    (beside : (HeadTwin u t.decoder ∧ t.output = []) ∨ Twin u t.decoder t.output) :
    Follows start wire t u := by
  have length := congrArg List.length follows.pending
  rw [length_drop] at length
  have bound := follows.inside
  refine ⟨by omega, ?_, ?_, beside⟩
  · rw [pending, follows.pending, consumed, drop_drop]
  · rw [consumed, take_add, ← follows.pending, feed, feed_append machine_local _ _ _ valid,
      show machine.feed start _ = _ from follows.fed]
    exact andThen_ok s _ n u fed

theorem Follows.widen (follows : Follows start wire r s) (piece : Bytes) :
    Follows start (wire ++ piece) { r with pending := r.pending ++ piece } s := by
  have bound := follows.inside
  refine ⟨?_, ?_, ?_, follows.beside⟩
  · rw [length_append]
    exact Nat.le_add_right_of_le bound
  · rw [follows.pending, drop_append_of_le_length bound]
  · rw [take_append_of_le_length bound]
    exact follows.fed

theorem HeadTwin.state (twin : HeadTwin s t) : t.state = .head := by
  rcases twin.shape with ⟨framing, rfl, _⟩
  exact twin.ready.here

theorem Twin.state_eq (twin : Twin s t out) :
    t.state = s.state := by
  rcases twin.shape with ⟨acc, framing, rfl, _⟩
  rfl

theorem Follows.deliver (follows : Follows start wire r s) (valid : Valid start) (piece : Bytes)
    (accepts : Accepts start (wire ++ piece ++ more)) :
    ∃ t u, r.deliver piece = .ok t ∧ Follows start (wire ++ piece) t u ∧ Settled t ∧
      r.consumed ≤ t.consumed := by
  have wider := follows.widen piece
  rw [StreamReader.deliver]
  rcases follows.beside with ⟨head, nothing⟩ | twin
  · rw [if_pos (HeadTwin.state head)]
    have onward := wider.accepts valid accepts
    rcases feedHead_twin (2 * (r.pending ++ piece).length + 1) s _ (r.pending ++ piece) (by omega)
      head onward with ⟨n, u, d, fed, inside, fed', lands⟩
    rw [feedHead, Machine.feed, fed]
    refine ⟨_, u, rfl, wider.advance valid inside fed' rfl rfl ?_, ?_, Nat.le_add_right _ _⟩
    · rcases lands with ⟨still, _⟩ | body
      · exact Or.inl ⟨still, nothing⟩
      · have body : Twin u d r.output := by
          rw [nothing]
          exact body
        exact Or.inr body
    · intro here
      rcases lands with ⟨_, all⟩ | body
      · dsimp only
        rw [all, drop_length]
      · exact absurd ((Twin.state_eq body).symm.trans here) body.body
  · have body : ¬ r.decoder.state = .head := by
      rw [Twin.state_eq twin]
      exact twin.body
    rw [if_neg body]
    exact ⟨_, s, rfl, wider, fun here => absurd here body, Nat.le_refl _⟩

theorem Follows.pump (follows : Follows start wire r s) (valid : Valid start) (settled : Settled r)
    (accepts : Accepts start (wire ++ more)) :
    ∃ t u, r.pump = .ok t ∧ Follows start wire t u ∧ Settled t ∧ r.consumed ≤ t.consumed ∧
      (s.complete = true → u.complete = true) ∧
      (0 < r.window.space → r.pending ≠ [] → s.complete = false → r.consumed < t.consumed) := by
  rw [StreamReader.pump]
  rcases follows.beside with ⟨head, nothing⟩ | twin
  · have here := HeadTwin.state head
    rw [if_pos here]
    exact ⟨r, s, rfl, follows, settled, Nat.le_refl _, id, fun _ some_ => absurd (settled here) some_⟩
  · have body : ¬ r.decoder.state = .head := by
      rw [Twin.state_eq twin]
      exact twin.body
    rw [if_neg body]
    have onward := follows.accepts valid accepts
    rcases streamLoop_twin (2 * r.pending.length + 1) s _ _ _ _ (by omega)
      twin onward with ⟨n, u, d, bytes, looped, inside, fed, twin', progress⟩
    rw [feedStream, looped]
    refine ⟨_, u, rfl, follows.advance valid inside fed rfl rfl (Or.inr ?_), ?_, Nat.le_add_right _ _,
      ?_, ?_⟩
    · rw [StreamReader.output]
      dsimp only [Window.write]
      rw [← append_assoc]
      exact twin'
    · intro here
      exact absurd ((Twin.state_eq twin').symm.trans here) twin'.body
    · intro complete_
      rw [feed, feed_stop _ (Or.inr complete_)] at fed
      cases fed
      exact complete_
    · intro room some_ running
      exact Nat.lt_add_of_pos_right (progress some_ running room)

theorem Follows.open_ (follows : Follows start wire r s) (size : Nat) :
    Follows start wire (r.open_ size) s := by
  have same : (r.open_ size).output = r.output := append_nil _
  refine ⟨follows.inside, follows.pending, follows.fed, ?_⟩
  rw [same]
  rcases follows.beside with ⟨head, nothing⟩ | twin
  · left
    rcases head.shape with ⟨framing, shape, _⟩
    refine ⟨⟨⟨0, ?_, Nat.zero_le _⟩, head.ready, head.lines⟩, nothing⟩
    rw [StreamReader.open_, shape]
    rfl
  · right
    rcases twin.shape with ⟨acc, framing, shape, _⟩
    refine ⟨⟨acc, 0, ?_, Nat.zero_le _⟩, twin.valid, twin.body, twin.intact, twin.stores, twin.settled,
      twin.prepared⟩
    rw [StreamReader.open_, shape]
    rfl

theorem Follows.step (follows : Follows start wire r s) (valid : Valid start) (settled : Settled r)
    (event : StreamEvent) (accepts : Accepts start (wire ++ delivered [event] ++ more)) :
    ∃ t u, r.step event = .ok t ∧ Follows start (wire ++ delivered [event]) t u ∧ Settled t := by
  cases event with
  | deliver piece =>
    rw [show delivered [.deliver piece] = piece from append_nil piece] at accepts ⊢
    rcases follows.deliver valid _ accepts with ⟨t, u, done, follows', settled', _⟩
    exact ⟨t, u, done, follows', settled'⟩
  | read size =>
    rw [show delivered [.read size] = [] from rfl, append_nil] at accepts ⊢
    rcases (follows.open_ _).pump valid settled accepts with ⟨t, u, done, follows', settled', _⟩
    exact ⟨t, u, done, follows', settled'⟩
  | resume =>
    rw [show delivered [.resume] = [] from rfl, append_nil] at accepts ⊢
    rcases follows.pump valid settled accepts with ⟨t, u, done, follows', settled', _⟩
    exact ⟨t, u, done, follows', settled'⟩

theorem delivered_cons (event : StreamEvent) (events : List StreamEvent) :
    delivered (event :: events) = delivered [event] ++ delivered events := by
  cases event with
  | deliver piece =>
    rw [delivered, delivered, delivered, append_nil]
  | read size => rfl
  | resume => rfl

theorem Follows.run (events : List StreamEvent) (wire : Bytes) (r : StreamReader)
    (s : HttpResponseDecoder) (follows : Follows start wire r s) (valid : Valid start)
    (settled : Settled r) (accepts : Accepts start (wire ++ delivered events ++ more)) :
    ∃ t u, r.run events = .ok t ∧ Follows start (wire ++ delivered events) t u ∧ Settled t := by
  induction events generalizing wire r s with
  | nil =>
    rw [show delivered [] = [] from rfl, append_nil]
    exact ⟨r, s, rfl, follows, settled⟩
  | cons event events ih =>
    rw [delivered_cons, ← append_assoc] at accepts ⊢
    have now : Accepts start (wire ++ delivered [event] ++ (delivered events ++ more)) := by
      rw [← append_assoc]
      exact accepts
    rcases follows.step valid settled event now with ⟨t, u, stepped, follows', settled'⟩
    rcases ih _ t u follows' settled' accepts with ⟨v, x, ran, done⟩
    refine ⟨v, x, ?_, done⟩
    rw [StreamReader.run, foldlM_cons, stepped]
    exact ran

theorem Follows.length (follows : Follows start wire r s) :
    r.pending.length = wire.length - r.consumed := by
  rw [follows.pending, length_drop]

/-- With everything delivered, each read takes a byte until the response is complete or
nothing is left. -/
theorem Follows.drain (sizes : List Nat) (r : StreamReader) (s : HttpResponseDecoder)
    (follows : Follows start wire r s) (valid : Valid start) (settled : Settled r)
    (accepts : Accepts start wire) (positive : ∀ size ∈ sizes, 0 < size)
    (enough : s.complete = true ∨ r.pending.length ≤ sizes.length) :
    ∃ t u, r.run (sizes.map .read) = .ok t ∧ Follows start wire t u ∧
      (t.pending = [] ∨ u.complete = true) := by
  induction sizes generalizing r s with
  | nil =>
    refine ⟨r, s, rfl, follows, ?_⟩
    rcases enough with complete_ | empty
    · exact Or.inr complete_
    · exact Or.inl (eq_nil_of_length_eq_zero (Nat.le_zero.mp empty))
  | cons size sizes ih =>
    have now : Accepts start (wire ++ []) := by
      rw [append_nil]
      exact accepts
    rcases (follows.open_ _).pump valid settled now with
      ⟨t, u, pumped, follows', settled', onward, kept, moved⟩
    have fewer : u.complete = true ∨ t.pending.length ≤ sizes.length := by
      cases complete_ : s.complete with
      | true => exact Or.inl (kept complete_)
      | false =>
        right
        have before := follows.length
        have after := follows'.length
        have onward : r.consumed ≤ t.consumed := onward
        rw [complete_, length_cons] at enough
        have enough := enough.resolve_left Bool.false_ne_true
        by_cases none_ : r.pending = []
        · rw [none_, length_nil] at before
          omega
        · have moved : r.consumed < t.consumed :=
            moved (positive size mem_cons_self) none_ complete_
          omega
    rcases ih t u follows' settled' (forall_mem_cons.mp positive).2 fewer with
      ⟨v, x, ran, done⟩
    refine ⟨v, x, ?_, done⟩
    rw [StreamReader.run, map_cons, foldlM_cons, StreamReader.step, pumped]
    exact ran

theorem Follows.whole (follows : Follows start wire r s) (valid : Valid start)
    (done : r.pending = [] ∨ s.complete = true) : start.feed wire = .ok (r.consumed, s) := by
  have cut : wire = wire.take r.consumed ++ r.pending := by
    rw [follows.pending, take_append_drop]
  rw [cut, feed, feed_append machine_local _ _ _ valid, show machine.feed start _ = _ from follows.fed]
  exact andThen_ok s _ 0 s (feed_stop _ done)

end Steps

theorem newWithLimit_follows (methodIsHead : Bool)
    (word : ∀ most, limit = some most → most < 2 ^ 64) :
    Follows (newWithLimit methodIsHead limit) [] (StreamReader.new methodIsHead limit)
      (newWithLimit methodIsHead limit) := by
  refine ⟨Nat.le_refl _, rfl, feed_stop _ (Or.inl rfl), Or.inl ⟨⟨⟨0, rfl, Nat.le_refl _⟩, ?_, [], ?_⟩, rfl⟩⟩
  · refine ⟨newWithLimit_valid _ _, rfl, rfl, rfl, word, Nat.le_refl _, Nat.zero_le _, ?_⟩
    cases limit with
    | none => exact Nat.le_refl _
    | some most => exact (by decide : httpMaxHeaderBlock ≤ httpMaxResponseLogical)
  · exact ⟨rfl, fun _ => nofun, fun _ => nofun, ⟨fun _ => rfl, fun _ => rfl⟩, not_mem_nil⟩

theorem intoResponse_body
    (stores : Stores d out) (buffered : d.streaming = false) (done : d.intoResponse = .ok response) :
    response.body = out := by
  rw [intoResponse, refuse_ok, stores.bodyLen_eq buffered] at done
  rcases final : d.finalHead with _ | head
  · rw [final] at done
    cases done.2
  rw [final] at done
  cases done.2
  cases bounded : d.boundedBody with
  | some body =>
    exact (stores.bounded body bounded).1
  | none =>
    rcases (stores.unbounded bounded).1 with ⟨head', same, length, text⟩
    rw [final] at same
    cases same
    rw [HttpResponse.body]
    dsimp only [Option.map_none, Option.isSome_none]
    rw [if_neg Bool.false_ne_true, slice, text, Nat.add_sub_cancel_left, take_length]

/-- The bytes given out so far are those charged to the body. -/
structure Charged (d : HttpResponseDecoder) (limit : Option Nat) (count : Nat) : Prop where
  explicit : d.explicitBodyLimit = limit
  streamed : d.streamedBodyLen = count
  within : ∀ most, limit = some most → count ≤ most

section Charges
variable {count : Nat}

theorem streamChargePayload_charged (charged : Charged d limit count)
    (done : d.streamChargePayload n = .ok t) : Charged t limit (count + n) := by
  rw [streamChargePayload, refuse_ok, refuse_ok] at done
  rcases done with ⟨_, past, same⟩
  cases same
  refine ⟨charged.explicit, by rw [← charged.streamed], ?_⟩
  intro most known
  rw [charged.explicit, known, Option.any_some, decide_eq_true_iff, charged.streamed] at past
  exact Nat.not_lt.mp past

/-- The limit and the count of a decoder are not touched. -/
def SameLimits (d t : HttpResponseDecoder) : Prop :=
  t.explicitBodyLimit = d.explicitBodyLimit ∧ t.streamedBodyLen = d.streamedBodyLen

theorem SameLimits.trans (first : SameLimits d u) (second : SameLimits u t) :
    SameLimits d t :=
  ⟨second.1.trans first.1, second.2.trans first.2⟩

theorem Charged.same (charged : Charged d limit count) (same : SameLimits d t) : Charged t limit count :=
  ⟨same.1.trans charged.explicit, same.2.trans charged.streamed, charged.within⟩

theorem chunkLineByte_frame (done : d.chunkLineByte b = .ok t) : SameLimits d t := by
  rcases chunkLineByte_ok done with ⟨line, rfl⟩ | rfl
  · exact ⟨rfl, rfl⟩
  · rw [startChunk]
    split_ifs <;> exact ⟨rfl, rfl⟩

theorem feedChunkLine_frame (done : d.feedChunkLine bytes = .ok t) : SameLimits d t := by
  rw [feedChunkLine, refuse_ok] at done
  exact foldlM_keeps _ (fun _ _ _ same byte => same.trans (chunkLineByte_frame byte))
    (d.chargeFraming bytes.length) t ⟨rfl, rfl⟩ done.2

def Pays (limit : Option Nat) (count : Nat) (w : Window) (turn : StreamTurn) : Prop :=
  ∃ bytes, turn.window = w.write bytes ∧ Charged turn.decoder limit (count + bytes.length)

theorem pays_framing (charged : Charged t limit count) :
    Pays limit count w { taken := n, decoder := t, window := w, more } :=
  ⟨[], by rw [Window.write, append_nil], charged⟩

theorem streamPayload_pays {after : Nat → HttpDecodeState} (charged : Charged d limit count)
    (done : d.streamPayload w framed after rest = .ok turn) : Pays limit count w turn := by
  rcases ite_eq_iff.mp done with ⟨_, full⟩ | ⟨_, room⟩
  · cases full
    exact pays_framing charged
  rcases map_ok.mp room with ⟨t, paid, rfl⟩
  refine ⟨_, rfl, ?_⟩
  have width : (rest.take (min (min framed rest.length) w.space)).length =
    min (min framed rest.length) w.space := by
    rw [length_take]
    omega
  rw [width]
  exact (streamChargePayload_charged charged paid).same ⟨rfl, rfl⟩

theorem streamStep_pays (charged : Charged d limit count)
    (done : d.streamStep w rest = .ok turn) : Pays limit count w turn := by
  cases rest with
  | nil =>
    cases here : d.state <;> simp only [streamStep, here] at done <;> cases done <;>
      exact pays_framing charged
  | cons b rest =>
    cases here : d.state with
    | head =>
      simp only [streamStep, here] at done
      cases done
    | fixed remaining =>
      simp only [streamStep, here] at done
      exact streamPayload_pays charged done
    | closeDelimited =>
      simp only [streamStep, here] at done
      exact streamPayload_pays charged done
    | chunkSize =>
      simp only [streamStep, here, streamChunkSize, refuse_ok, bind_ok, Except.ok.injEq] at done
      rcases done with ⟨_, t, fed, _, rfl⟩
      exact pays_framing (charged.same (feedChunkLine_frame fed))
    | chunkData remaining =>
      simp only [streamStep, here] at done
      exact streamPayload_pays charged done
    | chunkDataCrLf seen =>
      simp only [streamStep, here, streamCrLf] at done
      split_ifs at done <;> cases done <;> exact pays_framing (charged.same ⟨rfl, rfl⟩)
    | trailers =>
      simp only [streamStep, here, map_ok] at done
      rcases done with ⟨t, byte, rfl⟩
      rcases feedTrailerByte_ok byte with ⟨trailer, rfl | rfl⟩
      · exact pays_framing (charged.same ⟨rfl, rfl⟩)
      · exact pays_framing (charged.same ⟨rfl, rfl⟩)
    | complete =>
      simp only [streamStep, here] at done
      cases done
      exact pays_framing charged

theorem streamLoop_pays (d : HttpResponseDecoder) (w : Window) (rest : Bytes)
    (count n : Nat) (charged : Charged d limit count) (done : streamLoop fuel d w rest = .ok (n, t, v)) :
    ∃ bytes, v = w.write bytes ∧ Charged t limit (count + bytes.length) := by
  have stays : ∀ (d : HttpResponseDecoder) (w : Window) (count : Nat), Charged d limit count →
      ∃ bytes, w = w.write bytes ∧ Charged d limit (count + bytes.length) :=
    fun _ w _ charged => ⟨[], by rw [Window.write, append_nil], charged⟩
  induction fuel generalizing d w rest count n with
  | zero =>
    cases done
    exact stays _ _ _ charged
  | succ fuel ih =>
    rcases ite_eq_iff.mp done with ⟨_, stop⟩ | ⟨_, turned⟩
    · cases stop
      exact stays _ _ _ charged
    rcases bind_ok.mp turned with ⟨turn, stepped, onward⟩
    rcases streamStep_pays charged stepped with ⟨bytes, written, charged'⟩
    rcases ite_eq_iff.mp onward with ⟨_, more⟩ | ⟨_, last⟩
    · rcases map_ok.mp more with ⟨⟨k, u, x⟩, looped, same⟩
      cases same
      rcases ih _ _ _ _ _ charged' looped with ⟨others, written', charged''⟩
      refine ⟨bytes ++ others, ?_, ?_⟩
      · rw [written', written, Window.write, Window.write, Window.write, append_assoc]
      · rw [length_append, ← Nat.add_assoc]
        exact charged''
    · cases last
      exact ⟨bytes, written, charged'⟩

theorem selectBody_frame {head : HttpHead} (done : d.selectBody head = .ok t) : SameLimits d t := by
  rw [selectBody] at done
  split_ifs at done
  · cases done
    exact ⟨rfl, rfl⟩
  · cases done
    exact ⟨rfl, rfl⟩
  rcases length : head.contentLength with _ | span
  · rw [length] at done
    cases done
    exact ⟨rfl, rfl⟩
  rw [length] at done
  rcases map_ok.mp done with ⟨n, _, rfl⟩
  exact ⟨rfl, rfl⟩

theorem finishHeadLine_frame (done : d.finishHeadLine = .ok t) : SameLimits d t := by
  rw [finishHeadLine, refuse_ok] at done
  rcases ite_eq_iff.mp done.2 with ⟨_, first⟩ | ⟨_, later⟩
  · cases (refuse_ok.mp first).2
    exact ⟨rfl, rfl⟩
  rcases ite_eq_iff.mp later with ⟨_, blank⟩ | ⟨_, header⟩
  · rcases bind_ok.mp blank with ⟨head, _, selected⟩
    rw [selectHead] at selected
    split_ifs at selected
    · cases selected
      exact ⟨rfl, rfl⟩
    · exact selectBody_frame selected
  · rcases map_ok.mp (refuse_ok.mp header).2 with ⟨u, read, rfl⟩
    rcases validateIncrementalHeader_ok read with ⟨framing, rfl⟩
    exact ⟨rfl, rfl⟩

theorem headStep_frame (done : d.headStep rest = .ok (n, t)) : SameLimits d t := by
  rcases hit : memchr lf rest with _ | nl
  · simp only [headStep_none hit, bind_ok, refuse_ok, Except.ok.injEq, Prod.mk.injEq] at done
    rcases done with ⟨u, appended, _, _, _, rfl⟩
    rw [(appendHead_ok appended).2]
    exact ⟨rfl, rfl⟩
  simp only [headStep_some hit, bind_ok, map_ok, Prod.mk.injEq] at done
  rcases done with ⟨u, appended, v, finished, _, rfl⟩
  have frame := finishHeadLine_frame finished
  rw [(appendHead_ok appended).2] at frame
  exact frame

theorem feedHead_charged (charged : Charged d limit count)
    (done : d.feedHead input = .ok (n, t)) : Charged t limit count := by
  refine loop_keeps (m := headMachine) (Charged · limit count) ?_ _ d _ n t charged done
  intro d rest n t charged _ _ stepped
  exact charged.same (headStep_frame stepped)

theorem pump_charged {r t : StreamReader} (charged : Charged r.decoder limit r.output.length)
    (done : r.pump = .ok t) : Charged t.decoder limit t.output.length := by
  rcases ite_eq_iff.mp done with ⟨_, head⟩ | ⟨_, body⟩
  · cases head
    exact charged
  rcases map_ok.mp body with ⟨⟨n, d, w⟩, looped, rfl⟩
  rcases streamLoop_pays _ _ _ _ _ charged looped with ⟨bytes, rfl, charged'⟩
  rw [StreamReader.output, length_append] at charged'
  rw [StreamReader.output]
  dsimp only [Window.write]
  rw [length_append, length_append, ← Nat.add_assoc]
  exact charged'

theorem step_charged {r t : StreamReader}
    (charged : Charged r.decoder limit r.output.length) (done : r.step event = .ok t) :
    Charged t.decoder limit t.output.length := by
  cases event with
  | deliver piece =>
    rcases ite_eq_iff.mp done with ⟨_, head⟩ | ⟨_, body⟩
    · rcases map_ok.mp head with ⟨⟨n, d⟩, fed, rfl⟩
      exact feedHead_charged charged fed
    · cases body
      exact charged
  | read size =>
    have same : (r.open_ size).output = r.output := append_nil _
    have opened : Charged (r.open_ size).decoder limit (r.open_ size).output.length := by
      rw [same]
      exact charged.same ⟨rfl, rfl⟩
    exact pump_charged opened done
  | resume => exact pump_charged charged done

theorem run_charged {r t : StreamReader}
    (charged : Charged r.decoder limit r.output.length) (done : r.run events = .ok t) :
    Charged t.decoder limit t.output.length :=
  foldlM_keeps _
    (fun _ _ _ => step_charged) r t charged done

end Charges

theorem decodeBuffered_ok {methodIsHead : Bool} (accepted : decodeBuffered methodIsHead limit wire = .ok (n, response)) :
    ∃ d e, (newWithLimit methodIsHead limit).feed wire = .ok (n, d) ∧ d.finishEof = .ok e ∧
      e.intoResponse = .ok response := by
  simp only [decodeBuffered, bind_ok, map_ok, Prod.exists, Prod.mk.injEq] at accepted
  rcases accepted with ⟨_, d, fed, e, ended, _, into, rfl, rfl⟩
  exact ⟨d, e, fed, ended, into⟩

theorem finishEof_ok {d e : HttpResponseDecoder} (ended : d.finishEof = .ok e) :
    (d.state = .complete ∨ d.state = .closeDelimited) ∧ e = d.setState .complete := by
  rw [finishEof] at ended
  cases here : d.state <;> rw [here] at ended <;> cases ended
  · exact ⟨Or.inr rfl, rfl⟩
  · refine ⟨Or.inl rfl, ?_⟩
    rw [setState, ← here]

/-- On every wire that the buffered decoder accepts, and for every cut of it into
deliveries and every choice of read sizes, the streaming reader never fails, and once
everything is delivered enough further reads of positive size complete it: it has
consumed the bytes the buffered decoder consumed and given out exactly its body. No
run gives out more than an explicit limit. -/
theorem streamed_as_buffered (methodIsHead : Bool) (limit : Option Nat)
    (word : ∀ most, limit = some most → most < 2 ^ 64) :
    (∀ wire n response, decodeBuffered methodIsHead limit wire = .ok (n, response) →
      ∀ events, delivered events = wire →
        ∀ sizes : List Nat, wire.length ≤ sizes.length → (∀ size ∈ sizes, 0 < size) →
          ∃ r d, (StreamReader.new methodIsHead limit).run (events ++ sizes.map .read) = .ok r ∧
            r.consumed = n ∧ r.output = response.body ∧
            r.decoder.finishEof = .ok d ∧ d.complete = true) ∧
    (∀ most, limit = some most → ∀ events r,
      (StreamReader.new methodIsHead limit).run events = .ok r → r.output.length ≤ most) := by
  constructor
  · intro wire n response accepted events all sizes enough positive
    rcases decodeBuffered_ok accepted with ⟨d, e, fed, ended, into⟩
    rcases finishEof_ok ended with ⟨ends, rfl⟩
    have valid := newWithLimit_valid methodIsHead limit
    have accepts : Accepts (newWithLimit methodIsHead limit) wire := ⟨n, d, fed, ends⟩
    have follows := newWithLimit_follows methodIsHead word
    have now : Accepts (newWithLimit methodIsHead limit) ([] ++ delivered events ++ []) := by
      rw [append_nil, all]
      exact accepts
    rcases Follows.run events [] _ _ follows valid (fun _ => rfl) now with ⟨r, s, ran, beside, settled⟩
    rw [nil_append, all] at beside
    have length := beside.length
    rcases Follows.drain sizes r s beside valid settled accepts positive (Or.inr (by omega)) with
      ⟨t, u, drained, beside', done⟩
    have same := beside'.whole valid done
    rw [fed] at same
    cases same
    have twin : Twin d t.decoder t.output := by
      rcases beside'.beside with ⟨head, _⟩ | twin
      · rw [head.ready.here] at ends
        rcases ends with absurd_ | absurd_ <;> cases absurd_
      · exact twin
    have stored : Stores (d.setState .complete) t.output := twin.stores.same rfl rfl rfl rfl
    refine ⟨t, t.decoder.setState .complete, ?_, rfl, ?_, ?_, rfl⟩
    · rw [StreamReader.run, foldlM_append, show events.foldlM StreamReader.step _ = _ from ran]
      exact drained
    · exact (intoResponse_body stored twin.valid.buffered into).symm
    · have state := Twin.state_eq twin
      rw [finishEof, state]
      rcases ends with here | here
      · rw [here]
        dsimp only
        rw [setState, ← here, ← state]
      · rw [here]
  · intro most known events r ran
    have none_ : Charged (StreamReader.new methodIsHead limit).decoder limit
      (StreamReader.new methodIsHead limit).output.length := ⟨rfl, rfl, fun _ _ => Nat.zero_le _⟩
    exact (run_charged none_ ran).within most known

theorem streamed_as_buffered_chunk :
    ∃ wire response,
      wire = ascii "HTTP/1.1 200 O\r\nTransfer-Encoding: chunked\r\n\r\n3\r\nabc\r\n0\r\n\r\n" ∧
      decodeBuffered false (some 3) wire = .ok (59, response) ∧ response.boundedBody = some (ascii "abc") ∧
      ∃ r d, (StreamReader.new false (some 3)).run
          ([.deliver (wire.take 50), .read 1, .deliver (wire.drop 50)] ++
            (List.replicate 59 1).map .read) = .ok r ∧
        r.consumed = 59 ∧ r.output = response.body ∧ r.decoder.finishEof = .ok d ∧ d.complete = true := by
  have accepted : decodeBuffered false (some 3)
    (ascii "HTTP/1.1 200 O\r\nTransfer-Encoding: chunked\r\n\r\n3\r\nabc\r\n0\r\n\r\n") = .ok (59,
        { buf := ascii "HTTP/1.1 200 O\r\nTransfer-Encoding: chunked\r\n\r\n"
          boundedBody := some (ascii "abc"), status := 200
          headers := [{ nameStart := 16, nameLen := 17, valueStart := 35, valueLen := 7 }]
          bodyStart := 0, bodyLen := 3 }) := by
    decide +kernel
  refine ⟨_, _, rfl, accepted, rfl, ?_⟩
  apply (streamed_as_buffered false (some 3) (fun _ known => by cases known; decide)).1 _ _ _ accepted
  · have pieces : ∀ first second : Bytes,
      delivered [.deliver first, .read 1, .deliver second] = first ++ (second ++ []) := fun _ _ => rfl
    rw [pieces, append_nil, take_append_drop]
  · exact Nat.le_refl 59
  · intro size mem
    rw [eq_of_mem_replicate mem]
    exact Nat.one_pos

end StreamReader

end Align.Http
