import Align.HttpStreamBody

/-! The head before a streamed body. Both decoders run the same head grammar; the
streaming one has less room for the text, which the head's own budget never needs,
and larger ceilings for the lengths. The text of an accepted head is its lines, so
the body starts where the head's text ends. -/
namespace Align.Http
open Segments Feeding Outcomes List

namespace HttpResponseDecoder

/-- The streaming counterpart while the head is read: it holds the same text. -/
def headMirror (s : HttpResponseDecoder) (framing : Nat) : HttpResponseDecoder :=
  s.mirror { bytes := s.acc.bytes, capacity := httpMaxHeaderBlock } 0 framing

/-- The text of a head up to `start` is whole lines, none blank after the status line,
and what follows is one unfinished line. -/
structure HeadLines (text : Bytes) (start : Nat) (lines : List Bytes) : Prop where
  done : text.take start = joinLines lines
  inner : ∀ line ∈ lines, lf ∉ line
  nonblank : ∀ line ∈ lines.tail, line ≠ []
  isFirst : start = 0 ↔ lines = []
  unfinished : lf ∉ text.drop start

structure HeadReady (s : HttpResponseDecoder) : Prop where
  valid : Valid s
  here : s.state = .head
  intact : s.line.magnitudeOk = true
  unbounded : s.boundedBody = none
  word : ∀ limit, s.explicitBodyLimit = some limit → limit < 2 ^ 64
  charged : s.acc.bytes.length ≤ s.cumulativeHeadBytes
  budget : s.cumulativeHeadBytes ≤ httpMaxHeaderBlock
  capacity : s.acc.capacity ≤ httpMaxResponseLogical

structure HeadTwin (s t : HttpResponseDecoder) : Prop where
  shape : ∃ framing, t = s.headMirror framing ∧ framing ≤ s.chunkFramingBytes
  ready : HeadReady s
  lines : ∃ lines, HeadLines s.acc.bytes s.headLineStart lines

variable {x : Bytes} {head : HttpHead}

section Mirrors
variable {s u : HttpResponseDecoder} {framing : Nat}

theorem appendHead_headMirror (charged : s.acc.bytes.length ≤ s.cumulativeHeadBytes)
    (done : s.appendHead x = .ok u) :
    (s.headMirror framing).appendHead x = .ok (u.headMirror framing) := by
  rcases appendHead_ok done with ⟨within, rfl⟩
  have cumulative : ¬ httpMaxHeaderBlock < (s.headMirror framing).cumulativeHeadBytes + x.length :=
    Nat.not_lt.mpr within
  have fits : (s.headMirror framing).acc.bytes.length + x.length ≤ (s.headMirror framing).acc.capacity := by
    change s.acc.bytes.length + x.length ≤ httpMaxHeaderBlock
    omega
  rw [appendHead, if_neg cumulative, HttpResponseAccumulator.extendFromSlice, if_pos fits]
  rfl

theorem decimalBodyLen_headMirror {span : HttpDecimalSpan} (buffered : s.streaming = false)
    (done : s.decimalBodyLen span = .ok n) : (s.headMirror framing).decimalBodyLen span = .ok n := by
  have caps : s.bodyCap ≤ (s.headMirror framing).bodyCap := mirror_bodyCap _ _ _ buffered
  rw [decimalBodyLen] at done ⊢
  rw [show (s.headMirror framing).acc.bytes = s.acc.bytes from rfl]
  generalize decimalDigits s.acc.bytes span = digits at done ⊢
  generalize 0 = start at done ⊢
  induction digits generalizing start with
  | nil => exact done
  | cons b rest ih =>
    rw [foldlM_cons] at done ⊢
    rcases bind_ok.mp done with ⟨more, first, others⟩
    rw [refuse_ok, Except.ok.injEq] at first
    rcases first with ⟨small, rfl⟩
    have below : (s.bodyCap - (b.toNat - 48)) / 10 ≤
      ((s.headMirror framing).bodyCap - (b.toNat - 48)) / 10 :=
      Nat.div_le_div_right (Nat.sub_le_sub_right caps _)
    rw [if_neg (by omega)]
    exact ih _ others

theorem selectBody_headMirror (buffered : s.streaming = false) (done : s.selectBody head = .ok u) :
    (s.headMirror framing).selectBody head = .ok (u.headMirror framing) := by
  rw [selectBody] at done ⊢
  rw [show (s.headMirror framing).methodIsHead = s.methodIsHead from rfl]
  split_ifs at done ⊢
  · cases done
    rfl
  · cases done
    rfl
  rcases length : head.contentLength with _ | span
  · rw [length] at done
    cases done
    rfl
  rw [length] at done
  rcases map_ok.mp done with ⟨n, size, rfl⟩
  dsimp only
  rw [decimalBodyLen_headMirror buffered size]
  rfl

theorem selectHead_headMirror (buffered : s.streaming = false) (done : s.selectHead head = .ok u) :
    (s.headMirror framing).selectHead head = .ok (u.headMirror framing) := by
  rw [selectHead] at done ⊢
  rw [show (s.headMirror framing).cumulativeHeadBytes = s.cumulativeHeadBytes from rfl]
  split_ifs at done ⊢
  · cases done
    rfl
  · exact selectBody_headMirror buffered done

theorem validateIncrementalHeader_headMirror (done : s.validateIncrementalHeader lineStart lineEnd = .ok u) :
    (s.headMirror framing).validateIncrementalHeader lineStart lineEnd =
      .ok (u.headMirror framing) := by
  rw [validateIncrementalHeader] at done ⊢
  rw [show (s.headMirror framing).acc.bytes = s.acc.bytes from rfl,
    show (s.headMirror framing).headFraming = s.headFraming from rfl,
    show (s.headMirror framing).headStatus = s.headStatus from rfl,
    show (s.headMirror framing).headHttp11 = s.headHttp11 from rfl]
  rcases bind_ok.mp done with ⟨read, line, checked⟩
  rw [line]
  dsimp only [Except.bind] at checked ⊢
  rcases status : s.headStatus with _ | code
  · rw [status] at checked
    cases checked
  rw [status] at checked
  dsimp only at checked ⊢
  split_ifs at checked ⊢
  cases checked
  rfl

theorem finishHeadLine_headMirror (buffered : s.streaming = false) (done : s.finishHeadLine = .ok u) :
    (s.headMirror framing).finishHeadLine = .ok (u.headMirror framing) := by
  rw [finishHeadLine] at done ⊢
  rw [show (s.headMirror framing).acc.bytes = s.acc.bytes from rfl,
    show (s.headMirror framing).headLineStart = s.headLineStart from rfl,
    show (s.headMirror framing).headHeaderCount = s.headHeaderCount from rfl]
  dsimp only at done ⊢
  split_ifs at done ⊢
  · cases done
    rfl
  · rcases bind_ok.mp done with ⟨head, parsed, selected⟩
    rw [parsed]
    exact selectHead_headMirror buffered selected
  · rcases map_ok.mp done with ⟨v, read, rfl⟩
    rw [validateIncrementalHeader_headMirror read]
    rfl

end Mirrors

section Lands
variable {s u : HttpResponseDecoder}

theorem acceptHead_stores (ready : HeadReady s) (delimited : Bool)
    (start : head.bodyStart = s.acc.bytes.length) : Stores (s.acceptHead head delimited) [] := by
  have small := ready.charged.trans ready.budget
  refine ⟨?_, ?_, fun _ _ => rfl, ready.word⟩
  · intro body hit
    rw [show (s.acceptHead head delimited).boundedBody = s.boundedBody from rfl, ready.unbounded] at hit
    cases hit
  · intro _
    refine ⟨⟨head, rfl, start.symm, ?_⟩, ?_, ready.capacity⟩
    · rw [start]
      exact drop_length
    · change s.acc.bytes.length ≤ httpMaxResponseLogical
      rw [httpMaxResponseLogical]
      omega

theorem selectBody_lands (ready : HeadReady s)
    (start : head.bodyStart = s.acc.bytes.length) (done : s.selectBody head = .ok u)
    (below : framing ≤ s.chunkFramingBytes) : Twin u (u.headMirror framing) [] := by
  have valid := selectBody_valid ready.valid done
  have buffered : ∀ delimited, (s.acceptHead head delimited).streaming = false :=
    fun _ => ready.valid.buffered
  have stores := fun delimited => acceptHead_stores ready delimited start
  rw [selectBody] at done
  split_ifs at done
  · cases done
    exact Twin.framed ⟨_, framing, rfl, below⟩ valid ready.intact ((stores true).same rfl rfl rfl rfl)
      (by rintro ⟨⟩) rfl
  · cases done
    exact Twin.framed ⟨_, framing, rfl, below⟩ valid ready.intact ((stores true).same rfl rfl rfl rfl)
      (by rintro ⟨⟩) rfl
  cases length : head.contentLength with
  | none =>
    rw [length] at done
    cases done
    refine ⟨⟨_, framing, rfl, below⟩, valid, by rintro ⟨⟩, ready.intact, ?_, rfl, fun _ => ?_⟩
    · exact ((stores false).prepare (buffered false)).same rfl rfl rfl rfl
    · exact prepareBody_bounded (d := s.acceptHead head false) (buffered false)
  | some span =>
    rw [length] at done
    rcases map_ok.mp done with ⟨n, _, rfl⟩
    refine ⟨⟨_, framing, rfl, below⟩, valid, ?_, ready.intact, ?_, ?_, fun _ => ?_⟩
    · split_ifs <;> rintro ⟨⟩
    · exact ((stores true).prepare (buffered true)).same rfl rfl rfl rfl
    · apply owesTurn_setState
      split_ifs with none_
      · exact ⟨by simp, by simp⟩
      · exact ⟨fun same => none_ (HttpDecodeState.fixed.inj same), by simp⟩
    · exact prepareBody_bounded (d := s.acceptHead head true) (buffered true)

theorem appendHead_ready (ready : HeadReady s) (done : s.appendHead x = .ok u) :
    HeadReady u := by
  have valid := (appendHead_valid ready.valid ready.here done).1
  rcases appendHead_ok done with ⟨within, rfl⟩
  refine ⟨valid, ready.here, ready.intact, ready.unbounded, ready.word, ?_, within, ready.capacity⟩
  rw [length_append]
  exact Nat.add_le_add_right ready.charged _

variable {lines : List Bytes}

theorem HeadLines.extend {text line : Bytes}
    (done : text.take start = joinLines lines) (inner : ∀ line ∈ lines, lf ∉ line)
    (nonblank : ∀ line ∈ lines.tail, line ≠ []) (last : text.drop start = line ++ [Http.cr, lf])
    (open_ : lf ∉ line) (some_ : lines ≠ [] → line ≠ []) :
    HeadLines text text.length (lines ++ [line]) := by
  have whole : text = joinLines (lines ++ [line]) := by
    nth_rewrite 1 [← take_append_drop start text]
    rw [done, last, joinLines, joinLines, flatMap_append, flatMap_singleton]
  refine ⟨?_, ?_, ?_, ?_, ?_⟩
  · rw [take_length]
    exact whole
  · intro other mem
    rcases mem_append.mp mem with old | new
    · exact inner other old
    · rw [mem_singleton.mp new]
      exact open_
  · intro other mem
    cases lines with
    | nil => cases mem
    | cons status lines =>
      rcases mem_append.mp mem with old | new
      · exact nonblank other old
      · rw [mem_singleton.mp new]
        exact some_ (cons_ne_nil _ _)
  · constructor
    · intro empty
      rw [eq_nil_of_length_eq_zero empty, drop_nil] at last
      exact absurd (congrArg List.length last).symm (by rw [length_append]; exact Nat.succ_ne_zero _)
    · intro none_
      exact absurd none_ (append_ne_nil_of_right_ne_nil _ (cons_ne_nil _ _))
  · rw [drop_length]
    exact not_mem_nil

/-- A finished line of the head: the head goes on, starts again after an interim one, or
the body begins. -/
theorem finishHeadLine_lands (ready : HeadReady s) (body : Bytes)
    (done : s.acc.bytes.take s.headLineStart = joinLines lines) (inner : ∀ line ∈ lines, lf ∉ line)
    (nonblank : ∀ line ∈ lines.tail, line ≠ []) (isFirst : s.headLineStart = 0 ↔ lines = [])
    (text : s.acc.bytes.drop s.headLineStart = body ++ [lf]) (open_ : lf ∉ body)
    (finished : s.finishHeadLine = .ok u) (framing : Nat) (below : framing ≤ s.chunkFramingBytes) :
    HeadTwin u (u.headMirror framing) ∨ Twin u (u.headMirror framing) [] := by
  have valid := finishHeadLine_valid ready.valid finished
  rw [finishHeadLine, refuse_ok, not_or, Nat.not_lt, not_not] at finished
  rcases finished with ⟨⟨long, ends⟩, finished⟩
  have line := slice_line text long ends
  obtain ⟨last, named⟩ : ∃ last, last = slice s.acc.bytes s.headLineStart (s.acc.bytes.length - 2) :=
    ⟨_, rfl⟩
  rw [← named] at line finished
  rw [← line, append_assoc] at text
  rw [← line, mem_append, not_or] at open_
  rcases ite_eq_iff.mp finished with ⟨start, status⟩ | ⟨start, later⟩
  · cases (refuse_ok.mp status).2
    left
    refine ⟨⟨framing, rfl, below⟩, ⟨valid, ready.here, ready.intact, ready.unbounded, ready.word,
      ready.charged, ready.budget, ready.capacity⟩, lines ++ [last], ?_⟩
    exact HeadLines.extend done inner nonblank text open_.1 fun some_ => absurd (isFirst.mp start) some_
  have some_ : lines ≠ [] := fun none_ => start (isFirst.mpr none_)
  rcases ite_eq_iff.mp later with ⟨blank_, selected⟩ | ⟨blank_, header⟩
  · rw [List.isEmpty_iff] at blank_
    rcases bind_ok.mp selected with ⟨head, parsed, selected⟩
    rcases exists_cons_of_ne_nil some_ with ⟨status, fields, rfl⟩
    have whole : s.acc.bytes = joinLines (status :: fields) ++ [Http.cr, lf] := by
      nth_rewrite 1 [← take_append_drop s.headLineStart s.acc.bytes]
      rw [done, text, blank_]
      rfl
    have bodyStart := httpParseHead_bodyStart whole (inner status mem_cons_self)
      (forall_mem_cons.mp inner).2 nonblank parsed
    rw [selectHead] at selected
    split_ifs at selected
    · cases selected
      left
      refine ⟨⟨framing, rfl, below⟩, ⟨valid, rfl, ready.intact, ready.unbounded, ready.word,
        Nat.zero_le _, ready.budget, ready.capacity⟩, [], ?_⟩
      exact ⟨rfl, by simp, by simp, ⟨fun _ => rfl, fun _ => rfl⟩, not_mem_nil⟩
    · exact Or.inr (selectBody_lands ready bodyStart selected below)
  · rcases map_ok.mp (refuse_ok.mp header).2 with ⟨v, read, rfl⟩
    rcases validateIncrementalHeader_ok read with ⟨framing_, rfl⟩
    left
    refine ⟨⟨framing, rfl, below⟩, ⟨valid, ready.here, ready.intact, ready.unbounded, ready.word,
      ready.charged, ready.budget, ready.capacity⟩, lines ++ [last], ?_⟩
    exact HeadLines.extend done inner nonblank text open_.1 fun _ empty =>
      blank_ (List.isEmpty_iff.mpr empty)

end Lands

section Phase
variable {s t u : HttpResponseDecoder} {rest more : Bytes} {n : Nat}

theorem take_past (hit : memchr lf rest = some nl) :
    ∃ before, rest.take (nl + 1) = before ++ [lf] ∧ lf ∉ before := by
  rcases memchr_some_split hit with ⟨before, after, rfl, absent, rfl⟩
  refine ⟨before, ?_, absent⟩
  rw [take_length_add_append]
  rfl

theorem headStep_take (ran : s.headStep rest = .ok (n, u)) :
    s.headStep (rest.take n) = .ok (n, u) := by
  cases hit : memchr lf rest with
  | none =>
    have all : n = rest.length := by
      simp only [headStep_none hit, bind_ok, refuse_ok, Except.ok.injEq, Prod.mk.injEq] at ran
      rcases ran with ⟨_, _, _, _, rfl, _⟩
      rfl
    rw [all, take_length, ← all]
    exact ran
  | some nl =>
    have short : n = nl + 1 := by
      simp only [headStep_some hit, bind_ok, map_ok, Prod.mk.injEq] at ran
      rcases ran with ⟨_, _, _, _, rfl, _⟩
      rfl
    have again : memchr lf (rest.take (nl + 1)) = some nl := by
      rcases memchr_some_split hit with ⟨before, after, rfl, absent, rfl⟩
      rw [take_length_add_append]
      exact memchr_at absent []
    rw [short, headStep_some again, take_take, Nat.min_self, ← short]
    rw [headStep_some hit, ← short] at ran
    exact ran

theorem headStep_twin (twin : HeadTwin s t) (ran : s.headStep rest = .ok (n, u)) :
    ∃ d, t.headStep rest = .ok (n, d) ∧ (HeadTwin u d ∨ Twin u d []) := by
  rcases twin.shape with ⟨framing, rfl, below⟩
  rcases twin.lines with ⟨lines, lines_⟩
  have inside := twin.ready.valid.lineStart twin.ready.here
  cases hit : memchr lf rest with
  | none =>
    rw [headStep_none hit] at ran ⊢
    rcases bind_ok.mp ran with ⟨v, appended, going⟩
    rw [appendHead_headMirror twin.ready.charged appended]
    dsimp only [Except.bind]
    rw [show (v.headMirror framing).headLineStart = v.headLineStart from rfl,
      show (v.headMirror framing).acc.bytes = v.acc.bytes from rfl,
      show (v.headMirror framing).cumulativeHeadBytes = v.cumulativeHeadBytes from rfl]
    split_ifs at going ⊢
    cases going
    refine ⟨_, rfl, Or.inl ?_⟩
    have ready := appendHead_ready twin.ready appended
    rcases appendHead_ok appended with ⟨_, rfl⟩
    refine ⟨⟨framing, rfl, below⟩, ready, lines, ?_⟩
    refine ⟨?_, lines_.inner, lines_.nonblank, lines_.isFirst, ?_⟩
    · rw [take_append_of_le_length inside]
      exact lines_.done
    · rw [drop_append_of_le_length inside, mem_append, not_or]
      exact ⟨lines_.unfinished, memchr_none hit⟩
  | some nl =>
    simp only [headStep_some hit, bind_ok, map_ok, Prod.mk.injEq] at ran
    rcases ran with ⟨v, appended, x, finished, rfl, rfl⟩
    have ready := appendHead_ready twin.ready appended
    rw [headStep_some hit, appendHead_headMirror twin.ready.charged appended]
    dsimp only [Except.bind]
    rw [finishHeadLine_headMirror ready.valid.buffered finished]
    refine ⟨_, rfl, ?_⟩
    rcases take_past hit with ⟨before, cut, absent⟩
    rw [cut] at appended
    rcases appendHead_ok appended with ⟨_, rfl⟩
    refine finishHeadLine_lands ready (s.acc.bytes.drop s.headLineStart ++ before) ?_
      lines_.inner lines_.nonblank lines_.isFirst ?_ ?_ finished _ below
    · rw [take_append_of_le_length inside]
      exact lines_.done
    · rw [drop_append_of_le_length inside, append_assoc]
    · rw [mem_append, not_or]
      exact ⟨lines_.unfinished, absent⟩

/-- The streaming decoder's head phase on an accepted wire: it takes the delivery whole,
or stops where the body begins. -/
theorem feedHead_twin (fuel : Nat) (s t : HttpResponseDecoder) (rest : Bytes) (enough : rest.length < fuel)
    (twin : HeadTwin s t) (accepts : Accepts s (rest ++ more)) :
    ∃ n u d, headMachine.loop fuel t rest = .ok (n, d) ∧ n ≤ rest.length ∧
      s.feed (rest.take n) = .ok (n, u) ∧ ((HeadTwin u d ∧ n = rest.length) ∨ Twin u d []) := by
  induction fuel generalizing s t rest with
  | zero => cases enough
  | succ fuel ih =>
    by_cases none_ : rest = []
    · refine ⟨0, s, t, loop_stop _ _ (Or.inl none_), Nat.zero_le _, ?_, Or.inl ⟨twin, ?_⟩⟩
      · exact feed_stop _ (Or.inl rfl)
      · rw [none_]
        rfl
    have running : s.complete = false := beq_false_of_ne (by rw [twin.ready.here]; decide)
    have going : headMachine.halted t = false := by
      rcases twin.shape with ⟨framing, rfl, _⟩
      change (s.state != .head) = false
      rw [twin.ready.here]
      rfl
    rcases accepts.step_ok twin.ready.valid none_ running with ⟨n, u, stepped, _⟩
    rw [feedStep_head none_ twin.ready.here] at stepped
    rcases headStep_valid twin.ready.valid twin.ready.here none_ stepped with ⟨_, positive, inside⟩
    rcases headStep_twin twin stepped with ⟨d, mirrored, lands⟩
    have fed : s.feed (rest.take n) = .ok (n, u) := by
      refine feed_part twin.ready.valid positive inside running ?_
      have width := length_take_of_le inside
      rw [feedStep_head (length_pos_iff.mp (by omega)) twin.ready.here]
      exact headStep_take stepped
    rw [loop_step _ _ none_ going, show headMachine.step t rest = .ok (n, d) from mirrored]
    dsimp only [andThen]
    rcases lands with headAgain | body
    · have shorter : (rest.drop n).length < fuel := by
        rw [length_drop]
        omega
      rcases ih u d _ shorter headAgain ((accepts.cut n).after twin.ready.valid fed) with
        ⟨k, v, e, looped, inside', fed', lands'⟩
      rw [length_drop] at inside'
      rw [looped]
      refine ⟨n + k, v, e, rfl, by omega, ?_, ?_⟩
      · rw [take_add, feed, feed_append machine_local s _ _ twin.ready.valid,
          show machine.feed s _ = _ from fed]
        exact andThen_ok u _ k v fed'
      · rcases lands' with ⟨still, all⟩ | body
        · rw [length_drop] at all
          exact Or.inl ⟨still, by omega⟩
        · exact Or.inr body
    · have stopped : headMachine.halted d = true := by
        rcases body.shape with ⟨acc, framing, rfl, _⟩
        exact bne_iff_ne.mpr body.body
      rw [loop_stop _ _ (Or.inr stopped)]
      exact ⟨n, u, d, rfl, inside, fed, Or.inr body⟩

end Phase

end HttpResponseDecoder

end Align.Http
