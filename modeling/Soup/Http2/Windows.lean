import Mathlib.Data.List.Infix
import Mathlib.Data.List.Perm.Basic
import Mathlib.Data.List.Nodup
import Soup.Http2.Encode

/-!
# Windows

A stream fits when its window is the initial one with what it accepted and without what was sent,
what was sent is what the body has in front of the rest, and nothing comes behind END_STREAM
(`Fits`). A session with a stream in hand is `Holding` it: the stream is as good as the ones in
their places, and may be put back.
-/

namespace Soup.Http2

open List

/-! ## What was sent -/

def Written.ends (frame : Written) : Bool := isSet frame.flags endStream

/-- A HEADERS or DATA frame of a stream: what may have END_STREAM. -/
def Written.isOf (id : ℕ) (frame : Written) : Bool :=
  decide (frame.streamId = id) && decide (frame.type = .data ∨ frame.type = .headers)

def Written.isDataOf (id : ℕ) (frame : Written) : Bool :=
  decide (frame.streamId = id) && decide (frame.type = .data)

/-- The DATA payloads of a stream. -/
def sentOf (written : List Written) (id : ℕ) : Bytes :=
  (written.filter (Written.isDataOf id)).flatMap Written.payload

/-- At most the last frame of a stream has END_STREAM. -/
def EndsOnce (written : List Written) (id : ℕ) : Prop :=
  (written.filter (Written.isOf id)).Pairwise fun frame _ => frame.ends = false

/-- No frame of a stream has END_STREAM. -/
def NotEnded (written : List Written) (id : ℕ) : Prop :=
  ∀ frame ∈ written, frame.isOf id = true → frame.ends = false

/-- A DATA frame with a payload is in the limits of its moment. -/
def Written.WithinLimits (frame : Written) : Prop :=
  frame.type = .data → frame.payload = [] ∨ ∃ limits, frame.limits = some limits ∧
    (frame.payload.length : ℤ) ≤ limits.sendWindow ∧
    (frame.payload.length : ℤ) ≤ limits.connSendWindow ∧
    frame.payload.length ≤ limits.remoteMaxFrameSize

section Sent

variable {written frames : List Written} {id : ℕ}

theorem sentOf_append : sentOf (written ++ frames) id = sentOf written id ++ sentOf frames id := by
  rw [sentOf, filter_append, flatMap_append]
  rfl

theorem sentOf_eq_nil (h : ∀ frame ∈ frames, frame.isDataOf id = false) :
    sentOf frames id = [] := by
  rw [sentOf, filter_eq_nil_iff.2 fun frame hframe => by simp [h frame hframe]]
  rfl

theorem Written.isDataOf_of_isOf {frame : Written} (h : frame.isOf id = false) :
    frame.isDataOf id = false := by
  simp only [Written.isOf, Written.isDataOf, Bool.and_eq_false_iff, decide_eq_false_iff_not,
    not_or] at h ⊢
  exact h.imp_right And.left

theorem EndsOnce.append (h : NotEnded written id) (hframes : EndsOnce frames id) :
    EndsOnce (written ++ frames) id := by
  rw [EndsOnce, filter_append, pairwise_append]
  refine ⟨List.Pairwise.imp_of_mem (R := fun _ _ => True) ?_ (pairwise_of_forall fun _ _ =>
    trivial), hframes, fun frame hframe _ _ => ?_⟩
  · intro frame _ hframe _ _
    obtain ⟨hmem, hof⟩ := mem_filter.1 hframe
    exact h frame hmem hof
  · obtain ⟨hmem, hof⟩ := mem_filter.1 hframe
    exact h frame hmem hof

theorem EndsOnce.append_others (h : EndsOnce written id)
    (hframes : ∀ frame ∈ frames, frame.isOf id = false) : EndsOnce (written ++ frames) id := by
  have hnil : frames.filter (Written.isOf id) = [] :=
    filter_eq_nil_iff.2 fun frame hframe => by simp [hframes frame hframe]
  rw [EndsOnce, filter_append, hnil, append_nil]
  exact h

theorem NotEnded.append (h : NotEnded written id) (hframes : NotEnded frames id) :
    NotEnded (written ++ frames) id := by
  intro frame hframe
  rcases mem_append.1 hframe with hframe | hframe
  · exact h frame hframe
  · exact hframes frame hframe

theorem notEnded_others (hframes : ∀ frame ∈ frames, frame.isOf id = false) :
    NotEnded frames id := fun frame hframe hof =>
  absurd (hof.symm.trans (hframes frame hframe)) Bool.false_ne_true.symm

end Sent

/-! ## Streams -/

/-- What is left to send. -/
def Stream.unsent (stream : Stream) : Bytes :=
  match stream.client with
  | some .bytes => stream.pendingBody
  | some (.stream buffer _) => buffer
  | none => []

structure Fits (written : List Written) (initial : ℕ) (stream : Stream) : Prop where
  client : stream.client ≠ none
  window_eq : stream.sendWindow =
    initial + stream.accepted - (sentOf written stream.id).length
  window_le : stream.sendWindow ≤ maxWindowSize
  sent_le : (sentOf written stream.id).length ≤ stream.accepted + maxWindowSize
  body : sentOf written stream.id ++ stream.unsent = stream.body
  ended : NotEnded written stream.id ∨ stream.localClosed = true ∧ stream.awaitingContinue = false
  once : EndsOnce written stream.id

/-- What stays of a stream that was removed. -/
structure Left (written : List Written) (stream : Stream) : Prop where
  sent : sentOf written stream.id <+: stream.body
  once : EndsOnce written stream.id

variable {written : List Written}

theorem Fits.left {initial : ℕ} {stream : Stream}
    (h : Fits written initial stream) : Left written stream :=
  ⟨⟨_, h.body⟩, h.once⟩

section Others

variable {written frames : List Written} {initial : ℕ} {stream : Stream}
  (hframes : ∀ frame ∈ frames, frame.isOf stream.id = false)
include hframes

theorem sentOf_append_others (written : List Written) :
    sentOf (written ++ frames) stream.id = sentOf written stream.id := by
  rw [sentOf_append, sentOf_eq_nil fun frame hframe => Written.isDataOf_of_isOf
    (hframes frame hframe), append_nil]

/-- Frames of other streams. -/
theorem Fits.append_others (h : Fits written initial stream) :
    Fits (written ++ frames) initial stream := by
  have hsent := sentOf_append_others hframes written
  refine ⟨h.client, hsent ▸ h.window_eq, h.window_le, hsent ▸ h.sent_le, hsent ▸ h.body,
    h.ended.imp_left fun hnot => hnot.append (notEnded_others hframes),
    h.once.append_others hframes⟩

theorem Left.append_others (h : Left written stream) : Left (written ++ frames) stream :=
  ⟨sentOf_append_others hframes written ▸ h.sent, h.once.append_others hframes⟩

end Others

/-- A change that sends nothing: the stream may be closed, and may stop to wait. -/
structure Calm (old new : Stream) : Prop where
  id : new.id = old.id
  client : new.client = old.client
  sendWindow : new.sendWindow = old.sendWindow
  accepted : new.accepted = old.accepted
  body : new.body = old.body
  pendingBody : new.pendingBody = old.pendingBody
  localClosed : old.localClosed = true → new.localClosed = true
  awaitingContinue : new.awaitingContinue = true → old.awaitingContinue = true

theorem Calm.refl (stream : Stream) : Calm stream stream :=
  ⟨rfl, rfl, rfl, rfl, rfl, rfl, fun h => h, fun h => h⟩

theorem Calm.trans {a b c : Stream} (h : Calm a b) (h' : Calm b c) : Calm a c :=
  ⟨h'.id.trans h.id, h'.client.trans h.client, h'.sendWindow.trans h.sendWindow,
    h'.accepted.trans h.accepted, h'.body.trans h.body, h'.pendingBody.trans h.pendingBody,
    fun hc => h'.localClosed (h.localClosed hc),
      fun ha => h.awaitingContinue (h'.awaitingContinue ha)⟩

theorem calm_recvEndStream (stream : Stream) : Calm stream stream.recvEndStream := by
  refine ⟨rfl, rfl, rfl, rfl, rfl, rfl, fun h => ?_, fun h => h⟩
  obtain hstate | hstate : stream.state = .halfClosedLocal ∨ stream.state = .closed := by
    simpa [Stream.localClosed] using h
  all_goals simp [Stream.recvEndStream, Stream.localClosed, hstate]

theorem localClosed_sentEndStream (stream : Stream) : stream.sentEndStream.localClosed = true := by
  cases hstate : stream.state <;> simp [Stream.sentEndStream, Stream.localClosed, hstate]

theorem Fits.calm {initial : ℕ} {old new : Stream}
    (h : Fits written initial old) (hcalm : Calm old new) : Fits written initial new := by
  have hunsent : new.unsent = old.unsent := by
    rw [Stream.unsent, Stream.unsent, hcalm.client, hcalm.pendingBody]
  refine ⟨hcalm.client ▸ h.client, ?_, hcalm.sendWindow ▸ h.window_le, ?_, ?_, ?_,
    hcalm.id ▸ h.once⟩
  · rw [hcalm.sendWindow, hcalm.id, hcalm.accepted]
    exact h.window_eq
  · rw [hcalm.id, hcalm.accepted]
    exact h.sent_le
  · rw [hcalm.id, hunsent, hcalm.body]
    exact h.body
  · rw [hcalm.id]
    refine h.ended.imp_right fun ⟨hclosed, hwaits⟩ => ⟨hcalm.localClosed hclosed, ?_⟩
    rw [Bool.eq_false_iff] at hwaits ⊢
    exact fun hnew => hwaits (hcalm.awaitingContinue hnew)

/-! ## Sessions -/

/-- What is good about a session, whatever its streams are. -/
structure Base (written : List Written) (ids : List ℕ) (gone : List Stream) (conn : ℤ)
    (initial next : ℕ) : Prop where
  initial_le : initial ≤ maxWindowSize
  conn_nonneg : 0 ≤ conn
  conn_le : conn ≤ maxWindowSize
  nodup : (ids ++ gone.map Stream.id).Nodup
  ids_lt : ∀ id ∈ ids ++ gone.map Stream.id, 0 < id ∧ id < next
  next_pos : 0 < next
  frames_mem : ∀ frame ∈ written, frame.streamId ∈ 0 :: (ids ++ gone.map Stream.id)
  limits : ∀ frame ∈ written, frame.WithinLimits
  gone : ∀ stream ∈ gone, Left written stream

theorem Base.frames_lt {ids : List ℕ} {gone : List Stream} {conn : ℤ}
    {initial next : ℕ} (h : Base written ids gone conn initial next) :
    ∀ frame ∈ written, frame.streamId < next := by
  intro frame hframe
  rcases mem_cons.1 (h.frames_mem frame hframe) with hzero | hmem
  · exact hzero ▸ h.next_pos
  · exact (h.ids_lt _ hmem).2

namespace Session

variable {D : Type}

def Base (session : Session D) : Prop :=
  Http2.Base session.written (session.streams.map Stream.id) session.gone session.connSendWindow
    session.remoteInitialWindowSize session.nextStreamId

/-- The id of the connection, or one that was given away. -/
def Knows (session : Session D) (id : ℕ) : Prop :=
  id ∈ 0 :: (session.streams.map Stream.id ++ session.gone.map Stream.id)

def Fits (session : Session D) (stream : Stream) : Prop :=
  Http2.Fits session.written session.remoteInitialWindowSize stream

/-- Every stream fits. -/
structure Good (session : Session D) : Prop where
  base : session.Base
  fits : ∀ stream ∈ session.streams, session.Fits stream

/-- A stream is in hand, and its place has an older state of it. -/
structure Holding (session : Session D) (stream : Stream) : Prop where
  base : session.Base
  place : ∃ old ∈ session.streams, old.id = stream.id
  fits : session.Fits stream
  others : ∀ other ∈ session.streams, other.id ≠ stream.id → session.Fits other

section

variable {session session' : Session D} {stream stream' : Stream} {id : ℕ}

theorem mem_of_stream? (h : session.stream? id = some stream) :
    stream ∈ session.streams ∧ stream.id = id :=
  ⟨mem_of_find?_eq_some h, by simpa using find?_some h⟩

theorem Good.holding (h : session.Good) (hmem : stream ∈ session.streams) :
    session.Holding stream :=
  ⟨h.base, ⟨stream, hmem, rfl⟩, h.fits stream hmem, fun other hother _ => h.fits other hother⟩

/-- Sessions that are the same to what `Good` speaks of. -/
structure SameSending (session session' : Session D) : Prop where
  written : session'.written = session.written
  streams : session'.streams = session.streams
  gone : session'.gone = session.gone
  conn : session'.connSendWindow = session.connSendWindow
  initial : session'.remoteInitialWindowSize = session.remoteInitialWindowSize
  next : session'.nextStreamId = session.nextStreamId

theorem Good.same (h : session.Good) (hsame : SameSending session session') : session'.Good := by
  obtain ⟨hwritten, hstreams, hgone, hconn, hinitial, hnext⟩ := hsame
  refine ⟨?_, fun stream hstream => ?_⟩
  · rw [Base, hwritten, hstreams, hgone, hconn, hinitial, hnext]
    exact h.base
  · rw [Fits, hwritten, hinitial]
    exact h.fits stream (hstreams ▸ hstream)

theorem Holding.same (h : session.Holding stream) (hsame : SameSending session session') :
    session'.Holding stream := by
  obtain ⟨hwritten, hstreams, hgone, hconn, hinitial, hnext⟩ := hsame
  refine ⟨?_, hstreams ▸ h.place, ?_, fun other hother hne => ?_⟩
  · rw [Base, hwritten, hstreams, hgone, hconn, hinitial, hnext]
    exact h.base
  · rw [Fits, hwritten, hinitial]
    exact h.fits
  · rw [Fits, hwritten, hinitial]
    exact h.others other (hstreams ▸ hother) hne

theorem map_id_putStream : (session.putStream stream).streams.map Stream.id =
    session.streams.map Stream.id := by
  rw [putStream, map_map]
  refine map_congr_left fun other _ => ?_
  rw [Function.comp_apply]
  split
  next heq =>
    exact heq.symm
  · rfl

section

variable (h : session.Holding stream)
include h

theorem Holding.put : (session.putStream stream).Good := by
  refine ⟨?_, fun other hother => ?_⟩
  · rw [Base, map_id_putStream]
    exact h.base
  · obtain ⟨old, hold, rfl⟩ := mem_map.1 hother
    split
    · exact h.fits
    next hne =>
      exact h.others old hold hne

theorem Holding.calm (hcalm : Calm stream stream') : session.Holding stream' :=
  ⟨h.base, hcalm.id ▸ h.place, h.fits.calm hcalm, hcalm.id ▸ h.others⟩

theorem Holding.ids : 0 < stream.id ∧ stream.id < session.nextStreamId := by
  obtain ⟨old, hold, heq⟩ := h.place
  exact h.base.ids_lt _ (mem_append_left _ (mem_map.2 ⟨old, hold, heq⟩))

end

theorem knows_zero : session.Knows 0 := mem_cons_self

theorem knows_of_place (h : ∃ old ∈ session.streams, old.id = id) : session.Knows id :=
  mem_cons_of_mem _ (mem_append_left _ (mem_map.2 h))

/-! ### Frames -/

/-- Frames that are no HEADERS and no DATA. -/
theorem Base.append {written frames : List Written} {ids : List ℕ} {gone : List Stream} {conn : ℤ}
    {initial next : ℕ} (h : Http2.Base written ids gone conn initial next)
    (hmem : ∀ frame ∈ frames, frame.streamId ∈ 0 :: (ids ++ gone.map Stream.id))
    (hlimits : ∀ frame ∈ frames, frame.WithinLimits)
    (hgone : ∀ stream ∈ gone, ∀ frame ∈ frames, frame.isOf stream.id = false) :
    Http2.Base (written ++ frames) ids gone conn initial next := by
  refine ⟨h.initial_le, h.conn_nonneg, h.conn_le, h.nodup, h.ids_lt, h.next_pos,
    fun frame hframe => ?_, fun frame hframe => ?_,
    fun stream hstream => (h.gone stream hstream).append_others (hgone stream hstream)⟩
  · rcases mem_append.1 hframe with hframe | hframe
    · exact h.frames_mem frame hframe
    · exact hmem frame hframe
  · rcases mem_append.1 hframe with hframe | hframe
    · exact h.limits frame hframe
    · exact hlimits frame hframe

/-- A frame that has no END_STREAM and no body. -/
def IsControl (type : FrameType) : Prop := type ≠ .data ∧ type ≠ .headers

variable {type : FrameType}

theorem IsControl.isOf (h : IsControl type) (flags : UInt8) (streamId : ℕ)
    (payload : Bytes) (limits : Option Limits) :
    (Written.mk type flags streamId payload limits).isOf id = false := by
  rw [Written.isOf, Bool.and_eq_false_iff]
  refine .inr (decide_eq_false ?_)
  rintro (hdata | hheaders)
  · exact h.1 hdata
  · exact h.2 hheaders

theorem Base.control (h : session.Base) (htype : IsControl type)
    (hid : session.Knows id) (flags : UInt8) (payload : Bytes) :
    (session.writeControl type flags id payload).Base := by
  refine Base.append h ?_ ?_ fun stream _ => ?_
  all_goals
    intro frame hframe
    obtain rfl := mem_singleton.1 hframe
  · exact hid
  · exact fun hdata => absurd hdata htype.1
  · exact htype.isOf ..

theorem Fits.control (h : session.Fits stream) (htype : IsControl type)
    (flags : UInt8) (streamId : ℕ) (payload : Bytes) :
    (session.writeControl type flags streamId payload).Fits stream := by
  refine Http2.Fits.append_others (fun frame hframe => ?_) h
  obtain rfl := mem_singleton.1 hframe
  exact htype.isOf ..

theorem Good.control (h : session.Good) (htype : IsControl type)
    (hid : session.Knows id) (flags : UInt8) (payload : Bytes) :
    (session.writeControl type flags id payload).Good :=
  ⟨h.base.control htype hid flags payload, fun stream hstream =>
    (h.fits stream hstream).control htype flags id payload⟩

theorem Holding.control (h : session.Holding stream) (htype : IsControl type)
    (hid : session.Knows id) (flags : UInt8) (payload : Bytes) :
    (session.writeControl type flags id payload).Holding stream :=
  ⟨h.base.control htype hid flags payload, h.place, h.fits.control htype flags id payload,
    fun other hother hne => (h.others other hother hne).control htype flags id payload⟩

theorem Holding.rstStream (h : session.Holding stream) (code : ErrorCode) :
    (session.rstStream stream code).1.Holding (session.rstStream stream code).2 := by
  rw [Session.rstStream]
  split
  · exact h
  · refine (h.control ⟨by decide, by decide⟩ (knows_of_place h.place) _ _).calm ?_
    exact ⟨rfl, rfl, rfl, rfl, rfl, rfl, fun _ => rfl, fun h => h⟩

end

end Session

end Soup.Http2
