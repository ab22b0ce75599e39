import Soup.Http2.Requests

/-!
# Frames of the server

Every frame leaves a session that is good or has failed (`Sound`), and no integer conversion is
without a result: a window never falls below what was accepted in excess of what was sent.
-/

namespace Soup.Http2

open List FrameHeader

/-- The smallest and the largest value of a window. -/
theorem Fits.window_range {written : List Written} {initial : ℕ} {stream : Stream}
    (h : Fits written initial stream) :
    -(2 ^ 31 - 1 : ℤ) ≤ stream.sendWindow ∧ stream.sendWindow ≤ 2 ^ 31 - 1 := by
  have hmax : maxWindowSize = 2 ^ 31 - 1 := rfl
  obtain ⟨-, hwindow, hle, hsent, -, -, -⟩ := h
  omega

namespace Session

variable {D : Type}

/-- A session that has not panicked, and is good as long as it has not failed. -/
structure Sound (session : Session D) : Prop where
  panicked : session.panicked = false
  good : session.fatalError = none → session.Good

/-- A sound session with a stream in hand. -/
structure InHand (session : Session D) (stream : Stream) : Prop where
  panicked : session.panicked = false
  holding : session.fatalError = none → session.Holding stream

/-- Sessions that have the same streams, frames and windows, and failed alike. -/
structure Same (session session' : Session D) : Prop extends SameSending session session' where
  panicked : session'.panicked = session.panicked
  fatalError : session'.fatalError = session.fatalError

section

variable {session session' : Session D} {stream stream' : Stream} {id : ℕ}

/-- A failed session is sound. -/
theorem sound_fail (h : session.panicked = false) (error : Error) : (session.fail error).Sound :=
  ⟨h, fun hnone => nomatch hnone⟩

/-- What does not touch the windows keeps the session sound. -/
theorem Sound.same (h : session.Sound) (hsame : Same session session') : session'.Sound :=
  ⟨hsame.panicked.trans h.panicked, fun hnone =>
    (h.good (hsame.fatalError.symm.trans hnone)).same hsame.toSameSending⟩

theorem InHand.same (h : session.InHand stream) (hsame : Same session session') :
    session'.InHand stream :=
  ⟨hsame.panicked.trans h.panicked, fun hnone =>
    (h.holding (hsame.fatalError.symm.trans hnone)).same hsame.toSameSending⟩

theorem Sound.inHand (h : session.Sound) (hfound : session.stream? id = some stream) :
    session.InHand stream :=
  ⟨h.panicked, fun hnone => (h.good hnone).holding (mem_of_stream? hfound).1⟩

section

variable (h : session.InHand stream)
include h

theorem InHand.put : (session.putStream stream).Sound :=
  ⟨h.panicked, fun hnone => (h.holding hnone).put⟩

theorem InHand.calm (hcalm : Calm stream stream') : session.InHand stream' :=
  ⟨h.panicked, fun hnone => (h.holding hnone).calm hcalm⟩

theorem InHand.rstStream (code : ErrorCode) :
    (session.rstStream stream code).1.InHand (session.rstStream stream code).2 := by
  have hfields : (session.rstStream stream code).1.panicked = session.panicked ∧
      (session.rstStream stream code).1.fatalError = session.fatalError := by
    rw [Session.rstStream]
    split <;> exact ⟨rfl, rfl⟩
  exact ⟨hfields.1.trans h.panicked,
    fun hnone => (h.holding (hfields.2.symm.trans hnone)).rstStream code⟩

end

/-- A frame of the connection may be written. -/
theorem Sound.control (h : session.Sound) {type : FrameType} (htype : IsControl type)
    (flags : UInt8) (payload : Bytes) : (session.writeControl type flags 0 payload).Sound :=
  ⟨h.panicked, fun hnone => (h.good hnone).control htype knows_zero flags payload⟩

/-- Nothing of the stream is sent or given. -/
theorem calm_fields (stream : Stream) (headerBlock bodyBuffer decodedBytes : Bytes)
    (decodedHeaders : List (Bytes × Bytes)) (statusCode : ℕ) (headersReady headersEndStream : Bool)
    (fatalError : Option Error) (unackedBytes dataBytesReceived : ℕ) :
    Calm stream { stream with
      headerBlock := headerBlock, bodyBuffer := bodyBuffer, decodedBytes := decodedBytes
      decodedHeaders := decodedHeaders, statusCode := statusCode, headersReady := headersReady
      headersEndStream := headersEndStream, fatalError := fatalError, unackedBytes := unackedBytes
      dataBytesReceived := dataBytesReceived } :=
  ⟨rfl, rfl, rfl, rfl, rfl, rfl, fun h => h, fun h => h⟩

/-! ## SETTINGS -/

/-- `SETTINGS_INITIAL_WINDOW_SIZE` moves all windows, or one would be too large. -/
theorem shiftWindows_spec (delta : ℤ) : ∀ streams : List Stream,
    (∀ stream ∈ streams, -2 ^ 31 ≤ stream.sendWindow + delta) →
    (shiftWindows delta streams).2 ≠ .panic ∧ ((shiftWindows delta streams).2 = .fine →
      (shiftWindows delta streams).1 =
          streams.map (fun stream => { stream with sendWindow := stream.sendWindow + delta }) ∧
        ∀ stream ∈ streams, stream.sendWindow + delta ≤ maxWindowSize)
  | [], _ => ⟨nofun, fun _ => ⟨rfl, by simp⟩⟩
  | stream :: streams, hlow => by
    obtain ⟨hno, hfine⟩ := shiftWindows_spec delta streams fun other hother =>
      hlow other (mem_cons_of_mem _ hother)
    rw [shiftWindows]
    split
    · exact ⟨nofun, nofun⟩
    rename_i hhigh
    split
    · exact absurd (hlow stream mem_cons_self) (Int.not_le.2 ‹_›)
    · refine ⟨hno, fun hshifted => ?_⟩
      obtain ⟨heq, hle⟩ := hfine hshifted
      exact ⟨congrArg _ heq, forall_mem_cons.2 ⟨Int.not_lt.1 hhigh, hle⟩⟩

/-- Every window is moved by what the initial window is. -/
theorem Good.shift (h : session.Good) {value : ℕ} (hvalue : value ≤ maxWindowSize)
    (hle : ∀ stream ∈ session.streams,
      stream.sendWindow + (value - session.remoteInitialWindowSize) ≤ maxWindowSize) :
    Good { session with
      remoteInitialWindowSize := value
      streams := session.streams.map fun stream =>
        { stream with
          sendWindow := stream.sendWindow + (value - session.remoteInitialWindowSize) } } := by
  have hids : (session.streams.map fun stream : Stream => { stream with
      sendWindow := stream.sendWindow + (value - session.remoteInitialWindowSize) }).map Stream.id =
      session.streams.map Stream.id := by
    rw [map_map]
    rfl
  refine ⟨?_, fun stream hstream => ?_⟩
  · rw [Base, hids]
    exact ⟨hvalue, h.base.conn_nonneg, h.base.conn_le, h.base.nodup, h.base.ids_lt, h.base.next_pos,
      h.base.frames_mem, h.base.limits, h.base.gone⟩
  · obtain ⟨old, hold, rfl⟩ := mem_map.1 hstream
    obtain ⟨hclient, hwindow, -, hsent, hbody, hended, honce⟩ := h.fits old hold
    refine ⟨hclient, ?_, hle old hold, hsent, hbody, hended, honce⟩
    show old.sendWindow + (value - session.remoteInitialWindowSize) =
      value + old.accepted - (sentOf session.written old.id).length
    omega

/-- One setting. -/
theorem Good.applySetting (h : session.Good) (hpanicked : session.panicked = false) (unit : ℕ × ℕ) :
    (session.applySetting unit).Sound := by
  have hsame : ∀ {session' : Session D}, Same session session' → session'.Sound := fun hsame =>
    Sound.same ⟨hpanicked, fun _ => h⟩ hsame
  obtain ⟨type, value⟩ := unit
  rw [Session.applySetting]
  dsimp only
  split
  · split
    · exact hsame ⟨⟨rfl, rfl, rfl, rfl, rfl, rfl⟩, rfl, rfl⟩
    · exact sound_fail hpanicked _
  split
  · exact hsame ⟨⟨rfl, rfl, rfl, rfl, rfl, rfl⟩, rfl, rfl⟩
  split
  · exact hsame ⟨⟨rfl, rfl, rfl, rfl, rfl, rfl⟩, rfl, rfl⟩
  split
  · split
    · exact sound_fail hpanicked _
    next hvalue =>
      obtain ⟨hno, hfine⟩ := shiftWindows_spec (value - session.remoteInitialWindowSize)
        session.streams fun stream hstream => by
          obtain ⟨-, hwindow, -, hsent, -, -, -⟩ := h.fits stream hstream
          have hmax : maxWindowSize = 2 ^ 31 - 1 := rfl
          omega
      split
      next hshifted =>
        obtain ⟨heq, hle⟩ := hfine hshifted
        rw [heq]
        exact ⟨hpanicked, fun _ => h.shift (not_lt.1 hvalue) hle⟩
      · exact ⟨hpanicked, nofun⟩
      · exact absurd ‹_› hno
  · exact hsame ⟨⟨rfl, rfl, rfl, rfl, rfl, rfl⟩, rfl, rfl⟩

theorem sound_of_stopped {session : Session D} (h : session.Sound)
    (hstopped : session.stopped = false) : session.Good ∧ session.panicked = false := by
  rw [stopped, Bool.or_eq_false_iff, Option.isSome_eq_false_iff,
    Option.isNone_iff_eq_none] at hstopped
  exact ⟨h.good hstopped.1, hstopped.2⟩

/-- The settings of a frame, one after the other. -/
theorem Good.applySettings : ∀ (units : List (ℕ × ℕ)) {session : Session D}, session.Good →
    session.panicked = false → (session.applySettings units).Sound
  | [], _, h, hpanicked => ⟨hpanicked, fun _ => h⟩
  | unit :: units, session, h, hpanicked => by
    have hstep := h.applySetting hpanicked unit
    rw [Session.applySettings]
    split
    · exact hstep
    next hgoes =>
      obtain ⟨hgood, hcalm⟩ := sound_of_stopped hstep (Bool.not_eq_true _ ▸ hgoes)
      exact Good.applySettings units hgood hcalm

theorem Good.dispatchSettings (h : session.Good) (hpanicked : session.panicked = false)
    (flags : UInt8) (streamId : ℕ) (payload : Bytes) :
    (session.dispatchSettings flags streamId payload).Sound := by
  have hunits := h.applySettings (settingUnits payload) hpanicked
  rw [Session.dispatchSettings]
  split
  · exact sound_fail hpanicked _
  split
  · split
    · exact sound_fail hpanicked _
    · exact ⟨hpanicked, fun _ => h⟩
  split
  · exact sound_fail hpanicked _
  dsimp only
  split
  · exact hunits
  split
  · exact sound_fail hunits.panicked _
  · exact (hunits.control isControl_settings ack []).same ⟨⟨rfl, rfl, rfl, rfl, rfl, rfl⟩, rfl, rfl⟩

/-! ## WINDOW_UPDATE -/

theorem Good.withConn (h : session.Good) {next : ℤ} (hnonneg : 0 ≤ next)
    (hle : next ≤ maxWindowSize) :
    Good { session with connSendWindow := next, streamProgressed := true } :=
  ⟨⟨h.base.initial_le, hnonneg, hle, h.base.nodup, h.base.ids_lt, h.base.next_pos,
    h.base.frames_mem, h.base.limits, h.base.gone⟩, h.fits⟩

/-- An increment that fits makes the window larger. -/
theorem Holding.accept (h : session.Holding stream) {inc : ℕ}
    (hle : stream.sendWindow + inc ≤ maxWindowSize) : session.Holding
      { stream with sendWindow := stream.sendWindow + inc, accepted := stream.accepted + inc } := by
  obtain ⟨hclient, hwindow, -, hsent, hbody, hended, honce⟩ := h.fits
  refine ⟨h.base, h.place, ⟨hclient, ?_, hle, ?_, hbody, hended, honce⟩, h.others⟩
  · show stream.sendWindow + inc = session.remoteInitialWindowSize + (stream.accepted + inc : ℕ) -
      (sentOf session.written stream.id).length
    omega
  · show (sentOf session.written stream.id).length ≤ stream.accepted + inc + maxWindowSize
    omega

section

variable (h : session.Sound)
include h

/-- An increment for the connection or for a stream. -/
theorem Sound.dispatchWindowUpdate (hgood : session.Good) (streamId : ℕ)
    (payload : Bytes) : (session.dispatchWindowUpdate streamId payload).Sound := by
  rw [Session.dispatchWindowUpdate]
  split
  · exact sound_fail h.panicked _
  dsimp only
  split
  · split
    · exact sound_fail h.panicked _
    have hnonneg := hgood.base.conn_nonneg
    split
    · exact sound_fail h.panicked _
    rename_i hhigh
    split
    · omega
    · exact ⟨h.panicked, fun _ => hgood.withConn (by omega) (Int.not_lt.1 hhigh)⟩
  · split
    next stream hfound =>
      have hheld := hgood.holding (mem_of_stream? hfound).1
      split
      · exact (((h.inHand hfound).rstStream .protocolError).calm (calm_fields ..)).put
      have hlow := hheld.fits.window_range.1
      split
      · exact (((h.inHand hfound).rstStream .flowControlError).calm (calm_fields ..)).put
      rename_i hhigh
      split
      · omega
      · exact ⟨h.panicked, fun _ =>
          (hheld.accept (Int.not_lt.1 hhigh)).put.same ⟨rfl, rfl, rfl, rfl, rfl, rfl⟩⟩
    · split
      · exact sound_fail h.panicked _
      · exact h

/-! ## Frames that open no block -/

theorem Sound.dispatchPing (flags : UInt8) (streamId : ℕ) (payload : Bytes) :
    (session.dispatchPing flags streamId payload).Sound := by
  rw [Session.dispatchPing]
  split
  · exact sound_fail h.panicked _
  split
  · exact sound_fail h.panicked _
  split
  · split
    · exact sound_fail h.panicked _
    · exact h.control ⟨by decide, by decide⟩ ack payload
  · exact h.same ⟨⟨rfl, rfl, rfl, rfl, rfl, rfl⟩, rfl, rfl⟩

theorem Sound.dispatchPriority (streamId : ℕ) (payload : Bytes) :
    (session.dispatchPriority streamId payload).Sound := by
  rw [Session.dispatchPriority]
  split
  · exact sound_fail h.panicked _
  split
  · exact sound_fail h.panicked _
  · exact h

theorem Sound.resetStreamFrameReceived : session.resetStreamFrameReceived.Sound :=
  h.same ⟨⟨rfl, rfl, rfl, rfl, rfl, rfl⟩, rfl, rfl⟩

/-- `DATA` is charged to both windows. -/
theorem Sound.dispatchData (flags : UInt8) (streamId : ℕ) (payload : Bytes) :
    (session.dispatchData flags streamId payload).Sound := by
  rw [Session.dispatchData]
  split
  · refine Sound.resetStreamFrameReceived ?_
    split
    · exact ⟨h.panicked, nofun⟩
    · exact h.same ⟨⟨rfl, rfl, rfl, rfl, rfl, rfl⟩, rfl, rfl⟩
  rename_i stream hfound
  have hheld : InHand { session with
      connUnackedBytes := min (session.connUnackedBytes + payload.length) u32Max
      streamProgressed := true, livenessPingSpent := false } stream :=
    (h.inHand hfound).same ⟨⟨rfl, rfl, rfl, rfl, rfl, rfl⟩, rfl, rfl⟩
  split
  · exact ((hheld.rstStream .protocolError).calm (calm_fields ..)).put
  split
  · exact (hheld.calm (calm_fields ..)).put
  split
  · exact ⟨hheld.panicked, nofun⟩
  · have hcounted : InHand { session with
        connUnackedBytes := min (session.connUnackedBytes + payload.length) u32Max
        streamProgressed := true, livenessPingSpent := false }
        { stream with unackedBytes := min (stream.unackedBytes + payload.length) u32Max } :=
      hheld.calm (calm_fields ..)
    refine (InHand.calm ?_ (calm_fields ..)).put
    split
    · exact hcounted.calm (calm_recvEndStream _)
    · exact hcounted

theorem Sound.dispatchRstStream (streamId : ℕ) (payload : Bytes) :
    (session.dispatchRstStream streamId payload).Sound := by
  rw [Session.dispatchRstStream]
  split
  · exact sound_fail h.panicked _
  split
  · exact sound_fail h.panicked _
  split
  · exact h
  rename_i stream hfound
  split
  · exact h
  · refine InHand.put ((h.inHand hfound).calm ?_)
    exact ⟨rfl, rfl, rfl, rfl, rfl, rfl, fun _ => rfl, fun h => h⟩

omit h in
theorem calm_goawayStream (lastId : ℕ) (graceful : Bool) (stream : Stream) :
    Calm stream (goawayStream lastId graceful stream) := by
  rw [goawayStream]
  split
  · exact calm_fields ..
  split
  · exact calm_fields ..
  · exact .refl stream

theorem Sound.dispatchGoaway (streamId : ℕ) (payload : Bytes) :
    (session.dispatchGoaway streamId payload).Sound := by
  rw [Session.dispatchGoaway]
  split
  · exact sound_fail h.panicked _
  split
  · exact sound_fail h.panicked _
  · exact ⟨h.panicked, fun hnone => ((h.good hnone).map (calm_goawayStream _ _)).same
      ⟨rfl, rfl, rfl, rfl, rfl, rfl⟩⟩

end

/-! ## Header blocks -/

/-- The final response of a request that waits with its body: the body is not sent. -/
theorem Holding.endEmpty (h : session.Holding stream) (hwaits : stream.awaitingContinue = true) :
    Holding (session.writeData { stream with awaitingContinue := false } endStream [])
      (Stream.sentEndStream { stream with awaitingContinue := false }) := by
  have hnot : NotEnded session.written stream.id :=
    h.fits.ended.resolve_right fun hended => Bool.false_ne_true (hended.2.symm.trans hwaits)
  have hframes : EmptyFrames stream.id true [⟨.data, endStream, stream.id, [],
      some ⟨stream.sendWindow, session.connSendWindow, session.remoteMaxFrameSize⟩⟩] :=
    ⟨forall_mem_singleton.2 rfl, forall_mem_singleton.2 fun _ => rfl,
      List.Pairwise.filter _ (pairwise_singleton ..), fun hfalse => nomatch hfalse⟩
  refine h.emptyFrames hnot hframes ?_ ?_ (fun _ => ?_) _
  · rfl
  · exact ⟨rfl, rfl, rfl, rfl, rfl⟩
  · exact ⟨localClosed_sentEndStream _, rfl⟩

theorem InHand.applyFields (h : session.InHand stream) (fields : Fields) :
    (session.applyFields stream fields).1.InHand (session.applyFields stream fields).2 := by
  rw [Session.applyFields]
  split
  · exact (h.rstStream .protocolError).calm (calm_fields ..)
  split
  · refine h.calm ?_
    split
    · exact calm_fields ..
    · exact .refl stream
  split
  · exact h.calm (calm_fields ..)
  split
  · have hgoes : Calm stream
        (if fields.status = 100 then { stream with awaitingContinue := false } else stream) := by
      split
      · exact ⟨rfl, rfl, rfl, rfl, rfl, rfl, fun h => h, fun hfalse => nomatch hfalse⟩
      · exact .refl stream
    have hmarked : ∀ stream : Stream, Calm stream (if stream.remoteClosed then
        { stream with fatalError := some .http2ProtocolError } else stream) := by
      intro stream
      split
      · exact calm_fields ..
      · exact .refl stream
    exact (h.calm hgoes).calm (hmarked _)
  · have hready : session.InHand { stream with
        statusCode := fields.status, headersReady := true, decodedBytes := fields.decodedBytes
        decodedHeaders := stream.decodedHeaders ++ fields.headers } := h.calm (calm_fields ..)
    dsimp only
    split
    next hwaits =>
      exact ⟨hready.panicked, fun hnone => (hready.holding hnone).endEmpty hwaits⟩
    · exact hready

section

variable (decoder : Decoder D)

/-- A header block of an open stream. -/
theorem InHand.decodeHeaderBlock (h : session.InHand stream) :
    (session.decodeHeaderBlock decoder stream).1.InHand
      (session.decodeHeaderBlock decoder stream).2 := by
  rw [Session.decodeHeaderBlock]
  generalize decodeFields decoder stream.statusCode session.hpack _ stream.headerBlock = decoded
  obtain ⟨hpack, result⟩ := decoded
  cases result with
  | error error => exact ⟨h.panicked, fun hnone => nomatch hnone⟩
  | ok fields =>
    refine InHand.applyFields (InHand.calm ?_ (calm_fields ..)) fields
    exact h.same ⟨⟨rfl, rfl, rfl, rfl, rfl, rfl⟩, rfl, rfl⟩

theorem Sound.decodeDiscardOrphan (h : session.Sound) :
    (session.decodeDiscardOrphan decoder).Sound := by
  rw [Session.decodeDiscardOrphan]
  generalize discardFields decoder session.hpack session.orphanHeaderBlock = discarded
  obtain ⟨hpack, done⟩ := discarded
  dsimp only
  split
  · exact h.same ⟨⟨rfl, rfl, rfl, rfl, rfl, rfl⟩, rfl, rfl⟩
  · exact ⟨h.panicked, nofun⟩

theorem Sound.dispatchOrphanHeaders (h : session.Sound) (flags : UInt8) (streamId : ℕ)
    (payload : Bytes) : (session.dispatchOrphanHeaders decoder flags streamId payload).Sound := by
  rw [Session.dispatchOrphanHeaders]
  split
  · exact sound_fail h.panicked _
  split
  · exact sound_fail h.panicked _
  split
  · refine Sound.decodeDiscardOrphan decoder (h.same ?_)
    exact ⟨⟨rfl, rfl, rfl, rfl, rfl, rfl⟩, rfl, rfl⟩
  · exact h.same ⟨⟨rfl, rfl, rfl, rfl, rfl, rfl⟩, rfl, rfl⟩

theorem calm_ended (stream : Stream) :
    Calm stream (if stream.headersEndStream then stream.recvEndStream else stream) := by
  split
  · exact calm_recvEndStream stream
  · exact .refl stream

/-- The stream may be open, or gone. -/
theorem Sound.dispatchHeaders (h : session.Sound) (flags : UInt8) (streamId : ℕ) (payload : Bytes) :
    (session.dispatchHeaders decoder flags streamId payload).Sound := by
  have hcounted : Sound { session with continuationCount := 0 } :=
    h.same ⟨⟨rfl, rfl, rfl, rfl, rfl, rfl⟩, rfl, rfl⟩
  rw [Session.dispatchHeaders]
  split
  · exact hcounted.dispatchOrphanHeaders decoder flags streamId payload
  rename_i stream hfound
  have hheld : InHand { session with
      continuationCount := 0, streamProgressed := true, livenessPingSpent := false } stream :=
    (hcounted.inHand hfound).same ⟨⟨rfl, rfl, rfl, rfl, rfl, rfl⟩, rfl, rfl⟩
  split
  · exact ⟨h.panicked, nofun⟩
  split
  · exact ((hheld.calm ((calm_fields ..).trans (calm_ended _))).decodeHeaderBlock decoder).put
  · exact (hheld.calm (calm_fields ..)).put.same ⟨⟨rfl, rfl, rfl, rfl, rfl, rfl⟩, rfl, rfl⟩

theorem Sound.dispatchContinuation (h : session.Sound) (flags : UInt8) (streamId : ℕ)
    (payload : Bytes) : (session.dispatchContinuation decoder flags streamId payload).Sound := by
  rw [Session.dispatchContinuation]
  split
  · exact sound_fail h.panicked _
  dsimp only
  split
  · exact ⟨h.panicked, nofun⟩
  split
  next stream hfound =>
    split
    · exact ⟨h.panicked, nofun⟩
    split
    · have hheld : InHand { session with
          continuationCount := session.continuationCount + 1, expectingContinuation := 0 } stream :=
        (h.inHand hfound).same ⟨⟨rfl, rfl, rfl, rfl, rfl, rfl⟩, rfl, rfl⟩
      have hended := (hheld.calm (calm_fields ..)).calm
        (calm_ended { stream with headerBlock := stream.headerBlock ++ payload })
      exact (hended.decodeHeaderBlock decoder).put
    · have hheld : InHand { session with
          continuationCount := session.continuationCount + 1 } stream :=
        (h.inHand hfound).same ⟨⟨rfl, rfl, rfl, rfl, rfl, rfl⟩, rfl, rfl⟩
      exact (hheld.calm (calm_fields ..)).put
  · split
    · exact ⟨h.panicked, nofun⟩
    split
    · refine Sound.decodeDiscardOrphan decoder (h.same ?_)
      exact ⟨⟨rfl, rfl, rfl, rfl, rfl, rfl⟩, rfl, rfl⟩
    · exact h.same ⟨⟨rfl, rfl, rfl, rfl, rfl, rfl⟩, rfl, rfl⟩

/-! ## Reads -/

section

variable (h : session.Good)
include h

section

variable (hpanicked : session.panicked = false)
include hpanicked

/-- Every frame keeps the session good. -/
theorem Good.dispatchFrame (type flags : UInt8) (streamId : ℕ) (payload : Bytes) :
    (session.dispatchFrame decoder type flags streamId payload).Sound := by
  have hsound : session.Sound := ⟨hpanicked, fun _ => h⟩
  rw [Session.dispatchFrame]
  split
  · exact sound_fail hpanicked _
  split
  · exact sound_fail hpanicked _
  split
  · exact h.dispatchSettings hpanicked flags streamId payload
  · exact hsound.dispatchWindowUpdate h streamId payload
  · exact hsound.dispatchPing flags streamId payload
  · exact hsound.dispatchPriority streamId payload
  · exact hsound.dispatchHeaders decoder flags streamId payload
  · exact hsound.dispatchContinuation decoder flags streamId payload
  · exact hsound.dispatchData flags streamId payload
  · exact hsound.dispatchRstStream streamId payload
  · exact hsound.dispatchGoaway streamId payload
  · exact sound_fail hpanicked _
  · exact hsound

/-- All frames that are complete. -/
theorem Good.parseFrames (buf : Bytes) : (session.parseFrames decoder buf).1.Sound := by
  induction hn : buf.length using Nat.strong_induction_on generalizing session buf with
  | _ n ih =>
    subst hn
    rw [Session.parseFrames]
    split
    · exact ⟨hpanicked, fun _ => h⟩
    rename_i hheader
    dsimp only
    split
    · exact sound_fail hpanicked _
    split
    · exact ⟨hpanicked, fun _ => h⟩
    have hframe := h.dispatchFrame decoder hpanicked
      (decode (buf.take byteSize)).type
      (decode (buf.take byteSize)).flags
      (decode (buf.take byteSize)).streamIdentifier
      ((buf.drop byteSize).take (decode (buf.take byteSize)).length)
    split
    · exact hframe
    next hgoes =>
      obtain ⟨hgood, hcalm⟩ := sound_of_stopped hframe (Bool.not_eq_true _ ▸ hgoes)
      refine ih _ ?_ hgood hcalm _ rfl
      have hbyte : byteSize = 9 := rfl
      rw [length_drop]
      omega

theorem Good.onIdleData (incoming : Bytes) : (session.onIdleData decoder incoming).Sound := by
  have hstart : Good { session with readBuffer := session.readBuffer ++ incoming } :=
    h.same ⟨rfl, rfl, rfl, rfl, rfl, rfl⟩
  have hparsed := hstart.parseFrames decoder hpanicked (session.readBuffer ++ incoming)
  exact hparsed.same ⟨⟨rfl, rfl, rfl, rfl, rfl, rfl⟩, rfl, rfl⟩

/-- What arrives may complete a frame that was begun. -/
theorem Good.receive (incoming : Bytes) : (session.receive decoder incoming).Sound := by
  have hstart : Good { session with streamProgressed := false } :=
    h.same ⟨rfl, rfl, rfl, rfl, rfl, rfl⟩
  rw [Session.receive]
  dsimp only
  split
  · have hparsed := hstart.parseFrames decoder hpanicked incoming
    split
    · exact hparsed.same ⟨⟨rfl, rfl, rfl, rfl, rfl, rfl⟩, rfl, rfl⟩
    · exact hparsed
  · exact hstart.onIdleData decoder hpanicked incoming

end

end

end

/-! ## The client -/

theorem Good.deliverStream (h : session.Good) (id : ℕ) (takesBody : Bool) :
    (session.deliverStream id takesBody).Good := by
  rw [Session.deliverStream]
  split
  · exact h
  next stream hfound =>
    exact ((h.holding (mem_of_stream? hfound).1).calm (calm_fields ..)).put

theorem Good.probeLiveness (h : session.Good) (flushed : Bool) :
    (session.probeLiveness flushed).Good := by
  rw [Session.probeLiveness]
  split
  · exact h
  split
  · exact h.same ⟨rfl, rfl, rfl, rfl, rfl, rfl⟩
  · have hping : Good (session.writeControl .ping 0 0 (replicate 8 0)) :=
      h.control ⟨by decide, by decide⟩ knows_zero 0 _
    exact hping.same ⟨rfl, rfl, rfl, rfl, rfl, rfl⟩

end

end Session

end Soup.Http2
