import Soup.Http2.HeaderBlocks

/-!
# What acknowledges nothing

Most of what a session does leaves alone what counts received data: no WINDOW_UPDATE frame is
written, the connection's counter stays, and a tracked stream is an earlier one with the same count
(`Still`).
-/

namespace Soup.Http2

open List

/-- The WINDOW_UPDATE frames. -/
def updates (written : List Written) : List Written :=
  written.filter fun frame => frame.type = .windowUpdate

theorem updates_append {written frames : List Written}
    (h : ∀ frame ∈ frames, frame.type ≠ .windowUpdate) :
    updates (written ++ frames) = updates written := by
  have hnil : frames.filter (fun frame => frame.type = .windowUpdate) = [] :=
    filter_eq_nil_iff.2 fun frame hframe => by simp [h frame hframe]
  rw [updates, filter_append, hnil, append_nil]
  rfl

namespace Session

variable {D : Type}

/-- Received data is counted as before. -/
structure Still (session session' : Session D) : Prop where
  updates : updates session'.written = updates session.written
  connUnackedBytes : session'.connUnackedBytes = session.connUnackedBytes
  prefaceSent : session'.prefaceSent = session.prefaceSent
  nextStreamId : session'.nextStreamId = session.nextStreamId
  streams : ∀ stream' ∈ session'.streams, ∃ stream ∈ session.streams,
    stream'.id = stream.id ∧ stream'.unackedBytes = stream.unackedBytes

/-- And the stream in hand is not put back yet. -/
structure Apart (session session' : Session D) (stream stream' : Stream) : Prop where
  updates : Http2.updates session'.written = Http2.updates session.written
  connUnackedBytes : session'.connUnackedBytes = session.connUnackedBytes
  prefaceSent : session'.prefaceSent = session.prefaceSent
  nextStreamId : session'.nextStreamId = session.nextStreamId
  streams : session'.streams = session.streams
  id : stream'.id = stream.id
  unackedBytes : stream'.unackedBytes = stream.unackedBytes

section

variable {session session' session'' : Session D} {stream stream' stream'' : Stream} {id : ℕ}

theorem Still.of_eq (hupdates : Http2.updates session'.written = Http2.updates session.written)
    (hunacked : session'.connUnackedBytes = session.connUnackedBytes)
    (hpreface : session'.prefaceSent = session.prefaceSent)
    (hnext : session'.nextStreamId = session.nextStreamId)
    (hstreams : session'.streams = session.streams) :
    Still session session' :=
  ⟨hupdates, hunacked, hpreface, hnext, fun stream h => ⟨stream, hstreams ▸ h, rfl, rfl⟩⟩

theorem Still.refl (session : Session D) : Still session session := .of_eq rfl rfl rfl rfl rfl

theorem Still.trans (h : Still session session') (h' : Still session' session'') :
    Still session session'' := by
  refine ⟨h'.updates.trans h.updates, h'.connUnackedBytes.trans h.connUnackedBytes,
    h'.prefaceSent.trans h.prefaceSent, h'.nextStreamId.trans h.nextStreamId,
    fun stream'' hstream'' => ?_⟩
  obtain ⟨stream', hstream', hid', hunacked'⟩ := h'.streams stream'' hstream''
  obtain ⟨stream, hstream, hid, hunacked⟩ := h.streams stream' hstream'
  exact ⟨stream, hstream, hid'.trans hid, hunacked'.trans hunacked⟩

theorem Apart.refl (session : Session D) (stream : Stream) : Apart session session stream stream :=
  ⟨rfl, rfl, rfl, rfl, rfl, rfl, rfl⟩

section

variable (h : Apart session session' stream stream')
include h

theorem Apart.trans (h' : Apart session' session'' stream' stream'') :
    Apart session session'' stream stream'' :=
  ⟨h'.updates.trans h.updates, h'.connUnackedBytes.trans h.connUnackedBytes,
    h'.prefaceSent.trans h.prefaceSent,
    h'.nextStreamId.trans h.nextStreamId, h'.streams.trans h.streams, h'.id.trans h.id,
    h'.unackedBytes.trans h.unackedBytes⟩

/-- The stream in hand is changed in other fields. -/
theorem Apart.edit (hid : stream''.id = stream'.id)
    (hunacked : stream''.unackedBytes = stream'.unackedBytes) :
    Apart session session' stream stream'' :=
  h.trans ⟨rfl, rfl, rfl, rfl, rfl, hid, hunacked⟩

/-- The stream comes back. -/
theorem Apart.put (hmem : stream ∈ session.streams) :
    Still session (session'.putStream stream') := by
  refine ⟨h.updates, h.connUnackedBytes, h.prefaceSent, h.nextStreamId, fun other hother => ?_⟩
  rw [putStream, h.streams] at hother
  obtain ⟨old, hold, rfl⟩ := mem_map.1 hother
  split
  · exact ⟨stream, hmem, h.id, h.unackedBytes⟩
  · exact ⟨old, hold, rfl, rfl⟩

end

theorem still_put (hfound : session.stream? id = some stream) (hid : stream'.id = stream.id)
    (hunacked : stream'.unackedBytes = stream.unackedBytes) :
    Still session (session.putStream stream') :=
  Apart.put ⟨rfl, rfl, rfl, rfl, rfl, hid, hunacked⟩ (mem_of_stream? hfound).1

/-- Every stream keeps its id and its count. -/
theorem still_map {f : Stream → Stream} (hid : ∀ stream, (f stream).id = stream.id)
    (hunacked : ∀ stream, (f stream).unackedBytes = stream.unackedBytes) :
    Still session { session with streams := session.streams.map f } := by
  refine ⟨rfl, rfl, rfl, rfl, fun stream' hstream' => ?_⟩
  obtain ⟨stream, hstream, rfl⟩ := mem_map.1 hstream'
  exact ⟨stream, hstream, hid stream, hunacked stream⟩

/-! ## Frames that are written -/

theorem updates_writeFrame (session : Session D) {type : FrameType} (htype : type ≠ .windowUpdate)
    (flags : UInt8) (streamId : ℕ) (payload : Bytes) (limits : Option Limits) :
    Http2.updates (session.writeFrame type flags streamId payload limits).written =
      Http2.updates session.written :=
  updates_append (forall_mem_singleton.2 htype)

theorem still_writeControl (session : Session D) {type : FrameType} (htype : type ≠ .windowUpdate)
    (flags : UInt8)
    (streamId : ℕ) (payload : Bytes) :
    Still session (session.writeControl type flags streamId payload) :=
  .of_eq (session.updates_writeFrame htype flags streamId payload none) rfl rfl rfl rfl

theorem apart_rstStream (session : Session D) (stream : Stream) (code : ErrorCode) :
    Apart session (session.rstStream stream code).1 stream (session.rstStream stream code).2 := by
  rw [rstStream]
  split
  · exact .refl session stream
  · exact ⟨session.updates_writeFrame (by decide) .., rfl, rfl, rfl, rfl, rfl, rfl⟩

theorem apart_drainSendBody (session : Session D) (stream : Stream) (cap : ℕ) :
    Apart session (session.drainSendBody stream cap).1
      stream (session.drainSendBody stream cap).2 := by
  rcases session.drainSendBody_cases stream cap with heq | hdrained
  · rw [heq]
    exact .refl session stream
  · obtain ⟨ends, frames, total, buffer, client, pending, hsession, hstream, -, -, hframed⟩ :=
      hdrained.result
    have hframes : ∀ frame ∈ frames, frame.type ≠ .windowUpdate := fun frame hframe => by
      rw [(hframed.ours frame hframe).1]
      decide
    rw [hsession]
    refine ⟨updates_append hframes, rfl, rfl, rfl, rfl, ?_, ?_⟩
    all_goals
      rcases hstream with ⟨heq, -⟩ | heq <;> exact heq ▸ rfl

theorem updates_writeHeaderFrames (session : Session D) (id : ℕ) (ends first : Bool)
    (remaining : Bytes) :
    Http2.updates (session.writeHeaderFrames id ends first remaining).written =
      Http2.updates session.written := by
  induction hn : remaining.length using Nat.strong_induction_on generalizing session first
    remaining with
  | _ n ih =>
    subst hn
    have htype : (if first = true then FrameType.headers else .continuation) ≠ .windowUpdate := by
      cases first <;> decide
    obtain ⟨flags, payload, -, heq | ⟨rest, hlt, heq⟩⟩ :=
      session.writeHeaderFrames_step id ends first remaining
    · rw [heq]
      exact session.updates_writeFrame htype flags id payload none
    · rw [heq, ih _ hlt _ false rest rfl]
      exact session.updates_writeFrame htype flags id payload none

theorem apart_writeHeaderBlock (session : Session D) (id : ℕ) (block : Bytes) (ends : Bool)
    (hid : stream'.id = stream.id) (hunacked : stream'.unackedBytes = stream.unackedBytes) :
    Apart session (session.writeHeaderBlock id block ends) stream stream' := by
  have hupdates := session.updates_writeHeaderFrames id ends true block
  obtain ⟨frames, buffer, heq, -⟩ := session.writeHeaderBlock_spec id block ends
  rw [← writeHeaderBlock, heq] at hupdates
  rw [heq]
  exact ⟨hupdates, rfl, rfl, rfl, rfl, hid, hunacked⟩

/-! ## Frames that open no block -/

/-- The decoder, the expected stream and the bytes that were not parsed are the same. -/
structure Alike (session session' : Session D) : Prop where
  hpack : session'.hpack = session.hpack
  expectingContinuation : session'.expectingContinuation = session.expectingContinuation
  nextStreamId : session'.nextStreamId = session.nextStreamId
  readBuffer : session'.readBuffer = session.readBuffer

theorem Alike.trans (h : Alike session session') (h' : Alike session' session'') :
    Alike session session'' :=
  ⟨h'.hpack.trans h.hpack, h'.expectingContinuation.trans h.expectingContinuation,
    h'.nextStreamId.trans h.nextStreamId, h'.readBuffer.trans h.readBuffer⟩

theorem alike_rstStream (session : Session D) (stream : Stream) (code : ErrorCode) :
    Alike session (session.rstStream stream code).1 := by
  rw [rstStream]
  split <;> exact ⟨rfl, rfl, rfl, rfl⟩

/-- Received data is counted as before, and the header blocks are where they were. -/
structure Quiet (session session' : Session D) : Prop
    extends Alike session session', Still session session'

theorem Still.quiet (h : Still session session') (halike : Alike session session') :
    Quiet session session' :=
  { halike, h with }

theorem Quiet.trans (h : Quiet session session') (h' : Quiet session' session'') :
    Quiet session session'' :=
  (h.toStill.trans h'.toStill).quiet (h.toAlike.trans h'.toAlike)

/-- Only the other fields change. -/
theorem Alike.quiet (h : Alike session session')
    (hupdates : Http2.updates session'.written = Http2.updates session.written)
    (hunacked : session'.connUnackedBytes = session.connUnackedBytes)
    (hpreface : session'.prefaceSent = session.prefaceSent)
    (hstreams : session'.streams = session.streams) :
    Quiet session session' :=
  (Still.of_eq hupdates hunacked hpreface h.nextStreamId hstreams).quiet h

theorem Quiet.refl (session : Session D) : Quiet session session :=
  Alike.quiet ⟨rfl, rfl, rfl, rfl⟩ rfl rfl rfl rfl

theorem quiet_fail (session : Session D) (error : Error) : Quiet session (session.fail error) :=
  Alike.quiet ⟨rfl, rfl, rfl, rfl⟩ rfl rfl rfl rfl

theorem still_fail (session : Session D) (error : Error) : Still session (session.fail error) :=
  (session.quiet_fail error).toStill

theorem shiftWindows_mem (delta : ℤ) : ∀ streams :
    List Stream, ∀ stream' ∈ (shiftWindows delta streams).1,
    ∃ stream ∈ streams, stream'.id = stream.id ∧ stream'.unackedBytes = stream.unackedBytes
  | [], stream', h => by cases h
  | stream :: streams, stream', h => by
    rw [shiftWindows] at h
    split at h
    · exact ⟨stream', h, rfl, rfl⟩
    split at h
    · exact ⟨stream', h, rfl, rfl⟩
    rcases mem_cons.1 h with rfl | h
    · exact ⟨stream, mem_cons_self, rfl, rfl⟩
    · obtain ⟨old, hold, hid, hunacked⟩ := shiftWindows_mem delta streams stream' h
      exact ⟨old, mem_cons_of_mem _ hold, hid, hunacked⟩

theorem quiet_applySetting (session : Session D) (unit : ℕ × ℕ) :
    Quiet session (session.applySetting unit) := by
  obtain ⟨type, value⟩ := unit
  rw [applySetting]
  dsimp only
  split
  · split
    · exact Alike.quiet ⟨rfl, rfl, rfl, rfl⟩ rfl rfl rfl rfl
    · exact session.quiet_fail _
  split
  · exact Alike.quiet ⟨rfl, rfl, rfl, rfl⟩ rfl rfl rfl rfl
  split
  · exact Alike.quiet ⟨rfl, rfl, rfl, rfl⟩ rfl rfl rfl rfl
  split
  · split
    · exact session.quiet_fail _
    · split <;> exact ⟨⟨rfl, rfl, rfl, rfl⟩, rfl, rfl, rfl, shiftWindows_mem _ session.streams⟩
  · exact .refl session

theorem quiet_applySettings : ∀ (units : List (ℕ × ℕ)) (session : Session D),
    Quiet session (session.applySettings units)
  | [], session => .refl session
  | unit :: units, session => by
    rw [applySettings]
    split
    · exact session.quiet_applySetting unit
    · exact (session.quiet_applySetting unit).trans (quiet_applySettings units _)

theorem quiet_dispatchSettings (session : Session D) (flags : UInt8) (streamId : ℕ)
    (payload : Bytes) : Quiet session (session.dispatchSettings flags streamId payload) := by
  rw [dispatchSettings]
  split
  · exact session.quiet_fail _
  split
  · split
    · exact session.quiet_fail _
    · exact .refl session
  split
  · exact session.quiet_fail _
  have happlied := quiet_applySettings (settingUnits payload) session
  dsimp only
  split
  · exact happlied
  split
  · exact happlied.trans (quiet_fail _ _)
  · refine happlied.trans (Alike.quiet ⟨rfl, rfl, rfl, rfl⟩ ?_ rfl rfl rfl)
    exact updates_writeFrame _ (by decide) ..

/-- A stream that is reset is back in its place. -/
theorem quiet_refuse (hmem : stream ∈ session.streams) (code : ErrorCode) (error : Error) :
    Quiet session ((session.rstStream stream code).1.putStream
      { (session.rstStream stream code).2 with fatalError := some error }) := by
  refine (Apart.put ?_ hmem).quiet
    ((session.alike_rstStream stream code).trans ⟨rfl, rfl, rfl, rfl⟩)
  exact (session.apart_rstStream stream code).edit rfl rfl

theorem quiet_dispatchWindowUpdate (session : Session D) (streamId : ℕ) (payload : Bytes) :
    Quiet session (session.dispatchWindowUpdate streamId payload) := by
  rw [dispatchWindowUpdate]
  split
  · exact session.quiet_fail _
  dsimp only
  split
  · split
    · exact session.quiet_fail _
    split
    · exact session.quiet_fail _
    split <;> exact Alike.quiet ⟨rfl, rfl, rfl, rfl⟩ rfl rfl rfl rfl
  split
  next stream hfound =>
    have hmem := (mem_of_stream? hfound).1
    split
    · exact quiet_refuse hmem ..
    split
    · exact quiet_refuse hmem ..
    split
    · exact Alike.quiet ⟨rfl, rfl, rfl, rfl⟩ rfl rfl rfl rfl
    · refine Quiet.trans ((still_put hfound ?_ ?_).quiet ⟨rfl, rfl, rfl, rfl⟩)
        (Alike.quiet ⟨rfl, rfl, rfl, rfl⟩ rfl rfl rfl rfl)
      · rfl
      · rfl
  · split
    · exact session.quiet_fail _
    · exact .refl session

theorem quiet_dispatchPing (session : Session D) (flags : UInt8) (streamId : ℕ) (payload : Bytes) :
    Quiet session (session.dispatchPing flags streamId payload) := by
  rw [dispatchPing]
  split
  · exact session.quiet_fail _
  split
  · exact session.quiet_fail _
  split
  · split
    · exact session.quiet_fail _
    · exact Alike.quiet ⟨rfl, rfl, rfl, rfl⟩ (session.updates_writeFrame (by decide) ..) rfl rfl rfl
  · exact Alike.quiet ⟨rfl, rfl, rfl, rfl⟩ rfl rfl rfl rfl

theorem quiet_dispatchPriority (session : Session D) (streamId : ℕ) (payload : Bytes) :
    Quiet session (session.dispatchPriority streamId payload) := by
  rw [dispatchPriority]
  split
  · exact session.quiet_fail _
  split
  · exact session.quiet_fail _
  · exact .refl session

theorem quiet_dispatchRstStream (session : Session D) (streamId : ℕ) (payload : Bytes) :
    Quiet session (session.dispatchRstStream streamId payload) := by
  rw [dispatchRstStream]
  split
  · exact session.quiet_fail _
  split
  · exact session.quiet_fail _
  split
  · exact .refl session
  rename_i stream hfound
  split
  · exact .refl session
  · refine Still.quiet ?_ ⟨rfl, rfl, rfl, rfl⟩
    exact still_put hfound rfl rfl

theorem quiet_dispatchGoaway (session : Session D) (streamId : ℕ) (payload : Bytes) :
    Quiet session (session.dispatchGoaway streamId payload) := by
  rw [dispatchGoaway]
  split
  · exact session.quiet_fail _
  split
  · exact session.quiet_fail _
  · refine ⟨⟨rfl, rfl, rfl, rfl⟩, rfl, rfl, rfl, (@still_map _ session _ ?_ ?_).streams⟩
    all_goals
      intro stream
      rw [goawayStream]
      split
      · rfl
      split <;> rfl

/-! ## Header blocks -/

theorem apart_applyFields (session : Session D) (stream : Stream) (fields : Fields) :
    Apart session (session.applyFields stream fields).1
      stream (session.applyFields stream fields).2 := by
  rw [applyFields]
  split
  · exact (session.apart_rstStream stream .protocolError).edit rfl rfl
  split
  · split <;> exact ⟨rfl, rfl, rfl, rfl, rfl, rfl, rfl⟩
  split
  · exact ⟨rfl, rfl, rfl, rfl, rfl, rfl, rfl⟩
  split
  · dsimp only
    split <;> split <;> exact ⟨rfl, rfl, rfl, rfl, rfl, rfl, rfl⟩
  · dsimp only
    split
    · exact ⟨session.updates_writeFrame (by decide) .., rfl, rfl, rfl, rfl, rfl, rfl⟩
    · exact ⟨rfl, rfl, rfl, rfl, rfl, rfl, rfl⟩

variable (decoder : Decoder D)

theorem apart_decodeHeaderBlock (session : Session D) (stream : Stream) :
    Apart session (session.decodeHeaderBlock decoder stream).1 stream
      (session.decodeHeaderBlock decoder stream).2 := by
  rw [decodeHeaderBlock]
  dsimp only
  split
  · exact ⟨rfl, rfl, rfl, rfl, rfl, rfl, rfl⟩
  · refine Apart.trans ?_ (apart_applyFields _ _ _)
    exact ⟨rfl, rfl, rfl, rfl, rfl, rfl, rfl⟩

theorem still_decodeDiscardOrphan (session : Session D) :
    Still session (session.decodeDiscardOrphan decoder) := by
  rw [decodeDiscardOrphan]
  dsimp only
  split <;> exact .of_eq rfl rfl rfl rfl rfl

theorem still_dispatchOrphanHeaders (session : Session D) (flags : UInt8) (streamId : ℕ)
    (payload : Bytes) :
    Still session (session.dispatchOrphanHeaders decoder flags streamId payload) := by
  rw [dispatchOrphanHeaders]
  split
  · exact session.still_fail _
  split
  · exact session.still_fail _
  · dsimp only
    split
    · refine Still.trans ?_ (still_decodeDiscardOrphan decoder _)
      exact .of_eq rfl rfl rfl rfl rfl
    · exact .of_eq rfl rfl rfl rfl rfl

/-- A stream with a whole header block. -/
theorem still_decoded {session' : Session D} (hstill : Still session session')
    (hfound : session'.stream? id = some stream) (ends : Bool) (hid : stream'.id = stream.id)
    (hunacked : stream'.unackedBytes = stream.unackedBytes) :
    Still session (((session'.decodeHeaderBlock decoder (if ends then stream'.recvEndStream
      else stream')).1).putStream
      (session'.decodeHeaderBlock decoder (if ends then stream'.recvEndStream else stream')).2) :=
        by
  refine hstill.trans (Apart.put ?_ (mem_of_stream? hfound).1)
  refine Apart.trans ?_ (apart_decodeHeaderBlock decoder session' _)
  refine ⟨rfl, rfl, rfl, rfl, rfl, ?_, ?_⟩
  · split <;> exact hid
  · split <;> exact hunacked

theorem still_dispatchHeaders (session : Session D) (flags : UInt8) (streamId : ℕ)
    (payload : Bytes) : Still session (session.dispatchHeaders decoder flags streamId payload) := by
  have hstart : ∀ count progressed spent, Still session { session with
      continuationCount := count, streamProgressed := progressed, livenessPingSpent := spent } :=
    fun _ _ _ => .of_eq rfl rfl rfl rfl rfl
  rw [dispatchHeaders]
  split
  · exact (hstart 0 _ _).trans (still_dispatchOrphanHeaders decoder _ _ _ _)
  rename_i stream hfound
  split
  · exact (hstart 0 true false).trans (still_fail _ _)
  · split
    · refine still_decoded decoder (hstart 0 true false) hfound _ ?_ ?_
      · rfl
      · rfl
    next fragment _ _ =>
      have hput : Still session (session.putStream { stream with
          headerBlock := fragment, headersEndStream := isSet flags endStream }) :=
          still_put hfound rfl rfl
      refine hput.trans ?_
      exact .of_eq rfl rfl rfl rfl rfl

theorem still_dispatchContinuation (session : Session D) (flags : UInt8) (streamId : ℕ)
    (payload : Bytes) :
    Still session (session.dispatchContinuation decoder flags streamId payload) := by
  have hstart : ∀ count expecting, Still session { session with
      continuationCount := count, expectingContinuation := expecting } :=
    fun _ _ => .of_eq rfl rfl rfl rfl rfl
  rw [dispatchContinuation]
  split
  · exact session.still_fail _
  dsimp only
  split
  · exact (hstart _ _).trans (still_fail _ _)
  split
  next stream hfound =>
    split
    · exact (hstart _ _).trans (still_fail _ _)
    split
    · refine still_decoded decoder (hstart (session.continuationCount + 1) 0) hfound _ ?_ ?_
      · rfl
      · rfl
    · refine (hstart _ _).trans (still_put hfound ?_ ?_)
      · rfl
      · rfl
  · split
    · exact (hstart _ _).trans (still_fail _ _)
    split
    · refine Still.trans ?_ (still_decodeDiscardOrphan decoder _)
      exact .of_eq rfl rfl rfl rfl rfl
    · exact .of_eq rfl rfl rfl rfl rfl

/-- Every frame but DATA. -/
theorem still_dispatchFrame (session : Session D) {type : UInt8}
    (htype : FrameType.ofByte type ≠ some .data) (flags : UInt8) (streamId : ℕ) (payload : Bytes) :
    Still session (session.dispatchFrame decoder type flags streamId payload) := by
  rw [dispatchFrame]
  split
  · exact session.still_fail _
  split
  · exact session.still_fail _
  split
  · exact (session.quiet_dispatchSettings ..).toStill
  · exact (session.quiet_dispatchWindowUpdate ..).toStill
  · exact (session.quiet_dispatchPing ..).toStill
  · exact (session.quiet_dispatchPriority ..).toStill
  · exact session.still_dispatchHeaders ..
  · exact session.still_dispatchContinuation ..
  next hdata =>
    exact absurd hdata htype
  · exact (session.quiet_dispatchRstStream ..).toStill
  · exact (session.quiet_dispatchGoaway ..).toStill
  · exact session.still_fail _
  · exact .refl session

end

end Session

end Soup.Http2
