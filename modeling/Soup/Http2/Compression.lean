import Soup.Http2.Still

/-!
# The decoder keeps up

What a session gathered is what its frames leave open, and the decoder went through the blocks that
they complete (`Synced`). Frames that open no block leave this alone (`Quiet`); a header block that
the decoder does not go through makes the session fail.
-/

namespace Soup.Http2

open List Option Session FrameHeader

namespace Session

variable {D : Type}

section

variable {session session' session'' : Session D} {stream : Stream}

theorem alike_dispatchData (session : Session D) (flags : UInt8) (streamId : ℕ) (payload : Bytes) :
    Alike session (session.dispatchData flags streamId payload) := by
  rw [dispatchData]
  split
  · split <;> exact ⟨rfl, rfl, rfl, rfl⟩
  rename_i stream _
  split
  · refine Alike.trans ?_ ((alike_rstStream _ stream .protocolError).trans ⟨rfl, rfl, rfl, rfl⟩)
    exact ⟨rfl, rfl, rfl, rfl⟩
  split
  · exact ⟨rfl, rfl, rfl, rfl⟩
  split <;> exact ⟨rfl, rfl, rfl, rfl⟩

/-! ## Blocks -/

theorem alike_applyFields (session : Session D) (stream : Stream) (fields : Fields) :
    Alike session (session.applyFields stream fields).1 := by
  rw [applyFields]
  split
  · exact session.alike_rstStream stream .protocolError
  split
  · exact ⟨rfl, rfl, rfl, rfl⟩
  split
  · exact ⟨rfl, rfl, rfl, rfl⟩
  split
  · exact ⟨rfl, rfl, rfl, rfl⟩
  · dsimp only
    split <;> exact ⟨rfl, rfl, rfl, rfl⟩

variable (decoder : Decoder D)

/-- The decoder went through the block, or the session has failed. -/
structure Decoded (session session' : Session D) (block : Bytes) : Prop where
  decodes : session'.fatalError = none → Decodes decoder session.hpack block session'.hpack
  expectingContinuation : session'.expectingContinuation = session.expectingContinuation
  nextStreamId : session'.nextStreamId = session.nextStreamId
  readBuffer : session'.readBuffer = session.readBuffer

variable {block : Bytes}

theorem decoded_decodeHeaderBlock (session : Session D) (stream : Stream)
    (hblock : stream.headerBlock = block) :
    Decoded decoder session (session.decodeHeaderBlock decoder stream).1 block := by
  subst hblock
  rw [decodeHeaderBlock]
  cases hdecoded : decodeFields decoder stream.statusCode session.hpack
    { untrimmedLen := stream.decodedBytes.length, decodedBytes := stream.decodedBytes }
    stream.headerBlock with
  | mk hpack result =>
    cases result with
    | error error => exact ⟨(fun h => by cases h), rfl, rfl, rfl⟩
    | ok fields =>
      have halike := alike_applyFields { session with hpack := hpack }
        { stream with headerBlock := [] } fields
      refine ⟨fun _ => ?_, halike.expectingContinuation, halike.nextStreamId, halike.readBuffer⟩
      rw [halike.hpack]
      exact decodes_of_decodeFields decoder stream.statusCode hdecoded

theorem decoded_decodeDiscardOrphan (session : Session D) :
    Decoded decoder session (session.decodeDiscardOrphan decoder) session.orphanHeaderBlock := by
  rw [decodeDiscardOrphan]
  cases hdiscarded : discardFields decoder session.hpack session.orphanHeaderBlock with
  | mk hpack done =>
    cases done with
    | false => exact ⟨(fun h => by cases h), rfl, rfl, rfl⟩
    | true => exact ⟨fun _ => decodes_of_discardFields decoder hdiscarded, rfl, rfl, rfl⟩

/-! ## Frames -/

/-- What is gathered is what the frames leave open, and the decoder went through their blocks. -/
structure Synced (first : D) (frames : List WireFrame) (session : Session D) : Prop where
  expects : session.expectingContinuation < session.nextStreamId
  blocks : ∃ blocks, Blocks frames session.gathered blocks ∧
    Feeds decoder first blocks session.hpack

variable {decoder} {first : D} {frames : List WireFrame} {frame : WireFrame}

theorem gathered_of_zero (h : session.expectingContinuation = 0) : session.gathered = none :=
  if_pos h

theorem Synced.blocks_none (h : Synced decoder first frames session)
    (hzero : session.expectingContinuation = 0) :
    ∃ blocks, Blocks frames none blocks ∧ Feeds decoder first blocks session.hpack :=
  gathered_of_zero hzero ▸ h.blocks

theorem Synced.other (h : Synced decoder first frames session)
    (hzero : session.expectingContinuation = 0) (halike : Alike session session')
    (htype : frame.type ≠ some .headers) (htype' : frame.type ≠ some .continuation) :
    Synced decoder first (frames ++ [frame]) session' := by
  obtain ⟨blocks, hblocks, hfeeds⟩ := h.blocks_none hzero
  have hzero' : session'.expectingContinuation = 0 := halike.expectingContinuation.trans hzero
  refine ⟨halike.nextStreamId ▸ halike.expectingContinuation ▸ h.expects, blocks, ?_,
    halike.hpack ▸ hfeeds⟩
  rw [gathered_of_zero hzero']
  exact hblocks.other htype htype'

theorem Decoded.put (h : Decoded decoder session session' block) :
    Decoded decoder session (session'.putStream stream) block :=
  ⟨h.decodes, h.expectingContinuation, h.nextStreamId, h.readBuffer⟩

variable {blocks : List Bytes}

/-- A frame ends a block, and the decoder went through it. -/
theorem Decoded.synced (hdecoded : Decoded decoder session session' block)
    (hpos : 0 < session.nextStreamId) (hzero : session.expectingContinuation = 0)
    (hfeeds : Feeds decoder first blocks session.hpack)
    (hblocks : Blocks (frames ++ [frame]) none (blocks ++ [block]))
    (hgoes : session'.fatalError = none) : Synced decoder first (frames ++ [frame]) session' := by
  have hzero' : session'.expectingContinuation = 0 := hdecoded.expectingContinuation.trans hzero
  refine ⟨?_, _, ?_, hfeeds.block (hdecoded.decodes hgoes)⟩
  · rw [hzero', hdecoded.nextStreamId]
    exact hpos
  · rw [gathered_of_zero hzero']
    exact hblocks

/-- What is gathered of the open block. -/
theorem gathered_some (hexpects : session.expectingContinuation ≠ 0) :
    session.gathered = some (session.expectingContinuation,
      ((session.stream? session.expectingContinuation).map Stream.headerBlock).getD
        session.orphanHeaderBlock) := if_neg hexpects

/-- The stream that the open block is for is back in its place. -/
theorem blocks_put (session : Session D) (stream : Stream) {old : Stream}
    (hfound : session.stream? stream.id = some old) (hpos : stream.id ≠ 0)
    (hstreams : session'.streams = (session.putStream stream).streams)
    (hexpects : session'.expectingContinuation = stream.id)
    (hblocks : Blocks frames (some (stream.id, stream.headerBlock)) blocks) :
    Blocks frames session'.gathered blocks := by
  have hlook : session'.stream? stream.id = (session.putStream stream).stream? stream.id := by
    rw [stream?, stream?, hstreams]
  rw [gathered_some (hexpects ▸ hpos), hexpects, hlook, stream?_putStream, if_pos rfl, hfound]
  exact hblocks

/-- The open block is for a stream that is not tracked. -/
theorem blocks_orphan {id : ℕ} (hfound : session.stream? id = none) (hpos : id ≠ 0)
    (hexpects : session.expectingContinuation = id)
    (hblocks : Blocks frames (some (id, session.orphanHeaderBlock)) blocks) :
    Blocks frames session.gathered blocks := by
  rw [gathered_some (hexpects ▸ hpos), hexpects, hfound]
  exact hblocks

/-- HEADERS of a stream that is not tracked. -/
theorem Synced.dispatchOrphanHeaders (hpos : 0 < session.nextStreamId)
    (hzero : session.expectingContinuation = 0) (hblocks : Blocks frames none blocks)
    (hfeeds : Feeds decoder first blocks session.hpack) (htype : frame.type = some .headers)
    (hfound : session.stream? frame.streamId = none) :
    (session.dispatchOrphanHeaders decoder frame.flags frame.streamId frame.payload).fatalError =
        none →
      Synced decoder first (frames ++ [frame])
        (session.dispatchOrphanHeaders decoder frame.flags frame.streamId frame.payload) := by
  rw [Session.dispatchOrphanHeaders]
  split
  · exact fun hnone => by cases hnone
  rename_i hknown
  split
  · exact fun hnone => by cases hnone
  rename_i fragment hfragment
  have hstripped := hasFragment_headersFragment hfragment
  split
  next hend =>
    exact (decoded_decodeDiscardOrphan decoder _).synced hpos hzero hfeeds
      (hblocks.headersEnd htype hstripped hend)
  next hmore =>
    have hblocks' := hblocks.headers htype hstripped (Bool.not_eq_true _ ▸ hmore)
    rw [not_or, isIdle, Bool.or_eq_true, not_or, decide_eq_true_eq, decide_eq_true_eq,
      not_le] at hknown
    refine fun _ => ⟨hknown.2.2, blocks, blocks_orphan ?_ hknown.1 rfl hblocks', hfeeds⟩
    exact hfound

section

variable (h : Synced decoder first frames session)
include h

theorem Synced.dispatchHeaders (hgood : session.Good)
    (hzero : session.expectingContinuation = 0) (htype : frame.type = some .headers) :
    (session.dispatchHeaders decoder frame.flags frame.streamId frame.payload).fatalError = none →
      Synced decoder first (frames ++ [frame])
        (session.dispatchHeaders decoder frame.flags frame.streamId frame.payload) := by
  obtain ⟨blocks, hblocks, hfeeds⟩ := h.blocks_none hzero
  have hpos := hgood.base.next_pos
  rw [Session.dispatchHeaders]
  split
  next hfound =>
    exact Synced.dispatchOrphanHeaders hpos hzero hblocks hfeeds htype hfound
  rename_i stream hfound
  split
  · exact fun hnone => by cases hnone
  rename_i fragment hfragment
  have hstripped := hasFragment_headersFragment hfragment
  split
  next hend =>
    refine (decoded_decodeHeaderBlock decoder _ _ ?_).put.synced hpos hzero hfeeds
      (hblocks.headersEnd htype hstripped hend)
    split <;> rfl
  next hmore =>
    have hblocks' := hblocks.headers htype hstripped (Bool.not_eq_true _ ▸ hmore)
    obtain ⟨hmem, hid⟩ := mem_of_stream? hfound
    have hids := (hgood.holding hmem).ids
    refine fun _ => ⟨hids.2, blocks, ?_, hfeeds⟩
    have hfound' : session.stream? stream.id = some stream := hid.symm ▸ hfound
    exact blocks_put session { stream with
      headerBlock := fragment, headersEndStream := isSet frame.flags endStream } hfound'
      (ne_of_gt hids.1) rfl rfl (hid ▸ hblocks')

theorem Synced.dispatchContinuation
    (hpos : 0 < session.nextStreamId) (htype : frame.type = some .continuation) :
    (session.dispatchContinuation decoder frame.flags frame.streamId frame.payload).fatalError =
        none →
      Synced decoder first (frames ++ [frame])
        (session.dispatchContinuation decoder frame.flags frame.streamId frame.payload) := by
  obtain ⟨blocks, hblocks, hfeeds⟩ := h.blocks
  rw [Session.dispatchContinuation]
  split
  · exact fun hnone => by cases hnone
  rename_i hexpects
  rw [not_or, not_not] at hexpects
  rw [gathered_some hexpects.1, ← hexpects.2] at hblocks
  dsimp only
  split
  · exact fun hnone => by cases hnone
  split
  next stream hfound =>
    have hfound : session.stream? frame.streamId = some stream := hexpects.2.symm ▸ hfound
    rw [hfound] at hblocks
    split
    · exact fun hnone => by cases hnone
    split
    next hend =>
      refine (decoded_decodeHeaderBlock decoder _ _ ?_).put.synced hpos rfl hfeeds
        (hblocks.continuationEnd htype hend)
      split <;> rfl
    next hmore =>
      have hblocks' := hblocks.continuation htype (Bool.not_eq_true _ ▸ hmore)
      have hid := (mem_of_stream? hfound).2
      refine fun _ => ⟨h.expects, blocks, ?_, hfeeds⟩
      exact blocks_put session { stream with headerBlock := stream.headerBlock ++ frame.payload }
        (hid.symm ▸ hfound) (hid ▸ hexpects.2 ▸ hexpects.1) rfl (hexpects.2.symm.trans hid.symm)
        (hid ▸ hblocks')
  next hfound =>
    have hfound : session.stream? frame.streamId = none := hexpects.2.symm ▸ hfound
    rw [hfound] at hblocks
    split
    · exact fun hnone => by cases hnone
    split
    next hend =>
      exact (decoded_decodeDiscardOrphan decoder _).synced hpos rfl hfeeds
        (hblocks.continuationEnd htype hend)
    next hmore =>
      have hblocks' := hblocks.continuation htype (Bool.not_eq_true _ ▸ hmore)
      refine fun _ => ⟨h.expects, blocks, ?_, hfeeds⟩
      exact blocks_orphan hfound (hexpects.2 ▸ hexpects.1) hexpects.2.symm hblocks'

theorem Synced.dispatchFrame (hgood : session.Good) (frame : WireFrame) :
    (session.dispatchFrame decoder (decode frame.header).type frame.flags frame.streamId
        frame.payload).fatalError = none →
      Synced decoder first (frames ++ [frame])
        (session.dispatchFrame decoder (decode frame.header).type frame.flags
          frame.streamId frame.payload) := by
  have hpos := hgood.base.next_pos
  rw [Session.dispatchFrame]
  split
  · exact fun hnone => by cases hnone
  rename_i hexpects
  have hzero : frame.type ≠ some .continuation → session.expectingContinuation = 0 := fun htype =>
    not_not.1 fun hne => hexpects ⟨hne, htype⟩
  have hother : ∀ {session' : Session D}, Alike session session' → frame.type ≠ some .headers →
      frame.type ≠ some .continuation → session'.fatalError = none →
      Synced decoder first (frames ++ [frame]) session' := fun halike htype htype' _ =>
    h.other (hzero htype') halike htype htype'
  split
  · exact fun hnone => by cases hnone
  split
  all_goals
    rename_i htype
    have htype : frame.type = _ := htype
  · exact hother (session.quiet_dispatchSettings ..).toAlike (htype ▸ fun h => by cases h)
      (htype ▸ fun h => by cases h)
  · exact hother (session.quiet_dispatchWindowUpdate ..).toAlike (htype ▸ fun h => by cases h)
      (htype ▸ fun h => by cases h)
  · exact hother (session.quiet_dispatchPing ..).toAlike (htype ▸ fun h => by cases h)
      (htype ▸ fun h => by cases h)
  · exact hother (session.quiet_dispatchPriority ..).toAlike (htype ▸ fun h => by cases h)
      (htype ▸ fun h => by cases h)
  · exact h.dispatchHeaders hgood (hzero (htype ▸ fun h => by cases h)) htype
  · exact h.dispatchContinuation hpos htype
  · exact hother (session.alike_dispatchData ..) (htype ▸ fun h => by cases h)
      (htype ▸ fun h => by cases h)
  · exact hother (session.quiet_dispatchRstStream ..).toAlike (htype ▸ fun h => by cases h)
      (htype ▸ fun h => by cases h)
  · exact hother (session.quiet_dispatchGoaway ..).toAlike (htype ▸ fun h => by cases h)
      (htype ▸ fun h => by cases h)
  · exact fun hnone => by cases hnone
  · exact hother ⟨rfl, rfl, rfl, rfl⟩ (htype ▸ fun h => by cases h) (htype ▸ fun h => by cases h)

end

/-! ## Reads -/

theorem readBuffer_dispatchHeaders (flags : UInt8) (streamId : ℕ) (payload : Bytes) :
    (session.dispatchHeaders decoder flags streamId payload).readBuffer = session.readBuffer := by
  rw [dispatchHeaders]
  split
  · rw [dispatchOrphanHeaders]
    split
    · rfl
    split
    · rfl
    split
    · exact (decoded_decodeDiscardOrphan decoder _).readBuffer
    · rfl
  split
  · rfl
  split
  · exact (decoded_decodeHeaderBlock decoder _ _ rfl).readBuffer
  · rfl

theorem readBuffer_dispatchContinuation (flags : UInt8) (streamId : ℕ) (payload : Bytes) :
    (session.dispatchContinuation decoder flags streamId payload).readBuffer =
      session.readBuffer := by
  rw [dispatchContinuation]
  split
  · rfl
  dsimp only
  split
  · rfl
  split
  · split
    · rfl
    split
    · exact (decoded_decodeHeaderBlock decoder _ _ rfl).readBuffer
    · rfl
  · split
    · rfl
    split
    · exact (decoded_decodeDiscardOrphan decoder _).readBuffer
    · rfl

theorem readBuffer_dispatchFrame (type flags : UInt8) (streamId : ℕ) (payload : Bytes) :
    (session.dispatchFrame decoder type flags streamId payload).readBuffer =
      session.readBuffer := by
  rw [dispatchFrame]
  split
  · rfl
  split
  · rfl
  split
  · exact (session.quiet_dispatchSettings ..).readBuffer
  · exact (session.quiet_dispatchWindowUpdate ..).readBuffer
  · exact (session.quiet_dispatchPing ..).readBuffer
  · exact (session.quiet_dispatchPriority ..).readBuffer
  · exact readBuffer_dispatchHeaders ..
  · exact readBuffer_dispatchContinuation ..
  · exact (session.alike_dispatchData ..).readBuffer
  · exact (session.quiet_dispatchRstStream ..).readBuffer
  · exact (session.quiet_dispatchGoaway ..).readBuffer
  · rfl
  · rfl

/-- The frames of a read, what is behind them, and the number of their bytes. -/
structure Parsed (decoder : Decoder D) (first : D) (frames : List WireFrame) (session : Session D)
    (buf : Bytes) (result : Session D × ℕ) : Prop where
  readBuffer : result.1.readBuffer = session.readBuffer
  parsed : result.1.fatalError = none → ∃ (more : List WireFrame) (rest : Bytes),
    buf = more.flatMap WireFrame.bytes ++ rest ∧ result.2 = (more.flatMap WireFrame.bytes).length ∧
    Incomplete rest ∧ Synced decoder first (frames ++ more) result.1

theorem Synced.parseFrames (h : Synced decoder first frames session) (hgood : session.Good)
    (hpanicked : session.panicked = false) (buf : Bytes) :
    Parsed decoder first frames session buf (session.parseFrames decoder buf) := by
  induction hn : buf.length using Nat.strong_induction_on generalizing session frames buf with
  | _ n ih =>
    subst hn
    have hstops : Incomplete buf → Parsed decoder first frames session buf (session, 0) :=
      fun hincomplete => ⟨rfl, fun _ => ⟨[], buf, rfl, rfl, hincomplete, by rwa [append_nil]⟩⟩
    rw [parseFrames]
    split
    · exact hstops (.inl ‹_›)
    rename_i hheader
    dsimp only
    split
    · exact ⟨rfl, fun h => by cases h⟩
    split
    · exact hstops (.inr ‹_›)
    rename_i hframe
    have hbyte : byteSize = 9 := rfl
    generalize hheader' : decode (buf.take byteSize) = header at hframe
    have hpayload : ((buf.drop byteSize).take header.length).length = header.length := by
      rw [length_take_of_le]
      rw [length_drop]
      omega
    let frame : WireFrame := ⟨buf.take byteSize,
      (buf.drop byteSize).take header.length, length_take_of_le (by omega),
      by rw [hpayload, hheader']⟩
    have hbytes : buf = frame.bytes ++ buf.drop (byteSize + header.length) := by
      show buf = (buf.take _ ++ (buf.drop _).take _) ++ _
      rw [append_assoc, ← drop_drop, take_append_drop, take_append_drop]
    have hlen : frame.bytes.length = byteSize + header.length := by
      show (buf.take _ ++ _).length = _
      rw [length_append, hpayload, length_take_of_le (by omega)]
    have hsynced := h.dispatchFrame hgood frame
    have hsound := hgood.dispatchFrame decoder hpanicked (decode frame.header).type
      frame.flags frame.streamId frame.payload
    have hread : (session.dispatchFrame decoder (decode frame.header).type frame.flags
      frame.streamId frame.payload).readBuffer = session.readBuffer := readBuffer_dispatchFrame ..
    have hfields : decode frame.header = header := hheader'
    rw [WireFrame.flags, WireFrame.streamId, hfields] at hsynced hsound hread
    split
    next hstopped =>
      refine ⟨hread, fun hnone => ?_⟩
      have hfalse : (session.dispatchFrame decoder header.type header.flags header.streamIdentifier
          frame.payload).stopped = false := by
        rw [stopped, hnone, hsound.panicked]
        rfl
      exact absurd (hfalse.symm.trans hstopped) Bool.false_ne_true
    next hgoes =>
      obtain ⟨hgood', hpanicked'⟩ := sound_of_stopped hsound (Bool.not_eq_true _ ▸ hgoes)
      have hnone : (session.dispatchFrame decoder header.type header.flags header.streamIdentifier
          frame.payload).fatalError = none := by
        rw [stopped, Bool.or_eq_true, not_or, not_isSome_iff_eq_none] at hgoes
        exact hgoes.1
      obtain ⟨hread', hparsed⟩ := ih _ (by rw [length_drop]; omega) (hsynced hnone) hgood'
        hpanicked' (buf.drop (byteSize + header.length)) rfl
      refine ⟨hread'.trans hread, fun hend => ?_⟩
      obtain ⟨more, rest, hdrop, hconsumed, hincomplete, hlast⟩ := hparsed hend
      refine ⟨frame :: more, rest, ?_, ?_, hincomplete, ?_⟩
      · rw [flatMap_cons, append_assoc, ← hdrop]
        exact hbytes
      · rw [flatMap_cons, length_append, hlen, ← hconsumed]
      · rwa [append_assoc] at hlast

theorem Synced.untouched (h : Synced decoder first frames session)
    (huntouched : Untouched session session') : Synced decoder first frames session' := by
  refine ⟨?_, ?_⟩
  · rw [huntouched.expectingContinuation]
    exact lt_of_lt_of_le h.expects huntouched.nextStreamId
  · rw [huntouched.gathered h.expects, huntouched.hpack]
    exact h.blocks

/-- What was read are whole frames, and the bytes that were kept. -/
structure InStep (decoder : Decoder D) (first : D) (received : Bytes) (session : Session D) :
    Prop where
  incomplete : Incomplete session.readBuffer
  synced : ∃ frames : List WireFrame,
    received = frames.flatMap WireFrame.bytes ++ session.readBuffer ∧
    Synced decoder first frames session

variable {received incoming : Bytes}

section

variable (h : InStep decoder first received session)
include h

theorem InStep.untouched
    (huntouched : Untouched session session') : InStep decoder first (received ++ []) session' := by
  obtain ⟨frames, hreceived, hsynced⟩ := h.synced
  rw [append_nil]
  refine ⟨?_, frames, ?_, hsynced.untouched huntouched⟩
  · rw [huntouched.readBuffer]
    exact h.incomplete
  · rw [huntouched.readBuffer]
    exact hreceived

omit h in
/-- The frames of a read come behind the earlier ones. -/
theorem InStep.parsed {frames more : List WireFrame} {rest : Bytes}
    (hreceived : received = frames.flatMap WireFrame.bytes ++ session.readBuffer)
    (hbuf : session.readBuffer ++ incoming = more.flatMap WireFrame.bytes ++ rest)
    (hincomplete : Incomplete rest) (hsynced : Synced decoder first (frames ++ more) session')
    (hread : session'.readBuffer = rest) :
    InStep decoder first (received ++ incoming) session' := by
  refine ⟨hread ▸ hincomplete, frames ++ more, ?_, hsynced⟩
  rw [hreceived, hread, append_assoc, hbuf, flatMap_append, append_assoc]

theorem InStep.onIdleData (hgood : session.Good) (hpanicked : session.panicked = false)
    (hnone : (session.onIdleData decoder incoming).fatalError = none) :
    InStep decoder first (received ++ incoming) (session.onIdleData decoder incoming) := by
  obtain ⟨frames, hreceived, hsynced⟩ := h.synced
  have hstart : Synced decoder first frames { session with
      readBuffer := session.readBuffer ++ incoming } := ⟨hsynced.expects, hsynced.blocks⟩
  obtain ⟨hread, hparsed⟩ := hstart.parseFrames
    (hgood.same ⟨rfl, rfl, rfl, rfl, rfl, rfl⟩) hpanicked (session.readBuffer ++ incoming)
  obtain ⟨more, rest, hbuf, hconsumed, hincomplete, hsynced'⟩ := hparsed hnone
  refine InStep.parsed hreceived hbuf hincomplete ?_ ?_
  · exact ⟨hsynced'.expects, hsynced'.blocks⟩
  · show drop _ (readBuffer _) = rest
    rw [hread, hconsumed]
    rw [hbuf, drop_left]

theorem InStep.receive (hgood : session.Good) (hpanicked : session.panicked = false) :
    (session.receive decoder incoming).fatalError = none →
      InStep decoder first (received ++ incoming) (session.receive decoder incoming) := by
  obtain ⟨frames, hreceived, hsynced⟩ := h.synced
  rw [Session.receive]
  split
  next hempty =>
    have hstart : Synced decoder first frames { session with streamProgressed := false } :=
      ⟨hsynced.expects, hsynced.blocks⟩
    obtain ⟨hread, hparsed⟩ := hstart.parseFrames
      (hgood.same ⟨rfl, rfl, rfl, rfl, rfl, rfl⟩) hpanicked incoming
    generalize parseFrames decoder { session with streamProgressed := false } incoming =
      result at hread hparsed ⊢
    obtain ⟨session', consumed⟩ := result
    dsimp only at hread hparsed ⊢
    split
    · intro hnone
      obtain ⟨more, rest, hbuf, hconsumed, hincomplete, hsynced'⟩ := hparsed hnone
      refine InStep.parsed hreceived (by rw [hempty, nil_append, hbuf]) hincomplete ?_ ?_
      · exact ⟨hsynced'.expects, hsynced'.blocks⟩
      · show session'.readBuffer ++ incoming.drop consumed = rest
        rw [hread, hempty, hconsumed, hbuf, drop_left, nil_append]
    next hall =>
      intro hnone
      obtain ⟨more, rest, hbuf, hconsumed, hincomplete, hsynced'⟩ := hparsed hnone
      have hrest : rest = [] := by
        rw [not_and_or, not_lt] at hall
        have hle := hall.resolve_right fun hne => hne hnone
        rw [hbuf, length_append, ← hconsumed] at hle
        exact length_eq_zero_iff.1 (by omega)
      refine InStep.parsed hreceived (by rw [hempty, nil_append, hbuf]) hincomplete hsynced' ?_
      rw [hread, hempty, hrest]
  · have hstart : InStep decoder first received { session with streamProgressed := false } :=
      ⟨h.incomplete, frames, hreceived, hsynced.expects, hsynced.blocks⟩
    exact hstart.onIdleData (hgood.same ⟨rfl, rfl, rfl, rfl, rfl, rfl⟩) hpanicked

theorem InStep.step (hgood : session.Good)
    (hpanicked : session.panicked = false) (hstep : Step decoder session incoming session')
    (hnone : session'.fatalError = none) :
    InStep decoder first (received ++ incoming) session' := by
  cases hstep with
  | receive => exact h.receive hgood hpanicked hnone
  | onIdleData => exact h.onIdleData hgood hpanicked hnone
  | flush wrote =>
    cases wrote with
    | none => cases hnone
    | some wrote =>
      have haside : Aside session (session.flush (some wrote)) :=
        ⟨rfl, rfl, rfl, rfl, rfl, rfl, le_rfl, fun _ _ => rfl⟩
      exact h.untouched haside.untouched
  | attach request => exact h.untouched (hgood.untouched_attach request)
  | appendBody id bytes => exact h.untouched (aside_appendBody id bytes).untouched
  | streamRequestBody id message => exact h.untouched (hgood.untouched_streamRequestBody id message)
  | drainSendBodies hdrain => exact h.untouched (hgood.drainLoop_aside hdrain).untouched
  | deliverStream id takesBody => exact h.untouched (aside_deliverStream id takesBody).untouched
  | detach id => exact h.untouched (hgood.untouched_detach id)
  | replenishWindow isReceivePaused =>
    exact h.untouched (aside_replenishWindow isReceivePaused).untouched
  | probeLiveness flushed => exact h.untouched (aside_probeLiveness flushed).untouched

end

end

end Session

variable {D : Type} {decoder : Decoder D} {hpack : D} {received : Bytes} {session : Session D}

theorem Run.inStep (run : Run decoder hpack received session) (hnone : session.fatalError = none) :
    Session.InStep decoder hpack received session := by
  induction run with
  | create => exact ⟨.inl (Nat.succ_pos 8), [], rfl, one_pos, [], .nil, .nil⟩
  | step run hgoes hstep ih =>
    obtain ⟨hgood, hpanicked⟩ := sound_of_stopped run.sound hgoes
    rw [stopped, Bool.or_eq_false_iff, isSome_eq_false_iff,
      isNone_iff_eq_none] at hgoes
    exact (ih hgoes.1).step hgood hpanicked hstep hnone

/-- The decoder of a session that has not failed went through the blocks that the frames complete.
-/
theorem Run.blocks_decoded (run : Run decoder hpack received session)
    (hgoes : session.fatalError = none) :
    ∃ (frames : List WireFrame) (blocks : List Bytes),
      received = frames.flatMap WireFrame.bytes ++ session.readBuffer ∧
      Incomplete session.readBuffer ∧ Blocks frames session.gathered blocks ∧
      Feeds decoder hpack blocks session.hpack := by
  obtain ⟨hincomplete, frames, hreceived, -, blocks, hblocks, hfeeds⟩ := run.inStep hgoes
  exact ⟨frames, blocks, hreceived, hincomplete, hblocks, hfeeds⟩

/-- The first stream is removed behind the HEADERS frame that starts its block. -/
def blockOpen : Session Unit := uploading.receive byteDecoder [0, 0, 1, 1, 0, 0, 0, 0, 1, 0x88]

def blockRead : Session Unit :=
  (blockOpen.detach 1).receive byteDecoder [0, 0, 1, 9, 4, 0, 0, 0, 1, 0x89]

/-- The block of a removed stream is decoded when CONTINUATION ends it. -/
theorem Run.blocks_decoded_removed : ∃ (frames : List WireFrame) (blocks : List Bytes),
    windowFrames ++ [0, 0, 1, 1, 0, 0, 0, 0, 1, 0x88] ++ [] ++ [0, 0, 1, 9, 4, 0, 0, 0, 1, 0x89] =
        frames.flatMap WireFrame.bytes ++ blockRead.readBuffer ∧
      Incomplete blockRead.readBuffer ∧ Blocks frames blockRead.gathered blocks ∧
      Feeds byteDecoder () blocks blockRead.hpack := by
  have hopen := Run.step run_uploading (by decide +kernel)
    (.receive [0, 0, 1, 1, 0, 0, 0, 0, 1, 0x88])
  have hremoved := hopen.step (show blockOpen.stopped = false by decide +kernel) (.detach 1)
  have hread := hremoved.step (show (blockOpen.detach 1).stopped = false by decide +kernel)
    (.receive [0, 0, 1, 9, 4, 0, 0, 0, 1, 0x89])
  exact Run.blocks_decoded hread (show blockRead.fatalError = none by decide +kernel)

end Soup.Http2
