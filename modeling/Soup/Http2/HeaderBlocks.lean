import Soup.Http2.Gathering

/-!
# Runs of a session and header blocks

A step is what the thread does with a session that has not failed: a read, a write of the socket, a
new request, more of a body, or the end of a request. A run keeps the bytes that were read. In every
run the windows are kept (`windows_kept`), the streams stay apart (`streams_apart`) and the drain of
the bodies ends (`drain_ends`).
-/

namespace Soup.Http2

open List Option FrameHeader

variable {D : Type}

/-- A new session, with the decoder's first state. -/
def Session.create (hpack : D) : Session D :=
  { hpack := hpack, remoteMaxConcurrentStreams := 100 }

/-- One step, with the bytes that it reads. -/
inductive Step (decoder : Decoder D) (session : Session D) : Bytes → Session D → Prop
  | receive (incoming : Bytes) :
    Step decoder session incoming (session.receive decoder incoming)
  | onIdleData (incoming : Bytes) :
    Step decoder session incoming (session.onIdleData decoder incoming)
  | flush (wrote : Option ℕ) : Step decoder session [] (session.flush wrote)
  | attach (request : Session.Request) (h : session.hasHeadroom = true) :
    Step decoder session [] (session.attach request)
  | appendBody (id : ℕ) (bytes : Bytes) : Step decoder session [] (session.appendBody id bytes)
  | streamRequestBody (id : ℕ) (message : Session.WriteMessageType) :
    Step decoder session [] (session.streamRequestBody id message)
  | drainSendBodies {fuel : ℕ} {session' : Session D} {more : Bool}
      (h : session.drainSendBodies fuel = some (session', more)) : Step decoder session [] session'
  | deliverStream (id : ℕ) (takesBody : Bool) :
    Step decoder session [] (session.deliverStream id takesBody)
  | detach (id : ℕ) : Step decoder session [] (session.detach id)
  | replenishWindow (isReceivePaused : ℕ → Bool) :
    Step decoder session [] (session.replenishWindow isReceivePaused)
  | probeLiveness (flushed : Bool) : Step decoder session [] (session.probeLiveness flushed)

/-- The runs of a new session. -/
inductive Run (decoder : Decoder D) (hpack : D) : Bytes → Session D → Prop
  | create : Run decoder hpack [] (.create hpack)
  | step {received incoming : Bytes} {session session' : Session D}
      (run : Run decoder hpack received session) (hgoes : session.stopped = false)
      (hstep : Step decoder session incoming session') :
    Run decoder hpack (received ++ incoming) session'

variable {decoder : Decoder D} {hpack : D} {session session' : Session D}
  {received incoming : Bytes}

namespace Session

theorem good_create (hpack : D) : (create hpack).Good := by
  refine ⟨⟨?_, ?_, ?_, .nil, forall_mem_nil _, one_pos, forall_mem_nil _,
    forall_mem_nil _, forall_mem_nil _⟩, forall_mem_nil _⟩
  · show defaultWindowSize ≤ maxWindowSize
    decide
  · show (0 : ℤ) ≤ defaultWindowSize
    decide
  · show (defaultWindowSize : ℤ) ≤ maxWindowSize
    decide

/-- A step that reads nothing and cannot fail. -/
theorem Good.sound (h : session'.Good) (hpanicked : session.panicked = false)
    (huntouched : Untouched session session') : session'.Sound :=
  ⟨huntouched.panicked.trans hpanicked, fun _ => h⟩

theorem Good.step (h : session.Good) (hpanicked : session.panicked = false)
    (hstep : Step decoder session incoming session') : session'.Sound := by
  cases hstep with
  | receive => exact h.receive decoder hpanicked incoming
  | onIdleData => exact h.onIdleData decoder hpanicked incoming
  | flush wrote => exact ⟨by cases wrote <;> exact hpanicked, fun _ => h.flush wrote⟩
  | attach request => exact (h.attach request).sound hpanicked (h.untouched_attach request)
  | appendBody id bytes =>
    exact (h.appendBody id bytes).sound hpanicked (aside_appendBody id bytes).untouched
  | streamRequestBody id message =>
    exact (h.streamRequestBody id message).sound hpanicked
      (h.untouched_streamRequestBody id message)
  | drainSendBodies hdrain =>
    exact (h.drainLoop hdrain).sound hpanicked (h.drainLoop_aside hdrain).untouched
  | deliverStream id takesBody =>
    exact (h.deliverStream id takesBody).sound hpanicked
      (aside_deliverStream id takesBody).untouched
  | detach id => exact (h.detach id).sound hpanicked (h.untouched_detach id)
  | replenishWindow isReceivePaused =>
    exact (h.replenishWindow isReceivePaused).sound hpanicked
      (aside_replenishWindow isReceivePaused).untouched
  | probeLiveness flushed =>
    exact (h.probeLiveness flushed).sound hpanicked (aside_probeLiveness flushed).untouched

/-- What is kept of the windows, the frames and the bodies, also of the streams that are gone. -/
structure WindowsKept (session : Session D) : Prop where
  connSendWindow : -(2 ^ 31 - 1) ≤ session.connSendWindow ∧ session.connSendWindow ≤ 2 ^ 31 - 1
  sendWindow : ∀ stream ∈ session.streams,
    -(2 ^ 31 - 1) ≤ stream.sendWindow ∧ stream.sendWindow ≤ 2 ^ 31 - 1
  account : ∀ stream ∈ session.streams, stream.sendWindow =
    session.remoteInitialWindowSize + stream.accepted - (sentOf session.written stream.id).length
  limits : ∀ frame ∈ session.written, frame.WithinLimits
  body : ∀ stream ∈ session.streams ++ session.gone,
    sentOf session.written stream.id <+: stream.body
  ends : ∀ stream ∈ session.streams ++ session.gone, EndsOnce session.written stream.id

theorem Good.windowsKept (h : session.Good) : session.WindowsKept := by
  have hmax : maxWindowSize = 2 ^ 31 - 1 := rfl
  have hnonneg := h.base.conn_nonneg
  have hle := h.base.conn_le
  have hleft : ∀ stream ∈ session.streams ++ session.gone, Left session.written stream := by
    intro stream hstream
    rcases mem_append.1 hstream with hstream | hstream
    · exact (h.fits stream hstream).left
    · exact h.base.gone stream hstream
  exact ⟨⟨by omega, by omega⟩, fun stream hstream => (h.fits stream hstream).window_range,
    fun stream hstream => (h.fits stream hstream).window_eq, h.base.limits,
    fun stream hstream => (hleft stream hstream).sent,
      fun stream hstream => (hleft stream hstream).once⟩

end Session

theorem Run.sound (run : Run decoder hpack received session) : session.Sound := by
  induction run with
  | create => exact ⟨rfl, fun _ => Session.good_create hpack⟩
  | step run hgoes hstep ih =>
    obtain ⟨hgood, hpanicked⟩ := Session.sound_of_stopped ih hgoes
    exact hgood.step hpanicked hstep

theorem Run.windows_kept (run : Run decoder hpack received session) :
    session.panicked = false ∧ (session.fatalError = none → session.WindowsKept) :=
  ⟨run.sound.panicked, fun hnone => (run.sound.good hnone).windowsKept⟩

/-- A decoder without a table: every byte is a field. -/
def byteDecoder : Decoder Unit := ⟨fun _ _ => some ⟨(), [], [], 1⟩, by simp⟩

/-- A connection with an upload. -/
def oneUpload : Session Unit :=
  (Session.create ()).attach ⟨.ok [0x82], false, .bytes (text "hello")⟩

def twoUploads : Session Unit := oneUpload.attach ⟨.ok [0x84], false, .bytes (text "bye")⟩

/-- SETTINGS with a smaller window for all streams, and WINDOW_UPDATE for the first one. -/
def windowFrames : Bytes :=
  [0, 0, 6, 4, 0, 0, 0, 0, 0, 0, 4, 0, 0, 0, 2, 0, 0, 4, 8, 0, 0, 0, 0, 1, 0, 0, 0, 1]

def uploading : Session Unit := twoUploads.receive byteDecoder windowFrames

theorem run_uploading : Run byteDecoder () windowFrames uploading := by
  have hone : Run byteDecoder () [] oneUpload := .step .create rfl (.attach _ rfl)
  have htwo : Run byteDecoder () [] twoUploads :=
    .step hone (by decide +kernel) (.attach _ (by decide +kernel))
  exact .step htwo (by decide +kernel) (.receive _)

theorem Run.windows_kept_upload : uploading.panicked = false ∧ uploading.WindowsKept :=
  (Run.windows_kept run_uploading).imp_right fun h => h (by decide +kernel)

/-- No id is given to two streams of a connection, every frame is for the connection or for one of
these streams, and the body of a stream is what was sent of it and then what is left. -/
theorem Run.streams_apart (run : Run decoder hpack received session)
    (hgoes : session.fatalError = none) :
    (session.streams.map Stream.id ++ session.gone.map Stream.id).Nodup ∧
    (∀ id ∈ session.streams.map Stream.id ++ session.gone.map Stream.id,
      0 < id ∧ id < session.nextStreamId) ∧
    (∀ frame ∈ session.written, frame.streamId = 0 ∨
      frame.streamId ∈ session.streams.map Stream.id ++ session.gone.map Stream.id) ∧
    ∀ stream ∈ session.streams, sentOf session.written stream.id ++ stream.unsent = stream.body ∧
      (NotEnded session.written stream.id ∨ stream.localClosed = true) := by
  obtain ⟨hbase, hfits⟩ := run.sound.good hgoes
  refine ⟨hbase.nodup, hbase.ids_lt, fun frame hframe => mem_cons.1 (hbase.frames_mem frame hframe),
    fun stream hstream => ⟨(hfits stream hstream).body, ?_⟩⟩
  exact (hfits stream hstream).ended.imp_right And.left

theorem Run.streams_apart_upload :
    (∀ frame ∈ uploading.written, frame.streamId = 0 ∨
      frame.streamId ∈ uploading.streams.map Stream.id ++ uploading.gone.map Stream.id) ∧
    ∀ stream ∈ uploading.streams, sentOf uploading.written stream.id ++ stream.unsent =
      stream.body ∧ (NotEnded uploading.written stream.id ∨ stream.localClosed = true) :=
  (Run.streams_apart run_uploading (by decide +kernel)).2.2

/-- In every run the drain of the bodies comes to an end: at the high-water mark, or with the window
of the connection used up, or where no stream can go on: it failed, ended its body, or waits
(`Stream.Blocked`). -/
theorem Run.drain_ends (run : Run decoder hpack received session)
    (hgoes : session.fatalError = none) {fuel : ℕ} (hfuel : session.room < fuel) :
    ∃ session' more, session.drainSendBodies fuel = some (session', more) ∧
      if more then session'.writeBuffer ≥ writeBufferHighWater
      else session'.connSendWindow ≤ 0 ∨ ∀ stream ∈ session'.streams, stream.Blocked :=
  (run.sound.good hgoes).drainLoop_ends session.remoteMaxFrameSize.pos hfuel

theorem Run.drain_ends_upload : ∃ session' more,
    uploading.drainSendBodies (uploading.room + 1) = some (session', more) ∧
      if more then session'.writeBuffer ≥ writeBufferHighWater
      else session'.connSendWindow ≤ 0 ∨ ∀ stream ∈ session'.streams, stream.Blocked :=
  Run.drain_ends run_uploading (by decide +kernel) (lt_add_one _)

/-!
## Header blocks

`Blocks` says what header blocks some frames complete, and what they leave open. `Feeds` gives
blocks to the decoder, each one to its end. A session that has not failed gave its decoder exactly
the blocks of the frames that it read, in their order (`Run.blocks_decoded`).
-/

/-! ### Frames and blocks on the wire -/

/-- A frame: the payload is as long as the header says. -/
structure WireFrame where
  header : Bytes
  payload : Bytes
  header_length : header.length = byteSize
  payload_length : payload.length = (decode header).length

namespace WireFrame

variable (frame : WireFrame)

def bytes : Bytes := frame.header ++ frame.payload

def type : Option FrameType := FrameType.ofByte (decode frame.header).type

def flags : UInt8 := (decode frame.header).flags

def streamId : ℕ := (decode frame.header).streamIdentifier

end WireFrame

/-- There is no whole frame. -/
def Incomplete (rest : Bytes) : Prop :=
  rest.length < byteSize ∨ rest.length <
    byteSize + (decode (rest.take byteSize)).length

/-- A HEADERS payload has a fragment of a block, and around it what the flags say. -/
def HasFragment (flags : UInt8) (payload fragment : Bytes) : Prop :=
  ∃ padLength priorityFields padding : Bytes,
    payload = padLength ++ priorityFields ++ fragment ++ padding ∧
    (if isSet flags padded then ∃ n : UInt8, padLength = [n] ∧ padding.length = n.toNat
      else padLength = [] ∧ padding = []) ∧
    priorityFields.length = if isSet flags priority then streamPriorityByteSize else 0

/-- The blocks that frames complete, and the stream and the fragments of the block they leave open.
-/
inductive Blocks : List WireFrame → Option (ℕ × Bytes) → List Bytes → Prop
  | nil : Blocks [] none []
  | other {frames : List WireFrame} {blocks : List Bytes} {frame : WireFrame}
      (h : Blocks frames none blocks) (htype : frame.type ≠ some .headers)
      (htype' : frame.type ≠ some .continuation) : Blocks (frames ++ [frame]) none blocks
  | headers {frames : List WireFrame} {blocks : List Bytes} {frame : WireFrame} {fragment : Bytes}
      (h : Blocks frames none blocks) (htype : frame.type = some .headers)
      (hfragment : HasFragment frame.flags frame.payload fragment)
      (hmore : isSet frame.flags endHeaders = false) :
      Blocks (frames ++ [frame]) (some (frame.streamId, fragment)) blocks
  | headersEnd {frames : List WireFrame} {blocks : List Bytes} {frame : WireFrame}
      {fragment : Bytes} (h : Blocks frames none blocks) (htype : frame.type = some .headers)
      (hfragment : HasFragment frame.flags frame.payload fragment)
      (hend : isSet frame.flags endHeaders = true) :
      Blocks (frames ++ [frame]) none (blocks ++ [fragment])
  | continuation {frames : List WireFrame} {blocks : List Bytes} {frame : WireFrame}
      {gathered : Bytes} (h : Blocks frames (some (frame.streamId, gathered)) blocks)
      (htype : frame.type = some .continuation) (hmore : isSet frame.flags endHeaders = false) :
      Blocks (frames ++ [frame]) (some (frame.streamId, gathered ++ frame.payload)) blocks
  | continuationEnd {frames : List WireFrame} {blocks : List Bytes} {frame : WireFrame}
      {gathered : Bytes} (h : Blocks frames (some (frame.streamId, gathered)) blocks)
      (htype : frame.type = some .continuation) (hend : isSet frame.flags endHeaders = true) :
      Blocks (frames ++ [frame]) none (blocks ++ [gathered ++ frame.payload])

variable {D : Type} (decoder : Decoder D)

/-- The decoder goes through a block to its end. -/
inductive Decodes : D → Bytes → D → Prop
  | nil (hpack : D) : Decodes hpack [] hpack
  | field {hpack hpack' : D} {block : Bytes} {result : DecodeResult D} (hblock : block ≠ [])
      (hdecode : decoder.decode hpack block = some result)
      (hrest : Decodes result.hpack (block.drop result.next) hpack') : Decodes hpack block hpack'

/-- The decoder goes through some blocks. -/
inductive Feeds (hpack : D) : List Bytes → D → Prop
  | nil : Feeds hpack [] hpack
  | block {blocks : List Bytes} {block : Bytes} {hpack' hpack'' : D} (h : Feeds hpack blocks hpack')
      (hdecodes : Decodes decoder hpack' block hpack'') : Feeds hpack (blocks ++ [block]) hpack''

/-! ### Decoding -/

theorem decodes_of_decodeFields (statusCode : ℕ) {hpack hpack' : D} {fields fields' : Fields}
    {block : Bytes}
    (h : decodeFields decoder statusCode hpack fields block = (hpack', .ok fields')) :
    Decodes decoder hpack block hpack' := by
  induction hn : block.length using Nat.strong_induction_on generalizing hpack fields block with
  | _ n ih =>
    subst hn
    rw [decodeFields] at h
    split at h
    next hblock =>
      rw [hblock, ← (Prod.mk.inj h).1]
      exact .nil hpack
    rename_i hblock
    split at h
    · cases (Prod.mk.inj h).2
    rename_i result hdecode
    split at h
    · cases (Prod.mk.inj h).2
    · refine .field hblock hdecode (ih _ ?_ h rfl)
      have := decoder.advances _ _ _ hdecode
      have := length_pos_iff.2 hblock
      rw [length_drop]
      omega

theorem decodes_of_discardFields {hpack hpack' : D} {block : Bytes}
    (h : discardFields decoder hpack block = (hpack', true)) :
    Decodes decoder hpack block hpack' := by
  induction hn : block.length using Nat.strong_induction_on generalizing hpack block with
  | _ n ih =>
    subst hn
    rw [discardFields] at h
    split at h
    next hblock =>
      rw [hblock, ← (Prod.mk.inj h).1]
      exact .nil hpack
    rename_i hblock
    split at h
    · cases (Prod.mk.inj h).2
    next result hdecode =>
      refine .field hblock hdecode (ih _ ?_ h rfl)
      have := decoder.advances _ _ _ hdecode
      have := length_pos_iff.2 hblock
      rw [length_drop]
      omega

theorem stripPadding_some {payload stripped : Bytes} (h : stripPadding payload = some stripped) :
    ∃ (n : UInt8) (padding : Bytes), payload = [n] ++ stripped ++ padding ∧
      padding.length = n.toNat := by
  cases payload with
  | nil => cases h
  | cons pad rest =>
    rw [stripPadding] at h
    split at h
    · cases h
    rename_i hlt
    rw [length_cons] at hlt
    refine ⟨pad, rest.drop (rest.length - pad.toNat), ?_, ?_⟩
    · rw [← some.inj h, append_assoc, take_append_drop]
      rfl
    · rw [length_drop]
      omega

/-- What is stripped is what the flags say. -/
theorem hasFragment_headersFragment {flags : UInt8} {payload fragment : Bytes}
    (h : headersFragment flags payload = .ok fragment) : HasFragment flags payload fragment := by
  rw [headersFragment] at h
  split at h
  · cases h
  rename_i stripped hstripped
  split at h
  · cases h
  rename_i hpriority
  dsimp only at h
  generalize hfinal :
    (if isSet flags priority then stripped.drop streamPriorityByteSize else stripped) = final at h
  split at h
  · cases h
  obtain rfl := Except.ok.inj h
  obtain ⟨padLength, padding, hpayload, hpad⟩ : ∃ padLength padding : Bytes,
      payload = padLength ++ stripped ++ padding ∧
      (if isSet flags padded then ∃ n : UInt8, padLength = [n] ∧ padding.length = n.toNat
        else padLength = [] ∧ padding = []) := by
    split at hstripped
    · obtain ⟨n, padding, hpayload, hpad⟩ := stripPadding_some hstripped
      exact ⟨[n], padding, hpayload, by rw [if_pos ‹_›]; exact ⟨n, rfl, hpad⟩⟩
    · obtain rfl := some.inj hstripped
      exact ⟨[], [], (append_nil _).symm, by rw [if_neg ‹_›]; exact ⟨rfl, rfl⟩⟩
  split at hfinal
  next hset =>
    have hlen : streamPriorityByteSize ≤ stripped.length :=
      not_lt.1 fun hlt => hpriority ⟨hset, hlt⟩
    refine ⟨padLength, stripped.take streamPriorityByteSize, padding, ?_, hpad, ?_⟩
    · rw [hpayload, ← hfinal, append_assoc padLength (stripped.take _), take_append_drop]
    · rw [length_take_of_le hlen, if_pos hset]
  next hset =>
    refine ⟨padLength, [], padding, ?_, hpad, ?_⟩
    · rw [hpayload, ← hfinal, append_nil]
    · rw [if_neg hset]
      rfl

end Soup.Http2
