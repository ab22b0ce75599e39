import Soup.Http2.Compression
import Soup.Http2.Counting

/-!
# Received data is acknowledged

In every run the increments of the connection, and of every tracked stream, with what their counters
have are the DATA that came, as long as the counters did not have to pass their maximum
(`LoggedRun.acknowledged`). The preface's own increment opens the connection's window, and is no
acknowledgement.
-/

namespace Soup.Http2

open List Option Session Arrival

variable {D : Type} {decoder : Decoder D} {hpack : D} {log : List (Arrival D)}
  {session session' : Session D}
  {stream : Stream}

/-! ## Requests -/

namespace Session

theorem still_removeStream (hmem : ∃ old ∈ session.streams, old.id = stream.id) :
    Still session (session.removeStream stream) := by
  obtain ⟨old, hold, hid, hperm⟩ := swapRemove_perm hmem
  rw [removeStream]
  refine ⟨?_, ?_, ?_, ?_, fun stream' hstream' => ⟨stream', ?_, rfl, rfl⟩⟩
  · split <;> rfl
  · split <;> rfl
  · split <;> rfl
  · split <;> rfl
  · have hstreams : stream' ∈ swapRemove session.streams stream.id := by
      split at hstream' <;> exact hstream'
    exact hperm.symm.subset (mem_cons_of_mem _ hstreams)

theorem still_detach (id : ℕ) : Still session (session.detach id) := by
  rw [detach]
  split
  · exact .refl session
  next stream hfound =>
    have hrst := session.apart_rstStream stream .cancel
    have hstill : Still session (session.rstStream stream .cancel).1 :=
      .of_eq hrst.updates hrst.connUnackedBytes hrst.prefaceSent hrst.nextStreamId hrst.streams
    exact hstill.trans
      (still_removeStream ⟨stream, hrst.streams ▸ (mem_of_stream? hfound).1, hrst.id.symm⟩)

theorem still_drainAt (slice : ℕ) (progressed : Bool) (i : ℕ) :
    Still session (drainAt slice (session, progressed) i).1 := by
  rw [drainAt]
  split
  · exact .refl session
  rename_i stream hget
  split
  · exact .refl session
  · exact (session.apart_drainSendBody stream slice).put (mem_of_getElem? hget)

theorem still_drainLoop {slice fuel : ℕ} {result : Session D × Bool}
    (hloop : drainLoop slice fuel session = some result) : Still session result.1 :=
  drainLoop_keeps (Still session)
    (fun _ progressed i h => h.trans (still_drainAt slice progressed i))
    (.refl session) hloop

theorem still_appendBody (id : ℕ) (bytes : Bytes) :
    Still session (session.appendBody id bytes) := by
  rw [appendBody]
  split
  · exact .refl session
  rename_i stream hfound
  split
  · exact still_put hfound rfl rfl
  · exact .refl session

theorem still_streamRequestBody (id : ℕ) (message : WriteMessageType) :
    Still session (session.streamRequestBody id message) := by
  rw [streamRequestBody]
  split
  · exact .refl session
  rename_i stream hfound
  split
  next buffer ended hclient =>
    have hput : Still session (session.putStream
        { stream with client := some (.stream buffer (message = .end)) }) :=
        still_put hfound rfl rfl
    split
    · exact hput.trans (still_detach id)
    · refine hput.trans ((apart_drainSendBody _ _ usizeMax).put ?_)
      rw [putStream]
      exact mem_map.2 ⟨stream, (mem_of_stream? hfound).1, if_pos rfl⟩
  · exact .refl session

theorem still_deliverStream (id : ℕ) (takesBody : Bool) :
    Still session (session.deliverStream id takesBody) := by
  rw [deliverStream]
  split
  · exact .refl session
  next stream hfound =>
    exact still_put hfound rfl rfl

theorem still_probeLiveness (flushed : Bool) : Still session (session.probeLiveness flushed) := by
  rw [probeLiveness]
  split
  · exact .refl session
  split
  · exact .of_eq rfl rfl rfl rfl rfl
  · have hping :=
      session.still_writeControl (show FrameType.ping ≠ .windowUpdate by decide) 0 0 (replicate 8 0)
    exact hping.trans (.of_eq rfl rfl rfl rfl rfl)

theorem still_flush (wrote : Option ℕ) : Still session (session.flush wrote) := by
  cases wrote <;> exact .of_eq rfl rfl rfl rfl rfl

theorem apart_writeRequest (session : Session D) (stream : Stream) (request : Request)
    (block : Bytes) : Apart session (session.writeRequest stream request block).1 stream
      (session.writeRequest stream request block).2 := by
  rw [writeRequest]
  split
  · exact session.apart_writeHeaderBlock _ _ _ rfl rfl
  next body _ =>
    split
    · refine Apart.trans ?_ (apart_drainSendBody _ _ usizeMax)
      exact session.apart_writeHeaderBlock _ _ _ rfl rfl
    · exact session.apart_writeHeaderBlock _ _ _ rfl rfl

end Session

/-- A new stream has counted nothing. -/
theorem Counts.newStream (h : Counts log session) (request : Session.Request) :
    Counts log { session with
    nextStreamId := session.nextStreamId + 2, streams :=
      session.streams ++ [session.newStream request] } := by
  have hfresh : ∀ f ∈ log, f.accepted = true → f.streamId ≠ session.nextStreamId :=
    fun f hf haccepted =>
    ne_of_lt (h.fresh f hf haccepted)
  have hincrements : increments session.written (session.newStream request).id = 0 :=
    increments_eq_zero fun frame hframe => ne_of_lt (h.updates_lt frame hframe)
  have haccepted : acceptedOf (session.newStream request).id log = 0 := acceptedOf_eq_zero hfresh
  have hlast : ∀ {P : Stream → Prop}, (∀ stream ∈ session.streams, P stream) →
    P (session.newStream request) →
      ∀ stream ∈ session.streams ++ [session.newStream request],
        P stream := fun hall hnew stream hstream => by
    rcases mem_append.1 hstream with hstream | hstream
    · exact hall stream hstream
    · exact mem_singleton.1 hstream ▸ hnew
  exact
    { next_pos := lt_of_lt_of_le h.next_pos (Nat.le_add_right _ 2)
      ids := hlast (fun stream hstream => ⟨(h.ids stream hstream).1,
        lt_of_lt_of_le (h.ids stream hstream).2 (Nat.le_add_right _ 2)⟩)
          ⟨h.next_pos, Nat.lt_add_of_pos_right (by decide)⟩
      updates_lt := fun frame hframe =>
      lt_of_lt_of_le (h.updates_lt frame hframe) (Nat.le_add_right _ 2)
      fresh := fun f hf haccepted => lt_of_lt_of_le (h.fresh f hf haccepted) (Nat.le_add_right _ 2)
      conn_max := h.conn_max
      conn_le := h.conn_le
      conn_iff := h.conn_iff
      stream_max := hlast h.stream_max (Nat.zero_le _)
      stream_le := hlast h.stream_le (by rw [hincrements]; exact Nat.zero_le _)
      stream_iff := hlast h.stream_iff (by
        rw [hincrements, haccepted]
        exact iff_of_true rfl (streamFits_of_fresh hfresh))
      window := h.window
      positive := h.positive
      small := h.small }

/-- The preface opens the connection's window. -/
theorem Counts.writePreface (h : Counts log session) (hsent : session.prefaceSent = false) :
    Counts log session.writePreface := by
  have hlocal : localInitialWindowSize - defaultWindowSize = 16711681 := rfl
  have hsettings := (session.queue clientPreface.length).updates_writeFrame
    (show FrameType.settings ≠ .windowUpdate by decide) 0 0
    (encodeSetting settingsEnablePush 0 ++ encodeSetting settingsInitialWindowSize
      localInitialWindowSize ++ encodeSetting settingsMaxHeaderListSize localMaxHeaderListSize) none
  refine @Counts.updateConn D log session session.writePreface h
    (localInitialWindowSize - defaultWindowSize)
    (by omega) (by rw [hlocal]; decide) (fun _ => Nat.sub_le _ _) ?_ rfl rfl le_rfl ?_
  · refine (updates_append_updateFrames _ [(0, localInitialWindowSize - defaultWindowSize)]).trans
      ?_
    exact congrArg (· ++ _) hsettings
  · have hbefore : session.opening = 0 := if_neg (by rw [hsent]; exact Bool.false_ne_true)
    have hafter : session.writePreface.opening = localInitialWindowSize - defaultWindowSize :=
      if_pos rfl
    have hunacked : session.writePreface.connUnackedBytes = session.connUnackedBytes := rfl
    omega

theorem Counts.attach (h : Counts log session) (request : Session.Request) :
    Counts log (session.attach request) := by
  have hopened := h.newStream request
  have hmem : session.newStream request ∈ session.streams ++ [session.newStream request] :=
    mem_append_right _ mem_cons_self
  have hready : ∃ ready : Session D, Counts log ready ∧ session.newStream request ∈ ready.streams ∧
      ready = if session.prefaceSent then ({ session with
        nextStreamId := session.nextStreamId + 2
        streams := session.streams ++ [session.newStream request] } : Session D)
      else Session.writePreface { session with
        nextStreamId := session.nextStreamId + 2
        streams := session.streams ++ [session.newStream request] } := by
    refine ⟨_, ?_, ?_, rfl⟩
    · split
      next => exact hopened
      next hsent => exact hopened.writePreface (Bool.eq_false_iff.2 hsent)
    · split <;> exact hmem
  obtain ⟨ready, hcounts, hmem, hready⟩ := hready
  rw [Session.attach]
  rw [← hready]
  split
  · exact hcounts.still (still_removeStream ⟨_, hmem, rfl⟩)
  · refine (hcounts.still (still_removeStream ⟨_, hmem, rfl⟩)).still ?_
    exact .of_eq rfl rfl rfl rfl rfl
  · refine hcounts.still (Session.Apart.put ?_ hmem)
    refine Session.Apart.trans ?_ (apart_writeRequest _ _ request _)
    exact ⟨rfl, rfl, rfl, rfl, rfl, rfl, rfl⟩

/-! ## Runs -/

/-- The runs of a new session, with the DATA frames that came. -/
inductive LoggedRun (decoder : Decoder D) (hpack : D) : List (Arrival D) → Session D → Prop
  | create : LoggedRun decoder hpack [] (.create hpack)
  | receive {log : List (Arrival D)} {session : Session D}
      (run : LoggedRun decoder hpack log session)
      (hgoes : session.stopped = false) (incoming : Bytes) :
    LoggedRun decoder hpack (log ++ session.receiveArrivals decoder incoming)
      (session.receive decoder incoming)
  | onIdleData {log : List (Arrival D)} {session : Session D}
      (run : LoggedRun decoder hpack log session)
      (hgoes : session.stopped = false) (incoming : Bytes) :
    LoggedRun decoder hpack (log ++ session.idleArrivals decoder incoming)
      (session.onIdleData decoder incoming)
  | other {log : List (Arrival D)} {session session' : Session D}
      (run : LoggedRun decoder hpack log session)
      (hgoes : session.stopped = false) (hstep : Step decoder session [] session') :
    LoggedRun decoder hpack log session'

theorem LoggedRun.exists_run (run : LoggedRun decoder hpack log session) :
    ∃ received, Run decoder hpack received session := by
  induction run with
  | create => exact ⟨[], .create⟩
  | receive run hgoes incoming ih =>
    obtain ⟨received, ih⟩ := ih
    exact ⟨_, .step ih hgoes (.receive incoming)⟩
  | onIdleData run hgoes incoming ih =>
    obtain ⟨received, ih⟩ := ih
    exact ⟨_, .step ih hgoes (.onIdleData incoming)⟩
  | other run hgoes hstep ih =>
    obtain ⟨received, ih⟩ := ih
    exact ⟨_, .step ih hgoes hstep⟩

/-- No frame is in bytes that have no whole frame. -/
theorem parseArrivals_incomplete {buf : Bytes} (h : Incomplete buf) :
    session.parseArrivals decoder buf = [] := by
  rw [parseArrivals]
  split
  next => rfl
  next hheader =>
    dsimp only
    split
    next => rfl
    next => exact if_pos (h.resolve_left hheader)

theorem Counts.step (h : Counts log session) (hincomplete : Incomplete session.readBuffer)
    (hnodup : (session.streams.map Stream.id).Nodup) (hstep : Step decoder session [] session')
    (hnone : session'.fatalError = none) : Counts log session' := by
  generalize hincoming : ([] : Bytes) = incoming at hstep
  cases hstep with
  | receive _ =>
    subst hincoming
    have hreceive := h.receive [] hnone
    have hnil : session.receiveArrivals decoder [] = [] := by
      rw [receiveArrivals]
      split
      next => exact parseArrivals_incomplete (.inl (Nat.succ_pos 8))
      next =>
        rw [append_nil]
        exact parseArrivals_incomplete hincomplete
    rwa [hnil, append_nil] at hreceive
  | onIdleData _ =>
    subst hincoming
    have hidle := h.onIdleData [] hnone
    have hnil : session.idleArrivals decoder [] = [] := by
      rw [idleArrivals, append_nil]
      exact parseArrivals_incomplete hincomplete
    rwa [hnil, append_nil] at hidle
  | flush wrote => exact h.still (still_flush wrote)
  | attach request => exact h.attach request
  | appendBody id bytes => exact h.still (still_appendBody id bytes)
  | streamRequestBody id message => exact h.still (still_streamRequestBody id message)
  | drainSendBodies hdrain => exact h.still (still_drainLoop hdrain)
  | deliverStream id takesBody => exact h.still (still_deliverStream id takesBody)
  | detach id => exact h.still (still_detach id)
  | replenishWindow isReceivePaused => exact h.replenishWindow hnodup isReceivePaused
  | probeLiveness flushed => exact h.still (still_probeLiveness flushed)

theorem LoggedRun.counts (run : LoggedRun decoder hpack log session)
    (hnone : session.fatalError = none) : Counts log session := by
  have hgoing : ∀ {session : Session D}, session.stopped = false → session.fatalError = none :=
    fun hgoes => by
    rw [stopped, Bool.or_eq_false_iff, isSome_eq_false_iff, isNone_iff_eq_none] at hgoes
    exact hgoes.1
  induction run with
  | create => exact counts_create hpack
  | receive run hgoes bytes ih => exact (ih (hgoing hgoes)).receive bytes hnone
  | onIdleData run hgoes bytes ih => exact (ih (hgoing hgoes)).onIdleData bytes hnone
  | other run hgoes hstep ih =>
    obtain ⟨received, hrun⟩ := run.exists_run
    have hgood := (hrun.sound.good (hgoing hgoes)).base.nodup
    exact (ih (hgoing hgoes)).step (hrun.inStep (hgoing hgoes)).incomplete
      (nodup_append.1 hgood).1 hstep hnone

/-- No counter has to pass its maximum while the peer respects the windows that it was given. -/
theorem Respects.fits (h : Respects log) : ConnFits log ∧ ∀ id, StreamFits id log := by
  have hmax : u32Max = 4294967295 := rfl
  have hlocal := localInitialWindowSize_eq
  refine ⟨fun before f after heq => ?_, fun id before f after heq hid _ => ?_⟩
  · have := (h before f after heq).1
    have := opening_le f.session
    omega
  · have hstream := (h before f after heq).2
    have : acceptedOf id before ≤ totalOf id before := acceptedOf_le
    rw [hid] at hstream
    omega

/-- What was acknowledged, with what waits for it, is all DATA that came, exactly when no counter
had to pass its maximum. -/
theorem LoggedRun.acknowledged (run : LoggedRun decoder hpack log session)
    (hgoes : session.fatalError = none) :
    (increments session.written 0 + session.connUnackedBytes = session.opening + Arrival.total log ↔
      ConnFits log) ∧ (∀ stream ∈ session.streams,
        increments session.written stream.id + stream.unackedBytes =
          Arrival.acceptedOf stream.id log ↔ StreamFits stream.id log) ∧
      (Respects log → ConnFits log ∧ ∀ id, StreamFits id log) ∧
      (∀ frame ∈ updates session.written, bigEndian frame.payload ≠ 0) ∧
      (Respects log → ∀ frame ∈ updates session.written, bigEndian frame.payload ≤ 2 ^ 31 - 1) := by
  have h := run.counts hgoes
  refine ⟨h.conn_iff, h.stream_iff, Respects.fits, h.positive, fun hrespects frame hframe => ?_⟩
  exact (h.small hrespects frame hframe).trans (by decide)

/-- A decoder without a table: every byte is the field of an answer. -/
def statusDecoder : Decoder Unit where
  decode _ _ := some ⟨(), text ":status", text "200", 1⟩
  advances _ _ result h := by
    cases h
    exact one_pos

/-- A connection with one request that has no body. -/
def requesting : Session Unit := (create ()).attach ⟨.ok [0x82], false, .bytes []⟩

/-- SETTINGS, an answer and one byte of its body. -/
def answer : Bytes :=
  [0, 0, 0, 4, 0, 0, 0, 0, 0] ++ [0, 0, 1, 1, 4, 0, 0, 0, 1, 0x88] ++ [0, 0, 1, 0, 0, 0, 0, 0, 1, 7]

theorem LoggedRun.acknowledged_answer :
    (increments (requesting.receive statusDecoder answer).written 0 +
        (requesting.receive statusDecoder answer).connUnackedBytes =
      (requesting.receive statusDecoder answer).opening +
        Arrival.total ([] ++ requesting.receiveArrivals statusDecoder answer) ↔
          ConnFits ([] ++ requesting.receiveArrivals statusDecoder answer)) ∧
      (∀ stream ∈ (requesting.receive statusDecoder answer).streams,
        increments (requesting.receive statusDecoder answer).written stream.id +
          stream.unackedBytes =
          Arrival.acceptedOf stream.id ([] ++ requesting.receiveArrivals statusDecoder answer) ↔
            StreamFits stream.id ([] ++ requesting.receiveArrivals statusDecoder answer)) ∧
      (Respects ([] ++ requesting.receiveArrivals statusDecoder answer) →
        ConnFits ([] ++ requesting.receiveArrivals statusDecoder answer) ∧
          ∀ id, StreamFits id ([] ++ requesting.receiveArrivals statusDecoder answer)) ∧
      (∀ frame ∈ updates (requesting.receive statusDecoder answer).written,
        bigEndian frame.payload ≠ 0) ∧
      (Respects ([] ++ requesting.receiveArrivals statusDecoder answer) →
        ∀ frame ∈ updates (requesting.receive statusDecoder answer).written,
          bigEndian frame.payload ≤ 2 ^ 31 - 1) :=
  LoggedRun.acknowledged
    (LoggedRun.receive (LoggedRun.other .create rfl (.attach _ rfl)) (by decide +kernel) answer)
    (by decide +kernel)

/-- The preface's increment acknowledges nothing. -/
theorem LoggedRun.preface_not_acknowledged : ∃ (log : List (Arrival Unit)) (session : Session Unit),
    LoggedRun statusDecoder () log session ∧ session.fatalError = none ∧
      increments session.written 0 + session.connUnackedBytes ≠ Arrival.total log :=
  ⟨[], requesting, .other .create rfl (.attach _ rfl), by decide +kernel, by decide +kernel⟩

end Soup.Http2
