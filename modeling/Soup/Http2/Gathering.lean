import Soup.Http2.Receiving

/-!
# The block that is gathered

Between two reads streams come and go, and what the frames gathered of a header block stays
(`Untouched`): it is in the stream that the frames are for, or it is the orphan's.
-/

namespace Soup.Http2

open List Option Function

namespace Session

variable {D : Type}

/-- What is gathered for a stream. -/
def blockOf (session : Session D) (id : ℕ) : Option Bytes :=
  (session.stream? id).map Stream.headerBlock

/-- The stream of an open block, with what is gathered of the block. -/
def gathered (session : Session D) : Option (ℕ × Bytes) :=
  if session.expectingContinuation = 0 then none
  else some (session.expectingContinuation,
    (session.blockOf session.expectingContinuation).getD session.orphanHeaderBlock)

/-- Nothing of the decoder and of the open block changes. -/
structure Untouched (session session' : Session D) : Prop where
  hpack : session'.hpack = session.hpack
  panicked : session'.panicked = session.panicked
  fatalError : session'.fatalError = session.fatalError
  expectingContinuation : session'.expectingContinuation = session.expectingContinuation
  readBuffer : session'.readBuffer = session.readBuffer
  nextStreamId : session.nextStreamId ≤ session'.nextStreamId
  gathered : session.expectingContinuation < session.nextStreamId →
    session'.gathered = session.gathered

/-- And what is gathered stays where it is. -/
structure Aside (session session' : Session D) : Prop where
  hpack : session'.hpack = session.hpack
  panicked : session'.panicked = session.panicked
  fatalError : session'.fatalError = session.fatalError
  expectingContinuation : session'.expectingContinuation = session.expectingContinuation
  readBuffer : session'.readBuffer = session.readBuffer
  orphanHeaderBlock : session'.orphanHeaderBlock = session.orphanHeaderBlock
  nextStreamId : session.nextStreamId ≤ session'.nextStreamId
  blockOf : ∀ id < session.nextStreamId, session'.blockOf id = session.blockOf id

section

variable {session session' session'' : Session D} {stream stream' : Stream} {id : ℕ}

theorem Untouched.trans (h : Untouched session session') (h' : Untouched session' session'') :
    Untouched session session'' :=
  ⟨h'.hpack.trans h.hpack, h'.panicked.trans h.panicked, h'.fatalError.trans h.fatalError,
    h'.expectingContinuation.trans h.expectingContinuation, h'.readBuffer.trans h.readBuffer,
    h.nextStreamId.trans h'.nextStreamId, fun hexpects => (h'.gathered (h.expectingContinuation ▸
      lt_of_lt_of_le hexpects h.nextStreamId)).trans (h.gathered hexpects)⟩

theorem Aside.refl (session : Session D) : Aside session session :=
  ⟨rfl, rfl, rfl, rfl, rfl, rfl, le_rfl, fun _ _ => rfl⟩

theorem Aside.trans (h : Aside session session') (h' : Aside session' session'') :
    Aside session session'' :=
  ⟨h'.hpack.trans h.hpack, h'.panicked.trans h.panicked, h'.fatalError.trans h.fatalError,
    h'.expectingContinuation.trans h.expectingContinuation, h'.readBuffer.trans h.readBuffer,
    h'.orphanHeaderBlock.trans h.orphanHeaderBlock, h.nextStreamId.trans h'.nextStreamId,
    fun id hid => (h'.blockOf id (lt_of_lt_of_le hid h.nextStreamId)).trans (h.blockOf id hid)⟩

theorem Aside.untouched (h : Aside session session') : Untouched session session' := by
  refine ⟨h.hpack, h.panicked, h.fatalError, h.expectingContinuation, h.readBuffer, h.nextStreamId,
    fun hexpects => ?_⟩
  rw [gathered, gathered, h.expectingContinuation, h.orphanHeaderBlock, h.blockOf _ hexpects]

/-! ## Looking up -/

theorem stream?_putStream : (session.putStream stream).stream? id =
    if id = stream.id then (session.stream? id).map fun _ => stream else session.stream? id := by
  have hfind : (fun other : Stream => decide (other.id = id)) ∘
      (fun other => if other.id = stream.id then stream else other) =
      fun other => decide (other.id = id) := by
    funext other
    rw [comp_apply]
    split
    next hsame =>
      rw [hsame]
    · rfl
  rw [stream?, putStream, find?_map, hfind, stream?]
  cases hfound : session.streams.find? fun other => decide (other.id = id) with
  | none => exact (ite_self none).symm
  | some other =>
    have hother : other.id = id := by simpa using find?_some hfound
    rw [map_some, map_some, hother]
    split <;> rfl

theorem stream?_of_mem (hnodup : (session.streams.map Stream.id).Nodup)
    (hmem : stream ∈ session.streams) : session.stream? stream.id = some stream := by
  cases hfound : session.stream? stream.id with
  | none =>
    have hno := find?_eq_none.1 hfound stream hmem
    simp at hno
  | some other =>
    obtain ⟨hother, hid⟩ := mem_of_stream? hfound
    rw [inj_on_of_nodup_map hnodup hother hmem hid]

/-- A stream comes back with what it gathered. -/
theorem aside_put (hfound : session.stream? id = some stream) (hid : stream'.id = stream.id)
    (hblock : stream'.headerBlock = stream.headerBlock) :
    Aside session (session.putStream stream') := by
  refine ⟨rfl, rfl, rfl, rfl, rfl, rfl, le_rfl, fun other _ => ?_⟩
  rw [blockOf, stream?_putStream, blockOf]
  split
  next hother =>
    rw [hother, hid, (mem_of_stream? hfound).2, hfound, map_some, map_some,
      map_some, hblock]
  · rfl

/-- The sessions are alike, but for what was written and the windows. -/
structure Wrote (session session' : Session D) (stream stream' : Stream) : Prop where
  aside : Aside session session'
  streams : session'.streams = session.streams
  id : stream'.id = stream.id
  headerBlock : stream'.headerBlock = stream.headerBlock

theorem Drained.wrote (h : session.Drained session' stream stream') :
    Wrote session session' stream stream' := by
  obtain ⟨-, -, -, ends, frames, total, buffer, client, pending, rfl, hstream, -, -, -⟩ := h
  refine ⟨⟨rfl, rfl, rfl, rfl, rfl, rfl, le_rfl, fun _ _ => rfl⟩, rfl, ?_, ?_⟩
  all_goals
    rcases hstream with ⟨rfl, -⟩ | rfl <;> rfl

theorem wrote_drainSendBody (session : Session D) (stream : Stream) (cap : ℕ) :
    Wrote session (session.drainSendBody stream cap).1 stream
      (session.drainSendBody stream cap).2 := by
  rcases session.drainSendBody_cases stream cap with heq | hdrained
  · rw [heq]
    exact ⟨.refl session, rfl, rfl, rfl⟩
  · exact hdrained.wrote

theorem Wrote.put (h : Wrote session session' stream stream') {old : Stream}
    (hfound : session.stream? stream.id = some old)
    (hblock : stream.headerBlock = old.headerBlock) :
    Aside session (session'.putStream stream') := by
  have hfound' : session'.stream? stream.id = some old := by
    rw [stream?, h.streams]
    exact hfound
  exact h.aside.trans (aside_put hfound' (h.id.trans (mem_of_stream? hfound).2.symm)
    (h.headerBlock.trans hblock))

/-! ## Steps that read nothing -/

theorem Good.drainAt_aside (h : session.Good) (slice : ℕ) (progressed : Bool) (i : ℕ) :
    Aside session (Session.drainAt slice (session, progressed) i).1 := by
  rw [Session.drainAt]
  split
  · exact .refl session
  rename_i stream hget
  split
  · exact .refl session
  · exact (session.wrote_drainSendBody stream slice).put (stream?_of_mem
      (nodup_append.1 h.base.nodup).1 (mem_of_getElem? hget)) rfl

theorem Good.drainLoop_aside (h : session.Good) {slice fuel : ℕ} {result : Session D × Bool}
    (hloop : Session.drainLoop slice fuel session = some result) : Aside session result.1 :=
  (drainLoop_keeps (fun session' => session'.Good ∧ Aside session session')
    (fun _ progressed i h' =>
    ⟨(h'.1.drainAt slice progressed i).1, h'.2.trans (h'.1.drainAt_aside slice progressed i)⟩)
    ⟨h, .refl session⟩ hloop).2

theorem aside_appendBody (id : ℕ) (bytes : Bytes) :
    Aside session (session.appendBody id bytes) := by
  rw [appendBody]
  split
  · exact .refl session
  rename_i stream hfound
  split
  · exact aside_put hfound rfl rfl
  · exact .refl session

theorem aside_deliverStream (id : ℕ) (takesBody : Bool) :
    Aside session (session.deliverStream id takesBody) := by
  rw [deliverStream]
  split
  · exact .refl session
  next stream hfound =>
    exact aside_put hfound rfl rfl

theorem aside_probeLiveness (flushed : Bool) : Aside session (session.probeLiveness flushed) := by
  rw [probeLiveness]
  split
  · exact .refl session
  split <;> exact ⟨rfl, rfl, rfl, rfl, rfl, rfl, le_rfl, fun _ _ => rfl⟩

/-- Streams keep what they gathered. -/
theorem aside_map {f : Stream → Stream} (hid : ∀ stream, (f stream).id = stream.id)
    (hblock : ∀ stream, (f stream).headerBlock = stream.headerBlock) :
    Aside session { session with streams := session.streams.map f } := by
  refine ⟨rfl, rfl, rfl, rfl, rfl, rfl, le_rfl, fun id _ => ?_⟩
  have hfind : (fun other : Stream => decide (other.id = id)) ∘ f = fun other =>
      decide (other.id = id) :=
    funext fun other => by rw [comp_apply, hid]
  rw [blockOf, blockOf, stream?, stream?, find?_map, hfind, Option.map_map]
  exact congrArg (Option.map · _) (funext hblock)

theorem aside_writeWindowUpdates (updates : List Stream) : ∀ session : Session D,
    Aside session (updates.foldl (fun session stream =>
      session.writeWindowUpdate stream.id stream.unackedBytes) session) := by
  induction updates with
  | nil => exact .refl
  | cons stream updates ih =>
    refine fun session => Aside.trans ?_ (ih _)
    exact ⟨rfl, rfl, rfl, rfl, rfl, rfl, le_rfl, fun _ _ => rfl⟩

theorem aside_replenishWindow (isReceivePaused : ℕ → Bool) :
    Aside session (session.replenishWindow isReceivePaused) := by
  have hconn : Aside session
      (if session.connUnackedBytes ≥ localInitialWindowSize / 2 then
        { session.writeWindowUpdate 0 session.connUnackedBytes with connUnackedBytes := 0 }
      else session) := by
    split
    · exact ⟨rfl, rfl, rfl, rfl, rfl, rfl, le_rfl, fun _ _ => rfl⟩
    · exact .refl session
  rw [replenishWindow]
  refine hconn.trans (Aside.trans (aside_map ?_ ?_) (aside_writeWindowUpdates _ _))
  all_goals
    intro stream
    split <;> rfl

theorem wrote_rstStream (session : Session D) (stream : Stream) (code : ErrorCode) :
    Wrote session (session.rstStream stream code).1 stream (session.rstStream stream code).2 := by
  rw [rstStream]
  split <;> exact ⟨⟨rfl, rfl, rfl, rfl, rfl, rfl, le_rfl, fun _ _ => rfl⟩, rfl, rfl, rfl⟩

/-! ## Removal -/

section

variable (hnodup : (session.streams.map Stream.id).Nodup)
include hnodup

theorem stream?_eq_some_iff :
    session.stream? id = some stream ↔ stream ∈ session.streams ∧ stream.id = id :=
  ⟨mem_of_stream?, fun ⟨hmem, hid⟩ => hid ▸ stream?_of_mem hnodup hmem⟩

theorem stream?_removeStream (hplace : ∃ old ∈ session.streams, old.id = stream.id) :
    (session.removeStream stream).stream? id =
      if id = stream.id then none else session.stream? id := by
  obtain ⟨old, hold, hid, hperm⟩ := swapRemove_perm hplace
  have hids := (hperm.map Stream.id).nodup hnodup
  rw [map_cons, nodup_cons] at hids
  have hstreams : (session.removeStream stream).streams = swapRemove session.streams stream.id := by
    rw [removeStream]
    split <;> rfl
  refine ext fun other => ?_
  rw [stream?_eq_some_iff (hstreams ▸ hids.2), hstreams]
  split
  next heq =>
    refine iff_of_false (fun hother => hids.1 ?_) fun h => by cases h
    exact (hother.2.trans (heq.trans hid.symm)) ▸ mem_map_of_mem hother.1
  next hne =>
    rw [stream?_eq_some_iff hnodup, hperm.mem_iff, mem_cons]
    refine and_congr_left fun hotherId => ⟨.inr, fun hother => hother.resolve_left ?_⟩
    rintro rfl
    exact hne (hotherId.symm.trans hid)

/-- The stream in hand has what is gathered for it, and leaves it to the orphan's. -/
theorem untouched_removeStream
    (hfound : session.stream? stream.id = some stream')
    (hblock : stream.headerBlock = stream'.headerBlock) :
    Untouched session (session.removeStream stream) := by
  have hplace : ∃ old ∈ session.streams, old.id = stream.id := ⟨stream', mem_of_stream? hfound⟩
  have hexpects : (session.removeStream stream).expectingContinuation =
      session.expectingContinuation := by
    rw [removeStream]
    split <;> rfl
  have hfields : (session.removeStream stream).hpack = session.hpack ∧
      (session.removeStream stream).panicked = session.panicked ∧
      (session.removeStream stream).fatalError = session.fatalError ∧
      (session.removeStream stream).readBuffer = session.readBuffer ∧
      (session.removeStream stream).nextStreamId = session.nextStreamId := by
    rw [removeStream]
    split <;> exact ⟨rfl, rfl, rfl, rfl, rfl⟩
  obtain ⟨hhpack, hpanicked, hfatal, hread, hnext⟩ := hfields
  refine ⟨hhpack, hpanicked, hfatal, hexpects, hread, le_of_eq hnext.symm, fun _ => ?_⟩
  have horphan : (session.removeStream stream).orphanHeaderBlock =
      if session.expectingContinuation = stream.id then stream.headerBlock
      else session.orphanHeaderBlock := by
    rw [removeStream]
    split <;> rfl
  rw [gathered, gathered, hexpects, blockOf, stream?_removeStream hnodup hplace, horphan]
  by_cases heq : session.expectingContinuation = stream.id
  · rw [if_pos heq, if_pos heq, heq, blockOf, hfound, map_none, map_some,
      getD_none, getD_some, hblock]
  · rw [if_neg heq, if_neg heq, blockOf]

end

theorem Good.untouched_detach (h : session.Good) (id : ℕ) :
    Untouched session (session.detach id) := by
  rw [Session.detach]
  split
  · exact (Aside.refl session).untouched
  next stream hfound =>
    have hwrote := session.wrote_rstStream stream .cancel
    have hfound' : (session.rstStream stream .cancel).1.stream?
        (session.rstStream stream .cancel).2.id = some stream := by
      rw [stream?, hwrote.streams, hwrote.id, (mem_of_stream? hfound).2]
      exact hfound
    refine (hwrote.aside.untouched).trans (untouched_removeStream ?_ hfound' hwrote.headerBlock)
    rw [hwrote.streams]
    exact (nodup_append.1 h.base.nodup).1

theorem Good.untouched_streamRequestBody (h : session.Good) (id : ℕ) (message : WriteMessageType) :
    Untouched session (session.streamRequestBody id message) := by
  rw [Session.streamRequestBody]
  split
  · exact (Aside.refl session).untouched
  rename_i stream hfound
  split
  next buffer ended hclient =>
    have hmarked := h.marked hfound hclient (message = .end)
    have hput : Aside session (session.putStream
        { stream with client := some (.stream buffer (message = .end)) }) :=
        aside_put hfound rfl rfl
    split
    · exact (hput.untouched).trans (hmarked.put.untouched_detach id)
    · have hwrote := (session.putStream { stream with
        client := some (.stream buffer (message = .end)) }).wrote_drainSendBody
        { stream with client := some (.stream buffer (message = .end)) } usizeMax
      refine (hput.trans (hwrote.put ?_ rfl)).untouched
      rw [stream?_putStream, if_pos rfl, (mem_of_stream? hfound).2, hfound]
      rfl
  · exact (Aside.refl session).untouched

/-! ## A new request -/

theorem wrote_writeRequest (session : Session D) (stream : Stream) (request : Request)
    (block : Bytes) : Wrote session (session.writeRequest stream request block).1 stream
      (session.writeRequest stream request block).2 := by
  have hheaders : ∀ (ends : Bool) (stream' : Stream), stream'.id = stream.id →
      stream'.headerBlock = stream.headerBlock →
      Wrote session (session.writeHeaderBlock stream.id block ends) stream stream' := by
    intro ends stream' hid hblock
    obtain ⟨frames, buffer, heq, -⟩ := session.writeHeaderBlock_spec stream.id block ends
    rw [heq]
    exact ⟨⟨rfl, rfl, rfl, rfl, rfl, rfl, le_rfl, fun _ _ => rfl⟩, rfl, hid, hblock⟩
  rw [writeRequest]
  split
  · exact hheaders false _ rfl rfl
  next body _ =>
    split
    · obtain ⟨haside, hstreams, hid, hblock⟩ := hheaders false { stream with
        awaitingContinue := request.expectContinue, pendingBody := body } rfl rfl
      obtain ⟨haside', hstreams', hid', hblock'⟩ := Session.wrote_drainSendBody
        (session.writeHeaderBlock stream.id block false) { stream with
          awaitingContinue := request.expectContinue, pendingBody := body } usizeMax
      exact ⟨haside.trans haside', hstreams'.trans hstreams, hid', hblock'⟩
    · exact hheaders true _ rfl rfl

theorem aside_newStream (request : Request) : Aside session { session with
    nextStreamId := session.nextStreamId + 2
    streams := session.streams ++ [session.newStream request] } := by
  refine ⟨rfl, rfl, rfl, rfl, rfl, rfl, Nat.le_add_right _ 2, fun id hid => ?_⟩
  have hnone : [session.newStream request].find? (fun other => decide (other.id = id)) = none := by
    rw [find?_singleton, if_neg]
    exact fun hsame => ne_of_gt hid (of_decide_eq_true hsame)
  rw [blockOf, stream?, find?_append, hnone, or_none]
  rfl

theorem aside_ready (session : Session D) (prefaceSent : Bool) :
    Aside session (if prefaceSent then session else session.writePreface) ∧
      (if prefaceSent then session else session.writePreface).streams = session.streams := by
  split
  · exact ⟨.refl session, rfl⟩
  · exact ⟨⟨rfl, rfl, rfl, rfl, rfl, rfl, le_rfl, fun _ _ => rfl⟩, rfl⟩

theorem Good.untouched_attach (h : session.Good) (request : Request) :
    Untouched session (session.attach request) := by
  have hnodup := (nodup_append.1 (h.opening request).holding.base.nodup).1
  obtain ⟨haside, hstreams⟩ := aside_ready { session with
    nextStreamId := session.nextStreamId + 2
    streams := session.streams ++ [session.newStream request] } session.prefaceSent
  have hready := (aside_newStream request).trans haside
  have hfound : (if session.prefaceSent then ({ session with
        nextStreamId := session.nextStreamId + 2
        streams := session.streams ++ [session.newStream request] } : Session D)
      else writePreface { session with
        nextStreamId := session.nextStreamId + 2
        streams := session.streams ++ [session.newStream request] }).stream?
      (session.newStream request).id = some (session.newStream request) := by
    refine stream?_of_mem (hstreams ▸ hnodup) ?_
    rw [hstreams]
    exact mem_append_right _ (mem_singleton_self _)
  have hremoved := (hready.untouched).trans
    (untouched_removeStream (hstreams ▸ hnodup) hfound rfl)
  rw [Session.attach]
  split
  · exact hremoved
  · exact ⟨hremoved.hpack, hremoved.panicked, hremoved.fatalError, hremoved.expectingContinuation,
      hremoved.readBuffer, hremoved.nextStreamId, hremoved.gathered⟩
  next block _ =>
    refine (hready.trans (Aside.trans ?_ ((wrote_writeRequest _ _ request block).put ?_
      rfl))).untouched
    · exact ⟨rfl, rfl, rfl, rfl, rfl, rfl, le_rfl, fun _ _ => rfl⟩
    · exact hfound

end

end Session

end Soup.Http2
