import Soup.Http2.Dispatch
import Soup.Http2.Sending

/-!
# Requests and what ends them

A new request takes an id that no frame has, so it fits from its first frame on. A stream that is
removed leaves what was sent of it.
-/

namespace Soup.Http2

open List

/-! ## Header blocks -/

/-- Frames of a stream that have nothing of its body: at most one of them has END_STREAM. -/
structure EmptyFrames (id : ℕ) (ends : Bool) (frames : List Written) : Prop where
  streamId : ∀ frame ∈ frames, frame.streamId = id
  noData : ∀ frame ∈ frames, frame.type = .data → frame.payload = []
  once : EndsOnce frames id
  ended : ends = false → NotEnded frames id

variable {ends : Bool} {frames : List Written}

theorem EmptyFrames.others {id other : ℕ} (h : EmptyFrames id ends frames) (hne : other ≠ id) :
    ∀ frame ∈ frames, frame.isOf other = false := by
  intro frame hframe
  rw [Written.isOf, h.streamId frame hframe, decide_eq_false hne.symm, Bool.false_and]

variable {id : ℕ}

theorem EmptyFrames.sentOf (h : EmptyFrames id ends frames) (other : ℕ) :
    sentOf frames other = [] := by
  rw [Http2.sentOf, flatMap_eq_nil_iff]
  intro frame hframe
  obtain ⟨hmem, hof⟩ := mem_filter.1 hframe
  rw [Written.isDataOf, Bool.and_eq_true, decide_eq_true_eq, decide_eq_true_eq] at hof
  exact h.noData frame hmem hof.2

namespace Session

variable {D : Type}

theorem isSet_headers (last ends : Bool) :
    isSet ((if last then endHeaders else 0) ||| (if ends then endStream else 0)) endStream =
      ends := by
  cases last <;> cases ends <;> decide

variable (session : Session D)

/-- One frame of a header block. -/
theorem writeHeaderFrames_step (id : ℕ) (ends first : Bool) (remaining : Bytes) :
    ∃ flags payload, isSet flags endStream = (first && ends) ∧
      (session.writeHeaderFrames id ends first remaining =
          session.writeControl (if first then .headers else .continuation) flags id payload ∨
        ∃ rest : Bytes, rest.length < remaining.length ∧
          session.writeHeaderFrames id ends first remaining =
            (session.writeControl (if first then .headers else .continuation) flags id
              payload).writeHeaderFrames id ends false rest) := by
  refine ⟨_, remaining.take session.remoteMaxFrameSize, isSet_headers
    (remaining.drop session.remoteMaxFrameSize).isEmpty (first && ends), ?_⟩
  rw [writeHeaderFrames]
  split
  · exact .inl rfl
  next hlast =>
    refine .inr ⟨_, ?_, rfl⟩
    rw [List.isEmpty_iff, drop_eq_nil_iff] at hlast
    have := session.remoteMaxFrameSize.pos
    rw [length_drop]
    omega

/-- The frames after the first one. -/
theorem writeContinuations_spec (id : ℕ) (ends : Bool) (remaining : Bytes) :
    ∃ frames buffer,
      session.writeHeaderFrames id ends false remaining =
        { session with written := session.written ++ frames, writeBuffer := buffer } ∧
      ∀ frame ∈ frames, frame.streamId = id ∧ frame.type = .continuation := by
  induction hn : remaining.length using Nat.strong_induction_on
    generalizing session remaining with
  | _ n ih =>
    subst hn
    obtain ⟨flags, payload, -, heq | ⟨rest, hlt, heq⟩⟩ :=
      session.writeHeaderFrames_step id ends false remaining
    · exact ⟨[⟨.continuation, flags, id, payload, none⟩], _, heq, forall_mem_singleton.2 ⟨rfl, rfl⟩⟩
    · obtain ⟨frames, buffer, heq', hframes⟩ := ih _ hlt
        (session.writeControl .continuation flags id payload) rest rfl
      refine ⟨⟨.continuation, flags, id, payload, none⟩ :: frames, buffer,
        heq.trans (heq'.trans ?_), forall_mem_cons.2 ⟨⟨rfl, rfl⟩, hframes⟩⟩
      simp only [writeControl, writeFrame, queue, append_assoc, singleton_append]

theorem emptyFrames_headers {flags : UInt8} (payload : Bytes)
    (hends : isSet flags endStream = ends)
    (hframes : ∀ frame ∈ frames, frame.streamId = id ∧ frame.type = .continuation) :
    EmptyFrames id ends (⟨.headers, flags, id, payload, none⟩ :: frames) := by
  have hnone : ∀ frame ∈ frames, frame.isOf id = false := by
    intro frame hframe
    rw [Written.isOf, (hframes frame hframe).2]
    simp
  have hfilter : (Written.mk .headers flags id payload none :: frames).filter (Written.isOf id) =
      [⟨.headers, flags, id, payload, none⟩] := by
    rw [filter_cons_of_pos (by simp [Written.isOf]),
      filter_eq_nil_iff.2 fun frame hframe => by simp [hnone frame hframe]]
  refine ⟨forall_mem_cons.2 ⟨rfl, fun frame hframe => (hframes frame hframe).1⟩,
    forall_mem_cons.2 ⟨by simp, fun frame hframe => by simp [(hframes frame hframe).2]⟩, ?_,
    fun hends' => forall_mem_cons.2 ⟨fun _ => hends.trans hends', notEnded_others hnone⟩⟩
  rw [EndsOnce, hfilter]
  exact pairwise_singleton ..

theorem writeHeaderBlock_spec (id : ℕ) (block : Bytes) (ends : Bool) :
    ∃ frames buffer,
      session.writeHeaderBlock id block ends =
        { session with written := session.written ++ frames, writeBuffer := buffer } ∧
      EmptyFrames id ends frames := by
  obtain ⟨flags, payload, hends, heq | ⟨rest, -, heq⟩⟩ :=
    session.writeHeaderFrames_step id ends true block
  · exact ⟨[⟨.headers, flags, id, payload, none⟩], _, heq,
      emptyFrames_headers payload hends (by simp)⟩
  · obtain ⟨frames, buffer, heq', hframes⟩ := writeContinuations_spec
      (session.writeControl .headers flags id payload) id ends rest
    refine ⟨⟨.headers, flags, id, payload, none⟩ :: frames, buffer, heq.trans (heq'.trans ?_),
      emptyFrames_headers payload hends hframes⟩
    simp only [writeControl, writeFrame, queue, append_assoc, singleton_append]

/-! ## Removal -/

theorem swapRemove_perm : ∀ {streams : List Stream}, (∃ old ∈ streams, old.id = id) →
    ∃ old ∈ streams, old.id = id ∧ streams.Perm (old :: swapRemove streams id)
  | [], ⟨_, hold, _⟩ => nomatch hold
  | stream :: rest, ⟨old, hold, hid⟩ => by
    rw [swapRemove]
    split
    next heq =>
      refine ⟨stream, mem_cons_self, heq, ?_⟩
      rcases eq_nil_or_concat rest with rfl | ⟨front, last, rfl⟩
      · exact List.Perm.refl _
      · rw [concat_eq_append, getLast?_concat, dropLast_concat]
        exact (perm_append_singleton last front).cons _
    next hne =>
      rcases mem_cons.1 hold with rfl | hold
      · exact absurd hid hne
      · obtain ⟨found, hfound, hid', hperm⟩ := swapRemove_perm ⟨old, hold, hid⟩
        exact ⟨found, mem_cons_of_mem _ hfound, hid', (hperm.cons stream).trans (List.Perm.swap ..)⟩

section

variable {session session' : Session D} {stream stream' : Stream} {id : ℕ}

/-- A stream is removed that left what it sent. -/
theorem good_removeStream (hbase : session.Base)
    (hplace : ∃ old ∈ session.streams, old.id = stream.id) (hleft : Left session.written stream)
    (hothers : ∀ other ∈ session.streams, other.id ≠ stream.id → session.Fits other) :
    (session.removeStream stream).Good := by
  obtain ⟨old, hold, hid, hperm⟩ := swapRemove_perm hplace
  have hids : (session.streams.map Stream.id ++ session.gone.map Stream.id).Perm
      ((swapRemove session.streams stream.id).map Stream.id ++
        (session.gone ++ [stream]).map Stream.id) := by
    refine ((hperm.map Stream.id).append_right _).trans ?_
    rw [map_append, map_cons, map_singleton, cons_append, hid, ← append_assoc]
    exact (perm_append_singleton _ _).symm
  have hgood : Good { session with
      streams := swapRemove session.streams stream.id, gone := session.gone ++ [stream] } := by
    refine ⟨⟨hbase.initial_le, hbase.conn_nonneg, hbase.conn_le, hids.nodup hbase.nodup,
      fun id hmem => hbase.ids_lt id (hids.mem_iff.2 hmem), hbase.next_pos,
      fun frame hframe => (hids.cons 0).mem_iff.1 (hbase.frames_mem frame hframe), hbase.limits,
      fun left hmem => ?_⟩, fun other hother => ?_⟩
    · rcases mem_append.1 hmem with hmem | hmem
      · exact hbase.gone left hmem
      · exact mem_singleton.1 hmem ▸ hleft
    · refine hothers other (hperm.mem_iff.2 (mem_cons_of_mem _ hother)) fun heq => ?_
      have hnodup := (hperm.map Stream.id).nodup (nodup_append.1 hbase.nodup).1
      rw [map_cons] at hnodup
      exact (nodup_cons.1 hnodup).1 (hid.trans heq.symm ▸ mem_map_of_mem hother)
  rw [removeStream]
  split
  · exact hgood.same ⟨rfl, rfl, rfl, rfl, rfl, rfl⟩
  · exact hgood

theorem Holding.removeStream (h : session.Holding stream) : (session.removeStream stream).Good :=
  good_removeStream h.base h.place h.fits.left h.others

theorem Good.detach (h : session.Good) (id : ℕ) : (session.detach id).Good := by
  rw [Session.detach]
  split
  · exact h
  next stream hfound =>
    exact ((h.holding (mem_of_stream? hfound).1).rstStream .cancel).removeStream

/-! ## New requests -/

/-- The stream of a request, with the bytes it is going to send. -/
def requested (session : Session D) (request : Request) : Stream :=
  match request.payload with
  | .bytes body => { session.newStream request with pendingBody := body }
  | .stream _ _ => session.newStream request

theorem requested_fields (request : Request) :
    (session.requested request).id = session.nextStreamId ∧
      (session.requested request).sendWindow =
        min (session.remoteInitialWindowSize : ℤ) maxWindowSize ∧
      (session.requested request).accepted = 0 ∧
      (session.requested request).awaitingContinue = false ∧
      (session.requested request).client ≠ none ∧
      (session.requested request).unsent = (session.requested request).body := by
  obtain ⟨block, expectContinue, payload⟩ := request
  cases payload <;> exact ⟨rfl, rfl, rfl, rfl, Option.some_ne_none _, rfl⟩

/-- The stream in hand before its first frame. -/
structure Opening (session : Session D) (stream : Stream) : Prop where
  holding : session.Holding stream
  notEnded : NotEnded session.written stream.id
  goes : stream.awaitingContinue = false

theorem Good.opening (h : session.Good) (request : Request) :
    Opening { session with
      nextStreamId := session.nextStreamId + 2
      streams := session.streams ++ [session.newStream request] } (session.requested request) := by
  obtain ⟨hid, hwindow, haccepted, hgoes, hclient, hunsent⟩ := session.requested_fields request
  have hnone : ∀ frame ∈ session.written, frame.isOf (session.requested request).id = false := by
    intro frame hframe
    rw [Written.isOf, decide_eq_false (hid ▸ ne_of_lt (h.base.frames_lt frame hframe)),
      Bool.false_and]
  have hsent : sentOf session.written (session.requested request).id = [] :=
    sentOf_eq_nil fun frame hframe => Written.isDataOf_of_isOf (hnone frame hframe)
  have honce : EndsOnce ([] ++ session.written) (session.requested request).id :=
    EndsOnce.append_others (.nil) hnone
  have hmax := h.base.initial_le
  have hfits : session.Fits (session.requested request) := by
    refine ⟨hclient, ?_, ?_, ?_, ?_, .inl (notEnded_others hnone), honce⟩
    · rw [hwindow, haccepted, hsent, length_nil]
      omega
    · rw [hwindow]
      omega
    · rw [hsent]
      exact Nat.zero_le _
    · rw [hsent, hunsent]
      rfl
  have hids : ∀ id ∈ session.streams.map Stream.id ++ session.gone.map Stream.id,
      id ≠ session.nextStreamId := fun id hmem => ne_of_lt (h.base.ids_lt id hmem).2
  have hperm : ((session.streams ++ [session.newStream request]).map Stream.id ++
      session.gone.map Stream.id).Perm (session.nextStreamId ::
        (session.streams.map Stream.id ++ session.gone.map Stream.id)) := by
    rw [map_append, append_assoc]
    exact perm_middle
  refine ⟨⟨⟨hmax, h.base.conn_nonneg, h.base.conn_le, ?_, ?_, ?_, ?_, h.base.limits, h.base.gone⟩,
    ?_, hfits, ?_⟩, notEnded_others hnone, hgoes⟩
  · exact hperm.symm.nodup (nodup_cons.2 ⟨fun hmem => hids _ hmem rfl, h.base.nodup⟩)
  · intro id hmem
    show 0 < id ∧ id < session.nextStreamId + 2
    have hpos := h.base.next_pos
    rcases mem_cons.1 (hperm.mem_iff.1 hmem) with rfl | hmem
    · omega
    · have := h.base.ids_lt id hmem
      omega
  · exact Nat.succ_pos _
  · exact fun frame hframe => mem_cons.2 ((mem_cons.1 (h.base.frames_mem frame hframe)).imp_right
      fun hmem => hperm.mem_iff.2 (mem_cons_of_mem _ hmem))
  · exact ⟨_, mem_append_right _ (mem_singleton_self _), hid.symm⟩
  · intro other hother hne
    rcases mem_append.1 hother with hother | hother
    · exact h.fits other hother
    · exact absurd (mem_singleton.1 hother ▸ hid.symm) hne

section

variable (h : session.Opening stream)
include h

theorem Opening.control {type : FrameType} (htype : IsControl type)
    (hid : session.Knows id) (flags : UInt8) (payload : Bytes) :
    (session.writeControl type flags id payload).Opening stream :=
  ⟨h.holding.control htype hid flags payload, h.notEnded.append (notEnded_others
    (forall_mem_singleton.2 (htype.isOf ..))), h.goes⟩

theorem Opening.same (hsame : SameSending session session') : session'.Opening stream :=
  ⟨h.holding.same hsame, hsame.written ▸ h.notEnded, h.goes⟩

omit h in
theorem isControl_settings : IsControl .settings := ⟨by decide, by decide⟩

omit h in
theorem isControl_windowUpdate : IsControl .windowUpdate := ⟨by decide, by decide⟩

theorem Opening.writePreface : session.writePreface.Opening stream := by
  have hqueue : (session.queue clientPreface.length).Opening stream :=
    h.same ⟨rfl, rfl, rfl, rfl, rfl, rfl⟩
  have hsettings := hqueue.control isControl_settings knows_zero 0
    (encodeSetting settingsEnablePush 0 ++
      encodeSetting settingsInitialWindowSize localInitialWindowSize ++
      encodeSetting settingsMaxHeaderListSize localMaxHeaderListSize)
  exact (hsettings.control isControl_windowUpdate knows_zero 0 _).same
    ⟨rfl, rfl, rfl, rfl, rfl, rfl⟩

/-- The table size is in the header block. -/
theorem Opening.encoded : Opening { session with pendingHpackEncCapacity := none } stream :=
  h.same ⟨rfl, rfl, rfl, rfl, rfl, rfl⟩

omit h in
/-- Frames without a body: the stream sends nothing behind their END_STREAM. -/
theorem Holding.emptyFrames (h : session.Holding stream) (hnot : NotEnded session.written stream.id)
    (hframes : EmptyFrames stream.id ends frames) (hid : stream'.id = stream.id)
    (hfields : stream'.client = stream.client ∧ stream'.sendWindow = stream.sendWindow ∧
      stream'.accepted = stream.accepted ∧ stream'.body = stream.body ∧
      stream'.unsent = stream.unsent)
    (hended : ends = true → stream'.localClosed = true ∧ stream'.awaitingContinue = false)
    (buffer : ℕ) : Holding { session with
      written := session.written ++ frames, writeBuffer := buffer } stream' := by
  obtain ⟨hclient, hwindow, haccepted, hbody, hunsent⟩ := hfields
  have hsent : sentOf (session.written ++ frames) stream.id = sentOf session.written stream.id := by
    rw [sentOf_append, hframes.sentOf, append_nil]
  refine ⟨Base.append h.base
    (fun frame hframe => hframes.streamId frame hframe ▸ knows_of_place h.place)
    (fun frame hframe hdata => .inl (hframes.noData frame hframe hdata))
    (fun left hleft => hframes.others (h.not_gone left hleft)), hid ▸ h.place, ?_,
    fun other hother hne =>
      (h.others other hother (hid ▸ hne)).append_others (hframes.others (hid ▸ hne))⟩
  obtain ⟨hsome, hwindow', hle, hsentle, hbody', -, -⟩ := h.fits
  rw [Session.Fits]
  refine ⟨hclient ▸ hsome, ?_, hwindow ▸ hle, ?_, ?_, ?_, ?_⟩
  · rw [hwindow, hid, haccepted, hsent]
    exact hwindow'
  · rw [hid, haccepted, hsent]
    exact hsentle
  · rw [hid, hunsent, hbody, hsent]
    exact hbody'
  · rw [hid]
    cases hends : ends with
    | false => exact .inl (hnot.append (hframes.ended hends))
    | true => exact .inr (hended hends)
  · rw [hid]
    exact EndsOnce.append hnot hframes.once

theorem Opening.writeHeaderBlock (block : Bytes) (ends : Bool)
    (hid : stream'.id = stream.id) (hfields : stream'.client = stream.client ∧
      stream'.sendWindow = stream.sendWindow ∧ stream'.accepted = stream.accepted ∧
      stream'.body = stream.body ∧ stream'.unsent = stream.unsent)
    (hended : ends = true → stream'.localClosed = true ∧ stream'.awaitingContinue = false) :
    (session.writeHeaderBlock stream.id block ends).Holding stream' := by
  obtain ⟨frames, buffer, heq, hframes⟩ := session.writeHeaderBlock_spec stream.id block ends
  rw [heq]
  exact h.holding.emptyFrames h.notEnded hframes hid hfields hended buffer

end

theorem Opening.writeRequest {request : Request} (h : session.Opening (session'.requested request))
    (block : Bytes) :
    (session.writeRequest (session'.newStream request) request block).1.Holding
      (session.writeRequest (session'.newStream request) request block).2 := by
  obtain ⟨made, expectContinue, payload⟩ := request
  cases payload with
  | stream buffer ended =>
    exact h.writeHeaderBlock block false rfl ⟨rfl, rfl, rfl, rfl, rfl⟩ fun hfalse =>
      absurd hfalse Bool.false_ne_true
  | bytes body =>
    rw [Session.writeRequest]
    dsimp only
    split
    · have hheld : (session.writeHeaderBlock session'.nextStreamId block false).Holding
          { session'.newStream ⟨made, expectContinue, .bytes body⟩ with
            awaitingContinue := expectContinue, pendingBody := body } :=
        h.writeHeaderBlock block false rfl ⟨rfl, rfl, rfl, rfl, rfl⟩ fun hfalse =>
          absurd hfalse Bool.false_ne_true
      exact hheld.drainSendBody usizeMax
    next hnil =>
      obtain rfl := not_not.1 hnil
      exact h.writeHeaderBlock block true rfl ⟨rfl, rfl, rfl, rfl, rfl⟩ fun _ =>
        ⟨localClosed_sentEndStream _, rfl⟩

/-- The stream is removed before its first frame. -/
theorem Opening.removeStream {request : Request}
    (h : session.Opening (session'.requested request)) :
    (session.removeStream (session'.newStream request)).Good := by
  obtain ⟨hbase, hplace, hfits, hothers⟩ := h.holding
  have hleft := hfits.left
  obtain ⟨made, expectContinue, payload⟩ := request
  cases payload <;> exact good_removeStream hbase hplace ⟨hleft.sent, hleft.once⟩ hothers

section

variable (h : session.Good)
include h

theorem Good.attach (request : Request) : (session.attach request).Good := by
  have hopening := h.opening request
  have hpreface : ∀ {start : Session D}, start.Opening (session.requested request) →
      (if session.prefaceSent then start else start.writePreface).Opening
        (session.requested request) := by
    intro start hstart
    split
    · exact hstart
    · exact hstart.writePreface
  rw [Session.attach]
  split
  · exact (hpreface hopening).removeStream
  · exact (hpreface hopening).removeStream.same ⟨rfl, rfl, rfl, rfl, rfl, rfl⟩
  next block _ =>
    exact ((hpreface hopening).encoded.writeRequest block).put

/-! ## The request body -/

theorem Good.appendBody (id : ℕ) (bytes : Bytes) : (session.appendBody id bytes).Good := by
  rw [Session.appendBody]
  split
  · exact h
  rename_i stream hfound
  split
  next buffer ended hclient =>
    have hholding := h.holding (mem_of_stream? hfound).1
    obtain ⟨hsome, hwindow, hle, hsentle, hbody, hended, honce⟩ := hholding.fits
    refine Holding.put
      ⟨hholding.base, hholding.place, ⟨Option.some_ne_none _, hwindow, hle, hsentle,
      ?_, hended, honce⟩, hholding.others⟩
    show sentOf session.written stream.id ++ (buffer ++ bytes) = stream.body ++ bytes
    rw [← hbody, Stream.unsent, hclient, append_assoc]
  · exact h

/-- The producer says whether the end is there. -/
theorem Good.marked (hfound : session.stream? id = some stream) {buffer : Bytes}
    {ended : Bool} (hclient : stream.client = some (.stream buffer ended)) (ends : Bool) :
    session.Holding { stream with client := some (.stream buffer ends) } := by
  have hholding := h.holding (mem_of_stream? hfound).1
  obtain ⟨hsome, hwindow, hle, hsentle, hbody, hended, honce⟩ := hholding.fits
  have hunsent : stream.unsent = buffer := by rw [Stream.unsent, hclient]
  exact ⟨hholding.base, hholding.place, ⟨Option.some_ne_none _, hwindow, hle, hsentle,
    hunsent ▸ hbody, hended, honce⟩, hholding.others⟩

theorem Good.streamRequestBody (id : ℕ) (message : WriteMessageType) :
    (session.streamRequestBody id message).Good := by
  rw [Session.streamRequestBody]
  split
  · exact h
  rename_i stream hfound
  split
  next buffer ended hclient =>
    have hmarked := h.marked hfound hclient (message = .end)
    split
    · exact hmarked.put.detach id
    · refine ((hmarked.put.holding ?_).drainSendBody usizeMax).put
      rw [putStream, mem_map]
      exact ⟨stream, (mem_of_stream? hfound).1, if_pos rfl⟩
  · exact h

/-! ## The rest -/

theorem Good.flush (wrote : Option ℕ) : (session.flush wrote).Good := by
  cases wrote <;> exact h.same ⟨rfl, rfl, rfl, rfl, rfl, rfl⟩

/-- Streams change where nothing is sent. -/
theorem Good.map {f : Stream → Stream} (hcalm : ∀ stream, Calm stream (f stream)) :
    Good { session with streams := session.streams.map f } := by
  have hids : (session.streams.map f).map Stream.id = session.streams.map Stream.id := by
    rw [map_map]
    exact map_congr_left fun stream _ => (hcalm stream).id
  refine ⟨?_, fun stream hstream => ?_⟩
  · rw [Base, hids]
    exact h.base
  · obtain ⟨old, hold, rfl⟩ := mem_map.1 hstream
    exact (h.fits old hold).calm (hcalm old)

theorem Good.replenishWindow (isReceivePaused : ℕ → Bool) :
    (session.replenishWindow isReceivePaused).Good := by
  have hupdates : ∀ (updates : List Stream) {session : Session D}, session.Good →
      (∀ stream ∈ updates, session.Knows stream.id) →
      (updates.foldl (fun session stream =>
        session.writeWindowUpdate stream.id stream.unackedBytes) session).Good := by
    intro updates
    induction updates with
    | nil => exact fun hgood _ => hgood
    | cons stream updates ih =>
      intro session hgood hknows
      exact ih (hgood.control isControl_windowUpdate (hknows stream mem_cons_self) 0 _)
        fun other hother => hknows other (mem_cons_of_mem _ hother)
  have hcalm : ∀ (due : Stream → Bool) (stream : Stream),
      Calm stream (if due stream then { stream with unackedBytes := 0 } else stream) := by
    intro due stream
    split
    · exact ⟨rfl, rfl, rfl, rfl, rfl, rfl, fun h => h, fun h => h⟩
    · exact .refl stream
  rw [Session.replenishWindow]
  split
  · have hgood : Good { session.writeWindowUpdate 0 session.connUnackedBytes with
        connUnackedBytes := 0 } :=
      (h.control isControl_windowUpdate knows_zero 0 _).same ⟨rfl, rfl, rfl, rfl, rfl, rfl⟩
    exact hupdates _ (hgood.map (hcalm _)) fun stream hstream =>
      knows_of_place ⟨_, mem_map_of_mem (mem_of_mem_filter hstream), by split <;> rfl⟩
  · exact hupdates _ (h.map (hcalm _)) fun stream hstream =>
      knows_of_place ⟨_, mem_map_of_mem (mem_of_mem_filter hstream), by split <;> rfl⟩

end

end

end Session

end Soup.Http2
