import Soup.Http2.Counted

/-!
# The counters of received data

`Counts` is what the counters and the written WINDOW_UPDATE frames have of the logged arrivals. What
acknowledges nothing leaves it (`Counts.still`), a DATA frame is added to it
(`Counts.dispatchData`), and so are all the frames of a read; an acknowledgement moves what a
counter has to the increments that were written.
-/

namespace Soup.Http2

open List Session Arrival

variable {D : Type}

/-- What is counted of the logged arrivals. -/
structure Counts (log : List (Arrival D)) (session : Session D) : Prop where
  next_pos : 0 < session.nextStreamId
  ids : ∀ stream ∈ session.streams, 0 < stream.id ∧ stream.id < session.nextStreamId
  updates_lt : ∀ frame ∈ updates session.written, frame.streamId < session.nextStreamId
  fresh : ∀ f ∈ log, f.accepted = true → f.streamId < session.nextStreamId
  conn_max : session.connUnackedBytes ≤ u32Max
  conn_le : increments session.written 0 + session.connUnackedBytes ≤ session.opening + total log
  conn_iff : increments session.written 0 + session.connUnackedBytes = session.opening + total log ↔
    ConnFits log
  stream_max : ∀ stream ∈ session.streams, stream.unackedBytes ≤ u32Max
  stream_le : ∀ stream ∈ session.streams,
    increments session.written stream.id + stream.unackedBytes ≤ acceptedOf stream.id log
  stream_iff : ∀ stream ∈ session.streams,
    increments session.written stream.id + stream.unackedBytes = acceptedOf stream.id log ↔
      StreamFits stream.id log
  window : Respects log → total log ≤ defaultWindowSize + increments session.written 0 ∧
    ∀ id, totalOf id log ≤ localInitialWindowSize + increments session.written id
  positive : ∀ frame ∈ updates session.written, bigEndian frame.payload ≠ 0
  small : Respects log → ∀ frame ∈ updates session.written,
    bigEndian frame.payload ≤ localInitialWindowSize

section

variable {log : List (Arrival D)} {session session' : Session D} {stream : Stream}

theorem counts_create (hpack : D) : Counts [] (create hpack) where
  next_pos := one_pos
  ids stream h := by cases h
  updates_lt frame h := by cases h
  fresh f h := by cases h
  conn_max := Nat.zero_le _
  conn_le := Nat.zero_le _
  conn_iff := iff_of_true rfl throughout_nil
  stream_max stream h := by cases h
  stream_le stream h := by cases h
  stream_iff stream h := by cases h
  window _ := ⟨Nat.zero_le _, fun _ => Nat.zero_le _⟩
  positive frame h := by cases h
  small _ frame h := by cases h

/-- What acknowledges nothing. -/
theorem Counts.still (h : Counts log session) (hstill : Session.Still session session') :
    Counts log session' := by
  have hincrements : ∀ id, increments session'.written id = increments session.written id :=
    increments_congr hstill.updates
  have hopening : session'.opening = session.opening := by
    rw [opening, opening, hstill.prefaceSent]
  refine
    { next_pos := hstill.nextStreamId ▸ h.next_pos
      ids := fun stream' hstream' => ?_
      updates_lt := hstill.nextStreamId ▸ hstill.updates ▸ h.updates_lt
      fresh := hstill.nextStreamId ▸ h.fresh
      conn_max := hstill.connUnackedBytes ▸ h.conn_max
      conn_le := ?_
      conn_iff := ?_
      stream_max := fun stream' hstream' => ?_
      stream_le := fun stream' hstream' => ?_
      stream_iff := fun stream' hstream' => ?_
      window := fun hrespects => ?_
      positive := hstill.updates ▸ h.positive
      small := hstill.updates ▸ h.small }
  · obtain ⟨stream, hstream, hid, -⟩ := hstill.streams stream' hstream'
    rw [hid, hstill.nextStreamId]
    exact h.ids stream hstream
  · rw [hincrements, hopening, hstill.connUnackedBytes]
    exact h.conn_le
  · rw [hincrements, hopening, hstill.connUnackedBytes]
    exact h.conn_iff
  · obtain ⟨stream, hstream, -, hunacked⟩ := hstill.streams stream' hstream'
    exact hunacked ▸ h.stream_max stream hstream
  · obtain ⟨stream, hstream, hid, hunacked⟩ := hstill.streams stream' hstream'
    rw [hincrements, hid, hunacked]
    exact h.stream_le stream hstream
  · obtain ⟨stream, hstream, hid, hunacked⟩ := hstill.streams stream' hstream'
    rw [hincrements, hid, hunacked]
    exact h.stream_iff stream hstream
  · rw [hincrements]
    refine ⟨(h.window hrespects).1, fun id => ?_⟩
    rw [hincrements]
    exact (h.window hrespects).2 id

/-! ## DATA -/

/-- The connection counts a frame, and the stream does that accepts it. -/
theorem Counts.arrive (h : Counts log session) {id len : ℕ} {streams : List Stream}
    (hid : (Arrival.mk session id len).accepted = true → id < session.nextStreamId)
    (hstreams : ∀ stream' ∈ streams, ∃ stream ∈ session.streams, stream'.id = stream.id ∧
      (id = stream.id ∧ (Arrival.mk session id len).accepted = true ∧
          stream'.unackedBytes = min (stream.unackedBytes + len) u32Max ∨
        ¬(id = stream.id ∧ (Arrival.mk session id len).accepted = true) ∧
          stream'.unackedBytes = stream.unackedBytes)) :
    Counts (log ++ [⟨session, id, len⟩]) { session with
      connUnackedBytes := min (session.connUnackedBytes + len) u32Max, streams := streams } := by
  have hmax := h.conn_max
  have hle := h.conn_le
  refine
    { next_pos := h.next_pos
      ids := fun stream' hstream' => ?_
      updates_lt := h.updates_lt
      fresh := fun f hf haccepted => ?_
      conn_max := Nat.min_le_right _ _
      conn_le := ?_
      conn_iff := ?_
      stream_max := fun stream' hstream' => ?_
      stream_le := fun stream' hstream' => ?_
      stream_iff := fun stream' hstream' => ?_
      window := fun hrespects => ?_
      positive := h.positive
      small := fun hrespects => h.small (throughout_concat.1 hrespects).1 }
  · obtain ⟨stream, hstream, heq, -⟩ := hstreams stream' hstream'
    rw [heq]
    exact h.ids stream hstream
  · rcases mem_append.1 hf with hf | hf
    · exact h.fresh f hf haccepted
    · obtain rfl := mem_singleton.1 hf
      exact hid haccepted
  · rw [total_concat]
    show increments session.written 0 + min (session.connUnackedBytes + len) u32Max ≤
      session.opening + (total log + len)
    omega
  · rw [ConnFits, throughout_concat, ← ConnFits, ← h.conn_iff, total_concat]
    show increments session.written 0 + min (session.connUnackedBytes + len) u32Max =
      session.opening + (total log + len) ↔ _ ∧
        session.opening + total log + len ≤ increments session.written 0 + u32Max
    omega
  · obtain ⟨stream, hstream, -, ⟨-, -, hunacked⟩ | ⟨-, hunacked⟩⟩ := hstreams stream' hstream'
    · exact hunacked ▸ Nat.min_le_right _ _
    · exact hunacked ▸ h.stream_max stream hstream
  · obtain ⟨stream, hstream, heq, ⟨hof, haccepted, hunacked⟩ | ⟨hnot, hunacked⟩⟩ :=
      hstreams stream' hstream'
    · have := h.stream_le stream hstream
      rw [heq, hunacked, Arrival.acceptedOf_concat_of_pos hof haccepted]
      show increments session.written stream.id + _ ≤ acceptedOf stream.id log + len
      omega
    · rw [heq, hunacked, acceptedOf_concat_of_neg hnot]
      exact h.stream_le stream hstream
  · obtain ⟨stream, hstream, heq, ⟨hof, haccepted, hunacked⟩ | ⟨hnot, hunacked⟩⟩ :=
      hstreams stream' hstream'
    · have := h.stream_le stream hstream
      have := h.stream_max stream hstream
      have hlast : (∀ _ : id = stream.id, (Arrival.mk session id len).accepted = true →
          acceptedOf stream.id log + len ≤ increments session.written stream.id + u32Max) ↔
          acceptedOf stream.id log + len ≤ increments session.written stream.id + u32Max :=
        ⟨fun hall => hall hof haccepted, fun hle _ _ => hle⟩
      rw [heq, hunacked, acceptedOf_concat_of_pos hof haccepted, StreamFits, throughout_concat,
        ← StreamFits, ← h.stream_iff stream hstream, hlast]
      show increments session.written stream.id + _ = acceptedOf stream.id log + len ↔ _
      omega
    · rw [heq, hunacked, acceptedOf_concat_of_neg hnot, streamFits_concat hnot]
      exact h.stream_iff stream hstream
  · obtain ⟨hbefore, hconn, hstream⟩ := throughout_concat.1 hrespects
    refine ⟨by rw [total_concat]; exact hconn, fun id' => ?_⟩
    have hwindow := (h.window hbefore).2 id'
    rw [totalOf_concat]
    split
    next hof =>
      subst hof
      exact hstream
    next => exact hwindow

theorem accepted_of_found {id : ℕ} (len : ℕ) (hfound : session.stream? id = some stream) :
    (mk session id len).accepted = (stream.statusCode != 0 && !stream.remoteClosed) := by
  rw [accepted, hfound]
  rfl

theorem Counts.dispatchData (h : Counts log session) (flags : UInt8) (streamId : ℕ)
    (payload : Bytes) :
    Counts (log ++ [⟨session, streamId, payload.length⟩])
      (session.dispatchData flags streamId payload) := by
  have hcounted : ∀ {stream}, session.stream? streamId = some stream →
    streamId < session.nextStreamId := fun hfound =>
    (mem_of_stream? hfound).2 ▸ (h.ids _ (mem_of_stream? hfound).1).2
  have hrefused : (Arrival.mk session streamId payload.length).accepted = false →
      Counts (log ++ [⟨session, streamId, payload.length⟩]) { session with
        connUnackedBytes := min (session.connUnackedBytes + payload.length) u32Max } := fun hnot =>
    h.arrive (fun haccepted => by rw [hnot] at haccepted; cases haccepted) fun stream hstream =>
      ⟨stream, hstream, rfl, .inr ⟨fun hof => (by rw [hnot] at hof; cases hof.2), rfl⟩⟩
  rw [Session.dispatchData]
  split
  next hnone =>
    have hnone : session.stream? streamId = none := hnone
    have hnot : (Arrival.mk session streamId payload.length).accepted = false := by
      rw [Arrival.accepted, hnone]
      rfl
    refine (hrefused hnot).still ?_
    split <;> exact .of_eq rfl rfl rfl rfl rfl
  next stream hfound =>
    have hfound : session.stream? streamId = some stream := hfound
    obtain ⟨hmem, hid⟩ := mem_of_stream? hfound
    have haccepted := accepted_of_found payload.length hfound
    split
    next hstatus =>
      rw [hstatus, bne_self_eq_false, Bool.false_and] at haccepted
      refine (hrefused haccepted).still (Session.Apart.put ?_ hmem)
      refine Session.Apart.trans ?_
        (Session.Apart.edit (apart_rstStream _ stream .protocolError) rfl rfl)
      exact ⟨rfl, rfl, rfl, rfl, rfl, rfl, rfl⟩
    next hstatus =>
      split
      next hclosed =>
        rw [hclosed, Bool.not_true, Bool.and_false] at haccepted
        refine (hrefused haccepted).still (Session.Apart.put ?_ hmem)
        exact ⟨rfl, rfl, rfl, rfl, rfl, rfl, rfl⟩
      next hopen =>
        rw [Bool.not_eq_true] at hopen
        rw [hopen, Bool.not_false, Bool.and_true] at haccepted
        have haccepted := haccepted.trans (bne_iff_ne.2 hstatus)
        have hput : ∀ stream' : Stream, stream'.id = stream.id →
            stream'.unackedBytes = min (stream.unackedBytes + payload.length) u32Max →
            Counts (log ++ [⟨session, streamId, payload.length⟩]) (putStream { session with
              connUnackedBytes := min (session.connUnackedBytes + payload.length) u32Max
              streamProgressed := true, livenessPingSpent := false } stream') := by
          intro stream' hid' hunacked'
          have harrive := @Counts.arrive D log session h streamId payload.length
            (session.streams.map fun other => if other.id = stream'.id then stream' else other)
            (fun _ => hcounted hfound) (fun other' hother' => by
              obtain ⟨other, hother, rfl⟩ := mem_map.1 hother'
              split
              next hsame => exact ⟨stream, hmem, hid', .inl ⟨hid.symm, haccepted, hunacked'⟩⟩
              next hother'' =>
                refine ⟨other, hother, rfl, .inr ⟨fun hof => hother'' ?_, rfl⟩⟩
                rw [hid', hid, hof.1])
          exact harrive.still (.of_eq rfl rfl rfl rfl rfl)
        split
        next =>
          exact (hput { stream with
            unackedBytes := min (stream.unackedBytes + payload.length) u32Max } rfl rfl).still
              (still_fail _ _)
        next =>
          refine hput _ ?_ ?_
          · split <;> rfl
          · split <;> rfl

/-! ## Reads -/

variable {decoder : Decoder D}

section

variable (h : Counts log session)
include h

theorem Counts.dispatchFrame (type flags : UInt8) (streamId : ℕ) (payload : Bytes)
    (hnone : (session.dispatchFrame decoder type flags streamId payload).fatalError = none) :
    Counts (log ++ session.arrival type streamId payload)
      (session.dispatchFrame decoder type flags streamId payload) := by
  rw [arrival]
  split
  next hdata =>
    rw [Session.dispatchFrame] at hnone ⊢
    split
    next hexpects =>
      rw [if_pos hexpects] at hnone
      cases hnone
    next hexpects =>
      rw [if_neg hexpects] at hnone
      split
      next hsettings =>
        rw [if_pos hsettings] at hnone
        cases hnone
      next =>
        rw [hdata]
        exact h.dispatchData flags streamId payload
  next hdata =>
    rw [append_nil]
    exact h.still (session.still_dispatchFrame decoder hdata flags streamId payload)

theorem Counts.parseFrames (buf : Bytes)
    (hnone : (session.parseFrames decoder buf).1.fatalError = none) :
    Counts (log ++ session.parseArrivals decoder buf) (session.parseFrames decoder buf).1 := by
  induction hn : buf.length using Nat.strong_induction_on generalizing log session buf with
  | _ n ih =>
    subst hn
    have hbyte : FrameHeader.byteSize = 9 := rfl
    rw [parseFrames] at hnone ⊢
    rw [parseArrivals]
    split
    next hheader =>
      rw [append_nil]
      exact h
    next hheader =>
      rw [dif_neg hheader] at hnone
      dsimp only at hnone ⊢
      split
      next hlarge =>
        rw [if_pos hlarge] at hnone
        cases hnone
      next hlarge =>
        rw [if_neg hlarge] at hnone
        split
        next hpart =>
          rw [append_nil]
          exact h
        next hpart =>
          rw [if_neg hpart] at hnone
          split
          next hstopped =>
            rw [if_pos hstopped] at hnone
            rw [append_nil]
            exact h.dispatchFrame _ _ _ _ hnone
          next hgoes =>
            rw [if_neg hgoes] at hnone
            rw [← List.append_assoc]
            refine ih _ ?_ (h.dispatchFrame _ _ _ _ ?_) _ hnone rfl
            · rw [length_drop]
              omega
            · rw [Bool.not_eq_true, stopped, Bool.or_eq_false_iff, Option.isSome_eq_false_iff,
                Option.isNone_iff_eq_none] at hgoes
              exact hgoes.1

theorem Counts.onIdleData (incoming : Bytes)
    (hnone : (session.onIdleData decoder incoming).fatalError = none) :
    Counts (log ++ session.idleArrivals decoder incoming)
      (session.onIdleData decoder incoming) := by
  have hstart : Counts log { session with readBuffer := session.readBuffer ++ incoming } :=
    h.still (.of_eq rfl rfl rfl rfl rfl)
  rw [idleArrivals]
  rw [Session.onIdleData] at hnone ⊢
  refine (hstart.parseFrames _ hnone).still ?_
  exact .of_eq rfl rfl rfl rfl rfl

theorem Counts.receive (incoming : Bytes)
    (hnone : (session.receive decoder incoming).fatalError = none) :
    Counts (log ++ session.receiveArrivals decoder incoming)
      (session.receive decoder incoming) := by
  have hstart : Counts log { session with streamProgressed := false } :=
    h.still (.of_eq rfl rfl rfl rfl rfl)
  rw [receiveArrivals]
  rw [Session.receive] at hnone ⊢
  dsimp only at hnone ⊢
  split
  next hempty =>
    rw [if_pos hempty] at hnone
    split
    next hmore =>
      rw [if_pos hmore] at hnone
      refine (hstart.parseFrames incoming hnone).still ?_
      exact .of_eq rfl rfl rfl rfl rfl
    next hall =>
      rw [if_neg hall] at hnone
      exact hstart.parseFrames incoming hnone
  next hbuf =>
    rw [if_neg hbuf] at hnone
    exact hstart.onIdleData incoming hnone

/-! ## Acknowledgements -/

omit h in
theorem localInitialWindowSize_eq : localInitialWindowSize = 16777216 := rfl

omit h in
theorem opening_le (session : Session D) :
    session.opening + defaultWindowSize ≤ localInitialWindowSize := by
  have hdefault : defaultWindowSize = 65535 := rfl
  have hlocal := localInitialWindowSize_eq
  rw [opening]
  split <;> omega

omit h in
theorem updates_append_updateFrames (written : List Written) (frames : List (ℕ × ℕ)) :
    updates (written ++ frames.map fun frame => updateFrame frame.1 frame.2) =
      updates written ++ frames.map fun frame => updateFrame frame.1 frame.2 := by
  have hself : updates (frames.map fun frame => updateFrame frame.1 frame.2) =
      frames.map fun frame => updateFrame frame.1 frame.2 := filter_eq_self.2 fun frame hframe => by
    obtain ⟨_, _, rfl⟩ := mem_map.1 hframe
    rfl
  rw [updates, filter_append]
  exact congrArg _ hself

/-- A WINDOW_UPDATE frame of the connection, whose increment the counter gave or the preface adds.
-/
theorem Counts.updateConn {increment : ℕ} (hpos : 0 < increment)
    (hmax : increment ≤ u32Max) (hsmall : Respects log → increment ≤ localInitialWindowSize)
    (hwritten : updates session'.written = updates session.written ++ [updateFrame 0 increment])
    (hnext : session'.nextStreamId = session.nextStreamId)
    (hsame : session'.streams = session.streams)
    (hle : session'.connUnackedBytes ≤ session.connUnackedBytes)
    (hbalance : increment + session'.connUnackedBytes + session.opening =
      session.connUnackedBytes + session'.opening) : Counts log session' := by
  have hincrements : ∀ id, increments session'.written id =
      increments session.written id + if 0 = id then increment else 0 := fun id => by
    rw [increments_congr (hwritten.trans (updates_append_updateFrames _ [(0, increment)]).symm),
      increments_append]
    exact congrArg _ (increments_updateFrame hmax id)
  have hstreams : ∀ stream ∈ session.streams,
      increments session'.written stream.id = increments session.written stream.id :=
        fun stream hstream => by
    rw [hincrements, if_neg (ne_of_lt (h.ids stream hstream).1)]
    rfl
  have hmem : ∀ frame ∈ updates session'.written,
      frame ∈ updates session.written ∨ frame = updateFrame 0 increment := fun frame hframe => by
    rw [hwritten] at hframe
    exact (mem_append.1 hframe).imp_right mem_singleton.1
  have hpayload : bigEndian (updateFrame 0 increment).payload = increment := bigEndian_u32Bytes hmax
  have hconn := hincrements 0
  rw [if_pos rfl] at hconn
  exact
    { next_pos := hnext ▸ h.next_pos
      ids := hsame ▸ hnext ▸ h.ids
      updates_lt := fun frame hframe => by
        rw [hnext]
        rcases hmem frame hframe with hframe | rfl
        · exact h.updates_lt frame hframe
        · exact h.next_pos
      fresh := hnext ▸ h.fresh
      conn_max := hle.trans h.conn_max
      conn_le := by
        have := h.conn_le
        omega
      conn_iff := by
        rw [← h.conn_iff]
        omega
      stream_max := hsame ▸ h.stream_max
      stream_le := fun stream hstream => by
        rw [hsame] at hstream
        rw [hstreams stream hstream]
        exact h.stream_le stream hstream
      stream_iff := fun stream hstream => by
        rw [hsame] at hstream
        rw [hstreams stream hstream]
        exact h.stream_iff stream hstream
      window := fun hrespects => by
        obtain ⟨hwindow, hstream⟩ := h.window hrespects
        refine ⟨by omega, fun id => ?_⟩
        have := hstream id
        rw [hincrements]
        omega
      positive := fun frame hframe => by
        rcases hmem frame hframe with hframe | rfl
        · exact h.positive frame hframe
        · rw [hpayload]
          exact ne_of_gt hpos
      small := fun hrespects frame hframe => by
        rcases hmem frame hframe with hframe | rfl
        · exact h.small hrespects frame hframe
        · rw [hpayload]
          exact hsmall hrespects }

omit h in
/-- The increments for a stream among those of all streams that are due. -/
theorem increments_due {streams : List Stream} (due : Stream → Bool)
    (hnodup : (streams.map Stream.id).Nodup)
    (hmax : ∀ stream ∈ streams, stream.unackedBytes ≤ u32Max) (hstream : stream ∈ streams) :
    increments ((streams.filter due).map fun stream => updateFrame stream.id stream.unackedBytes)
      stream.id =
      if due stream then stream.unackedBytes else 0 := by
  induction streams with
  | nil => cases hstream
  | cons first streams ih =>
    rw [map_cons, nodup_cons] at hnodup
    have hfirst : ∀ other ∈ streams, other.id ≠ first.id := fun other hother heq =>
      hnodup.1 (heq ▸ mem_map_of_mem hother)
    have hcons : increments (((first :: streams).filter due).map fun stream =>
        updateFrame stream.id stream.unackedBytes) stream.id =
        (if due first then if first.id = stream.id then first.unackedBytes else 0 else 0) +
          increments ((streams.filter due).map fun stream =>
            updateFrame stream.id stream.unackedBytes)
            stream.id := by
      cases hdue : due first with
      | true =>
        rw [filter_cons_of_pos hdue, map_cons, ← singleton_append, increments_append,
          increments_updateFrame (hmax first mem_cons_self), if_pos rfl]
      | false =>
        rw [filter_cons_of_neg (Bool.eq_false_iff.1 hdue), if_neg Bool.false_ne_true, zero_add]
    rw [hcons]
    rcases mem_cons.1 hstream with rfl | hstream
    · rw [if_pos rfl, increments_eq_zero, add_zero]
      intro frame hframe
      obtain ⟨other, hother, rfl⟩ := mem_map.1 (mem_filter.1 hframe).1
      exact hfirst other (mem_filter.1 hother).1
    · rw [ih hnodup.2 (fun other hother => hmax other (mem_cons_of_mem _ hother)) hstream,
        if_neg (Ne.symm (hfirst stream hstream)), ite_self, zero_add]

/-- What waits on the streams that are due is acknowledged. -/
theorem Counts.updateStreams (hnodup : (session.streams.map Stream.id).Nodup)
    (due : Stream → Bool) (hpos : ∀ stream, due stream = true → 0 < stream.unackedBytes) :
    Counts log { session with
      written := session.written ++
        (session.streams.filter due).map fun stream => updateFrame stream.id stream.unackedBytes
      streams := session.streams.map fun stream =>
        if due stream then { stream with unackedBytes := 0 } else stream } := by
  have hframes : ((session.streams.filter due).map fun stream =>
    updateFrame stream.id stream.unackedBytes) =
      ((session.streams.filter due).map fun stream => (stream.id, stream.unackedBytes)).map
        fun frame =>
        updateFrame frame.1 frame.2 := by
    rw [map_map]
    rfl
  have hmem : ∀ frame ∈ updates (session.written ++
      (session.streams.filter due).map fun stream => updateFrame stream.id stream.unackedBytes),
      frame ∈ updates session.written ∨ ∃ stream ∈ session.streams, due stream = true ∧
        frame = updateFrame stream.id stream.unackedBytes := fun frame hframe => by
    rw [hframes, updates_append_updateFrames, ← hframes] at hframe
    rcases mem_append.1 hframe with hframe | hframe
    · exact .inl hframe
    · obtain ⟨stream, hstream, rfl⟩ := mem_map.1 hframe
      obtain ⟨hstream, hdue⟩ := mem_filter.1 hstream
      exact .inr ⟨stream, hstream, hdue, rfl⟩
  have hzero : increments ((session.streams.filter due).map fun stream =>
      updateFrame stream.id stream.unackedBytes) 0 = 0 := increments_eq_zero fun frame hframe => by
    obtain ⟨stream, hstream, rfl⟩ := mem_map.1 (mem_filter.1 hframe).1
    exact ne_of_gt (h.ids stream (mem_filter.1 hstream).1).1
  have hstreams : ∀ stream ∈ session.streams, increments (session.written ++
      (session.streams.filter due).map fun stream => updateFrame stream.id stream.unackedBytes)
      stream.id + (if due stream then { stream with unackedBytes := 0 } else stream).unackedBytes =
      increments session.written stream.id + stream.unackedBytes := fun stream hstream => by
    rw [increments_append, increments_due due hnodup h.stream_max hstream]
    split
    next => rfl
    next => rfl
  have hid : ∀ stream :
      Stream, (if due stream then { stream with unackedBytes := 0 } else stream).id = stream.id :=
    fun stream => by split <;> rfl
  have hpayload : ∀ stream ∈ session.streams,
      bigEndian (updateFrame stream.id stream.unackedBytes).payload = stream.unackedBytes :=
        fun stream hstream =>
    bigEndian_u32Bytes (h.stream_max stream hstream)
  refine
    { next_pos := h.next_pos
      ids := fun stream' hstream' => ?_
      updates_lt := fun frame hframe => ?_
      fresh := h.fresh
      conn_max := h.conn_max
      conn_le := ?_
      conn_iff := ?_
      stream_max := fun stream' hstream' => ?_
      stream_le := fun stream' hstream' => ?_
      stream_iff := fun stream' hstream' => ?_
      window := fun hrespects => ?_
      positive := fun frame hframe => ?_
      small := fun hrespects frame hframe => ?_ }
  · obtain ⟨stream, hstream, rfl⟩ := mem_map.1 hstream'
    rw [hid]
    exact h.ids stream hstream
  · rcases hmem frame hframe with hframe | ⟨stream, hstream, -, rfl⟩
    · exact h.updates_lt frame hframe
    · exact (h.ids stream hstream).2
  · rw [increments_append, hzero, add_zero]
    exact h.conn_le
  · rw [increments_append, hzero, add_zero]
    exact h.conn_iff
  · obtain ⟨stream, hstream, rfl⟩ := mem_map.1 hstream'
    split
    · exact Nat.zero_le _
    · exact h.stream_max stream hstream
  · obtain ⟨stream, hstream, rfl⟩ := mem_map.1 hstream'
    rw [hid, hstreams stream hstream]
    exact h.stream_le stream hstream
  · obtain ⟨stream, hstream, rfl⟩ := mem_map.1 hstream'
    rw [hid, hstreams stream hstream]
    exact h.stream_iff stream hstream
  · obtain ⟨hconn, hstream⟩ := h.window hrespects
    refine ⟨?_, fun id => ?_⟩
    · rw [increments_append, hzero]
      exact hconn
    · have := hstream id
      rw [increments_append]
      omega
  · rcases hmem frame hframe with hframe | ⟨stream, hstream, hdue, rfl⟩
    · exact h.positive frame hframe
    · rw [hpayload stream hstream]
      exact ne_of_gt (hpos stream hdue)
  · rcases hmem frame hframe with hframe | ⟨stream, hstream, -, rfl⟩
    · exact h.small hrespects frame hframe
    · have := (h.window hrespects).2 stream.id
      have := h.stream_le stream hstream
      have : acceptedOf stream.id log ≤ totalOf stream.id log := acceptedOf_le
      rw [hpayload stream hstream]
      omega

omit h in
theorem foldl_writeWindowUpdate (streams : List Stream) (session : Session D) : ∃ buffer,
    streams.foldl (fun session stream => session.writeWindowUpdate stream.id stream.unackedBytes)
      session =
      { session with
        written := session.written ++ streams.map fun stream =>
          updateFrame stream.id stream.unackedBytes
        writeBuffer := buffer } := by
  induction streams generalizing session with
  | nil => exact ⟨session.writeBuffer, by rw [map_nil, append_nil]; rfl⟩
  | cons stream streams ih =>
    obtain ⟨buffer, heq⟩ := ih (session.writeWindowUpdate stream.id stream.unackedBytes)
    refine ⟨buffer, ?_⟩
    rw [foldl_cons, heq, map_cons, append_cons]
    rfl

theorem Counts.replenishWindow (hnodup : (session.streams.map Stream.id).Nodup)
    (isReceivePaused : ℕ → Bool) : Counts log (session.replenishWindow isReceivePaused) := by
  have hlocal := localInitialWindowSize_eq
  have hconn : Counts log (if session.connUnackedBytes ≥ localInitialWindowSize / 2 then
      { session.writeWindowUpdate 0 session.connUnackedBytes with connUnackedBytes := 0 }
      else session) := by
    split
    next hge =>
      refine h.updateConn (by omega) h.conn_max (fun hrespects => ?_)
        (updates_append_updateFrames _ [(0, session.connUnackedBytes)]) rfl rfl (Nat.zero_le _) rfl
      have := (h.window hrespects).1
      have := h.conn_le
      have := opening_le session
      omega
    next => exact h
  have hsame : (if session.connUnackedBytes ≥ localInitialWindowSize / 2 then
      { session.writeWindowUpdate 0 session.connUnackedBytes with connUnackedBytes := 0 }
        else session).streams = session.streams := by
    split <;> rfl
  rw [Session.replenishWindow]
  generalize (if session.connUnackedBytes ≥ localInitialWindowSize / 2 then
    { session.writeWindowUpdate 0 session.connUnackedBytes with connUnackedBytes := 0 }
    else session) = session'
    at hconn hsame ⊢
  let due := fun stream : Stream => !(decide (stream.unackedBytes < localInitialWindowSize / 2) ||
    stream.remoteClosed || isReceivePaused stream.id)
  obtain ⟨buffer, heq⟩ := foldl_writeWindowUpdate (session'.streams.filter due) { session' with
    streams := session'.streams.map fun stream => if due stream
    then { stream with unackedBytes := 0 } else stream }
  have hupdated := hconn.updateStreams (hsame ▸ hnodup) due fun stream hstream => by
    rw [Bool.not_eq_true', Bool.or_eq_false_iff, Bool.or_eq_false_iff,
      decide_eq_false_iff_not] at hstream
    omega
  refine Eq.subst (motive := Counts log) heq.symm (hupdated.still ?_)
  exact .of_eq rfl rfl rfl rfl rfl

end

end

end Soup.Http2
