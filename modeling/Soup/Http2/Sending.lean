import Mathlib.Algebra.Order.BigOperators.Group.List
import Mathlib.Algebra.Order.Ring.Nat
import Soup.Http2.Windows

/-!
# Bodies on the wire

What `writeDataWindowed` queues fits in the windows of its moment (`Framed`), so a stream in hand
stays as good as it was when its body is drained, and the pass over all streams ends.
-/

namespace Soup.Http2

open List Nat Session

/-! ## The frames of a body -/

/-- `frames` have the first `total` bytes of what remains. -/
structure Framed (stream : Stream) (conn : ℤ) (remaining : Bytes) (ends : Bool)
    (frames : List Written) (total : ℕ) : Prop where
  le : total ≤ remaining.length
  conn : total = 0 ∨ (total : ℤ) ≤ conn
  window : total = 0 ∨ (total : ℤ) ≤ stream.sendWindow
  ours : ∀ frame ∈ frames, frame.type = .data ∧ frame.streamId = stream.id
  limits : ∀ frame ∈ frames, frame.WithinLimits
  payload : frames.flatMap Written.payload = remaining.take total
  once : frames.Pairwise fun frame _ => frame.ends = false
  ended : ∀ frame ∈ frames, frame.ends = true → ends = true ∧ total = remaining.length

theorem framed_nil (stream : Stream) (conn : ℤ) (remaining : Bytes) (ends : Bool) :
    Framed stream conn remaining ends [] 0 :=
  ⟨zero_le _, .inl rfl, .inl rfl, by simp, by simp, by simp, .nil, by simp⟩

section

variable {stream : Stream} {conn : ℤ} {remaining : Bytes} {ends : Bool} {frames : List Written}
  {total : ℕ}

section

variable (h : Framed stream conn remaining ends frames total)
include h

theorem Framed.others {id : ℕ}
    (hne : id ≠ stream.id) : ∀ frame ∈ frames, frame.isOf id = false := by
  intro frame hframe
  rw [Written.isOf, (h.ours frame hframe).2, decide_eq_false hne.symm, Bool.false_and]

theorem Framed.sentOf : sentOf frames stream.id = remaining.take total := by
  have hours : ∀ frame ∈ frames, frame.isDataOf stream.id = true := by
    intro frame hframe
    rw [Written.isDataOf, (h.ours frame hframe).1, (h.ours frame hframe).2]
    simp
  rw [Http2.sentOf, filter_eq_self.2 hours, h.payload]

end

end

theorem isSet_zero (flag : UInt8) : isSet 0 flag = false := by
  rw [isSet, UInt8.zero_and]
  rfl

namespace Session

variable {D : Type}

theorem writeDataWindowed_spec (session : Session D) (stream : Stream) (remaining : Bytes)
    (ends : Bool) (cap consumed : ℕ) :
    ∃ frames total buffer,
      session.writeDataWindowed stream remaining ends cap consumed =
        ({ session with
            written := session.written ++ frames, writeBuffer := buffer
            connSendWindow := session.connSendWindow - total },
          { stream with sendWindow := stream.sendWindow - total }, consumed + total) ∧
      Framed stream session.connSendWindow remaining ends frames total := by
  induction hn : remaining.length using Nat.strong_induction_on
    generalizing session stream remaining consumed with
  | _ n ih =>
    subst hn
    have hstops : ∃ frames total buffer,
        (session, stream, consumed) =
          ({ session with
              written := session.written ++ frames, writeBuffer := buffer
              connSendWindow := session.connSendWindow - (total : ℕ) },
            { stream with sendWindow := stream.sendWindow - total }, consumed + total) ∧
        Framed stream session.connSendWindow remaining ends frames total :=
      ⟨[], 0, session.writeBuffer, by simp, framed_nil stream _ remaining ends⟩
    rw [writeDataWindowed]
    dsimp only
    split
    · exact hstops
    rename_i hwindow
    split
    · exact hstops
    split
    · exact hstops
    generalize hchunk : min (min remaining.length (session.remoteMaxFrameSize : ℕ))
      (min stream.sendWindow session.connSendWindow).toNat = chunkLen
    have hle : chunkLen ≤ remaining.length := by omega
    have hpaid : chunkLen = 0 ∨ (chunkLen : ℤ) ≤ stream.sendWindow := by omega
    have hpaid' : chunkLen = 0 ∨ (chunkLen : ℤ) ≤ session.connSendWindow := by omega
    have hsize : chunkLen ≤ session.remoteMaxFrameSize := by omega
    have hlen : (remaining.take chunkLen).length = chunkLen := length_take_of_le hle
    have hlimits : ∀ flags, (Written.mk .data flags stream.id (remaining.take chunkLen)
        (some ⟨stream.sendWindow, session.connSendWindow,
        session.remoteMaxFrameSize⟩)).WithinLimits := by
      intro flags _
      rcases Nat.eq_zero_or_pos chunkLen with hzero | hpos
      · exact .inl (by rw [hzero]; rfl)
      · refine .inr ⟨_, rfl, ?_⟩
        rw [hlen]
        exact ⟨hpaid.resolve_left (ne_of_gt hpos), hpaid'.resolve_left (ne_of_gt hpos), hsize⟩
    split
    next hlast =>
      refine ⟨_, chunkLen, _, rfl, hle, hpaid', hpaid, ?_, ?_, ?_, pairwise_singleton .., ?_⟩
      · exact forall_mem_singleton.2 ⟨rfl, rfl⟩
      · exact forall_mem_singleton.2 (hlimits _)
      · rw [flatMap_singleton]
      · refine forall_mem_singleton.2 ?_
        rw [Written.ends]
        split
        next hends =>
          exact fun _ => ⟨hends.2, hends.1⟩
        · exact fun h => absurd ((isSet_zero endStream).symm.trans h) Bool.false_ne_true
    next hlast =>
      have hpos : 0 < chunkLen := by
        have hremaining : remaining ≠ [] := by
          rintro rfl
          exact hlast (le_antisymm hle (zero_le _))
        have := length_pos_iff.2 hremaining
        have := session.remoteMaxFrameSize.pos
        have : (min stream.sendWindow session.connSendWindow).toNat ≠ 0 := fun hzero =>
          hwindow ⟨hremaining, hzero⟩
        omega
      have hdrop : (remaining.drop chunkLen).length = remaining.length - chunkLen := length_drop
      obtain ⟨frames, total, buffer, heq, hframed⟩ := ih _ (by omega)
        { session.writeData stream 0 (remaining.take chunkLen) with
          connSendWindow := session.connSendWindow - chunkLen }
        { stream with sendWindow := stream.sendWindow - chunkLen }
        (remaining.drop chunkLen) (consumed + chunkLen) rfl
      refine ⟨⟨.data, 0, stream.id, remaining.take chunkLen,
        some ⟨stream.sendWindow, session.connSendWindow, session.remoteMaxFrameSize⟩⟩ :: frames,
        chunkLen + total, buffer, ?_, ?_⟩
      · rw [if_neg fun h => hlast h.1]
        refine heq.trans ?_
        rw [Int.natCast_add, ← Int.sub_sub, ← Int.sub_sub, ← add_assoc]
        simp only [writeData, writeFrame, queue, append_assoc, singleton_append]
      · obtain ⟨hle', hconn', hwindow', hours, hlimits', hpayload, honce, hended⟩ := hframed
        refine ⟨by omega, ?_, ?_, ?_, ?_, ?_, ?_, ?_⟩
        · dsimp only at hconn'
          omega
        · dsimp only at hwindow'
          omega
        · exact forall_mem_cons.2 ⟨⟨rfl, rfl⟩, hours⟩
        · exact forall_mem_cons.2 ⟨hlimits 0, hlimits'⟩
        · rw [flatMap_cons, hpayload, take_add]
        · exact pairwise_cons.2 ⟨fun _ _ => isSet_zero endStream, honce⟩
        · refine forall_mem_cons.2
            ⟨fun h => absurd ((isSet_zero endStream).symm.trans h) Bool.false_ne_true,
              fun frame hframe h => ?_⟩
          obtain ⟨hends, htotal⟩ := hended frame hframe h
          exact ⟨hends, by omega⟩

/-! ## Draining -/

/-- What is drained from a stream that may send. -/
structure Drained (session session' : Session D) (stream stream' : Stream) : Prop where
  notClosed : stream.localClosed = false
  goes : stream.awaitingContinue = false
  client : stream.client ≠ none
  result : ∃ ends frames total buffer client pending,
    session' = { session with
      written := session.written ++ frames, writeBuffer := buffer
      connSendWindow := session.connSendWindow - (total : ℕ) } ∧
    (stream' = { stream with
        sendWindow := stream.sendWindow - total, client := client, pendingBody := pending } ∧
        ¬(ends = true ∧ total = stream.unsent.length) ∨
      stream' = Stream.sentEndStream { stream with
        sendWindow := stream.sendWindow - total, client := client, pendingBody := pending }) ∧
    client ≠ none ∧
    Stream.unsent { stream with client := client, pendingBody := pending } =
      stream.unsent.drop total ∧
    Framed stream session.connSendWindow stream.unsent ends frames total

theorem drop_eq_nil_iff_of_le {bytes : Bytes} {total : ℕ} (hle : total ≤ bytes.length) :
    bytes.drop total = [] ↔ total = bytes.length := by
  rw [drop_eq_nil_iff]
  exact ⟨le_antisymm hle, fun h => le_of_eq h.symm⟩

theorem drainSendBody_cases (session : Session D) (stream : Stream) (cap : ℕ) :
    session.drainSendBody stream cap = (session, stream) ∨
      session.Drained (session.drainSendBody stream cap).1 stream
        (session.drainSendBody stream cap).2 := by
  rw [drainSendBody]
  split
  · exact .inl rfl
  rename_i hmay
  rw [not_or, not_or, Bool.not_eq_true, Bool.not_eq_true] at hmay
  split
  · exact .inl rfl
  next hclient =>
    have hunsent : stream.unsent = stream.pendingBody := by rw [Stream.unsent, hclient]
    obtain ⟨frames, total, buffer, heq, hframed⟩ :=
      session.writeDataWindowed_spec stream stream.pendingBody true cap 0
    rw [heq, zero_add]
    refine .inr ⟨hmay.1, hmay.2.1, hclient ▸ Option.some_ne_none _, true, frames, total, buffer,
      stream.client, stream.pendingBody.drop total, rfl, ?_, hclient ▸ Option.some_ne_none _, ?_,
      ?_⟩
    · rw [hunsent]
      dsimp only
      split
      · exact .inr rfl
      next hleft =>
        exact .inl ⟨rfl, fun h => hleft ((drop_eq_nil_iff_of_le hframed.le).2 h.2)⟩
    · rw [hunsent, Stream.unsent, hclient]
    · exact hunsent ▸ hframed
  next body ended hclient =>
    have hunsent : stream.unsent = body := by rw [Stream.unsent, hclient]
    split
    · exact .inl rfl
    · obtain ⟨frames, total, buffer, heq, hframed⟩ :=
        session.writeDataWindowed_spec stream body ended cap 0
      rw [heq, zero_add]
      refine .inr ⟨hmay.1, hmay.2.1, hclient ▸ Option.some_ne_none _, ended, frames, total, buffer,
        some (.stream (body.drop total) ended), stream.pendingBody, rfl, ?_, Option.some_ne_none _,
        ?_,
        ?_⟩
      · rw [hunsent]
        dsimp only
        split
        · exact .inr rfl
        next hleft =>
          exact .inl ⟨rfl, fun h => hleft ⟨(drop_eq_nil_iff_of_le hframed.le).2 h.2, h.1⟩⟩
      · rw [hunsent, Stream.unsent]
      · exact hunsent ▸ hframed

section

variable {session session' : Session D} {stream stream' : Stream}

/-- The stream in hand, after its frames and before its end. -/
theorem Drained.fits (h : session.Drained session' stream stream') (hfits : session.Fits stream)
    (hinitial : session.remoteInitialWindowSize ≤ maxWindowSize) : session'.Fits stream' := by
  obtain ⟨hnot, hgoes, -, ends, frames, total, buffer, client, pending, rfl, hstream, hclient,
    hunsent, hframed⟩ := h
  obtain ⟨-, hwindow, hle, hsentle, hbody, hended, honce⟩ := hfits
  have hopen : NotEnded session.written stream.id :=
    hended.resolve_right fun hended => Bool.false_ne_true (hnot.symm.trans hended.1)
  have hlen : (Http2.sentOf (session.written ++ frames) stream.id).length =
      (Http2.sentOf session.written stream.id).length + total := by
    rw [sentOf_append, hframed.sentOf, length_append, length_take_of_le hframed.le]
  have hwindow' : stream.sendWindow - total = session.remoteInitialWindowSize + stream.accepted -
      (Http2.sentOf (session.written ++ frames) stream.id).length := by
    rw [hwindow, hlen, Int.natCast_add, Int.sub_sub]
  have hle' : stream.sendWindow - total ≤ maxWindowSize := by omega
  have hsentle' : (Http2.sentOf (session.written ++ frames) stream.id).length ≤
      stream.accepted + maxWindowSize := by
    have := hframed.window
    omega
  have hbody' : Http2.sentOf (session.written ++ frames) stream.id ++
      Stream.unsent { stream with client := client, pendingBody := pending } = stream.body := by
    rw [sentOf_append, hframed.sentOf, hunsent, append_assoc, take_append_drop, hbody]
  have honce' : EndsOnce (session.written ++ frames) stream.id :=
    EndsOnce.append hopen (hframed.once.filter _)
  rcases hstream with ⟨rfl, hmore⟩ | rfl
  · refine ⟨hclient, hwindow', hle', hsentle', hbody', .inl (hopen.append fun frame hframe _ => ?_),
      honce'⟩
    rw [Bool.eq_false_iff]
    exact fun hends => hmore (hframed.ended frame hframe hends)
  · exact ⟨hclient, hwindow', hle', hsentle', hbody', .inr ⟨localClosed_sentEndStream _, hgoes⟩,
      honce'⟩

theorem Drained.base (h : session.Drained session' stream stream') (hbase : session.Base)
    (hid : session.Knows stream.id) (hgone : ∀ left ∈ session.gone, left.id ≠ stream.id) :
    session'.Base := by
  obtain ⟨-, -, -, ends, frames, total, buffer, client, pending, rfl, -, -, -, hframed⟩ := h
  obtain ⟨hinitial, hnonneg, hle, hnodup, hids, hpos, hframes, hlimits, hleft⟩ := hbase
  have hconn := hframed.conn
  refine Base.append ⟨hinitial, ?_, ?_, hnodup, hids, hpos, hframes, hlimits, hleft⟩ ?_
    hframed.limits ?_
  · show 0 ≤ session.connSendWindow - _
    omega
  · show session.connSendWindow - _ ≤ _
    omega
  · exact fun frame hframe => (hframed.ours frame hframe).2 ▸ hid
  · exact fun left hleft => hframed.others (hgone left hleft)

section

variable (h : session.Holding stream)
include h

theorem Holding.not_gone : ∀ left ∈ session.gone, left.id ≠ stream.id := by
  intro left hleft heq
  obtain ⟨old, hold, hid⟩ := h.place
  exact (nodup_append.1 h.base.nodup).2.2 _ (mem_map_of_mem hold) _
    (mem_map_of_mem hleft) (hid.trans heq.symm)

theorem Holding.drained
    (hdrained : session.Drained session' stream stream') : session'.Holding stream' := by
  have hfits := hdrained.fits h.fits h.base.initial_le
  have hbase := hdrained.base h.base (knows_of_place h.place) h.not_gone
  obtain ⟨-, -, -, ends, frames, total, buffer, client, pending, rfl, hstream, -, -, hframed⟩ :=
    hdrained
  have hid : stream'.id = stream.id := by
    rcases hstream with ⟨rfl, -⟩ | rfl <;> rfl
  exact ⟨hbase, hid ▸ h.place, hfits, fun other hother hne =>
    (h.others other hother (hid ▸ hne)).append_others (hframed.others (hid ▸ hne))⟩

theorem Holding.drainSendBody (cap : ℕ) :
    (session.drainSendBody stream cap).1.Holding (session.drainSendBody stream cap).2 := by
  rcases session.drainSendBody_cases stream cap with heq | hdrained
  · rwa [heq]
  · exact h.drained hdrained

end

end

/-! ## The pass over all streams -/

/-- One for a stream that may send. -/
def openCount (stream : Stream) : ℕ := if stream.localClosed then 0 else 1

/-- What every pass that goes on makes less. -/
def room (session : Session D) : ℕ :=
  session.connSendWindow.toNat + (session.streams.map openCount).sum

section

variable {session session' : Session D} {stream stream' : Stream}

/-- A stream that may send comes back into its place. -/
theorem openCount_put (hnodup : (session.streams.map Stream.id).Nodup)
    (hmem : stream ∈ session.streams)
    (hopen : stream.localClosed = false) (hid : stream'.id = stream.id)
    (hstreams : session'.streams = session.streams) :
    ((session'.putStream stream').streams.map openCount).sum ≤ (session.streams.map openCount).sum ∧
      (stream'.localClosed = true → ((session'.putStream stream').streams.map openCount).sum <
        (session.streams.map openCount).sum) := by
  have hone : openCount stream = 1 := if_neg (by simp [hopen])
  have hle : openCount stream' ≤ 1 := by
    rw [openCount]
    split <;> omega
  have hplaces : ∀ other ∈ session.streams,
      openCount (if other.id = stream'.id then stream' else other) ≤ openCount other := by
    intro other hother
    split
    next heq =>
      rw [inj_on_of_nodup_map hnodup hother hmem (heq.trans hid), hone]
      exact hle
    · exact le_rfl
  rw [putStream, map_map, hstreams]
  refine ⟨sum_le_sum hplaces, fun hclosed => sum_lt_sum _ _ hplaces ⟨stream, hmem, ?_⟩⟩
  rw [Function.comp_apply, if_pos hid.symm, hone, openCount, if_pos hclosed]
  exact zero_lt_one

theorem Drained.fields (h : session.Drained session' stream stream') :
    stream'.id = stream.id ∧ session'.streams = session.streams ∧
      session'.connSendWindow ≤ session.connSendWindow := by
  obtain ⟨-, -, -, ends, frames, total, buffer, client, pending, rfl, hstream, -, -, -⟩ := h
  refine ⟨?_, rfl, ?_⟩
  · rcases hstream with ⟨rfl, -⟩ | rfl <;> rfl
  · show session.connSendWindow - _ ≤ _
    omega

theorem Good.drainAt (h : session.Good) (slice : ℕ) (progressed : Bool) (i : ℕ) :
    (drainAt slice (session, progressed) i).1.Good ∧
      (drainAt slice (session, progressed) i).1.room ≤ session.room ∧
      ((drainAt slice (session, progressed) i).2 = true →
        progressed = true ∨ (drainAt slice (session, progressed) i).1.room < session.room) := by
  have hsame : (session, progressed).1.Good ∧ (session, progressed).1.room ≤ session.room ∧
      ((session, progressed).2 = true →
        progressed = true ∨ (session, progressed).1.room < session.room) :=
    ⟨h, le_rfl, .inl⟩
  rw [Session.drainAt]
  split
  · exact hsame
  rename_i stream hget
  split
  · exact hsame
  rename_i hmay
  rw [not_or, Bool.not_eq_true] at hmay
  have hmem := mem_of_getElem? hget
  have hnodup := (nodup_append.1 h.base.nodup).1
  have hput := ((h.holding hmem).drainSendBody slice).put
  refine ⟨hput, ?_⟩
  rcases session.drainSendBody_cases stream slice with heq | hdrained
  · obtain ⟨hle, -⟩ := openCount_put hnodup hmem hmay.1 rfl rfl
    rw [heq]
    refine ⟨Nat.add_le_add_left hle _, fun hprogressed => .inl ?_⟩
    simpa [hmay.1] using hprogressed
  · obtain ⟨hid, hstreams, hconn⟩ := hdrained.fields
    obtain ⟨hle, hlt⟩ := openCount_put hnodup hmem hmay.1 hid hstreams
    have hnonneg := hput.base.conn_nonneg
    change 0 ≤ (session.drainSendBody stream slice).1.connSendWindow at hnonneg
    rw [room, room]
    refine ⟨Nat.add_le_add (Int.toNat_le_toNat hconn) hle, fun hprogressed => ?_⟩
    rw [Bool.or_eq_true, Bool.or_eq_true, decide_eq_true_eq] at hprogressed
    rcases hprogressed with (hprogressed | hmoved) | hclosed
    · exact .inl hprogressed
    · refine .inr (add_lt_add_of_lt_of_le ?_ hle)
      change Int.toNat (session.drainSendBody stream slice).1.connSendWindow < _
      omega
    · exact .inr (add_lt_add_of_le_of_lt (Int.toNat_le_toNat hconn) (hlt hclosed))

/-- A pass. -/
theorem Good.drainAll (h : session.Good) (slice : ℕ) (places : List ℕ) :
    ((places.foldl (Session.drainAt slice) (session, false)).1.Good ∧
      (places.foldl (Session.drainAt slice) (session, false)).1.room ≤ session.room) ∧
      ((places.foldl (Session.drainAt slice) (session, false)).2 = true →
        (places.foldl (Session.drainAt slice) (session, false)).1.room < session.room) := by
  induction places using reverseRecOn with
  | nil => exact ⟨⟨h, le_rfl⟩, fun hfalse => absurd hfalse Bool.false_ne_true⟩
  | append_singleton places i ih =>
    rw [foldl_append, foldl_cons, foldl_nil]
    generalize places.foldl (Session.drainAt slice) (session, false) = state at ih
    obtain ⟨before, progressed⟩ := state
    obtain ⟨⟨hgood, hroom⟩, hless⟩ := ih
    obtain ⟨hgood', hroom', hless'⟩ := hgood.drainAt slice progressed i
    refine ⟨⟨hgood', hroom'.trans hroom⟩, fun hprogressed => ?_⟩
    rcases hless' hprogressed with hearlier | hnow
    · exact lt_of_le_of_lt hroom' (hless hearlier)
    · exact lt_of_lt_of_le hnow hroom

/-- What a drain of one stream keeps, the loop over all of them keeps. -/
theorem drainLoop_keeps (P : Session D → Prop) {slice : ℕ}
    (hdrain : ∀ session progressed i, P session → P (drainAt slice (session, progressed) i).1) :
    ∀ {fuel : ℕ} {session : Session D} {result : Session D × Bool}, P session →
      drainLoop slice fuel session = some result → P result.1
  | 0, _, _, _, hloop => nomatch hloop
  | fuel + 1, session, result, h, hloop => by
    have hpass : ∀ places : List ℕ, P (places.foldl (drainAt slice) (session, false)).1 :=
      fun places => by
      induction places using reverseRecOn with
      | nil => exact h
      | append_singleton places i ih =>
        rw [foldl_append, foldl_cons, foldl_nil]
        exact hdrain _ _ i ih
    rw [drainLoop] at hloop
    split at hloop
    · exact Option.some.inj hloop ▸ h
    split at hloop
    · exact Option.some.inj hloop ▸ h
    dsimp only at hloop
    split at hloop
    · exact drainLoop_keeps P hdrain (hpass _) hloop
    · exact Option.some.inj hloop ▸ hpass _

theorem Good.drainLoop (h : session.Good) {slice fuel : ℕ} {result : Session D × Bool}
    (hloop : drainLoop slice fuel session = some result) : result.1.Good :=
  drainLoop_keeps Good (fun _ progressed i h => (h.drainAt slice progressed i).1) h hloop

end

end Session

/-! ## The end of a drain -/

/-- The stream failed, or sent the end of its body, or waits: for its window, for the answer to an
`Expect`, or for more of the body. -/
def Stream.Blocked (stream : Stream) : Prop :=
  stream.localClosed = true ∨ stream.sendWindow ≤ 0 ∨ stream.awaitingContinue = true ∨
    stream.fatalError.isSome = true ∨ stream.client = some (.stream [] false)

namespace Session

variable {D : Type} {session : Session D} {stream : Stream} {slice : ℕ}

theorem le_writeDataWindowed (session : Session D) (stream : Stream) (remaining : Bytes)
    (ends : Bool) (cap consumed : ℕ) :
    consumed ≤ (session.writeDataWindowed stream remaining ends cap consumed).2.2 := by
  obtain ⟨frames, total, buffer, heq, -⟩ :=
    session.writeDataWindowed_spec stream remaining ends cap consumed
  rw [heq]
  exact le_add_right consumed total

section Idle

variable (hconn : 0 < session.connSendWindow) (hbuffer : session.writeBuffer < writeBufferHighWater)
  (hslice : 0 < slice)
include hconn hbuffer hslice

/-- Where a frame can go out, nothing of the window is used only when there is nothing to send. -/
theorem writeDataWindowed_idle {remaining : Bytes} {ends : Bool} (hwindow : 0 < stream.sendWindow)
    (hsame : (session.writeDataWindowed stream remaining ends slice 0).1.connSendWindow =
      session.connSendWindow) :
    remaining = [] ∧ ∃ sent, session.writeDataWindowed stream remaining ends slice 0 =
      (sent, stream, 0) := by
  have hpos : remaining ≠ [] →
      0 < (session.writeDataWindowed stream remaining ends slice 0).2.2 := by
    intro hremaining
    have hlen := length_pos_iff.2 hremaining
    rw [writeDataWindowed]
    dsimp only
    rw [dif_neg (by omega), if_neg (by omega), if_neg (by omega)]
    generalize hchunk : min (min remaining.length (session.remoteMaxFrameSize : ℕ))
      (min stream.sendWindow session.connSendWindow).toNat = chunkLen
    have hchunkLen : 0 < chunkLen := hchunk ▸ lt_min (lt_min hlen session.remoteMaxFrameSize.pos)
      (Int.lt_toNat.2 (lt_min hwindow hconn))
    rw [← zero_add chunkLen] at hchunkLen
    split
    · exact hchunkLen
    · exact hchunkLen.trans_le (le_writeDataWindowed _ _ _ _ _ _)
  obtain ⟨frames, total, buffer, heq, -⟩ :=
    session.writeDataWindowed_spec stream remaining ends slice 0
  rw [heq] at hsame hpos ⊢
  dsimp only at hsame hpos
  obtain rfl : total = 0 := by omega
  simp only [Int.natCast_zero, Int.sub_zero]
  exact ⟨by_contra fun hne => absurd (hpos hne) (by decide), _, rfl⟩

theorem drainSendBody_idle (hclient : stream.client ≠ none) (hwindow : 0 < stream.sendWindow)
    (hsame : (session.drainSendBody stream slice).1.connSendWindow = session.connSendWindow)
    (hopen : (session.drainSendBody stream slice).2.localClosed = false) :
    session.drainSendBody stream slice = (session, stream) ∧ stream.Blocked := by
  rw [drainSendBody] at hsame hopen ⊢
  split at hsame
  next hstops =>
    rw [if_pos hstops, Stream.Blocked]
    tauto
  rename_i hstops
  rw [if_neg hstops] at hopen ⊢
  cases hkind : stream.client with
  | none => exact absurd hkind hclient
  | some body =>
    rw [hkind] at hsame hopen
    cases body with
    | bytes =>
      obtain ⟨hnil, sent, heq⟩ := writeDataWindowed_idle hconn hbuffer hslice hwindow hsame
      rw [heq] at hopen
      simp [hnil, localClosed_sentEndStream] at hopen
    | stream buffer ended =>
      dsimp only at hsame hopen ⊢
      split at hsame
      next hwaits =>
        rw [if_pos hwaits]
        obtain ⟨rfl, hended⟩ := hwaits
        rw [Bool.not_eq_true'] at hended
        exact ⟨rfl, .inr (.inr (.inr (.inr (hended ▸ hkind))))⟩
      next hgoes =>
        -- The frame with the end of an empty body.
        obtain ⟨rfl, sent, heq⟩ := writeDataWindowed_idle hconn hbuffer hslice hwindow hsame
        have hended : ended = true := by simpa using hgoes
        simp [hended, localClosed_sentEndStream] at hopen

variable (h : session.Good)
include h

theorem Good.drainAt_idle {i : ℕ} (hidle : (Session.drainAt slice (session, false) i).2 = false) :
    Session.drainAt slice (session, false) i = (session, false) ∧
      ∀ stream, session.streams[i]? = some stream → stream.Blocked := by
  rw [Session.drainAt] at hidle ⊢
  cases hget : session.streams[i]? with
  | none => exact ⟨rfl, nofun⟩
  | some stream =>
    have hmem := mem_of_getElem? hget
    rw [hget] at hidle
    dsimp only at hidle ⊢
    split at hidle
    next hclosed =>
      rw [if_pos hclosed]
      exact ⟨rfl, fun _ heq => Option.some.inj heq ▸ hclosed.imp_right .inl⟩
    next hmay =>
      rw [if_neg hmay]
      rw [not_or, Int.not_le] at hmay
      simp only [Bool.false_or, Bool.or_eq_false_iff, decide_eq_false_iff_not, not_not] at hidle
      obtain ⟨heq, hblocked⟩ :=
        drainSendBody_idle hconn hbuffer hslice (h.fits stream hmem).client hmay.2
        hidle.1 hidle.2
      have hput : session.putStream stream = session := by
        have hmap : (session.streams.map fun other => if other.id = stream.id then stream
          else other) =
            session.streams := by
          refine (map_congr_left fun other hother => ?_).trans (map_id _)
          split
          next hid =>
            exact (inj_on_of_nodup_map (nodup_append.1 h.base.nodup).1 hother hmem hid).symm
          · rfl
        rw [putStream, hmap]
      rw [heq]
      refine ⟨?_, fun _ heq => Option.some.inj heq ▸ hblocked⟩
      simp [hput, heq ▸ hidle.2]

theorem Good.pass_idle {places : List ℕ}
    (hidle : (places.foldl (Session.drainAt slice) (session, false)).2 = false) :
    places.foldl (Session.drainAt slice) (session, false) = (session, false) ∧
      ∀ i ∈ places, ∀ stream, session.streams[i]? = some stream → stream.Blocked := by
  induction places using reverseRecOn with
  | nil => exact ⟨rfl, nofun⟩
  | append_singleton places i ih =>
    rw [foldl_append, foldl_cons, foldl_nil] at hidle ⊢
    have hbefore : (places.foldl (Session.drainAt slice) (session, false)).2 = false := by
      rw [Session.drainAt] at hidle
      repeat' split at hidle
      · exact hidle
      · exact hidle
      · exact (Bool.or_eq_false_iff.1 (Bool.or_eq_false_iff.1 hidle).1).1
    obtain ⟨heq, hall⟩ := ih hbefore
    rw [heq] at hidle ⊢
    obtain ⟨hlast, hblocked⟩ := h.drainAt_idle hconn hbuffer hslice hidle
    exact ⟨hlast, forall_mem_append.2 ⟨hall, forall_mem_singleton.2 hblocked⟩⟩

end Idle

/-- The loop ends, since a pass that goes on makes the room less. -/
theorem Good.drainLoop_ends (h : session.Good) (hslice : 0 < slice) {fuel : ℕ}
    (hfuel : session.room < fuel) :
    ∃ session' more, Session.drainLoop slice fuel session = some (session', more) ∧
      if more then session'.writeBuffer ≥ writeBufferHighWater
      else session'.connSendWindow ≤ 0 ∨ ∀ stream ∈ session'.streams, stream.Blocked := by
  induction fuel generalizing session with
  | zero => exact absurd hfuel (not_lt_zero _)
  | succ fuel ih =>
    rw [Session.drainLoop]
    split
    · exact ⟨session, false, rfl, .inl ‹_›⟩
    rename_i hconn
    split
    · exact ⟨session, true, rfl, ‹_›⟩
    rename_i hbuffer
    obtain ⟨⟨hgood, -⟩, hless⟩ := h.drainAll slice (range session.streams.length)
    have hidle := @Good.pass_idle D session slice (Int.not_le.1 hconn) (not_le.1 hbuffer) hslice h
      (range session.streams.length)
    generalize (range session.streams.length).foldl (Session.drainAt slice) (session, false) = state
      at hgood hless hidle
    obtain ⟨after, progressed⟩ := state
    cases progressed with
    | false =>
      obtain ⟨heq, hblocked⟩ := hidle rfl
      cases heq
      refine ⟨session, false, rfl, .inr fun stream hstream => ?_⟩
      obtain ⟨i, hi, hget⟩ := mem_iff_getElem.1 hstream
      exact hblocked i (mem_range.2 hi) stream (List.getElem?_eq_some_iff.2 ⟨hi, hget⟩)
    | true => exact ih hgood ((hless rfl).trans_le (le_of_lt_succ hfuel))

end Session

end Soup.Http2
