import Soup.Http2.Still

/-!
# Received data is counted

The DATA frames that come to a session are logged, each with the session that it comes to
(`Arrival`). What was acknowledged and what the counters have is all that came, unless a counter had
to pass its maximum, where it stays (`Counts`).
-/

namespace Soup.Http2

open List Session FrameHeader

/-! ## Logs -/

/-- Something holds of every entry and those before it. -/
def Throughout {α : Type*} (P : List α → α → Prop) (log : List α) : Prop :=
  ∀ before entry after, log = before ++ entry :: after → P before entry

section

variable {α : Type*} {P Q : List α → α → Prop} {log : List α} {entry : α}

theorem throughout_nil : Throughout P [] := fun before entry after h => by
  cases before <;> cases h

theorem throughout_concat : Throughout P (log ++ [entry]) ↔ Throughout P log ∧ P log entry := by
  constructor
  · intro h
    refine ⟨fun before entry' after heq => h before entry' (after ++ [entry]) ?_,
      h log entry [] rfl⟩
    rw [heq, append_assoc]
    rfl
  · rintro ⟨h, hentry⟩ before entry' after heq
    rcases eq_nil_or_concat after with rfl | ⟨after', last, rfl⟩
    · obtain ⟨rfl, hlast⟩ := append_inj' heq rfl
      exact (cons.inj hlast).1 ▸ hentry
    · rw [concat_eq_append, ← cons_append, ← append_assoc] at heq
      exact h before entry' after' (append_inj' heq rfl).1

end

/-- A DATA frame: the session that it comes to, its stream and the length of its payload. -/
structure Arrival (D : Type) where
  session : Session D
  streamId : ℕ
  length : ℕ

variable {D : Type}

namespace Arrival

/-- The stream is tracked, has its response and is not closed by the peer. -/
def accepted (f : Arrival D) : Bool :=
  (f.session.stream? f.streamId).any fun stream => stream.statusCode != 0 && !stream.remoteClosed

def total (log : List (Arrival D)) : ℕ := (log.map Arrival.length).sum

def ofStream (id : ℕ) (f : Arrival D) : Bool := f.streamId = id

/-- All DATA of a stream. -/
def totalOf (id : ℕ) (log : List (Arrival D)) : ℕ := total (log.filter (ofStream id))

/-- The DATA that the stream accepted. -/
def acceptedOf (id : ℕ) (log : List (Arrival D)) : ℕ :=
  total (log.filter fun f => ofStream id f && f.accepted)

end Arrival

/-- The sum of the increments for a stream, or for the connection. -/
def increments (written : List Written) (id : ℕ) : ℕ :=
  (((updates written).filter fun frame => frame.streamId = id).map fun frame =>
    bigEndian frame.payload).sum

/-- What the preface's WINDOW_UPDATE adds. -/
def Session.opening (session : Session D) : ℕ :=
  if session.prefaceSent then localInitialWindowSize - defaultWindowSize else 0

/-- What waits for an acknowledgement on the connection never passes the counter's maximum. -/
def ConnFits (log : List (Arrival D)) : Prop :=
  Throughout (fun before f => f.session.opening + Arrival.total before + f.length ≤
    increments f.session.written 0 + u32Max) log

/-- What waits for an acknowledgement on the stream never passes the counter's maximum. -/
def StreamFits (id : ℕ) (log : List (Arrival D)) : Prop :=
  Throughout (fun before f => f.streamId = id → f.accepted = true →
    Arrival.acceptedOf id before + f.length ≤ increments f.session.written id + u32Max) log

/-- The peer respects the windows that it was given. -/
def Respects (log : List (Arrival D)) : Prop :=
  Throughout (fun before f =>
    Arrival.total before + f.length ≤ defaultWindowSize + increments f.session.written 0 ∧
      Arrival.totalOf f.streamId before + f.length ≤
        localInitialWindowSize + increments f.session.written f.streamId) log

namespace Session

variable (decoder : Decoder D) (session : Session D)

/-- The arrival that a frame is. -/
def arrival (type : UInt8) (streamId : ℕ) (payload : Bytes) : List (Arrival D) :=
  if FrameType.ofByte type = some .data then [⟨session, streamId, payload.length⟩] else []

/-- The arrivals of `parseFrames`. -/
def parseArrivals (session : Session D) (buf : Bytes) : List (Arrival D) :=
  if _hheader : buf.length < byteSize then []
  else
    let header := decode (buf.take byteSize)
    if header.length > defaultMaxFrameSize then []
    else
      let frameLen := byteSize + header.length
      if buf.length < frameLen then []
      else
        let payload := (buf.drop byteSize).take header.length
        let next := session.dispatchFrame decoder header.type header.flags header.streamIdentifier
          payload
        session.arrival header.type header.streamIdentifier payload ++
          if next.stopped then [] else parseArrivals next (buf.drop frameLen)
termination_by buf.length
decreasing_by
  have hbyte : byteSize = 9 := rfl
  rw [length_drop]
  omega

/-- The arrivals of `receive`. -/
def receiveArrivals (incoming : Bytes) : List (Arrival D) :=
  let session := { session with streamProgressed := false }
  if session.readBuffer = [] then session.parseArrivals decoder incoming
  else
    let buf := session.readBuffer ++ incoming
    { session with readBuffer := buf }.parseArrivals decoder buf

/-- The arrivals of `onIdleData`. -/
def idleArrivals (incoming : Bytes) : List (Arrival D) :=
  let buf := session.readBuffer ++ incoming
  { session with readBuffer := buf }.parseArrivals decoder buf

end Session

/-! ## Sums -/

namespace Arrival

variable {log : List (Arrival D)} {f : Arrival D} {id : ℕ}

theorem total_concat : total (log ++ [f]) = total log + f.length := by
  rw [total, map_append, sum_append, map_singleton, sum_singleton]
  rfl

theorem totalOf_concat : totalOf id (log ++ [f]) = totalOf id log + if f.streamId = id then f.length
    else 0 := by
  rw [totalOf, filter_append]
  by_cases h : f.streamId = id
  · rw [filter_cons_of_pos (show ofStream id f = true from decide_eq_true h), filter_nil,
      total_concat, if_pos h]
    rfl
  · rw [filter_cons_of_neg (by simpa [ofStream] using h), filter_nil, append_nil, if_neg h]
    rfl

theorem acceptedOf_concat_of_pos (h : f.streamId = id) (haccepted : f.accepted = true) :
    acceptedOf id (log ++ [f]) = acceptedOf id log + f.length := by
  rw [acceptedOf, filter_append, filter_cons_of_pos, filter_nil, total_concat]
  · rfl
  · rw [haccepted, Bool.and_true]
    exact decide_eq_true h

theorem acceptedOf_concat_of_neg (h : ¬(f.streamId = id ∧ f.accepted = true)) :
    acceptedOf id (log ++ [f]) = acceptedOf id log := by
  rw [acceptedOf, filter_append, filter_cons_of_neg, filter_nil, append_nil]
  · rfl
  · rwa [ofStream, Bool.and_eq_true, decide_eq_true_eq]

theorem acceptedOf_le : acceptedOf id log ≤ totalOf id log := by
  refine List.Sublist.sum_le_sum (List.Sublist.map _ ?_) fun _ _ => Nat.zero_le _
  exact monotone_filter_right _ fun f hf => (Bool.and_eq_true _ _ ▸ hf).1

theorem acceptedOf_eq_zero (h : ∀ f ∈ log, f.accepted = true → f.streamId ≠ id) :
    acceptedOf id log = 0 := by
  have hnil : (log.filter fun f => ofStream id f && f.accepted) = [] :=
    filter_eq_nil_iff.2 fun f hf => by
      rw [Bool.and_eq_true, ofStream, decide_eq_true_eq]
      exact fun hof => h f hf hof.2 hof.1
  rw [acceptedOf, hnil]
  rfl

end Arrival

variable {log : List (Arrival D)} {id : ℕ}

theorem streamFits_concat {f : Arrival D}
    (h : ¬(f.streamId = id ∧ f.accepted = true)) : StreamFits id (log ++ [f]) ↔ StreamFits id log :=
  throughout_concat.trans
    ⟨And.left, fun hlog => ⟨hlog, fun hid haccepted => absurd ⟨hid, haccepted⟩ h⟩⟩

theorem streamFits_of_fresh
    (h : ∀ f ∈ log, f.accepted = true → f.streamId ≠ id) : StreamFits id log := by
  rintro before f after rfl hid haccepted
  exact absurd hid (h f (mem_append_right _ mem_cons_self) haccepted)

/-- The increments of more frames. -/
theorem increments_append (written frames : List Written) (id : ℕ) :
    increments (written ++ frames) id = increments written id + increments frames id := by
  rw [increments, updates, filter_append, filter_append, map_append, sum_append]
  rfl

theorem increments_congr {written written' : List Written} (h : updates written' = updates written)
    (id : ℕ) : increments written' id = increments written id := by
  rw [increments, increments, h]

theorem increments_eq_zero {written : List Written}
    (h : ∀ frame ∈ updates written, frame.streamId ≠ id) : increments written id = 0 := by
  have hnil : (updates written).filter (fun frame => frame.streamId = id) = [] :=
    filter_eq_nil_iff.2 fun frame hframe => by
      rw [decide_eq_true_eq]
      exact h frame hframe
  rw [increments, hnil]
  rfl

theorem bigEndian_u32Bytes {n : ℕ} (h : n ≤ u32Max) : bigEndian (u32Bytes n) = n := by
  have hmax : u32Max = 4294967295 := rfl
  simp only [bigEndian, u32Bytes, foldl_cons, foldl_nil, UInt8.toNat_ofNat']
  omega

/-- The frame that `writeWindowUpdate` queues. -/
def updateFrame (id increment : ℕ) : Written := ⟨.windowUpdate, 0, id, u32Bytes increment, none⟩

theorem increments_updateFrame {id increment : ℕ} (h : increment ≤ u32Max) (id' : ℕ) :
    increments [updateFrame id increment] id' = if id = id' then increment else 0 := by
  have hupdates : updates [updateFrame id increment] = [updateFrame id increment] := rfl
  rw [increments, hupdates]
  by_cases hid : id = id'
  · have hfilter : [updateFrame id increment].filter (fun frame => frame.streamId = id') =
        [updateFrame id increment] := filter_eq_self.2 fun frame hframe => by
      rw [mem_singleton.1 hframe]
      exact decide_eq_true hid
    rw [hfilter, map_singleton, sum_singleton, if_pos hid]
    exact bigEndian_u32Bytes h
  · have hfilter : [updateFrame id increment].filter (fun frame => frame.streamId = id') = [] :=
      filter_eq_nil_iff.2 fun frame hframe => by
        rw [mem_singleton.1 hframe, decide_eq_true_eq]
        exact hid
    rw [hfilter, if_neg hid]
    rfl

end Soup.Http2
