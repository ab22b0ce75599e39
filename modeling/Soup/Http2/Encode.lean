import Soup.Http2.Session

/-!
# Requests

`encode.rs`, and `attach` and `stream_request_body` of `ClientSession.rs`. The header block that the
HPACK encoder makes of a request is part of the request.
-/

namespace Soup.Http2

open List Nat

/-- `WRITE_BUFFER_HIGH_WATER`. -/
def writeBufferHighWater : ℕ := 256 * 1024

/-- `WRITE_BUFFER_CONTROL_LIMIT`. -/
def writeBufferControlLimit : ℕ := 1024 * 1024

/-- `LOCAL_INITIAL_WINDOW_SIZE`. -/
def localInitialWindowSize : ℕ := 1 <<< 24

/-- `LOCAL_MAX_HEADER_LIST_SIZE`. -/
def localMaxHeaderListSize : ℕ := 256 * 1024

/-- `usize::MAX`. -/
def usizeMax : ℕ := 2 ^ 64 - 1

theorem FrameSize.pos (size : FrameSize) : 0 < (size : ℕ) :=
  lt_of_lt_of_le (by decide) size.2.1

namespace Session

variable {D : Type}

def writePreface (session : Session D) : Session D :=
  let session := session.queue clientPreface.length
  let session := session.writeControl .settings 0 0
    (encodeSetting settingsEnablePush 0 ++
      encodeSetting settingsInitialWindowSize localInitialWindowSize ++
      encodeSetting settingsMaxHeaderListSize localMaxHeaderListSize)
  let session := session.writeWindowUpdate 0 (localInitialWindowSize - defaultWindowSize)
  { session with prefaceSent := true }

/-- The loop of `write_header_block`. -/
def writeHeaderFrames (session : Session D) (streamId : ℕ) (ends first : Bool) (remaining : Bytes) :
    Session D :=
  let rest := remaining.drop session.remoteMaxFrameSize
  let last := rest.isEmpty
  let flags := (if last then endHeaders else 0) ||| (if first && ends then endStream else 0)
  let session' := session.writeControl (if first then .headers else .continuation) flags streamId
    (remaining.take session.remoteMaxFrameSize)
  if _hlast : last then session' else session'.writeHeaderFrames streamId ends false rest
termination_by remaining.length
decreasing_by
  have _hlast : ¬(remaining.drop session.remoteMaxFrameSize).isEmpty = true := _hlast
  rw [List.isEmpty_iff, List.drop_eq_nil_iff, not_le] at _hlast
  rw [length_drop]
  exact sub_lt (lt_of_le_of_lt (zero_le _) _hlast) session.remoteMaxFrameSize.pos

def writeHeaderBlock (session : Session D) (streamId : ℕ) (block : Bytes) (ends : Bool) :
    Session D :=
  session.writeHeaderFrames streamId ends true block

/-- Frame `data` into DATA frames. The last part is the number of the bytes that are in frames.
`consumed` has those of the frames before. -/
def writeDataWindowed (session : Session D) (stream : Stream) (remaining : Bytes) (ends : Bool)
    (cap consumed : ℕ) : Session D × Stream × ℕ :=
  let window := (min stream.sendWindow session.connSendWindow).toNat
  if _hwindow : remaining ≠ [] ∧ window = 0 then (session, stream, consumed)
  else if remaining ≠ [] ∧ session.writeBuffer ≥ writeBufferHighWater
    then (session, stream, consumed)
  else if consumed ≥ cap ∧ remaining ≠ [] then (session, stream, consumed)
  else
    let chunkLen := min (min remaining.length session.remoteMaxFrameSize) window
    let last := chunkLen = remaining.length
    let session' := session.writeData stream (if last ∧ ends then endStream else 0)
      (remaining.take chunkLen)
    let session' := { session' with connSendWindow := session'.connSendWindow - chunkLen }
    let stream' := { stream with sendWindow := stream.sendWindow - chunkLen }
    if _hlast : last then (session', stream', consumed + chunkLen)
    else session'.writeDataWindowed stream' (remaining.drop chunkLen) ends cap (consumed + chunkLen)
termination_by remaining.length
decreasing_by
  have hpos := session.remoteMaxFrameSize.pos
  have hlen : 0 < remaining.length := by
    rcases Nat.eq_zero_or_pos remaining.length with hzero | hpos
    · exact absurd (show chunkLen = remaining.length by omega) _hlast
    · exact hpos
  have hzero : window ≠ 0 := fun h => _hwindow ⟨length_pos_iff.1 hlen, h⟩
  rw [length_drop]
  omega

/-- Push as much of `stream`'s request body as the send windows allow. -/
def drainSendBody (session : Session D) (stream : Stream) (cap : ℕ) : Session D × Stream :=
  if stream.localClosed ∨ stream.awaitingContinue ∨ stream.fatalError.isSome then (session, stream)
  else
    match stream.client with
    | none => (session, stream)
    | some .bytes =>
      let (session, stream, sent) :=
        session.writeDataWindowed stream stream.pendingBody true cap 0
      let stream := { stream with pendingBody := stream.pendingBody.drop sent }
      (session, if stream.pendingBody = [] then stream.sentEndStream else stream)
    | some (.stream buffer ended) =>
      if buffer = [] ∧ !ended then (session, stream)
      else
        let (session, stream, sent) := session.writeDataWindowed stream buffer ended cap 0
        let stream := { stream with client := some (.stream (buffer.drop sent) ended) }
        (session, if buffer.drop sent = [] ∧ ended then stream.sentEndStream else stream)

/-- The body of the loop over the streams. -/
def drainAt (slice : ℕ) (state : Session D × Bool) (i : ℕ) : Session D × Bool :=
  let (session, progressed) := state
  match session.streams[i]? with
  | none => (session, progressed)
  | some stream =>
    if stream.localClosed ∨ stream.sendWindow ≤ 0 then (session, progressed)
    else
      let before := session.connSendWindow
      let (session, stream) := session.drainSendBody stream slice
      (session.putStream stream,
        progressed || decide (session.connSendWindow ≠ before) || stream.localClosed)

/-- The outer loop, with a bound on its passes. True if it stopped at the high-water mark. -/
def drainLoop (slice : ℕ) : ℕ → Session D → Option (Session D × Bool)
  | 0, _ => none
  | fuel + 1, session =>
    if session.connSendWindow ≤ 0 then some (session, false)
    else if session.writeBuffer ≥ writeBufferHighWater then some (session, true)
    else
      let (session, progressed) :=
        (range session.streams.length).foldl (drainAt slice) (session, false)
      if progressed then drainLoop slice fuel session else some (session, false)

def drainSendBodies (fuel : ℕ) (session : Session D) : Option (Session D × Bool) :=
  drainLoop session.remoteMaxFrameSize fuel session

/-! ## A new request -/

/-- Why a header block was not made. -/
inductive AttachFailure where
  | compressBody
  | encodeHeader
  deriving DecidableEq, Repr

/-- The body of a request: bytes, or what was pushed so far. -/
inductive Payload where
  | bytes (bytes : Bytes)
  | stream (buffer : Bytes) (ended : Bool)
  deriving DecidableEq, Repr

structure Request where
  block : Except AttachFailure Bytes
  expectContinue : Bool
  payload : Payload

def Request.client (request : Request) : RequestBody :=
  match request.payload with
  | .bytes _ => .bytes
  | .stream buffer ended => .stream buffer ended

/-- All of the body that is given. -/
def Request.body (request : Request) : Bytes :=
  match request.payload with
  | .bytes bytes => bytes
  | .stream buffer _ => buffer

/-- `write_request` from the header block on. -/
def writeRequest (session : Session D) (stream : Stream) (request : Request) (block : Bytes) :
    Session D × Stream :=
  match request.payload with
  | .stream _ _ =>
    let stream := { stream with awaitingContinue := request.expectContinue }
    (session.writeHeaderBlock stream.id block false, stream)
  | .bytes body =>
    if body ≠ [] then
      let stream := { stream with awaitingContinue := request.expectContinue }
      let session := session.writeHeaderBlock stream.id block false
      session.drainSendBody { stream with pendingBody := body } usizeMax
    else (session.writeHeaderBlock stream.id block true, stream.sentEndStream)

/-- The stream of a request as `attach` makes it. -/
def newStream (session : Session D) (request : Request) : Stream :=
  { id := session.nextStreamId
    client := some request.client
    sendWindow := min session.remoteInitialWindowSize maxWindowSize
    body := request.body }

def attach (session : Session D) (request : Request) : Session D :=
  let stream := session.newStream request
  let session :=
    { session with
      nextStreamId := session.nextStreamId + 2, streams := session.streams ++ [stream] }
  let session := if session.prefaceSent then session else session.writePreface
  match request.block with
  | .error .compressBody => session.removeStream stream
  | .error .encodeHeader =>
    { session.removeStream stream with encoderPoisoned := true, pendingHpackEncCapacity := none }
  | .ok block =>
    let (session, stream) :=
      { session with pendingHpackEncCapacity := none }.writeRequest stream request block
    session.putStream stream

/-! ## The request body -/

inductive WriteMessageType where
  | data
  | «end»
  | lengthMismatch
  deriving DecidableEq, Repr

/-- The producer has more bytes for the body of a stream. -/
def appendBody (session : Session D) (id : ℕ) (bytes : Bytes) : Session D :=
  match session.stream? id with
  | none => session
  | some stream =>
    match stream.client with
    | some (.stream buffer ended) =>
      session.putStream { stream with
        client := some (.stream (buffer ++ bytes) ended), body := stream.body ++ bytes }
    | _ => session

def streamRequestBody (session : Session D) (id : ℕ) (message : WriteMessageType) : Session D :=
  match session.stream? id with
  | none => session
  | some stream =>
    match stream.client with
    | some (.stream buffer _) =>
      let stream := { stream with client := some (.stream buffer (message = .end)) }
      let session := session.putStream stream
      if message = .lengthMismatch then session.detach id
      else
        let (session, stream) := session.drainSendBody stream usizeMax
        session.putStream stream
    | _ => session

end Session

end Soup.Http2
