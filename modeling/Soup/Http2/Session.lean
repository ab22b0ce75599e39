import Soup.Bytes

/-!
# Frames and sessions

`h2.rs`. An integer on the wire has its bytes from the highest one.
-/

namespace Soup.Http2

def clientPreface : Bytes := text "PRI * HTTP/2.0\r\n\r\nSM\r\n\r\n"

def maxWindowSize : ℕ := 2 ^ 31 - 1

def maxStreamId : ℕ := 2 ^ 31 - 1

/-- Maximum 24-bit value. -/
def maxFrameSize : ℕ := 0x00FFFFFF

def defaultWindowSize : ℕ := 2 ^ 16 - 1

def defaultMaxFrameSize : ℕ := 16384

inductive FrameType where
  | data
  | headers
  | priority
  | rstStream
  | settings
  | pushPromise
  | ping
  | goaway
  | windowUpdate
  | continuation
  deriving DecidableEq, Repr

/-- The type of a byte. -/
def FrameType.ofByte : UInt8 → Option FrameType
  | 0x00 => some .data
  | 0x01 => some .headers
  | 0x02 => some .priority
  | 0x03 => some .rstStream
  | 0x04 => some .settings
  | 0x05 => some .pushPromise
  | 0x06 => some .ping
  | 0x07 => some .goaway
  | 0x08 => some .windowUpdate
  | 0x09 => some .continuation
  | _ => none

/-! ## Flags -/

def ack : UInt8 := 0x1

def endStream : UInt8 := 0x1

def endHeaders : UInt8 := 0x4

def padded : UInt8 := 0x8

def priority : UInt8 := 0x20

/-- `flags & flag != 0`. -/
def isSet (flags flag : UInt8) : Bool := flags &&& flag != 0

inductive ErrorCode where
  | noError
  | protocolError
  | internalError
  | flowControlError
  | frameSizeError
  | refusedStream
  | cancel
  | compressionError
  | enhanceYourCalm
  deriving DecidableEq, Repr

def ErrorCode.code : ErrorCode → ℕ
  | .noError => 0x0
  | .protocolError => 0x1
  | .internalError => 0x2
  | .flowControlError => 0x3
  | .frameSizeError => 0x6
  | .refusedStream => 0x7
  | .cancel => 0x8
  | .compressionError => 0x9
  | .enhanceYourCalm => 0xb

/-! ## Setting types -/

def settingsHeaderTableSize : ℕ := 0x1

def settingsEnablePush : ℕ := 0x2

def settingsMaxConcurrentStreams : ℕ := 0x3

def settingsInitialWindowSize : ℕ := 0x4

def settingsMaxFrameSize : ℕ := 0x5

def settingsMaxHeaderListSize : ℕ := 0x6

/-! ## Integers -/

/-- The number of some bytes, the highest one first. -/
def bigEndian (bytes : Bytes) : ℕ := bytes.foldl (fun n byte => n * 256 + byte.toNat) 0

/-- `UInt31WithReserved::uint31`. -/
def uint31 (n : ℕ) : ℕ := n % 2 ^ 31

/-- The bytes of a `u32`. -/
def u32Bytes (n : ℕ) : Bytes :=
  [UInt8.ofNat (n / 2 ^ 24), UInt8.ofNat (n / 2 ^ 16), UInt8.ofNat (n / 2 ^ 8), UInt8.ofNat n]

/-- An entry of a SETTINGS payload. -/
def encodeSetting (type value : ℕ) : Bytes :=
  UInt8.ofNat (type / 2 ^ 8) :: UInt8.ofNat type :: u32Bytes value

def streamPriorityByteSize : ℕ := 5

def settingsPayloadUnitByteSize : ℕ := 6

/-- The types and values of a SETTINGS payload. -/
def settingUnits : Bytes → List (ℕ × ℕ)
  | a :: b :: c :: d :: e :: f :: rest =>
    (bigEndian [a, b], bigEndian [c, d, e, f]) :: settingUnits rest
  | _ => []

structure FrameHeader where
  length : ℕ
  type : UInt8
  flags : UInt8
  streamIdentifier : ℕ
  deriving DecidableEq, Repr

namespace FrameHeader

def byteSize : ℕ := 9

/-- A complete header. The identifier is without the reserved bit, as `parse_frames` has it. -/
def decode (raw : Bytes) : FrameHeader :=
  ⟨bigEndian (raw.take 3), raw.getD 3 0, raw.getD 4 0, uint31 (bigEndian ((raw.drop 5).take 4))⟩

end FrameHeader

/-!
## Sessions

The state of `ClientSession.rs` and `Stream.rs`, with what changes it on both sides. `hpack` is the
decoder's state. Some fields are not in the source and no step reads them: what a stream's body is
as far as it was given, the increments that the stream accepted, the frames that were written with
the windows at that moment, and the streams that were removed. `panicked` is set where an integer
conversion has no result.
-/

inductive Error where
  | http2ProtocolError
  | http2FrameSizeError
  | http2FlowControlError
  | http2CompressionError
  | http2HeaderListTooLarge
  | http2EnhanceYourCalm
  | http2StreamReset
  | http2RefusedStream
  | http2GoAway
  | writeFailed
  deriving DecidableEq, Repr

inductive State where
  | «open»
  /-- We have written END_STREAM; no more DATA may be queued. -/
  | halfClosedLocal
  /-- Peer has sent END_STREAM; further DATA is STREAM_CLOSED. -/
  | halfClosedRemote
  | closed
  deriving DecidableEq, Repr

/-- What a request sends after its header block. -/
inductive RequestBody where
  | bytes
  /-- What was pushed and is not sent, and whether the end was pushed. -/
  | stream (buffer : Bytes) (ended : Bool)
  deriving DecidableEq, Repr

structure Stream where
  id : ℕ
  /-- The body of the client that the stream is for. -/
  client : Option RequestBody
  headerBlock : Bytes := []
  bodyBuffer : Bytes := []
  decodedBytes : Bytes := []
  decodedHeaders : List (Bytes × Bytes) := []
  statusCode : ℕ := 0
  state : State := .open
  rstDone : Bool := false
  headersReady : Bool := false
  headersEndStream : Bool := false
  awaitingContinue : Bool := false
  fatalError : Option Error := none
  unackedBytes : ℕ := 0
  dataBytesReceived : ℕ := 0
  sendWindow : ℤ
  pendingBody : Bytes := []
  /-- Not in the source: all of the body that was given. -/
  body : Bytes := []
  /-- Not in the source: the sum of the accepted increments. -/
  accepted : ℕ := 0
  deriving DecidableEq, Repr

namespace Stream

def sentEndStream (stream : Stream) : Stream :=
  { stream with
    state := match stream.state with
      | .open => .halfClosedLocal
      | .halfClosedRemote => .closed
      | other => other }

def recvEndStream (stream : Stream) : Stream :=
  { stream with
    state := match stream.state with
      | .open => .halfClosedRemote
      | .halfClosedLocal => .closed
      | other => other }

def localClosed (stream : Stream) : Bool :=
  stream.state = .halfClosedLocal || stream.state = .closed

def remoteClosed (stream : Stream) : Bool :=
  stream.state = .halfClosedRemote || stream.state = .closed

end Stream

/-- The windows and the largest frame. -/
structure Limits where
  sendWindow : ℤ
  connSendWindow : ℤ
  remoteMaxFrameSize : ℕ
  deriving DecidableEq, Repr

structure Written where
  type : FrameType
  flags : UInt8
  streamId : ℕ
  payload : Bytes
  /-- Not in the source: for DATA, the limits when it was written. -/
  limits : Option Limits
  deriving DecidableEq, Repr

/-- A frame size that the settings allow. -/
abbrev FrameSize := { size : ℕ // defaultMaxFrameSize ≤ size ∧ size ≤ maxFrameSize }

structure Session (D : Type) where
  hpack : D
  /-- The number of the bytes that are queued for the socket. -/
  writeBuffer : ℕ := 0
  readBuffer : Bytes := []
  streams : List Stream := []
  nextStreamId : ℕ := 1
  /-- Stream id whose CONTINUATION sequence is in progress; 0 = none. -/
  expectingContinuation : ℕ := 0
  continuationCount : ℕ := 0
  prefaceSent : Bool := false
  settingsReceived : Bool := false
  goawayReceived : Bool := false
  encoderPoisoned : Bool := false
  streamProgressed : Bool := false
  awaitingPingAck : Bool := false
  livenessPingSpent : Bool := false
  goawayLastStreamId : ℕ := 0
  fatalError : Option Error := none
  orphanHeaderBlock : Bytes := []
  remoteMaxFrameSize : FrameSize := ⟨defaultMaxFrameSize, by decide⟩
  remoteMaxConcurrentStreams : ℕ
  remoteInitialWindowSize : ℕ := defaultWindowSize
  pendingHpackEncCapacity : Option ℕ := none
  connSendWindow : ℤ := defaultWindowSize
  connUnackedBytes : ℕ := 0
  /-- Not in the source. -/
  panicked : Bool := false
  /-- Not in the source: every frame that was queued. -/
  written : List Written := []
  /-- Not in the source: the streams that were removed. -/
  gone : List Stream := []

namespace Session

variable {D : Type} (session : Session D)

def fail (error : Error) : Session D := { session with fatalError := some error }

def panic : Session D := { session with panicked := true }

/-- No more frames are dispatched. -/
def stopped : Bool := session.fatalError.isSome || session.panicked

def stream? (id : ℕ) : Option Stream := session.streams.find? fun stream => stream.id = id

/-- A stream is changed in its place. -/
def putStream (stream : Stream) : Session D :=
  { session with
    streams := session.streams.map fun other => if other.id = stream.id then stream else other }

def hasHeadroom : Bool :=
  !session.goawayReceived && !session.encoderPoisoned && !session.awaitingPingAck &&
    session.fatalError.isNone &&
    decide (session.streams.length < session.remoteMaxConcurrentStreams) &&
    decide (session.nextStreamId < maxStreamId)

/-! ### Writing -/

def queue (len : ℕ) : Session D := { session with writeBuffer := session.writeBuffer + len }

def writeFrame (type : FrameType) (flags : UInt8) (streamId : ℕ) (payload : Bytes)
    (limits : Option Limits) : Session D :=
  { session.queue (FrameHeader.byteSize + payload.length) with
    written := session.written ++ [⟨type, flags, streamId, payload, limits⟩] }

def writeControl (type : FrameType) (flags : UInt8) (streamId : ℕ) (payload : Bytes) : Session D :=
  session.writeFrame type flags streamId payload none

/-- A DATA frame of a stream. -/
def writeData (stream : Stream) (flags : UInt8) (payload : Bytes) : Session D :=
  session.writeFrame .data flags stream.id payload
    (some ⟨stream.sendWindow, session.connSendWindow, session.remoteMaxFrameSize⟩)

def writeWindowUpdate (streamId increment : ℕ) : Session D :=
  session.writeControl .windowUpdate 0 streamId (u32Bytes increment)

/-- Send RST_STREAM for `stream` and mark it closed. -/
def rstStream (stream : Stream) (code : ErrorCode) : Session D × Stream :=
  if stream.rstDone || stream.state = .closed then (session, stream)
  else
    (session.writeControl .rstStream 0 stream.id (u32Bytes code.code),
      { stream with rstDone := true, state := .closed })

/-- The socket takes some of the bytes, or it fails. -/
def flush (wrote : Option ℕ) : Session D :=
  match wrote with
  | some wrote => { session with writeBuffer := session.writeBuffer - wrote }
  | none => session.fail .writeFailed

/-! ### Streams -/

/-- The last entry comes into the place of a removed one. -/
def swapRemove : List Stream → ℕ → List Stream
  | [], _ => []
  | stream :: rest, id =>
    if stream.id = id then
      match rest.getLast? with
      | none => []
      | some last => last :: rest.dropLast
    else stream :: swapRemove rest id

/-- If the stream was mid-CONTINUATION, its fragment is for the frames that follow. -/
def removeStream (stream : Stream) : Session D :=
  let session :=
    if session.expectingContinuation = stream.id then
      { session with orphanHeaderBlock := stream.headerBlock }
    else session
  { session with
    streams := swapRemove session.streams stream.id, gone := session.gone ++ [stream] }

/-- The stream is taken out, and reset where it is not closed: `detach_with_failure`, and the end of
the deliver loop. -/
def detach (id : ℕ) : Session D :=
  match session.stream? id with
  | none => session
  | some stream =>
    let (session, stream) := session.rstStream stream .cancel
    session.removeStream stream

end Session

end Soup.Http2
