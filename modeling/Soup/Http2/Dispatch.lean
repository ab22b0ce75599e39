import Soup.Http2.Encode

/-!
# Received frames

`dispatch.rs`, and what `handle_data` does with the bytes of a read. The HPACK decoder is `Decoder`:
it takes one field from the front of a block, or it fails. A decoder that went through takes at
least one byte.
-/

namespace Soup.Http2

open List FrameHeader

/-- `LOCAL_MAX_CONTINUATIONS`. -/
def localMaxContinuations : ℕ := 8

structure DecodeResult (D : Type) where
  /-- The decoder's next state. -/
  hpack : D
  name : Bytes
  value : Bytes
  next : ℕ

structure Decoder (D : Type) where
  decode : D → Bytes → Option (DecodeResult D)
  advances : ∀ hpack src result, decode hpack src = some result → 0 < result.next

/-! ## Header fields -/

def isMalformedNameByte (c : UInt8) : Bool :=
  !((b 'a' ≤ c && c ≤ b 'z') || (b '0' ≤ c && c ≤ b '9') || (text "!#$%&'*+-.^_`|~").contains c)

def isMalformedResponseField (name : Bytes) : Bool :=
  name.isEmpty || name.any isMalformedNameByte ||
    ["connection", "keep-alive", "proxy-connection", "te", "transfer-encoding", "upgrade"].any
      (text · == name)

def isMalformedResponseValue (value : Bytes) : Bool :=
  value.any fun c => c == 0 || c == b '\r' || c == b '\n'

/-- Without SP and HTAB at its ends. -/
def trimResponseValue (value : Bytes) : Bytes :=
  let blank := fun c => c == b ' ' || c == b '\t'
  ((value.dropWhile blank).reverse.dropWhile blank).reverse

/-- What the loop over a block gathers. -/
structure Fields where
  status : ℕ := 0
  seenRegular : Bool := false
  seenStatus : Bool := false
  malformed : Bool := false
  untrimmedLen : ℕ
  decodedBytes : Bytes
  headers : List (Bytes × Bytes) := []

/-- `status-code` is a 3-digit integer. -/
def parseStatus (value : Bytes) : ℕ :=
  if value.length = 3 then ((parseUnsigned value).map UInt64.toNat).getD 0 else 0

/-- What is done with one field, with the status of an earlier block. `none`: the list is too large.
-/
def visitField (statusCode : ℕ) (fields : Fields) (name value : Bytes) : Option Fields :=
  if name.head? = some (b ':') then
    if statusCode ≠ 0 ∨ fields.seenRegular ∨ fields.seenStatus ∨ name ≠ text ":status" then
      some { fields with malformed := true }
    else
      let status := parseStatus value
      some { fields with
        seenStatus := true, status := status,
        malformed := fields.malformed || decide (status < 100 ∨ status > 999) }
  else
    let fields := { fields with seenRegular := true }
    if statusCode ≠ 0 ∨ fields.malformed then some fields
    else if isMalformedResponseField name ∨ isMalformedResponseValue value then
      some { fields with malformed := true }
    else
      let untrimmedLen := fields.untrimmedLen + (name.length + value.length)
      if untrimmedLen > localMaxHeaderListSize then none
      else
        some { fields with
          untrimmedLen := untrimmedLen
          decodedBytes := fields.decodedBytes ++ name ++ trimResponseValue value
          headers := fields.headers ++ [(name, trimResponseValue value)] }

/-! ## Blocks -/

section Blocks

variable {D : Type} (decoder : Decoder D)

/-- The loop of `decode_header_block`: the decoder's state at its end, with the fields or the error.
-/
def decodeFields (statusCode : ℕ) (hpack : D) (fields : Fields) (block : Bytes) :
    D × Except Error Fields :=
  if _hblock : block = [] then (hpack, .ok fields)
  else
    match _hdecode : decoder.decode hpack block with
    | none => (hpack, .error .http2CompressionError)
    | some result =>
      match visitField statusCode fields result.name result.value with
      | none => (result.hpack, .error .http2HeaderListTooLarge)
      | some fields => decodeFields statusCode result.hpack fields (block.drop result.next)
termination_by block.length
decreasing_by
  have := decoder.advances _ _ _ _hdecode
  have := length_pos_iff.2 _hblock
  rw [length_drop]
  omega

/-- The loop of `decode_discard_orphan`. -/
def discardFields (hpack : D) (block : Bytes) : D × Bool :=
  if _hblock : block = [] then (hpack, true)
  else
    match _hdecode : decoder.decode hpack block with
    | none => (hpack, false)
    | some result => discardFields result.hpack (block.drop result.next)
termination_by block.length
decreasing_by
  have := decoder.advances _ _ _ _hdecode
  have := length_pos_iff.2 _hblock
  rw [length_drop]
  omega

namespace Session

def decodeDiscardOrphan (session : Session D) : Session D :=
  let (hpack, done) := discardFields decoder session.hpack session.orphanHeaderBlock
  let session := { session with hpack := hpack, orphanHeaderBlock := [] }
  if done then session else session.fail .http2CompressionError

/-- What `decode_header_block` does with the fields of a whole block. -/
def applyFields (session : Session D) (stream : Stream) (fields : Fields) : Session D × Stream :=
  if fields.malformed then
    let (session, stream) := session.rstStream stream .protocolError
    (session, { stream with fatalError := some .http2ProtocolError })
  else if stream.statusCode ≠ 0 then
    -- trailers
    (session, if !stream.headersEndStream then
      { stream with fatalError := some .http2ProtocolError } else stream)
  else if fields.status = 0 then
    (session, { stream with fatalError := some .http2ProtocolError })
  else if fields.status ≥ 100 ∧ fields.status < 200 then
    let stream := if fields.status = 100 then { stream with awaitingContinue := false } else stream
    (session, if stream.remoteClosed then
      { stream with fatalError := some .http2ProtocolError } else stream)
  else
    let stream := { stream with
      statusCode := fields.status, headersReady := true, decodedBytes := fields.decodedBytes,
      decodedHeaders := stream.decodedHeaders ++ fields.headers }
    if stream.awaitingContinue then
      -- the server has decided without seeing the body
      let stream := { stream with awaitingContinue := false }
      (session.writeData stream endStream [], stream.sentEndStream)
    else (session, stream)

def decodeHeaderBlock (session : Session D) (stream : Stream) : Session D × Stream :=
  let (hpack, result) := decodeFields decoder stream.statusCode session.hpack
    { untrimmedLen := stream.decodedBytes.length, decodedBytes := stream.decodedBytes }
    stream.headerBlock
  let session := { session with hpack := hpack }
  let stream := { stream with headerBlock := [] }
  match result with
  | .error error => (session.fail error, stream)
  | .ok fields => session.applyFields stream fields

end Session

end Blocks

/-- `reset_stream_frame_received`. -/
def Session.resetStreamFrameReceived {D : Type} (session : Session D) : Session D :=
  { session with
    streamProgressed := session.streamProgressed || session.awaitingPingAck
    livenessPingSpent := false }

def stripPadding (payload : Bytes) : Option Bytes :=
  match payload with
  | [] => none
  | pad :: rest => if pad.toNat ≥ payload.length then none
    else some (rest.take (rest.length - pad.toNat))

/-- The fragment of a HEADERS frame, without padding and priority. -/
def headersFragment (flags : UInt8) (payload : Bytes) : Except Error Bytes :=
  match (if isSet flags padded then stripPadding payload else some payload) with
  | none => .error .http2ProtocolError
  | some fragment =>
    if isSet flags priority ∧ fragment.length < streamPriorityByteSize then
      .error .http2ProtocolError
    else
      let fragment :=
        if isSet flags priority then fragment.drop streamPriorityByteSize else fragment
      if fragment.length > localMaxHeaderListSize then .error .http2HeaderListTooLarge
      else .ok fragment

namespace Session

variable {D : Type} (decoder : Decoder D) (session : Session D)

/-- An id that no request of ours had. -/
def isIdle (streamId : ℕ) : Bool :=
  streamId % 2 = 0 || decide (streamId ≥ session.nextStreamId)

/-! ## SETTINGS -/

/-- How the loop over the windows ends. -/
inductive Shifted where
  | fine
  | overflow
  | panic
  deriving DecidableEq, Repr

def shiftWindows (delta : ℤ) : List Stream → List Stream × Shifted
  | [] => ([], .fine)
  | stream :: streams =>
    let next := stream.sendWindow + delta
    if next > maxWindowSize then (stream :: streams, .overflow)
    else if next < -2 ^ 31 then (stream :: streams, .panic)
    else
      let (streams, shifted) := shiftWindows delta streams
      ({ stream with sendWindow := next } :: streams, shifted)

def applySetting (unit : ℕ × ℕ) : Session D :=
  let (type, value) := unit
  if type = settingsMaxFrameSize then
    if hsize : defaultMaxFrameSize ≤ value ∧ value ≤ maxFrameSize then
      { session with remoteMaxFrameSize := ⟨value, hsize⟩ }
    else session.fail .http2ProtocolError
  else if type = settingsMaxConcurrentStreams then
    { session with remoteMaxConcurrentStreams := value }
  else if type = settingsHeaderTableSize then
    { session with
      pendingHpackEncCapacity := some (min (session.pendingHpackEncCapacity.getD value) value) }
  else if type = settingsInitialWindowSize then
    if value > maxWindowSize then session.fail .http2FlowControlError
    else
      let delta : ℤ := value - session.remoteInitialWindowSize
      let (streams, shifted) := shiftWindows delta session.streams
      let session := { session with remoteInitialWindowSize := value, streams := streams }
      match shifted with
      | .fine => session
      | .overflow => session.fail .http2FlowControlError
      | .panic => session.panic
  else session

def applySettings : Session D → List (ℕ × ℕ) → Session D
  | session, [] => session
  | session, unit :: units =>
    let session := session.applySetting unit
    if session.stopped then session else applySettings session units

def dispatchSettings (flags : UInt8) (streamId : ℕ) (payload : Bytes) : Session D :=
  if streamId ≠ 0 then session.fail .http2ProtocolError
  else if isSet flags ack then
    if payload.length ≠ 0 then session.fail .http2FrameSizeError else session
  else if payload.length % settingsPayloadUnitByteSize ≠ 0 then session.fail .http2FrameSizeError
  else
    let session := session.applySettings (settingUnits payload)
    if session.stopped then session
    else if session.writeBuffer ≥ writeBufferControlLimit then session.fail .http2EnhanceYourCalm
    else { session.writeControl .settings ack 0 [] with settingsReceived := true }

/-! ## The other frames -/

def dispatchWindowUpdate (streamId : ℕ) (payload : Bytes) : Session D :=
  if payload.length ≠ 4 then session.fail .http2FrameSizeError
  else
    let inc := uint31 (bigEndian payload)
    if streamId = 0 then
      if inc = 0 then session.fail .http2ProtocolError
      else
        let next := session.connSendWindow + inc
        if next > maxWindowSize then session.fail .http2FlowControlError
        else if next < -2 ^ 31 then session.panic
        else { session with connSendWindow := next, streamProgressed := true }
    else
      match session.stream? streamId with
      | some stream =>
        if inc = 0 then
          let (session, stream) := session.rstStream stream .protocolError
          session.putStream { stream with fatalError := some .http2ProtocolError }
        else
          let next := stream.sendWindow + inc
          if next > maxWindowSize then
            let (session, stream) := session.rstStream stream .flowControlError
            session.putStream { stream with fatalError := some .http2FlowControlError }
          else if next < -2 ^ 31 then session.panic
          else
            { session.putStream
                { stream with sendWindow := next, accepted := stream.accepted + inc } with
              streamProgressed := true }
      | none => if session.isIdle streamId then session.fail .http2ProtocolError else session

def dispatchPing (flags : UInt8) (streamId : ℕ) (payload : Bytes) : Session D :=
  if payload.length ≠ 8 then session.fail .http2FrameSizeError
  else if streamId ≠ 0 then session.fail .http2ProtocolError
  else if !isSet flags ack then
    if session.writeBuffer ≥ writeBufferControlLimit then session.fail .http2EnhanceYourCalm
    else session.writeControl .ping ack 0 payload
  else { session with awaitingPingAck := false }

def dispatchPriority (streamId : ℕ) (payload : Bytes) : Session D :=
  if streamId = 0 then session.fail .http2ProtocolError
  else if payload.length ≠ streamPriorityByteSize then session.fail .http2FrameSizeError
  else session

/-- HEADERS of a stream that is not tracked. -/
def dispatchOrphanHeaders (flags : UInt8) (streamId : ℕ) (payload : Bytes) : Session D :=
  if streamId = 0 ∨ session.isIdle streamId then session.fail .http2ProtocolError
  else
    match headersFragment flags payload with
    | .error error => session.fail error
    | .ok fragment =>
      let session := { session.resetStreamFrameReceived with orphanHeaderBlock := fragment }
      if isSet flags endHeaders then session.decodeDiscardOrphan decoder
      else { session with expectingContinuation := streamId }

def dispatchHeaders (flags : UInt8) (streamId : ℕ) (payload : Bytes) : Session D :=
  let session := { session with continuationCount := 0 }
  match session.stream? streamId with
  | none => session.dispatchOrphanHeaders decoder flags streamId payload
  | some stream =>
    let session := { session with streamProgressed := true, livenessPingSpent := false }
    match headersFragment flags payload with
    | .error error => session.fail error
    | .ok fragment =>
      let stream := { stream with
        headerBlock := fragment, headersEndStream := isSet flags endStream }
      if isSet flags endHeaders then
        let stream := if stream.headersEndStream then stream.recvEndStream else stream
        let (session, stream) := session.decodeHeaderBlock decoder stream
        session.putStream stream
      else { session.putStream stream with expectingContinuation := stream.id }

def dispatchContinuation (flags : UInt8) (streamId : ℕ) (payload : Bytes) : Session D :=
  if session.expectingContinuation = 0 ∨ streamId ≠ session.expectingContinuation then
    session.fail .http2ProtocolError
  else
    let session := { session with continuationCount := session.continuationCount + 1 }
    if session.continuationCount > localMaxContinuations then session.fail .http2EnhanceYourCalm
    else
      match session.stream? session.expectingContinuation with
      | some stream =>
        if stream.headerBlock.length + payload.length > localMaxHeaderListSize then
          session.fail .http2HeaderListTooLarge
        else
          let stream := { stream with headerBlock := stream.headerBlock ++ payload }
          if isSet flags endHeaders then
            let session := { session with expectingContinuation := 0 }
            let stream := if stream.headersEndStream then stream.recvEndStream else stream
            let (session, stream) := session.decodeHeaderBlock decoder stream
            session.putStream stream
          else session.putStream stream
      | none =>
        if session.orphanHeaderBlock.length + payload.length > localMaxHeaderListSize then
          session.fail .http2HeaderListTooLarge
        else
          let session := { session with orphanHeaderBlock := session.orphanHeaderBlock ++ payload }
          if isSet flags endHeaders then
            { session with expectingContinuation := 0 }.decodeDiscardOrphan decoder
          else session

/-- `u32::MAX`. -/
def u32Max : ℕ := 2 ^ 32 - 1

def dispatchData (flags : UInt8) (streamId : ℕ) (payload : Bytes) : Session D :=
  let session :=
    { session with connUnackedBytes := min (session.connUnackedBytes + payload.length) u32Max }
  match session.stream? streamId with
  | none =>
    let session :=
      if streamId = 0 ∨ session.isIdle streamId then session.fail .http2ProtocolError else session
    session.resetStreamFrameReceived
  | some stream =>
    let session := { session with streamProgressed := true, livenessPingSpent := false }
    if stream.statusCode = 0 then
      let (session, stream) := session.rstStream stream .protocolError
      session.putStream { stream with fatalError := some .http2ProtocolError }
    else if stream.remoteClosed then
      session.putStream
        { stream with fatalError := some (stream.fatalError.getD .http2ProtocolError) }
    else
      let stream :=
        { stream with unackedBytes := min (stream.unackedBytes + payload.length) u32Max }
      match (if isSet flags padded then stripPadding payload else some payload) with
      | none => (session.putStream stream).fail .http2ProtocolError
      | some fragment =>
        let stream := if isSet flags endStream then stream.recvEndStream else stream
        session.putStream { stream with
          dataBytesReceived := stream.dataBytesReceived + fragment.length
          bodyBuffer := stream.bodyBuffer ++ fragment }

def dispatchRstStream (streamId : ℕ) (payload : Bytes) : Session D :=
  if payload.length ≠ 4 then session.fail .http2FrameSizeError
  else if streamId = 0 ∨ session.isIdle streamId then session.fail .http2ProtocolError
  else
    match session.stream? streamId with
    | none => session
    | some stream =>
      if stream.rstDone then session
      else
        let hadResponse := stream.remoteClosed
        let code := bigEndian payload
        session.putStream { stream with
          rstDone := true, state := .closed,
          fatalError :=
            if code = ErrorCode.noError.code then
              if hadResponse then none else some .http2StreamReset
            else if code = ErrorCode.refusedStream.code then some .http2RefusedStream
            else some .http2StreamReset }

/-- What a GOAWAY does to a stream. -/
def goawayStream (lastId : ℕ) (graceful : Bool) (stream : Stream) : Stream :=
  if stream.id > lastId then
    { stream with fatalError := some (if graceful then .http2RefusedStream else .http2GoAway) }
  else if !graceful && !stream.remoteClosed then
    { stream with fatalError := some .http2GoAway }
  else stream

def dispatchGoaway (streamId : ℕ) (payload : Bytes) : Session D :=
  if streamId ≠ 0 then session.fail .http2ProtocolError
  else if payload.length < 8 then session.fail .http2FrameSizeError
  else
    let lastId := uint31 (bigEndian (payload.take 4))
    let graceful := decide (bigEndian ((payload.drop 4).take 4) = ErrorCode.noError.code)
    { session with
      goawayReceived := true, goawayLastStreamId := lastId
      streams := session.streams.map (goawayStream lastId graceful) }

def dispatchFrame (type flags : UInt8) (streamId : ℕ) (payload : Bytes) : Session D :=
  if session.expectingContinuation ≠ 0 ∧ FrameType.ofByte type ≠ some .continuation then
    session.fail .http2ProtocolError
  else if !session.settingsReceived ∧ FrameType.ofByte type ≠ some .settings then
    session.fail .http2ProtocolError
  else
    match FrameType.ofByte type with
    | some .settings => session.dispatchSettings flags streamId payload
    | some .windowUpdate => session.dispatchWindowUpdate streamId payload
    | some .ping => session.dispatchPing flags streamId payload
    | some .priority => session.dispatchPriority streamId payload
    | some .headers => session.dispatchHeaders decoder flags streamId payload
    | some .continuation => session.dispatchContinuation decoder flags streamId payload
    | some .data => session.dispatchData flags streamId payload
    | some .rstStream => session.dispatchRstStream streamId payload
    | some .goaway => session.dispatchGoaway streamId payload
    | some .pushPromise => session.fail .http2ProtocolError
    | none => session

/-! ## Reads -/

/-- Dispatch every complete frame, with the number of the bytes of the frames. -/
def parseFrames (session : Session D) (buf : Bytes) : Session D × ℕ :=
  if _hheader : buf.length < byteSize then (session, 0)
  else
    let header := decode (buf.take byteSize)
    if header.length > defaultMaxFrameSize then (session.fail .http2FrameSizeError, 0)
    else
      let frameLen := byteSize + header.length
      if buf.length < frameLen then (session, 0)
      else
        let session := session.dispatchFrame decoder header.type header.flags
          header.streamIdentifier ((buf.drop byteSize).take header.length)
        if session.stopped then (session, frameLen)
        else
          let (session, consumed) := session.parseFrames (buf.drop frameLen)
          (session, frameLen + consumed)
termination_by buf.length
decreasing_by
  have hbyte : byteSize = 9 := rfl
  rw [length_drop]
  omega

/-- The first part of `handle_data`. -/
def receive (incoming : Bytes) : Session D :=
  let session := { session with streamProgressed := false }
  if session.readBuffer = [] then
    let (session, consumed) := session.parseFrames decoder incoming
    if consumed < incoming.length ∧ session.fatalError = none then
      { session with readBuffer := session.readBuffer ++ incoming.drop consumed }
    else session
  else
    let buf := session.readBuffer ++ incoming
    let (session, consumed) := { session with readBuffer := buf }.parseFrames decoder buf
    { session with readBuffer := session.readBuffer.drop consumed }

/-- A read while no request is there. -/
def onIdleData (incoming : Bytes) : Session D :=
  let buf := session.readBuffer ++ incoming
  let (session, consumed) := { session with readBuffer := buf }.parseFrames decoder buf
  { session with readBuffer := session.readBuffer.drop consumed }

/-- The client of a stream took its headers, and its body if it wanted that. -/
def deliverStream (id : ℕ) (takesBody : Bool) : Session D :=
  match session.stream? id with
  | none => session
  | some stream => session.putStream { stream with
      headersReady := false, bodyBuffer := if takesBody then [] else stream.bodyBuffer }

/-- A PING on a silent connection, and whether the socket took it. -/
def probeLiveness (flushed : Bool) : Session D :=
  if session.awaitingPingAck then session
  else if session.livenessPingSpent then { session with goawayReceived := true }
  else
    { session.writeControl .ping 0 0 (replicate 8 0) with
      livenessPingSpent := true, awaitingPingAck := flushed }

/-- What the requests took is given back, where it is half of a window. -/
def replenishWindow (isReceivePaused : ℕ → Bool) : Session D :=
  let threshold := localInitialWindowSize / 2
  let session :=
    if session.connUnackedBytes ≥ threshold then
      { session.writeWindowUpdate 0 session.connUnackedBytes with connUnackedBytes := 0 }
    else session
  let due := fun stream : Stream =>
    !(stream.unackedBytes < threshold || stream.remoteClosed || isReceivePaused stream.id)
  let updates := session.streams.filter due
  let session := { session with
    streams := session.streams.map fun stream =>
      if due stream then { stream with unackedBytes := 0 } else stream }
  updates.foldl (fun session stream => session.writeWindowUpdate stream.id stream.unackedBytes)
    session

end Session

end Soup.Http2
