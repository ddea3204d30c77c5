import Snort.Structures.Codec
import Snort.Flow.FlowKey

/-!
# High availability messages

The update messages of `ha.cc`: a header, the key of the flow, and for the session
client and each pending client a client header and its content. The length of a
message is computed by one loop, its content is written by another one through
`FlowHAClient::place`, which refuses what does not fit.
-/

namespace Snort.Ha
open Sfip Snort.Flow Codec

/-! ## Flows -/

structure LwState where
  sessionFlags : BitVec 32
  ipprotocol : BitVec 16
  snortProtocolId : BitVec 16
  direction : BitVec 8
  ignoreDirection : BitVec 8
  /-- The end of the struct, which `memcpy` copies too. -/
  padding : BitVec 16
deriving DecidableEq

inductive FlowState where
  | setup
  | inspect
  | block
  | reset
  | allow
deriving DecidableEq, Repr

structure FlowHAState where
  state : BitVec 8
  pending : BitVec 16
deriving DecidableEq

namespace FlowHAState

def critical : BitVec 8 := 0x80

def major : BitVec 8 := 0x40

def new : BitVec 8 := 0x01

def modified : BitVec 8 := 0x02

def standby : BitVec 8 := 0x08

def newSession : BitVec 8 := 0x10

variable (s : FlowHAState)

def checkPending (handle : BitVec 16) : Bool := s.pending &&& handle ≠ 0

def clearPending (handle : BitVec 16) : FlowHAState := { s with pending := s.pending &&& ~~~handle }

def add (newState : BitVec 8) : FlowHAState := { s with state := s.state ||| newState }

def clear (oldState : BitVec 8) : FlowHAState := { s with state := s.state &&& ~~~oldState }

def checkAny (mask : BitVec 8) : Bool := s.state &&& mask ≠ 0
end FlowHAState

/-- The parts of a flow that are mirrored. -/
structure Flow where
  key : FlowKey
  pktType : PktType
  haState : FlowHAState
  ssnState : LwState
  previousSsnState : LwState
  flowState : FlowState
  sessionState : BitVec 16
  hasSession : Bool
  clientIp : SfIp
  serverIp : SfIp
  clientPort : BitVec 16
  serverPort : BitVec 16
deriving DecidableEq

/-! ## Messages -/

/-- A message of the side channel, with a cursor that is an offset into its content. -/
structure HAMessage where
  content : List Byte
  cursor : ℕ
deriving DecidableEq

namespace HAMessage
variable (msg : HAMessage)

/-- The length is returned as a `uint16_t`. -/
def contentLength : ℕ := msg.content.length % 65536

/-- Stores to a field of the header. -/
def store (offset : ℕ) (data : List Byte) : Option HAMessage :=
  (Buffer.write msg.content data offset).map fun content => { msg with content }

/-- Copies to the cursor and moves it. -/
def write (data : List Byte) : Option HAMessage :=
  (Buffer.write msg.content data msg.cursor).map fun content =>
    ⟨content, msg.cursor + data.length⟩

/-- Copies from the cursor and moves it. -/
def read (size : ℕ) : Option (List Byte × HAMessage) :=
  (Buffer.read msg.content msg.cursor size).map fun data =>
    (data, { msg with cursor := msg.cursor + size })

/-- `FlowHAClient::fit` -/
def fit (size : ℕ) : Bool := (msg.cursor : ℤ) < msg.contentLength - size

/-- `FlowHAClient::place` -/
def place (data : List Byte) : Option (Bool × HAMessage) :=
  if msg.fit data.length then (msg.write data).map fun msg => (true, msg) else some (false, msg)
end HAMessage

/-- The bytes in front of the cursor have been written over those of a buffer. -/
structure HAMessage.Written (msg : HAMessage) (out buffer : List Byte) : Prop where
  content : msg.content = out ++ buffer.drop out.length
  cursor : msg.cursor = out.length
  le : out.length ≤ buffer.length

namespace HAMessage
variable {msg : HAMessage} {out buffer : List Byte}

theorem Written.length (h : msg.Written out buffer) : msg.content.length = buffer.length := by
  have hle := h.le
  rw [h.content, List.length_append, List.length_drop]
  omega

theorem write_drop (data : List Byte) (hle : out.length + data.length ≤ buffer.length) :
    Buffer.write (out ++ buffer.drop out.length) data out.length =
      some (out ++ data ++ buffer.drop (out ++ data).length) := by
  rw [Buffer.write_append out (by rw [List.length_drop]; omega), List.drop_drop, List.length_append]

theorem Written.write (h : msg.Written out buffer) (data : List Byte)
    (hle : out.length + data.length ≤ buffer.length) :
    ∃ msg', msg.write data = some msg' ∧ msg'.Written (out ++ data) buffer := by
  refine ⟨⟨out ++ data ++ buffer.drop (out ++ data).length, out.length + data.length⟩, ?_, rfl,
    List.length_append.symm, ?_⟩
  · rw [HAMessage.write, h.content, h.cursor, write_drop data hle]
    rfl
  · rw [List.length_append]
    exact hle

theorem read_at {content before data rest : List Byte} {cursor size : ℕ}
    (hcontent : content = before ++ data ++ rest) (hcursor : cursor = before.length)
    (hsize : data.length = size) :
    HAMessage.read ⟨content, cursor⟩ size = some (data, ⟨content, cursor + size⟩) := by
  subst hcontent hcursor hsize
  unfold HAMessage.read
  rw [Buffer.read_append]
  rfl
end HAMessage

/-! ## Keys -/

/-- The fields of a key behind its addresses. -/
abbrev KeyRest :=
  BitVec 32 × BitVec 16 × BitVec 16 × BitVec 16 × BitVec 16 × BitVec 8 × PktType ×
    BitVec 8 × BitVec 8

def pktTypeOfCode (code : BitVec 8) : Option PktType :=
  [.none, .ip, .tcp, .udp, .icmp, .pdu, .file].find? fun t : PktType => t.code = code

def pktTypeCodec : Codec PktType :=
  byte.map PktType.code pktTypeOfCode fun t => by cases t <;> rfl

def addressCodec : Codec (Fin 4 → BitVec 32) := word32.array4

def keyRestCodec : Codec KeyRest :=
  word32.prod <| word16.prod <| word16.prod <| word16.prod <|
    word16.prod <| byte.prod <| pktTypeCodec.prod <| byte.prod byte

variable (key : FlowKey)

def keyRest : KeyRest :=
  (key.mplsLabel, key.portL, key.portH, key.vlanTag, key.addressSpaceId, key.ipProtocol,
    key.pktType,
    key.version, key.padding)

def makeKey (ipL ipH : Fin 4 → BitVec 32) : KeyRest → FlowKey
  | (mplsLabel, portL, portH, vlanTag, addressSpaceId, ipProtocol, pktType, version, padding) =>
    { ipL, ipH, mplsLabel, portL, portH, vlanTag, addressSpaceId, ipProtocol, pktType, version,
      padding }

/-- The key as it is in memory. -/
def keyCodec : Codec FlowKey :=
  (addressCodec.prod (addressCodec.prod keyRestCodec)).map
    (fun key => (key.ipL, key.ipH, keyRest key)) (fun t => some (makeKey t.1 t.2.1 t.2.2))
    fun _ => rfl

/-- `is_ip6_key` -/
def isIp6Key : Bool :=
  key.ipL 0 ≠ 0 || key.ipL 1 ≠ 0 || key.ipL 2 ≠ htonl 0xFFFF ||
    key.ipH 0 ≠ 0 || key.ipH 1 ≠ 0 || key.ipH 2 ≠ htonl 0xFFFF

def keyTypeIp6 : Byte := 1

def keyTypeIp4 : Byte := 2

def keySizeIp6 : ℕ := 48

def keySizeIp4 : ℕ := 24

/-- `sizeof(HAMessageHeader)` -/
def headerSize : ℕ := 5

/-- The offset of `key_type` -/
def keyTypeOffset : ℕ := 4

/-- `write_flow_key` -/
def writeFlowKey (msg : HAMessage) : Option HAMessage :=
  if isIp6Key key then do
    let msg ← msg.store keyTypeOffset [keyTypeIp6]
    { msg with cursor := headerSize }.write (keyCodec.encode key)
  else do
    let msg ← msg.store keyTypeOffset [keyTypeIp4]
    let msg ← { msg with cursor := headerSize }.write (word32.encode (key.ipL 3))
    let msg ← msg.write (word32.encode (key.ipH 3))
    msg.write (keyRestCodec.encode (keyRest key))

/-- `read_flow_key`. It fails if there is no such key type, which leaves the key unset. -/
def readFlowKey (msg : HAMessage) : Option (FlowKey × HAMessage) := do
  let keyType ← Buffer.read msg.content keyTypeOffset 1
  let msg := { msg with cursor := headerSize }
  if keyType = [keyTypeIp6] then
    let (bytes, msg) ← msg.read keySizeIp6
    let key ← keyCodec.decode bytes
    some (key, msg)
  else if keyType = [keyTypeIp4] then
    let (low, msg) ← msg.read 4
    let ipL ← word32.decode low
    let (high, msg) ← msg.read 4
    let ipH ← word32.decode high
    let (bytes, msg) ← msg.read (keySizeIp4 - 8)
    let rest ← keyRestCodec.decode bytes
    some (makeKey ![0, 0, htonl 0xFFFF, ipL] ![0, 0, htonl 0xFFFF, ipH] rest, msg)
  else none

/-- `key_size` -/
def keySize (flow : Flow) : ℕ := if isIp6Key flow.key then keySizeIp6 else keySizeIp4

/-! ## Clients -/

/-- A client with the length of its header. The other field of the header is its index. -/
structure FlowHAClient where
  length : Byte
  produce : Flow → HAMessage → Option (Bool × HAMessage)
  consume : Option Flow → FlowKey → HAMessage → Option (Bool × Option Flow × HAMessage)
  isUpdateRequired : Flow → Bool × Flow

/-- The session client and the other clients in the order of their registration, one for each bit of
a handle. -/
structure ClientMap where
  session : FlowHAClient
  others : List FlowHAClient
  le : others.length ≤ 16

namespace ClientMap
variable (clients : ClientMap)

def all : List FlowHAClient := clients.session :: clients.others

/-- The clients that an update of the flow is about, with their indexes. -/
def active (flow : Flow) : List (FlowHAClient × ℕ) :=
  clients.all.zipIdx.filter fun c =>
    c.2 = 0 || flow.haState.checkPending (1 <<< (c.2 - 1))
end ClientMap

/-- `sizeof(HAClientHeader)` -/
def clientHeaderSize : ℕ := 2

def clientHeader (c : FlowHAClient × ℕ) : List Byte := [BitVec.ofNat 8 c.2, c.1.length]

/-! ## Updates -/

/-- `calculate_msg_header_length` -/
def calculateMsgHeaderLength (flow : Flow) : ℕ := headerSize + keySize flow

variable (clients : ClientMap)

/-- `calculate_update_msg_content_length` -/
def calculateUpdateMsgContentLength (flow : Flow) : ℕ :=
  (clients.active flow).foldl (fun length c => length + (c.1.length.toNat + clientHeaderSize)) 0

def haUpdateEvent : Byte := 2

def haMessageVersion : Byte := 3

/-- `write_msg_header` -/
def writeMsgHeader (flow : Flow) (event : Byte) (contentLength : ℕ) (msg : HAMessage) :
    Option HAMessage := do
  let msg ← msg.store 0 [event]
  let msg ← msg.store 1 [haMessageVersion]
  let msg ← msg.store 2 (word16.encode (BitVec.ofNat 16 contentLength))
  writeFlowKey flow.key msg

/-- `write_update_msg_client`. What `place` and `produce` return is dropped. -/
def writeUpdateMsgClient (flow : Flow) (msg : HAMessage) (c : FlowHAClient × ℕ) :
    Option HAMessage := do
  let (_, msg) ← msg.place (clientHeader c)
  let (_, msg) ← c.1.produce flow msg
  some msg

/-- `write_update_msg_content` -/
def writeUpdateMsgContent (flow : Flow) (msg : HAMessage) : Option HAMessage :=
  (clients.active flow).foldlM (writeUpdateMsgClient flow) msg

/-- The bytes that a new message of the side channel has. -/
structure Allocator where
  bytes : ℕ → List Byte
  length_bytes : ∀ n, (bytes n).length = n

/-- The message that `HighAvailability::process_update` builds. The side channel is never null. -/
def updateMessage (alloc : Allocator) (flow : Flow) : Option HAMessage := do
  let contentLen := calculateUpdateMsgContentLength clients flow
  let msg := ⟨alloc.bytes (calculateMsgHeaderLength flow + contentLen), 0⟩
  let msg ← writeMsgHeader flow haUpdateEvent contentLen msg
  writeUpdateMsgContent clients flow msg

/-- The flow behind an update. -/
def sentFlow (flow : Flow) : Flow :=
  let haState := flow.haState.clear
    (FlowHAState.new ||| FlowHAState.modified ||| FlowHAState.major ||| FlowHAState.critical)
  { flow with haState := haState.clearPending 0xffff }

/-- `HighAvailability::process_update`: the content of the message, if one is sent, and the flow. -/
def processUpdate (alloc : Allocator) (flow : Flow) :
    Option (Option (List Byte) × Flow) := do
  let (required, flow) := clients.session.isUpdateRequired flow
  if !required && (!flow.haState.checkPending 0xffff || flow.haState.checkAny FlowHAState.new) then
    some (none, flow)
  else
    let msg ← updateMessage clients alloc flow
    some (some msg.content, sentFlow flow)

/-! ## Receipt -/

/-- A call of `consume`. -/
structure Call where
  client : ℕ
  key : FlowKey
  cursor : ℕ
deriving DecidableEq

/-- How the loop over the clients of a message ends. -/
inductive ConsumeEnd where
  | complete
  | noClientHeader
  | invalidClientIndex
  | messageTooShort
  | clientError
deriving DecidableEq, Repr

/-- What is logged. -/
def ConsumeEnd.message : ConsumeEnd → Option String
  | .complete => none
  | .noClientHeader => some "Consuming HA Update message - no HAClientHeader\n"
  | .invalidClientIndex => some "Consuming HA Update message - invalid client index\n"
  | .messageTooShort => some "Consuming HA Update message - message too short\n"
  | .clientError => some "Consuming HA Update message - error from client consume()\n"

/-- The loop of `consume_receive_update_message`. It runs out of fuel if a client moves the cursor
back. -/
def consumeClients (clients : ClientMap) (key : FlowKey) :
    ℕ → Option Flow → HAMessage → Option (ConsumeEnd × Option Flow × List Call)
  | 0, _, _ => none
  | fuel + 1, flow, msg =>
    if msg.contentLength ≤ msg.cursor then some (.complete, flow, [])
    else if msg.contentLength - msg.cursor < clientHeaderSize then some (.noClientHeader, flow, [])
    else do
      let (header, msg) ← msg.read clientHeaderSize
      let client := (header.getD 0 0).toNat
      let length := (header.getD 1 0).toNat
      match clients.all[client]? with
      | none => some (.invalidClientIndex, flow, [])
      | some c =>
        if (msg.contentLength : ℤ) - msg.cursor < length then some (.messageTooShort, flow, [])
        else
          let (ok, flow, msg') ← c.consume flow key msg
          let call := ⟨client, key, msg.cursor⟩
          if !ok then some (.clientError, flow, [call])
          else
            let (last, flow, calls) ← consumeClients clients key fuel flow msg'
            some (last, flow, call :: calls)

variable (getFlow : FlowKey → Option Flow)

/-- `consume_receive_update_message`. The flow that the caches hold for a key is a parameter. -/
def consumeReceiveUpdateMessage (content : List Byte) :
    Option (ConsumeEnd × Option Flow × List Call) := do
  let (key, msg) ← readFlowKey ⟨content, 0⟩
  consumeClients clients key (content.length + 1) (getFlow key) msg

/-- `consume_receive_message` for the events that update a flow. -/
def consumeReceiveMessage (content : List Byte) :
    Option (Option (ConsumeEnd × Option Flow × List Call)) := do
  let event ← Buffer.read content 0 1
  let version ← Buffer.read content 1 1
  if version ≠ [haMessageVersion] then some none
  else if event = [haUpdateEvent] then
    (consumeReceiveUpdateMessage clients getFlow content).map some
  else some none
end Snort.Ha
