import Snort.Flow.FlowKeyIdentity
import Snort.Flow.Ha

/-!
# The session client

`StreamHAClient` of `stream_ha.cc`. The endpoints of a flow are not sent: the peer
takes them from the key, with one flag for their order and one for their family.
The flag for the family is always set, so that the addresses of an IPv4 flow
become IPv6 addresses on the peer.
-/

namespace Snort.Ha
open List Sfip Snort.Flow FlowHAState

/-! ## The content -/

structure SessionHAContent where
  ssnState : LwState
  flowState : FlowState
  flags : BitVec 8
deriving DecidableEq

namespace SessionHAContent

def flagLow : BitVec 8 := 0x01

def flagIp6 : BitVec 8 := 0x02
end SessionHAContent

open SessionHAContent

def lwStateCodec : Codec LwState :=
  (Codec.word32.prod <| Codec.word16.prod <| Codec.word16.prod <| Codec.byte.prod <|
    Codec.byte.prod Codec.word16).map
    (fun s => (s.sessionFlags, s.ipprotocol, s.snortProtocolId, s.direction, s.ignoreDirection,
      s.padding))
    (fun (sessionFlags, ipprotocol, snortProtocolId, direction, ignoreDirection, padding) =>
      some { sessionFlags, ipprotocol, snortProtocolId, direction, ignoreDirection, padding })
    fun _ => rfl

/-- The value of the enumeration in the source. -/
def FlowState.code : FlowState → BitVec 8
  | .setup => 0
  | .inspect => 1
  | .block => 2
  | .reset => 3
  | .allow => 4

def flowStateCodec : Codec FlowState :=
  Codec.byte.map FlowState.code
    (fun code => [.setup, .inspect, .block, .reset, .allow].find? fun s : FlowState =>
      s.code = code)
    fun s => by cases s <;> rfl

def sessionContentCodec : Codec SessionHAContent :=
  (lwStateCodec.prod <| flowStateCodec.prod Codec.byte).map
    (fun c => (c.ssnState, c.flowState, c.flags))
    (fun (ssnState, flowState, flags) => some { ssnState, flowState, flags }) fun _ => rfl

/-- `sizeof(SessionHAContent)` -/
def sessionContentSize : ℕ := 14

/-! ## Protocols -/

/-- The handlers of a protocol. -/
structure ProtocolHA where
  createSession : FlowKey → Option Flow
  deactivateSession : Flow → Flow

variable (newFlow : FlowKey → Option Flow)

/-- `create_session` of all protocols. `Stream::new_flow` is a parameter. -/
def createSession (type : PktType) (key : FlowKey) : Option Flow :=
  (newFlow key).map fun flow =>
    if flow.hasSession then flow
    else { flow with
      pktType := type
      haState := ⟨new ||| newSession, 0⟩
      previousSsnState := flow.ssnState
      hasSession := true }

variable (flow : Flow)

/-- `TcpHA::deactivate_session`: the states of the handshake and the flags for both sides having
been seen are cleared. -/
def tcpDeactivateSession : Flow :=
  { flow with
    sessionState := flow.sessionState &&& ~~~0x000f
    ssnState := { flow.ssnState with
      sessionFlags := flow.ssnState.sessionFlags &&& ~~~0x00000003 } }

/-- `get_protocol_ha` -/
def getProtocolHa : PktType → Option ProtocolHA
  | .tcp => some ⟨createSession newFlow .tcp, tcpDeactivateSession⟩
  | .udp => some ⟨createSession newFlow .udp, id⟩
  | .ip => some ⟨createSession newFlow .ip, id⟩
  | .icmp => some ⟨createSession newFlow .icmp, id⟩
  | _ => none

def protocolDeactivateSession : Flow :=
  match getProtocolHa newFlow flow.pktType with
  | some ha => ha.deactivateSession flow
  | none => flow

variable (key : FlowKey)

def protocolCreateSession : Option Flow :=
  (getProtocolHa newFlow key.pktType).bind fun ha => ha.createSession key

/-! ## The client -/

/-- `is_client_lower` -/
def isClientLower : Bool :=
  if flow.clientIp.fastLt6 flow.serverIp then true
  else if flow.serverIp.fastLt6 flow.clientIp then false
  else
    match flow.key.pktType with
    | .tcp | .udp => flow.clientPort < flow.serverPort
    | _ => false

/-- `SfIp::set` from the raw bytes of an address and its family -/
def setAddress (src : Fin 4 → BitVec 32) (ip6 : Bool) : SfIp :=
  if ip6 then .set6 src else .set4 (src 0)

/-- The endpoints that `consume` gives to a new flow. -/
def setEnds (flags : BitVec 8) (flow : Flow) : Flow :=
  let ip6 := flags &&& flagIp6 ≠ 0
  let low := setAddress flow.key.ipL ip6
  let high := setAddress flow.key.ipH ip6
  if flags &&& flagLow ≠ 0 then
    { flow with
      serverIp := low
      clientIp := high
      serverPort := flow.key.portL
      clientPort := flow.key.portH }
  else
    { flow with
      clientIp := low
      serverIp := high
      clientPort := flow.key.portL
      serverPort := flow.key.portH }

variable (hac : SessionHAContent)

/-- The flow that the content is for: the given one, or a new one. -/
def sessionFlow :
    Option Flow → Option Flow
  | some flow => some flow
  | none => (protocolCreateSession newFlow key).map fun flow =>
    setEnds hac.flags { flow with haState := flow.haState.clear new }

/-- The states of the content are taken over, and the flow stands by. -/
def takeOver (flow : Flow) : Flow :=
  let flow := { flow with ssnState := hac.ssnState, flowState := hac.flowState }
  if !flow.haState.checkAny standby then
    let flow := protocolDeactivateSession newFlow flow
    { flow with haState := flow.haState.add standby }
  else flow

/-- `StreamHAClient::consume` -/
def streamConsume (flow : Option Flow) (key : FlowKey) (msg : HAMessage) :
    Option (Bool × Option Flow × HAMessage) :=
  if ((msg.contentLength : ℤ) - msg.cursor) % 2 ^ 32 < sessionContentSize then
    some (false, flow, msg)
  else do
    let (bytes, msg) ← msg.read sessionContentSize
    let hac ← sessionContentCodec.decode bytes
    match sessionFlow newFlow key hac flow with
    | none => some (false, none, msg)
    | some flow => some (true, some (takeOver newFlow hac flow), msg)

/-- The content that `StreamHAClient::produce` writes. -/
def sessionContent : SessionHAContent where
  ssnState := flow.ssnState
  flowState := flow.flowState
  flags :=
    (if !isClientLower flow then (0 ||| flagLow) else 0) |||
      flagIp6

/-- `StreamHAClient::produce` -/
def streamProduce (msg : HAMessage) : Option (Bool × HAMessage) :=
  if (msg.cursor : ℤ) ≤ msg.contentLength - sessionContentSize then
    (msg.write (sessionContentCodec.encode (sessionContent flow))).map fun msg => (true, msg)
  else some (false, msg)

/-- The flags of sessions whose changes are not sent, are critical, and are major for TCP. -/
def haIgnoredSessionFlags : BitVec 32 := 0x00000700

def haCriticalSessionFlags : BitVec 32 := 0x00034000

def haTcpMajorSessionFlags : BitVec 32 := 0x00000004

def ssnDirBoth : BitVec 8 := 0x03

/-- The states that a difference to the previous state of the session adds. -/
def changedStates : BitVec 8 :=
  let old := flow.previousSsnState
  let cur := flow.ssnState
  let diff := (old.sessionFlags ^^^ cur.sessionFlags) &&& ~~~haIgnoredSessionFlags
  let flags : BitVec 8 :=
    if diff ≠ 0 then
      modified |||
        (if flow.key.pktType = .tcp ∧ diff &&& haTcpMajorSessionFlags ≠ 0 then
          major else 0) |||
        (if diff &&& haCriticalSessionFlags ≠ 0 then critical else 0)
    else 0
  let direction : BitVec 8 :=
    if old.ignoreDirection ≠ cur.ignoreDirection then
      modified ||| (if cur.ignoreDirection = ssnDirBoth then critical else 0)
    else 0
  let protocol : BitVec 8 :=
    if old.ipprotocol ≠ cur.ipprotocol ∨ old.snortProtocolId ≠ cur.snortProtocolId ∨
        old.direction ≠ cur.direction then
      modified
    else 0
  flags ||| direction ||| protocol

/-- `update_flags` -/
def updateFlags : Flow :=
  let haState :=
    if flow.haState.checkAny newSession then
      let s := (flow.haState.clear newSession).add modified
      if flow.key.pktType ≠ .tcp then s.add major else s
    else flow.haState.add (changedStates flow)
  { flow with
    haState :=
      if haState.checkAny standby then
        (haState.add (modified ||| major)).clear standby
      else haState }

/-- `StreamHAClient::is_update_required`. Whether the interval has elapsed is a parameter. -/
def streamIsUpdateRequired (elapsed : Bool) (flow : Flow) : Bool × Flow :=
  let flow := updateFlags flow
  if !flow.haState.checkAny modified then (false, flow)
  else if !flow.haState.checkAny (major ||| critical) then (false, flow)
  else (elapsed || flow.haState.checkAny critical, flow)

/-- `StreamHAClient` -/
def streamHAClient (elapsed : Bool) : FlowHAClient where
  length := 14
  produce := streamProduce
  consume := streamConsume newFlow
  isUpdateRequired := streamIsUpdateRequired elapsed

/-! ## The endpoints of a mirrored flow -/

section Endpoints
variable {cfg : SnortConfig} {flow : Flow} {fresh : Flow} {newFlow : FlowKey → Option Flow}

/-- A TCP or UDP flow between two addresses of one family, under the key that a packet of either
direction has. -/
structure IsSession (cfg : SnortConfig) (flow : Flow) : Prop where
  isIp : flow.clientIp.family ≠ .unspec
  sameFamily : flow.serverIp.family = flow.clientIp.family
  key : ∃ type ipProto space, (type, ipProto) ∈ [(PktType.tcp, (6 : IpProtocol)), (.udp, 17)] ∧
    (flow.key = (FlowKey.init cfg type ipProto
        ⟨flow.clientIp, flow.clientPort, flow.serverIp, flow.serverPort⟩ space).1 ∨
      flow.key = (FlowKey.init cfg type ipProto
        ⟨flow.serverIp, flow.serverPort, flow.clientIp, flow.clientPort⟩ space).1)

/-- The flow has the endpoints of another one. -/
def SameEnds (a b : Flow) : Prop :=
  a.clientIp = b.clientIp ∧ a.serverIp = b.serverIp ∧ a.clientPort = b.clientPort ∧
    a.serverPort = b.serverPort

theorem fastLt6_iff_addrLt {a b : SfIp} (hfamily : a.family = b.family) :
    a.fastLt6 b = true ↔ AddrLt a b := by
  unfold AddrLt SfIp.isIp4
  by_cases h4 : a.family = .inet
  · obtain ⟨ha0, ha1, ha2⟩ := a.mapped h4
    obtain ⟨hb0, hb1, hb2⟩ := b.mapped (hfamily ▸ h4)
    simp [SfIp.fastLt6, SfIp.getIp4Value, h4, ha0, ha1, ha2, hb0, hb1, hb2]
  · simp [h4]

/-- The client is the lower endpoint if, and only if, it comes first in the key. -/
theorem isClientLower_iff {client server : Endpoint} (hfamily : client.ip.family = server.ip.family)
    (hc : flow.clientIp = client.ip) (hs : flow.serverIp = server.ip)
    (hcp : flow.clientPort = client.port) (hsp : flow.serverPort = server.port)
    (htype : flow.key.pktType = .tcp ∨ flow.key.pktType = .udp) :
    isClientLower flow = true ↔ client.Before server := by
  unfold isClientLower Endpoint.Before
  rw [hc, hs, hcp, hsp]
  have hports : (match flow.key.pktType with
      | .tcp | .udp => decide (client.port < server.port)
      | _ => false) = decide (client.port < server.port) := by
    rcases htype with h | h <;> rw [h]
  rw [hports]
  by_cases hlt : AddrLt client.ip server.ip
  · simp [(fastLt6_iff_addrLt hfamily).mpr hlt, hlt]
  · rw [if_neg fun h => hlt ((fastLt6_iff_addrLt hfamily).mp h)]
    by_cases hgt : AddrLt server.ip client.ip
    · have hne : client.ip.ip32 ≠ server.ip.ip32 := fun heq =>
        not_addrLt_of_eq hfamily.symm heq.symm hgt
      simp [(fastLt6_iff_addrLt hfamily.symm).mpr hgt, hlt, hne]
    · rw [if_neg fun h => hgt ((fastLt6_iff_addrLt hfamily.symm).mp h)]
      simp [hlt, eq_of_not_addrLt hfamily hlt hgt]

theorem IsSession.pktType (h : IsSession cfg flow) :
    flow.key.pktType = .tcp ∨ flow.key.pktType = .udp := by
  obtain ⟨type, ipProto, space, htype, hkey⟩ := h.key
  have hpkt : flow.key.pktType = type := by
    rcases hkey with hkey | hkey <;> rw [hkey, FlowKey.init] <;> split <;> rfl
  simp only [mem_cons, Prod.mk.injEq, not_mem_nil, or_false] at htype
  rw [hpkt]
  exact htype.imp And.left And.left

/-- The key has the endpoints in the order that `is_client_lower` tells. -/
theorem IsSession.key_eq (h : IsSession cfg flow) :
    (flow.key.ipL, flow.key.portL, flow.key.ipH, flow.key.portH) =
      if isClientLower flow then
        (flow.clientIp.ip32, flow.clientPort, flow.serverIp.ip32, flow.serverPort)
      else (flow.serverIp.ip32, flow.serverPort, flow.clientIp.ip32, flow.clientPort) := by
  obtain ⟨type, ipProto, space, htype, hkey⟩ := h.key
  let client : Endpoint := ⟨flow.clientIp, flow.clientPort, h.isIp⟩
  let server : Endpoint := ⟨flow.serverIp, flow.serverPort, h.sameFamily ▸ h.isIp⟩
  have hfamily : client.ip.family = server.ip.family := h.sameFamily.symm
  have hproto : ¬Rewritten client.ip.family ipProto := by
    unfold Rewritten
    simp only [mem_cons, Prod.mk.injEq, not_mem_nil, or_false] at htype
    rcases htype with ⟨-, rfl⟩ | ⟨-, rfl⟩ <;> simp [IpProtocol.icmpv4, IpProtocol.icmpv6]
  -- Both directions have the same key.
  have hkey : flow.key = (initSession cfg type ipProto space client server).1 := by
    rcases hkey with hkey | hkey
    · exact hkey
    · rw [initSession_key_comm hfamily hproto]
      exact hkey
  rw [initSession_eq hfamily hproto] at hkey
  have hlower : isClientLower flow = true ↔ client.Before server :=
    isClientLower_iff hfamily rfl rfl rfl rfl h.pktType
  by_cases hbefore : client.Before server
  · rw [if_pos hbefore] at hkey
    rw [if_pos (hlower.mpr hbefore), hkey]
    rfl
  · rw [if_neg hbefore] at hkey
    rw [if_neg (hlower.not.mpr hbefore), hkey]
    rfl

theorem flags_low (flow : Flow) :
    (sessionContent flow).flags &&& flagLow ≠ 0 ↔ ¬isClientLower flow = true := by
  unfold sessionContent
  dsimp only
  cases isClientLower flow with
  | false => decide
  | true => decide

theorem flags_ip6 (flow : Flow) : (sessionContent flow).flags &&& flagIp6 ≠ 0 := by
  unfold sessionContent
  dsimp only
  cases isClientLower flow with
  | false => decide
  | true => decide

/-- A new flow gets the endpoints of the sending one, as IPv6 addresses. -/
theorem IsSession.setEnds (h : IsSession cfg flow) (hkey : fresh.key = flow.key) :
    SameEnds (setEnds (sessionContent flow).flags fresh)
      { flow with clientIp := .set6 flow.clientIp.ip32, serverIp := .set6 flow.serverIp.ip32 } := by
  have hends := h.key_eq
  unfold Ha.setEnds setAddress
  simp only [flags_low, hkey, decide_eq_true (flags_ip6 flow), if_true]
  by_cases hlower : isClientLower flow = true
  · rw [if_pos hlower] at hends
    simp only [Prod.mk.injEq] at hends
    obtain ⟨hipL, hportL, hipH, hportH⟩ := hends
    simp [hlower, SameEnds, hipL, hportL, hipH, hportH]
  · rw [if_neg hlower] at hends
    simp only [Prod.mk.injEq] at hends
    obtain ⟨hipL, hportL, hipH, hportH⟩ := hends
    simp [hlower, SameEnds, hipL, hportL, hipH, hportH]

theorem sameEnds_takeOver (newFlow : FlowKey → Option Flow) (hac : SessionHAContent) (flow : Flow) :
    SameEnds (takeOver newFlow hac flow) flow := by
  unfold takeOver protocolDeactivateSession
  dsimp only
  split
  · cases flow.pktType <;> exact ⟨rfl, rfl, rfl, rfl⟩
  · exact ⟨rfl, rfl, rfl, rfl⟩

theorem createSession_key {t : PktType} {key : FlowKey} (hnew : newFlow key = some fresh)
    (hkey : fresh.key = key) :
    ∃ flow, createSession newFlow t key = some flow ∧ flow.key = key := by
  unfold createSession
  rw [hnew, Option.map_some]
  refine ⟨_, rfl, ?_⟩
  split <;> exact hkey

theorem IsSession.sessionFlow (h : IsSession cfg flow) (hnew : newFlow flow.key = some fresh)
    (hkey : fresh.key = flow.key) :
    ∃ peer, sessionFlow newFlow flow.key (sessionContent flow) none = some peer ∧ SameEnds peer
        { flow with
          clientIp := .set6 flow.clientIp.ip32, serverIp := .set6 flow.serverIp.ip32 } := by
  obtain ⟨type, hcreate⟩ : ∃ type, protocolCreateSession newFlow flow.key =
      createSession newFlow type flow.key := by
    unfold protocolCreateSession
    rcases h.pktType with hp | hp <;> rw [hp] <;> exact ⟨_, rfl⟩
  obtain ⟨created, hcreated, hcreatedKey⟩ := createSession_key (t := type) hnew hkey
  let started : Flow := { created with haState := created.haState.clear new }
  have hstarted : started.key = flow.key := hcreatedKey
  refine ⟨_, ?_, h.setEnds hstarted⟩
  rw [Ha.sessionFlow, hcreate, hcreated]
  rfl
end Endpoints

/-! ## The client on messages -/

/-- The content is written where there is room for it, up to the last byte. -/
theorem streamProduce_written {msg : HAMessage} {out buffer : List Byte}
    (h : msg.Written out buffer) (hsize : buffer.length < 65536)
    (hroom : out.length + sessionContentSize ≤ buffer.length) :
    ∃ msg', streamProduce flow msg = some (true, msg') ∧
      msg'.Written (out ++ sessionContentCodec.encode (sessionContent flow)) buffer := by
  have hlen : (sessionContentCodec.encode (sessionContent flow)).length = sessionContentSize :=
    sessionContentCodec.length_encode _
  obtain ⟨msg', hwrite, hwritten⟩ := h.write (sessionContentCodec.encode (sessionContent flow))
    (hlen.symm ▸ hroom)
  refine ⟨msg', ?_, hwritten⟩
  have hfits : (msg.cursor : ℤ) ≤ msg.contentLength - sessionContentSize := by
    rw [HAMessage.contentLength, h.length, h.cursor, Nat.mod_eq_of_lt hsize]
    omega
  rw [streamProduce, if_pos hfits, hwrite]
  rfl

theorem streamConsume_content (f : Option Flow) (key : FlowKey) (before rest : List Byte)
    (hac : SessionHAContent)
    (hlen : (before ++ sessionContentCodec.encode hac ++ rest).length < 65536) :
    streamConsume newFlow f key ⟨before ++ sessionContentCodec.encode hac ++ rest, before.length⟩ =
      let msg : HAMessage :=
        ⟨before ++ sessionContentCodec.encode hac ++ rest, before.length + sessionContentSize⟩
      some (match sessionFlow newFlow key hac f with
        | none => (false, none, msg)
        | some peer => (true, some (takeOver newFlow hac peer), msg)) := by
  have hsize : (sessionContentCodec.encode hac).length = sessionContentSize :=
    sessionContentCodec.length_encode _
  have hlong : ¬(((before ++ sessionContentCodec.encode hac ++ rest).length % 65536 : ℕ) -
      (before.length : ℤ)) % 2 ^ 32 < sessionContentSize := by
    rw [Nat.mod_eq_of_lt hlen]
    rw [length_append, length_append, hsize] at hlen ⊢
    omega
  rw [streamConsume, HAMessage.contentLength, if_neg hlong, HAMessage.read_at rfl rfl hsize]
  simp only [Option.bind_eq_bind, Option.bind_some, Codec.decode_encode]
  cases sessionFlow newFlow key hac f <;> rfl

/-- A flow that is mirrored through the session client keeps its endpoints if, and only if, its
addresses are IPv6 addresses. -/
theorem mirrored_ends_iff (cfg : SnortConfig) (flow : Flow) (newFlow : FlowKey → Option Flow)
    (fresh : Flow) (msg : HAMessage) (h : IsSession cfg flow)
    (hnew : newFlow flow.key = some fresh) (hkey : fresh.key = flow.key)
    (hroom : msg.cursor + sessionContentSize ≤ msg.content.length)
    (hlen : msg.content.length < 65536) :
    (∃ msg' peer msg'', streamProduce flow msg = some (true, msg') ∧
      streamConsume newFlow none flow.key { msg' with cursor := msg.cursor } =
        some (true, some peer, msg'') ∧ SameEnds peer flow) ↔ flow.clientIp.isIp6 = true := by
  have htake : (msg.content.take msg.cursor).length = msg.cursor := by
    rw [length_take]
    omega
  have hwritten : msg.Written (msg.content.take msg.cursor) msg.content :=
    ⟨by rw [htake, take_append_drop], htake.symm, by rw [htake]; omega⟩
  obtain ⟨msg₁, hproduce, hwritten₁⟩ :=
    streamProduce_written flow hwritten hlen (htake.symm ▸ hroom)
  obtain ⟨peer, hpeer, hends⟩ := h.sessionFlow hnew hkey
  have hcontent := hwritten₁.content
  have hconsume := streamConsume_content newFlow none flow.key (msg.content.take msg.cursor) _
    (sessionContent flow) (hcontent ▸ hwritten₁.length ▸ hlen)
  rw [← hcontent, htake] at hconsume
  rw [hpeer] at hconsume
  have hkept := sameEnds_takeOver newFlow (sessionContent flow) peer
  constructor
  · rintro ⟨msg', peer', msg'', hproduce', hconsume', hsame⟩
    rw [hproduce] at hproduce'
    obtain rfl := congrArg Prod.snd (Option.some.inj hproduce')
    rw [hconsume] at hconsume'
    obtain ⟨rfl, -⟩ : takeOver newFlow (sessionContent flow) peer = peer' ∧ _ := by
      simpa using hconsume'
    have : flow.clientIp = .set6 flow.clientIp.ip32 := hsame.1.symm.trans (hkept.1.trans hends.1)
    rw [this]
    rfl
  · intro h6
    have hset (ip : SfIp) (hip : ip.family = .inet6) : SfIp.set6 ip.ip32 = ip :=
      Fragment.sfIp_ext hip.symm rfl
    have hfamily : flow.clientIp.family = .inet6 := of_decide_eq_true h6
    refine ⟨msg₁, _, _, hproduce, hconsume, ?_⟩
    have hc := hset flow.clientIp hfamily
    have hs := hset flow.serverIp (h.sameFamily.trans hfamily)
    exact ⟨(hkept.1.trans hends.1).trans hc, (hkept.2.1.trans hends.2.1).trans hs,
      hkept.2.2.1.trans hends.2.2.1, hkept.2.2.2.trans hends.2.2.2⟩

/-! ## Two flows -/

/-- A flow that has just been set up, under the key of its first packet. -/
def setupFlow (clientIp serverIp : SfIp) (clientPort serverPort : BitVec 16) : Flow where
  key := (FlowKey.init ⟨false, false, false⟩ .tcp 6 ⟨clientIp, clientPort, serverIp, serverPort⟩
    ⟨0, 0, 0⟩).1
  pktType := .tcp
  haState := ⟨new ||| newSession, 0⟩
  ssnState := ⟨0, 6, 0, 0, 0, 0⟩
  previousSsnState := ⟨0, 6, 0, 0, 0, 0⟩
  flowState := .setup
  sessionState := 0
  hasSession := true
  clientIp := clientIp
  serverIp := serverIp
  clientPort := clientPort
  serverPort := serverPort

def flow6 : Flow := setupFlow (.set6 ![0x20, 0, 0, 2]) (.set6 ![0x20, 0, 0, 1]) 1025 80

def flow4 : Flow := setupFlow (.set4 0x0200000A) (.set4 0x0100000A) 1025 80

/-- The flow that the cache of the peer has for a key. -/
def emptyFlow : Flow :=
  { setupFlow emptyIp6 emptyIp6 0 0 with key, hasSession := false }

theorem mirrored_ends_flow6 :
    ∃ msg' peer msg'', streamProduce flow6 ⟨replicate 14 0, 0⟩ = some (true, msg') ∧
      streamConsume (fun key => some (emptyFlow key)) none flow6.key { msg' with cursor := 0 } =
        some (true, some peer, msg'') ∧ SameEnds peer flow6 :=
  (mirrored_ends_iff ⟨false, false, false⟩ flow6 _ (emptyFlow flow6.key) ⟨replicate 14 0, 0⟩
    ⟨by decide, rfl, .tcp, 6, ⟨0, 0, 0⟩, by simp, .inl rfl⟩ rfl rfl (by decide) (by decide)).mpr rfl

/-- The peer of an IPv4 flow has IPv6 addresses. -/
theorem mirrored_flow4_family :
    (do
      let (_, msg) ← streamProduce flow4 ⟨replicate 14 0, 0⟩
      let (_, peer, _) ← streamConsume (fun key => some (emptyFlow key)) none flow4.key
        { msg with cursor := 0 }
      let peer ← peer
      some (peer.clientIp.family, peer.serverIp.family)) = some (.inet6, .inet6) ∧
      flow4.clientIp.family = .inet := by
  decide +kernel
end Snort.Ha
