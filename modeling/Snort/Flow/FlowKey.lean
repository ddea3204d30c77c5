import Snort.Sfip.SfIp

/-!
# Flow keys

The keys under which flows are cached (`flow_key.cc`) and how a packet gets its
key (`FlowControl::set_key`). The key of a session has its endpoints in order, so
that both directions share it. The key of a fragment keeps them as they are and
has the fragment id in the place of the ports.
-/

namespace Snort.Flow
open Sfip

inductive PktType where
  | none
  | ip
  | tcp
  | udp
  | icmp
  | pdu
  | file
deriving DecidableEq, Repr

/-- The value of the enumeration in the source. -/
def PktType.code : PktType → BitVec 8
  | .none => 0
  | .ip => 1
  | .tcp => 2
  | .udp => 3
  | .icmp => 4
  | .pdu => 5
  | .file => 6

/-- The protocol of an IP header can be any byte. -/
abbrev IpProtocol := BitVec 8

def IpProtocol.icmpv4 : IpProtocol := 1

def IpProtocol.icmpv6 : IpProtocol := 58

structure FlowKey where
  ipL : Fin 4 → BitVec 32
  ipH : Fin 4 → BitVec 32
  mplsLabel : BitVec 32
  portL : BitVec 16
  portH : BitVec 16
  vlanTag : BitVec 16
  addressSpaceId : BitVec 16
  ipProtocol : BitVec 8
  pktType : PktType
  version : BitVec 8
  padding : BitVec 8
deriving DecidableEq

/-- The settings of `SnortConfig` that keys depend on. -/
structure SnortConfig where
  mplsOverlappingIp : Bool
  vlanAgnostic : Bool
  addressSpaceAgnostic : Bool

/-- `ip::isPrivateIP` -/
def isPrivateIP (addr : BitVec 32) : Bool :=
  let addr := ntohl addr
  if addr &&& 0xFF000000 = 0x0A000000 then true
  else if addr &&& 0xFF000000 = 0xA9000000 then addr &&& 0x00FF0000 = 0x00FE0000
  else if addr &&& 0xFF000000 = 0xAC000000 then addr &&& 0x00F00000 = 0x00100000
  else if addr &&& 0xFF000000 = 0xC0000000 then addr &&& 0x00FF0000 = 0x00A80000
  else false

/-- The addresses and ports that a key is made of. -/
structure Ends where
  srcIP : SfIp
  srcPort : BitVec 16
  dstIP : SfIp
  dstPort : BitVec 16
deriving DecidableEq

/-! ## ICMP -/

/-- The message types that are treated specially. -/
structure IcmpTypes where
  echoReply : BitVec 16
  echo : BitVec 16
  routerAdvertise : BitVec 16
  routerSolicit : BitVec 16

def icmp4Types : IcmpTypes := ⟨0, 8, 9, 10⟩

def icmp6Types : IcmpTypes := ⟨129, 128, 134, 133⟩

def emptyIp4 : SfIp := .set4 0

def emptyIp6 : SfIp := .set6 fun _ => 0

/-- Replies and advertisements are turned into the request and the solicitation. The source
port is the type of the message. -/
def updateIcmp (t : IcmpTypes) (empty : SfIp) (e : Ends) : Ends :=
  if e.srcPort = t.echoReply then { e with dstPort := t.echo, srcPort := 0 }
  else if e.srcPort = t.routerAdvertise then
    { e with dstPort := t.routerSolicit, srcPort := 0, srcIP := empty }
  else if e.srcPort = t.routerSolicit then { e with dstPort := 0, dstIP := empty }
  else { e with dstPort := 0 }

def updateIcmp4 : Ends → Ends := updateIcmp icmp4Types emptyIp4

def updateIcmp6 : Ends → Ends := updateIcmp icmp6Types emptyIp6

/-! ## Keys -/

/-- The endpoints as `init4` and `init6` store them, and whether they were reversed. -/
structure Placed where
  ipL : Fin 4 → BitVec 32
  ipH : Fin 4 → BitVec 32
  portL : BitVec 16
  portH : BitVec 16
  reversed : Bool
deriving DecidableEq

/-- Places the endpoints by the order of the addresses and, if they are equal, of the ports. -/
def place (order lt eq : Bool) (e : Ends) : Placed :=
  if !order || lt then ⟨e.srcIP.ip32, e.dstIP.ip32, e.srcPort, e.dstPort, false⟩
  else if eq then
    if e.srcPort < e.dstPort then ⟨e.srcIP.ip32, e.dstIP.ip32, e.srcPort, e.dstPort, false⟩
    else ⟨e.srcIP.ip32, e.dstIP.ip32, e.dstPort, e.srcPort, true⟩
  else ⟨e.dstIP.ip32, e.srcIP.ip32, e.dstPort, e.srcPort, true⟩

variable (cfg : SnortConfig) (ipProto : IpProtocol)

/-- `FlowKey::init4`: the endpoints and the MPLS label. -/
def init4 (e : Ends) (mplsId : BitVec 32) (order : Bool) : Placed × BitVec 32 :=
  let e := if ipProto = .icmpv4 then updateIcmp4 e else e
  let src := e.srcIP.getIp4Value
  let dst := e.dstIP.getIp4Value
  (place order (src < dst) (src = dst) e,
    if cfg.mplsOverlappingIp && isPrivateIP src && isPrivateIP dst then mplsId else 0)

/-- `FlowKey::init6` -/
def init6 (e : Ends) (mplsId : BitVec 32) (order : Bool) : Placed × BitVec 32 :=
  let e :=
    if ipProto = .icmpv6 then updateIcmp6 e
    else if ipProto = .icmpv4 then updateIcmp4 e
    else e
  (place order (e.srcIP.fastLt6 e.dstIP) (e.srcIP.fastEq6 e.dstIP) e,
    if cfg.mplsOverlappingIp then mplsId else 0)

def initVlan (vlanId : BitVec 16) : BitVec 16 := if !cfg.vlanAgnostic then vlanId else 0

def initAddressSpace (addrSpaceId : BitVec 16) : BitVec 16 :=
  if !cfg.addressSpaceAgnostic then addrSpaceId else 0

/-- The ids that tell networks with the same addresses apart. -/
structure Space where
  vlanId : BitVec 16
  mplsId : BitVec 32
  addrSpaceId : BitVec 16
deriving DecidableEq

/-- The key of the placed endpoints. -/
def Placed.key (p : Placed) (mplsLabel : BitVec 32) (type : PktType) (ipProtocol version : BitVec 8)
    (space : Space) : FlowKey where
  ipL := p.ipL
  ipH := p.ipH
  mplsLabel := mplsLabel
  portL := p.portL
  portH := p.portH
  vlanTag := initVlan cfg space.vlanId
  addressSpaceId := initAddressSpace cfg space.addrSpaceId
  ipProtocol := ipProtocol
  pktType := type
  version := version
  padding := 0

namespace FlowKey

/-- `FlowKey::init` of a session: the key, and whether the endpoints were reversed. -/
def init (type : PktType) (ipProto : IpProtocol) (e : Ends) (space : Space) : FlowKey × Bool :=
  if e.srcIP.isIp4 then
    let (p, mplsLabel) := init4 cfg ipProto e space.mplsId true
    (p.key cfg mplsLabel type ipProto 4 space, p.reversed)
  else
    let (p, mplsLabel) := init6 cfg ipProto e space.mplsId true
    (p.key cfg mplsLabel type ipProto 6 space, p.reversed)

/-- `FlowKey::init` with a fragment id. It always returns false. -/
def initId (type : PktType) (ipProto : IpProtocol) (srcIP dstIP : SfIp) (id : BitVec 32)
    (space : Space) : FlowKey :=
  let e : Ends := ⟨srcIP, id.extractLsb' 0 16, dstIP, id.extractLsb' 16 16⟩
  if srcIP.isIp4 then
    let (p, mplsLabel) := init4 cfg ipProto e space.mplsId false
    p.key cfg mplsLabel type ipProto 4 space
  else
    let (p, mplsLabel) := init6 cfg ipProto e space.mplsId false
    p.key cfg mplsLabel type 0 6 space

/-- The key as the six words that `compare` reads. -/
def words (k : FlowKey) : List (BitVec 64) :=
  [k.ipL 1 ++ k.ipL 0, k.ipL 3 ++ k.ipL 2, k.ipH 1 ++ k.ipH 0, k.ipH 3 ++ k.ipH 2,
    k.portH ++ k.portL ++ k.mplsLabel,
    k.padding ++ k.version ++ k.pktType.code ++ k.ipProtocol ++ k.addressSpaceId ++ k.vlanTag]

/-- `FlowKey::compare` -/
def compare (a b : FlowKey) : ℕ :=
  if (a.words.zip b.words).any fun (x, y) => x - y ≠ 0 then 1 else 0
end FlowKey

/-! ## Packets -/

/-- What an `IpApi` knows of a packet. The id is that of the header for IPv4 and that of the
fragment header, if there is one, for IPv6. -/
structure IpApi where
  src : SfIp
  dst : SfIp
  ip4Id : BitVec 16
  ip6Frag : Option (BitVec 32)
  isIp : src.family ≠ .unspec
  sameFamily : dst.family = src.family
deriving DecidableEq

def IpApi.id (api : IpApi) : BitVec 32 :=
  if api.src.isIp4 then api.ip4Id.setWidth 32
  else match api.ip6Frag with
    | some id => id
    | none => 0

/-- The parts of a packet that `set_key` reads. A packet without VLAN or MPLS has no such id. -/
structure Packet where
  type : PktType
  ipProtoNext : IpProtocol
  ipApi : IpApi
  vlan : Option (BitVec 16)
  mpls : Option (BitVec 32)
  addressSpaceId : BitVec 16
  /-- `DECODE_FRAG` -/
  frag : Bool
  icmpType : BitVec 8
  sp : BitVec 16
  dp : BitVec 16
deriving DecidableEq

def Packet.space (p : Packet) : Space where
  vlanId := match p.vlan with
    | some vid => vid
    | none => 0
  mplsId := match p.mpls with
    | some label => label
    | none => 0
  addrSpaceId := p.addressSpaceId

/-- `FlowControl::set_key` -/
def setKey (p : Packet) : FlowKey :=
  let api := p.ipApi
  if p.frag then FlowKey.initId cfg p.type p.ipProtoNext api.src api.dst api.id p.space
  else if p.type = .icmp then
    (FlowKey.init cfg p.type p.ipProtoNext ⟨api.src, p.icmpType.setWidth 16, api.dst, 0⟩ p.space).1
  else (FlowKey.init cfg p.type p.ipProtoNext ⟨api.src, p.sp, api.dst, p.dp⟩ p.space).1
end Snort.Flow
