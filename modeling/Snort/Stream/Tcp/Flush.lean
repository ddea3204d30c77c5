import Snort.Stream.Tcp.TcpReassembler

/-!
# Flushing and purging

The half of `tcp_reassembler.cc` that takes data out of the queue. A flush hands
the data from `cur_rseg` on to the splitter, which may take a part of a node; a
node whose data was taken stays in the list until it is purged. The splitter is
any object with the methods that flushing calls. What it is handed is recorded,
since that is all an observer sees of a flush.
-/

namespace Snort.Tcp
open DoublyLinked TcpReassemblerState

/-! ## The splitter and the tracker -/

/-- What `reassemble` returns: the splitter after the call, whether there is a buffer, and
the number of bytes that were copied. -/
structure Reassembled (σ : Type) where
  splitter : σ
  buffer : Bool
  copied : BitVec 32

/-- The methods of a `StreamSplitter` over its state. -/
structure StreamSplitter (σ : Type) where
  isPaf : σ → Bool
  max : σ → BitVec 32
  /-- total, offset, data, len, and the flags `PKT_PDU_HEAD` and `PKT_PDU_TAIL` -/
  reassemble : σ → BitVec 32 → BitVec 32 → List UInt8 → BitVec 32 → Bool → Bool → Reassembled σ
  /-- "actual data copied (1 <= copied <= len)" -/
  copied_le : ∀ st total offset data len head tail,
    (reassemble st total offset data len head tail).copied ≤ len
  update : σ → σ
  /-- the `AtomSplitter` that `fallback` puts in its place -/
  fallback : σ → σ

namespace StreamSplitter

/-- `get_max_pdu` -/
def maxPdu : BitVec 32 := 65536
end StreamSplitter

/-- The methods as the base class has them, with `max_pdu` of the configuration; `LogSplitter`
adds nothing to them. -/
def StreamSplitter.base (maxPdu : BitVec 32) : StreamSplitter Unit where
  isPaf _ := false
  max _ := maxPdu
  reassemble _ _ _ _ n _ tail := ⟨(), n ≠ 0 && tail, n⟩
  copied_le _ _ _ _ _ _ _ := BitVec.le_refl _
  update _ := ()
  fallback _ := ()

inductive FlushPolicy where
  | ignore
  | onAck
  | onData
deriving DecidableEq, Repr

/-- The fields of the tracker and of its flow that flushing reads; `r_win_base` is kept with
the other fields of the reassembler. -/
structure TcpStreamTracker (σ : Type) where
  splitter : σ
  /-- `paf_state.paf` is not `ABORT` -/
  pafActive : Bool
  flushPolicy : FlushPolicy
  tfMissingPkt : Bool
  tfMissingPrevPkt : Bool
  tfPktMissed : Bool
  tfForceFlush : Bool
  finSeqSet : Bool
  finFinalSeq : BitVec 32
  /-- `fin_seq_status` is `FIN_WITH_SEQ_ACKED` -/
  finWithSeqAcked : Bool
  rcvNxt : BitVec 32
  twoWayTraffic : Bool
  tcpIpsEnabled : Bool

/-- The tracker of a new stream. -/
def TcpStreamTracker.init {σ : Type} (splitter : σ) (flushPolicy : FlushPolicy) :
    TcpStreamTracker σ where
  splitter := splitter
  pafActive := true
  flushPolicy := flushPolicy
  tfMissingPkt := false
  tfMissingPrevPkt := false
  tfPktMissed := false
  tfForceFlush := false
  finSeqSet := false
  finFinalSeq := 0
  finWithSeqAcked := false
  rcvNxt := 0
  twoWayTraffic := false
  tcpIpsEnabled := false

/-- A call of `reassemble`. -/
structure Delivery where
  seq : BitVec 32
  /-- the bytes there are at the pointer, `len` of them at most -/
  data : List UInt8
  len : BitVec 32
  head : Bool
  tail : Bool
  /-- the splitter returned a buffer -/
  buffer : Bool
deriving DecidableEq, Repr

/-- One direction of a stream: the queue, the tracker, and what was delivered so far. -/
structure Reassembly (σ : Type) where
  trs : TcpReassemblerState
  tracker : TcpStreamTracker σ
  delivered : List Delivery

namespace TcpSegment

/-- The node after `n` of its bytes were copied. -/
def consume (tsn : TcpSegment) (n : BitVec 32) : TcpSegment :=
  { tsn with
    cSeq := tsn.cSeq + n
    cLen := tsn.cLen - n.setWidth 16
    offset := tsn.offset + n.setWidth 16 }

/-- `c_seq + c_len` -/
def cEnd (tsn : TcpSegment) : BitVec 32 := tsn.cSeq + tsn.cLen.setWidth 32
end TcpSegment

namespace TcpSegmentList

def nextNoGap (l : TcpSegmentList) (tsn : Cell TcpSegment) : Option Bool :=
  match tsn.next with
  | none => some false
  | some q => do
    let next ← l.heap q
    return next.val.iSeq = tsn.val.endSeq

/-- `TcpSegmentNode::is_packet_missing` -/
def isPacketMissing (l : TcpSegmentList) (tsn : Cell TcpSegment) (toSeq : BitVec 32) :
    Option Bool :=
  match tsn.next with
  | some q => do
    let next ← l.heap q
    return tsn.val.endSeq ≠ next.val.iSeq
  -- unlike every other comparison of sequence numbers, this one is not modular
  | none => some (tsn.val.cEnd < toSeq)
end TcpSegmentList

namespace Reassembly
variable {σ : Type} (sp : StreamSplitter σ)

/-! ## Flushing -/

variable (s : Reassembly σ)

def getFlushDataLen (tsn : TcpSegment) (toSeq max : BitVec 32) : BitVec 32 :=
  let flushLen := if tsn.cLen.setWidth 32 ≤ max then tsn.cLen.setWidth 32 else max
  -- copy only to the flush point
  if s.tracker.pafActive && seqGt (tsn.cSeq + flushLen) toSeq then toSeq - tsn.cSeq
  else flushLen

variable (tsn : Cell TcpSegment)

/-- The test that sets `PKT_PDU_TAIL`. -/
def endsPdu (bytesToCopy totalFlushed toSeq : BitVec 32) : Option Bool :=
  match tsn.next with
  | none => some true
  | some q => do
    let next ← s.trs.seglist.heap q
    return bytesToCopy < tsn.val.cLen.setWidth 32 ∨ seqEq (tsn.val.cSeq + bytesToCopy) toSeq ∨
      StreamSplitter.maxPdu < totalFlushed + tsn.val.cLen.setWidth 32 + next.val.cLen.setWidth 32

/-- The node at `a` once `copied` bytes of it were taken, and `cur_rseg` moved on if that were
all. -/
def takeData (trs : TcpReassemblerState) (a : ℕ) (tsn : Cell TcpSegment) (copied : BitVec 32) :
    Option TcpReassemblerState := do
  let seglist ← trs.seglist.set (some a) fun t => t.consume copied
  let trs := { trs with seglist := seglist }
  let val := tsn.val.consume copied
  if val.cLen = 0 then
    let sos := { trs.sos with flushCount := trs.sos.flushCount + 1 }
    updateNext { trs with sos := sos } { tsn with val := val }
  else return trs

/-- `set_tf_flags(TF_MISSING_PKT)`, unless what is missing lies behind the FIN. -/
def setMissingPkt (toSeq : BitVec 32) : Reassembly σ :=
  if !s.tracker.finSeqSet || seqLeq toSeq s.tracker.finFinalSeq then
    { s with tracker := { s.tracker with tfMissingPkt := true } }
  else s

/-- The first half of a round of `flush_data_segments`: the splitter is handed bytes of the
node, and those that it copies are taken. -/
def handOver (a : ℕ) (tsn : Cell TcpSegment) (total toSeq totalFlushed : BitVec 32) (head : Bool) :
    Option (Reassembly σ × Reassembled σ) := do
  let bytesToCopy := s.getFlushDataLen tsn.val toSeq (sp.max s.tracker.splitter)
  guard (bytesToCopy ≠ 0)
  let tail ← s.endsPdu tsn bytesToCopy totalFlushed toSeq
  let sb := sp.reassemble s.tracker.splitter total totalFlushed tsn.val.payload bytesToCopy head
    tail
  let trs ← takeData s.trs a tsn sb.copied
  let delivery := ⟨tsn.val.cSeq, tsn.val.payload.take bytesToCopy.toNat, bytesToCopy, head, tail,
    sb.buffer⟩
  return ({ s with
    trs := trs
    tracker := { s.tracker with splitter := sb.splitter }
    delivered := s.delivered ++ [delivery] }, sb)

/-- The second half of a round, where `tsn` is the node as it is now: whether the loop goes
on. -/
def goesOn (toSeq totalFlushed : BitVec 32) (buffer : Bool) :
    Option (Reassembly σ × Bool) := do
  if tsn.val.cLen = 0 ∧ seqEq tsn.val.cSeq toSeq then return (s, false)
  if ← s.trs.seglist.isPacketMissing tsn toSeq then return (s.setMissingPkt toSeq, false)
  match s.trs.seglist.curRseg with
  | none => return (s, false)
  | some b => do
    let cur ← s.trs.seglist.heap b
    return (s, !(buffer || StreamSplitter.maxPdu < totalFlushed + cur.val.cLen.setWidth 32))

/-- A round of the loop of `flush_data_segments`: the state after it, the bytes flushed so
far, and whether the loop goes on. -/
def flushRound (a : ℕ) (tsn : Cell TcpSegment) (total toSeq : BitVec 32) (totalFlushed : BitVec 32)
    (head : Bool) : Option (Reassembly σ × BitVec 32 × Bool) := do
  let (s, sb) ← handOver sp s a tsn total toSeq totalFlushed head
  let totalFlushed := totalFlushed + sb.copied
  let (s, again) ← s.goesOn { tsn with val := tsn.val.consume sb.copied } toSeq totalFlushed
    sb.buffer
  return (s, totalFlushed, again)

/-- The loop of `flush_data_segments`. -/
def flushLoop (total toSeq : BitVec 32) :
    ℕ → Reassembly σ → BitVec 32 → Bool → Option (Reassembly σ × BitVec 32)
  | 0, _, _, _ => none
  | fuel + 1, s, totalFlushed, head => do
    let a ← s.trs.seglist.curRseg
    let tsn ← s.trs.seglist.heap a
    if seqLt tsn.val.cSeq toSeq then
      let (s, totalFlushed, again) ← flushRound sp s a tsn total toSeq totalFlushed head
      if again then flushLoop total toSeq fuel s totalFlushed false
      else return (s, totalFlushed)
    else return (s, totalFlushed)

/-- `flush_data_segments`, with the number of bytes that were flushed. Every round copies a
byte at least, so that `total` bounds the rounds. -/
def flushDataSegments (total : BitVec 32) :
    Option (Reassembly σ × BitVec 32) := do
  let tsn ← s.trs.seglist.heap.read s.trs.seglist.curRseg
  flushLoop sp total (tsn.val.cSeq + total) (total.toNat + 1) s 0 true

def setBase (seq : BitVec 32) : Reassembly σ :=
  { s with trs := { s.trs with sos := { s.trs.sos with seglistBaseSeq := seq } } }

/-! ## What there is to flush -/

/-- The loop of `get_q_sequenced`: the number of bytes in sequence, and `cur_rseg`. -/
def sequencedLoop (l : TcpSegmentList) :
    ℕ → Cell TcpSegment → BitVec 32 → Option ℕ → Option (BitVec 32 × Option ℕ)
  | 0, _, _, _ => none
  | fuel + 1, tsn, len, curRseg => do
    let noGap ← l.nextNoGap tsn
    if len < StreamSplitter.maxPdu ∧ noGap then
      let next ← l.heap.read tsn.next
      if tsn.val.cLen = 0 then sequencedLoop l fuel next len tsn.next
      else sequencedLoop l fuel next (len + tsn.val.cLen.setWidth 32) curRseg
    else return (len + tsn.val.cLen.setWidth 32, curRseg)

def setCurRseg (p : Option ℕ) : Reassembly σ :=
  { s with trs := { s.trs with seglist := { s.trs.seglist with curRseg := p } } }

/-- The part of `get_q_sequenced` that walks over the nodes from `a`. -/
def sequencedFrom (a : ℕ) : Option (Reassembly σ × BitVec 32) := do
  let tsn ← s.trs.seglist.heap a
  let (len, curRseg) ← sequencedLoop s.trs.seglist (s.trs.seglist.fresh + 1) tsn 0 (some a)
  let cur ← s.trs.seglist.heap.read curRseg
  return ((s.setCurRseg curRseg).setBase cur.val.cSeq, len)

def getQSequenced : Option (Reassembly σ × BitVec 32) :=
  match s.trs.seglist.curRseg with
  | some a => s.sequencedFrom a
  | none =>
    match s.trs.seglist.head with
    | none => some (s, 0)
    | some a => do
      let tsn ← s.trs.seglist.heap a
      if s.tracker.twoWayTraffic && seqLt s.trs.sos.rWinBase tsn.val.cSeq then
        match tsn.prev with
        | none => return (s, 0)
        | some p => do
          let seglist ← s.trs.seglist.set (some p) fun t => { t with cSeq := t.iSeq }
          return ({ s with trs := { s.trs with seglist := seglist } }.setCurRseg (some p), 0)
      else s.sequencedFrom a

/-! ## Purging -/

/-- The loop of `purge_to_seq` over the nodes from the pointer on. -/
def purgeLoop (flushSeq : BitVec 32) :
    ℕ → TcpReassemblerState → Option ℕ → Option TcpReassemblerState
  | 0, _, _ => none
  | _ + 1, trs, none => some trs
  | fuel + 1, trs, some a => do
    let tsn ← trs.seglist.heap a
    if seqLt tsn.val.iSeq flushSeq ∧ tsn.val.cLen = 0 then
      let trs ← deleteReassemblySegment trs a
      purgeLoop flushSeq fuel trs tsn.next
    else return trs

def purgeToSeq (flushSeq : BitVec 32) : Option (Reassembly σ) := do
  guard s.trs.seglist.head.isSome
  let trs ← purgeLoop flushSeq (s.trs.seglist.fresh + 1) s.trs s.trs.seglist.head
  let rcvNxt := if seqLt s.tracker.rcvNxt flushSeq then flushSeq else s.tracker.rcvNxt
  let tail := if trs.seglist.head.isNone then none else trs.seglist.tail
  return { s with
    trs := { trs with seglist := { trs.seglist with tail := tail } }
    tracker := { s.tracker with rcvNxt := rcvNxt } }
end Reassembly
end Snort.Tcp
