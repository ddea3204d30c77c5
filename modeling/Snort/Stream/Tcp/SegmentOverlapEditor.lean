import Snort.Stream.Tcp.TcpSegmentNode

/-!
# The segment overlap editor

`segment_overlap_editor.cc` decides what happens where a new segment meets
queued ones: the new data is trimmed, or the old data is trimmed, split or
dropped, as the reassembly policy asks. The handlers work on the heap of the
segment list. What a handler computes from the fields of the state and of one
node is a function of its own, above the handler.
-/

namespace Snort.Tcp
open DoublyLinked

/-- `NormMode`: in test mode a normalization is counted but not made. -/
inductive NormMode where
  | test
  | on
deriving DecidableEq, Repr

/-- `StreamPolicy`; `ReassemblyPolicy` has the same values. -/
inductive StreamPolicy where
  | osInvalid
  | osFirst
  | osLast
  | osLinux
  | osOldLinux
  | osBsd
  | osMacos
  | osSolaris
  | osIrix
  | osHpux11
  | osHpux10
  | osWindows
  | osWindows2K3
  | osVista
  | osProxy
deriving DecidableEq, Repr

/-! ## The packet and its descriptor -/

/-- The payload of a packet. The pointer `data` is an index into the buffer. -/
structure Packet where
  buffer : List UInt8
  data : ℕ
  dsize : BitVec 16
  /-- a copy was asked for bytes outside its source or outside the payload -/
  overrun : Bool
deriving DecidableEq, Repr

/-- `memcpy(data + start, src, length)`. Of a copy that does not stay inside the two
buffers only the part inside is made, and `overrun` is set. -/
def Packet.memcpy (p : Packet) (start : ℕ) (src : List UInt8) (length : ℕ) : Packet :=
  let dst := p.data + start
  let bytes := (src.take length).take (p.buffer.length - dst)
  { p with
    buffer := p.buffer.take dst ++ bytes ++ p.buffer.drop (dst + bytes.length)
    overrun := p.overrun || src.length < length || p.buffer.length < dst + length }

structure TcpSegmentDescriptor where
  pkt : Packet
  syn : Bool
  segSeq : BitVec 32
  endSeq : BitVec 32
deriving DecidableEq, Repr

namespace TcpSegmentDescriptor

/-- The descriptor of a segment; a SYN takes one sequence number. -/
def new (segSeq : BitVec 32) (syn : Bool) (payload : List UInt8) : TcpSegmentDescriptor where
  pkt := ⟨payload, 0, BitVec.ofNat 16 payload.length, false⟩
  syn := syn
  segSeq := segSeq
  endSeq :=
    let endSeq := segSeq + (BitVec.ofNat 16 payload.length).setWidth 32
    if syn then endSeq + 1 else endSeq

variable (tsd : TcpSegmentDescriptor)

def segLen : BitVec 16 := tsd.pkt.dsize

/-- The sequence number of the first byte of payload. -/
def firstSeq : BitVec 32 :=
  if tsd.syn then tsd.segSeq + 1 else tsd.segSeq

def slideSegmentInRcvWindow (offset : BitVec 32) : TcpSegmentDescriptor :=
  { tsd with
    segSeq := tsd.segSeq + offset
    pkt := { tsd.pkt with
      data := (tsd.pkt.data + offset.toInt).toNat
      dsize := tsd.pkt.dsize - offset.setWidth 16 } }

/-- `TcpNormalizer::trim_payload` -/
def trimPayload (max : BitVec 32) (mode : NormMode) : TcpSegmentDescriptor :=
  if mode = .on then
    let fat := tsd.segLen - max.setWidth 16
    { tsd with
      pkt := { tsd.pkt with dsize := max.setWidth 16 }
      endSeq := tsd.endSeq - fat.setWidth 32 }
  else tsd

/-- `TcpNormalizer::trim_win_payload` -/
def trimWinPayload (max : BitVec 32) (trimWin : NormMode) : TcpSegmentDescriptor :=
  if max.toNat < tsd.segLen.toNat then tsd.trimPayload max trimWin else tsd
end TcpSegmentDescriptor

/-! ## The state -/

/-- `SegmentOverlapState` without its pointers to nodes. The last three fields are
`flush_count` of `TcpReassemblerState` and what insertion reads of its tracker: the
base of the receive window and the mode of the normalization `trim_win`. -/
structure SegmentOverlapState where
  tsd : TcpSegmentDescriptor
  rdata : ℕ
  reassemblyPolicy : StreamPolicy
  seglistBaseSeq : BitVec 32
  segCount : BitVec 32
  segBytesTotal : BitVec 32
  segBytesLogical : BitVec 32
  totalBytesQueued : BitVec 32
  totalSegsQueued : BitVec 32
  overlapCount : BitVec 32
  seq : BitVec 32
  seqEnd : BitVec 32
  rseq : BitVec 32
  overlap : BitVec 32
  slide : BitVec 32
  truncLen : BitVec 32
  len : BitVec 16
  rsize : BitVec 16
  tcpIpsData : NormMode
  keepSegment : Bool
  flushCount : BitVec 32
  rWinBase : BitVec 32
  trimWin : NormMode
deriving DecidableEq, Repr

/-- `TcpReassemblerState`, with the pointers of its `SegmentOverlapState`. -/
structure TcpReassemblerState where
  sos : SegmentOverlapState
  left : Option ℕ
  right : Option ℕ
  seglist : TcpSegmentList

namespace SegmentOverlapState

/-- `init_sos` and the part of `TcpReassemblerPolicy::init` that sets these fields. -/
def initSos (pol : StreamPolicy) (tcpIpsData trimWin : NormMode) : SegmentOverlapState where
  tsd := .new 0 false []
  rdata := 0
  reassemblyPolicy := pol
  seglistBaseSeq := 0
  segCount := 0
  segBytesTotal := 0
  segBytesLogical := 0
  totalBytesQueued := 0
  totalSegsQueued := 0
  overlapCount := 0
  seq := 0
  seqEnd := 0
  rseq := 0
  overlap := 0
  slide := 0
  truncLen := 0
  len := 0
  rsize := 0
  tcpIpsData := tcpIpsData
  keepSegment := true
  flushCount := 0
  rWinBase := 0
  trimWin := trimWin

variable (sos : SegmentOverlapState)

def initSoe : SegmentOverlapState :=
  { sos with
    seq := sos.tsd.segSeq
    seqEnd := sos.tsd.endSeq
    len := sos.tsd.segLen
    overlap := 0
    slide := 0
    truncLen := 0
    rdata := sos.tsd.pkt.data
    rsize := sos.tsd.segLen
    rseq := sos.tsd.segSeq
    keepSegment := true }

/-- The bytes that `rdata` points to. -/
def rbytes : List UInt8 := sos.tsd.pkt.buffer.drop sos.rdata

/-- The copy into the packet that inline normalization makes. -/
def copyToPacket (start : ℕ) (src : List UInt8) (length : ℕ) : SegmentOverlapState :=
  if sos.tcpIpsData = .on then
    { sos with tsd := { sos.tsd with pkt := sos.tsd.pkt.memcpy start src length } }
  else sos
end SegmentOverlapState

/-! ## Queueing, duplicating and deleting nodes

These are functions of `tcp_reassembler.cc` that the overlap editor declares as
virtual. -/

namespace SegmentOverlapState
variable (sos : SegmentOverlapState) (tsn : TcpSegment)

/-- The counters that `queue_reassembly_segment` moves. -/
def countQueued : SegmentOverlapState :=
  { sos with
    segCount := sos.segCount + 1
    segBytesTotal := sos.segBytesTotal + tsn.iLen.setWidth 32
    totalSegsQueued := sos.totalSegsQueued + 1 }

/-- The counters that `delete_reassembly_segment` moves. -/
def countDeleted : SegmentOverlapState :=
  { sos with
    segCount := sos.segCount - 1
    segBytesTotal := sos.segBytesTotal - tsn.iLen.setWidth 32
    segBytesLogical := sos.segBytesLogical - tsn.iLen.setWidth 32
    flushCount := if tsn.cLen = 0 then sos.flushCount - 1 else sos.flushCount }

/-- The counters that `add_reassembly_segment` moves after queueing. -/
def countAdded : SegmentOverlapState :=
  { sos with
    segBytesLogical := sos.segBytesLogical + tsn.cLen.setWidth 32
    totalBytesQueued := sos.totalBytesQueued + tsn.cLen.setWidth 32 }

/-- The node that `add_reassembly_segment` makes of the packet. -/
def newNode (newSize slide seq : BitVec 32) : TcpSegment :=
  { TcpSegment.new (sos.tsd.pkt.buffer.drop sos.tsd.pkt.data) sos.tsd.segLen with
    offset := slide.setWidth 16
    cLen := newSize.setWidth 16
    iLen := newSize.setWidth 16
    iSeq := seq
    cSeq := seq }

/-- A segment of which nothing is left to insert is trimmed. -/
def discard : SegmentOverlapState :=
  { sos with tsd := sos.tsd.trimWinPayload 0 sos.trimWin }
end SegmentOverlapState

namespace TcpReassemblerState
variable (trs : TcpReassemblerState)

def queueReassemblySegment (prev : Option ℕ) (tsn : ℕ) :
    Option TcpReassemblerState := do
  let seglist ← trs.seglist.insert prev tsn
  let c ← seglist.heap tsn
  let seglist ←
    if seqEq c.val.iSeq trs.sos.seglistBaseSeq then do
      let seglist ← seglist.set (some tsn) fun t => { t with cSeq := t.iSeq }
      pure { seglist with curRseg := some tsn }
    else pure seglist
  return { trs with seglist := seglist, sos := trs.sos.countQueued c.val }

/-- `newSize` of `add_reassembly_segment`. The length arrives as an `int16_t`. -/
def newSize (len : BitVec 16) (slide truncLen : BitVec 32) : BitVec 32 :=
  len.signExtend 32 - slide - truncLen

def addReassemblySegment (len : BitVec 16) (slide truncLen seq : BitVec 32) (left : Option ℕ) :
    Option TcpReassemblerState := do
  let size := newSize len slide truncLen
  if size.toInt ≤ 0 then
    return { trs with sos := trs.sos.discard }
  let tsn := trs.sos.newNode size slide seq
  let trs ← queueReassemblySegment { trs with seglist := trs.seglist.alloc tsn } left
    trs.seglist.fresh
  return { trs with sos := trs.sos.countAdded tsn }

/-- The copy of `left` that `dup_reassembly_segment` makes. -/
def dupNode (left : TcpSegment) : TcpSegment :=
  { TcpSegment.new left.payload left.cLen with
    cLen := left.cLen
    iSeq := left.iSeq
    cSeq := left.iSeq }

/-- `dup_reassembly_segment`; the new node is at the address `fresh` of the state before. -/
def dupReassemblySegment (left : Option ℕ) :
    Option TcpReassemblerState := do
  let c ← trs.seglist.heap.read left
  queueReassemblySegment { trs with seglist := trs.seglist.alloc (dupNode c.val) } left
    trs.seglist.fresh

/-- `update_next`, with `next_no_gap` -/
def updateNext (tsn : Cell TcpSegment) : Option TcpReassemblerState :=
  match tsn.next with
  | none => some { trs with seglist := { trs.seglist with curRseg := none } }
  | some q => do
    let c ← trs.seglist.heap q
    if c.val.iSeq = tsn.val.endSeq then
      let seglist ← trs.seglist.set (some q) fun t => { t with cSeq := t.iSeq }
      return { trs with seglist := { seglist with curRseg := some q } }
    else
      return { trs with seglist := { trs.seglist with curRseg := none } }

def deleteReassemblySegment (tsn : ℕ) :
    Option TcpReassemblerState := do
  let seglist ← trs.seglist.remove tsn
  let c ← seglist.heap tsn
  let trs := { trs with seglist := seglist, sos := trs.sos.countDeleted c.val }
  let trs ← if trs.seglist.curRseg = some tsn then updateNext trs c else pure trs
  return { trs with seglist := trs.seglist.term tsn }
end TcpReassemblerState

/-! ## Overlap with the node on the left -/

namespace TcpSegment

/-- `c_len -= overlap; i_len -= overlap` -/
def cutTail (tsn : TcpSegment) (overlap : BitVec 32) : TcpSegment :=
  { tsn with
    cLen := tsn.cLen - overlap.setWidth 16
    iLen := tsn.iLen - overlap.setWidth 16 }

/-- A node whose first `delta` bytes are cut off and that starts at `seq` from then on. -/
def cutHead (tsn : TcpSegment) (seq : BitVec 32) (delta : BitVec 16) : TcpSegment :=
  { tsn with
    iSeq := seq
    cSeq := seq
    offset := tsn.offset + delta
    cLen := tsn.cLen - delta
    iLen := tsn.iLen - delta }
end TcpSegment

namespace SegmentOverlapState
variable (sos : SegmentOverlapState) (left : TcpSegment)

/-- The overlap with `left`, as all three handlers compute it. -/
def measureLeft : SegmentOverlapState :=
  { sos with
    len := sos.tsd.segLen
    overlap := left.endSeq - sos.seq }

def countOverlap : SegmentOverlapState :=
  { sos with overlapCount := sos.overlapCount + 1 }

def keepFirst : SegmentOverlapState :=
  let sos := sos.measureLeft left
  let sos :=
    if (sos.len.toNat : ℤ) < sos.overlap.toInt then
      { sos with overlap := sos.len.setWidth 32 }
    else sos
  if 0 < sos.overlap.toInt then
    let sos := sos.countOverlap
    let src := left.data.drop (sos.tsd.segSeq - left.iSeq).toNat
    let sos :=
      if seqGt left.endSeq sos.seqEnd then
        sos.copyToPacket 0 src sos.tsd.segLen.toNat
      else
        sos.copyToPacket 0 src (left.endSeq - sos.tsd.segSeq).toNat
    { sos with seq := sos.seq + sos.overlap }
  else sos

/-- The fields and the node `left` after `left_overlap_trim_first`. -/
def trimFirst : SegmentOverlapState × TcpSegment :=
  let sos := sos.measureLeft left
  if 0 < sos.overlap.toInt then
    let sos := sos.countOverlap
    if seqGeq left.endSeq (sos.seq + sos.len.setWidth 32) then
      -- the existing node reaches to the end of the new data: drop the new data
      ({ sos with seq := sos.seq + sos.len.setWidth 32 }, left)
    else
      ({ sos with segBytesLogical := sos.segBytesLogical - sos.overlap }, left.cutTail sos.overlap)
  else (sos, left)
end SegmentOverlapState

namespace TcpReassemblerState
variable (trs : TcpReassemblerState)

def leftOverlapKeepFirst : Option TcpReassemblerState := do
  let left ← trs.seglist.heap.read trs.left
  guard (seqGt trs.sos.seq left.val.iSeq)
  return { trs with sos := trs.sos.keepFirst left.val }

def leftOverlapTrimFirst : Option TcpReassemblerState := do
  let left ← trs.seglist.heap.read trs.left
  guard (seqGt trs.sos.seq left.val.iSeq)
  let (sos, tsn) := trs.sos.trimFirst left.val
  let seglist ← trs.seglist.set trs.left fun _ => tsn
  return { trs with sos := sos, seglist := seglist }

def leftOverlapKeepLast : Option TcpReassemblerState := do
  let left ← trs.seglist.heap.read trs.left
  guard (seqGt trs.sos.seq left.val.iSeq)
  let sos := trs.sos.measureLeft left.val
  if 0 < sos.overlap.toInt then
    let sos := sos.countOverlap
    let seqEnd := sos.seq + sos.len.setWidth 32
    if seqGt left.val.endSeq seqEnd then
      -- the new data lies inside `left`, which is split in two
      let right := trs.seglist.fresh
      let trs ← dupReassemblySegment { trs with sos := sos } trs.left
      let seglist ← trs.seglist.set trs.left fun t => t.cutTail sos.overlap
      let delta := (seqEnd - left.val.iSeq).setWidth 16
      let seglist ← seglist.set (some right) fun t => t.cutHead seqEnd delta
      return { trs with
        seglist := seglist
        right := some right
        sos := { trs.sos with
          segBytesLogical := trs.sos.segBytesLogical - delta.setWidth 32 } }
    else
      let seglist ← trs.seglist.set trs.left fun t => t.cutTail sos.overlap
      return { trs with
        seglist := seglist
        sos := { sos with segBytesLogical := sos.segBytesLogical - sos.overlap } }
  else
    return { trs with sos := sos }
end TcpReassemblerState

/-! ## Overlap with the nodes on the right -/

namespace SegmentOverlapState
variable (sos : SegmentOverlapState) (right : TcpSegment)

/-- What a round of `eval_right` sets first: the overlap with `right`. -/
def measureRight : SegmentOverlapState :=
  { sos with truncLen := 0, overlap := sos.seqEnd - right.iSeq }

/-- The fields and the node `right` after `right_overlap_truncate_existing`. -/
def truncateExisting : SegmentOverlapState × TcpSegment :=
  if seqEq right.iSeq sos.seq && sos.reassemblyPolicy != .osLast then
    let slide := right.endSeq - sos.seq
    ({ sos with slide := slide, seq := sos.seq + slide }, right)
  else
    ({ sos with
        segBytesLogical := sos.segBytesLogical - sos.overlap
        totalBytesQueued := sos.totalBytesQueued - sos.overlap },
      right.cutHead (right.iSeq + sos.overlap) (sos.overlap.setWidth 16))

/-- `right_overlap_truncate_new` -/
def truncateNew : SegmentOverlapState :=
  let start := right.iSeq - sos.tsd.segSeq
  let length := sos.tsd.segSeq + sos.tsd.segLen.setWidth 32 - right.iSeq
  { sos.copyToPacket start.toNat right.data length.toNat with truncLen := sos.overlap }

/-- The copy that `full_right_overlap_truncate_new` makes in inline mode. -/
def copyRight : SegmentOverlapState :=
  sos.copyToPacket (right.iSeq - sos.tsd.segSeq).toNat right.data right.iLen.toNat

/-- `seq += right->i_len` -/
def skipSeq : SegmentOverlapState :=
  { sos with seq := sos.seq + right.iLen.setWidth 32 }

/-- `rdata`, `rsize` and `rseq` moved past `right` -/
def skipRetransmit : SegmentOverlapState :=
  { sos with
    rdata := sos.rdata + right.iLen.toNat
    rsize := sos.rsize - right.iLen
    rseq := sos.rseq + right.iLen.setWidth 32 }

/-- What `full_right_overlap_truncate_new` sets before it inserts a chunk. -/
def cutChunk : SegmentOverlapState :=
  { sos with truncLen := sos.overlap, slide := sos.seq - sos.tsd.segSeq }

/-- The test of `is_segment_retransmit`; the result holds the fields after it and whether
the whole segment is a retransmission. -/
def segmentRetransmit :
    Option (Bool × SegmentOverlapState) := do
  let full ← right.isRetransmit sos.rbytes sos.rsize sos.rseq right.iLen (sos.rseq = sos.tsd.segSeq)
  let sos := if full then { sos with rsize := 0 } else (sos.skipRetransmit right).skipSeq right
  let sos := if sos.rsize = 0 then { sos with keepSegment := false } else sos
  return (full, sos)

/-- The guard of the first branch of `full_right_overlap_os1` and `full_right_overlap_os2`. -/
def startsBefore : Bool :=
  seqGeq sos.seqEnd right.endSeq && seqLt sos.seq right.iSeq

/-- The guard of the second branch of `full_right_overlap_os2`. -/
def endsAfter : Bool :=
  seqGt sos.seqEnd right.endSeq && seqEq sos.seq right.iSeq
end SegmentOverlapState

namespace TcpReassemblerState
variable (trs : TcpReassemblerState)

/-- `left = right; right = right->next` -/
def advance : Option TcpReassemblerState := do
  let right ← trs.seglist.heap.read trs.right
  return { trs with left := trs.right, right := right.next }

def rightOverlapTruncateExisting : Option TcpReassemblerState := do
  let right ← trs.seglist.heap.read trs.right
  let (sos, tsn) := trs.sos.truncateExisting right.val
  let seglist ← trs.seglist.set trs.right fun _ => tsn
  return { trs with sos := sos, seglist := seglist }

def rightOverlapTruncateNew : Option TcpReassemblerState := do
  let right ← trs.seglist.heap.read trs.right
  return { trs with sos := trs.sos.truncateNew right.val }

def dropOldSegment : Option TcpReassemblerState := do
  let dropSeg ← trs.right
  let right ← trs.seglist.heap dropSeg
  deleteReassemblySegment { trs with right := right.next } dropSeg

def fullRightOverlapTruncateNew :
    Option TcpReassemblerState := do
  let right ← trs.seglist.heap.read trs.right
  let trs := { trs with sos := trs.sos.copyRight right.val }
  if seqEq right.val.iSeq trs.sos.seq then
    advance { trs with sos := trs.sos.skipSeq right.val }
  else
    -- insert the part before `right`, and go on behind it
    let sos := trs.sos.cutChunk
    let trs ← addReassemblySegment { trs with sos := sos } sos.len sos.slide sos.truncLen
      sos.seq trs.left
    advance { trs with sos := { trs.sos with seq := right.val.endSeq, truncLen := 0 } }

def fullRightOverlapOs1 : Option TcpReassemblerState := do
  let right ← trs.seglist.heap.read trs.right
  if trs.sos.startsBefore right.val then dropOldSegment trs
  else fullRightOverlapTruncateNew trs

def fullRightOverlapOs2 : Option TcpReassemblerState := do
  let right ← trs.seglist.heap.read trs.right
  if trs.sos.startsBefore right.val then dropOldSegment trs
  else if trs.sos.endsAfter right.val then dropOldSegment trs
  else fullRightOverlapTruncateNew trs

/-- The new segment has the size and place of `right`, and what comes before it has not
been received. -/
def replacesAfterHole (right : TcpSegment) : Option Bool :=
  if seqEq right.iSeq trs.sos.seq && right.iLen == trs.sos.len then
    match trs.left with
    | none => some false
    | some a => do
      let left ← trs.seglist.heap a
      return !seqEq left.val.endSeq trs.sos.seq
  else some false

def fullRightOverlapOs3 : Option TcpReassemblerState := do
  let right ← trs.seglist.heap.read trs.right
  if ← trs.replacesAfterHole right.val then
    let sos := trs.sos.truncateNew right.val
    advance { trs with sos := (sos.skipRetransmit right.val).skipSeq right.val }
  else dropOldSegment trs

def fullRightOverlapOs4 : Option TcpReassemblerState :=
  dropOldSegment trs

def fullRightOverlapOs5 : Option TcpReassemblerState :=
  fullRightOverlapTruncateNew trs
end TcpReassemblerState

/-! ## Reassemblers

A class derived from `TcpReassembler` chooses one handler for each kind of overlap. -/

inductive LeftOverlap where
  | keepFirst
  | trimFirst
  | keepLast
deriving DecidableEq, Repr

inductive RightOverlap where
  | truncateExisting
  | truncateNew
deriving DecidableEq, Repr

inductive FullOverlap where
  | os1
  | os2
  | os3
  | os4
  | os5
deriving DecidableEq, Repr

structure TcpReassembler where
  left : LeftOverlap
  right : RightOverlap
  full : FullOverlap
deriving DecidableEq, Repr

namespace TcpReassembler
open TcpReassemblerState

def insertLeftOverlap (r : TcpReassembler) : TcpReassemblerState → Option TcpReassemblerState :=
  match r.left with
  | .keepFirst => leftOverlapKeepFirst
  | .trimFirst => leftOverlapTrimFirst
  | .keepLast => leftOverlapKeepLast

def insertRightOverlap (r : TcpReassembler) : TcpReassemblerState → Option TcpReassemblerState :=
  match r.right with
  | .truncateExisting => rightOverlapTruncateExisting
  | .truncateNew => rightOverlapTruncateNew

def insertFullOverlap (r : TcpReassembler) : TcpReassemblerState → Option TcpReassemblerState :=
  match r.full with
  | .os1 => fullRightOverlapOs1
  | .os2 => fullRightOverlapOs2
  | .os3 => fullRightOverlapOs3
  | .os4 => fullRightOverlapOs4
  | .os5 => fullRightOverlapOs5

def evalLeft (r : TcpReassembler) (trs : TcpReassemblerState) : Option TcpReassemblerState :=
  if trs.left.isSome then r.insertLeftOverlap trs else some trs

/-- The loop of `eval_right`; it returns `none` on a failed assertion and after more than
`fuel` rounds. -/
def evalRight (r : TcpReassembler) : ℕ → TcpReassemblerState → Option TcpReassemblerState
  | 0, _ => none
  | fuel + 1, trs =>
    match trs.right with
    | none => some trs
    | some a => do
      let right ← trs.seglist.heap a
      if seqLt right.val.iSeq trs.sos.seqEnd then
        guard (seqLeq trs.sos.seq right.val.iSeq)
        let sos := trs.sos.measureRight right.val
        if sos.overlap.toInt < (right.val.iLen.toNat : ℤ) then
          -- partial overlap: the loop ends here
          if (right.val.isRetransmit sos.rbytes sos.rsize sos.rseq right.val.iLen
              false).isSome then
            return { trs with sos := { sos with keepSegment := false } }
          else
            r.insertRightOverlap { trs with sos := sos.countOverlap }
        else
          match sos.segmentRetransmit right.val with
          | some (true, sos) => return { trs with sos := sos }
          | some (false, sos) => do
            let trs ← advance { trs with sos := sos }
            r.evalRight fuel trs
          | none => do
            let trs ← r.insertFullOverlap { trs with sos := sos.countOverlap }
            r.evalRight fuel trs
      else return trs
end TcpReassembler
end Snort.Tcp
