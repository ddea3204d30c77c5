import Snort.Stream.Tcp.SegmentOverlapEditor

/-!
# Queueing a packet for reassembly

The entry point `queue_packet_for_reassembly` of `tcp_reassembler.cc`, the choice
of the place where a new segment belongs, and the reassemblers of
`tcp_reassemblers.cc`.
-/

namespace Snort.Tcp
open DoublyLinked

/-! ## The reassembler classes -/

def tcpReassemblerFirst : TcpReassembler := ⟨.keepFirst, .truncateNew, .os5⟩

def tcpReassemblerLast : TcpReassembler := ⟨.keepLast, .truncateExisting, .os4⟩

def tcpReassemblerLinux : TcpReassembler := ⟨.keepFirst, .truncateExisting, .os2⟩

def tcpReassemblerOldLinux : TcpReassembler := ⟨.keepFirst, .truncateExisting, .os4⟩

def tcpReassemblerBSD : TcpReassembler := ⟨.keepFirst, .truncateExisting, .os1⟩

def tcpReassemblerMacOS : TcpReassembler := ⟨.keepFirst, .truncateExisting, .os1⟩

def tcpReassemblerSolaris : TcpReassembler := ⟨.trimFirst, .truncateNew, .os3⟩

def tcpReassemblerIrix : TcpReassembler := ⟨.keepFirst, .truncateExisting, .os2⟩

def tcpReassemblerHpux11 : TcpReassembler := ⟨.trimFirst, .truncateNew, .os3⟩

def tcpReassemblerHpux10 : TcpReassembler := ⟨.keepFirst, .truncateExisting, .os2⟩

def tcpReassemblerWindows : TcpReassembler := ⟨.keepFirst, .truncateExisting, .os1⟩

def tcpReassemblerWindows2K3 : TcpReassembler := ⟨.keepFirst, .truncateExisting, .os1⟩

def tcpReassemblerVista : TcpReassembler := ⟨.keepFirst, .truncateNew, .os5⟩

def tcpReassemblerProxy : TcpReassembler := ⟨.keepFirst, .truncateNew, .os5⟩

/-- `TcpReassemblerFactory::create`; inline normalization always keeps the first data. -/
def TcpReassembler.create (tcpIpsData : NormMode) (osPolicy : StreamPolicy) : TcpReassembler :=
  match if tcpIpsData = .on then StreamPolicy.osFirst else osPolicy with
  | .osFirst => tcpReassemblerFirst
  | .osLast => tcpReassemblerLast
  | .osLinux => tcpReassemblerLinux
  | .osOldLinux => tcpReassemblerOldLinux
  | .osBsd => tcpReassemblerBSD
  | .osMacos => tcpReassemblerMacOS
  | .osSolaris => tcpReassemblerSolaris
  | .osIrix => tcpReassemblerIrix
  | .osHpux11 => tcpReassemblerHpux11
  | .osHpux10 => tcpReassemblerHpux10
  | .osWindows => tcpReassemblerWindows
  | .osWindows2K3 => tcpReassemblerWindows2K3
  | .osVista => tcpReassemblerVista
  | .osProxy => tcpReassemblerProxy
  | .osInvalid => tcpReassemblerBSD

/-- `TcpReassemblerPolicy::init`: an empty list. -/
def TcpReassemblerState.init (pol : StreamPolicy) (tcpIpsData trimWin : NormMode) :
    TcpReassemblerState where
  sos := .initSos pol tcpIpsData trimWin
  left := none
  right := none
  seglist := .empty

/-! ## The place of a new segment -/

namespace TcpSegmentList

/-- The loop of `init_overlap_editor` from the head: the neighbours of a segment that
starts at `segSeq`. -/
def findFromHead (l : TcpSegmentList) (segSeq : BitVec 32) :
    ℕ → Option ℕ → Option ℕ → Option (Option ℕ × Option ℕ)
  | 0, _, _ => none
  | _ + 1, none, left => some (left, none)
  | fuel + 1, some tsn, left => do
    let right ← l.heap tsn
    if seqGeq right.val.iSeq segSeq then return (left, some tsn)
    else l.findFromHead segSeq fuel right.next (some tsn)

/-- The loop of `init_overlap_editor` from the tail. -/
def findFromTail (l : TcpSegmentList) (segSeq : BitVec 32) :
    ℕ → Option ℕ → Option ℕ → Option (Option ℕ × Option ℕ)
  | 0, _, _ => none
  | _ + 1, none, right => some (none, right)
  | fuel + 1, some tsn, right => do
    let left ← l.heap tsn
    if seqLt left.val.iSeq segSeq then return (some tsn, right)
    else l.findFromTail segSeq fuel left.prev (some tsn)
end TcpSegmentList

/-- The distance from a node that `init_overlap_editor` compares. -/
def seqDistance (segSeq iSeq : BitVec 32) : BitVec 32 :=
  if seqGt segSeq iSeq then segSeq - iSeq else iSeq - segSeq

namespace TcpReassemblerState
variable (trs : TcpReassemblerState)

/-- The list is searched from the end that is nearer. -/
def nearerHead : Option Bool :=
  match trs.seglist.head, trs.seglist.tail with
  | some head, some tail => do
    let head ← trs.seglist.heap head
    let tail ← trs.seglist.heap tail
    return seqLeq (seqDistance trs.sos.tsd.segSeq head.val.iSeq)
      (seqDistance trs.sos.tsd.segSeq tail.val.iSeq)
  | _, _ => some (seqLeq 0 0)

/-- `init_overlap_editor`. The loops visit every node at most once, so that the number of
nodes ever allocated bounds their rounds. -/
def initOverlapEditor : Option TcpReassemblerState := do
  let fuel := trs.seglist.fresh + 1
  let (left, right) ←
    if ← trs.nearerHead then
      trs.seglist.findFromHead trs.sos.tsd.segSeq fuel trs.seglist.head none
    else trs.seglist.findFromTail trs.sos.tsd.segSeq fuel trs.seglist.tail none
  return { trs with left := left, right := right, sos := trs.sos.initSoe }

/-- `is_segment_fasttrack`, on a list with a tail -/
def isSegmentFasttrack : Option Bool :=
  match trs.seglist.tail with
  | none => some false
  | some tail => do
    let tail ← trs.seglist.heap tail
    return seqEq trs.sos.tsd.segSeq tail.val.endSeq
end TcpReassemblerState

namespace TcpReassembler
open TcpReassemblerState
variable (trs : TcpReassemblerState)

def insertSegmentInEmptySeglist : Option TcpReassemblerState :=
  let tsd := trs.sos.tsd
  let seq := tsd.firstSeq
  if seqGt trs.sos.rWinBase seq then
    let overlap := trs.sos.rWinBase - tsd.segSeq
    if tsd.segLen.toNat ≤ overlap.toNat then some trs
    else addReassemblySegment trs tsd.segLen overlap 0 (seq + overlap) none
  else addReassemblySegment trs tsd.segLen 0 0 seq none

def insertSegmentInSeglist (r : TcpReassembler) (trs : TcpReassemblerState) :
    Option TcpReassemblerState := do
  if ← trs.isSegmentFasttrack then
    addReassemblySegment trs trs.sos.tsd.segLen 0 0 trs.sos.tsd.segSeq trs.seglist.tail
  else
    let trs ← initOverlapEditor trs
    let trs ← r.evalLeft trs
    let trs ← r.evalRight (trs.seglist.fresh + 1) trs
    if trs.sos.keepSegment then
      -- the slide is relative to the start of the segment
      let trs := { trs with sos := { trs.sos with slide := trs.sos.seq - trs.sos.tsd.segSeq } }
      addReassemblySegment trs trs.sos.len trs.sos.slide trs.sos.truncLen trs.sos.seq trs.left
    else return trs

/-- `slide_segment_in_rcv_window` on the segment being inserted -/
def slideSegment (offset : BitVec 32) : TcpReassemblerState :=
  { trs with sos := { trs.sos with tsd := trs.sos.tsd.slideSegmentInRcvWindow offset } }

/-- `queue_packet_for_reassembly`. The return value of the source is always
`STREAM_INSERT_OK`. -/
def queuePacketForReassembly (r : TcpReassembler) (trs : TcpReassemblerState)
    (tsd : TcpSegmentDescriptor) : Option TcpReassemblerState :=
  let trs := { trs with sos := { trs.sos with tsd := tsd } }
  if trs.sos.segCount = 0 then insertSegmentInEmptySeglist trs
  else if seqGt trs.sos.rWinBase tsd.segSeq then
    let offset := trs.sos.rWinBase - tsd.segSeq
    if offset.toInt < (tsd.segLen.toNat : ℤ) then do
      let trs ← r.insertSegmentInSeglist (slideSegment trs offset)
      return slideSegment trs (-offset)
    else some trs
  else r.insertSegmentInSeglist trs
end TcpReassembler
end Snort.Tcp
