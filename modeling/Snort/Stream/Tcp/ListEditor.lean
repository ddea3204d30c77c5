import Snort.Stream.Tcp.TcpReassembler

/-!
# The overlap editor on plain lists

The same editor without a heap: the nodes up to `left` are a list with the
nearest first, the nodes from `right` on are a list, and a node is its address
together with its fields. The heap program refines this one, with the arithmetic
unchanged, so that the properties of insertion can be proved about lists.
-/

namespace Snort.Tcp
open DoublyLinked TcpReassemblerState

/-- A node with its address. -/
abbrev Node := ℕ × TcpSegment

/-- The editor at a place of the list, with the nodes before that place. -/
structure ListEditor where
  sos : SegmentOverlapState
  curRseg : Option ℕ
  fresh : ℕ
  before : List Node

namespace ListEditor

/-! ## Queueing and deleting -/

variable (ed : ListEditor) (tsn : TcpSegment)

/-- What `queue_reassembly_segment` makes of a new node. -/
def settle : TcpSegment :=
  if seqEq tsn.iSeq ed.sos.seglistBaseSeq then { tsn with cSeq := tsn.iSeq } else tsn

/-- A node is allocated and counted; the caller says where it stands. -/
def queue : ListEditor :=
  { ed with
    sos := ed.sos.countQueued tsn
    curRseg := if seqEq tsn.iSeq ed.sos.seglistBaseSeq then some ed.fresh else ed.curRseg
    fresh := ed.fresh + 1 }

def push (node : Node) : ListEditor := { ed with before := node :: ed.before }

def add (len : BitVec 16) (slide truncLen seq : BitVec 32) : ListEditor :=
  let size := newSize len slide truncLen
  if size.toInt ≤ 0 then { ed with sos := ed.sos.discard }
  else
    let tsn := ed.sos.newNode size slide seq
    let node := (ed.fresh, ed.settle tsn)
    let ed := (ed.queue tsn).push node
    { ed with sos := ed.sos.countAdded tsn }

/-- `update_next` for a deleted node: the node after it, if there is no gap, is the next
to be reassembled. -/
def updateNext : List Node → ListEditor × List Node
  | [] => ({ ed with curRseg := none }, [])
  | (b, next) :: after =>
    if next.iSeq = tsn.endSeq then
      ({ ed with curRseg := some b }, (b, { next with cSeq := next.iSeq }) :: after)
    else ({ ed with curRseg := none }, (b, next) :: after)

def drop (node : Node) (after : List Node) : ListEditor × List Node :=
  let ed := { ed with sos := ed.sos.countDeleted node.2 }
  if ed.curRseg = some node.1 then ed.updateNext node.2 after else (ed, after)

/-! ## The handlers -/

def keepLast (a : ℕ) (left : TcpSegment) (before after : List Node) : ListEditor × List Node :=
  let sos := ed.sos.measureLeft left
  if 0 < sos.overlap.toInt then
    let sos := sos.countOverlap
    let seqEnd := sos.seq + sos.len.setWidth 32
    let left' := (a, left.cutTail sos.overlap)
    if seqGt left.endSeq seqEnd then
      let delta := (seqEnd - left.iSeq).setWidth 16
      let ed := { ed with sos := sos }
      let right := (ed.fresh, (ed.settle (dupNode left)).cutHead seqEnd delta)
      let ed := ed.queue (dupNode left)
      ({ ed with
          before := left' :: before
          sos := { ed.sos with
            segBytesLogical := ed.sos.segBytesLogical - delta.setWidth 32 } },
        right :: after)
    else
      ({ ed with
          before := left' :: before
          sos := { sos with segBytesLogical := sos.segBytesLogical - sos.overlap } }, after)
  else ({ ed with sos := sos }, after)

variable (r : TcpReassembler)

def leftOverlap (ed : ListEditor) (a : ℕ) (left : TcpSegment) (before after : List Node) :
    ListEditor × List Node :=
  match r.left with
  | .keepFirst => ({ ed with sos := ed.sos.keepFirst left }, after)
  | .trimFirst =>
    let (sos, tsn) := ed.sos.trimFirst left
    ({ ed with sos := sos, before := (a, tsn) :: before }, after)
  | .keepLast => ed.keepLast a left before after

def evalLeft (ed : ListEditor) (after : List Node) : Option (ListEditor × List Node) :=
  match ed.before with
  | [] => some (ed, after)
  | (a, left) :: before =>
    if seqGt ed.sos.seq left.iSeq then some (leftOverlap r ed a left before after) else none

def rightOverlap (ed : ListEditor) (a : ℕ) (right : TcpSegment) (after : List Node) :
    ListEditor × List Node :=
  match r.right with
  | .truncateExisting =>
    let (sos, tsn) := ed.sos.truncateExisting right
    ({ ed with sos := sos }, (a, tsn) :: after)
  | .truncateNew => ({ ed with sos := ed.sos.truncateNew right }, (a, right) :: after)

def fullTruncateNew (a : ℕ) (right : TcpSegment) : ListEditor :=
  let ed := { ed with sos := ed.sos.copyRight right }
  if seqEq right.iSeq ed.sos.seq then
    { ed with sos := ed.sos.skipSeq right }.push (a, right)
  else
    let sos := ed.sos.cutChunk
    let ed := { ed with sos := sos }.add sos.len sos.slide sos.truncLen sos.seq
    { ed with sos := { ed.sos with seq := right.endSeq, truncLen := 0 } }.push (a, right)

/-- The guard of `full_right_overlap_os3` -/
def replacesAfterHole (right : TcpSegment) : Bool :=
  if seqEq right.iSeq ed.sos.seq && right.iLen == ed.sos.len then
    match ed.before with
    | [] => false
    | (_, left) :: _ => !seqEq left.endSeq ed.sos.seq
  else false

def fullOverlap (ed : ListEditor) (a : ℕ) (right : TcpSegment) (after : List Node) :
    ListEditor × List Node :=
  match r.full with
  | .os1 =>
    if ed.sos.startsBefore right then ed.drop (a, right) after
    else (ed.fullTruncateNew a right, after)
  | .os2 =>
    if ed.sos.startsBefore right then ed.drop (a, right) after
    else if ed.sos.endsAfter right then ed.drop (a, right) after
    else (ed.fullTruncateNew a right, after)
  | .os3 =>
    if ed.replacesAfterHole right then
      let sos := ed.sos.truncateNew right
      ({ ed with sos := (sos.skipRetransmit right).skipSeq right }.push (a, right), after)
    else ed.drop (a, right) after
  | .os4 => ed.drop (a, right) after
  | .os5 => (ed.fullTruncateNew a right, after)

def evalRight (r : TcpReassembler) :
    ℕ → ListEditor → List Node → Option (ListEditor × List Node)
  | 0, _, _ => none
  | _ + 1, ed, [] => some (ed, [])
  | fuel + 1, ed, (a, right) :: after =>
    if seqLt right.iSeq ed.sos.seqEnd then
      if seqLeq ed.sos.seq right.iSeq then
        let sos := ed.sos.measureRight right
        if sos.overlap.toInt < (right.iLen.toNat : ℤ) then
          if (right.isRetransmit sos.rbytes sos.rsize sos.rseq right.iLen false).isSome then
            some ({ ed with sos := { sos with keepSegment := false } }, (a, right) :: after)
          else some (rightOverlap r { ed with sos := sos.countOverlap } a right after)
        else
          match sos.segmentRetransmit right with
          | some (true, sos) => some ({ ed with sos := sos }, (a, right) :: after)
          | some (false, sos) =>
            evalRight r fuel ({ ed with sos := sos }.push (a, right)) after
          | none =>
            let (ed, after) := fullOverlap r { ed with sos := sos.countOverlap } a right after
            evalRight r fuel ed after
      else none
    else some (ed, (a, right) :: after)

/-- A round of the loop of `eval_right`. -/
inductive Round (r : TcpReassembler) (fuel : ℕ) (ed : ListEditor) (a : ℕ) (right : TcpSegment)
    (after : List Node) (res : ListEditor × List Node) : Prop
  | beyond (hge : ¬ seqLt right.iSeq ed.sos.seqEnd) (hres : (ed, (a, right) :: after) = res)
  | resentPart (hlt : seqLt right.iSeq ed.sos.seqEnd) (hleq : seqLeq ed.sos.seq right.iSeq)
      (hpart : (ed.sos.measureRight right).overlap.toInt < (right.iLen.toNat : ℤ))
      (hres : ({ ed with sos := { ed.sos.measureRight right with keepSegment := false } },
        (a, right) :: after) = res)
  | part (hlt : seqLt right.iSeq ed.sos.seqEnd) (hleq : seqLeq ed.sos.seq right.iSeq)
      (hpart : (ed.sos.measureRight right).overlap.toInt < (right.iLen.toNat : ℤ))
      (hres : rightOverlap r { ed with sos := (ed.sos.measureRight right).countOverlap } a right
        after = res)
  | resentAll (hlt : seqLt right.iSeq ed.sos.seqEnd) (hleq : seqLeq ed.sos.seq right.iSeq)
      (hfull : (right.iLen.toNat : ℤ) ≤ (ed.sos.measureRight right).overlap.toInt)
      (sos : SegmentOverlapState)
      (hretr : (ed.sos.measureRight right).segmentRetransmit right = some (true, sos))
      (hres : ({ ed with sos := sos }, (a, right) :: after) = res)
  | resent (hlt : seqLt right.iSeq ed.sos.seqEnd) (hleq : seqLeq ed.sos.seq right.iSeq)
      (hfull : (right.iLen.toNat : ℤ) ≤ (ed.sos.measureRight right).overlap.toInt)
      (sos : SegmentOverlapState)
      (hretr : (ed.sos.measureRight right).segmentRetransmit right = some (false, sos))
      (hres : evalRight r fuel ({ ed with sos := sos }.push (a, right)) after = some res)
  | full (hlt : seqLt right.iSeq ed.sos.seqEnd) (hleq : seqLeq ed.sos.seq right.iSeq)
      (hfull : (right.iLen.toNat : ℤ) ≤ (ed.sos.measureRight right).overlap.toInt)
      (hres : evalRight r fuel
        (fullOverlap r { ed with sos := (ed.sos.measureRight right).countOverlap } a right after).1
        (fullOverlap r { ed with sos := (ed.sos.measureRight right).countOverlap } a right after).2
          = some res)

theorem evalRight_cons {r : TcpReassembler} {fuel : ℕ} {ed : ListEditor} {a : ℕ}
    {right : TcpSegment} {after : List Node} {res : ListEditor × List Node}
    (hres : evalRight r (fuel + 1) ed ((a, right) :: after) = some res) :
    Round r fuel ed a right after res := by
  unfold evalRight at hres
  by_cases hlt : seqLt right.iSeq ed.sos.seqEnd
  · by_cases hleq : seqLeq ed.sos.seq right.iSeq
    · simp only [if_pos hlt, if_pos hleq] at hres
      by_cases hpart : (ed.sos.measureRight right).overlap.toInt < (right.iLen.toNat : ℤ)
      · simp only [if_pos hpart] at hres
        split at hres
        · exact .resentPart hlt hleq hpart (Option.some.inj hres)
        · exact .part hlt hleq hpart (Option.some.inj hres)
      · simp only [if_neg hpart] at hres
        split at hres
        · exact .resentAll hlt hleq (not_lt.mp hpart) _ ‹_› (Option.some.inj hres)
        · exact .resent hlt hleq (not_lt.mp hpart) _ ‹_› hres
        · exact .full hlt hleq (not_lt.mp hpart) hres
    · simp only [if_pos hlt, if_neg hleq, reduceCtorEq] at hres
  · simp only [if_neg hlt] at hres
    exact .beyond hlt (Option.some.inj hres)
end ListEditor

/-! ## Insertion -/

/-- The state between two packets. -/
structure SegQueue where
  sos : SegmentOverlapState
  curRseg : Option ℕ
  fresh : ℕ
  nodes : List Node

namespace SegQueue

/-- The queue that is left when the editor is done. -/
def ofEditor (ed : ListEditor) (after : List Node) : SegQueue :=
  ⟨ed.sos, ed.curRseg, ed.fresh, ed.before.reverse ++ after⟩

variable (q : SegQueue)

/-- The editor behind the nodes `before`. -/
def edit (before : List Node) : ListEditor :=
  ⟨q.sos, q.curRseg, q.fresh, before⟩

def segSeq : BitVec 32 := q.sos.tsd.segSeq

/-- The nodes before and after the place of a segment, searched from the head. -/
def splitFromHead : List Node × List Node :=
  let p := fun n : Node => !seqGeq n.2.iSeq q.segSeq
  ((q.nodes.takeWhile p).reverse, q.nodes.dropWhile p)

/-- The nodes before and after the place of a segment, searched from the tail. -/
def splitFromTail : List Node × List Node :=
  let p := fun n : Node => !seqLt n.2.iSeq q.segSeq
  (q.nodes.reverse.dropWhile p, (q.nodes.reverse.takeWhile p).reverse)

def nearerHead : Bool :=
  match q.nodes.head?, q.nodes.getLast? with
  | some head, some tail =>
    seqLeq (seqDistance q.segSeq head.2.iSeq) (seqDistance q.segSeq tail.2.iSeq)
  | _, _ => seqLeq 0 0

def split : List Node × List Node :=
  if q.nearerHead then q.splitFromHead else q.splitFromTail

def isSegmentFasttrack : Bool :=
  match q.nodes.getLast? with
  | none => false
  | some tail => seqEq q.segSeq tail.2.endSeq

def insertInEmpty : SegQueue :=
  let tsd := q.sos.tsd
  let seq := tsd.firstSeq
  if seqGt q.sos.rWinBase seq then
    let overlap := q.sos.rWinBase - tsd.segSeq
    if tsd.segLen.toNat ≤ overlap.toNat then q
    else ofEditor ((q.edit []).add tsd.segLen overlap 0 (seq + overlap)) q.nodes
  else ofEditor ((q.edit []).add tsd.segLen 0 0 seq) q.nodes

/-- The last step of `insert_segment_in_seglist`: what is left of the segment is inserted. -/
def finish (ed : ListEditor) (after : List Node) : SegQueue :=
  if ed.sos.keepSegment then
    let ed := { ed with sos := { ed.sos with slide := ed.sos.seq - ed.sos.tsd.segSeq } }
    ofEditor (ed.add ed.sos.len ed.sos.slide ed.sos.truncLen ed.sos.seq) after
  else ofEditor ed after

variable (r : TcpReassembler)

def insertInSeglist (q : SegQueue) : Option SegQueue :=
  if q.isSegmentFasttrack then
    some (ofEditor ((q.edit q.nodes.reverse).add q.sos.tsd.segLen 0 0 q.segSeq) [])
  else do
    let (ed, after) ← ListEditor.evalLeft r { q.edit q.split.1 with sos := q.sos.initSoe } q.split.2
    let (ed, after) ← ListEditor.evalRight r (ed.fresh + 1) ed after
    return finish ed after

def slideSegment (offset : BitVec 32) : SegQueue :=
  { q with sos := { q.sos with tsd := q.sos.tsd.slideSegmentInRcvWindow offset } }

def queuePacket (q : SegQueue) (tsd : TcpSegmentDescriptor) : Option SegQueue :=
  let q := { q with sos := { q.sos with tsd := tsd } }
  if q.sos.segCount = 0 then some q.insertInEmpty
  else if seqGt q.sos.rWinBase tsd.segSeq then
    let offset := q.sos.rWinBase - tsd.segSeq
    if offset.toInt < (tsd.segLen.toNat : ℤ) then do
      let q ← (q.slideSegment offset).insertInSeglist r
      return q.slideSegment (-offset)
    else some q
  else q.insertInSeglist r

/-- The queue when a segment arrives. -/
def load (tsd : TcpSegmentDescriptor) : SegQueue :=
  { q with sos := { q.sos with tsd := tsd } }

theorem queuePacket_eq (q : SegQueue) (tsd : TcpSegmentDescriptor) :
    q.queuePacket r tsd =
      if q.sos.segCount = 0 then some (q.load tsd).insertInEmpty
      else if seqGt q.sos.rWinBase tsd.segSeq then
        if (q.sos.rWinBase - tsd.segSeq).toInt < (tsd.segLen.toNat : ℤ) then
          (((q.load tsd).slideSegment (q.sos.rWinBase - tsd.segSeq)).insertInSeglist r).bind
            fun q' => some (q'.slideSegment (-(q.sos.rWinBase - tsd.segSeq)))
        else some (q.load tsd)
      else (q.load tsd).insertInSeglist r := rfl
end SegQueue
end Snort.Tcp
