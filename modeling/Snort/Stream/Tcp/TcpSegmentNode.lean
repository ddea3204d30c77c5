import Snort.Structures.DoublyLinked
import Snort.Structures.SerialNumber

/-!
# Segment nodes and the segment list

The queued data of one direction of a TCP stream is a doubly linked list of
segment nodes (`tcp_segment_node.h`). The nodes live in a heap. A function that
the source lets read or write through a null or freed pointer returns `none`
there.
-/

namespace Snort.Tcp
open List Option DoublyLinked

/-! ## Sequence numbers

The `SEQ_` comparisons of `protocols/packet.h` look at the sign of the wrapped
difference. -/

variable (a b : BitVec 32)

def seqLt : Bool := (a - b).toInt < 0

def seqLeq : Bool := (a - b).toInt ≤ 0

def seqGt : Bool := 0 < (a - b).toInt

def seqGeq : Bool := 0 ≤ (a - b).toInt

def seqEq : Bool := (a - b).toInt = 0

/-! ## Nodes -/

/-- The fields of a `TcpSegmentNode` other than its links. -/
structure TcpSegment where
  data : List UInt8
  /-- initial sequence number of the data -/
  iSeq : BitVec 32
  /-- sequence number of the data that is still to be reassembled -/
  cSeq : BitVec 32
  iLen : BitVec 16
  cLen : BitVec 16
  offset : BitVec 16
deriving DecidableEq, Repr

namespace TcpSegment
variable (tsn : TcpSegment)

def payload : List UInt8 := tsn.data.drop tsn.offset.toNat

/-- `i_seq + i_len` -/
def endSeq : BitVec 32 := tsn.iSeq + tsn.iLen.setWidth 32

/-- The constructor of `TcpSegmentNode`, over the first `len` bytes of the payload. -/
def new (payload : List UInt8) (len : BitVec 16) : TcpSegment where
  data := payload.take len.toNat
  iSeq := 0
  cSeq := 0
  iLen := len
  cLen := len
  offset := 0

def memcmp (a b : List UInt8) (n : BitVec 16) : Bool := a.take n.toNat == b.take n.toNat

/-- `TcpSegmentNode::is_retransmit`. The argument `fullRetransmit` says whether the
pointer is not null; the result is `none` for false, and for true the value that
is left in `*full_retransmit`. -/
def isRetransmit (rdata : List UInt8) (rsize : BitVec 16) (rseq : BitVec 32) (origDsize : BitVec 16)
    (fullRetransmit : Bool) : Option Bool :=
  if !seqEq tsn.iSeq rseq then none
  else if origDsize = tsn.cLen then
    if (tsn.cLen ≤ rsize ∧ memcmp tsn.data rdata tsn.cLen) ∨
        (tsn.cLen > rsize ∧ memcmp tsn.data rdata rsize) then some false
    else none
  -- a segment that was partly flushed is compared as a whole
  else if fullRetransmit ∧ origDsize = rsize ∧ memcmp tsn.data rdata rsize then some true
  else none
end TcpSegment

/-! ## The list -/

/-- `TcpSegmentList`, with the memory its nodes live in. -/
structure TcpSegmentList where
  head : Option ℕ
  tail : Option ℕ
  curRseg : Option ℕ
  count : BitVec 32
  heap : Heap TcpSegment
  /-- the address that the next allocation returns -/
  fresh : ℕ

namespace TcpSegmentList

def empty : TcpSegmentList := ⟨none, none, none, 0, fun _ => none, 0⟩

variable (l : TcpSegmentList)

/-- Allocation of a node; its links are null. -/
def alloc (tsn : TcpSegment) : TcpSegmentList :=
  { l with heap := l.heap.alloc l.fresh tsn, fresh := l.fresh + 1 }

/-- `TcpSegmentNode::term` -/
def term (a : ℕ) : TcpSegmentList := { l with heap := l.heap.free a }

/-- Assignments to fields of the node at `p` other than its links. -/
def set (p : Option ℕ) (f : TcpSegment → TcpSegment) : Option TcpSegmentList :=
  (l.heap.write p fun c => { c with val := f c.val }).map fun heap => { l with heap := heap }

def insert (prev : Option ℕ) (ss : ℕ) : Option TcpSegmentList :=
  match prev with
  | some p => do
    let c ← l.heap p
    let heap ← l.heap.write (some ss) fun n => { n with next := c.next }
    let heap ← heap.write (some ss) fun n => { n with prev := some p }
    let heap ← heap.write (some p) fun n => { n with next := some ss }
    match c.next with
    | some q => do
      let heap ← heap.write (some q) fun n => { n with prev := some ss }
      return { l with heap := heap, count := l.count + 1 }
    | none => return { l with heap := heap, tail := some ss, count := l.count + 1 }
  | none => do
    let heap ← l.heap.write (some ss) fun n => { n with next := l.head }
    match l.head with
    | some q => do
      let heap ← heap.write (some q) fun n => { n with prev := some ss }
      return { l with heap := heap, head := some ss, count := l.count + 1 }
    | none =>
      return { l with heap := heap, head := some ss, tail := some ss, count := l.count + 1 }

def remove (ss : ℕ) : Option TcpSegmentList := do
  let c ← l.heap ss
  let l ← match c.prev with
    | some p => do
      let heap ← l.heap.write (some p) fun n => { n with next := c.next }
      pure { l with heap := heap }
    | none => pure { l with head := c.next }
  let l ← match c.next with
    | some q => do
      let heap ← l.heap.write (some q) fun n => { n with prev := c.prev }
      pure { l with heap := heap }
    | none => pure { l with tail := c.prev }
  return { l with count := l.count - 1 }

/-- The list holds exactly these nodes, linked in both directions. -/
structure Holds (l : TcpSegmentList) (nodes : List (ℕ × TcpSegment)) : Prop where
  seg : Seg l.heap none nodes none
  nodup : (ids nodes).Nodup
  head : l.head = firstOr none nodes
  tail : l.tail = lastOr none nodes
  fresh : ∀ a ∈ ids nodes, a < l.fresh
  count : l.count = BitVec.ofNat 32 nodes.length

theorem Holds.unique {l : TcpSegmentList} {nodes nodes' : List (ℕ × TcpSegment)}
    (h : l.Holds nodes) (h' : l.Holds nodes') : nodes = nodes' :=
  h.seg.unique h'.seg (h.head.symm.trans h'.head)

theorem holds_empty : empty.Holds [] where
  seg := trivial
  nodup := nodup_nil
  head := rfl
  tail := rfl
  fresh := by simp
  count := rfl

variable {l : TcpSegmentList} {pre post : List (ℕ × TcpSegment)} {a : ℕ} {v : TcpSegment}
theorem Holds.cell (h : l.Holds (pre ++ (a, v) :: post)) :
    l.heap a = some ⟨lastOr none pre, firstOr none post, v⟩ :=
  h.seg.cell

theorem Holds.set (h : l.Holds (pre ++ (a, v) :: post)) (f : TcpSegment → TcpSegment) :
    ∃ l', l.set (some a) f = some l' ∧ l'.Holds (pre ++ (a, f v) :: post) ∧
      l'.curRseg = l.curRseg ∧ l'.fresh = l.fresh := by
  have hids : ids (pre ++ (a, f v) :: post) = ids (pre ++ (a, v) :: post) := by simp
  refine ⟨{ l with heap := l.heap.modify a fun c => { c with val := f c.val } }, ?_, ?_, rfl, rfl⟩
  · unfold TcpSegmentList.set
    rw [Heap.write_some h.cell]
    rfl
  · refine ⟨h.seg.modify_val h.nodup _ rfl, hids ▸ h.nodup, ?_, ?_, hids ▸ h.fresh, ?_⟩
    · rw [h.head, firstOr_append, firstOr_append]
      rfl
    · rw [h.tail, lastOr_append, lastOr_append]
      rfl
    · rw [h.count, length_append, length_append]
      rfl

theorem Holds.alloc (h : l.Holds (pre ++ post)) (v : TcpSegment) :
    (l.alloc v).Holds (pre ++ post) where
  seg := h.seg.frame_update (fun hmem => Nat.lt_irrefl _ (h.fresh _ hmem)) _
  nodup := h.nodup
  head := h.head
  tail := h.tail
  fresh := fun a ha => Nat.lt_succ_of_lt (h.fresh a ha)
  count := h.count

/-- The links written by `insert` are those of linking the node in after `prev`. -/
theorem insert_eq (h : l.Holds (pre ++ post)) (hcell : l.heap a = some ⟨none, none, v⟩)
    (ha : a ∉ ids (pre ++ post)) :
    l.insert (lastOr none pre) a =
      some { l with
        heap := l.heap.link (lastOr none pre) (firstOr none post) a v
        head := firstOr (some a) pre
        tail := lastOr (some a) post
        count := l.count + 1 } := by
  have hne : ∀ b ∈ ids (pre ++ post), b ≠ a := by
    rintro b hb rfl
    exact ha hb
  rcases eq_nil_or_concat pre with rfl | ⟨pre, p, rfl⟩
  · -- the node becomes the head
    have hhead : l.head = firstOr none post := h.head
    cases post with
    | nil =>
      simp only [lastOr, TcpSegmentList.insert, hhead, firstOr, Heap.write_eq_update hcell,
        Option.bind_eq_bind, Option.bind_some, Option.pure_def, Heap.link, Heap.setNext,
        Heap.setPrev]
    | cons q post =>
      have hq : q.1 ≠ a := hne q.1 List.mem_cons_self
      have hcellq : Function.update l.heap a (some ⟨none, some q.1, v⟩) q.1 =
          some ⟨none, firstOr none post, q.2⟩ := by
        rw [Function.update_of_ne hq]
        exact h.seg.1
      have htail : l.tail = lastOr (some q.1) post := h.tail
      simp only [← htail, lastOr, TcpSegmentList.insert, hhead, firstOr,
        Heap.write_eq_update hcell, Option.bind_eq_bind, Option.bind_some, Option.pure_def,
        Heap.link, Heap.setNext, Heap.setPrev, Heap.write_some hcellq]
  · rw [List.concat_eq_append] at *
    have hhead : l.head = firstOr (some a) (pre ++ [p]) := by
      rw [h.head, firstOr_append, firstOr_append, firstOr_append]
      rfl
    have hp : p.1 ≠ a := hne p.1 (by simp)
    have h : l.Holds (pre ++ p :: post) := by simpa using h
    have hcellp : ∀ c, Function.update l.heap a c p.1 =
        some ⟨lastOr none pre, firstOr none post, p.2⟩ := by
      intro c
      rw [Function.update_of_ne hp]
      exact h.cell
    simp only [lastOr_concat, ← hhead]
    unfold TcpSegmentList.insert
    simp only [h.cell, Option.bind_eq_bind, Option.bind_some, Heap.write_eq_update hcell,
      Heap.write_update_self, Heap.write_some (hcellp _)]
    cases post with
    | nil => rfl
    | cons q post =>
      have hq : q.1 ≠ a := hne q.1 (by simp)
      have hqp : q.1 ≠ p.1 := by
        have hnd := h.nodup
        simp only [ids_append, ids_cons, nodup_append, nodup_cons] at hnd
        intro heq
        exact hnd.2.1.1 (heq ▸ List.mem_cons_self)
      have htail : l.tail = lastOr (some a) (q :: post) := by
        rw [h.tail, lastOr_append]
        rfl
      have hcellq : l.heap q.1 = some ⟨some p.1, firstOr none post, q.2⟩ := by
        have hseg := (Seg.append_iff.mp h.seg).2
        exact hseg.2.1
      simp only [← htail, firstOr]
      rw [Heap.write_some (c := ⟨some p.1, firstOr none post, q.2⟩)]
      · rfl
      · rw [Heap.modify_of_ne _ hqp, Function.update_of_ne hq, hcellq]

theorem Holds.insert (h : l.Holds (pre ++ post)) (hcell : l.heap a = some ⟨none, none, v⟩)
    (ha : a ∉ ids (pre ++ post)) (hfresh : a < l.fresh) :
    ∃ l', l.insert (lastOr none pre) a = some l' ∧ l'.Holds (pre ++ (a, v) :: post) ∧
      l'.curRseg = l.curRseg ∧ l'.fresh = l.fresh := by
  refine ⟨_, insert_eq h hcell ha, ⟨h.seg.link h.nodup ha v, ?_, ?_, ?_, ?_, ?_⟩, rfl, rfl⟩
  · have hnd := h.nodup
    rw [ids_append] at ha hnd ⊢
    exact nodup_middle.mpr (nodup_cons.mpr ⟨ha, hnd⟩)
  · rw [firstOr_append]
    rfl
  · rw [lastOr_append]
    rfl
  · intro b hb
    rw [ids_append, ids_cons] at hb
    rcases mem_append.mp hb with hb | hb
    · exact h.fresh b (by rw [ids_append]; exact mem_append_left _ hb)
    rcases mem_cons.mp hb with rfl | hb
    · exact hfresh
    · exact h.fresh b (by rw [ids_append]; exact mem_append_right _ hb)
  · rw [h.count, length_append, length_append, length_cons, ← Nat.add_assoc]
    exact (BitVec.ofNat_add _ _).symm

/-- The links written by `remove` are those of unlinking the node. -/
theorem remove_eq (h : l.Holds (pre ++ (a, v) :: post)) :
    l.remove a =
      some { l with
        heap := l.heap.unlink (lastOr none pre) (firstOr none post)
        head := firstOr none (pre ++ post)
        tail := lastOr none (pre ++ post)
        count := l.count - 1 } := by
  have hnd := h.nodup
  rw [ids_append, ids_cons, nodup_append, nodup_cons] at hnd
  unfold TcpSegmentList.remove
  rw [h.cell]
  rcases eq_nil_or_concat pre with rfl | ⟨pre, p, rfl⟩
  · cases post with
    | nil => rfl
    | cons q post =>
      have hcellq : l.heap q.1 = some ⟨some a, firstOr none post, q.2⟩ := h.seg.2.1
      have htail : l.tail = lastOr (some q.1) post := h.tail
      simp only [lastOr, firstOr, Option.bind_eq_bind, Option.bind_some, Option.pure_def,
        Heap.write_some hcellq, htail, nil_append]
      rfl
  · rw [List.concat_eq_append] at *
    have h : l.Holds (pre ++ p :: (a, v) :: post) := by simpa using h
    have hhead : l.head = firstOr none ((pre ++ [p]) ++ post) := by
      rw [h.head, append_assoc, firstOr_append, firstOr_append]
      rfl
    simp only [lastOr_concat, Option.bind_eq_bind, Option.bind_some, Option.pure_def,
      Heap.write_some h.cell]
    cases post with
    | nil =>
      simp only [hhead, firstOr, append_nil, lastOr_concat]
      rfl
    | cons q post =>
      have hcellq : l.heap q.1 = some ⟨some a, firstOr none post, q.2⟩ :=
        (Seg.append_iff.mp h.seg).2.2.2.1
      have hqp : q.1 ≠ p.1 := by
        intro heq
        refine hnd.2.2 p.1 ?_ q.1 ?_ heq.symm
        · simp
        · simp
      have htail : l.tail = lastOr none ((pre ++ [p]) ++ q :: post) := by
        rw [h.tail, lastOr_append, lastOr_append]
        rfl
      simp only [firstOr]
      rw [Heap.write_some (c := ⟨some a, firstOr none post, q.2⟩)]
      · simp only [Option.bind_some, htail, hhead]
        rfl
      · rw [Heap.modify_of_ne _ hqp, hcellq]

theorem Holds.remove (h : l.Holds (pre ++ (a, v) :: post)) :
    ∃ l', l.remove a = some l' ∧ l'.Holds (pre ++ post) ∧
      l'.heap a = some ⟨lastOr none pre, firstOr none post, v⟩ ∧
      l'.curRseg = l.curRseg ∧ l'.fresh = l.fresh := by
  have hnd := h.nodup
  rw [ids_append, ids_cons] at hnd
  have hnd' := nodup_middle.mp hnd
  have ha : a ∉ ids (pre ++ post) := by
    rw [ids_append]
    exact (nodup_cons.mp hnd').1
  refine ⟨_, remove_eq h, ⟨h.seg.unlink h.nodup, ?_, rfl, rfl, ?_, ?_⟩, ?_, rfl, rfl⟩
  · rw [ids_append]
    exact (nodup_cons.mp hnd').2
  · intro b hb
    refine h.fresh b ?_
    rw [ids_append] at hb ⊢
    rcases mem_append.mp hb with hb | hb
    · exact mem_append_left _ hb
    · exact mem_append_right _ (mem_cons_of_mem _ hb)
  · rw [h.count, length_append, length_append, length_cons, ← Nat.add_assoc, BitVec.ofNat_add]
    exact BitVec.add_sub_cancel _ _
  · rw [ids_append] at ha
    have hlast : lastOr none pre ≠ some a :=
      fun heq => ha (mem_append_left _ (lastOr_none_mem heq))
    have hfirst : firstOr none post ≠ some a :=
      fun heq => ha (mem_append_right _ (firstOr_none_mem heq))
    show (l.heap.setNext _ _).setPrev _ _ a = _
    rw [Heap.setPrev_of_ne hfirst, Heap.setNext_of_ne hlast, h.cell]

theorem Holds.term (h : l.Holds (pre ++ post)) (ha : a ∉ ids (pre ++ post)) :
    (l.term a).Holds (pre ++ post) where
  seg := h.seg.frame_update ha _
  nodup := h.nodup
  head := h.head
  tail := h.tail
  fresh := h.fresh
  count := h.count
end TcpSegmentList
end Snort.Tcp
