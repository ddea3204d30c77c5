import Snort.Stream.Tcp.Flush
import Snort.Stream.Tcp.QueuePacket
import Snort.Structures.HeapMap

/-!
# Translation of the sequence space

Adding a constant to every sequence number of the inputs and of the state. All
functions of the reassembler commute with the translation, except for one
comparison in `is_packet_missing`, which is not modular.
-/

namespace Snort.Tcp
open DoublyLinked TcpReassemblerState Cell
variable {σ : Type}

/-! ## The translation -/

/-- A map of the sequence numbers that keeps all differences. -/
structure Translation where
  toFun : BitVec 32 → BitVec 32
  map_sub : ∀ a b, toFun a - toFun b = a - b

namespace Translation

instance : CoeFun Translation fun _ => BitVec 32 → BitVec 32 := ⟨toFun⟩

/-- `k` is added to every sequence number. -/
def add (k : BitVec 32) : Translation := ⟨fun a => a + k, fun a b => by ring⟩

variable (τ : Translation) (a b : BitVec 32)

@[simp] theorem sub : τ a - τ b = a - b := τ.map_sub a b

@[simp] theorem map_add : τ (a + b) = τ a + b := by
  have hsub := τ.map_sub (a + b) a
  have hcancel : a + b - a = b := by ring
  rw [hcancel] at hsub
  exact sub_eq_iff_eq_add'.mp hsub

@[simp] theorem map_sub_const : τ (a - b) = τ a - b := by
  rw [sub_eq_add_neg, map_add, ← sub_eq_add_neg]

theorem injective : Function.Injective τ := by
  intro x y hxy
  have hsub := τ.map_sub x y
  rw [hxy] at hsub
  have hzero : x - y = 0 := by
    rw [← hsub]
    ring
  exact sub_eq_zero.mp hzero

@[simp] theorem eq_iff : τ a = τ b ↔ a = b := τ.injective.eq_iff

@[simp] theorem seqLt : seqLt (τ a) (τ b) = Tcp.seqLt a b := by
  simp only [Tcp.seqLt, sub]

@[simp] theorem seqLeq : seqLeq (τ a) (τ b) = Tcp.seqLeq a b := by
  simp only [Tcp.seqLeq, sub]

@[simp] theorem seqGt : seqGt (τ a) (τ b) = Tcp.seqGt a b := by
  simp only [Tcp.seqGt, sub]

@[simp] theorem seqGeq : seqGeq (τ a) (τ b) = Tcp.seqGeq a b := by
  simp only [Tcp.seqGeq, sub]

@[simp] theorem seqEq : seqEq (τ a) (τ b) = Tcp.seqEq a b := by
  simp only [Tcp.seqEq, sub]
end Translation

variable (τ : Translation)

def TcpSegment.shift (tsn : TcpSegment) : TcpSegment :=
  { tsn with iSeq := τ tsn.iSeq, cSeq := τ tsn.cSeq }

def TcpSegmentDescriptor.shift (tsd : TcpSegmentDescriptor) : TcpSegmentDescriptor :=
  { tsd with segSeq := τ tsd.segSeq, endSeq := τ tsd.endSeq }

def SegmentOverlapState.shift (sos : SegmentOverlapState) : SegmentOverlapState :=
  { sos with
    tsd := sos.tsd.shift τ
    seglistBaseSeq := τ sos.seglistBaseSeq
    seq := τ sos.seq
    seqEnd := τ sos.seqEnd
    rseq := τ sos.rseq
    rWinBase := τ sos.rWinBase }

def TcpSegmentList.shift (l : TcpSegmentList) : TcpSegmentList :=
  { l with heap := l.heap.map (TcpSegment.shift τ) }

def TcpReassemblerState.shift (trs : TcpReassemblerState) : TcpReassemblerState :=
  { trs with sos := trs.sos.shift τ, seglist := trs.seglist.shift τ }

def TcpStreamTracker.shift (tracker : TcpStreamTracker σ) : TcpStreamTracker σ :=
  { tracker with finFinalSeq := τ tracker.finFinalSeq, rcvNxt := τ tracker.rcvNxt }

def Delivery.shift (d : Delivery) : Delivery := { d with seq := τ d.seq }

def Reassembly.shift (s : Reassembly σ) : Reassembly σ where
  trs := s.trs.shift τ
  tracker := s.tracker.shift τ
  delivered := s.delivered.map (Delivery.shift τ)

def Call.shift (c : Call) : Call :=
  { c with rWinBase := τ c.rWinBase, segSeq := τ c.segSeq }

/-! ## Nodes -/

open SegmentOverlapState hiding shift
open TcpSegment hiding shift
open TcpSegmentDescriptor hiding shift
open TcpSegmentList hiding shift

namespace TcpSegment
variable (tsn : TcpSegment)

@[simp] theorem shift_iSeq : (tsn.shift τ).iSeq = τ tsn.iSeq := rfl

@[simp] theorem shift_cSeq : (tsn.shift τ).cSeq = τ tsn.cSeq := rfl

@[simp] theorem shift_iLen : (tsn.shift τ).iLen = tsn.iLen := rfl

@[simp] theorem shift_cLen : (tsn.shift τ).cLen = tsn.cLen := rfl

@[simp] theorem shift_data : (tsn.shift τ).data = tsn.data := rfl

@[simp] theorem shift_payload : (tsn.shift τ).payload = tsn.payload := rfl

@[simp] theorem shift_endSeq : (tsn.shift τ).endSeq = τ tsn.endSeq := by
  simp only [endSeq, shift, Translation.map_add]

@[simp] theorem shift_cEnd : (tsn.shift τ).cEnd = τ tsn.cEnd := by
  simp only [cEnd, shift, Translation.map_add]

@[simp] theorem shift_consume (n : BitVec 32) :
    (tsn.shift τ).consume n = (tsn.consume n).shift τ := by
  simp only [consume, shift, Translation.map_add]

@[simp] theorem shift_isRetransmit (rdata : List UInt8) (rsize : BitVec 16) (rseq : BitVec 32)
    (origDsize : BitVec 16) (full : Bool) :
    (tsn.shift τ).isRetransmit rdata rsize (τ rseq) origDsize full =
      tsn.isRetransmit rdata rsize rseq origDsize full := by
  rw [isRetransmit, shift_iSeq, Translation.seqEq]
  rfl
end TcpSegment

/-! ## The list -/

namespace TcpSegmentList
variable (l : TcpSegmentList)

@[simp] theorem shift_heap : (l.shift τ).heap = l.heap.map (TcpSegment.shift τ) := rfl

theorem shift_alloc (tsn : TcpSegment) :
    (l.shift τ).alloc (tsn.shift τ) = (l.alloc tsn).shift τ := by
  unfold alloc shift
  rw [Heap.map_alloc]

theorem shift_term (a : ℕ) : (l.shift τ).term a = (l.term a).shift τ := by
  unfold term shift
  rw [Heap.map_free]

theorem shift_set (p : Option ℕ) {f f' : TcpSegment → TcpSegment}
    (hf : ∀ t, f' (t.shift τ) = (f t).shift τ) :
    (l.shift τ).set p f' = (l.set p f).map (shift τ) := by
  unfold set
  rw [shift, Heap.write_map (g := fun c => { c with val := f c.val })]
  · simp only [Option.map_map]
    rfl
  · simp [map, hf]

theorem shift_insert (prev : Option ℕ) (ss : ℕ) :
    (l.shift τ).insert prev ss = (l.insert prev ss).map (shift τ) := by
  cases prev with
  | none =>
    refine bind_commutes (l.heap.write_map _ _ fun _ => rfl) fun heap => ?_
    cases hhead : l.head with
    | none =>
      rw [show (l.shift τ).head = none from hhead]
      rfl
    | some q =>
      rw [show (l.shift τ).head = some q from hhead]
      exact bind_commutes (heap.write_map _ _ fun _ => rfl) fun _ => rfl
  | some p =>
    refine bind_commutes (φ := map (TcpSegment.shift τ)) rfl fun c => ?_
    refine bind_commutes (l.heap.write_map _ _ fun _ => rfl) fun heap => ?_
    refine bind_commutes (heap.write_map _ _ fun _ => rfl) fun heap => ?_
    refine bind_commutes (heap.write_map _ _ fun _ => rfl) fun heap => ?_
    cases hnext : c.next with
    | none =>
      simp only [map_next, hnext]
      rfl
    | some q =>
      simp only [map_next, hnext]
      exact bind_commutes (heap.write_map _ _ fun _ => rfl) fun _ => rfl

theorem shift_remove (ss : ℕ) : (l.shift τ).remove ss = (l.remove ss).map (shift τ) := by
  refine bind_commutes (φ := map (TcpSegment.shift τ)) rfl fun c => ?_
  obtain ⟨prev, next, tsn⟩ := c
  cases prev with
  | none =>
    refine bind_commutes (φ := shift τ) rfl fun l => ?_
    cases next with
    | none => rfl
    | some q => exact bind_commutes (l.heap.write_map _ _ fun _ => rfl) fun _ => rfl
  | some p =>
    refine bind_commutes (l.heap.write_map _ _ fun _ => rfl) fun heap => ?_
    refine bind_commutes (φ := shift τ) rfl fun l => ?_
    cases next with
    | none => rfl
    | some q => exact bind_commutes (l.heap.write_map _ _ fun _ => rfl) fun _ => rfl

theorem shift_findFromHead (segSeq : BitVec 32) (fuel : ℕ) (p left : Option ℕ) :
    (l.shift τ).findFromHead (τ segSeq) fuel p left = l.findFromHead segSeq fuel p left := by
  induction fuel generalizing p left with
  | zero => rfl
  | succ fuel ih =>
    cases p with
    | none => rfl
    | some a =>
      refine bind_invariant (φ := map (TcpSegment.shift τ)) rfl fun c => ?_
      rw [map_val, shift_iSeq, Translation.seqGeq, map_next, ih]

theorem shift_findFromTail (segSeq : BitVec 32) (fuel : ℕ) (p right : Option ℕ) :
    (l.shift τ).findFromTail (τ segSeq) fuel p right = l.findFromTail segSeq fuel p right := by
  induction fuel generalizing p right with
  | zero => rfl
  | succ fuel ih =>
    cases p with
    | none => rfl
    | some a =>
      refine bind_invariant (φ := map (TcpSegment.shift τ)) rfl fun c => ?_
      rw [map_val, shift_iSeq, Translation.seqLt, map_prev, ih]
end TcpSegmentList

/-! ## The descriptor and the state -/

namespace TcpSegmentDescriptor
variable (tsd : TcpSegmentDescriptor)

@[simp] theorem shift_segSeq : (tsd.shift τ).segSeq = τ tsd.segSeq := rfl

@[simp] theorem shift_segLen : (tsd.shift τ).segLen = tsd.segLen := rfl

theorem shift_new (segSeq : BitVec 32) (syn : Bool) (payload : List UInt8) :
    new (τ segSeq) syn payload = (new segSeq syn payload).shift τ := by
  cases syn <;> simp [new, shift]

@[simp] theorem shift_firstSeq : (tsd.shift τ).firstSeq = τ tsd.firstSeq := by
  unfold firstSeq
  rw [show (tsd.shift τ).syn = tsd.syn from rfl]
  split <;> simp

@[simp] theorem shift_slide (offset : BitVec 32) :
    (tsd.shift τ).slideSegmentInRcvWindow offset =
      (tsd.slideSegmentInRcvWindow offset).shift τ := by
  simp [slideSegmentInRcvWindow, shift]

@[simp] theorem shift_trimWinPayload (max : BitVec 32) (mode : NormMode) :
    (tsd.shift τ).trimWinPayload max mode = (tsd.trimWinPayload max mode).shift τ := by
  unfold trimWinPayload
  rw [shift_segLen]
  split
  · cases mode with
    | test => rfl
    | on => simp [trimPayload, shift, segLen]
  · rfl
end TcpSegmentDescriptor

namespace SegmentOverlapState
variable (sos : SegmentOverlapState) (tsn : TcpSegment)

@[simp] theorem shift_tsd : (sos.shift τ).tsd = sos.tsd.shift τ := rfl

@[simp] theorem shift_seq : (sos.shift τ).seq = τ sos.seq := rfl

@[simp] theorem shift_seqEnd : (sos.shift τ).seqEnd = τ sos.seqEnd := rfl

@[simp] theorem shift_rseq : (sos.shift τ).rseq = τ sos.rseq := rfl

@[simp] theorem shift_rWinBase : (sos.shift τ).rWinBase = τ sos.rWinBase := rfl

@[simp] theorem shift_seglistBaseSeq : (sos.shift τ).seglistBaseSeq = τ sos.seglistBaseSeq := rfl

@[simp] theorem shift_overlap : (sos.shift τ).overlap = sos.overlap := rfl

@[simp] theorem shift_len : (sos.shift τ).len = sos.len := rfl

@[simp] theorem shift_rbytes : (sos.shift τ).rbytes = sos.rbytes := rfl

@[simp] theorem shift_initSoe : (sos.shift τ).initSoe = sos.initSoe.shift τ := rfl

@[simp] theorem shift_copyToPacket (start : ℕ) (src : List UInt8) (length : ℕ) :
    (sos.shift τ).copyToPacket start src length = (sos.copyToPacket start src length).shift τ := by
  unfold copyToPacket
  rw [show (sos.shift τ).tcpIpsData = sos.tcpIpsData from rfl]
  split <;> rfl

@[simp] theorem shift_countQueued :
    (sos.shift τ).countQueued (tsn.shift τ) = (sos.countQueued tsn).shift τ := rfl

@[simp] theorem shift_countDeleted :
    (sos.shift τ).countDeleted (tsn.shift τ) = (sos.countDeleted tsn).shift τ := rfl

@[simp] theorem shift_countAdded :
    (sos.shift τ).countAdded (tsn.shift τ) = (sos.countAdded tsn).shift τ := rfl

@[simp] theorem shift_newNode (newSize slide seq : BitVec 32) :
    (sos.shift τ).newNode newSize slide (τ seq) = (sos.newNode newSize slide seq).shift τ := rfl

@[simp] theorem shift_discard : (sos.shift τ).discard = sos.discard.shift τ := by
  unfold discard
  rw [shift_tsd, shift_trimWinPayload]
  rfl

@[simp] theorem shift_measureLeft :
    (sos.shift τ).measureLeft (tsn.shift τ) = (sos.measureLeft tsn).shift τ := by
  simp [measureLeft, shift]

@[simp] theorem shift_countOverlap : (sos.shift τ).countOverlap = sos.countOverlap.shift τ := rfl

@[simp] theorem shift_keepFirst :
    (sos.shift τ).keepFirst (tsn.shift τ) = (sos.keepFirst tsn).shift τ := by
  unfold keepFirst
  rw [shift_measureLeft]
  have hcap : ∀ sos : SegmentOverlapState,
      (if ((sos.shift τ).len.toNat : ℤ) < (sos.shift τ).overlap.toInt then
        { sos.shift τ with overlap := (sos.shift τ).len.setWidth 32 } else sos.shift τ) =
      (if (sos.len.toNat : ℤ) < sos.overlap.toInt then
        { sos with overlap := sos.len.setWidth 32 } else sos).shift τ := by
    intro sos
    rw [shift_len, shift_overlap]
    split <;> rfl
  dsimp only
  rw [hcap]
  generalize (if ((sos.measureLeft tsn).len.toNat : ℤ) < (sos.measureLeft tsn).overlap.toInt then
    { sos.measureLeft tsn with overlap := (sos.measureLeft tsn).len.setWidth 32 }
    else sos.measureLeft tsn) = sos₁
  rw [shift_overlap]
  split
  · simp only [shift_countOverlap, shift_tsd, shift_segSeq,
      shift_iSeq, shift_endSeq, shift_seqEnd, Translation.sub,
      shift_data, shift_segLen, shift_copyToPacket]
    rw [Translation.seqGt]
    split <;> simp [shift]
  · rfl

@[simp] theorem shift_trimFirst :
    (sos.shift τ).trimFirst (tsn.shift τ) =
      ((sos.trimFirst tsn).1.shift τ, (sos.trimFirst tsn).2.shift τ) := by
  unfold trimFirst
  rw [shift_measureLeft]
  dsimp only
  rw [shift_overlap]
  split
  · rw [shift_countOverlap, shift_endSeq, shift_seq, shift_len, ← Translation.map_add,
      Translation.seqGeq]
    split
    · simp [shift]
    · rfl
  · rfl

@[simp] theorem shift_measureRight :
    (sos.shift τ).measureRight (tsn.shift τ) = (sos.measureRight tsn).shift τ := by
  simp [measureRight, shift]

@[simp] theorem shift_truncateExisting :
    (sos.shift τ).truncateExisting (tsn.shift τ) =
      ((sos.truncateExisting tsn).1.shift τ, (sos.truncateExisting tsn).2.shift τ) := by
  unfold truncateExisting
  rw [shift_iSeq, shift_seq, Translation.seqEq,
    show (sos.shift τ).reassemblyPolicy = sos.reassemblyPolicy from rfl]
  split
  · dsimp only
    rw [shift_endSeq, Translation.sub, ← Translation.map_add]
    rfl
  · rw [← Translation.map_add, shift_overlap]
    rfl

@[simp] theorem shift_truncateNew :
    (sos.shift τ).truncateNew (tsn.shift τ) = (sos.truncateNew tsn).shift τ := by
  unfold truncateNew
  simp only [shift_tsd, shift_segSeq, shift_iSeq,
    shift_segLen, ← Translation.map_add, Translation.sub,
    shift_data, shift_copyToPacket]
  rfl

@[simp] theorem shift_copyRight :
    (sos.shift τ).copyRight (tsn.shift τ) = (sos.copyRight tsn).shift τ := by
  simp [copyRight]

@[simp] theorem shift_skipSeq :
    (sos.shift τ).skipSeq (tsn.shift τ) = (sos.skipSeq tsn).shift τ := by
  simp [skipSeq, shift]

@[simp] theorem shift_skipRetransmit :
    (sos.shift τ).skipRetransmit (tsn.shift τ) = (sos.skipRetransmit tsn).shift τ := by
  simp [skipRetransmit, shift]

@[simp] theorem shift_cutChunk : (sos.shift τ).cutChunk = sos.cutChunk.shift τ := by
  simp [cutChunk, shift]

@[simp] theorem shift_startsBefore :
    (sos.shift τ).startsBefore (tsn.shift τ) = sos.startsBefore tsn := by
  simp [startsBefore]

@[simp] theorem shift_endsAfter : (sos.shift τ).endsAfter (tsn.shift τ) = sos.endsAfter tsn := by
  simp [endsAfter]

theorem shift_segmentRetransmit :
    (sos.shift τ).segmentRetransmit (tsn.shift τ) =
      (sos.segmentRetransmit tsn).map fun x => (x.1, x.2.shift τ) := by
  have hretr : (tsn.shift τ).isRetransmit (sos.shift τ).rbytes (sos.shift τ).rsize
      (sos.shift τ).rseq (tsn.shift τ).iLen ((sos.shift τ).rseq = (sos.shift τ).tsd.segSeq) =
      (tsn.isRetransmit sos.rbytes sos.rsize sos.rseq tsn.iLen (sos.rseq = sos.tsd.segSeq)).map
        id := by
    have hfull : decide (τ sos.rseq = τ sos.tsd.segSeq) = decide (sos.rseq = sos.tsd.segSeq) :=
      decide_eq_decide.mpr (τ.eq_iff _ _)
    rw [shift_rseq, shift_tsd, shift_segSeq, hfull, shift_isRetransmit, Option.map_id]
    rfl
  refine bind_commutes hretr fun full => ?_
  -- the test of `rsize` comes after both branches
  have hkeep : ∀ sos : SegmentOverlapState,
      (if (sos.shift τ).rsize = 0 then { sos.shift τ with keepSegment := false }
        else sos.shift τ) =
      (if sos.rsize = 0 then { sos with keepSegment := false } else sos).shift τ := by
    intro sos
    rw [show (sos.shift τ).rsize = sos.rsize from rfl]
    split <;> rfl
  cases full with
  | true => rfl
  | false =>
    have hskip := hkeep ((sos.skipRetransmit tsn).skipSeq tsn)
    rw [← shift_skipSeq, ← shift_skipRetransmit] at hskip
    exact congrArg (fun sos => some (false, sos)) hskip
end SegmentOverlapState

/-! ## Queueing and deleting -/

namespace TcpReassemblerState
variable (trs : TcpReassemblerState)

@[simp] theorem shift_sos : (trs.shift τ).sos = trs.sos.shift τ := rfl

@[simp] theorem shift_seglist : (trs.shift τ).seglist = trs.seglist.shift τ := rfl

theorem shift_read (p : Option ℕ) :
    (trs.shift τ).seglist.heap.read p = (trs.seglist.heap.read p).map (map (TcpSegment.shift τ)) :=
  Heap.read_map _ _ p

theorem shift_queueReassemblySegment (prev : Option ℕ) (tsn : ℕ) :
    queueReassemblySegment (trs.shift τ) prev tsn =
      (queueReassemblySegment trs prev tsn).map (shift τ) := by
  refine bind_commutes (trs.seglist.shift_insert τ prev tsn) fun l => ?_
  refine bind_commutes (φ := map (TcpSegment.shift τ)) rfl fun c => ?_
  refine ite_commutes ?_ ?_ rfl
  · rw [map_val, shift_iSeq, shift_sos, shift_seglistBaseSeq, Translation.seqEq]
  · exact bind_commutes (l.shift_set τ _ fun _ => rfl) fun _ => rfl

theorem shift_queueNode (left : Option ℕ) (tsn : TcpSegment) :
    queueReassemblySegment
        { trs.shift τ with seglist := (trs.shift τ).seglist.alloc (tsn.shift τ) } left
        (trs.shift τ).seglist.fresh =
      (queueReassemblySegment { trs with seglist := trs.seglist.alloc tsn } left
        trs.seglist.fresh).map (shift τ) := by
  rw [← shift_queueReassemblySegment, shift_seglist, shift_alloc]
  rfl

theorem shift_addReassemblySegment (len : BitVec 16) (slide truncLen seq : BitVec 32)
    (left : Option ℕ) :
    addReassemblySegment (trs.shift τ) len slide truncLen (τ seq) left =
      (addReassemblySegment trs len slide truncLen seq left).map (shift τ) := by
  refine ite_commutes Iff.rfl ?_ ?_
  · rw [shift_sos, shift_discard]
    rfl
  · rw [shift_sos, shift_newNode]
    exact bind_commutes (trs.shift_queueNode τ left _) fun _ => rfl

theorem shift_dupReassemblySegment (left : Option ℕ) :
    dupReassemblySegment (trs.shift τ) left = (dupReassemblySegment trs left).map (shift τ) := by
  refine bind_commutes (trs.shift_read τ left) fun c => ?_
  exact trs.shift_queueNode τ left (dupNode c.val)

theorem shift_updateNext (tsn : Cell TcpSegment) :
    updateNext (trs.shift τ) (tsn.map (TcpSegment.shift τ)) =
      (updateNext trs tsn).map (shift τ) := by
  obtain ⟨prev, next, tsn⟩ := tsn
  cases next with
  | none => rfl
  | some q =>
    refine bind_commutes (φ := map (TcpSegment.shift τ)) rfl fun c => ?_
    refine ite_commutes ?_ ?_ rfl
    · rw [map_val, map_val, shift_iSeq, shift_endSeq, Translation.eq_iff]
    · exact bind_commutes (trs.seglist.shift_set τ _ fun _ => rfl) fun _ => rfl

theorem shift_deleteReassemblySegment (tsn : ℕ) :
    deleteReassemblySegment (trs.shift τ) tsn =
      (deleteReassemblySegment trs tsn).map (shift τ) := by
  refine bind_commutes (trs.seglist.shift_remove τ tsn) fun l => ?_
  refine bind_commutes (φ := map (TcpSegment.shift τ)) rfl fun c => ?_
  have hterm : ∀ trs : TcpReassemblerState,
      (some { trs.shift τ with seglist := (trs.shift τ).seglist.term tsn } :
        Option TcpReassemblerState) =
      (some { trs with seglist := trs.seglist.term tsn }).map (shift τ) := by
    intro trs
    rw [shift_seglist, shift_term]
    rfl
  refine ite_commutes Iff.rfl ?_ ?_
  · exact bind_commutes (shift_updateNext τ
      { trs with seglist := l, sos := trs.sos.countDeleted c.val } c) hterm
  · exact bind_commutes (φ := shift τ) rfl hterm

/-! ## The handlers -/

theorem shift_advance : advance (trs.shift τ) = (advance trs).map (shift τ) :=
  bind_commutes (trs.shift_read τ trs.right) fun _ => rfl

theorem shift_leftOverlapKeepFirst :
    leftOverlapKeepFirst (trs.shift τ) = (leftOverlapKeepFirst trs).map (shift τ) := by
  refine bind_commutes (trs.shift_read τ trs.left) fun left => ?_
  refine guard_commutes ?_ ?_
  · rw [shift_sos, shift_seq, map_val, shift_iSeq, Translation.seqGt]
  · rw [shift_sos, map_val, shift_keepFirst]
    rfl

theorem shift_leftOverlapTrimFirst :
    leftOverlapTrimFirst (trs.shift τ) = (leftOverlapTrimFirst trs).map (shift τ) := by
  refine bind_commutes (trs.shift_read τ trs.left) fun left => ?_
  refine guard_commutes ?_ ?_
  · rw [shift_sos, shift_seq, map_val, shift_iSeq, Translation.seqGt]
  · rw [shift_sos, map_val, shift_trimFirst]
    exact bind_commutes (trs.seglist.shift_set τ _ fun _ => rfl) fun _ => rfl

theorem shift_leftOverlapKeepLast :
    leftOverlapKeepLast (trs.shift τ) = (leftOverlapKeepLast trs).map (shift τ) := by
  refine bind_commutes (trs.shift_read τ trs.left) fun left => ?_
  refine guard_commutes ?_ ?_
  · rw [shift_sos, shift_seq, map_val, shift_iSeq, Translation.seqGt]
  · rw [shift_sos, map_val, shift_measureLeft]
    generalize trs.sos.measureLeft left.val = sos
    dsimp only
    refine ite_commutes Iff.rfl ?_ rfl
    rw [shift_countOverlap, shift_seq, shift_len, ← Translation.map_add, shift_endSeq, shift_iSeq]
    refine ite_commutes ?_ ?_ ?_
    · rw [Translation.seqGt]
    · refine bind_commutes (shift_dupReassemblySegment τ { trs with sos := sos.countOverlap }
        trs.left) fun trs' => ?_
      refine bind_commutes (trs'.seglist.shift_set τ _ fun _ => rfl) fun l => ?_
      rw [Translation.sub]
      exact bind_commutes (l.shift_set τ _ fun _ => rfl) fun _ => rfl
    · exact bind_commutes (trs.seglist.shift_set τ _ fun _ => rfl) fun _ => rfl

theorem shift_rightOverlapTruncateExisting :
    rightOverlapTruncateExisting (trs.shift τ) =
      (rightOverlapTruncateExisting trs).map (shift τ) := by
  refine bind_commutes (trs.shift_read τ trs.right) fun right => ?_
  rw [shift_sos, map_val, shift_truncateExisting]
  exact bind_commutes (trs.seglist.shift_set τ _ fun _ => rfl) fun _ => rfl

theorem shift_rightOverlapTruncateNew :
    rightOverlapTruncateNew (trs.shift τ) = (rightOverlapTruncateNew trs).map (shift τ) := by
  refine bind_commutes (trs.shift_read τ trs.right) fun right => ?_
  rw [shift_sos, map_val, shift_truncateNew]
  rfl

theorem shift_dropOldSegment :
    dropOldSegment (trs.shift τ) = (dropOldSegment trs).map (shift τ) := by
  refine bind_commutes (φ := id) (Option.map_id_apply).symm fun a => ?_
  refine bind_commutes (φ := map (TcpSegment.shift τ)) rfl fun c => ?_
  exact shift_deleteReassemblySegment τ { trs with right := c.next } a

theorem shift_fullRightOverlapTruncateNew :
    fullRightOverlapTruncateNew (trs.shift τ) =
      (fullRightOverlapTruncateNew trs).map (shift τ) := by
  refine bind_commutes (trs.shift_read τ trs.right) fun right => ?_
  rw [shift_sos, map_val, shift_copyRight]
  generalize trs.sos.copyRight right.val = sos
  refine ite_commutes ?_ ?_ ?_
  · rw [shift_iSeq, shift_seq, Translation.seqEq]
  · rw [shift_skipSeq]
    exact shift_advance τ { trs with sos := sos.skipSeq right.val }
  · rw [shift_cutChunk]
    refine bind_commutes (shift_addReassemblySegment τ { trs with sos := sos.cutChunk } _ _ _ _ _)
      fun trs' => ?_
    rw [shift_endSeq]
    exact shift_advance τ
      { trs' with sos := { trs'.sos with seq := right.val.endSeq, truncLen := 0 } }

theorem shift_fullRightOverlapOs1 :
    fullRightOverlapOs1 (trs.shift τ) = (fullRightOverlapOs1 trs).map (shift τ) := by
  refine bind_commutes (trs.shift_read τ trs.right) fun right => ?_
  refine ite_commutes ?_ (shift_dropOldSegment τ trs) (shift_fullRightOverlapTruncateNew τ trs)
  rw [shift_sos, map_val, shift_startsBefore]

theorem shift_fullRightOverlapOs2 :
    fullRightOverlapOs2 (trs.shift τ) = (fullRightOverlapOs2 trs).map (shift τ) := by
  refine bind_commutes (trs.shift_read τ trs.right) fun right => ?_
  refine ite_commutes ?_ (shift_dropOldSegment τ trs)
    (ite_commutes ?_ (shift_dropOldSegment τ trs) (shift_fullRightOverlapTruncateNew τ trs))
  · rw [shift_sos, map_val, shift_startsBefore]
  · rw [shift_sos, map_val, shift_endsAfter]

theorem shift_replacesAfterHole (right : TcpSegment) :
    (trs.shift τ).replacesAfterHole (right.shift τ) = trs.replacesAfterHole right := by
  unfold replacesAfterHole
  rw [shift_sos, shift_iSeq, shift_seq, Translation.seqEq, shift_iLen, shift_len]
  split
  · cases hleft : trs.left with
    | none =>
      rw [show (trs.shift τ).left = none from hleft]
    | some a =>
      rw [show (trs.shift τ).left = some a from hleft]
      refine bind_invariant (φ := map (TcpSegment.shift τ)) rfl fun c => ?_
      rw [map_val, shift_endSeq, Translation.seqEq]
  · rfl

theorem shift_fullRightOverlapOs3 :
    fullRightOverlapOs3 (trs.shift τ) = (fullRightOverlapOs3 trs).map (shift τ) := by
  refine bind_commutes (trs.shift_read τ trs.right) fun right => ?_
  refine bind_commutes (φ := id) ?_ fun hole => ?_
  · rw [map_val, shift_replacesAfterHole, Option.map_id_apply]
  refine ite_commutes Iff.rfl ?_ (shift_dropOldSegment τ trs)
  dsimp only
  rw [shift_sos, map_val, shift_truncateNew, shift_skipRetransmit, shift_skipSeq]
  exact shift_advance τ { trs with
    sos := ((trs.sos.truncateNew right.val).skipRetransmit right.val).skipSeq right.val }
end TcpReassemblerState

namespace TcpReassembler
open TcpReassemblerState
variable (r : TcpReassembler) (trs : TcpReassemblerState)

theorem shift_insertLeftOverlap :
    r.insertLeftOverlap (trs.shift τ) = (r.insertLeftOverlap trs).map (shift τ) := by
  unfold insertLeftOverlap
  cases r.left with
  | keepFirst => exact shift_leftOverlapKeepFirst τ trs
  | trimFirst => exact shift_leftOverlapTrimFirst τ trs
  | keepLast => exact shift_leftOverlapKeepLast τ trs

theorem shift_insertRightOverlap :
    r.insertRightOverlap (trs.shift τ) = (r.insertRightOverlap trs).map (shift τ) := by
  unfold insertRightOverlap
  cases r.right with
  | truncateExisting => exact shift_rightOverlapTruncateExisting τ trs
  | truncateNew => exact shift_rightOverlapTruncateNew τ trs

theorem shift_insertFullOverlap :
    r.insertFullOverlap (trs.shift τ) = (r.insertFullOverlap trs).map (shift τ) := by
  unfold insertFullOverlap
  cases r.full with
  | os1 => exact shift_fullRightOverlapOs1 τ trs
  | os2 => exact shift_fullRightOverlapOs2 τ trs
  | os3 => exact shift_fullRightOverlapOs3 τ trs
  | os4 => exact shift_dropOldSegment τ trs
  | os5 => exact shift_fullRightOverlapTruncateNew τ trs

theorem shift_evalLeft : r.evalLeft (trs.shift τ) = (r.evalLeft trs).map (shift τ) :=
  ite_commutes Iff.rfl (r.shift_insertLeftOverlap τ trs) rfl

theorem shift_evalRight (fuel : ℕ) :
    r.evalRight fuel (trs.shift τ) = (r.evalRight fuel trs).map (shift τ) := by
  induction fuel generalizing trs with
  | zero => rfl
  | succ fuel ih =>
    unfold evalRight
    cases hright : trs.right with
    | none =>
      rw [show (trs.shift τ).right = none from hright]
      rfl
    | some a =>
      rw [show (trs.shift τ).right = some a from hright]
      refine bind_commutes (φ := map (TcpSegment.shift τ)) rfl fun right => ?_
      refine ite_commutes ?_ ?_ rfl
      · rw [map_val, shift_iSeq, shift_sos, shift_seqEnd, Translation.seqLt]
      refine guard_commutes ?_ ?_
      · rw [map_val, shift_iSeq, shift_sos, shift_seq, Translation.seqLeq]
      rw [shift_sos, map_val, shift_measureRight]
      generalize trs.sos.measureRight right.val = sos
      refine ite_commutes Iff.rfl ?_ ?_
      · refine ite_commutes ?_ rfl ?_
        · rw [shift_rseq, shift_isRetransmit]
          rfl
        · exact r.shift_insertRightOverlap τ { trs with right := some a, sos := sos.countOverlap }
      · rw [shift_segmentRetransmit]
        rcases sos.segmentRetransmit right.val with _ | ⟨_ | _, sos'⟩
        · exact bind_commutes (r.shift_insertFullOverlap τ
            { trs with right := some a, sos := sos.countOverlap }) ih
        · exact bind_commutes (shift_advance τ { trs with right := some a, sos := sos' }) ih
        · rfl

/-! ## Insertion -/
end TcpReassembler

namespace TcpReassemblerState
variable (trs : TcpReassemblerState)

theorem shift_seqDistance (segSeq iSeq : BitVec 32) :
    seqDistance (τ segSeq) (τ iSeq) = seqDistance segSeq iSeq := by
  unfold seqDistance
  rw [Translation.seqGt, Translation.sub, Translation.sub]

theorem shift_nearerHead : (trs.shift τ).nearerHead = trs.nearerHead := by
  unfold nearerHead
  rw [shift_seglist, show (trs.seglist.shift τ).head = trs.seglist.head from rfl,
    show (trs.seglist.shift τ).tail = trs.seglist.tail from rfl]
  cases trs.seglist.head with
  | none => rfl
  | some a =>
    cases trs.seglist.tail with
    | none => rfl
    | some b =>
      refine bind_invariant (φ := map (TcpSegment.shift τ)) rfl fun head => ?_
      refine bind_invariant (φ := map (TcpSegment.shift τ)) rfl fun tail => ?_
      simp only [map_val, shift_iSeq, shift_sos, shift_tsd, shift_segSeq, shift_seqDistance]

theorem shift_initOverlapEditor :
    initOverlapEditor (trs.shift τ) = (initOverlapEditor trs).map (shift τ) := by
  refine bind_commutes (φ := id) ?_ fun nearer => ?_
  · rw [shift_nearerHead, Option.map_id_apply]
  rw [shift_sos, shift_tsd, shift_segSeq, shift_seglist, shift_findFromHead, shift_findFromTail,
    shift_initSoe]
  cases nearer with
  | true => exact bind_commutes (φ := id) (Option.map_id_apply).symm fun _ => rfl
  | false => exact bind_commutes (φ := id) (Option.map_id_apply).symm fun _ => rfl

theorem shift_isSegmentFasttrack : (trs.shift τ).isSegmentFasttrack = trs.isSegmentFasttrack := by
  unfold isSegmentFasttrack
  cases htail : trs.seglist.tail with
  | none => rw [show (trs.shift τ).seglist.tail = none from htail]
  | some a =>
    rw [show (trs.shift τ).seglist.tail = some a from htail]
    refine bind_invariant (φ := map (TcpSegment.shift τ)) rfl fun c => ?_
    rw [shift_sos, shift_tsd, shift_segSeq, map_val, shift_endSeq, Translation.seqEq]
end TcpReassemblerState

namespace TcpReassembler
open TcpReassemblerState
variable (r : TcpReassembler) (trs : TcpReassemblerState)

theorem shift_insertSegmentInEmptySeglist :
    insertSegmentInEmptySeglist (trs.shift τ) =
      (insertSegmentInEmptySeglist trs).map (shift τ) := by
  unfold insertSegmentInEmptySeglist
  dsimp only
  rw [shift_sos, shift_tsd, shift_firstSeq, shift_rWinBase, shift_segSeq, Translation.sub,
    shift_segLen, ← Translation.map_add]
  refine ite_commutes ?_ (ite_commutes Iff.rfl rfl ?_) ?_
  · rw [Translation.seqGt]
  · exact shift_addReassemblySegment τ trs _ _ _ _ _
  · exact shift_addReassemblySegment τ trs _ _ _ _ _

theorem shift_insertSegmentInSeglist :
    r.insertSegmentInSeglist (trs.shift τ) = (r.insertSegmentInSeglist trs).map (shift τ) := by
  refine bind_commutes (φ := id) ?_ fun fast => ?_
  · rw [shift_isSegmentFasttrack, Option.map_id_apply]
  refine ite_commutes Iff.rfl (shift_addReassemblySegment τ trs _ _ _ _ _) ?_
  refine bind_commutes (shift_initOverlapEditor τ trs) fun trs => ?_
  refine bind_commutes (r.shift_evalLeft τ trs) fun trs => ?_
  refine bind_commutes (r.shift_evalRight τ trs _) fun trs => ?_
  refine ite_commutes Iff.rfl ?_ rfl
  rw [shift_sos, shift_tsd, shift_seq, shift_segSeq, Translation.sub]
  exact shift_addReassemblySegment τ
    { trs with sos := { trs.sos with slide := trs.sos.seq - trs.sos.tsd.segSeq } } _ _ _ _ _

theorem shift_slideSegment (offset : BitVec 32) :
    slideSegment (trs.shift τ) offset = (slideSegment trs offset).shift τ := by
  unfold slideSegment
  rw [shift_sos, shift_tsd, shift_slide]
  rfl

theorem shift_queuePacketForReassembly (tsd : TcpSegmentDescriptor) :
    r.queuePacketForReassembly (trs.shift τ) (tsd.shift τ) =
      (r.queuePacketForReassembly trs tsd).map (shift τ) := by
  unfold queuePacketForReassembly
  refine ite_commutes Iff.rfl ?_ (ite_commutes ?_ ?_ ?_)
  · exact shift_insertSegmentInEmptySeglist τ { trs with sos := { trs.sos with tsd := tsd } }
  · rw [shift_sos, shift_rWinBase, shift_segSeq, Translation.seqGt]
  · rw [shift_sos, shift_rWinBase, shift_segSeq, Translation.sub, shift_segLen]
    refine ite_commutes Iff.rfl ?_ rfl
    have hslide := shift_slideSegment τ { trs with sos := { trs.sos with tsd := tsd } }
      (trs.sos.rWinBase - tsd.segSeq)
    refine bind_commutes (φ := shift τ) ?_ fun trs => ?_
    · exact (congrArg r.insertSegmentInSeglist hslide).trans (r.shift_insertSegmentInSeglist τ _)
    · rw [shift_slideSegment]
      rfl
  · exact r.shift_insertSegmentInSeglist τ { trs with sos := { trs.sos with tsd := tsd } }

theorem shift_call (c : Call) :
    r.call (trs.shift τ) (c.shift τ) = (r.call trs c).map (shift τ) := by
  have htsd : (c.shift τ).tsd = c.tsd.shift τ := shift_new τ _ _ _
  unfold call
  rw [htsd]
  exact r.shift_queuePacketForReassembly τ (trs.atWinBase c.rWinBase) c.tsd
end TcpReassembler
end Snort.Tcp
