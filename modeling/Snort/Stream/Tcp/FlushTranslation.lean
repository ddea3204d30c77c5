import Snort.Stream.Tcp.Translation

/-!
# Translation of runs

The translation of the sequence space and the functions that flush and purge. The
one comparison that is not modular is made when a flush has come to the last node
of the list: the end of its data against the flush point. A run is the same after
a translation if these two compare alike before each flush.
-/

namespace Snort.Tcp
open List Option DoublyLinked TcpReassemblerState TcpSegment Reassembly Cell
variable {σ : Type} (τ : Translation) (sp : StreamSplitter σ)

/-- A comparison comes out the same after the translation. -/
def Agrees (a b : BitVec 32) : Prop := a < b ↔ τ a < τ b

/-! ## Purging and `get_q_sequenced` -/

namespace Reassembly
variable (s : Reassembly σ)

@[simp] theorem shift_trs : (s.shift τ).trs = s.trs.shift τ := rfl

variable (flushSeq : BitVec 32)

theorem shift_purgeLoop (fuel : ℕ) (trs : TcpReassemblerState) (p : Option ℕ) :
    purgeLoop (τ flushSeq) fuel (trs.shift τ) p =
      (purgeLoop flushSeq fuel trs p).map (TcpReassemblerState.shift τ) := by
  induction fuel generalizing trs p with
  | zero => rfl
  | succ fuel ih =>
    cases p with
    | none => rfl
    | some a =>
      refine bind_commutes (φ := Cell.map (TcpSegment.shift τ)) rfl fun c => ?_
      refine ite_commutes ?_ ?_ rfl
      · rw [Cell.map_val, shift_iSeq, Translation.seqLt]
        rfl
      · exact bind_commutes (shift_deleteReassemblySegment τ trs a) fun trs => ih trs c.next

theorem shift_purgeToSeq :
    (s.shift τ).purgeToSeq (τ flushSeq) = (s.purgeToSeq flushSeq).map (shift τ) := by
  refine guard_commutes Iff.rfl ?_
  refine bind_commutes (shift_purgeLoop τ flushSeq _ s.trs _) fun trs => ?_
  have hrcv : (if seqLt (s.shift τ).tracker.rcvNxt (τ flushSeq) then τ flushSeq
      else (s.shift τ).tracker.rcvNxt) =
      τ (if seqLt s.tracker.rcvNxt flushSeq then flushSeq else s.tracker.rcvNxt) := by
    rw [show (s.shift τ).tracker.rcvNxt = τ s.tracker.rcvNxt from rfl, Translation.seqLt]
    split <;> rfl
  rw [hrcv]
  rfl

variable (l : TcpSegmentList)

theorem shift_nextNoGap (tsn : Cell TcpSegment) :
    (l.shift τ).nextNoGap (tsn.map (TcpSegment.shift τ)) = l.nextNoGap tsn := by
  obtain ⟨prev, next, tsn⟩ := tsn
  cases next with
  | none => rfl
  | some q =>
    refine bind_invariant (φ := Cell.map (TcpSegment.shift τ)) rfl fun c => ?_
    simp only [Cell.map_val, shift_iSeq, shift_endSeq, Translation.eq_iff]

theorem shift_sequencedLoop (fuel : ℕ) (tsn : Cell TcpSegment) (len : BitVec 32)
    (curRseg : Option ℕ) :
    sequencedLoop (l.shift τ) fuel (tsn.map (TcpSegment.shift τ)) len curRseg =
      sequencedLoop l fuel tsn len curRseg := by
  induction fuel generalizing tsn len curRseg with
  | zero => rfl
  | succ fuel ih =>
    unfold sequencedLoop
    rw [shift_nextNoGap]
    refine congrArg (Option.bind _) (funext fun noGap => ?_)
    split
    · refine bind_invariant (l.heap.read_map _ tsn.next) fun next => ?_
      simp only [ih, Cell.map_val, map_next, shift_cLen]
    · rfl

theorem shift_sequencedFrom (a : ℕ) :
    (s.shift τ).sequencedFrom a = (s.sequencedFrom a).map fun x => (x.1.shift τ, x.2) := by
  refine bind_commutes (φ := Cell.map (TcpSegment.shift τ)) rfl fun c => ?_
  refine bind_commutes (φ := id) ?_ fun x => ?_
  · rw [shift_trs, shift_seglist, shift_sequencedLoop, map_id_apply]
    rfl
  exact bind_commutes (s.trs.shift_read τ x.2) fun cur => rfl

theorem shift_getQSequenced :
    (s.shift τ).getQSequenced = s.getQSequenced.map fun x => (x.1.shift τ, x.2) := by
  unfold getQSequenced
  rw [shift_trs, shift_seglist, show (s.trs.seglist.shift τ).curRseg = s.trs.seglist.curRseg
    from rfl,
    show (s.trs.seglist.shift τ).head = s.trs.seglist.head from rfl]
  cases s.trs.seglist.curRseg with
  | some a => exact shift_sequencedFrom τ s a
  | none =>
    cases s.trs.seglist.head with
    | none => rfl
    | some a =>
      refine bind_commutes (φ := Cell.map (TcpSegment.shift τ)) rfl fun c => ?_
      obtain ⟨prev, next, tsn⟩ := c
      refine ite_commutes ?_ ?_ (shift_sequencedFrom τ s a)
      · rw [Cell.map_val, TcpSegment.shift_cSeq, shift_sos,
          SegmentOverlapState.shift_rWinBase, Translation.seqLt]
        rfl
      · cases prev with
        | none => rfl
        | some p =>
          exact bind_commutes (s.trs.seglist.shift_set τ _ fun _ => rfl) fun _ => rfl

/-! ## Flushing -/

theorem shift_getFlushDataLen (tsn : TcpSegment) (toSeq max : BitVec 32) :
    (s.shift τ).getFlushDataLen (tsn.shift τ) (τ toSeq) max = s.getFlushDataLen tsn toSeq max := by
  unfold getFlushDataLen
  dsimp only
  rw [shift_cLen, TcpSegment.shift_cSeq, ← Translation.map_add, Translation.seqGt, Translation.sub]
  rfl

variable (tsn : Cell TcpSegment)

theorem shift_endsPdu (bytesToCopy flushed toSeq : BitVec 32) :
    (s.shift τ).endsPdu (tsn.map (TcpSegment.shift τ)) bytesToCopy flushed (τ toSeq) =
      s.endsPdu tsn bytesToCopy flushed toSeq := by
  obtain ⟨prev, next, tsn⟩ := tsn
  cases next with
  | none => rfl
  | some q =>
    refine bind_invariant (φ := Cell.map (TcpSegment.shift τ)) rfl fun c => ?_
    simp only [Cell.map_val, shift_cLen, TcpSegment.shift_cSeq,
      ← Translation.map_add, Translation.seqEq]

theorem shift_takeData (trs : TcpReassemblerState) (a : ℕ) (tsn : Cell TcpSegment)
    (copied : BitVec 32) :
    takeData (trs.shift τ) a (tsn.map (TcpSegment.shift τ)) copied =
      (takeData trs a tsn copied).map (TcpReassemblerState.shift τ) := by
  refine bind_commutes (trs.seglist.shift_set τ _ fun t => t.shift_consume τ copied) fun l => ?_
  refine ite_commutes Iff.rfl ?_ rfl
  exact shift_updateNext τ { trs with
    seglist := l
    sos := { trs.sos with flushCount := trs.sos.flushCount + 1 } }
    { tsn with val := tsn.val.consume copied }

theorem shift_handOver (a : ℕ) (tsn : Cell TcpSegment) (total toSeq flushed : BitVec 32)
    (head : Bool) :
    handOver sp (s.shift τ) a (tsn.map (TcpSegment.shift τ)) total (τ toSeq) flushed head =
      (handOver sp s a tsn total toSeq flushed head).map fun x => (x.1.shift τ, x.2) := by
  unfold handOver
  rw [Cell.map_val, shift_getFlushDataLen,
    show (s.shift τ).tracker.splitter = s.tracker.splitter from rfl]
  refine guard_commutes Iff.rfl ?_
  refine bind_commutes (φ := id) ?_ fun tail => ?_
  · rw [shift_endsPdu, map_id_apply]
  refine bind_commutes (shift_takeData τ s.trs a tsn _) fun trs => ?_
  simp only [Option.pure_def, Option.map_some, shift, List.map_append]
  rfl

variable (toSeq : BitVec 32)

/-- The node at `cur_rseg`. -/
def current (s : Reassembly σ) : Option (ℕ × Cell TcpSegment) := do
  let a ← s.trs.seglist.curRseg
  let tsn ← s.trs.seglist.heap a
  return (a, tsn)

theorem shift_isPacketMissing (tsn : Cell TcpSegment) (toSeq : BitVec 32)
    (h : tsn.next = none → Agrees τ tsn.val.cEnd toSeq) :
    (l.shift τ).isPacketMissing (tsn.map (TcpSegment.shift τ)) (τ toSeq) =
      l.isPacketMissing tsn toSeq := by
  unfold TcpSegmentList.isPacketMissing
  obtain ⟨prev, next, tsn⟩ := tsn
  cases next with
  | none =>
    have hagrees : (tsn.cEnd < toSeq) ↔ (τ tsn.cEnd < τ toSeq) := h rfl
    simp only [Cell.map_val, map_next, shift_cEnd, ← hagrees]
  | some q =>
    refine bind_invariant (φ := Cell.map (TcpSegment.shift τ)) rfl fun c => ?_
    simp only [Cell.map_val, shift_iSeq, shift_endSeq, ne_eq, Translation.eq_iff]

theorem shift_setMissingPkt :
    (s.shift τ).setMissingPkt (τ toSeq) = (s.setMissingPkt toSeq).shift τ := by
  unfold setMissingPkt
  rw [show (s.shift τ).tracker.finFinalSeq = τ s.tracker.finFinalSeq from rfl,
    Translation.seqLeq, show (s.shift τ).tracker.finSeqSet = s.tracker.finSeqSet from rfl]
  split <;> rfl

theorem shift_goesOn (toSeq flushed : BitVec 32) (buffer : Bool)
    (h : tsn.next = none → Agrees τ tsn.val.cEnd toSeq) :
    (s.shift τ).goesOn (tsn.map (TcpSegment.shift τ)) (τ toSeq) flushed buffer =
      (s.goesOn tsn toSeq flushed buffer).map fun x => (x.1.shift τ, x.2) := by
  unfold goesOn
  by_cases hdone : tsn.val.cLen = 0 ∧ seqEq tsn.val.cSeq toSeq
  · have hdone' : (tsn.map (TcpSegment.shift τ)).val.cLen = 0 ∧
        seqEq (tsn.map (TcpSegment.shift τ)).val.cSeq (τ toSeq) := by
      rw [Cell.map_val, TcpSegment.shift_cSeq, Translation.seqEq]
      exact hdone
    rw [if_pos hdone, if_pos hdone']
    rfl
  · have hdone' : ¬ ((tsn.map (TcpSegment.shift τ)).val.cLen = 0 ∧
        seqEq (tsn.map (TcpSegment.shift τ)).val.cSeq (τ toSeq)) := by
      rw [Cell.map_val, TcpSegment.shift_cSeq, Translation.seqEq]
      exact hdone
    rw [if_neg hdone, if_neg hdone']
    refine bind_commutes (φ := id) ?_ fun missing => ?_
    · rw [shift_trs, shift_seglist, shift_isPacketMissing τ _ _ _ h, map_id_apply]
    refine ite_commutes Iff.rfl ?_ ?_
    · rw [shift_setMissingPkt]
      rfl
    · cases hcur : s.trs.seglist.curRseg with
      | none =>
        rw [show (s.shift τ).trs.seglist.curRseg = none from hcur]
        rfl
      | some b =>
        rw [show (s.shift τ).trs.seglist.curRseg = some b from hcur]
        exact bind_commutes (φ := Cell.map (TcpSegment.shift τ)) rfl fun _ => rfl

theorem read_curRseg : s.trs.seglist.heap.read s.trs.seglist.curRseg = s.current.map Prod.snd := by
  unfold current
  cases s.trs.seglist.curRseg with
  | none => rfl
  | some a =>
    show s.trs.seglist.heap a = Option.map Prod.snd (Option.bind (s.trs.seglist.heap a) _)
    cases s.trs.seglist.heap a with
    | none => rfl
    | some tsn => rfl

theorem shift_current :
    (s.shift τ).current = s.current.map (Prod.map id (Cell.map (TcpSegment.shift τ))) := by
  refine bind_commutes (φ := id) (map_id_apply).symm fun a => ?_
  exact bind_commutes (φ := Cell.map (TcpSegment.shift τ)) rfl fun _ => rfl

/-! ## The end of the list -/

section Tail
variable {s s' : Reassembly σ} {a : ℕ} {tsn : Cell TcpSegment} {toSeq : BitVec 32}

/-- The sequence number of a node when a flush comes to it: `update_next` puts it back to the
initial one. -/
def seqAt (curRseg : Option ℕ) (a : ℕ) (tsn : TcpSegment) : BitVec 32 :=
  if curRseg = some a then tsn.cSeq else tsn.iSeq

/-- If a flush up to `toSeq` can come to a node without a successor, the end of the node and
`toSeq` compare as plain numbers as they do after the translation. -/
def TailAgrees (l : TcpSegmentList) (toSeq : BitVec 32) : Prop :=
  ∀ a tsn, l.heap a = some tsn → tsn.next = none → seqLt (seqAt l.curRseg a tsn.val) toSeq →
    Agrees τ (seqAt l.curRseg a tsn.val + tsn.val.cLen.setWidth 32) toSeq

theorem getFlushDataLen_le (s : Reassembly σ) (tsn : TcpSegment) (max : BitVec 32)
    (hlt : seqLt tsn.cSeq toSeq) : s.getFlushDataLen tsn toSeq max ≤ tsn.cLen.setWidth 32 := by
  have hcLen : (tsn.cLen.setWidth 32).toNat < 65536 := by
    rw [BitVec.toNat_setWidth_of_le (by decide)]
    exact tsn.cLen.isLt
  have hle : (if tsn.cLen.setWidth 32 ≤ max then tsn.cLen.setWidth 32 else max) ≤
      tsn.cLen.setWidth 32 := by
    split_ifs with h
    · exact BitVec.le_refl _
    · exact BitVec.le_of_lt (BitVec.not_le.mp h)
  unfold getFlushDataLen
  generalize (if tsn.cLen.setWidth 32 ≤ max then tsn.cLen.setWidth 32 else max) = n at *
  dsimp only
  split_ifs with hgt
  · simp only [seqLt, seqGt, Bool.and_eq_true, decide_eq_true_eq,
      BitVec.toInt_eq_toNat_cond] at hlt hgt
    replace hgt := hgt.2
    split_ifs at hlt hgt <;> bv_omega
  · exact hle

theorem consume_cEnd (tsn : TcpSegment) {n : BitVec 32} (h : n ≤ tsn.cLen.setWidth 32) :
    (tsn.consume n).cEnd = tsn.cEnd := by
  have hlt := tsn.cLen.isLt
  unfold consume cEnd
  bv_omega

theorem set_eq {l : TcpSegmentList} (hcell : l.heap a = some tsn) (f : TcpSegment → TcpSegment) :
    l.set (some a) f =
      some { l with heap := l.heap.modify a fun c => { c with val := f c.val } } := by
  unfold TcpSegmentList.set
  rw [Heap.write_some hcell]
  rfl

/-- `cur_rseg` stays, moves on to the next node, or is null. -/
theorem takeData_cases {trs trs' : TcpReassemblerState} {copied : BitVec 32}
    (hcell : trs.seglist.heap a = some tsn) (hres : takeData trs a tsn copied = some trs') :
    let heap := trs.seglist.heap.modify a fun c => { c with val := c.val.consume copied }
    trs'.seglist.curRseg = none ∨
      (trs'.seglist.curRseg = trs.seglist.curRseg ∧ trs'.seglist.heap = heap) ∨
      ∃ q, tsn.next = some q ∧ trs'.seglist.curRseg = some q ∧ trs'.seglist.heap =
        heap.modify q fun c => { c with val := { c.val with cSeq := c.val.iSeq } } := by
  intro heap
  obtain ⟨l, hl, hres⟩ := Option.bind_eq_some_iff.mp hres
  rw [set_eq hcell] at hl
  cases hl
  dsimp only at hres
  split_ifs at hres with hempty
  · unfold updateNext at hres
    cases hnext : tsn.next with
    | none =>
      rw [hnext] at hres
      cases hres
      exact .inl rfl
    | some q =>
      rw [hnext] at hres
      obtain ⟨c, hc, hres⟩ := Option.bind_eq_some_iff.mp hres
      split_ifs at hres with hgap
      · obtain ⟨l, hl, hres⟩ := Option.bind_eq_some_iff.mp hres
        rw [set_eq hc] at hl
        cases hl
        cases hres
        exact .inr (.inr ⟨q, rfl, rfl, rfl⟩)
      · cases hres
        exact .inl rfl
  · cases hres
    exact .inr (.inl ⟨rfl, rfl⟩)

variable {τ}

/-- The node that data was taken from keeps its end, and the next one starts with its initial
sequence number. -/
theorem takeData_tailAgrees {trs trs' : TcpReassemblerState} {copied : BitVec 32}
    (h : TailAgrees τ trs.seglist toSeq) (hcur : trs.seglist.curRseg = some a)
    (hcell : trs.seglist.heap a = some tsn) (hlt : seqLt tsn.val.cSeq toSeq)
    (hle : copied ≤ tsn.val.cLen.setWidth 32) (hres : takeData trs a tsn copied = some trs')
    (hsome : trs'.seglist.curRseg ≠ none) : TailAgrees τ trs'.seglist toSeq := by
  intro b c hb hlast hseq
  rcases takeData_cases hcell hres with hnone | ⟨hcur', hheap⟩ | ⟨q, hq, hcur', hheap⟩
  · exact absurd hnone hsome
  · rw [hheap] at hb
    rw [hcur'] at hseq ⊢
    by_cases hab : b = a
    · subst hab
      rw [Heap.modify_self, hcell, Option.map_some, Option.some_inj] at hb
      subst hb
      have hagrees := h b tsn hcell hlast
      simp only [seqAt, hcur, if_true] at hagrees ⊢
      have hend := consume_cEnd tsn.val hle
      unfold cEnd at hend
      rw [hend]
      exact hagrees hlt
    · rw [Heap.modify_of_ne _ hab] at hb
      exact h b c hb hlast hseq
  · rw [hheap] at hb
    rw [hcur'] at hseq ⊢
    have hab : b ≠ a := by
      rintro rfl
      have hnext : c.next = some q := by
        by_cases hbq : b = q
        · subst hbq
          simp only [Heap.modify_self, hcell, Option.map_some, Option.some_inj] at hb
          rw [← hb, ← hq]
        · simp only [Heap.modify_of_ne _ hbq, Heap.modify_self, hcell, Option.map_some,
            Option.some_inj] at hb
          rw [← hb, ← hq]
      rw [hlast] at hnext
      cases hnext
    by_cases hbq : b = q
    · subst hbq
      simp only [Heap.modify_self, Heap.modify_of_ne _ hab, Option.map_eq_some_iff] at hb
      obtain ⟨d, hd, rfl⟩ := hb
      have hagrees := h b d hd hlast
      simp only [seqAt, hcur, Option.some_inj, if_neg hab.symm, if_true] at hagrees hseq ⊢
      exact hagrees hseq
    · simp only [Heap.modify_of_ne _ hab, Heap.modify_of_ne _ hbq] at hb
      have hagrees := h b c hb hlast
      simp only [seqAt, hcur, Option.some_inj, if_neg hab.symm,
        if_neg (Ne.symm hbq)] at hagrees hseq ⊢
      exact hagrees hseq

/-- The comparison that follows a round agrees, and so do those after it. -/
theorem handOver_tailAgrees (h : TailAgrees τ s.trs.seglist toSeq)
    (hcur : s.current = some (a, tsn)) (hlt : seqLt tsn.val.cSeq toSeq)
    {total flushed : BitVec 32} {head : Bool} {sb : Reassembled σ}
    (hres : handOver sp s a tsn total toSeq flushed head = some (s', sb)) :
    (tsn.next = none → Agrees τ (tsn.val.consume sb.copied).cEnd toSeq) ∧
      (s'.trs.seglist.curRseg ≠ none → TailAgrees τ s'.trs.seglist toSeq) := by
  obtain ⟨b, hb, hcur⟩ := Option.bind_eq_some_iff.mp hcur
  obtain ⟨c, hcell, hcur⟩ := Option.bind_eq_some_iff.mp hcur
  cases hcur
  unfold handOver at hres
  obtain ⟨-, -, hres⟩ := Option.bind_eq_some_iff.mp hres
  obtain ⟨tail, -, hres⟩ := Option.bind_eq_some_iff.mp hres
  obtain ⟨trs, htake, hres⟩ := Option.bind_eq_some_iff.mp hres
  dsimp only at hres
  cases hres
  have hle := BitVec.le_trans
    (sp.copied_le s.tracker.splitter total flushed tsn.val.payload _ head tail)
    (getFlushDataLen_le s tsn.val (sp.max s.tracker.splitter) hlt)
  refine ⟨fun hlast => ?_, takeData_tailAgrees h hb hcell hlt hle htake⟩
  rw [consume_cEnd _ hle]
  have hagrees := h a tsn hcell hlast
  simp only [seqAt, hb, if_true] at hagrees
  exact hagrees hlt

theorem goesOn_true {flushed : BitVec 32} {buffer : Bool}
    (h : s.goesOn tsn toSeq flushed buffer = some (s', true)) :
    s' = s ∧ s.trs.seglist.curRseg ≠ none := by
  unfold goesOn at h
  split_ifs at h with hdone
  · cases h
  · obtain ⟨missing, -, h⟩ := Option.bind_eq_some_iff.mp h
    split_ifs at h with hmissing
    · cases h
    · cases hcur : s.trs.seglist.curRseg with
      | none =>
        rw [hcur] at h
        cases h
      | some b =>
        rw [hcur] at h
        obtain ⟨cur, -, h⟩ := Option.bind_eq_some_iff.mp h
        exact ⟨(Prod.ext_iff.mp (Option.some.inj h)).1.symm, nofun⟩

theorem flushLoop_succ (total : BitVec 32) (fuel : ℕ) (flushed : BitVec 32) (head : Bool) :
    flushLoop sp total toSeq (fuel + 1) s flushed head =
      s.current.bind fun x =>
        if seqLt x.2.val.cSeq toSeq then
          (handOver sp s x.1 x.2 total toSeq flushed head).bind fun y =>
            (y.1.goesOn { x.2 with val := x.2.val.consume y.2.copied } toSeq
              (flushed + y.2.copied) y.2.buffer).bind fun z =>
                if z.2 then flushLoop sp total toSeq fuel z.1 (flushed + y.2.copied) false
                else some (z.1, flushed + y.2.copied)
        else some (s, flushed) := by
  simp only [flushLoop, current, flushRound, Option.bind_eq_bind, Option.bind_assoc,
    Option.pure_def, Option.bind_some]

theorem shift_flushLoop (total : BitVec 32) (fuel : ℕ) (flushed : BitVec 32) (head : Bool)
    (h : TailAgrees τ s.trs.seglist toSeq) :
    flushLoop sp total (τ toSeq) fuel (s.shift τ) flushed head =
      (flushLoop sp total toSeq fuel s flushed head).map fun x => (x.1.shift τ, x.2) := by
  induction fuel generalizing s flushed head with
  | zero => rfl
  | succ fuel ih =>
    rw [flushLoop_succ, flushLoop_succ, shift_current]
    cases hcur : s.current with
    | none => rfl
    | some x =>
      obtain ⟨a, tsn⟩ := x
      simp only [Option.map_some, Option.bind_some, Prod.map, id, Cell.map_val,
        TcpSegment.shift_cSeq, Translation.seqLt, shift_handOver]
      by_cases hlt : seqLt tsn.val.cSeq toSeq
      · simp only [if_pos hlt]
        cases hover : handOver sp s a tsn total toSeq flushed head with
        | none => rfl
        | some y =>
          obtain ⟨s₁, sb⟩ := y
          obtain ⟨hlast, hnext⟩ := handOver_tailAgrees sp h hcur hlt hover
          have hgoes := shift_goesOn τ s₁ { tsn with val := tsn.val.consume sb.copied } toSeq
            (flushed + sb.copied) sb.buffer hlast
          rw [show Cell.map (TcpSegment.shift τ) { tsn with val := tsn.val.consume sb.copied } =
            { tsn.map (TcpSegment.shift τ) with val := (tsn.val.shift τ).consume sb.copied } by
              rw [shift_consume]; rfl] at hgoes
          simp only [Option.map_some, Option.bind_some]
          rw [hgoes]
          cases hagain : s₁.goesOn { tsn with val := tsn.val.consume sb.copied } toSeq
            (flushed + sb.copied) sb.buffer with
          | none => rfl
          | some z =>
            obtain ⟨s₂, again⟩ := z
            cases again with
            | false => rfl
            | true =>
              obtain ⟨rfl, hsome⟩ := goesOn_true hagain
              exact ih _ _ (hnext hsome)
      · simp only [if_neg hlt]
        rfl
end Tail
end Reassembly

/-! ## Runs -/

/-- One direction of a new stream. -/
def Reassembly.init (pol : StreamPolicy) (tcpIpsData trimWin : NormMode)
    (tracker : TcpStreamTracker σ) :
    Reassembly σ :=
  ⟨.init pol tcpIpsData trimWin, tracker, []⟩

/-- The functions that work on the queue of one direction of a stream. They come in any order;
what chooses between them (`flush_on_data_policy`, `flush_on_ack_policy` and what these ask of
the protocol-aware flush) works on the queue through them only. -/
inductive QueueOp where
  | insert (c : Call)
  | flushDataSegments (total : BitVec 32)
  | getQSequenced
  | purgeToSeq (flushSeq : BitVec 32)
deriving DecidableEq, Repr

namespace QueueOp
variable (r : TcpReassembler)

def apply (s : Reassembly σ) : QueueOp → Option (Reassembly σ)
  | .insert c => do
    let trs ← r.call s.trs c
    return { s with trs := trs }
  | .flushDataSegments total => do
    let (s, _) ← s.flushDataSegments sp total
    return s
  | .getQSequenced => do
    let (s, _) ← s.getQSequenced
    return s
  | .purgeToSeq flushSeq => s.purgeToSeq flushSeq

def shift : QueueOp → QueueOp
  | .insert c => .insert (c.shift τ)
  | .flushDataSegments total => .flushDataSegments total
  | .getQSequenced => .getQSequenced
  | .purgeToSeq flushSeq => .purgeToSeq (τ flushSeq)

/-- The end of the list agrees with the flush point. -/
def FlushAgrees (s : Reassembly σ) : QueueOp → Prop
  | .flushDataSegments total => ∀ a tsn, s.current = some (a, tsn) →
    TailAgrees τ s.trs.seglist (tsn.val.cSeq + total)
  | _ => True

theorem shift_apply (s : Reassembly σ) (op : QueueOp)
    (h : op.FlushAgrees τ s) :
    (op.shift τ).apply sp r (s.shift τ) = (op.apply sp r s).map (Reassembly.shift τ) := by
  cases op with
  | insert c => exact bind_commutes (r.shift_call τ s.trs c) fun _ => rfl
  | getQSequenced => exact bind_commutes (s.shift_getQSequenced τ) fun _ => rfl
  | purgeToSeq flushSeq => exact s.shift_purgeToSeq τ flushSeq
  | flushDataSegments total =>
    unfold apply Reassembly.flushDataSegments shift
    rw [read_curRseg, read_curRseg, shift_current]
    cases hcur : s.current with
    | none => rfl
    | some x =>
      obtain ⟨a, tsn⟩ := x
      simp only [Option.map_some, Prod.map, id, Option.bind_eq_bind, Option.bind_some]
      rw [Cell.map_val, TcpSegment.shift_cSeq, ← Translation.map_add]
      exact bind_commutes (shift_flushLoop sp total _ 0 true (h a tsn hcur)) fun _ => rfl

/-- The states that a run goes through, up to the operation that it fails on. -/
def trace (s : Reassembly σ) : List QueueOp → List (Reassembly σ)
  | [] => [s]
  | op :: ops =>
    s :: match op.apply sp r s with
      | none => []
      | some s' => trace s' ops

/-- Before each flush of a run the end of the list agrees with the flush point. -/
def RunAgrees (s : Reassembly σ) : List QueueOp → Prop
  | [] => True
  | op :: ops => op.FlushAgrees τ s ∧ ∀ s', op.apply sp r s = some s' → RunAgrees s' ops

/-- A run in the translated sequence space goes through the translated states, if before each
flush the end of the last node and the flush point compare as plain numbers as they do after
the translation. -/
theorem translation_invariant (k : BitVec 32) (sp : StreamSplitter σ) (r : TcpReassembler)
    (s : Reassembly σ) (ops : List QueueOp) (h : RunAgrees (.add k) sp r s ops) :
    trace sp r (s.shift (.add k)) (ops.map (shift (.add k))) =
      (trace sp r s ops).map (Reassembly.shift (.add k)) := by
  induction ops generalizing s with
  | nil => rfl
  | cons op ops ih =>
    rw [map_cons, trace, trace, shift_apply _ sp r s op h.1]
    cases hop : op.apply sp r s with
    | none => rfl
    | some s' => exact congrArg _ (ih s' (h.2 s' hop))

/-- Two queued segments that meet at 1020, which is moved to 2^32, are flushed and purged. -/
theorem translation_invariant_across_wrap :
    let node (seq : BitVec 32) (n : ℕ) : TcpSegment := ⟨replicate n 0, seq, seq, n, n, 0⟩
    let new : Reassembly Unit := .init .osLinux .test .test (.init () .onAck)
    let queue : TcpSegmentList :=
      { head := some 0, tail := some 1, curRseg := some 0, count := 2, fresh := 2
        heap
          | 0 => some ⟨none, some 1, node 1000 20⟩
          | 1 => some ⟨some 0, none, node 1020 10⟩
          | _ => none }
    let s := { new with trs := { new.trs with seglist := queue } }
    let ops : List QueueOp := [.flushDataSegments 30, .purgeToSeq 1030]
    trace (.base 16384) (.create .test .osLinux) (s.shift (.add 4294966276))
        (ops.map (shift (.add 4294966276))) =
      (trace (.base 16384) (.create .test .osLinux) s ops).map
        (Reassembly.shift (.add 4294966276)) := by
  intro node new queue s ops
  refine translation_invariant _ _ _ _ _ ⟨?_, fun _ _ => ⟨trivial, fun _ _ => trivial⟩⟩
  rintro a tsn ⟨⟩
  intro b c hb hlast hseq
  match b with
  | 0 =>
    cases hb
    cases hlast
  | 1 =>
    cases hb
    show _ ↔ _
    decide
  | b + 2 => cases hb

/-- A segment of 20 bytes at 1000 of which 4 are flushed, and the same 10 bytes before 2^32. -/
theorem missing_pkt_at_wrap :
    let s : Reassembly Unit := .init .osLinux .test .test (.init () .onAck)
    let ops : List QueueOp :=
      [.insert ⟨1000, 1000, false, List.replicate 20 0⟩, .getQSequenced, .flushDataSegments 4]
    let τ : Translation := .add 4294966286
    (trace (.base 16384) (.create .test .osLinux) s ops).map
        (fun s => s.tracker.tfMissingPkt) = [false, false, false, false] ∧
      (trace (.base 16384) (.create .test .osLinux) (s.shift τ)
        (ops.map (shift τ))).map (fun s => s.tracker.tfMissingPkt) =
          [false, false, false, true] := by
  decide +kernel
end QueueOp
end Snort.Tcp
