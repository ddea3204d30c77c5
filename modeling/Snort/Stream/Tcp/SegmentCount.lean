import Snort.Stream.Tcp.ListRefinement

/-!
# The number of queued segments

`seg_count` is the number of nodes after every operation of the editor, and no
more nodes are queued than were ever allocated. Nothing is assumed about the
sequence numbers.
-/

namespace Snort.Tcp
open List TcpReassemblerState SegmentOverlapState
open Option (some.injEq some.inj)

/-- The count of the nodes is right, and the addresses given out suffice for them. -/
structure Counted (sos : SegmentOverlapState) (fresh nodes : ℕ) : Prop where
  count : sos.segCount = BitVec.ofNat 32 nodes
  room : nodes ≤ fresh

namespace Counted
variable {sos sos' : SegmentOverlapState} {fresh nodes : ℕ}

theorem congr (h : Counted sos fresh nodes) (hcount : sos'.segCount = sos.segCount) :
    Counted sos' fresh nodes :=
  ⟨hcount.trans h.count, h.room⟩

theorem succ (h : Counted sos fresh nodes) (hcount : sos'.segCount = sos.segCount + 1) :
    Counted sos' (fresh + 1) (nodes + 1) := by
  refine ⟨?_, Nat.succ_le_succ h.room⟩
  rw [hcount, h.count]
  exact (BitVec.ofNat_add _ _).symm

theorem pred (h : Counted sos fresh (nodes + 1)) (hcount : sos'.segCount = sos.segCount - 1) :
    Counted sos' fresh nodes := by
  refine ⟨?_, (Nat.le_succ _).trans h.room⟩
  rw [hcount, h.count, BitVec.ofNat_add]
  exact BitVec.add_sub_cancel _ _
end Counted

/-- The count at a place of the list. -/
def ListEditor.Counts (ed : ListEditor) (after : List Node) : Prop :=
  Counted ed.sos ed.fresh (ed.before.length + after.length)

namespace ListEditor.Counts
variable {ed : ListEditor} {a : ℕ} {tsn : TcpSegment} {node : Node} {before after : List Node}
  {ed' : ListEditor} {after' : List Node}

/-- An editor with the same count, addresses and number of nodes. -/
theorem congr (h : ed.Counts after)
    (hcount : ed'.sos.segCount = ed.sos.segCount) (hfresh : ed'.fresh = ed.fresh)
    (hlen : ed'.before.length + after'.length = ed.before.length + after.length) :
    ed'.Counts after' := by
  unfold Counts at *
  rw [hfresh, hlen]
  exact Counted.congr h hcount

theorem push (h : ed.Counts (node :: after)) : (ed.push node).Counts after := by
  refine h.congr rfl rfl ?_
  show ed.before.length + 1 + after.length = ed.before.length + (after.length + 1)
  omega

theorem add (h : ed.Counts after) (len : BitVec 16) (slide truncLen seq : BitVec 32) :
    (ed.add len slide truncLen seq).Counts after := by
  unfold ListEditor.add
  by_cases hsize : (newSize len slide truncLen).toInt ≤ 0
  · rw [if_pos hsize]
    exact Counted.congr h rfl
  · rw [if_neg hsize]
    have hlen : (ed.before.length + 1) + after.length = ed.before.length + after.length + 1 := by
      omega
    show Counted _ (ed.fresh + 1) ((ed.before.length + 1) + after.length)
    rw [hlen]
    exact h.succ rfl

theorem drop (h : ed.Counts (node :: after)) :
    (ed.drop node after).1.Counts (ed.drop node after).2 := by
  have hdeleted : Counted (ed.sos.countDeleted node.2) ed.fresh
      (ed.before.length + after.length) := by
    have h' : Counted ed.sos ed.fresh (ed.before.length + after.length + 1) := h
    exact h'.pred rfl
  unfold ListEditor.drop
  by_cases hcur : ed.curRseg = some node.1
  · simp only [if_pos hcur]
    cases after with
    | nil => exact hdeleted
    | cons next after =>
      simp only [updateNext]
      split
      · exact hdeleted
      · exact hdeleted
  · simp only [if_neg hcur]
    exact hdeleted

variable (r : TcpReassembler)

theorem leftOverlap (h : ed.Counts after) (hbefore : ed.before = (a, tsn) :: before) :
    (ListEditor.leftOverlap r ed a tsn before after).1.Counts
      (ListEditor.leftOverlap r ed a tsn before after).2 := by
  have hlen : before.length + 1 = ed.before.length := by
    rw [hbefore]
    rfl
  unfold ListEditor.leftOverlap
  cases r.left with
  | keepFirst =>
    refine h.congr ?_ rfl rfl
    simp only [keepFirst, copyToPacket]
    split_ifs <;> rfl
  | trimFirst =>
    refine h.congr ?_ rfl (congrArg (· + after.length) hlen)
    simp only [trimFirst]
    split_ifs <;> rfl
  | keepLast =>
    simp only [keepLast]
    by_cases hpos : 0 < (ed.sos.measureLeft tsn).overlap.toInt
    · simp only [if_pos hpos]
      split
      · -- the second part of the split node is new
        have hsum : (before.length + 1) + (after.length + 1) =
            ed.before.length + after.length + 1 := by omega
        show Counted _ (ed.fresh + 1) ((before.length + 1) + (after.length + 1))
        rw [hsum]
        exact h.succ rfl
      · exact h.congr rfl rfl (congrArg (· + after.length) hlen)
    · simp only [if_neg hpos]
      exact h.congr rfl rfl rfl

theorem evalLeft (h : ed.Counts after)
    (hres : ListEditor.evalLeft r ed after = some (ed', after')) :
    ed'.Counts after' := by
  unfold ListEditor.evalLeft at hres
  cases hbefore : ed.before with
  | nil =>
    simp only [hbefore, some.injEq, Prod.mk.injEq] at hres
    obtain ⟨rfl, rfl⟩ := hres
    exact h
  | cons node before =>
    simp only [hbefore] at hres
    split at hres
    · obtain hres := some.inj hres
      rw [← show _ = ed' from congrArg Prod.fst hres, ← show _ = after' from
        congrArg Prod.snd hres]
      exact h.leftOverlap r hbefore
    · cases hres

variable (h : ed.Counts ((a, tsn) :: after))

section
include h

theorem rightOverlap :
    (ListEditor.rightOverlap r ed a tsn after).1.Counts
      (ListEditor.rightOverlap r ed a tsn after).2 := by
  unfold ListEditor.rightOverlap
  cases r.right with
  | truncateExisting =>
    refine Counted.congr h ?_
    simp only [truncateExisting]
    split_ifs <;> rfl
  | truncateNew =>
    refine h.congr ?_ rfl rfl
    simp only [truncateNew, copyToPacket]
    split_ifs <;> rfl

theorem fullTruncateNew : (ed.fullTruncateNew a tsn).Counts after := by
  have hcopy : (ed.sos.copyRight tsn).segCount = ed.sos.segCount := by
    simp only [copyRight, copyToPacket]
    split_ifs <;> rfl
  have hcopied : ListEditor.Counts { ed with sos := ed.sos.copyRight tsn } ((a, tsn) :: after) :=
    h.congr hcopy rfl rfl
  unfold ListEditor.fullTruncateNew
  by_cases heq : seqEq tsn.iSeq (ed.sos.copyRight tsn).seq
  · simp only [if_pos heq]
    refine push (hcopied.congr ?_ ?_ ?_) <;> rfl
  · simp only [if_neg heq]
    have hcut : ListEditor.Counts { ed with sos := (ed.sos.copyRight tsn).cutChunk }
        ((a, tsn) :: after) := hcopied.congr rfl rfl rfl
    exact push ((hcut.add _ _ _ _).congr rfl rfl rfl)

theorem fullOverlap :
    (ListEditor.fullOverlap r ed a tsn after).1.Counts
      (ListEditor.fullOverlap r ed a tsn after).2 := by
  have htrunc : (ed.sos.truncateNew tsn).segCount = ed.sos.segCount := by
    simp only [truncateNew, copyToPacket]
    split_ifs <;> rfl
  unfold ListEditor.fullOverlap
  cases r.full with
  | os1 =>
    by_cases hstarts : ed.sos.startsBefore tsn
    · simp only [if_pos hstarts]
      exact h.drop
    · simp only [if_neg hstarts]
      exact h.fullTruncateNew
  | os2 =>
    by_cases hstarts : ed.sos.startsBefore tsn
    · simp only [if_pos hstarts]
      exact h.drop
    · by_cases hends : ed.sos.endsAfter tsn
      · simp only [if_neg hstarts, if_pos hends]
        exact h.drop
      · simp only [if_neg hstarts, if_neg hends]
        exact h.fullTruncateNew
  | os3 =>
    by_cases hreplace : ed.replacesAfterHole tsn
    · simp only [if_pos hreplace]
      exact push (h.congr htrunc rfl rfl)
    · simp only [if_neg hreplace]
      exact h.drop
  | os4 => exact h.drop
  | os5 => exact h.fullTruncateNew
end

theorem segmentRetransmit {sos sos' : SegmentOverlapState} {full : Bool}
    (hretr : sos.segmentRetransmit tsn = some (full, sos')) : sos'.segCount = sos.segCount := by
  obtain ⟨full', -, hres⟩ := Option.bind_eq_some_iff.mp hretr
  obtain ⟨-, rfl⟩ := Prod.mk.inj (some.inj hres)
  cases full'
  · split_ifs <;> rfl
  · split_ifs <;> rfl

theorem evalRight {fuel : ℕ} (h : ed.Counts after)
    (hres : ListEditor.evalRight r fuel ed after = some (ed', after')) : ed'.Counts after' := by
  induction fuel generalizing ed after with
  | zero => cases hres
  | succ fuel ih =>
    cases after with
    | nil =>
      obtain ⟨rfl, rfl⟩ := Prod.mk.inj (some.inj hres)
      exact h
    | cons node after =>
      obtain ⟨a, right⟩ := node
      cases evalRight_cons hres with
      | beyond _ hres =>
        obtain ⟨rfl, rfl⟩ := Prod.mk.inj hres
        exact h
      | resentPart _ _ _ hres =>
        obtain ⟨rfl, rfl⟩ := Prod.mk.inj hres
        exact h.congr rfl rfl rfl
      | part _ _ _ hres =>
        rw [← show _ = ed' from congrArg Prod.fst hres, ← show _ = after' from
          congrArg Prod.snd hres]
        exact rightOverlap r (h.congr rfl rfl rfl)
      | resentAll _ _ _ sos hretr hres =>
        obtain ⟨rfl, rfl⟩ := Prod.mk.inj hres
        have hcount := segmentRetransmit hretr
        exact h.congr hcount rfl rfl
      | resent _ _ _ sos hretr hres =>
        have hcount := segmentRetransmit hretr
        have hset : ListEditor.Counts { ed with sos := sos } ((a, right) :: after) :=
          h.congr hcount rfl rfl
        exact ih hset.push hres
      | full _ _ _ hres =>
        have hset : ListEditor.Counts { ed with sos := (ed.sos.measureRight right).countOverlap }
            ((a, right) :: after) := h.congr rfl rfl rfl
        exact ih (hset.fullOverlap r) hres
end ListEditor.Counts

/-! ## Whole insertions -/

namespace SegQueue

/-- The count between two packets. -/
def Counts (q : SegQueue) : Prop := Counted q.sos q.fresh q.nodes.length

variable {q q' : SegQueue} {ed : ListEditor} {before after : List Node}

theorem counts_ofEditor (h : ed.Counts after) : (ofEditor ed after).Counts := by
  unfold Counts ofEditor
  rw [length_append, length_reverse]
  exact h

theorem Counts.edit (h : q.Counts) (hnodes : before.reverse ++ after = q.nodes)
    {sos : SegmentOverlapState} (hcount : sos.segCount = q.sos.segCount) :
    ListEditor.Counts { q.edit before with sos := sos } after := by
  unfold Counts at h
  rw [← hnodes, length_append, length_reverse] at h
  exact Counted.congr h hcount

theorem counts_finish (h : ed.Counts after) : (finish ed after).Counts := by
  unfold finish
  by_cases hkeep : ed.sos.keepSegment
  · rw [if_pos hkeep]
    have hslide : ListEditor.Counts
        { ed with sos := { ed.sos with slide := ed.sos.seq - ed.sos.tsd.segSeq } } after :=
      h.congr rfl rfl rfl
    exact counts_ofEditor (hslide.add _ _ _ _)
  · rw [if_neg hkeep]
    exact counts_ofEditor h

theorem Counts.insertInEmpty (h : q.Counts) : q.insertInEmpty.Counts := by
  have hedit : ∀ (len : BitVec 16) (slide truncLen seq : BitVec 32),
      (ofEditor ((q.edit []).add len slide truncLen seq) q.nodes).Counts := fun _ _ _ _ =>
    counts_ofEditor (ListEditor.Counts.add (h.edit (nil_append _) rfl) _ _ _ _)
  unfold SegQueue.insertInEmpty
  by_cases hgt : seqGt q.sos.rWinBase q.sos.tsd.firstSeq
  · simp only [if_pos hgt]
    split
    · exact h
    · exact hedit _ _ _ _
  · simp only [if_neg hgt]
    exact hedit _ _ _ _

theorem Counts.insertInSeglist (r : TcpReassembler) (h : q.Counts)
    (hres : q.insertInSeglist r = some q') : q'.Counts := by
  unfold SegQueue.insertInSeglist at hres
  by_cases hfast : q.isSegmentFasttrack
  · rw [if_pos hfast] at hres
    obtain rfl := some.inj hres
    have hnodes : q.nodes.reverse.reverse ++ [] = q.nodes := by
      rw [reverse_reverse, append_nil]
    exact counts_ofEditor (ListEditor.Counts.add (h.edit hnodes rfl) _ _ _ _)
  · rw [if_neg hfast] at hres
    obtain ⟨⟨ed, after⟩, hleft, hres⟩ := Option.bind_eq_some_iff.mp hres
    obtain ⟨⟨ed', after'⟩, hright, hres⟩ := Option.bind_eq_some_iff.mp hres
    obtain rfl := some.inj hres
    have hedit : ListEditor.Counts { q.edit q.split.1 with sos := q.sos.initSoe } q.split.2 :=
      h.edit (split_append q) rfl
    exact counts_finish ((hedit.evalLeft r hleft).evalRight r hright)

theorem Counts.queuePacket (r : TcpReassembler) (h : q.Counts) {tsd : TcpSegmentDescriptor}
    (hres : q.queuePacket r tsd = some q') : q'.Counts := by
  have hload : (q.load tsd).Counts := Counted.congr h rfl
  rw [queuePacket_eq] at hres
  split at hres
  · obtain rfl := some.inj hres
    exact hload.insertInEmpty
  · split at hres
    · split at hres
      · obtain ⟨q'', hins, hres⟩ := Option.bind_eq_some_iff.mp hres
        obtain rfl := some.inj hres
        have hslide : ((q.load tsd).slideSegment (q.sos.rWinBase - tsd.segSeq)).Counts :=
          Counted.congr hload rfl
        have hcounts := hslide.insertInSeglist r hins
        exact Counted.congr hcounts rfl
      · obtain rfl := some.inj hres
        exact hload
    · exact hload.insertInSeglist r hres
end SegQueue
end Snort.Tcp
