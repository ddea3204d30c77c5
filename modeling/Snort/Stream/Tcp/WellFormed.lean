import Snort.Stream.Tcp.QueuePacket

/-!
# Well-formed segment lists

What a list of segments of which nothing was flushed is to satisfy, said in
sequence numbers, and its reading in positions when the list lies in a window.
-/

namespace Snort.Tcp
open Serial

/-- The sequence number is that of a byte of the node. -/
def TcpSegment.Has (tsn : TcpSegment) (s : BitVec 32) : Prop :=
  (s - tsn.iSeq).toNat < tsn.iLen.toNat

/-- The sequence number is that of a queued byte. -/
def Covered (nodes : List Node) (s : BitVec 32) : Prop := ∃ x ∈ nodes, x.2.Has s

structure WellFormedNodes (nodes : List Node) : Prop where
  ordered : nodes.Pairwise fun x y => seqLt x.2.iSeq y.2.iSeq
  disjoint : nodes.Pairwise fun x y => ∀ s, ¬ (x.2.Has s ∧ y.2.Has s)
  nonempty : ∀ x ∈ nodes, 0 < x.2.iLen.toNat
  cSeq : ∀ x ∈ nodes, x.2.cSeq = x.2.iSeq
  cLen : ∀ x ∈ nodes, x.2.cLen = x.2.iLen
  stored : ∀ x ∈ nodes, x.2.Stored
  /-- the data of a node was allocated for one packet -/
  data_lt : ∀ x ∈ nodes, x.2.data.length < 2 ^ 16

/-- The links of the list agree, its nodes are in order and they are counted. -/
structure WellFormed (trs : TcpReassemblerState) (nodes : List Node) : Prop where
  holds : trs.seglist.Holds nodes
  count : trs.sos.segCount = BitVec.ofNat 32 nodes.length
  nodes : WellFormedNodes nodes

/-- All queued bytes lie in the window. -/
def NodesInWindow (w : BitVec 32) (nodes : List Node) : Prop :=
  ∀ x ∈ nodes, pos w x.2.iSeq + x.2.iLen.toNat < 2 ^ 31

/-! ## Positions -/

/-- The position is that of a queued byte. -/
abbrev CoversAt (w : BitVec 32) (nodes : List Node) (p : ℕ) : Prop :=
  IntervalList.Covers (fun x : Node => x.2.start w) (fun x => x.2.fin w) nodes p

variable {w : BitVec 32} {nodes : List Node} {s : BitVec 32}

theorem has_iff {tsn : TcpSegment} (hfin : tsn.fin w < 2 ^ 31) :
    tsn.Has s ↔ tsn.start w ≤ pos w s ∧ pos w s < tsn.fin w := by
  have hlt : pos w tsn.iSeq + tsn.iLen.toNat < 2 ^ 31 := hfin
  exact toNat_sub_lt_iff (by omega)

theorem Placed.covered_iff (h : Placed w nodes) : Covered nodes s ↔ CoversAt w nodes (pos w s) := by
  constructor
  · rintro ⟨x, hx, hs⟩
    exact ⟨x, hx, (has_iff (h.sound x hx).fin_lt).mp hs⟩
  · rintro ⟨x, hx, hs⟩
    exact ⟨x, hx, (has_iff (h.sound x hx).fin_lt).mpr hs⟩

theorem WellFormedNodes.placed (h : WellFormedNodes nodes) (hwin : NodesInWindow w nodes) :
    Placed w nodes := by
  have hsound : ∀ x ∈ nodes, x.2.Sound w := by
    intro x hx
    have hlt := h.nonempty x hx
    refine ⟨h.cSeq x hx, h.cLen x hx, ?_, hwin x hx, h.data_lt x hx⟩
    show x.2.start w < x.2.start w + x.2.iLen.toNat
    omega
  refine ⟨hsound, fun x hx => (hsound x hx).start_lt, ?_⟩
  refine (h.ordered.and h.disjoint).imp_of_mem ?_
  rintro x y hx hy ⟨hlt, hdisj⟩
  have hx' := hsound x hx
  have hy' := hsound y hy
  rw [seqLt_iff hx'.start_bound hy'.start_bound] at hlt
  -- otherwise the first byte of the second node is a byte of both
  by_contra hgt
  refine hdisj y.2.iSeq ⟨(has_iff hx'.fin_lt).mpr ⟨hlt.le, not_le.mp hgt⟩, ?_⟩
  exact (has_iff hy'.fin_lt).mpr ⟨le_rfl, hy'.start_lt⟩

theorem Placed.wellFormed (h : Placed w nodes) (hstored : ∀ x ∈ nodes, x.2.Stored) :
    WellFormedNodes nodes where
  ordered := by
    refine h.starts_lt.imp_of_mem ?_
    intro x y hx hy hlt
    exact (seqLt_iff (h.sound x hx).start_bound (h.sound y hy).start_bound).mpr hlt
  disjoint := by
    refine h.ordered.pairwise.imp_of_mem ?_
    rintro x y hx hy hle s ⟨hsx, hsy⟩
    have hx' := (has_iff (h.sound x hx).fin_lt).mp hsx
    have hy' := (has_iff (h.sound y hy).fin_lt).mp hsy
    omega
  nonempty := by
    intro x hx
    have hlt : x.2.start w < x.2.start w + x.2.iLen.toNat := (h.sound x hx).start_lt
    omega
  cSeq x hx := (h.sound x hx).cSeq
  cLen x hx := (h.sound x hx).cLen
  stored := hstored
  data_lt x hx := (h.sound x hx).data_lt

theorem Placed.inWindow (h : Placed w nodes) : NodesInWindow w nodes :=
  fun x hx => (h.sound x hx).fin_lt

/-! ## Calls on a well-formed list -/

theorem call_spec (r : TcpReassembler) {trs : TcpReassemblerState} {c : Call}
    (hplaced : Placed w nodes) (hholds : trs.seglist.Holds nodes)
    (hcount : trs.sos.segCount = BitVec.ofNat 32 nodes.length) (hc : c.InWindow w) :
    ∃ trs' nodes', r.call trs c = some trs' ∧ trs'.seglist.Holds nodes' ∧
      trs'.sos.segCount = BitVec.ofNat 32 nodes'.length ∧ SameConfig trs.sos trs'.sos ∧
      Outcome w r trs.sos c nodes nodes' := by
  let q : SegQueue := ⟨trs.sos, trs.seglist.curRseg, trs.seglist.fresh, nodes⟩
  have hcounts : q.Counts := ⟨hcount, hholds.length_le⟩
  obtain ⟨q', hcall, hout, hconfig, hcounts'⟩ := call_outcome (q := q) r hplaced hcounts hc
  obtain ⟨trs', hcall', hrefines⟩ := call_refines r ⟨rfl, rfl, rfl, hholds⟩ hcall
  refine ⟨trs', q'.nodes, hcall', hrefines.holds, ?_, ?_, hout⟩
  · rw [hrefines.sos]
    exact hcounts'.count
  · rw [hrefines.sos]
    exact hconfig
end Snort.Tcp
