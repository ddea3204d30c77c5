import Snort.Stream.Tcp.EditorSteps
import Snort.Stream.Tcp.SegmentCount
import Snort.Structures.IntervalList

/-!
# Queueing a packet as an edit of intervals

A call of `queue_packet_for_reassembly` on a list of disjoint nodes in one window
never fails, and its effect on the list is an edit: a left step, a run to the
right, and the insertion of what is left of the segment.
-/

namespace Snort.Tcp
open Nat Bool List Serial EditView
open SegQueue hiding nodes

/-- Nodes of the window, in order and without overlap. -/
structure Placed (w : BitVec 32) (nodes : List Node) : Prop where
  sound : ∀ x ∈ nodes, x.2.Sound w
  ordered : IntervalList.Ordered (fun x : Node => x.2.start w) (fun x => x.2.fin w) nodes

def EditView.nodes (v : EditView) : List Node := v.before.reverse ++ v.after

section Edit
variable (w : BitVec 32) (arr : Arrival)

/-- The last step: what is left of the segment is inserted. -/
inductive Finish (v v' : EditView) : Prop
  | insert (hkeep : v.keep = true) (hins : Insert w arr v (arr.dataEnd - v.trunc) v')
  | leave (hkeep : v.keep = false) (heq : v' = v)

/-- The editor at the place of the segment. -/
structure Starts (nodes : List Node) (v : EditView) : Prop where
  nodes : v.nodes = nodes
  seq : v.seq = arr.start
  rseq : v.rseq = arr.start
  trunc : v.trunc = 0
  keep : v.keep = true
  dsize : v.dsize = arr.len
  before : ∀ x ∈ v.before, x.2.start w < arr.start
  after : ∀ x ∈ v.after, arr.start ≤ x.2.start w

/-- The nodes before and after the insertion of a segment. -/
inductive Edit (r : TcpReassembler) (nodes nodes' : List Node) : Prop
  | mk (v₀ v₁ v₂ v₃ : EditView) (hstart : Starts w arr nodes v₀)
      (hleft : LeftStep w arr r.left v₀ v₁) (hright : RightRun w arr r v₁ v₂)
      (hfinish : Finish w arr v₂ v₃) (heq : nodes' = v₃.nodes)

/-- The descriptor of the segment stands for the arrival. -/
structure Arrives (sos : SegmentOverlapState) : Prop where
  segSeq : pos w sos.tsd.segSeq = arr.start
  endSeq : pos w sos.tsd.endSeq = arr.stop
  dsize : sos.tsd.pkt.dsize.toNat = arr.len
  bytes : sos.tsd.pkt.data + arr.len ≤ sos.tsd.pkt.buffer.length
  payload : ∀ i < arr.len, sos.tsd.pkt.buffer[sos.tsd.pkt.data + i]? = arr.payload[i]?
  trims : sos.trimWin = .on ↔ arr.trims
  policy : sos.reassemblyPolicy = arr.policy
end Edit

variable {w : BitVec 32} {arr : Arrival} {q : SegQueue}

/-! ## The place of the segment -/

variable {nodes : List Node} {ed ed' : ListEditor} {v v' : EditView} {hi lo : ℕ}
  {sos sos' : SegmentOverlapState} {x : Node}

theorem Placed.starts_lt (h : Placed w nodes) :
    nodes.Pairwise fun x y => x.2.start w < y.2.start w := by
  refine h.ordered.pairwise.imp_of_mem ?_
  intro x y hx _ hxy
  exact (h.sound x hx).start_lt.trans_le hxy

/-- What fails a test that fails from some place on is what is left behind `dropWhile`. -/
theorem not_of_mem_dropWhile {α : Type*} {R : α → α → Prop} {p : α → Bool} {l : List α}
    (hl : l.Pairwise R) (hp : ∀ x y, R x y → p x = false → p y = false) :
    ∀ x ∈ l.dropWhile p, p x = false := by
  induction l with
  | nil =>
    intro x hx
    cases hx
  | cons y l ih =>
    obtain ⟨hy, hl⟩ := pairwise_cons.mp hl
    cases hpy : p y with
    | true =>
      rw [dropWhile_cons_of_pos hpy]
      exact ih hl
    | false =>
      rw [dropWhile_cons_of_neg (by simp [hpy])]
      intro x hx
      rcases mem_cons.mp hx with rfl | hx
      · exact hpy
      · exact hp y x (hy x hx) hpy

theorem split_spec (h : Placed w q.nodes) (hseq : pos w q.segSeq < 2 ^ 31) :
    (∀ x ∈ q.split.1, x.2.start w < pos w q.segSeq) ∧
      ∀ x ∈ q.split.2, pos w q.segSeq ≤ x.2.start w := by
  have hgeq : ∀ x ∈ q.nodes, (seqGeq x.2.iSeq q.segSeq ↔ pos w q.segSeq ≤ x.2.start w) :=
    fun x hx => seqGeq_iff (h.sound x hx).start_bound hseq
  have hlt : ∀ x ∈ q.nodes, (seqLt x.2.iSeq q.segSeq ↔ x.2.start w < pos w q.segSeq) :=
    fun x hx => seqLt_iff (h.sound x hx).start_bound hseq
  unfold split
  split
  · constructor
    · intro x hx
      have hmem := mem_reverse.mp hx
      have hnodes : x ∈ q.nodes := (takeWhile_sublist _).subset hmem
      have hp := mem_takeWhile_imp hmem
      rw [not_eq_true', ← not_eq_true, hgeq x hnodes] at hp
      exact not_le.mp hp
    · intro x hx
      have hsub : ∀ y ∈ q.nodes.dropWhile fun n => !seqGeq n.2.iSeq q.segSeq, y ∈ q.nodes :=
        fun y hy => (dropWhile_sublist _).subset hy
      refine (hgeq x (hsub x hx)).mp ?_
      have hmono : (q.nodes.Pairwise fun x y => x.2.start w < y.2.start w ∧
          x ∈ q.nodes ∧ y ∈ q.nodes) :=
        h.starts_lt.imp_of_mem fun hx hy hxy => ⟨hxy, hx, hy⟩
      have hnot := not_of_mem_dropWhile hmono ?_ x hx
      · rwa [not_eq_false'] at hnot
      · rintro a b ⟨hab, ha, hb⟩ hpa
        rw [not_eq_false'] at hpa ⊢
        exact (hgeq b hb).mpr (((hgeq a ha).mp hpa).trans hab.le)
  · constructor
    · intro x hx
      have hsub : ∀ y ∈ q.nodes.reverse.dropWhile fun n => !seqLt n.2.iSeq q.segSeq,
          y ∈ q.nodes := fun y hy => mem_reverse.mp ((dropWhile_sublist _).subset hy)
      refine (hlt x (hsub x hx)).mp ?_
      have hmono : (q.nodes.reverse.Pairwise fun x y => y.2.start w < x.2.start w ∧
          x ∈ q.nodes ∧ y ∈ q.nodes) := by
        rw [pairwise_reverse]
        exact h.starts_lt.imp_of_mem fun hx hy hxy => ⟨hxy, hy, hx⟩
      have hnot := not_of_mem_dropWhile hmono ?_ x hx
      · rwa [not_eq_false'] at hnot
      · rintro a b ⟨hab, ha, hb⟩ hpa
        rw [not_eq_false'] at hpa ⊢
        exact (hlt b hb).mpr (hab.trans ((hlt a ha).mp hpa))
    · intro x hx
      have hmem := mem_reverse.mp hx
      have hnodes : x ∈ q.nodes :=
        mem_reverse.mp ((takeWhile_sublist _).subset hmem)
      have hp := mem_takeWhile_imp hmem
      rw [not_eq_true', ← not_eq_true, hlt x hnodes] at hp
      exact not_lt.mp hp

theorem Placed.length_lt (h : Placed w nodes) : nodes.length < 2 ^ 31 := by
  suffices hall : ∀ lo, (∀ x ∈ nodes, lo ≤ x.2.start w) → nodes.length = 0 ∨
      lo + nodes.length < 2 ^ 31 by
    rcases hall 0 (fun _ _ => zero_le _) with hzero | hlt
    · omega
    · omega
  intro lo hlo
  induction nodes generalizing lo with
  | nil => exact .inl rfl
  | cons x nodes ih =>
    obtain ⟨-, hnodes, hx⟩ := IntervalList.Ordered.cons_iff.mp h.ordered
    have hsound := h.sound x mem_cons_self
    have hrest : Placed w nodes := ⟨fun y hy => h.sound y (mem_cons_of_mem _ hy), hnodes⟩
    have hlt := hsound.start_lt
    have hbound := hsound.fin_lt
    have hle := hlo x mem_cons_self
    have hlen : (x :: nodes).length = nodes.length + 1 := rfl
    right
    rcases ih hrest (x.2.fin w) hx with hzero | hlt'
    · omega
    · omega

/-! ## Inserting into a list -/

theorem Arrives.initSoe (h : Arrives w arr q.sos) : Arriving w arr q.sos.initSoe where
  segSeq := h.segSeq
  len := h.dsize
  seqEnd := h.endSeq
  bytes := h.bytes
  dsize := h.dsize.le
  trims := h.trims
  policy := h.policy
  start_le := h.segSeq.ge
  rseq_le := le_rfl
  seq_le := by
    have hle : arr.start ≤ arr.stop := (le_add_right _ _).trans arr.dataEnd_le
    show pos w q.sos.tsd.segSeq ≤ _
    rw [h.segSeq]
    omega
  rsize := by
    show q.sos.tsd.segLen + BitVec.ofNat 16 (pos w q.sos.tsd.segSeq - arr.start) = _
    rw [h.segSeq, Nat.sub_self, ← h.dsize, BitVec.ofNat_toNat]
    simp [TcpSegmentDescriptor.segLen]
  rdata := by
    show q.sos.tsd.pkt.data = q.sos.tsd.pkt.data + (pos w q.sos.tsd.segSeq - arr.start)
    rw [h.segSeq, Nat.sub_self, Nat.add_zero]
  fresh := fun i _ hlt => h.payload i (by
    have hend := arr.dataEnd_eq
    omega)

/-- Storing bytes of the segment, as a step of the interval editor. -/
theorem ListEditor.Added.insert
    (h : ListEditor.Added w ed arr.start arr.len v.seq hi ed') (hbefore : v.before = ed.before)
    (hdsize : v.dsize = ed.sos.tsd.pkt.dsize.toNat) (hle : arr.start ≤ v.seq)
    (hhi : hi ≤ arr.dataEnd)
    (hbytes : ∀ i < arr.len, ed.sos.tsd.pkt.buffer[ed.sos.tsd.pkt.data + i]? = arr.payload[i]?) :
    ∃ v', Insert w arr v hi v' ∧ v'.before = ed'.before ∧ v'.after = v.after := by
  cases h with
  | store tsn cur hshort hlt hstart hfin hsound hstored hbyte =>
    refine ⟨_, .store (ed.fresh, tsn) hshort hlt hstart hfin hsound (hdsize ▸ hstored) ?_ rfl,
      congrArg _ hbefore, rfl⟩
    intro hfits p hlo hhi'
    have hend := arr.dataEnd_eq
    rw [hbyte (hdsize ▸ hfits) p hlo hhi']
    exact hbytes _ (by omega)
  | discard hnone => exact ⟨_, .discard hnone rfl, hbefore, rfl⟩

/-- The settings that insertion leaves as they are. -/
structure SameConfig (sos sos' : SegmentOverlapState) : Prop where
  trimWin : sos'.trimWin = sos.trimWin
  policy : sos'.reassemblyPolicy = sos.reassemblyPolicy

theorem SameConfig.symm (h : SameConfig sos sos') : SameConfig sos' sos :=
  ⟨h.trimWin.symm, h.policy.symm⟩

theorem SameConfig.trans {sos'' : SegmentOverlapState} (h : SameConfig sos sos')
    (h' : SameConfig sos' sos'') : SameConfig sos sos'' :=
  ⟨h'.trimWin.trans h.trimWin, h'.policy.trans h.policy⟩

theorem Arriving.sameConfig (h : Arriving w arr sos)
    (h' : Arriving w arr sos') : SameConfig sos sos' := by
  refine ⟨?_, h'.policy.trans h.policy.symm⟩
  have hiff : sos'.trimWin = .on ↔ sos.trimWin = .on := h'.trims.trans h.trims.symm
  cases ht : sos.trimWin with
  | on => exact hiff.mpr ht
  | test =>
    cases ht' : sos'.trimWin with
    | on => exact absurd (hiff.mp ht') (by rw [ht]; decide)
    | test => rfl

theorem ListEditor.Added.sameConfig {s n : ℕ}
    (h : ListEditor.Added w ed s n lo hi ed') : SameConfig ed.sos ed'.sos := by
  cases h with
  | store => exact ⟨rfl, rfl⟩
  | discard => exact ⟨rfl, rfl⟩

theorem fasttrack_edit (r : TcpReassembler) (h : Placed w q.nodes) (harr : Arrives w arr q.sos)
    (hfast : q.isSegmentFasttrack) :
    Edit w arr r q.nodes
        (ofEditor ((q.edit q.nodes.reverse).add q.sos.tsd.segLen 0 0 q.segSeq) []).nodes ∧
      SameConfig q.sos ((q.edit q.nodes.reverse).add q.sos.tsd.segLen 0 0 q.segSeq).sos := by
  have hbounds := arr.bounds
  have hbytes := harr.bytes
  have hdsize := harr.dsize
  -- the segment starts where the last node ends
  have hbefore : ∀ x ∈ q.nodes.reverse.head?, x.2.fin w = arr.start := by
    intro x hx
    rw [head?_reverse] at hx
    unfold isSegmentFasttrack at hfast
    rw [Option.mem_def.mp hx] at hfast
    have hsound := h.sound x (mem_of_getLast? hx)
    have heq := (seqEq_iff (w := w) (by rw [segSeq, harr.segSeq]; omega)
      hsound.endSeq_bound).mp hfast
    rw [hsound.pos_endSeq, segSeq, harr.segSeq] at heq
    exact heq.symm
  have hstarts : ∀ x ∈ q.nodes.reverse, x.2.start w < arr.start := by
    intro x hx
    cases hrev : q.nodes.reverse with
    | nil => rw [hrev] at hx; cases hx
    | cons y t =>
      have hy : y.2.fin w = arr.start := hbefore y (by rw [hrev]; rfl)
      have hpw : (y :: t).Pairwise fun a b => b.2.fin w ≤ a.2.start w := by
        rw [← hrev, pairwise_reverse]
        exact h.ordered.pairwise
      have hsx := h.sound x (mem_reverse.mp hx)
      have hsy := h.sound y (mem_reverse.mp (by rw [hrev]; exact mem_cons_self))
      have hltx := hsx.start_lt
      have hlty := hsy.start_lt
      rw [hrev] at hx
      rcases mem_cons.mp hx with rfl | hx
      · omega
      · have hxy := (pairwise_cons.mp hpw).1 x hx
        omega
  have hadded : ListEditor.Added w (q.edit q.nodes.reverse) arr.start arr.len arr.start
      (arr.start + arr.len - (0 : BitVec 32).toNat)
      ((q.edit q.nodes.reverse).add q.sos.tsd.segLen 0 0 q.segSeq) :=
    ListEditor.add_spec _ hdsize (Nat.sub_self _).symm harr.segSeq le_rfl
      (by rw [Nat.sub_self]; decide) (by omega)
      (show q.sos.tsd.pkt.data + q.sos.tsd.pkt.dsize.toNat ≤ _ by rw [hdsize]; exact hbytes)
  let v : EditView := ⟨q.nodes.reverse, [], arr.start, arr.start, 0, true, arr.len⟩
  obtain ⟨v', hins, hbefore', hafter'⟩ := ListEditor.Added.insert (v := v) hadded rfl hdsize.symm
    le_rfl le_rfl harr.payload
  refine ⟨.mk v v v v' ⟨?_, rfl, rfl, rfl, rfl, rfl, hstarts, ?_⟩ (.pass ?_ rfl) (.done ?_)
    (.insert rfl hins) ?_, hadded.sameConfig⟩
  · show q.nodes.reverse.reverse ++ [] = q.nodes
    rw [reverse_reverse, append_nil]
  · intro x hx
    cases hx
  · intro x hx
    exact (hbefore x hx).le
  · intro x hx
    cases hx
  · unfold nodes ofEditor
    rw [hbefore', hafter']

/-! ## What the editor keeps -/

namespace Placed
variable {l r : List Node} {x y : Node}

theorem remove (h : Placed w (l ++ x :: r)) : Placed w (l ++ r) := by
  refine ⟨fun y hy => h.sound y ?_, h.ordered.remove⟩
  rw [mem_append] at hy ⊢
  exact hy.imp id (mem_cons_of_mem _)

theorem insert (h : Placed w (l ++ r)) (hx : x.2.Sound w)
    (hl : ∀ y ∈ l, y.2.fin w ≤ x.2.start w) (hr : ∀ y ∈ r, x.2.fin w ≤ y.2.start w) :
    Placed w (l ++ x :: r) := by
  refine ⟨?_, h.ordered.insert hx.start_lt hl hr⟩
  intro y hy
  rw [mem_append, mem_cons] at hy
  rcases hy with hy | rfl | hy
  · exact h.sound y (mem_append_left _ hy)
  · exact hx
  · exact h.sound y (mem_append_right _ hy)

theorem replace (h : Placed w (l ++ x :: r)) (hy : y.2.Sound w)
    (hlo : x.2.start w ≤ y.2.start w) (hhi : y.2.fin w ≤ x.2.fin w) :
    Placed w (l ++ y :: r) := by
  obtain ⟨-, hl, hr⟩ := h.ordered.middle
  exact h.remove.insert hy (fun z hz => (hl z hz).trans hlo) fun z hz => hhi.trans (hr z hz)
end Placed

/-- What holds of the nodes during a run to the right. -/
structure Sits (w : BitVec 32) (arr : Arrival) (v : EditView) : Prop where
  placed : Placed w v.nodes
  before : ∀ x ∈ v.before, x.2.fin w ≤ v.seq ∨ arr.dataEnd ≤ v.seq
  after : ∀ x ∈ v.after, v.seq ≤ x.2.start w
  start_le : arr.start ≤ v.seq
  trunc_le : v.trunc ≤ arr.len + arr.syn

theorem EditView.nodes_cons {before : List Node}
    (h : v.before = x :: before) : v.nodes = before.reverse ++ x :: v.after := by
  unfold nodes
  rw [h, reverse_cons, append_assoc]
  rfl

theorem mem_reverse_append {l r : List Node} : x ∈ l.reverse ++ r ↔ x ∈ l ∨ x ∈ r := by
  rw [mem_append, mem_reverse]

theorem EditView.mem_nodes : x ∈ v.nodes ↔ x ∈ v.before ∨ x ∈ v.after :=
  mem_reverse_append

theorem LeftStep.sits {left : LeftOverlap}
    (h : LeftStep w arr left v v') (hplaced : Placed w nodes) (hstart : Starts w arr nodes v) :
    Sits w arr v' := by
  have hnodes := hstart.nodes ▸ hplaced
  have hend : arr.start ≤ arr.dataEnd := le_add_right _ _
  have hseq := hstart.seq
  have htrunc : v.trunc ≤ arr.len + arr.syn := hstart.trunc ▸ zero_le _
  cases h with
  | pass hfin heq =>
    rw [heq]
    refine ⟨hnodes, ?_, fun x hx => hseq ▸ hstart.after x hx, hseq.ge, htrunc⟩
    intro x hx
    left
    cases hb : v.before with
    | nil => rw [hb] at hx; cases hx
    | cons y before =>
      have hy : y.2.fin w ≤ v.seq := hfin y (by rw [hb]; rfl)
      rw [hb] at hx
      rcases mem_cons.mp hx with rfl | hx
      · exact hy
      · rw [nodes_cons hb] at hnodes
        obtain ⟨hlt, hl, -⟩ := hnodes.ordered.middle
        have hxy := hl x (mem_reverse.mpr hx)
        omega
  | keepOld y before hb hlt _ _ heq =>
    subst heq
    rw [nodes_cons hb] at hnodes
    obtain ⟨hlty, hl, hr⟩ := hnodes.ordered.middle
    refine ⟨nodes_cons hb ▸ hnodes, ?_, ?_, ?_, htrunc⟩
    · intro x hx
      have hx' : x ∈ v.before := hx
      rw [hb] at hx'
      show x.2.fin w ≤ min (y.2.fin w) arr.dataEnd ∨ arr.dataEnd ≤ min (y.2.fin w) arr.dataEnd
      rcases mem_cons.mp hx' with rfl | hx'
      · omega
      · have hxy := hl x (mem_reverse.mpr hx')
        have hys := hstart.before y (by rw [hb]; exact mem_cons_self)
        omega
    · intro x hx
      have hxy := hr x hx
      show min (y.2.fin w) arr.dataEnd ≤ x.2.start w
      omega
    · show arr.start ≤ min (y.2.fin w) arr.dataEnd
      omega
  | cutOld a tsn before overlap hb hlt hfin _ hoverlap heq =>
    subst heq
    rw [nodes_cons hb] at hnodes
    have hl : ∀ y ∈ before.reverse, y.2.fin w ≤ tsn.start w := hnodes.ordered.middle.2.1
    have hsound : tsn.Sound w :=
      hnodes.sound (a, tsn) (mem_append_right _ mem_cons_self)
    have hlts : tsn.start w < v.seq := by
      rw [hseq]
      exact hstart.before (a, tsn) (by rw [hb]; exact mem_cons_self)
    obtain ⟨hsound', hstart', hfin', -⟩ := hsound.cutTail hlts hlt.le hoverlap
    refine ⟨?_, ?_, fun x hx => hseq ▸ hstart.after x hx, hseq.ge, htrunc⟩
    · rw [nodes_cons rfl]
      exact hnodes.replace hsound' hstart'.ge (hfin'.trans_le hlt.le)
    · intro x hx
      left
      rcases mem_cons.mp hx with rfl | hx
      · exact hfin'.le
      · exact (hl x (mem_reverse.mpr hx)).trans hlts.le
  | splitOld a b tsn before overlap seq delta hb hlt hfin _ hoverlap hseq' hdelta heq =>
    subst heq
    rw [nodes_cons hb] at hnodes
    have hl : ∀ y ∈ before.reverse, y.2.fin w ≤ tsn.start w := hnodes.ordered.middle.2.1
    have hr : ∀ y ∈ v.after, tsn.fin w ≤ y.2.start w := hnodes.ordered.middle.2.2
    have hsound : tsn.Sound w :=
      hnodes.sound (a, tsn) (mem_append_right _ mem_cons_self)
    have hlts : tsn.start w < v.seq := by
      rw [hseq]
      exact hstart.before (a, tsn) (by rw [hb]; exact mem_cons_self)
    obtain ⟨hsound', hstart', hfin', -⟩ := hsound.cutTail hlts hlt.le hoverlap
    obtain ⟨hdup, hdstart, hdfin, -⟩ := hsound.dupNode
    obtain ⟨hsound₂, hstart₂, hfin₂, -⟩ := hdup.cutHead (by omega) (by omega) hseq'
      (by rw [hdstart]; exact hdelta)
    have hle : v.seq ≤ arr.dataEnd := hseq ▸ hend
    have hcut : Placed w (before.reverse ++ (a, tsn.cutTail overlap) :: v.after) :=
      hnodes.replace hsound' hstart'.ge (hfin'.trans_le hlt.le)
    refine ⟨?_, ?_, ?_, hseq.ge, htrunc⟩
    · rw [nodes_cons rfl]
      rw [append_cons] at hcut ⊢
      refine hcut.insert hsound₂ ?_ fun y hy => (hfin₂.trans hdfin).trans_le (hr y hy)
      intro y hy
      refine le_trans ?_ (hle.trans hstart₂.ge)
      rcases mem_append.mp hy with hy | hy
      · exact (hl y hy).trans hlts.le
      · obtain rfl := mem_singleton.mp hy
        exact hfin'.le
    · intro x hx
      left
      rcases mem_cons.mp hx with rfl | hx
      · exact hfin'.le
      · exact (hl x (mem_reverse.mpr hx)).trans hlts.le
    · intro x hx
      rcases mem_cons.mp hx with rfl | hx
      · exact hle.trans hstart₂.ge
      · exact hseq.trans_le (hstart.after x hx)

theorem Insert.placed (h : Insert w arr v hi v') (hplaced : Placed w v.nodes)
    (hbefore : ∀ x ∈ v.before, x.2.fin w ≤ v.seq ∨ arr.dataEnd ≤ v.seq)
    (hhi : hi ≤ arr.dataEnd) (hafter : ∀ x ∈ v.after, hi ≤ x.2.start w) :
    Placed w v'.nodes := by
  cases h with
  | store node _ hlt hstart hfin hsound _ _ heq =>
    subst heq
    rw [nodes_cons rfl]
    refine hplaced.insert hsound ?_ fun y hy => hfin.trans_le (hafter y hy)
    intro y hy
    have hy' := hbefore y (mem_reverse.mp hy)
    omega
  | discard _ heq =>
    subst heq
    exact hplaced

theorem RightStep.sits {full : FullOverlap} (h : RightStep w arr full v v')
    (hsits : Sits w arr v) : Sits w arr v' := by
  have hplaced := hsits.placed
  -- the next node is behind all nodes before it
  have hnext : ∀ x after, v.after = x :: after → x.2.start w < x.2.fin w ∧
      (∀ y ∈ v.before, y.2.fin w ≤ x.2.start w) ∧ ∀ y ∈ after, x.2.fin w ≤ y.2.start w := by
    intro x after hafter
    unfold nodes at hplaced
    rw [hafter] at hplaced
    obtain ⟨hlt, hl, hr⟩ := hplaced.ordered.middle
    exact ⟨hlt, fun y hy => hl y (mem_reverse.mpr hy), hr⟩
  -- a node is passed
  have hpass : ∀ x after seq, v.after = x :: after → seq = x.2.fin w → ∀ y ∈ x :: v.before,
      y.2.fin w ≤ seq := by
    rintro x after _ hafter rfl y hy
    obtain ⟨hlt, hl, -⟩ := hnext x after hafter
    rcases mem_cons.mp hy with rfl | hy
    · exact le_rfl
    · exact (hl y hy).trans hlt.le
  have hmove : ∀ x after, v.after = x :: after → Placed w ((x :: v.before).reverse ++ after) := by
    intro x after hafter
    rw [reverse_cons, append_assoc]
    unfold nodes at hplaced
    rw [hafter] at hplaced
    exact hplaced
  have hle := hsits.start_le
  have hstopEq := arr.stop_eq
  have hreach : ∀ x after, v.after = x :: after → arr.start ≤ x.2.fin w := by
    intro x after hafter
    have hx := hsits.after x (hafter ▸ mem_cons_self)
    exact (hle.trans hx).trans (hnext x after hafter).1.le
  cases h with
  | resent x after hafter _ _ _ _ _ _ heq =>
    subst heq
    exact ⟨hmove x after hafter, fun y hy => .inl (hpass x after _ hafter rfl y hy),
      (hnext x after hafter).2.2, hreach x after hafter, zero_le _⟩
  | skip x after hafter _ _ _ trunc _ htrunc _ heq =>
    subst heq
    have htrunc' : trunc ≤ arr.len + arr.syn := by omega
    exact ⟨hmove x after hafter, fun y hy => .inl (hpass x after _ hafter rfl y hy),
      (hnext x after hafter).2.2, hreach x after hafter, htrunc'⟩
  | drop x after hafter hstart _ _ _ heq =>
    subst heq
    refine ⟨?_, hsits.before, fun y hy => hsits.after y (hafter ▸ mem_cons_of_mem _ hy),
      hsits.start_le, zero_le _⟩
    unfold nodes at hplaced
    rw [hafter] at hplaced
    exact hplaced.remove
  | chunk x after hafter hstart hfin _ v₁ hins heq =>
    subst heq
    obtain ⟨hlt, hl, hr⟩ := hnext x after hafter
    have hstop := arr.stop_le
    have hle := arr.dataEnd_le
    have hstopEq : arr.stop = arr.dataEnd + arr.syn := rfl
    have hinsert := hins.placed hplaced hsits.before (by omega) (by
      intro y hy
      rw [hafter] at hy
      rcases mem_cons.mp hy with rfl | hy
      · omega
      · have := hr y hy
        omega)
    cases hins with
    | store node _ hltn hnstart hnfin _ _ _ heq =>
      subst heq
      refine ⟨?_, ?_, hr, hreach x after hafter, zero_le _⟩
      · rw [nodes_cons rfl]
        exact hafter ▸ hinsert
      · intro y hy
        left
        rcases mem_cons.mp hy with rfl | hy
        · exact le_rfl
        · rcases mem_cons.mp hy with rfl | hy
          · rw [hnfin]
            show _ ≤ x.2.fin w
            omega
          · exact (hl y hy).trans hlt.le
    | discard _ heq =>
      subst heq
      exact ⟨hmove x after hafter, fun y hy => .inl (hpass x after _ hafter rfl y hy), hr,
        hreach x after hafter, zero_le _⟩

variable {r : TcpReassembler}

/-- What every round keeps holds where the loop ends. -/
theorem RightRun.rule {P : EditView → Prop}
    (hstep : ∀ v v', P v → RightStep w arr r.full v v' → P v') (h : RightRun w arr r v v')
    (hv : P v) :
    (P v' ∧ ∀ x ∈ v'.after.head?, arr.stop ≤ x.2.start w) ∨
      ∃ u, P u ∧ RightStop w arr r.right u v' := by
  induction h with
  | done hstop => exact .inl ⟨hv, hstop⟩
  | stop hstop => exact .inr ⟨_, hv, hstop⟩
  | next hfirst _ ih => exact ih (hstep _ _ hv hfirst)

/-- Nodes behind a node that starts behind the segment start behind it as well. -/
theorem Sits.after_ge (h : Sits w arr v)
    (hhead : ∀ x ∈ v.after.head?, lo ≤ x.2.start w) : ∀ x ∈ v.after, lo ≤ x.2.start w := by
  intro y hy
  cases ha : v.after with
  | nil => rw [ha] at hy; cases hy
  | cons x after =>
    have hx : lo ≤ x.2.start w := hhead x (by rw [ha]; rfl)
    have hplaced := h.placed
    unfold nodes at hplaced
    rw [ha] at hplaced hy
    obtain ⟨hlt, -, hr⟩ := hplaced.ordered.middle
    rcases mem_cons.mp hy with rfl | hy
    · exact hx
    · exact hx.trans (hlt.le.trans (hr y hy))

/-- The nodes after the node that reaches behind the segment. -/
theorem RightStop.placed {right : RightOverlap} {u : EditView}
    (h : RightStop w arr right u v) (hsits : Sits w arr u) (hfinish : Finish w arr v v') :
    Placed w v'.nodes := by
  have hle := arr.dataEnd_le
  have hstopEq : arr.stop = arr.dataEnd + arr.syn := rfl
  cases h with
  | resent x after _ _ _ _ _ heq =>
    subst heq
    cases hfinish with
    | insert hkeep _ => cases hkeep
    | leave _ heq => exact heq ▸ hsits.placed
  | truncNew x after hafter hstart hlt hfin _ heq =>
    subst heq
    cases hfinish with
    | leave _ heq => exact heq ▸ hsits.placed
    | insert _ hins =>
      refine hins.placed hsits.placed hsits.before (sub_le _ _) (hsits.after_ge ?_)
      intro y hy
      rw [hafter] at hy
      obtain rfl := Option.some.inj hy
      show arr.dataEnd - (arr.stop - x.2.start w) ≤ x.2.start w
      omega
  | passOver x after hafter hstart hfin _ _ heq =>
    -- nothing is left to insert behind the end of the node
    subst heq
    cases hfinish with
    | leave _ heq => exact heq ▸ hsits.placed
    | insert _ hins =>
      cases hins with
      | store _ _ hlt =>
        have hlt' : x.2.fin w < arr.dataEnd - 0 := hlt
        omega
      | discard _ heq => exact heq ▸ hsits.placed
  | cutOld a tsn after seq delta hafter hstart hlt hfin _ _ _ hseq hdelta heq =>
    have hplaced := hsits.placed
    unfold nodes at hplaced
    rw [hafter] at hplaced
    have hsound : tsn.Sound w :=
      hplaced.sound (a, tsn) (mem_append_right _ mem_cons_self)
    have hr : ∀ y ∈ after, tsn.fin w ≤ y.2.start w := hplaced.ordered.middle.2.2
    obtain ⟨hsound', hstart', hfin', -⟩ := hsound.cutHead hlt.le hfin hseq hdelta
    have hcut : Placed w (u.before.reverse ++ (a, tsn.cutHead seq delta) :: after) :=
      hplaced.replace hsound' (hstart' ▸ hlt.le) hfin'.le
    subst heq
    cases hfinish with
    | leave _ heq => exact heq ▸ hcut
    | insert _ hins =>
      refine hins.placed hcut hsits.before (sub_le _ _) ?_
      intro y hy
      refine (sub_le _ _).trans (hle.trans ?_)
      rcases mem_cons.mp hy with rfl | hy
      · exact hstart'.ge
      · exact hfin.le.trans (hr y hy)

/-- What is cut off at the end of the segment is part of it. -/
theorem RightRun.trunc_le (h : RightRun w arr r v v')
    (hsits : Sits w arr v) : v'.trunc ≤ arr.len + arr.syn := by
  rcases h.rule (fun v v' hv hstep => hstep.sits hv) hsits with ⟨hv', -⟩ | ⟨u, hu, hstop⟩
  · exact hv'.trunc_le
  · have hle := hu.start_le
    have hstopEq := arr.stop_eq
    cases hstop with
    | resent x after _ _ _ _ _ heq => exact heq ▸ zero_le _
    | truncNew x after _ hstart _ _ _ heq =>
      subst heq
      show arr.stop - x.2.start w ≤ _
      omega
    | passOver x after _ _ _ _ _ heq => exact heq ▸ zero_le _
    | cutOld a tsn after seq delta _ _ _ _ _ _ _ _ _ heq => exact heq ▸ zero_le _

theorem finish_spec (after : List Node) (h : Arriving w arr ed.sos)
    (htrunc : ed.sos.truncLen.toNat ≤ arr.len + arr.syn) :
    ∃ v', Finish w arr (ed.view w after) v' ∧ (finish ed after).nodes = v'.nodes ∧
      SameConfig ed.sos (finish ed after).sos := by
  unfold finish
  by_cases hkeep : ed.sos.keepSegment
  · rw [if_pos hkeep]
    have harr : Arriving w arr { ed.sos with slide := ed.sos.seq - ed.sos.tsd.segSeq } :=
      h.congr rfl rfl rfl rfl
    obtain ⟨harr', hins⟩ := ListEditor.add_view
      { ed with sos := { ed.sos with slide := ed.sos.seq - ed.sos.tsd.segSeq } } harr after htrunc
    exact ⟨_, .insert hkeep hins, rfl, h.sameConfig harr'⟩
  · rw [if_neg hkeep]
    exact ⟨_, .leave (not_eq_true _ ▸ hkeep) rfl, rfl, rfl, rfl⟩

theorem Edit.placed {nodes' : List Node}
    (h : Edit w arr r nodes nodes') (hplaced : Placed w nodes) : Placed w nodes' := by
  obtain ⟨v₀, v₁, v₂, v₃, hstart, hleft, hright, hfinish, rfl⟩ := h
  have hsits := hleft.sits hplaced hstart
  rcases hright.rule (fun v v' hv hstep => hstep.sits hv) hsits with
    ⟨hsits₂, hhead⟩ | ⟨u, hsits₂, hstop⟩
  · cases hfinish with
    | leave _ heq => exact heq ▸ hsits₂.placed
    | insert _ hins =>
      refine hins.placed hsits₂.placed hsits₂.before (sub_le _ _) fun x hx => ?_
      exact (sub_le _ _).trans (arr.dataEnd_le.trans (hsits₂.after_ge hhead x hx))
  · exact hstop.placed hsits₂ hfinish

theorem insertInSeglist_edit (r : TcpReassembler) (h : Placed w q.nodes) (hcounts : q.Counts)
    (harr : Arrives w arr q.sos) :
    ∃ q', q.insertInSeglist r = some q' ∧ Edit w arr r q.nodes q'.nodes ∧
      SameConfig q.sos q'.sos := by
  have hstop := arr.stop_bound
  have hle : arr.start ≤ arr.stop := (le_add_right _ _).trans arr.dataEnd_le
  have hseq : pos w q.segSeq = arr.start := harr.segSeq
  unfold insertInSeglist
  by_cases hfast : q.isSegmentFasttrack
  · rw [if_pos hfast]
    exact ⟨_, rfl, fasttrack_edit r h harr hfast⟩
  · rw [if_neg hfast]
    obtain ⟨hbefore, hafter⟩ := split_spec h (by rw [hseq]; omega)
    rw [hseq] at hbefore hafter
    have hsplit := split_append q
    have hsound : ∀ x ∈ q.split.1, x.2.Sound w := by
      intro x hx
      exact h.sound x (hsplit ▸ mem_reverse_append.mpr (.inl hx))
    obtain ⟨ed, hed⟩ : ∃ ed : ListEditor, { q.edit q.split.1 with sos := q.sos.initSoe } = ed :=
      ⟨_, rfl⟩
    rw [hed]
    have harr₀ : Arriving w arr ed.sos := hed ▸ harr.initSoe
    have hview : ed.view w q.split.2 =
        ⟨q.split.1, q.split.2, arr.start, arr.start, 0, true, arr.len⟩ := by
      subst hed
      exact ListEditor.view_eq rfl rfl hseq hseq rfl rfl harr.dsize
    have hstarts : Starts w arr q.nodes (ed.view w q.split.2) := by
      rw [hview]
      exact ⟨hsplit, rfl, rfl, rfl, rfl, rfl, hbefore, hafter⟩
    obtain ⟨ed₁, after₁, hleft, harr₁, hstep⟩ := evalLeft_step r q.split.2 harr₀
      (hed ▸ harr.dsize) (hed ▸ hseq) (hed ▸ hsound) (hed ▸ hbefore)
    have hsits := hstep.sits h hstarts
    have hcounts₁ : ed₁.Counts after₁ :=
      ListEditor.Counts.evalLeft r (hed ▸ hcounts.edit hsplit rfl) hleft
    have hplaced := hsits.placed
    have htrunc : ed₁.sos.truncLen.toNat = 0 :=
      hstep.frame.trunc.trans hstarts.trunc
    obtain ⟨ed₂, after₂, hright, harr₂, hrun⟩ := evalRight_run r (ed₁.fresh + 1) ed₁ after₁ harr₁
      (.inl htrunc)
      (fun x hx => hplaced.sound x (mem_append_right _ hx))
      (IntervalList.Ordered.append_iff.mp hplaced.ordered).2.1.pairwise hsits.after
      (lt_succ_of_le ((le_add_left _ _).trans hcounts₁.room))
    obtain ⟨v', hfinish, hnodes, hconfig⟩ := finish_spec after₂ harr₂ (hrun.trunc_le hsits)
    have hconfig' := harr₀.sameConfig harr₂
    refine ⟨finish ed₂ after₂, ?_, .mk _ _ _ v' hstarts hstep hrun hfinish hnodes, ?_⟩
    · rw [hleft]
      simp only [Option.bind_eq_bind, Option.bind_some, hright]
      rfl
    · have hinit : SameConfig q.sos ed.sos := hed ▸ ⟨rfl, rfl⟩
      exact (hinit.trans hconfig').trans hconfig
end Snort.Tcp
