import Snort.Stream.Tcp.QueuedBytes

/-!
# The last data wins

Under the policy `LAST` queued nodes give way to a new segment. The one exception
is a segment that is taken for a retransmission of the nodes at its place: they
stay. The test for this compares the payload with the data of a node without
regard to the offset at which the bytes of the node begin, so that it can find
bytes equal that are not the queued ones.
-/

namespace Snort.Tcp
open List Serial EditView Arrival
open BitVec (ofNat)
open Option (some.inj)
variable {w : BitVec 32} {arr : Arrival} {v v' : EditView} {nodes nodes' : List Node}
  {tsn : TcpSegment}

/-- The node has the bytes of the segment, as far as the two overlap. -/
def Arrival.Equals (arr : Arrival) (w : BitVec 32) (tsn : TcpSegment) : Prop :=
  ∀ p, tsn.start w ≤ p → p < tsn.fin w → arr.start ≤ p → p < arr.dataEnd → tsn.byte w p = arr.byte p

/-- Among the nodes that are taken for repeated from `seq` on there is one with other bytes. -/
def Arrival.Mistakes (arr : Arrival) (w : BitVec 32) : ℕ → List Node → Prop
  | _, [] => False
  | seq, x :: rest => x.2.start w = seq ∧ seq < arr.dataEnd ∧ arr.Repeats w x.2 ∧
      (¬ arr.Equals w x.2 ∨ arr.Mistakes w (x.2.fin w) rest)

theorem not_mistakes {seq : ℕ} {l : List Node} (h : ∀ x ∈ l.head?, x.2.start w ≠ seq) :
    ¬ arr.Mistakes w seq l := by
  cases l with
  | nil => exact id
  | cons x l => exact fun hm => h x rfl hm.1

/-- All bytes of a node are bytes of the list. -/
def OldBytes (w : BitVec 32) (nodes : List Node) (tsn : TcpSegment) : Prop :=
  ∀ p, tsn.start w ≤ p → p < tsn.fin w →
    ∃ y ∈ nodes, y.2.start w ≤ p ∧ p < y.2.fin w ∧ tsn.byte w p = y.2.byte w p

theorem oldBytes_of_mem {x : Node} (hx : x ∈ nodes) : OldBytes w nodes x.2 :=
  fun _ hlo hhi => ⟨x, hx, hlo, hhi, rfl⟩

section Cut
variable {tsn : TcpSegment}

theorem OldBytes.cutTail (h : OldBytes w nodes tsn) {overlap : BitVec 32}
    (hfin : (tsn.cutTail overlap).fin w ≤ tsn.fin w) : OldBytes w nodes (tsn.cutTail overlap) :=
  fun p hlo hhi => h p hlo (hhi.trans_le hfin)

theorem OldBytes.cutHead (h : OldBytes w nodes tsn) (hsound : tsn.Sound w) (hst : tsn.Stored)
    {seq : BitVec 32} {delta : BitVec 16} {lo : ℕ} (hlo : tsn.start w ≤ lo) (hhi : lo < tsn.fin w)
    (hseq : pos w seq = lo) (hd : delta.toNat = lo - tsn.start w) :
    OldBytes w nodes (tsn.cutHead seq delta) := by
  obtain ⟨-, hstart, hfin, -⟩ := hsound.cutHead hlo hhi hseq hd
  intro p hp hp'
  rw [hsound.byte_cutHead hst hlo hhi hseq hd (hstart ▸ hp)]
  exact h p (hlo.trans (hstart ▸ hp)) (hfin ▸ hp')

theorem OldBytes.dupNode (h : OldBytes w nodes tsn) (hsound : tsn.Sound w) :
    OldBytes w nodes (TcpReassemblerState.dupNode tsn) := by
  obtain ⟨-, hstart, hfin, -⟩ := hsound.dupNode
  intro p hp hp'
  rw [hsound.byte_dupNode (hfin ▸ hp')]
  exact h p (hstart ▸ hp) (hfin ▸ hp')
end Cut

/-- The editor with the nodes that are taken for repeated behind it. -/
structure Overwrites (w : BitVec 32) (arr : Arrival) (nodes : List Node) (v : EditView) : Prop
    extends Supplied w arr v where
  rseq : v.rseq = v.seq
  trunc : v.trunc = 0
  keep : v.keep = true ∨ arr.dataEnd ≤ v.seq
  old : ∀ x ∈ v.nodes, OldBytes w nodes x.2

/-- The nodes behind the editor have the bytes of the segment, and no mistake is ahead. -/
def Right (w : BitVec 32) (arr : Arrival) (v : EditView) : Prop :=
  (∀ x ∈ v.before, arr.Equals w x.2) ∧ ¬ arr.Mistakes w v.seq v.after

theorem LeftStep.overwrites (h : LeftStep w arr .keepLast v v') (hplaced : Placed w nodes)
    (hstart : Starts w arr nodes v) (hst : AllStored nodes) (hlen : 0 < arr.len) :
    Overwrites w arr nodes v' ∧ (Right w arr v' ↔ ¬ arr.Mistakes w arr.start v.after) := by
  have hsits := h.sits hplaced hstart
  have hframe := h.frame
  have hstored := h.allStored hplaced hstart hst
  have hseq := hstart.seq
  have hend := arr.dataEnd_eq
  obtain rfl := hstart.nodes
  have hbefore : v'.seq = arr.start → ∀ x ∈ v'.before, arr.Equals w x.2 := by
    intro hseq' x hx p _ hp hlo _
    have hfin := hsits.before x hx
    omega
  have hwrites : v'.rseq = v'.seq → (∀ x ∈ v'.nodes, OldBytes w v.nodes x.2) →
      Overwrites w arr v.nodes v' := fun hrseq hold =>
    ⟨⟨hsits, hstored, fun _ => hframe.dsize.trans hstart.dsize⟩, hrseq,
      hframe.trunc.trans hstart.trunc, .inl (hframe.keep.trans hstart.keep), hold⟩
  cases h with
  | pass _ heq =>
    subst heq
    refine ⟨hwrites (hstart.rseq.trans hseq.symm) fun x hx => oldBytes_of_mem hx, ?_⟩
    rw [Right, hseq]
    exact and_iff_right (hbefore hseq)
  | keepOld x before hb hlt hleft _ heq => exact absurd rfl hleft
  | cutOld a tsn before overlap hb hlt hfin _ hoverlap heq =>
    have hmem : (a, tsn) ∈ v.nodes := nodes_cons hb ▸ mem_append_right _ mem_cons_self
    have hx : tsn.start w < v.seq := hseq ▸ hstart.before (a, tsn) (hb ▸ mem_cons_self)
    have hsound : tsn.Sound w := hplaced.sound _ hmem
    obtain ⟨-, -, hfin', -⟩ := hsound.cutTail hx hlt.le hoverlap
    subst heq
    refine ⟨hwrites (hstart.rseq.trans hseq.symm) fun y hy => ?_, ?_⟩
    · rcases mem_reverse_append.mp hy with hy | hy
      · rcases mem_cons.mp hy with rfl | hy
        · exact (oldBytes_of_mem hmem).cutTail (hfin'.trans_le hlt.le)
        · exact oldBytes_of_mem (mem_reverse_append.mpr (.inl (hb ▸ mem_cons_of_mem _ hy)))
      · exact oldBytes_of_mem (mem_reverse_append.mpr (.inr hy))
    · show _ ∧ ¬ arr.Mistakes w v.seq v.after ↔ _
      rw [hseq]
      exact and_iff_right (hbefore hseq)
  | splitOld a b tsn before overlap seq delta hb hlt hfin _ hoverlap hseq' hdelta heq =>
    have hmem : (a, tsn) ∈ v.nodes := nodes_cons hb ▸ mem_append_right _ mem_cons_self
    have hx : tsn.start w < v.seq := hseq ▸ hstart.before (a, tsn) (hb ▸ mem_cons_self)
    have hsound : tsn.Sound w := hplaced.sound _ hmem
    have htst : tsn.Stored := hst _ hmem
    obtain ⟨-, -, hfin', -⟩ := hsound.cutTail hx hlt.le hoverlap
    obtain ⟨hdup, hdstart, hdfin, hdst⟩ := hsound.dupNode
    have hdelta' : delta.toNat = arr.dataEnd - (TcpReassemblerState.dupNode tsn).start w :=
      hdstart ▸ hdelta
    obtain ⟨-, hstart₂, -, -⟩ := hdup.cutHead (by omega) (by omega) hseq' hdelta'
    have hold : OldBytes w v.nodes tsn := oldBytes_of_mem hmem
    have hr : ∀ y ∈ v.after, tsn.fin w ≤ y.2.start w := by
      rw [nodes_cons hb] at hplaced
      exact hplaced.ordered.middle.2.2
    subst heq
    refine ⟨hwrites (hstart.rseq.trans hseq.symm) fun y hy => ?_, ?_⟩
    · rcases mem_reverse_append.mp hy with hy | hy
      · rcases mem_cons.mp hy with rfl | hy
        · exact (oldBytes_of_mem hmem).cutTail (hfin'.trans_le hlt.le)
        · exact oldBytes_of_mem (mem_reverse_append.mpr (.inl (hb ▸ mem_cons_of_mem _ hy)))
      · rcases mem_cons.mp hy with rfl | hy
        · exact (hold.dupNode hsound).cutHead hdup (hdst htst) (by omega) (by omega) hseq' hdelta'
        · exact oldBytes_of_mem (mem_reverse_append.mpr (.inr hy))
    · -- the rest of the node starts behind the segment
      refine iff_of_true ⟨hbefore hseq, not_mistakes ?_⟩ (not_mistakes ?_)
      · intro y hy
        obtain rfl := some.inj hy
        show ((TcpReassemblerState.dupNode tsn).cutHead seq delta).start w ≠ v.seq
        omega
      · intro y hy
        have := hr y (mem_of_mem_head? hy)
        omega

theorem RightStep.overwrites (h : RightStep w arr .os4 v v') (hover : Overwrites w arr nodes v)
    (hsyn : arr.syn = 0) :
    Overwrites w arr nodes v' ∧ (Right w arr v' ↔ Right w arr v) := by
  have hsup := h.supplied hover.toSupplied fun hfull => nomatch hfull
  have hstop : arr.stop = arr.dataEnd := by
    unfold stop dataEnd
    omega
  cases h with
  | resent x after hafter hstart hrseq hfin hrepeats keep hkeep heq =>
    have hlt := (hover.next hafter).2
    have hkeep' := hover.keep
    subst heq
    refine ⟨⟨hsup, rfl, rfl, ?_, fun y hy => hover.old y ?_⟩, ?_⟩
    · grind
    · rw [mem_nodes] at hy ⊢
      rw [hafter]
      simp only [mem_cons] at hy ⊢
      tauto
    · unfold Right
      simp only [hafter, Arrival.Mistakes, forall_mem_cons]
      grind
  | skip x after hafter _ _ hfull _ _ _ _ _ => exact absurd rfl hfull
  | drop x after hafter hstart hfin _ hdiffers heq =>
    have hlt := (hover.next hafter).2
    have hrseq := hover.rseq
    obtain ⟨-, hr⟩ := hover.around hafter
    have hnext : ∀ y ∈ after.head?, y.2.start w ≠ v.seq := by
      intro y hy
      have hge := hr (y.2.start w) ⟨y, mem_of_mem_head? hy, le_rfl, ?_⟩
      · omega
      · exact (hover.placed.sound y (mem_nodes.mpr (.inr (hafter ▸
          mem_cons_of_mem _ (mem_of_mem_head? hy))))).start_lt
    subst heq
    refine ⟨⟨hsup, hrseq, rfl, hover.keep, fun y hy => hover.old y ?_⟩, ?_⟩
    · rw [mem_nodes] at hy ⊢
      rw [hafter]
      exact hy.imp id (mem_cons_of_mem _)
    · refine and_congr Iff.rfl (iff_of_true (not_mistakes hnext) ?_)
      rw [hafter]
      rintro ⟨hx, -, hrepeats, -⟩
      exact hdiffers (hx.trans hrseq.symm) hrepeats
  | chunk x after hafter hstart hfin hfull v₁ hins heq => cases hfull

/-- Outside of the segment the bytes are those that were queued before. -/
def Overwritten (w : BitVec 32) (arr : Arrival) (nodes nodes' : List Node) : Prop :=
  ∀ x ∈ nodes', ∀ p, x.2.start w ≤ p → p < x.2.fin w → (arr.start ≤ p ∧ p < arr.dataEnd) ∨
      ∃ y ∈ nodes, y.2.start w ≤ p ∧ p < y.2.fin w ∧ x.2.byte w p = y.2.byte w p

theorem Arrival.New.equals (h : arr.New w tsn) : arr.Equals w tsn :=
  fun p hlo hhi _ _ => h.agrees p hlo hhi

theorem equals_of_start (h : arr.dataEnd ≤ tsn.start w) : arr.Equals w tsn := by
  intro p hlo _ _ hp
  omega

theorem finish_overwrites (hfinish : Finish w arr v v') (hseq : arr.start ≤ v.seq)
    (hdsize : arr.len < 2 ^ 15 → v.dsize = arr.len) (hold : ∀ x ∈ v.nodes, OldBytes w nodes x.2) :
    Overwritten w arr nodes v'.nodes ∧
      ((∀ x ∈ v'.nodes, arr.Equals w x.2) ↔ ∀ x ∈ v.nodes, arr.Equals w x.2) := by
  have hkept : Kept w arr v.nodes v'.nodes :=
    hfinish.kept ⟨fun x hx => hx, fun x hx => .inl hx⟩ hseq hdsize
  refine ⟨fun x hx p hlo hhi => ?_, fun h x hx => h x (hkept.old x hx), fun h x hx => ?_⟩
  · rcases hkept.new x hx with hx | hx
    · exact .inr (hold x hx p hlo hhi)
    · exact .inl ⟨hx.start.trans hlo, hhi.trans_le hx.fin⟩
  · exact (hkept.new x hx).elim (h x) Arrival.New.equals

/-- The nodes are right at the end if they are right before the last step. -/
theorem Overwrites.finish {u : EditView} (h : Overwrites w arr nodes u) (hsyn : arr.syn = 0)
    (hend : (v = u ∧ ∀ x ∈ u.after.head?, arr.stop ≤ x.2.start w) ∨
      RightStop w arr .truncateExisting u v) (hpol : arr.policy = .osLast)
    (hfinish : Finish w arr v v') :
    Overwritten w arr nodes v'.nodes ∧ ((∀ x ∈ v'.nodes, arr.Equals w x.2) ↔ Right w arr u) := by
  have hstop : arr.stop = arr.dataEnd := by
    unfold stop dataEnd
    omega
  have hrseq := h.rseq
  have hall : ∀ {v : EditView}, (∀ x ∈ v.nodes, arr.Equals w x.2) ↔
      (∀ x ∈ v.before, arr.Equals w x.2) ∧ ∀ x ∈ v.after, arr.Equals w x.2 := by
    intro v
    simp only [mem_nodes, or_imp, forall_and]
  rcases hend with ⟨rfl, hhead⟩ | hend
  · obtain ⟨hover, hiff⟩ := finish_overwrites hfinish h.start_le h.dsize h.old
    have hge := h.after_ge hhead
    refine ⟨hover, hiff.trans (hall.trans ?_)⟩
    refine and_congr Iff.rfl (iff_of_true (fun x hx => equals_of_start (hstop ▸ hge x hx)) ?_)
    rintro hm
    cases hafter : v.after with
    | nil =>
      rw [hafter] at hm
      exact hm
    | cons x after =>
      rw [hafter] at hm
      have := hhead x (by rw [hafter]; rfl)
      obtain ⟨hx, hlt, -⟩ := hm
      omega
  · have hnext : ∀ x after, u.after = x :: after → arr.stop < x.2.fin w → ∀ y ∈ after,
        arr.dataEnd ≤ y.2.start w := by
      intro x after hafter hfin y hy
      have hge := (h.around hafter).2 (y.2.start w) ⟨y, hy, le_rfl, ?_⟩
      · omega
      · exact (h.placed.sound y (mem_nodes.mpr (.inr (hafter ▸ mem_cons_of_mem _ hy)))).start_lt
    cases hend with
    | resent x after hafter hstart _ hfin hrepeats heq =>
      subst heq
      obtain ⟨hover, hiff⟩ := finish_overwrites hfinish h.start_le h.dsize h.old
      refine ⟨hover, hiff.trans (hall.trans (and_congr Iff.rfl ?_))⟩
      have hrest : ¬ arr.Mistakes w (x.2.fin w) after := by
        cases after with
        | nil => exact id
        | cons y after => exact fun hm => by have := hm.2.1; omega
      have hafter' := fun y hy => equals_of_start (hnext x after hafter hfin y hy)
      have hlate : arr.dataEnd ≤ u.seq → arr.Equals w x.2 :=
        fun hle => equals_of_start (hstart ▸ hle)
      rw [hafter, forall_mem_cons, Arrival.Mistakes, and_iff_left hafter']
      grind
    | truncNew x after hafter hstart hlt hfin hright heq => cases hright
    | passOver x after hafter hstart hfin _ hpol' heq => exact absurd hpol hpol'
    | cutOld a tsn after seq delta hafter hstart hlt hfin _ _ hdiffers hseq hdelta heq =>
      have hmem : (a, tsn) ∈ u.nodes :=
        mem_nodes.mpr (.inr (hafter ▸ mem_cons_self))
      have hsound : tsn.Sound w := h.placed.sound _ hmem
      have htst : tsn.Stored := h.stored _ hmem
      have hold : OldBytes w nodes tsn := h.old _ hmem
      obtain ⟨-, hstart', -, -⟩ := hsound.cutHead hlt.le hfin hseq hdelta
      have hafter' := hnext _ after hafter hfin
      subst heq
      have hcut : ∀ y ∈ ({ u with after := (a, tsn.cutHead seq delta) :: after, trunc := 0 } :
          EditView).nodes, OldBytes w nodes y.2 := by
        intro y hy
        rcases mem_nodes.mp hy with hy | hy
        · exact h.old y (mem_nodes.mpr (.inl hy))
        · rcases mem_cons.mp hy with rfl | hy
          · exact hold.cutHead hsound htst hlt.le hfin hseq hdelta
          · exact h.old y (mem_nodes.mpr (.inr (hafter ▸ mem_cons_of_mem _ hy)))
      obtain ⟨hover, hiff⟩ := finish_overwrites hfinish h.start_le h.dsize hcut
      refine ⟨hover, hiff.trans (hall.trans (and_congr Iff.rfl (iff_of_true ?_ ?_)))⟩
      · intro y hy
        rcases mem_cons.mp hy with rfl | hy
        · exact equals_of_start (hstop ▸ hstart'.ge)
        · exact equals_of_start (hafter' y hy)
      · rw [hafter]
        rintro ⟨hx, -, hrepeats, -⟩
        exact hdiffers (hx.trans hrseq.symm) hrepeats

theorem mistakes_dropWhile (hstart : Starts w arr nodes v) (hplaced : Placed w nodes) :
    arr.Mistakes w arr.start (nodes.dropWhile fun x => x.2.start w ≠ arr.start) ↔
      arr.Mistakes w arr.start v.after := by
  have hbefore : ∀ x ∈ v.before.reverse, (decide (x.2.start w ≠ arr.start)) = true := by
    intro x hx
    have := hstart.before x (mem_reverse.mp hx)
    exact decide_eq_true (by omega)
  rw [← hstart.nodes, EditView.nodes, dropWhile_append_of_pos hbefore]
  cases hafter : v.after with
  | nil => rfl
  | cons x after =>
    by_cases hx : x.2.start w = arr.start
    · rw [dropWhile_cons_of_neg (by simpa using hx)]
    · -- all nodes lie behind the place of the segment
      have hge := hstart.after x (hafter ▸ mem_cons_self)
      rw [← hstart.nodes, EditView.nodes, hafter] at hplaced
      obtain ⟨hlt, -, hr⟩ := hplaced.ordered.middle
      have hnone : (x :: after).dropWhile (fun x => x.2.start w ≠ arr.start) = [] := by
        rw [dropWhile_eq_nil_iff]
        intro y hy
        refine decide_eq_true ?_
        rcases mem_cons.mp hy with rfl | hy
        · exact hx
        · have := hr y hy
          omega
      rw [hnone]
      exact iff_of_false id (not_mistakes fun y hy => some.inj hy ▸ hx)

/-- The insertion replaces all bytes that the segment has, unless it is mistaken for a
retransmission. -/
theorem Edit.overwrites (h : Edit w arr tcpReassemblerLast nodes nodes') (hplaced : Placed w nodes)
    (hst : AllStored nodes) (hsyn : arr.syn = 0) (hlen : 0 < arr.len)
    (hpol : arr.policy = .osLast) :
    Overwritten w arr nodes nodes' ∧ ((∀ x ∈ nodes', arr.Equals w x.2) ↔
      ¬ arr.Mistakes w arr.start (nodes.dropWhile fun x => x.2.start w ≠ arr.start)) := by
  obtain ⟨v₀, v₁, v₂, v₃, hstart, hleft, hright, hfinish, rfl⟩ := h
  rw [mistakes_dropWhile hstart hplaced]
  obtain ⟨hover, hiff⟩ := hleft.overwrites hplaced hstart hst hlen
  have hstep : ∀ v v', (Overwrites w arr nodes v ∧ (Right w arr v ↔ Right w arr v₁)) →
      RightStep w arr .os4 v v' → Overwrites w arr nodes v' ∧
      (Right w arr v' ↔ Right w arr v₁) := by
    rintro v v' ⟨hv, hsame⟩ hstep
    obtain ⟨hv', hsame'⟩ := hstep.overwrites hv hsyn
    exact ⟨hv', hsame'.trans hsame⟩
  rcases hright.rule hstep ⟨hover, Iff.rfl⟩ with ⟨⟨hend, hsame⟩, hhead⟩ | ⟨u, ⟨hu, hsame⟩, hstop⟩
  · obtain ⟨hold, hlast⟩ := hend.finish hsyn (.inl ⟨rfl, hhead⟩) hpol hfinish
    exact ⟨hold, hlast.trans (hsame.trans hiff)⟩
  · obtain ⟨hold, hlast⟩ := hu.finish hsyn (.inr hstop) hpol hfinish
    exact ⟨hold, hlast.trans (hsame.trans hiff)⟩

/-! ## Runs -/

namespace Call

/-- The segment is taken for a retransmission of the node: `is_retransmit` compares the payload
with the data of the node from its begin on. -/
def Repeats (c : Call) (tsn : TcpSegment) : Prop :=
  ∀ s, tsn.Has s → c.Sends s → tsn.data[(s - tsn.iSeq).toNat]? = c.byteAt s

/-- The node has the bytes of the segment, as far as the two overlap. -/
def Equals (c : Call) (tsn : TcpSegment) : Prop :=
  ∀ s, tsn.Has s → c.Sends s → tsn.byteAt s = c.byteAt s

/-- Among the nodes that are taken for repeated from `seq` on there is one with other bytes. -/
def Mistakes (c : Call) : BitVec 32 → List Node → Prop
  | _, [] => False
  | seq, x :: rest => x.2.iSeq = seq ∧ c.Sends seq ∧ c.Repeats x.2 ∧
      (¬ c.Equals x.2 ∨ c.Mistakes x.2.endSeq rest)

/-- The segment is taken for a retransmission of queued nodes that hold other bytes. -/
def Mistaken (c : Call) (nodes : List Node) : Prop :=
  c.Mistakes c.segSeq (nodes.dropWhile fun x => x.2.iSeq ≠ c.segSeq)
end Call

variable {c : Call} {sos : SegmentOverlapState} {calls : List Call}

/-- A segment that starts in the receive window. -/
structure Call.Ahead (w : BitVec 32) (c : Call) : Prop extends c.Plain w where
  ahead : ¬ seqGt c.rWinBase c.segSeq

namespace Call.Ahead
variable (h : c.Ahead w)
include h

theorem synLen_eq : c.synLen = 0 := (offsets_of_not_syn h.syn).1

theorem offset_eq : c.offset = 0 := if_neg h.ahead

theorem skipped_eq : c.skipped = 0 := (offsets_of_not_syn h.syn).2.1 ▸ h.offset_eq
end Call.Ahead

/-- The arrival stands for the whole segment of the call. -/
structure Brings (w : BitVec 32) (c : Call) (arr : Arrival) : Prop where
  sends : ∀ s, c.Sends s ↔ arr.start ≤ pos w s ∧ pos w s < arr.dataEnd
  byte : ∀ s, c.Sends s → c.byteAt s = arr.byte (pos w s)

namespace Brings
variable {tsn : TcpSegment} (h : Brings w c arr)
include h

theorem equals_iff (hsound : tsn.Sound w) : c.Equals tsn ↔ arr.Equals w tsn := by
  have hbounds := arr.bounds
  constructor
  · intro heq p hlo hhi hstart hend
    have hpos : pos w (w + ofNat 32 p) = p := pos_origin_add (by omega)
    have hhas : tsn.Has (w + ofNat 32 p) := by
      rw [has_iff hsound.fin_lt, hpos]
      exact ⟨hlo, hhi⟩
    have hsends : c.Sends (w + ofNat 32 p) := by
      rw [h.sends, hpos]
      exact ⟨hstart, hend⟩
    have hbyte := heq _ hhas hsends
    rwa [hsound.byteAt_eq hhas, h.byte _ hsends, hpos] at hbyte
  · intro heq s hhas hsends
    have hs := (has_iff hsound.fin_lt).mp hhas
    have hs' := (h.sends s).mp hsends
    rw [hsound.byteAt_eq hhas, h.byte s hsends]
    exact heq _ hs.1 hs.2 hs'.1 hs'.2

theorem repeats_iff (hsound : tsn.Sound w) (hstart : arr.start ≤ tsn.start w) :
    c.Repeats tsn ↔ arr.Repeats w tsn := by
  have hbounds := arr.bounds
  have hraw : ∀ s, tsn.start w ≤ pos w s →
      tsn.data[(s - tsn.iSeq).toNat]? = tsn.rawByte w (pos w s) := by
    intro s hs
    rw [toNat_sub hs]
    rfl
  constructor
  · intro heq p hlo hhi hend
    have hpos : pos w (w + ofNat 32 p) = p := pos_origin_add (by omega)
    have hhas : tsn.Has (w + ofNat 32 p) := by
      rw [has_iff hsound.fin_lt, hpos]
      exact ⟨hlo, hhi⟩
    have hsends : c.Sends (w + ofNat 32 p) := by
      rw [h.sends, hpos]
      exact ⟨hstart.trans hlo, hend⟩
    have hbyte := heq _ hhas hsends
    rwa [hraw _ (by rw [hpos]; exact hlo), h.byte _ hsends, hpos] at hbyte
  · intro heq s hhas hsends
    have hs := (has_iff hsound.fin_lt).mp hhas
    rw [hraw s hs.1, h.byte s hsends]
    exact heq _ hs.1 hs.2 ((h.sends s).mp hsends).2

theorem mistakes_iff {l : List Node} (hl : ∀ x ∈ l, x.2.Sound w) {seq : BitVec 32}
    (hseq : arr.start ≤ pos w seq) : c.Mistakes seq l ↔ arr.Mistakes w (pos w seq) l := by
  induction l generalizing seq with
  | nil => exact Iff.rfl
  | cons x l ih =>
    obtain ⟨hx, hl⟩ := forall_mem_cons.mp hl
    unfold Call.Mistakes Arrival.Mistakes
    rw [← pos_inj (o := w)]
    refine and_congr_right fun hstart => ?_
    have hstart : x.2.start w = pos w seq := hstart
    rw [h.sends, and_iff_right hseq, h.repeats_iff hx (hstart ▸ hseq), h.equals_iff hx,
      ih hl (by rw [hx.pos_endSeq]; have := hx.start_lt; omega), hx.pos_endSeq]
end Brings

theorem brings_of_carries (hc : c.Ahead w)
    (harr : Carries sos arr (pos w c.segSeq + c.offset) (c.payload.drop c.offset) c.synLen) :
    arr.start = pos w c.segSeq ∧ Brings w c arr := by
  have hoffset := hc.offset_eq
  have hstart : arr.start = pos w c.segSeq := by
    rw [harr.start, hoffset]
    rfl
  have hend : arr.dataEnd = pos w c.segSeq + c.payload.length := by
    unfold dataEnd len
    rw [harr.payload, hstart, hoffset]
    rfl
  have hsends : ∀ s, c.Sends s ↔ arr.start ≤ pos w s ∧ pos w s < arr.dataEnd := by
    intro s
    rw [hc.toInWindow.sends_iff, hc.synLen_eq, hc.skipped_eq, hstart, hend]
    rfl
  refine ⟨hstart, hsends, fun s hs => ?_⟩
  rw [hc.byteAt_eq hs]
  exact (harr.byte_eq hc.syn ((hsends s).mp hs).1).symm

/-- A call replaces all bytes that it sends, unless it is mistaken for a retransmission. -/
theorem Outcome.last (h : Outcome w tcpReassemblerLast sos c nodes nodes')
    (hplaced : Placed w nodes)
    (hst : AllStored nodes) (hc : c.Ahead w) (hpol : sos.reassemblyPolicy = .osLast) :
    (∀ x ∈ nodes', ∀ s, x.2.Has s → ¬ c.Sends s →
      ∃ y ∈ nodes, y.2.Has s ∧ x.2.byteAt s = y.2.byteAt s) ∧
      ((∀ x ∈ nodes', c.Equals x.2) ↔ ¬ c.Mistaken nodes) := by
  have hplaced' := h.placed hplaced
  have hlen := hc.nonempty
  cases h with
  | old hold _ =>
    have hoffset := hc.offset_eq
    have hempty := (offsets_of_not_syn hc.syn).2.2.trans hc.skipped_eq
    omega
  | empty hnil hlt arr harr v' hins heq =>
    have hkept : Kept w arr [] v'.nodes := hins.kept
      ⟨fun x hx => absurd hx not_mem_nil, fun x hx => absurd hx not_mem_nil⟩
      (Nat.le_add_right _ _) (fun _ => rfl) le_rfl
    have hnew := fun x hx => (hkept.new x hx).resolve_left not_mem_nil
    have hsends : ∀ x ∈ nodes', ∀ s, x.2.Has s → c.Sends s := by
      intro x hx s hs
      have hs := (has_iff (hplaced'.sound x hx).fin_lt).mp hs
      have hx := hnew x (heq ▸ hx)
      have hend : arr.dataEnd = arr.start + c.payload.length := by
        unfold dataEnd len
        rw [harr.payload]
      have hlo := hx.start
      have hhi := hx.fin
      have hstart := harr.start
      rw [hc.sends_iff, hc.skipped_eq]
      omega
    refine ⟨fun x hx s hs hnot => absurd (hsends x hx s hs) hnot, iff_of_true ?_ ?_⟩
    · intro x hx s hs hsend
      have hpos := (has_iff (hplaced'.sound x hx).fin_lt).mp hs
      rw [(hplaced'.sound x hx).byteAt_eq hs, hc.byteAt_eq hsend]
      exact ((hnew x (heq ▸ hx)).agrees _ hpos.1 hpos.2).trans harr.byte_eq_of_empty
    · rw [hnil]
      exact id
  | edit hne hlt arr harr hedit =>
    obtain ⟨hstart, hbrings⟩ := brings_of_carries hc harr
    have hpayload : 0 < arr.len := by
      unfold len
      rw [harr.payload, hc.offset_eq]
      exact hlen
    obtain ⟨hold, hiff⟩ := hedit.overwrites hplaced hst (harr.syn.trans hc.synLen_eq) hpayload
      (harr.policy.symm.trans hpol)
    refine ⟨fun x hx s hs hnot => ?_, ?_⟩
    · have hpos := (has_iff (hplaced'.sound x hx).fin_lt).mp hs
      rcases hold x hx _ hpos.1 hpos.2 with hin | ⟨y, hy, hlo, hhi, hbyte⟩
      · exact absurd ((hbrings.sends s).mpr hin) hnot
      · have hys : y.2.Has s := (has_iff (hplaced.sound y hy).fin_lt).mpr ⟨hlo, hhi⟩
        refine ⟨y, hy, hys, ?_⟩
        rw [(hplaced'.sound x hx).byteAt_eq hs, (hplaced.sound y hy).byteAt_eq hys]
        exact hbyte
    · have heach : (∀ x ∈ nodes', c.Equals x.2) ↔ ∀ x ∈ nodes', arr.Equals w x.2 :=
        forall₂_congr fun x hx => hbrings.equals_iff (hplaced'.sound x hx)
      rw [heach, hiff, Call.Mistaken, hbrings.mistakes_iff (fun x hx =>
        hplaced.sound x ((dropWhile_sublist _).subset hx)) hstart.le, ← hstart]
      have hdrop : (nodes.dropWhile fun x => x.2.iSeq ≠ c.segSeq) =
          nodes.dropWhile fun x => x.2.start w ≠ arr.start := by
        congr 1
        funext x
        rw [hstart]
        exact decide_eq_decide.mpr (not_congr pos_inj.symm)
      rw [hdrop]

/-- The list holds what was sent last. -/
def HoldsLast (calls : List Call) (nodes : List Node) : Prop :=
  ∀ x ∈ nodes, ∀ s, x.2.Has s → lastSent calls s = some (x.2.byteAt s)

theorem HoldsLast.call_iff (h : HoldsLast calls nodes)
    (hout : Outcome w tcpReassemblerLast sos c nodes nodes') (hplaced : Placed w nodes)
    (hst : AllStored nodes) (hc : c.Ahead w) (hpol : sos.reassemblyPolicy = .osLast) :
    HoldsLast (calls ++ [c]) nodes' ↔ ¬ c.Mistaken nodes := by
  obtain ⟨hold, hiff⟩ := hout.last hplaced hst hc hpol
  rw [← hiff]
  unfold HoldsLast lastSent at *
  simp only [WriteHistory.last_concat]
  constructor
  · intro hlast x hx s hs hsends
    have hbyte := hlast x hx s hs
    rw [if_pos hsends] at hbyte
    exact (some.inj hbyte).symm
  · intro heq x hx s hs
    by_cases hsends : c.Sends s
    · rw [if_pos hsends, heq x hx s hs hsends]
    · obtain ⟨y, hy, hys, hbyte⟩ := hold x hx s hs hsends
      rw [if_neg hsends, hbyte]
      exact h y hy s hys

/-- Every run returns, and the bytes of the list are those sent last as long as no segment was
mistaken. -/
theorem ran_holdsLast (trimWin : NormMode) (hcalls : ∀ c ∈ calls, c.Ahead w) :
    ∃ trs nodes, Ran w tcpReassemblerLast (.init .osLast .test trimWin) calls trs nodes ∧
      ((∀ pre, pre <+: calls → ∃ trs nodes,
        Ran w tcpReassemblerLast (.init .osLast .test trimWin) pre trs nodes ∧
        HoldsLast pre nodes) ↔
      ∀ pre c, pre ++ [c] <+: calls → ∀ trs nodes,
        Ran w tcpReassemblerLast (.init .osLast .test trimWin) pre trs nodes →
          ¬ c.Mistaken nodes) := by
  induction calls using List.reverseRecOn with
  | nil =>
    refine ⟨_, _, Ran.init, iff_of_true ?_ ?_⟩
    · intro pre hpre
      obtain rfl := prefix_nil.mp hpre
      exact ⟨_, _, Ran.init, fun x hx => absurd hx not_mem_nil⟩
    · intro pre c hpre
      have hnil := prefix_nil.mp hpre
      exact absurd hnil (append_ne_nil_of_right_ne_nil _ (cons_ne_nil _ _))
  | append_singleton calls c ih =>
    have hbefore : ∀ d ∈ calls, d.Ahead w := fun d hd => hcalls d (mem_append_left _ hd)
    have hc : c.Ahead w := hcalls c (mem_append_right _ mem_cons_self)
    obtain ⟨trs, nodes, hran, hiff⟩ := ih hbefore
    obtain ⟨trs', nodes', hran', hout⟩ := hran.call hc.toPlain
    refine ⟨trs', nodes', hran', ?_⟩
    simp only [prefix_concat_iff]
    constructor
    · intro hlast pre d hpre trs₁ nodes₁ hran₁
      have hlast' : HoldsLast calls nodes := by
        obtain ⟨trs₂, nodes₂, hran₂, hlast₂⟩ := hlast calls (.inr (prefix_refl _))
        rwa [← (hran.unique hran₂).2] at hlast₂
      rcases hpre with heq | hpre
      · obtain ⟨rfl, hd⟩ := append_inj' heq rfl
        obtain rfl := singleton_inj.mp hd
        obtain ⟨trs₂, nodes₂, hran₂, hlast₂⟩ := hlast (pre ++ [d]) (.inl rfl)
        rw [← (hran'.unique hran₂).2] at hlast₂
        rw [← (hran.unique hran₁).2]
        exact (hlast'.call_iff hout hran.placed hran.stored hc rfl).mp hlast₂
      · exact hiff.mp (fun pre hpre => hlast pre (.inr hpre)) pre d hpre trs₁ nodes₁ hran₁
    · intro hnever pre hpre
      have hbefore := hiff.mpr fun pre d hpre => hnever pre d (.inr hpre)
      rcases hpre with rfl | hpre
      · obtain ⟨trs₂, nodes₂, hran₂, hlast₂⟩ := hbefore calls (prefix_refl _)
        rw [← (hran.unique hran₂).2] at hlast₂
        refine ⟨trs', nodes', hran', ?_⟩
        exact (hlast₂.call_iff hout hran.placed hran.stored hc rfl).mpr
          (hnever calls c (.inl rfl) trs nodes hran)
      · exact hbefore pre hpre

/-- Under the policy `LAST`, along a run of calls of one window at or behind the receive window,
the list holds for every sequence number the byte that was sent last if and only if no segment is
taken for a retransmission of nodes that hold other bytes. -/
theorem last_data_wins_iff (trimWin : NormMode) (calls : List Call)
    (hcalls : ∀ c ∈ calls, c.InWindow w ∧ c.payload.length ≤ 32767 ∧ c.Accepted .osLast ∧
      ¬ seqGt c.rWinBase c.segSeq) :
    (∀ pre, pre <+: calls → ∃ trs nodes,
      (TcpReassembler.create .test .osLast).calls (.init .osLast .test trimWin) pre = some trs ∧
        WellFormed trs nodes ∧ HoldsLast pre nodes) ↔
    ∀ pre c, pre ++ [c] <+: calls → ∀ trs nodes,
      (TcpReassembler.create .test .osLast).calls (.init .osLast .test trimWin) pre = some trs →
        trs.seglist.Holds nodes → ¬ c.Mistaken nodes := by
  have hahead : ∀ c ∈ calls, c.Ahead w := by
    intro c hc
    obtain ⟨hwin, hlen, haccepted, hge⟩ := hcalls c hc
    have hsyn : c.syn = false := by
      by_contra hsyn
      cases haccepted (Bool.not_eq_false _ ▸ hsyn)
    exact ⟨⟨hwin, hsyn, by omega⟩, hge⟩
  obtain ⟨-, -, -, hiff⟩ := ran_holdsLast trimWin hahead
  -- the state and the nodes of a run are those of the model
  have hran : ∀ pre, pre <+: calls → ∃ trs nodes,
      Ran w tcpReassemblerLast (.init .osLast .test trimWin) pre trs nodes := by
    intro pre hpre
    obtain ⟨trs, nodes, hran, -⟩ :=
      ran_holdsLast trimWin fun c hc => hahead c (hpre.subset hc)
    exact ⟨trs, nodes, hran⟩
  constructor
  · intro hlast pre c hpre trs nodes hrun hholds
    have hpre' : pre <+: calls := (prefix_append _ _).trans hpre
    obtain ⟨trs₁, nodes₁, hran₁⟩ := hran pre hpre'
    obtain rfl : trs₁ = trs := some.inj (hran₁.run.symm.trans hrun)
    obtain rfl := hran₁.holds.unique hholds
    refine hiff.mp (fun pre hpre => ?_) pre c hpre _ _ hran₁
    obtain ⟨trs₂, nodes₂, hran₂⟩ := hran pre hpre
    obtain ⟨trs₃, nodes₃, hrun₃, hwf₃, hlast₃⟩ := hlast pre hpre
    obtain rfl : trs₂ = trs₃ := some.inj (hran₂.run.symm.trans hrun₃)
    obtain rfl := hran₂.holds.unique hwf₃.holds
    exact ⟨_, _, hran₂, hlast₃⟩
  · intro hnever pre hpre
    obtain ⟨trs, nodes, hran, hlast⟩ := hiff.mpr
      (fun pre c hpre trs nodes hran => hnever pre c hpre trs nodes hran.run hran.holds) pre hpre
    exact ⟨trs, nodes, hran.run, hran.wellFormed, hlast⟩

/-- The second segment overlaps the begin of the first one and replaces two of its bytes. -/
theorem last_data_wins_overlap :
    let calls : List Call := [⟨0, 10, false, [97, 98, 99, 100]⟩,
      ⟨0, 8, false, [119, 120, 121, 122]⟩]
    ∃ trs nodes, (TcpReassembler.create .test .osLast).calls (.init .osLast .test .test) calls =
        some trs ∧ WellFormed trs nodes ∧ HoldsLast calls nodes := by
  intro calls
  refine (last_data_wins_iff (w := 0) .test calls ?_).mpr ?_ calls (prefix_refl _)
  · intro c hc
    rcases mem_pair.mp hc with rfl | rfl
    · exact ⟨⟨by decide, by decide, by decide⟩, by decide, by decide, by decide⟩
    · exact ⟨⟨by decide, by decide, by decide⟩, by decide, by decide, by decide⟩
  · intro pre c hpre trs nodes hrun hholds
    match pre, hpre with
    | [], hpre =>
      obtain rfl := some.inj hrun
      rw [hholds.unique TcpSegmentList.holds_empty]
      exact id
    | [d], hpre =>
      obtain ⟨rfl, hrest⟩ := cons_prefix_cons.mp hpre
      obtain ⟨rfl, -⟩ := cons_prefix_cons.mp hrest
      have htrs := congrArg (Option.getD · (.init .osLast .test .test)) hrun
      rw [Option.getD_some] at htrs
      subst htrs
      obtain rfl : nodes = [(0, ⟨[97, 98, 99, 100], 10, 10, 4, 4, 0⟩)] :=
        hholds.unique ⟨⟨by decide +kernel, trivial⟩, by decide, by decide +kernel,
          by decide +kernel, by decide +kernel, by decide +kernel⟩
      exact id
    | d :: e :: pre, hpre =>
      have hlen := hpre.length_le
      simp [calls] at hlen

/-- Four bytes are queued, the first two are replaced by a second segment, and a third one
brings new bytes for the other two, equal to those that were replaced. -/
theorem mistaken_retransmission :
    (((TcpReassembler.create .test .osLast).calls (.init .osLast .test .test)
        [⟨0, 10, false, [97, 98, 99, 100]⟩, ⟨0, 8, false, [119, 120, 121, 122]⟩,
          ⟨0, 12, false, [97, 98]⟩]).bind fun trs => trs.seglist.heap 0).map
      (fun cell => (cell.val.iSeq, cell.val.iLen, cell.val.byteAt 12)) = some (12, 2, some 99) ∧
    lastSent [⟨0, 10, false, [97, 98, 99, 100]⟩, ⟨0, 8, false, [119, 120, 121, 122]⟩,
      ⟨0, 12, false, [97, 98]⟩] 12 = some (some 97) := by
  decide +kernel
end Snort.Tcp
