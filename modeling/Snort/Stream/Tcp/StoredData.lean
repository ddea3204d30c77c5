import Snort.Stream.Tcp.Coverage

/-!
# The data behind the nodes

A node is to hold only bytes that its data has. The insertion keeps this, with
one exception: when a SYN with data is stored in several parts, the part that
ends one position too early may be empty; then `trim_win` takes the payload of
the packet away, and the parts behind it are stored from an empty packet.
-/

namespace Snort.Tcp
open List Serial Arrival TcpReassembler

def AllStored (nodes : List Node) : Prop := ∀ x ∈ nodes, x.2.Stored

theorem allStored_nodes {v : EditView} :
    AllStored v.nodes ↔ AllStored v.before ∧ AllStored v.after := by
  unfold AllStored EditView.nodes
  simp only [mem_reverse_append, or_imp, forall_and]

theorem allStored_cons {x : Node} {l : List Node} :
    AllStored (x :: l) ↔ x.2.Stored ∧ AllStored l := by
  unfold AllStored
  rw [forall_mem_cons]

variable {w : BitVec 32} {arr : Arrival} {v v' : EditView} {r : TcpReassembler}

/-! ## Where the packet keeps its payload -/

variable {nodes : List Node} {hi : ℕ} {tcpIpsData : NormMode} {pol : StreamPolicy}
  {calls : List Call} {trs : TcpReassemblerState}

theorem LeftStep.allStored {left : LeftOverlap}
    (h : LeftStep w arr left v v') (hplaced : Placed w nodes) (hstart : Starts w arr nodes v)
    (hst : AllStored nodes) : AllStored v'.nodes := by
  obtain rfl := hstart.nodes
  have hseq := hstart.seq
  rw [allStored_nodes] at hst ⊢
  cases h with
  | pass _ heq => exact heq ▸ hst
  | keepOld x before hb _ _ _ heq => exact heq ▸ hst
  | cutOld a tsn before overlap hb hlt hfin _ hoverlap heq =>
    have hx : tsn.start w < v.seq := hseq ▸ hstart.before (a, tsn) (hb ▸ mem_cons_self)
    have hsound : tsn.Sound w := hplaced.sound (a, tsn)
      (EditView.nodes_cons hb ▸ mem_append_right _ mem_cons_self)
    rw [hb, allStored_cons] at hst
    subst heq
    exact ⟨allStored_cons.mpr ⟨(hsound.cutTail hx hlt.le hoverlap).2.2.2 hst.1.1, hst.1.2⟩, hst.2⟩
  | splitOld a b tsn before overlap seq delta hb hlt hfin _ hoverlap hseq' hdelta heq =>
    have hx : tsn.start w < v.seq := hseq ▸ hstart.before (a, tsn) (hb ▸ mem_cons_self)
    have hsound : tsn.Sound w := hplaced.sound (a, tsn)
      (EditView.nodes_cons hb ▸ mem_append_right _ mem_cons_self)
    have hle : arr.start ≤ arr.dataEnd := Nat.le_add_right _ _
    obtain ⟨hdup, hdstart, hdfin, hdst⟩ := hsound.dupNode
    obtain ⟨-, -, -, hst₂⟩ := hdup.cutHead (by omega) (by omega) hseq'
      (by rw [hdstart]; exact hdelta)
    rw [hb, allStored_cons] at hst
    subst heq
    exact ⟨allStored_cons.mpr ⟨(hsound.cutTail hx hlt.le hoverlap).2.2.2 hst.1.1, hst.1.2⟩,
      allStored_cons.mpr ⟨hst₂ (hdst hst.1.1), hst.2⟩⟩

/-- The nodes are stored, and the packet still has its payload if it can be stored at all. -/
structure Supplied (w : BitVec 32) (arr : Arrival) (v : EditView) : Prop extends Sits w arr v where
  stored : AllStored v.nodes
  dsize : arr.len < 2 ^ 15 → v.dsize = arr.len

theorem Insert.allStored (h : Insert w arr v hi v') (hst : AllStored v.nodes)
    (hdsize : arr.len < 2 ^ 15 → v.dsize = arr.len) (hhi : hi ≤ arr.dataEnd) :
    AllStored v'.nodes := by
  have hend := arr.dataEnd_eq
  rw [allStored_nodes] at hst ⊢
  cases h with
  | store node hshort _ _ _ _ hstored _ heq =>
    subst heq
    have hd := hdsize hshort
    exact ⟨allStored_cons.mpr ⟨hstored.mpr (by omega), hst.1⟩, hst.2⟩
  | discard _ heq => exact heq ▸ hst

/-- Only a part that is one position short of the gap it is for can be empty. -/
theorem RightStep.supplied {full : FullOverlap} (h : RightStep w arr full v v')
    (hsup : Supplied w arr v)
    (hno : full = .os5 → arr.trims = true → arr.syn = 1 → ¬ arr.len < 2 ^ 15) :
    Supplied w arr v' := by
  have hsits := h.sits hsup.toSits
  have hst := hsup.stored
  have hdsize := hsup.dsize
  have hsyn := arr.syn_le
  have hle : arr.stop = arr.dataEnd + arr.syn := rfl
  rw [allStored_nodes] at hst
  cases h with
  | resent x after hafter _ _ _ _ _ _ heq =>
    rw [hafter, allStored_cons] at hst
    subst heq
    exact ⟨hsits, allStored_nodes.mpr ⟨allStored_cons.mpr ⟨hst.2.1, hst.1⟩, hst.2.2⟩, hdsize⟩
  | skip x after hafter _ _ _ _ _ _ _ heq =>
    rw [hafter, allStored_cons] at hst
    subst heq
    exact ⟨hsits, allStored_nodes.mpr ⟨allStored_cons.mpr ⟨hst.2.1, hst.1⟩, hst.2.2⟩, hdsize⟩
  | drop x after hafter _ _ _ _ heq =>
    rw [hafter, allStored_cons] at hst
    subst heq
    exact ⟨hsits, allStored_nodes.mpr ⟨hst.1, hst.2.2⟩, hdsize⟩
  | chunk x after hafter hstart hfin hfull v₁ hins heq =>
    have hlt := (hsup.next hafter).2
    have hst₁ := hins.allStored hsup.stored hdsize (by omega)
    rw [allStored_nodes, hins.after_eq, hafter, allStored_cons] at hst₁
    have hdsize₁ : arr.len < 2 ^ 15 → v₁.dsize = arr.len := by
      intro hshort
      cases hins with
      | store _ _ _ _ _ _ _ _ heq => exact heq ▸ hdsize hshort
      | discard hnone heq =>
        have htrims : arr.trims = false := by
          by_contra htrims
          rw [Bool.not_eq_false] at htrims
          have hsyn1 : arr.syn ≠ 1 := fun hsyn => hno hfull htrims hsyn hshort
          exact hnone ⟨hshort, by omega⟩
        rw [heq, htrims]
        exact hdsize hshort
    rw [heq] at hsits ⊢
    exact ⟨hsits, allStored_nodes.mpr ⟨allStored_cons.mpr ⟨hst₁.2.1, hst₁.1⟩, hst₁.2.2⟩, hdsize₁⟩

theorem RightStop.supplied {right : RightOverlap} (h : RightStop w arr right v v')
    (hsup : Supplied w arr v) :
    AllStored v'.nodes ∧ (arr.len < 2 ^ 15 → v'.dsize = arr.len) := by
  have hst := hsup.stored
  have hdsize := hsup.dsize
  rw [allStored_nodes] at hst ⊢
  cases h with
  | resent _ _ _ _ _ _ _ heq => exact heq ▸ ⟨hst, hdsize⟩
  | truncNew _ _ _ _ _ _ _ heq => exact heq ▸ ⟨hst, hdsize⟩
  | passOver _ _ _ _ _ _ _ heq => exact heq ▸ ⟨hst, hdsize⟩
  | cutOld a tsn after seq delta hafter hstart hlt hfin _ _ _ hseq hdelta heq =>
    have hsound : tsn.Sound w := hsup.placed.sound (a, tsn)
      (mem_reverse_append.mpr (.inr (hafter ▸ mem_cons_self)))
    rw [hafter, allStored_cons] at hst
    subst heq
    exact ⟨⟨hst.1, allStored_cons.mpr
      ⟨(hsound.cutHead hlt.le hfin hseq hdelta).2.2.2 hst.2.1, hst.2.2⟩⟩, hdsize⟩

theorem Edit.allStored {nodes' : List Node} (h : Edit w arr r nodes nodes')
    (hplaced : Placed w nodes) (hst : AllStored nodes)
    (hno : r.full = .os5 → arr.trims = true → arr.syn = 1 → ¬ arr.len < 2 ^ 15) :
    AllStored nodes' := by
  obtain ⟨v₀, v₁, v₂, v₃, hstart, hleft, hright, hfinish, rfl⟩ := h
  have hdsize := hleft.frame.dsize
  have hsup : Supplied w arr v₁ := ⟨hleft.sits hplaced hstart, hleft.allStored hplaced hstart hst,
    fun _ => hdsize.trans hstart.dsize⟩
  have hlast : AllStored v₂.nodes ∧ (arr.len < 2 ^ 15 → v₂.dsize = arr.len) := by
    rcases hright.rule (P := Supplied w arr) (fun _ _ hv hstep => hstep.supplied hv hno) hsup with
      ⟨hend, -⟩ | ⟨u, hu, hstop⟩
    · exact ⟨hend.stored, hend.dsize⟩
    · exact hstop.supplied hu
  cases hfinish with
  | insert _ hins => exact hins.allStored hlast.1 hlast.2 (Nat.sub_le _ _)
  | leave _ heq => exact heq ▸ hlast.1

/-! ## Where the payload is taken away -/

/-- Two positions next to each other are free. -/
def WideGap (C : ℕ → Prop) (lo stop : ℕ) : Prop :=
  ∃ q, lo ≤ q ∧ q + 1 < stop ∧ ¬ C q ∧ ¬ C (q + 1)

/-- A gap of one position, and behind it a wide gap. -/
def NarrowGap (C : ℕ → Prop) (lo stop : ℕ) : Prop :=
  ∃ p q, lo ≤ p ∧ p + 1 < q ∧ q + 1 < stop ∧ ¬ C p ∧ C (p + 1) ∧ (p = lo ∨ C (p - 1)) ∧
    ¬ C q ∧ ¬ C (q + 1)

section Gaps
variable {C D : ℕ → Prop} {lo s f stop : ℕ} (hlt : s < f) (hC : ∀ p, C p ↔ (s ≤ p ∧ p < f) ∨ D p)
include hlt hC

/-- At most one free position in front of a piece makes no wide gap. -/
theorem wideGap_narrow (hlo : lo ≤ s) (hgap : s ≤ lo + 1) :
    WideGap C lo stop ↔ WideGap D f stop := by
  unfold WideGap
  constructor
  · rintro ⟨q, hq, hstop, hq0, hq1⟩
    simp only [hC] at *
    exact ⟨q, by grind, hstop, by grind, by grind⟩
  · rintro ⟨q, hq, hstop, hq0, hq1⟩
    simp only [hC]
    exact ⟨q, by grind, hstop, by grind, by grind⟩

theorem narrowGap_narrow (hD : ∀ p, D p → f ≤ p) (hgap : lo + 1 = s) :
    NarrowGap C lo stop ↔ WideGap D f stop := by
  constructor
  · rintro ⟨p, q, hp, hpq, hstop, hp0, hp1, hp2, hq0, hq1⟩
    simp only [hC] at *
    exact ⟨q, by grind, hstop, by grind, by grind⟩
  · rintro ⟨q, hq, hstop, hq0, hq1⟩
    have hlo := hD lo
    refine ⟨lo, q, le_rfl, by omega, hstop, ?_, ?_, .inl rfl, ?_, ?_⟩
    · grind
    · grind
    · grind
    · grind

theorem narrowGap_wide (hlo : lo ≤ s) (hgap : lo + 1 ≠ s) (hD : lo < s → ∀ p, D p → f ≤ p) :
    NarrowGap C lo stop ↔ NarrowGap D f stop := by
  unfold NarrowGap
  constructor
  · rintro ⟨p, q, hp, hpq, hstop, hp0, hp1, hp2, hq0, hq1⟩
    have h1 := fun hlt => hD hlt (p + 1)
    have h2 := fun hlt => hD hlt (p - 1)
    simp only [hC] at *
    exact ⟨p, q, by grind, hpq, hstop, by grind, by grind, by grind, by grind, by grind⟩
  · rintro ⟨p, q, hp, hpq, hstop, hp0, hp1, hp2, hq0, hq1⟩
    simp only [hC]
    exact ⟨p, q, by grind, hpq, hstop, by grind, by grind, by grind, by grind, by grind⟩

omit hlt hC in
theorem narrowGap_skip {hi : ℕ} (hlo : lo ≤ hi) (hcov : ∀ p, lo ≤ p → p < hi → C p)
    (hD : hi + 2 < stop → ∀ p, hi ≤ p → p < stop → (C p ↔ D p)) :
    NarrowGap C lo stop ↔ NarrowGap D hi stop := by
  constructor
  · rintro ⟨p, q, hp, hpq, hstop, hp0, hp1, hp2, hq0, hq1⟩
    have hhi : hi ≤ p := not_lt.mp fun hlt => hp0 (hcov p hp hlt)
    exact ⟨p, q, hhi, hpq, hstop, by grind, by grind, by grind, by grind, by grind⟩
  · rintro ⟨p, q, hp, hpq, hstop, hp0, hp1, hp2, hq0, hq1⟩
    exact ⟨p, q, by omega, hpq, hstop, by grind, by grind, by grind, by grind, by grind⟩

omit hlt hC in
theorem narrowGap_shift {k : ℕ} :
    NarrowGap C (k + lo) (k + stop) ↔ NarrowGap (fun i => C (k + i)) lo stop := by
  constructor
  · rintro ⟨p, q, hp, hpq, hstop, hp0, hp1, hp2, hq0, hq1⟩
    refine ⟨p - k, q - k, by omega, by omega, by omega, ?_, ?_, ?_, ?_, ?_⟩ <;> grind
  · rintro ⟨p, q, hp, hpq, hstop, hp0, hp1, hp2, hq0, hq1⟩
    refine ⟨k + p, k + q, by omega, by omega, by omega, ?_, ?_, ?_, ?_, ?_⟩ <;> grind
end Gaps

/-- The editor that stores a SYN with data in several parts. -/
structure Parting (w : BitVec 32) (arr : Arrival) (v : EditView) : Prop extends Sits w arr v where
  trunc : v.trunc = 0
  keep : v.keep = true ∨ arr.dataEnd ≤ v.seq
  dsize : v.dsize = arr.len ∨ v.dsize = 0

/-- The gaps ahead in which a part would be stored from an empty packet. -/
def Harmless (w : BitVec 32) (arr : Arrival) (v : EditView) : Prop :=
  (v.dsize = 0 → ¬ WideGap (CoversAt w v.after) v.seq arr.stop) ∧
    (v.dsize = arr.len → ¬ NarrowGap (CoversAt w v.after) v.seq arr.stop)

theorem Insert.stored_iff (h : Insert w arr v hi v') (hparting : Parting w arr v)
    (hshort : arr.len < 2 ^ 15) (hhi : hi ≤ arr.dataEnd) :
    AllStored v'.nodes ↔ AllStored v.nodes ∧ (v.seq < hi → v.dsize ≠ 0) := by
  have hend := arr.dataEnd_eq
  have hle := hparting.start_le
  have hdsize := hparting.dsize
  rw [allStored_nodes, allStored_nodes]
  cases h with
  | store node _ hlt _ _ _ hstored _ heq =>
    subst heq
    have hnode : node.2.Stored ↔ v.dsize ≠ 0 := by
      rw [hstored]
      omega
    simp only [allStored_cons, hnode]
    grind
  | discard hnone heq =>
    subst heq
    grind

theorem LeftStep.nodes_eq (h : LeftStep w arr .keepFirst v v') : v'.nodes = v.nodes := by
  cases h with
  | pass _ heq => rw [heq]
  | keepOld _ _ _ _ _ _ heq =>
    rw [heq]
    rfl
  | cutOld _ _ _ _ _ _ _ hleft _ _ => exact absurd rfl hleft
  | splitOld _ _ _ _ _ _ _ _ _ _ hleft _ _ _ _ => cases hleft

section Parts
variable (htrims : arr.trims = true) (hsyn : arr.syn = 1) (hshort : arr.len < 2 ^ 15)
  (hlen : 0 < arr.len)

theorem Parting.pass {x : Node} {after : List Node} (h : Parting w arr v)
    (hafter : v.after = x :: after) (hstart : x.2.start w = v.seq)
    (hbefore : v'.before = x :: v.before)
    (hafter' : v'.after = after) (hseq : v'.seq = x.2.fin w) (hdsize : v'.dsize = v.dsize) :
    AllStored v'.nodes ∧ Harmless w arr v' ↔ AllStored v.nodes ∧ Harmless w arr v := by
  have hlt := (h.next hafter).2
  have hcov : ∀ p, CoversAt w v.after p ↔ (v.seq ≤ p ∧ p < x.2.fin w) ∨ CoversAt w after p := by
    intro p
    rw [hafter, ← hstart]
    exact IntervalList.covers_cons
  unfold Harmless
  rw [allStored_nodes, allStored_nodes, hdsize, hbefore, hafter', hseq,
    wideGap_narrow (hstart ▸ hlt) hcov le_rfl (by omega),
    narrowGap_wide (hstart ▸ hlt) hcov le_rfl (by omega) fun hlt => absurd hlt (lt_irrefl _),
    hafter,
    allStored_cons, allStored_cons]
  grind

include htrims hsyn hshort hlen

theorem RightStep.parts (h : RightStep w arr .os5 v v') (hparting : Parting w arr v) :
    Parting w arr v' ∧
      (AllStored v'.nodes ∧ Harmless w arr v' ↔ AllStored v.nodes ∧ Harmless w arr v) := by
  have hsits := h.sits hparting.toSits
  have hkeep := hparting.keep
  have hstop : arr.stop = arr.dataEnd + 1 := by
    unfold stop dataEnd
    omega
  cases h with
  | resent x after hafter hstart _ hfin _ keep hkeep' heq =>
    have hlt := (hparting.next hafter).2
    refine ⟨⟨hsits, ?_, ?_, ?_⟩, ?_⟩
    · rw [heq]
    · subst heq
      grind
    · rw [heq]
      exact hparting.dsize
    · rw [heq]
      exact hparting.pass hafter hstart rfl rfl rfl rfl
  | skip x after hafter hstart hfin _ trunc _ htrunc _ heq =>
    have hlt := (hparting.next hafter).2
    refine ⟨⟨hsits, ?_, ?_, ?_⟩, ?_⟩
    · subst heq
      exact htrunc.resolve_right fun h => nomatch h.1
    · subst heq
      grind
    · rw [heq]
      exact hparting.dsize
    · rw [heq]
      exact hparting.pass hafter hstart rfl rfl rfl rfl
  | drop x after hafter hstart hfin hfull _ heq => exact absurd rfl hfull
  | chunk x after hafter hstart hfin hfull v₁ hins heq =>
    have hlt := (hparting.next hafter).2
    obtain ⟨-, hr⟩ := hparting.around hafter
    have hst := hins.stored_iff hparting hshort (by omega)
    have hafter₁ := hins.after_eq
    have hkeep₁ := hins.keep_eq
    have hdsize₁ : v₁.dsize = if v.seq < x.2.start w - 1 then v.dsize else 0 := by
      cases hins with
      | store _ _ hlt _ _ _ _ _ heq => rw [heq, if_pos (hsyn ▸ hlt)]
      | discard hnone heq =>
        rw [heq, if_neg fun hlt => hnone ⟨hshort, hsyn ▸ hlt⟩, htrims]
        rfl
    have hcov : ∀ p, CoversAt w v.after p ↔
        (x.2.start w ≤ p ∧ p < x.2.fin w) ∨ CoversAt w after p := by
      intro p
      rw [hafter]
      exact IntervalList.covers_cons
    have hdsize := hparting.dsize
    rw [heq] at hsits ⊢
    refine ⟨⟨hsits, rfl, ?_, ?_⟩, ?_⟩
    · rw [hkeep₁]
      exact hkeep.imp id fun hge => hge.trans (hstart.trans hlt).le
    · rw [hdsize₁]
      split
      · exact hdsize
      · exact .inr rfl
    · have hnodes : AllStored v.nodes ∧ (v.seq < x.2.start w - 1 → v.dsize ≠ 0) ↔
          AllStored (x :: v₁.before) ∧ AllStored after := by
        rw [← hsyn, ← hst, allStored_nodes, hafter₁, hafter, allStored_cons, allStored_cons]
        grind
      unfold Harmless
      rw [allStored_nodes]
      simp only [← hnodes, hdsize₁]
      by_cases hwide : v.seq < x.2.start w - 1
      · -- the part is stored
        have hgap : WideGap (CoversAt w v.after) v.seq arr.stop :=
          ⟨v.seq, le_rfl, by omega, by grind, by grind⟩
        rw [narrowGap_wide hlt hcov hstart.le (by omega) fun _ => hr]
        simp only [if_pos hwide]
        grind
      · -- the part is empty
        rw [wideGap_narrow hlt hcov (by omega) (by omega), narrowGap_narrow hlt hcov hr (by omega)]
        simp only [if_neg hwide]
        grind

omit htrims hlen in
theorem Parting.finish (h : Parting w arr v)
    (hstop : ∀ x ∈ v.after.head?, arr.stop ≤ x.2.start w) (hfinish : Finish w arr v v') :
    AllStored v'.nodes ↔ AllStored v.nodes ∧ Harmless w arr v := by
  have hge := h.after_ge hstop
  have hafter : ∀ p, CoversAt w v.after p → arr.stop ≤ p := by
    rintro p ⟨x, hx, hp, -⟩
    exact (hge x hx).trans hp
  have hstopEq : arr.stop = arr.dataEnd + 1 := by
    unfold stop dataEnd
    omega
  have hwide : WideGap (CoversAt w v.after) v.seq arr.stop ↔ v.seq < arr.dataEnd := by
    constructor
    · rintro ⟨q, hq, hqstop, -⟩
      omega
    · intro hlt
      have h0 := hafter v.seq
      have h1 := hafter (v.seq + 1)
      exact ⟨v.seq, le_rfl, by omega, by grind, by grind⟩
  have hnarrow : ¬ NarrowGap (CoversAt w v.after) v.seq arr.stop := by
    rintro ⟨p, q, -, hpq, hq, -, hp, -⟩
    have hp := hafter _ hp
    omega
  have hkeep := h.keep
  have htrunc := h.trunc
  unfold Harmless
  rw [hwide]
  cases hfinish with
  | insert _ hins =>
    rw [htrunc, Nat.sub_zero] at hins
    rw [hins.stored_iff h hshort le_rfl]
    grind
  | leave _ heq =>
    rw [heq]
    grind

omit htrims hlen in
/-- The last part in front of a node that reaches behind the segment. -/
theorem RightStop.parts {u : EditView} (h : RightStop w arr .truncateNew u v)
    (hparting : Parting w arr u) (hfinish : Finish w arr v v') :
    AllStored v'.nodes ↔ AllStored u.nodes ∧ Harmless w arr u := by
  have hstopEq : arr.stop = arr.dataEnd + 1 := by
    unfold stop dataEnd
    omega
  have hkeep := hparting.keep
  cases h with
  | resent x after hafter hstart _ hfin _ heq =>
    have hcov : ∀ p, u.seq ≤ p → p < arr.stop → CoversAt w u.after p := by
      intro p hlo hhi
      rw [hafter]
      exact IntervalList.covers_cons.mpr (.inl ⟨by omega, by omega⟩)
    have hharmless : Harmless w arr u := by
      refine ⟨fun _ => ?_, fun _ => ?_⟩
      · rintro ⟨q, hq, hqstop, hnot, -⟩
        exact hnot (hcov q hq (by omega))
      · rintro ⟨p, q, hp, hpq, hqstop, hnot, -⟩
        exact hnot (hcov p hp (by omega))
    subst heq
    cases hfinish with
    | insert hkeep _ => cases hkeep
    | leave _ heq =>
      rw [heq]
      exact (and_iff_left hharmless).symm
  | truncNew x after hafter hstart hlt hfin _ heq =>
    obtain ⟨-, hr⟩ := hparting.around hafter
    have hcov : ∀ p, CoversAt w u.after p ↔
        (x.2.start w ≤ p ∧ p < x.2.fin w) ∨ CoversAt w after p := by
      intro p
      rw [hafter]
      exact IntervalList.covers_cons
    have hwide : WideGap (CoversAt w u.after) u.seq arr.stop ↔ u.seq < x.2.start w - 1 := by
      constructor
      · rintro ⟨q, hq, hqstop, h0, h1⟩
        grind
      · intro hlt
        exact ⟨u.seq, le_rfl, by omega, by grind, by grind⟩
    have hnarrow : ¬ NarrowGap (CoversAt w u.after) u.seq arr.stop := by
      rintro ⟨p, q, -, hpq, hqstop, -, hp, -, hq, -⟩
      grind
    unfold Harmless
    rw [hwide]
    subst heq
    cases hfinish with
    | insert _ hins =>
      have hhi : arr.dataEnd - (arr.stop - x.2.start w) = x.2.start w - 1 := by omega
      have hins : Insert w arr { u with trunc := arr.stop - x.2.start w } (x.2.start w - 1) v' :=
        hhi ▸ hins
      have hst : AllStored v'.nodes ↔ AllStored u.nodes ∧ (u.seq < x.2.start w - 1 → u.dsize ≠ 0) :=
        hins.setTrunc.stored_iff hparting hshort (by omega)
      rw [hst]
      grind
    | leave hkeep' heq =>
      rw [heq]
      show AllStored u.nodes ↔ _
      grind
  | passOver x after hafter hstart hfin hright _ heq => cases hright
  | cutOld a tsn after seq delta hafter hstart hlt hfin hright _ _ hseq hdelta heq => cases hright

/-- All nodes hold their bytes after the insertion if no part behind an empty one is stored. -/
theorem Edit.allStored_iff {nodes nodes' : List Node}
    (h : Edit w arr tcpReassemblerFirst nodes nodes')
    (hplaced : Placed w nodes) (hst : AllStored nodes) :
    AllStored nodes' ↔ ¬ NarrowGap (CoversAt w nodes) arr.start arr.stop := by
  obtain ⟨v₀, v₁, v₂, v₃, hstart, hleft, hright, hfinish, rfl⟩ := h
  have hsits := hleft.sits hplaced hstart
  have hframe := hleft.frame
  have hparting : Parting w arr v₁ := ⟨hsits, hframe.trunc.trans hstart.trunc,
    .inl (hframe.keep.trans hstart.keep), .inl (hframe.dsize.trans hstart.dsize)⟩
  have hstopEq : arr.stop = arr.dataEnd + 1 := by
    unfold stop dataEnd
    omega
  have hnodes : v₁.nodes = nodes := hleft.nodes_eq.trans hstart.nodes
  -- the gaps are those behind the node before the editor
  have hgap : NarrowGap (CoversAt w nodes) arr.start arr.stop ↔
      NarrowGap (CoversAt w v₁.after) v₁.seq arr.stop := by
    obtain ⟨hi, hlo, hhi, hover, hcases⟩ := hleft.covers hplaced hstart
    have hover' : ∀ p, arr.start ≤ p → p < v₁.seq → CoversAt w nodes p := by
      intro p hp hlt
      rcases hcases with ⟨hseq, -⟩ | ⟨hseq, -⟩
      · exact hover p hp (hseq ▸ hlt)
      · omega
    refine narrowGap_skip hsits.start_le hover' fun hlt p hp _ => ?_
    rw [← hnodes, coversAt_nodes]
    refine or_iff_right ?_
    rintro ⟨x, hx, -, hpx⟩
    have hpx : p < x.2.fin w := hpx
    have hfin := hsits.before x hx
    omega
  have hiff : AllStored v₃.nodes ↔ AllStored v₁.nodes ∧ Harmless w arr v₁ := by
    have hstep : ∀ v v', (Parting w arr v ∧ (AllStored v.nodes ∧ Harmless w arr v ↔
        AllStored v₁.nodes ∧ Harmless w arr v₁)) → RightStep w arr .os5 v v' →
        Parting w arr v' ∧ (AllStored v'.nodes ∧ Harmless w arr v' ↔
          AllStored v₁.nodes ∧ Harmless w arr v₁) := by
      rintro v v' ⟨hv, hsame⟩ hstep
      obtain ⟨hv', hsame'⟩ := hstep.parts htrims hsyn hshort hlen hv
      exact ⟨hv', hsame'.trans hsame⟩
    rcases hright.rule hstep ⟨hparting, Iff.rfl⟩ with ⟨⟨hend, hsame⟩, hstop⟩ |
      ⟨u, ⟨hu, hsame⟩, hstop⟩
    · rw [← hsame]
      exact hend.finish hsyn hshort hstop hfinish
    · rw [← hsame]
      exact hstop.parts hsyn hshort hu hfinish
  have hdsize : v₁.dsize = arr.len := hframe.dsize.trans hstart.dsize
  rw [hiff, hnodes, hgap]
  unfold Harmless
  rw [hdsize]
  grind
end Parts

/-! ## Runs -/

/-- A call whose data is stored in parts, with a gap of one sequence number before a wider
one: `trim_win` is on and the full overlap handler is `os5`. -/
structure Call.TrimsInside (c : Call) (r : TcpReassembler) (sos : SegmentOverlapState)
    (nodes : List Node) : Prop where
  full : r.full = .os5
  trims : sos.trimWin = .on
  syn : c.syn = true
  short : c.payload.length - c.offset < 2 ^ 15
  gaps : NarrowGap (fun i => Covered nodes (c.segSeq + BitVec.ofNat 32 i)) c.offset
    (c.payload.length + 1)

/-- The list is well formed at every moment of a run of calls, and every call returns. -/
def StaysWellFormed (r : TcpReassembler) : TcpReassemblerState → List Call → Prop
  | trs, [] => ∃ nodes, WellFormed trs nodes
  | trs, c :: calls => (∃ nodes, WellFormed trs nodes) ∧
      ∃ trs', r.call trs c = some trs' ∧ StaysWellFormed r trs' calls

def NeverTrimsInside (r : TcpReassembler) : TcpReassemblerState → List Call → Prop
  | _, [] => True
  | trs, c :: calls => (∀ nodes, trs.seglist.Holds nodes → ¬ c.TrimsInside r trs.sos nodes) ∧
      ∀ trs', r.call trs c = some trs' → NeverTrimsInside r trs' calls

theorem create_os5 (h : (create tcpIpsData pol).full = .os5) :
    create tcpIpsData pol = tcpReassemblerFirst := by
  cases tcpIpsData <;> cases pol <;> first | rfl | cases h

section Run
variable {c : Call} {nodes nodes' : List Node} {sos : SegmentOverlapState}

theorem Call.TrimsInside.nodes_ne_nil (h : c.TrimsInside r sos nodes) : nodes ≠ [] := by
  rintro rfl
  obtain ⟨p, q, -, -, -, -, ⟨x, hx, -⟩, -⟩ := h.gaps
  cases hx

theorem Call.TrimsInside.offset_lt (h : c.TrimsInside r sos nodes) :
    c.offset < c.payload.length := by
  obtain ⟨p, q, hp, hpq, hq, -⟩ := h.gaps
  omega

theorem gaps_iff (hplaced : Placed w nodes) (hc : c.InWindow w) :
    NarrowGap (fun i => Covered nodes (c.segSeq + BitVec.ofNat 32 i)) c.offset
        (c.payload.length + 1) ↔
      NarrowGap (CoversAt w nodes) (pos w c.segSeq + c.offset)
        (pos w c.segSeq + c.payload.length + 1) := by
  rw [Nat.add_assoc, narrowGap_shift]
  refine narrowGap_skip le_rfl (fun i hle hlt => absurd hlt hle.not_gt) fun _ i _ hi => ?_
  have hlt := hc.lt
  have hstop := hc.stop
  have hnat : (BitVec.ofNat 32 i).toNat = i := by
    rw [BitVec.toNat_ofNat, Nat.mod_eq_of_lt (by omega)]
  rw [hplaced.covered_iff, pos_add (by omega), hnat]

/-- A segment without SYN keeps all bytes of all nodes inside their data. -/
theorem Outcome.allStored (h : Outcome w r sos c nodes nodes') (hplaced : Placed w nodes)
    (hst : AllStored nodes) (hsyn : c.syn = false) : AllStored nodes' := by
  cases h with
  | old _ heq => exact heq ▸ hst
  | empty _ _ arr harr v' hins heq =>
    rw [heq]
    exact hins.allStored (fun x hx => absurd hx not_mem_nil) (fun _ => rfl) le_rfl
  | edit _ _ arr harr hedit =>
    refine hedit.allStored hplaced hst fun _ _ hone => ?_
    rw [harr.syn, Call.synLen, hsyn] at hone
    cases hone

/-- A call keeps all bytes of all nodes inside their data, unless it trims inside. -/
theorem Outcome.allStored_iff {tcpIpsData : NormMode} {pol : StreamPolicy}
    (h : Outcome w (.create tcpIpsData pol) sos c nodes nodes') (hplaced : Placed w nodes)
    (hc : c.InWindow w) (hst : AllStored nodes) :
    AllStored nodes' ↔ ¬ c.TrimsInside (.create tcpIpsData pol) sos nodes := by
  cases h with
  | old hold heq =>
    rw [heq]
    refine iff_of_true hst fun htrims => ?_
    have hlt := htrims.offset_lt
    rcases hold with ⟨hnil, -⟩ | ⟨-, hle⟩
    · exact htrims.nodes_ne_nil hnil
    · omega
  | empty hnil hlt arr harr v' hins heq =>
    rw [heq]
    refine iff_of_true ?_ fun htrims => htrims.nodes_ne_nil hnil
    exact hins.allStored (fun x hx => absurd hx not_mem_nil) (fun _ => rfl) le_rfl
  | edit hne hlt arr harr hedit =>
    have hlen : arr.len = c.payload.length - c.offset := by
      rw [len, harr.payload, length_drop]
    have hsynLen : arr.syn = 1 ↔ c.syn = true := by
      rw [harr.syn]
      unfold Call.synLen
      cases c.syn <;> simp
    by_cases hcond : (create tcpIpsData pol).full = .os5 ∧ arr.trims = true ∧
        arr.syn = 1 ∧ arr.len < 2 ^ 15
    · obtain ⟨hfull, htrims, hsyn, hshort⟩ := hcond
      have hstop : arr.stop = pos w c.segSeq + c.payload.length + 1 := by
        unfold stop
        rw [harr.start]
        omega
      rw [create_os5 hfull] at hedit
      rw [hedit.allStored_iff htrims hsyn hshort (by omega) hplaced hst, hstop, harr.start,
        ← gaps_iff hplaced hc]
      refine not_congr ⟨fun hgaps => ?_, fun htrims => htrims.gaps⟩
      exact ⟨hfull, harr.trims.mpr htrims, hsynLen.mp hsyn, hlen ▸ hshort, hgaps⟩
    · refine iff_of_true (hedit.allStored hplaced hst ?_) fun htrims => hcond ?_
      · intro hfull htrims hsyn hshort
        exact hcond ⟨hfull, htrims, hsyn, hshort⟩
      · exact ⟨htrims.full, harr.trims.mp htrims.trims, hsynLen.mpr htrims.syn, hlen ▸ htrims.short⟩
end Run

/-- Along a run of calls of one window, the list stays well formed as long as no call trims
the packet inside its data. -/
theorem staysWellFormed_iff_of_wellFormed (hcalls : ∀ c ∈ calls, c.InWindow w)
    (h : WellFormed trs nodes) (hwin : NodesInWindow w nodes) :
    StaysWellFormed (.create tcpIpsData pol) trs calls ↔
      NeverTrimsInside (.create tcpIpsData pol) trs calls := by
  induction calls generalizing trs nodes with
  | nil => exact iff_of_true ⟨nodes, h⟩ trivial
  | cons c calls ih =>
    obtain ⟨hc, hcalls⟩ := forall_mem_cons.mp hcalls
    have hplaced := h.nodes.placed hwin
    obtain ⟨trs', nodes', hcall, hholds, hcount, -, hout⟩ :=
      call_spec (.create tcpIpsData pol) hplaced h.holds h.count hc
    have hplaced' := hout.placed hplaced
    have hst := hout.allStored_iff hplaced hc h.nodes.stored
    constructor
    · rintro ⟨-, trs'', hcall', hstays⟩
      obtain rfl : trs' = trs'' := Option.some.inj (hcall.symm.trans hcall')
      obtain ⟨nodes'', hwf⟩ : ∃ nodes'', WellFormed trs' nodes'' := by
        cases calls with
        | nil => exact hstays
        | cons _ _ => exact hstays.1
      obtain rfl := hholds.unique hwf.holds
      refine ⟨fun l hl => ?_, fun trs'' hcall'' => ?_⟩
      · rw [← h.holds.unique hl]
        exact hst.mp hwf.nodes.stored
      · obtain rfl : trs' = trs'' := Option.some.inj (hcall.symm.trans hcall'')
        exact (ih hcalls hwf hplaced'.inWindow).mp hstays
    · rintro ⟨hno, hnever⟩
      have hwf : WellFormed trs' nodes' :=
        ⟨hholds, hcount, hplaced'.wellFormed (hst.mpr (hno nodes h.holds))⟩
      exact ⟨⟨nodes, h⟩, trs', hcall, (ih hcalls hwf hplaced'.inWindow).mpr (hnever trs' hcall)⟩

theorem neverTrimsInside_of_full (h : r.full ≠ .os5) : NeverTrimsInside r trs calls := by
  induction calls generalizing trs with
  | nil => trivial
  | cons c calls ih => exact ⟨fun _ _ htrims => h htrims.full, fun _ _ => ih⟩

/-- For every policy, a run of calls of one window on an empty list keeps the list well formed
if and only if no call trims the packet inside its data. -/
theorem seglist_staysWellFormed_iff (tcpIpsData trimWin : NormMode) (pol : StreamPolicy)
    (calls : List Call) (hcalls : ∀ c ∈ calls, c.InWindow w) :
    StaysWellFormed (.create tcpIpsData pol) (.init pol tcpIpsData trimWin) calls ↔
      NeverTrimsInside (.create tcpIpsData pol) (.init pol tcpIpsData trimWin) calls :=
  staysWellFormed_iff_of_wellFormed hcalls (wellFormed_init pol tcpIpsData trimWin)
    fun _ hx => absurd hx not_mem_nil

theorem seglist_staysWellFormed_linux :
    StaysWellFormed (.create .test .osLinux) (.init .osLinux .test .on)
      [⟨101, 102, false, [1, 2]⟩, ⟨101, 100, true, [0, 1, 2, 3, 4, 5, 6, 7, 8, 9]⟩] :=
  (seglist_staysWellFormed_iff (w := 0) .test .on .osLinux _ (by
    rintro c (_ | ⟨_, _ | ⟨_, _ | _⟩⟩) <;> exact ⟨by decide, by decide, by decide⟩)).mpr
    (neverTrimsInside_of_full (by decide))

/-- The receive window starts behind a SYN, two bytes are queued, and the SYN is repeated
with data: the part behind the queued bytes is stored from an empty packet. -/
theorem syn_part_without_data :
    (((create .on .osMacos).call (.init .osMacos .on .on)
        ⟨101, 102, false, [1, 2]⟩).bind fun trs =>
      ((create .on .osMacos).call trs
        ⟨101, 100, true, [0, 1, 2, 3, 4, 5, 6, 7, 8, 9]⟩).bind fun trs =>
      (trs.seglist.heap 1).map DoublyLinked.Cell.val) =
    some { data := [], iSeq := 104, cSeq := 104, iLen := 6, cLen := 6, offset := 3 } := by
  decide +kernel
end Snort.Tcp
