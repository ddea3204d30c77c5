import Snort.Stream.Tcp.WellFormed

/-!
# The sequence numbers that are queued

Inserting a segment adds its data to the sequence numbers that the list covers and
loses none of them, if the segment has no SYN and its length fits the signed 16
bits it is passed in. A longer segment adds nothing, and one with a SYN leaves a
hole.
-/

namespace Snort.Tcp
open List Serial IntervalList Arrival
variable {w : BitVec 32} {arr : Arrival} {v v' : EditView} {p : ℕ}
  {left : LeftOverlap} {nodes after nodes' : List Node} {hi lo : ℕ} {x : Node}
  {full : FullOverlap} {right : RightOverlap} {u : EditView} {r : TcpReassembler}

theorem coversAt_nodes : CoversAt w v.nodes p ↔ CoversAt w v.before p ∨ CoversAt w v.after p := by
  simp only [EditView.nodes, covers_append, covers_reverse]

/-- The node before the editor overlaps the data up to `hi`. Either the data or the node
gives way. -/
theorem LeftStep.covers
    (h : LeftStep w arr left v v') (hplaced : Placed w nodes) (hstart : Starts w arr nodes v) :
    ∃ hi, arr.start ≤ hi ∧ hi ≤ arr.dataEnd ∧ (∀ p, arr.start ≤ p → p < hi → CoversAt w nodes p) ∧
      ((v'.seq = hi ∧ v'.nodes = nodes) ∨
        (v'.seq = arr.start ∧ ∀ p, CoversAt w v'.nodes p ↔
          CoversAt w nodes p ∧ ¬ (arr.start ≤ p ∧ p < hi))) := by
  obtain rfl := hstart.nodes
  have hseq := hstart.seq
  have hle : arr.start ≤ arr.dataEnd := Nat.le_add_right _ _
  -- the other nodes do not reach into the node before the editor
  have hothers : ∀ x before, v.before = x :: before →
      (∀ p, CoversAt w before p → p < x.2.start w) ∧ ∀ p, CoversAt w v.after p → x.2.fin w ≤ p := by
    intro x before hb
    rw [EditView.nodes_cons hb] at hplaced
    obtain ⟨-, hl, hr⟩ := hplaced.ordered.middle
    constructor
    · rintro p ⟨y, hy, -, hp⟩
      exact hp.trans_le (hl y (mem_reverse.mpr hy))
    · rintro p ⟨y, hy, hp, -⟩
      exact (hr y hy).trans hp
  cases h with
  | pass _ heq =>
    refine ⟨arr.start, le_rfl, hle, ?_, .inl ?_⟩
    · omega
    · rw [heq]
      exact ⟨hseq, rfl⟩
  | keepOld x before hb hlt _ _ heq =>
    have hx := hstart.before x (hb ▸ mem_cons_self)
    refine ⟨min (x.2.fin w) arr.dataEnd, by omega, by omega, ?_, .inl ?_⟩
    · intro p hlo hhi
      simp only [coversAt_nodes, hb, covers_cons]
      exact .inl (.inl ⟨by omega, by omega⟩)
    · subst heq
      exact ⟨rfl, rfl⟩
  | cutOld a tsn before overlap hb hlt hfin _ hoverlap heq =>
    have hx : tsn.start w < arr.start := hstart.before (a, tsn) (hb ▸ mem_cons_self)
    have hsound : tsn.Sound w := hplaced.sound (a, tsn)
      (EditView.nodes_cons hb ▸ mem_append_right _ mem_cons_self)
    obtain ⟨-, hstart', hfin', -⟩ := hsound.cutTail (hseq ▸ hx) hlt.le hoverlap
    obtain ⟨hl, hr⟩ := hothers _ _ hb
    subst heq
    refine ⟨tsn.fin w, by omega, hfin, ?_, .inr ⟨hseq, ?_⟩⟩
    · intro p hlo hhi
      simp only [coversAt_nodes, hb, covers_cons]
      exact .inl (.inl ⟨by omega, hhi⟩)
    · intro p
      have hlp := hl p
      have hrp := hr p
      rw [coversAt_nodes, coversAt_nodes]
      simp only [hb, covers_cons, hstart', hfin'] at hlp hrp ⊢
      grind
  | splitOld a b tsn before overlap seq delta hb hlt hfin _ hoverlap hseq' hdelta heq =>
    have hx : tsn.start w < arr.start := hstart.before (a, tsn) (hb ▸ mem_cons_self)
    have hsound : tsn.Sound w := hplaced.sound (a, tsn)
      (EditView.nodes_cons hb ▸ mem_append_right _ mem_cons_self)
    obtain ⟨-, hstart', hfin', -⟩ := hsound.cutTail (hseq ▸ hx) hlt.le hoverlap
    obtain ⟨hdup, hdstart, hdfin, -⟩ := hsound.dupNode
    obtain ⟨-, hstart₂, hfin₂, -⟩ := hdup.cutHead (by omega) (by omega) hseq'
      (by rw [hdstart]; exact hdelta)
    obtain ⟨hl, hr⟩ := hothers _ _ hb
    subst heq
    refine ⟨arr.dataEnd, hle, le_rfl, ?_, .inr ⟨hseq, ?_⟩⟩
    · intro p hlo hhi
      simp only [coversAt_nodes, hb, covers_cons]
      exact .inl (.inl ⟨by omega, by omega⟩)
    · intro p
      have hlp := hl p
      have hrp := hr p
      rw [coversAt_nodes, coversAt_nodes]
      simp only [hb, covers_cons, hstart', hfin', hstart₂, hfin₂, hdfin] at hlp hrp ⊢
      grind

/-! ## Filling in the data -/

/-- The position is queued, or its data is still to be inserted. -/
def Provided (w : BitVec 32) (arr : Arrival) (v : EditView) (p : ℕ) : Prop :=
  CoversAt w v.nodes p ∨ (v.seq ≤ p ∧ p < arr.dataEnd)

theorem LeftStep.provided
    (h : LeftStep w arr left v v') (hplaced : Placed w nodes) (hstart : Starts w arr nodes v) :
    Provided w arr v' p ↔ CoversAt w nodes p ∨ (arr.start ≤ p ∧ p < arr.dataEnd) := by
  obtain ⟨hi, hlo, hhi, hover, hcases⟩ := h.covers hplaced hstart
  have hp := hover p
  unfold Provided
  rcases hcases with ⟨hseq, hnodes⟩ | ⟨hseq, hcov⟩
  · rw [hseq, hnodes]
    grind
  · rw [hseq, hcov]
    grind

/-- Data is left to be inserted only if it is to be inserted whole. -/
structure Fills (w : BitVec 32) (arr : Arrival) (nodes : List Node) (v : EditView) : Prop
    extends Sits w arr v where
  provided : ∀ p, Provided w arr v p ↔ CoversAt w nodes p ∨ (arr.start ≤ p ∧ p < arr.dataEnd)
  trunc : v.trunc = 0 ∨ arr.dataEnd ≤ v.seq
  keep : v.keep = true ∨ arr.dataEnd ≤ v.seq

theorem Insert.covers (h : Insert w arr v hi v') :
    CoversAt w v'.nodes p ↔ CoversAt w v.nodes p ∨ (arr.len < 2 ^ 15 ∧ v.seq ≤ p ∧ p < hi) := by
  cases h with
  | store node _ hlt hstart hfin _ _ _ heq =>
    subst heq
    rw [coversAt_nodes, coversAt_nodes]
    simp only [covers_cons, hstart, hfin]
    grind
  | discard hnone heq =>
    subst heq
    rw [coversAt_nodes, coversAt_nodes]
    grind

theorem Insert.after_eq (h : Insert w arr v hi v') : v'.after = v.after := by
  cases h with
  | store _ _ _ _ _ _ _ _ heq => exact heq ▸ rfl
  | discard _ heq => exact heq ▸ rfl

theorem Insert.keep_eq (h : Insert w arr v hi v') : v'.keep = v.keep := by
  cases h with
  | store _ _ _ _ _ _ _ _ heq => exact heq ▸ rfl
  | discard _ heq => exact heq ▸ rfl

theorem Sits.next (h : Sits w arr v) (hafter : v.after = x :: after) :
    v.seq ≤ x.2.start w ∧ x.2.start w < x.2.fin w := by
  have hx : x ∈ v.after := hafter ▸ mem_cons_self
  exact ⟨h.after x hx, (h.placed.sound x (mem_reverse_append.mpr (.inr hx))).start_lt⟩

theorem provided_pass (hsits : Sits w arr v)
    (hafter : v.after = x :: after) (hstart : x.2.start w = v.seq)
    (hfin : x.2.fin w ≤ arr.dataEnd) (hbefore : v'.before = x :: v.before)
    (hafter' : v'.after = after) (hseq : v'.seq = x.2.fin w) :
    Provided w arr v' p ↔ Provided w arr v p := by
  have hlt := (hsits.next hafter).2
  unfold Provided
  rw [coversAt_nodes, coversAt_nodes]
  simp only [hafter, hbefore, hafter', hseq, covers_cons]
  grind

/-- A round moves data from what is to be inserted to what is queued or the other way. -/
theorem RightStep.fills
    (h : RightStep w arr full v v') (hfills : Fills w arr nodes v) (hsyn : arr.syn = 0)
    (hshort : arr.len < 2 ^ 15) : Fills w arr nodes v' := by
  have hsits := h.sits hfills.toSits
  have hstop : arr.stop = arr.dataEnd := by
    unfold stop dataEnd
    omega
  have hkeep := hfills.keep
  have hend := arr.dataEnd_eq
  have hle := hfills.start_le
  cases h with
  | resent x after hafter hstart _ hfin _ keep hkeep' heq =>
    have hlt := (hfills.next hafter).2
    refine ⟨hsits, fun p => ?_, ?_, ?_⟩
    · rw [← hfills.provided]
      rw [heq]
      exact provided_pass hfills.toSits hafter hstart (hstop ▸ hfin) rfl rfl rfl
    · subst heq
      exact .inl rfl
    · subst heq
      grind
  | skip x after hafter hstart hfin _ trunc _ htrunc _ heq =>
    have hlt := (hfills.next hafter).2
    refine ⟨hsits, fun p => ?_, ?_, ?_⟩
    · rw [← hfills.provided]
      rw [heq]
      exact provided_pass hfills.toSits hafter hstart (hstop ▸ hfin) rfl rfl rfl
    · subst heq
      show trunc = 0 ∨ arr.dataEnd ≤ x.2.fin w
      omega
    · subst heq
      exact hkeep.imp id fun hge => hge.trans (hstart ▸ hlt.le)
  | drop x after hafter hstart hfin _ _ heq =>
    subst heq
    refine ⟨hsits, fun p => ?_, .inl rfl, hkeep⟩
    rw [← hfills.provided]
    unfold Provided
    rw [coversAt_nodes, coversAt_nodes]
    simp only [hafter, covers_cons]
    grind
  | chunk x after hafter hstart hfin _ v₁ hins heq =>
    have hlt := (hfills.next hafter).2
    have hcov := fun p => hins.covers (p := p)
    refine ⟨hsits, fun p => ?_, ?_, ?_⟩
    · have hp := hcov p
      rw [← hfills.provided]
      unfold Provided
      rw [coversAt_nodes, coversAt_nodes, hins.after_eq] at hp
      rw [heq, coversAt_nodes, coversAt_nodes]
      simp only [hafter, covers_cons] at hp ⊢
      grind
    · exact heq ▸ .inl rfl
    · rw [heq]
      rw [hins.keep_eq]
      exact hkeep.imp id fun hge => hge.trans (hstart.trans hlt).le

theorem Finish.covers (h : Finish w arr v v') :
    CoversAt w v'.nodes p ↔ CoversAt w v.nodes p ∨
      (v.keep = true ∧ arr.len < 2 ^ 15 ∧ v.seq ≤ p ∧ p < arr.dataEnd - v.trunc) := by
  cases h with
  | insert hkeep hins => simp only [hins.covers, hkeep, true_and]
  | leave hkeep heq => simp only [heq, hkeep, Bool.false_eq_true, false_and, or_false]

/-- Where the loop ends at a node that reaches behind the segment. -/
theorem RightStop.covers
    (h : RightStop w arr right u v) (hfills : Fills w arr nodes u) (hsyn : arr.syn = 0)
    (hshort : arr.len < 2 ^ 15) (hfinish : Finish w arr v v') :
    CoversAt w v'.nodes p ↔ CoversAt w nodes p ∨ (arr.start ≤ p ∧ p < arr.dataEnd) := by
  have hstop : arr.stop = arr.dataEnd := by
    unfold stop dataEnd
    omega
  have hkeep := hfills.keep
  rw [hfinish.covers, ← hfills.provided]
  unfold Provided
  rw [coversAt_nodes, coversAt_nodes]
  cases h with
  | resent x after hafter hstart _ hfin _ heq =>
    subst heq
    simp only [hafter, covers_cons]
    grind
  | truncNew x after hafter hstart hlt hfin _ heq =>
    subst heq
    simp only [hafter, covers_cons]
    grind
  | passOver x after hafter hstart hfin _ _ heq =>
    subst heq
    simp only [hafter, covers_cons]
    grind
  | cutOld a tsn after seq delta hafter hstart hlt hfin _ _ _ hseq hdelta heq =>
    have hsound : tsn.Sound w := hfills.placed.sound (a, tsn)
      (mem_reverse_append.mpr (.inr (hafter ▸ mem_cons_self)))
    obtain ⟨-, hstart', hfin', -⟩ := hsound.cutHead hlt.le hfin hseq hdelta
    subst heq
    simp only [hafter, covers_cons, hstart', hfin']
    grind

theorem Edit.fills (h : Edit w arr r nodes nodes')
    (hplaced : Placed w nodes) (hsyn : arr.syn = 0) (hshort : arr.len < 2 ^ 15) :
    CoversAt w nodes' p ↔ CoversAt w nodes p ∨ (arr.start ≤ p ∧ p < arr.dataEnd) := by
  obtain ⟨v₀, v₁, v₂, v₃, hstart, hleft, hright, hfinish, rfl⟩ := h
  have hfills : Fills w arr nodes v₁ :=
    ⟨hleft.sits hplaced hstart, fun p => hleft.provided hplaced hstart,
      .inl (hleft.frame.trunc.trans hstart.trunc), .inl (hleft.frame.keep.trans hstart.keep)⟩
  rcases hright.rule (P := Fills w arr nodes)
    (fun _ _ hv hstep => hstep.fills hv hsyn hshort) hfills with ⟨hend, hstop⟩ | ⟨u, hu, hstop⟩
  · have htrunc := hend.trunc
    have hkeep := hend.keep
    rw [hfinish.covers, ← hend.provided]
    unfold Provided
    grind
  · exact hstop.covers hu hsyn hshort hfinish

/-! ## Nothing but the data is filled in -/

theorem LeftStep.covers_old
    (h : LeftStep w arr left v v') (hplaced : Placed w nodes) (hstart : Starts w arr nodes v)
    (hp : CoversAt w v'.nodes p) : CoversAt w nodes p := by
  obtain ⟨hi, -, -, -, ⟨-, hnodes⟩ | ⟨-, hcov⟩⟩ := h.covers hplaced hstart
  · rwa [hnodes] at hp
  · exact ((hcov p).mp hp).1

theorem RightStep.covers_old (h : RightStep w arr full v v') (hp : CoversAt w v'.nodes p) :
    CoversAt w v.nodes p ∨ (arr.len < 2 ^ 15 ∧ v.seq ≤ p) := by
  rw [coversAt_nodes] at hp ⊢
  cases h with
  | resent x after hafter _ _ _ _ _ _ heq =>
    subst heq
    simp only [hafter, covers_cons] at hp ⊢
    grind
  | skip x after hafter _ _ _ _ _ _ _ heq =>
    subst heq
    simp only [hafter, covers_cons] at hp ⊢
    grind
  | drop x after hafter _ _ _ _ heq =>
    subst heq
    simp only [hafter, covers_cons] at hp ⊢
    grind
  | chunk x after hafter _ _ _ v₁ hins heq =>
    have hcov := hins.covers (p := p)
    rw [coversAt_nodes, coversAt_nodes, hins.after_eq] at hcov
    subst heq
    simp only [hafter, covers_cons] at hp hcov ⊢
    grind

theorem RightStop.covers_old (h : RightStop w arr right v v')
    (hsits : Sits w arr v) (hp : CoversAt w v'.nodes p) : CoversAt w v.nodes p := by
  cases h with
  | resent _ _ _ _ _ _ _ heq =>
    subst heq
    exact hp
  | truncNew _ _ _ _ _ _ _ heq =>
    subst heq
    exact hp
  | passOver _ _ _ _ _ _ _ heq =>
    subst heq
    exact hp
  | cutOld a tsn after seq delta hafter hstart hlt hfin _ _ _ hseq hdelta heq =>
    have hsound : tsn.Sound w := hsits.placed.sound (a, tsn)
      (mem_reverse_append.mpr (.inr (hafter ▸ mem_cons_self)))
    obtain ⟨-, hstart', hfin', -⟩ := hsound.cutHead hlt.le hfin hseq hdelta
    subst heq
    rw [coversAt_nodes] at hp ⊢
    simp only [hafter, covers_cons, hstart', hfin'] at hp ⊢
    grind

theorem Edit.covers_old
    (h : Edit w arr r nodes nodes') (hplaced : Placed w nodes) (hlong : ¬ arr.len < 2 ^ 15)
    (hp : CoversAt w nodes' p) : CoversAt w nodes p := by
  obtain ⟨v₀, v₁, v₂, v₃, hstart, hleft, hright, hfinish, rfl⟩ := h
  have hp₂ : CoversAt w v₂.nodes p := by
    rcases hfinish.covers.mp hp with hp | ⟨-, hshort, -⟩
    · exact hp
    · exact absurd hshort hlong
  refine hleft.covers_old hplaced hstart ?_
  rcases hright.rule (P := fun v => Sits w arr v ∧ (CoversAt w v.nodes p → CoversAt w v₁.nodes p))
    (fun v v' hv hstep => ⟨hstep.sits hv.1, fun hp => hv.2
      ((hstep.covers_old hp).resolve_right fun hshort => hlong hshort.1)⟩)
    ⟨hleft.sits hplaced hstart, id⟩ with ⟨hend, -⟩ | ⟨u, hu, hstop⟩
  · exact hend.2 hp₂
  · exact hu.2 (hstop.covers_old hu.1 hp₂)

/-! ## Retransmissions -/

/-- The list is as it was, and the nodes that the rest of the segment lies in repeat it. -/
structure Passing (w : BitVec 32) (arr : Arrival) (nodes : List Node) (v : EditView) : Prop
    extends Sits w arr v where
  nodes : v.nodes = nodes
  rseq : v.rseq = v.seq
  covered : ∀ p, v.seq ≤ p → p < arr.dataEnd → CoversAt w v.after p
  repeats : ∀ x ∈ v.after, arr.Repeats w x.2

theorem Sits.around (h : Sits w arr v) (hafter : v.after = x :: after) :
    (∀ p, CoversAt w v.before p → p < x.2.start w) ∧ ∀ p, CoversAt w after p → x.2.fin w ≤ p := by
  have hplaced := h.placed
  unfold EditView.nodes at hplaced
  rw [hafter] at hplaced
  obtain ⟨-, hl, hr⟩ := hplaced.ordered.middle
  constructor
  · rintro p ⟨y, hy, -, hp⟩
    exact hp.trans_le (hl y (mem_reverse.mpr hy))
  · rintro p ⟨y, hy, hp, -⟩
    exact (hr y hy).trans hp

theorem Passing.start_eq (h : Passing w arr nodes v) (hafter : v.after = x :: after)
    (hlt : v.seq < arr.dataEnd) : x.2.start w = v.seq := by
  have hnext := h.next hafter
  have hcov := h.covered v.seq le_rfl hlt
  simp only [hafter, covers_cons] at hcov
  rcases hcov with ⟨hle, -⟩ | hcov
  · exact le_antisymm hle hnext.1
  · have hfin := (h.around hafter).2 _ hcov
    omega

theorem LeftStep.passing (h : LeftStep w arr left v v') (hplaced : Placed w nodes)
    (hstart : Starts w arr nodes v) (hfirst : ∃ y ∈ nodes, y.2.start w = arr.start)
    (hcovered : ∀ p, arr.start ≤ p → p < arr.dataEnd → CoversAt w nodes p)
    (hrepeats : ∀ x ∈ nodes, arr.start ≤ x.2.start w → arr.Repeats w x.2) :
    Passing w arr nodes v' := by
  have hsits := h.sits hplaced hstart
  obtain rfl := hstart.nodes
  -- the node that begins with the segment is behind the editor, those before it end there
  have hbefore : ∀ x ∈ v.before, x.2.fin w ≤ arr.start := by
    intro x hx
    obtain ⟨y, hy, hstarty⟩ := hfirst
    rcases mem_reverse_append.mp hy with hy | hy
    · exact absurd hstarty (hstart.before y hy).ne
    · rw [← hstarty]
      obtain ⟨-, -, hlr⟩ := IntervalList.Ordered.append_iff.mp hplaced.ordered
      exact hlr x (mem_reverse.mpr hx) y hy
  have hclear : ∀ x before, v.before = x :: before → ¬ v.seq < x.2.fin w := by
    intro x before hb
    rw [hstart.seq, not_lt]
    exact hbefore x (hb ▸ mem_cons_self)
  cases h with
  | pass _ heq =>
    subst heq
    refine ⟨hsits, rfl, hstart.rseq.trans hstart.seq.symm, fun p hlo hhi => ?_, fun x hx => ?_⟩
    · rw [hstart.seq] at hlo
      refine (coversAt_nodes.mp (hcovered p hlo hhi)).resolve_left ?_
      rintro ⟨x, hx, -, hp⟩
      exact absurd (hlo.trans_lt hp) (not_lt.mpr (hbefore x hx))
    · exact hrepeats x (mem_reverse_append.mpr (.inr hx)) (hstart.after x hx)
  | keepOld x before hb hlt _ _ _ => exact absurd hlt (hclear x before hb)
  | cutOld a tsn before _ hb hlt _ _ _ _ => exact absurd hlt (hclear (a, tsn) before hb)
  | splitOld a _ tsn before _ _ _ hb hlt _ _ _ _ _ _ =>
    exact absurd hlt (hclear (a, tsn) before hb)

theorem RightStep.passing (h : RightStep w arr full v v') (hpass : Passing w arr nodes v)
    (hsyn : arr.syn = 0) : Passing w arr nodes v' := by
  have hsits := h.sits hpass.toSits
  have hstop : arr.stop = arr.dataEnd := by
    unfold stop dataEnd
    omega
  have hrseq := hpass.rseq
  cases h with
  | resent x after hafter hstart _ hfin _ _ _ heq =>
    have hcovered := hpass.covered
    have hrepeats := hpass.repeats
    have hnodes := hpass.nodes
    have hlt := (hpass.next hafter).2
    simp only [hafter, covers_cons] at hcovered hrepeats
    subst heq
    refine ⟨hsits, ?_, rfl, fun p hlo hhi => ?_, fun y hy => hrepeats y (mem_cons_of_mem _ hy)⟩
    · rw [← hnodes, EditView.nodes, EditView.nodes, hafter, reverse_cons, append_assoc]
      rfl
    · have hlo : x.2.fin w ≤ p := hlo
      exact (hcovered p (by omega) hhi).resolve_left fun hx => by omega
  | skip x after hafter hstart _ _ _ _ _ hdiffers _ =>
    exact absurd (hpass.repeats x (hafter ▸ mem_cons_self)) (hdiffers (hstart.trans hrseq.symm))
  | drop x after hafter hge hfin _ hdiffers _ =>
    have hlt := (hpass.next hafter).2
    have hstart := hpass.start_eq hafter (by omega)
    exact absurd (hpass.repeats x (hafter ▸ mem_cons_self)) (hdiffers (hstart.trans hrseq.symm))
  | chunk x after hafter hlt hfin _ _ _ _ =>
    have hlt' := (hpass.next hafter).2
    exact absurd (hpass.start_eq hafter (by omega)) hlt.ne'

theorem RightStop.nodes_eq (h : RightStop w arr right v v') (hpass : Passing w arr nodes v)
    (hsyn : arr.syn = 0) : v'.nodes = nodes := by
  have hstop : arr.stop = arr.dataEnd := by
    unfold stop dataEnd
    omega
  cases h with
  | resent _ _ _ _ _ _ _ heq => exact heq ▸ hpass.nodes
  | truncNew _ _ _ _ _ _ _ heq => exact heq ▸ hpass.nodes
  | passOver _ _ _ _ _ _ _ heq => exact heq ▸ hpass.nodes
  | cutOld a tsn after _ _ hafter hge hlt _ _ _ hdiffers _ _ _ =>
    have hstart := hpass.start_eq hafter (by omega)
    exact absurd (hpass.repeats (a, tsn) (hafter ▸ mem_cons_self))
      (hdiffers (hstart.trans hpass.rseq.symm))

/-- Nothing is lost where a segment repeats the nodes that it lies in. -/
theorem Edit.keeps (h : Edit w arr r nodes nodes') (hplaced : Placed w nodes) (hsyn : arr.syn = 0)
    (hfirst : ∃ y ∈ nodes, y.2.start w = arr.start)
    (hcovered : ∀ p, arr.start ≤ p → p < arr.dataEnd → CoversAt w nodes p)
    (hrepeats : ∀ x ∈ nodes, arr.start ≤ x.2.start w → arr.Repeats w x.2)
    (hp : CoversAt w nodes p) : CoversAt w nodes' p := by
  obtain ⟨v₀, v₁, v₂, v₃, hstart, hleft, hright, hfinish, rfl⟩ := h
  refine hfinish.covers.mpr (.inl ?_)
  rcases hright.rule (P := Passing w arr nodes) (fun _ _ hv hstep => hstep.passing hv hsyn)
    (hleft.passing hplaced hstart hfirst hcovered hrepeats) with ⟨hend, -⟩ | ⟨u, hu, hstop⟩
  · rwa [hend.nodes]
  · rwa [hstop.nodes_eq hu hsyn]

/-! ## The hole that a SYN leaves -/

/-- A position of `[lo, stop)` or of the list is not queued, and either the editor is
behind it, or all that follows is still queued. -/
structure Hole (w : BitVec 32) (arr : Arrival) (nodes : List Node) (lo : ℕ) (v : EditView) : Prop
    extends Sits w arr v where
  old : ∀ p, CoversAt w v.after p → CoversAt w nodes p
  hole : ∃ z, z < arr.stop ∧ (CoversAt w nodes z ∨ lo ≤ z) ∧ ¬ CoversAt w v.nodes z ∧
    (z < v.seq ∨ ∀ p, z < p → p < arr.stop → CoversAt w v.after p)

theorem exists_last {P : ℕ → Prop} (hlt : lo < hi) (hlo : ¬ P lo) :
    ∃ z, lo ≤ z ∧ z < hi ∧ ¬ P z ∧ ∀ p, z < p → p < hi → P p := by
  classical
  have hle : lo ≤ hi - 1 := Nat.le_sub_one_of_lt hlt
  refine ⟨Nat.findGreatest (fun z => ¬ P z) (hi - 1), Nat.le_findGreatest hle hlo, ?_,
    Nat.findGreatest_spec (P := fun z => ¬ P z) hle hlo, ?_⟩
  · exact (Nat.findGreatest_le _).trans_lt (Nat.sub_one_lt_of_lt hlt)
  · intro p hz hp
    exact not_not.mp (Nat.findGreatest_is_greatest hz (Nat.le_sub_one_of_lt hp))

theorem LeftStep.hole
    (h : LeftStep w arr left v v') (hplaced : Placed w nodes) (hstart : Starts w arr nodes v)
    (hlo : arr.start ≤ lo) (hlt : lo < arr.stop) (hnot : ¬ CoversAt w nodes lo) :
    Hole w arr nodes lo v' := by
  have hsits := h.sits hplaced hstart
  have hstop := arr.stop_le
  obtain ⟨z, hz, hzlt, hznot, hlast⟩ := exists_last (P := CoversAt w nodes) hlt hnot
  refine ⟨hsits, fun p hp => h.covers_old hplaced hstart (coversAt_nodes.mpr (.inr hp)), z, hzlt,
    .inr hz, fun hp => hznot (h.covers_old hplaced hstart hp), ?_⟩
  obtain ⟨hi, hhi, hend, hover, hcases⟩ := h.covers hplaced hstart
  have hzhi : hi ≤ z := by
    by_contra hlt
    exact hznot (hover z (hlo.trans hz) (not_le.mp hlt))
  right
  intro p hzp hp
  have hcov : CoversAt w v'.nodes p := by
    rcases hcases with ⟨-, hnodes⟩ | ⟨-, hcov⟩
    · exact hnodes ▸ hlast p hzp hp
    · exact (hcov p).mpr ⟨hlast p hzp hp, fun hlt => by omega⟩
  refine (coversAt_nodes.mp hcov).resolve_left ?_
  rintro ⟨x, hx, -, hpx⟩
  have hpx : p < x.2.fin w := hpx
  have hseq : v'.seq ≤ z := by
    rcases hcases with ⟨hseq, -⟩ | ⟨hseq, -⟩ <;> omega
  have hfin := hsits.before x hx
  omega

theorem Hole.pass
    (h : Hole w arr nodes lo v) (hafter : v.after = x :: after) (hstart : x.2.start w = v.seq)
    (hsits : Sits w arr v') (hbefore : v'.before = x :: v.before) (hafter' : v'.after = after)
    (hseq : v'.seq = x.2.fin w) : Hole w arr nodes lo v' := by
  have hlt := (h.next hafter).2
  have hold := h.old
  obtain ⟨z, hz, hwant, hznot, hcases⟩ := h.hole
  rw [coversAt_nodes] at hznot
  simp only [hafter, covers_cons] at hold hznot hcases
  refine ⟨hsits, ?_, z, hz, hwant, ?_, ?_⟩
  · rw [hafter']
    exact fun p hp => hold p (.inr hp)
  · rw [coversAt_nodes]
    simp only [hbefore, hafter', covers_cons]
    grind
  · rw [hafter', hseq]
    grind

theorem RightStep.hole
    (h : RightStep w arr full v v') (hsyn : arr.syn = 1) (hhole : Hole w arr nodes lo v) :
    Hole w arr nodes lo v' := by
  have hsits := h.sits hhole.toSits
  cases h with
  | resent x after hafter hstart _ _ _ _ _ heq =>
    rw [heq] at hsits ⊢
    exact hhole.pass hafter hstart hsits rfl rfl rfl
  | skip x after hafter hstart _ _ _ _ _ _ heq =>
    rw [heq] at hsits ⊢
    exact hhole.pass hafter hstart hsits rfl rfl rfl
  | drop x after hafter hstart hfin _ _ heq =>
    have hlt := (hhole.next hafter).2
    obtain ⟨hl, hr⟩ := hhole.around hafter
    have hold := hhole.old
    obtain ⟨z, hz, hwant, hznot, hcases⟩ := hhole.hole
    rw [coversAt_nodes] at hznot
    simp only [hafter, covers_cons] at hold hznot hcases
    subst heq
    refine ⟨hsits, fun p hp => hold p (.inr hp), ?_⟩
    simp only [coversAt_nodes]
    by_cases hzx : v.seq ≤ z ∧ z < x.2.start w
    · -- the last position of the dropped node is not queued any more
      refine ⟨x.2.fin w - 1, by omega, .inl (hold _ (.inl ⟨by omega, by omega⟩)), ?_,
        .inr fun p hp hpstop => ?_⟩
      · rintro (hp | hp)
        · have := hl _ hp
          omega
        · have := hr _ hp
          omega
      · have hcov := (hcases.resolve_left (by omega)) p (by omega) hpstop
        exact hcov.resolve_left fun hp => by omega
    · exact ⟨z, hz, hwant, by grind, by grind⟩
  | chunk x after hafter hstart hfin _ v₁ hins heq =>
    have hlt := (hhole.next hafter).2
    obtain ⟨-, hr⟩ := hhole.around hafter
    have hold := hhole.old
    obtain ⟨z, hz, hwant, hznot, hcases⟩ := hhole.hole
    have hcov := hins.covers (p := z)
    rw [coversAt_nodes, coversAt_nodes, hins.after_eq] at hcov
    rw [coversAt_nodes] at hznot
    simp only [hafter, covers_cons] at hold hznot hcases hcov
    rw [heq] at hsits ⊢
    refine ⟨hsits, fun p hp => hold p (.inr hp), z, hz, hwant, ?_⟩
    simp only [coversAt_nodes, covers_cons]
    by_cases hzx : v.seq ≤ z ∧ z < x.2.start w
    · -- the position right in front of the node is left out
      have hnext := (hcases.resolve_left (by omega)) (z + 1) (by omega)
      have hrz := hr (z + 1)
      grind
    · grind

theorem RightStop.hole
    (h : RightStop w arr right u v) (hsyn : arr.syn = 1) (hhole : Hole w arr nodes lo u)
    (hfinish : Finish w arr v v') :
    ∃ z, z < arr.stop ∧ (CoversAt w nodes z ∨ lo ≤ z) ∧ ¬ CoversAt w v'.nodes z := by
  have hstop : arr.stop = arr.dataEnd + 1 := by
    unfold stop dataEnd
    omega
  have hold := hhole.old
  obtain ⟨z, hz, hwant, hznot, hcases⟩ := hhole.hole
  rw [coversAt_nodes] at hznot
  simp only [hfinish.covers, coversAt_nodes]
  cases h with
  | resent x after hafter hstart _ hfin _ heq =>
    subst heq
    refine ⟨z, hz, hwant, ?_⟩
    simp only [hafter, covers_cons] at hznot ⊢
    grind
  | truncNew x after hafter hstart hlt hfin _ heq =>
    obtain ⟨-, hr⟩ := hhole.around hafter
    subst heq
    refine ⟨z, hz, hwant, ?_⟩
    simp only [hafter, covers_cons] at hznot hcases ⊢
    have hrz := hr (z + 1)
    grind
  | passOver x after hafter hstart hfin _ _ heq =>
    subst heq
    refine ⟨z, hz, hwant, ?_⟩
    simp only [hafter, covers_cons] at hznot ⊢
    grind
  | cutOld a tsn after seq delta hafter hstart hlt hfin _ _ _ hseq hdelta heq =>
    have hsound : tsn.Sound w := hhole.placed.sound (a, tsn)
      (mem_reverse_append.mpr (.inr (hafter ▸ mem_cons_self)))
    obtain ⟨-, hstart', hfin', -⟩ := hsound.cutHead hlt.le hfin hseq hdelta
    obtain ⟨hl, hr⟩ := hhole.around hafter
    have hlz := hl arr.dataEnd
    have hrz := hr arr.dataEnd
    subst heq
    simp only [hafter, covers_cons] at hold
    refine ⟨arr.dataEnd, by omega, .inl (hold _ (.inl ⟨by omega, by omega⟩)), ?_⟩
    simp only [covers_cons, hstart', hfin']
    grind

/-- Where the loop ends, the last position is missing or one right in front of a node is. -/
theorem Edit.hole {y : ℕ}
    (h : Edit w arr r nodes nodes') (hplaced : Placed w nodes) (hsyn : arr.syn = 1)
    (hlo : arr.start ≤ y) (hlt : y < arr.stop) (hnot : ¬ CoversAt w nodes y) :
    ∃ z, z < arr.stop ∧ (CoversAt w nodes z ∨ y ≤ z) ∧ ¬ CoversAt w nodes' z := by
  obtain ⟨v₀, v₁, v₂, v₃, hstart, hleft, hright, hfinish, rfl⟩ := h
  rcases hright.rule (P := Hole w arr nodes y) (fun _ _ hv hstep => hstep.hole hsyn hv)
    (hleft.hole hplaced hstart hlo hlt hnot) with ⟨hend, hstop⟩ | ⟨u, hu, hstop⟩
  · have hge := hend.after_ge hstop
    have hstopEq : arr.stop = arr.dataEnd + 1 := by
      unfold stop dataEnd
      omega
    have hafter : ∀ p, CoversAt w v₂.after p → arr.stop ≤ p := by
      rintro p ⟨x, hx, hp, -⟩
      exact (hge x hx).trans hp
    obtain ⟨z, hz, hwant, hznot, hcases⟩ := hend.hole
    refine ⟨z, hz, hwant, ?_⟩
    have hz1 := hafter (z + 1)
    rw [hfinish.covers]
    grind
  · exact hstop.hole hsyn hu hfinish

/-! ## The bytes of a call -/

namespace Call

/-- The bytes of the payload that lie before the receive window. -/
def skipped (c : Call) : ℕ :=
  if seqGt c.rWinBase c.tsd.firstSeq then (c.rWinBase - c.tsd.firstSeq).toNat else 0

/-- The sequence number is that of a byte of the payload, from `r_win_base` on. -/
def Sends (c : Call) (s : BitVec 32) : Prop :=
  c.skipped ≤ (s - c.tsd.firstSeq).toNat ∧ (s - c.tsd.firstSeq).toNat < c.payload.length

instance (c : Call) (s : BitVec 32) : Decidable (c.Sends s) := by
  unfold Sends
  infer_instance

/-- The call has nothing to insert, or its length fits the signed 16 bits it is passed in
and a SYN does not move the data: only an empty list looks at the SYN, and only if the
receive window cuts nothing off. -/
def Fits (c : Call) (nodes : List Node) : Prop :=
  c.payload.length ≤ c.skipped ∨
    (nodes = [] ∧ c.payload.length < 2 ^ 15 ∧ (c.syn = true → c.skipped = 0)) ∨
    (nodes ≠ [] ∧ c.payload.length - c.skipped < 2 ^ 15 ∧ c.syn = false)

/-- The segment is a retransmission: what it has in the receive window begins with a node and is
covered, and the nodes there have its bytes, as `is_retransmit` compares them. -/
structure Resent (c : Call) (nodes : List Node) : Prop where
  syn : c.syn = false
  first : ∃ x ∈ nodes, x.2.iSeq = c.segSeq + BitVec.ofNat 32 c.offset
  covered : ∀ s, c.Sends s → Covered nodes s
  repeats : ∀ x ∈ nodes, ∀ s, x.2.Has s → c.Sends s →
    x.2.data[(s - x.2.iSeq).toNat]? = c.payload[(s - c.segSeq).toNat]?

variable {c : Call}

theorem InWindow.sends_iff (h : c.InWindow w) {s : BitVec 32} :
    c.Sends s ↔ pos w c.segSeq + c.synLen + c.skipped ≤ pos w s ∧
      pos w s < pos w c.segSeq + c.synLen + c.payload.length := by
  have hstop := h.stop
  have hfirst := h.pos_firstSeq
  have hrange : (s - c.tsd.firstSeq).toNat < c.payload.length ↔
      pos w c.tsd.firstSeq ≤ pos w s ∧ pos w s < pos w c.tsd.firstSeq + c.payload.length :=
    toNat_sub_lt_iff (by omega)
  unfold Sends
  rw [hrange, hfirst]
  constructor
  · rintro ⟨hskip, hlo, hhi⟩
    rw [toNat_sub (o := w) (by omega), hfirst] at hskip
    omega
  · rintro ⟨hlo, hhi⟩
    refine ⟨?_, by omega, hhi⟩
    rw [toNat_sub (o := w) (by omega), hfirst]
    omega

/-- How many bytes are cut off at the receive window, and how many ought to be. -/
theorem InWindow.offsets (h : c.InWindow w) (hr : pos w c.rWinBase < 2 ^ 31) :
    c.skipped = pos w c.rWinBase - (pos w c.segSeq + c.synLen) ∧
      c.offset = pos w c.rWinBase - pos w c.segSeq ∧
      c.emptyOffset = if pos w c.segSeq + c.synLen < pos w c.rWinBase then
        pos w c.rWinBase - pos w c.segSeq else 0 := by
  have hstop := h.stop
  have hfirst := h.pos_firstSeq
  have hgt : seqGt c.rWinBase c.tsd.firstSeq ↔ pos w c.segSeq + c.synLen < pos w c.rWinBase := by
    rw [seqGt_iff hr (by omega), hfirst]
  have hgt' : seqGt c.rWinBase c.segSeq ↔ pos w c.segSeq < pos w c.rWinBase :=
    seqGt_iff hr (by omega)
  refine ⟨?_, ?_, ?_⟩
  · unfold skipped
    split
    case isTrue hlt =>
      rw [toNat_sub (o := w) (by rw [hfirst]; exact (hgt.mp hlt).le), hfirst]
    case isFalse hle =>
      rw [hgt] at hle
      omega
  · unfold offset
    split
    case isTrue hlt => exact toNat_sub (hgt'.mp hlt).le
    case isFalse hle =>
      rw [hgt'] at hle
      omega
  · unfold emptyOffset
    split
    case isTrue hlt =>
      rw [if_pos (hgt.mp hlt)]
      exact toNat_sub (by have := hgt.mp hlt; omega)
    case isFalse hle => rw [if_neg fun hlt => hle (hgt.mpr hlt)]
end Call

section Outcome
variable {r : TcpReassembler} {sos : SegmentOverlapState} {c : Call} {nodes nodes' : List Node}

/-- The position is that of a byte that a call is to insert. -/
def SendsAt (w : BitVec 32) (c : Call) (p : ℕ) : Prop :=
  pos w c.segSeq + c.synLen + c.skipped ≤ p ∧ p < pos w c.segSeq + c.synLen + c.payload.length

theorem coversAt_empty {lo : ℕ}
    (h : Insert w arr ⟨[], [], lo, arr.start, 0, true, arr.len⟩ arr.dataEnd v') :
    CoversAt w v'.nodes p ↔ arr.len < 2 ^ 15 ∧ lo ≤ p ∧ p < arr.dataEnd := by
  rw [h.covers, coversAt_nodes]
  simp only [covers_nil, false_or]

section
variable (h : Outcome w r sos c nodes nodes') (hplaced : Placed w nodes) (hc : c.InWindow w)
  (hr : pos w c.rWinBase < 2 ^ 31)
include h hplaced hc hr

theorem Outcome.covers (hfits : c.Fits nodes) :
    CoversAt w nodes' p ↔ CoversAt w nodes p ∨ SendsAt w c p := by
  obtain ⟨hskip, hoffset, hempty⟩ := hc.offsets hr
  have hpos := hc.nonempty
  have hsynLen : c.synLen = if c.syn then 1 else 0 := rfl
  unfold Call.Fits at hfits
  unfold SendsAt
  cases h with
  | old hold heq =>
    -- nothing is sent
    have hnone : c.payload.length ≤ c.skipped := by grind
    rw [heq]
    grind
  | empty hnil hlt arr harr v' hins heq =>
    have hlen : arr.len = c.payload.length := by rw [len, harr.payload]
    have hend := arr.dataEnd_eq
    rw [heq, coversAt_empty hins, hnil, harr.start]
    simp only [covers_nil, false_or]
    have := harr.start
    grind
  | edit hne hlt arr harr hedit =>
    have hlen : arr.len = c.payload.length - c.offset := by
      rw [len, harr.payload, length_drop]
    have hend := arr.dataEnd_eq
    have hsyn : c.syn = false := by grind
    have hzero : arr.syn = 0 := by rw [harr.syn, hsynLen, hsyn]; rfl
    rw [hedit.fills hplaced hzero (by grind)]
    have := harr.start
    grind

theorem Outcome.covers_resent (hresent : c.Resent nodes) :
    CoversAt w nodes' p ↔ CoversAt w nodes p ∨ SendsAt w c p := by
  obtain ⟨hskip, hoffset, -⟩ := hc.offsets hr
  have hsynLen : c.synLen = 0 := by
    rw [Call.synLen, hresent.syn]
    rfl
  have hstop := hc.stop
  -- the sequence number at a position
  have hat : ∀ {p}, p < 2 ^ 31 → pos w (w + BitVec.ofNat 32 p) = p :=
    fun hp => pos_origin_add (by omega)
  have hcovered : ∀ p, SendsAt w c p → CoversAt w nodes p := by
    intro p hp
    have hlt : p < 2 ^ 31 := by
      unfold SendsAt at hp
      omega
    have hcov := hresent.covered (w + BitVec.ofNat 32 p)
    rw [hc.sends_iff, hplaced.covered_iff, hat hlt] at hcov
    exact hcov hp
  by_cases hfits : c.Fits nodes
  · exact h.covers hplaced hc hr hfits
  rw [or_iff_left_of_imp (hcovered p)]
  cases h with
  | old _ heq => rw [heq]
  | empty hnil =>
    obtain ⟨x, hx, -⟩ := hresent.first
    rw [hnil] at hx
    cases hx
  | edit hne hlt arr harr hedit =>
    have hlen : arr.len = c.payload.length - c.offset := by
      rw [len, harr.payload, length_drop]
    have hstart := harr.start
    have hend := arr.dataEnd_eq
    have hlong : ¬ arr.len < 2 ^ 15 := by
      intro hshort
      exact hfits (.inr (.inr ⟨hne, by omega, hresent.syn⟩))
    have hzero : arr.syn = 0 := harr.syn.trans hsynLen
    refine ⟨hedit.covers_old hplaced hlong, hedit.keeps hplaced hzero ?_ ?_ ?_⟩
    · obtain ⟨x, hx, heq⟩ := hresent.first
      refine ⟨x, hx, ?_⟩
      rw [TcpSegment.start, heq, pos_add (by rw [BitVec.toNat_ofNat]; omega), harr.start,
        BitVec.toNat_ofNat, Nat.mod_eq_of_lt (by omega)]
    · intro p hlo hhi
      exact hcovered p ⟨by omega, by omega⟩
    · intro x hx hge p hlo hhi hp
      have hsound := hplaced.sound x hx
      have hpos : pos w (w + BitVec.ofNat 32 p) = p := hat (hhi.trans hsound.fin_lt)
      have hbyte := hresent.repeats x hx (w + BitVec.ofNat 32 p)
        ((has_iff hsound.fin_lt).mpr (by rw [hpos]; exact ⟨hlo, hhi⟩))
        (hc.sends_iff.mpr (by rw [hpos]; omega))
      rw [toNat_sub (o := w) (by rw [hpos]; exact hlo),
        toNat_sub (o := w) (by rw [hpos]; omega), hpos] at hbyte
      rw [TcpSegment.rawByte, byte, harr.payload, getElem?_drop, harr.start]
      rw [show c.offset + (p - (pos w c.segSeq + c.offset)) = p - pos w c.segSeq by omega]
      exact hbyte

theorem Outcome.fits (hnew : ∃ p, SendsAt w c p ∧ ¬ CoversAt w nodes p)
    (hcov : ∀ p, CoversAt w nodes' p ↔ CoversAt w nodes p ∨ SendsAt w c p) : c.Fits nodes := by
  obtain ⟨hskip, hoffset, hempty⟩ := hc.offsets hr
  have hsynLen : c.synLen = if c.syn then 1 else 0 := rfl
  obtain ⟨p, hsends, hnot⟩ := hnew
  have hp := (hcov p).mpr (.inr hsends)
  cases h with
  | old hold heq =>
    rw [heq] at hp
    exact absurd hp hnot
  | empty hnil hlt arr harr v' hins heq =>
    have hlen : arr.len = c.payload.length := by rw [len, harr.payload]
    rw [heq, coversAt_empty hins] at hp
    refine .inr (.inl ⟨hnil, hlen ▸ hp.1, fun hsyn => ?_⟩)
    -- otherwise the first byte of the window is cut off as well
    by_contra hskip'
    have hfirst := hcov (pos w c.segSeq + c.synLen + c.skipped)
    rw [heq, coversAt_empty hins, harr.start, hnil] at hfirst
    unfold SendsAt at hsends hfirst
    simp only [covers_nil, false_or] at hfirst
    grind
  | edit hne hlt arr harr hedit =>
    have hlen : arr.len = c.payload.length - c.offset := by
      rw [len, harr.payload, length_drop]
    have hstopEq := arr.stop_eq
    have hstart := harr.start
    have hsynEq := harr.syn
    cases hsyn : c.syn with
    | true =>
      have hone : arr.syn = 1 := by
        rw [harr.syn, hsynLen, hsyn]
        rfl
      unfold SendsAt at hsends hcov
      obtain ⟨z, hz, hwant, hznot⟩ :=
        hedit.hole hplaced hone (y := p) (by omega) (by omega) hnot
      refine absurd ((hcov z).mpr (hwant.imp id fun hge => ?_)) hznot
      omega
    | false =>
      rw [hsyn] at hsynLen
      simp only [Bool.false_eq_true, if_false] at hsynLen
      refine .inr (.inr ⟨hne, ?_, hsyn⟩)
      by_contra hlong
      exact hnot (hedit.covers_old hplaced (by omega) hp)
end
end Outcome

theorem Outcome.covered_iff {sos : SegmentOverlapState} {c : Call}
    (h : Outcome w r sos c nodes nodes') (hplaced : Placed w nodes)
    (hc : c.InWindow w) :
    (∀ s, Covered nodes' s ↔ Covered nodes s ∨ c.Sends s) ↔
      ∀ p, CoversAt w nodes' p ↔ CoversAt w nodes p ∨ SendsAt w c p := by
  have hplaced' := h.placed hplaced
  constructor
  · intro hcov p
    by_cases hp : p < 2 ^ 31
    · have hs := hcov (w + BitVec.ofNat 32 p)
      rwa [hplaced'.covered_iff, hplaced.covered_iff, hc.sends_iff, pos_origin_add (by omega)] at hs
    · have hnone : ∀ {l : List Node}, Placed w l → ¬ CoversAt w l p := by
        rintro l hl ⟨x, hx, -, hlt⟩
        exact hp (hlt.trans (hl.sound x hx).fin_lt)
      have hsends : ¬ SendsAt w c p := by
        have hstop := hc.stop
        unfold SendsAt
        omega
      exact iff_of_false (hnone hplaced') (not_or.mpr ⟨hnone hplaced, hsends⟩)
  · intro hcov s
    rw [hplaced'.covered_iff, hplaced.covered_iff, hc.sends_iff]
    exact hcov (pos w s)

/-- A call on a well-formed list adds to the sequence numbers that are covered those of its
data if it fits or is a retransmission. If it has data that is not yet covered, it does so only
if it fits. -/
theorem call_covered (tcpIpsData : NormMode) (pol : StreamPolicy) {trs : TcpReassemblerState}
    {nodes : List Node} {c : Call} (h : WellFormed trs nodes) (hwin : NodesInWindow w nodes)
    (hc : c.InWindow w) (hr : pos w c.rWinBase < 2 ^ 31) :
    ∃ trs' nodes', (TcpReassembler.create tcpIpsData pol).call trs c = some trs' ∧
      trs'.seglist.Holds nodes' ∧
      (c.Fits nodes ∨ c.Resent nodes → ∀ s, Covered nodes' s ↔ Covered nodes s ∨ c.Sends s) ∧
      ((∃ s, c.Sends s ∧ ¬ Covered nodes s) →
        ((∀ s, Covered nodes' s ↔ Covered nodes s ∨ c.Sends s) ↔ c.Fits nodes)) := by
  have hplaced := h.nodes.placed hwin
  obtain ⟨trs', nodes', hcall, hholds, -, -, hout⟩ :=
    call_spec (TcpReassembler.create tcpIpsData pol) hplaced h.holds h.count hc
  have hfits : c.Fits nodes ∨ c.Resent nodes →
      ∀ s, Covered nodes' s ↔ Covered nodes s ∨ c.Sends s := by
    refine fun hok => (hout.covered_iff hplaced hc).mpr fun p => ?_
    rcases hok with hfits | hresent
    · exact hout.covers hplaced hc hr hfits
    · exact hout.covers_resent hplaced hc hr hresent
  refine ⟨trs', nodes', hcall, hholds, hfits, ?_⟩
  rintro ⟨s, hsends, hnot⟩
  refine ⟨fun hcov => ?_, fun hok => hfits (.inl hok)⟩
  rw [hc.sends_iff] at hsends
  rw [hplaced.covered_iff] at hnot
  exact hout.fits hplaced hc hr ⟨pos w s, hsends, hnot⟩ ((hout.covered_iff hplaced hc).mp hcov)

theorem wellFormed_init (pol : StreamPolicy) (tcpIpsData trimWin : NormMode) :
    WellFormed (.init pol tcpIpsData trimWin) [] where
  holds := TcpSegmentList.holds_empty
  count := rfl
  nodes := by constructor <;> simp

/-- Three bytes are queued, and a segment overlaps the last of them. -/
theorem call_covered_overlap :
    let r := TcpReassembler.create .test .osLinux
    let node : TcpSegment := ⟨[1, 2, 3], 5, 5, 3, 3, 0⟩
    let c : Call := ⟨0, 7, false, [9, 10, 11]⟩
    ∃ trs trs' nodes', r.call (.init .osLinux .test .test) ⟨0, 5, false, [1, 2, 3]⟩ = some trs ∧
      WellFormed trs [(0, node)] ∧ r.call trs c = some trs' ∧ trs'.seglist.Holds nodes' ∧
      ∀ s, Covered nodes' s ↔ Covered [(0, node)] s ∨ c.Sends s := by
  intro r node c
  obtain ⟨trs, htrs⟩ := Option.isSome_iff_exists.mp (show (r.call (.init .osLinux .test .test)
    ⟨0, 5, false, [1, 2, 3]⟩).isSome by decide +kernel)
  have heq := congrArg (Option.getD · (.init .osLinux .test .test)) htrs
  rw [Option.getD_some] at heq
  have hwf : WellFormed trs [(0, node)] := by
    subst heq
    refine ⟨⟨⟨by decide +kernel, trivial⟩, by decide, by decide +kernel, by decide +kernel,
      by decide +kernel, by decide +kernel⟩, by decide +kernel, ?_⟩
    exact ⟨pairwise_singleton _ _, pairwise_singleton _ _, by decide, by decide, by decide,
      by unfold TcpSegment.Stored; decide, by decide⟩
  have hwin : NodesInWindow 0 [(0, node)] := by
    unfold NodesInWindow
    decide
  obtain ⟨trs', nodes', hcall, hholds, hcov, -⟩ := call_covered (c := c) .test .osLinux hwf hwin
    ⟨by decide, by decide, by decide⟩ (by decide)
  exact ⟨trs, trs', nodes', htrs, hwf, hcall, hholds,
    hcov (.inl (.inr (.inr ⟨by decide, by decide, by decide⟩)))⟩

/-- A segment of 32768 bytes is not queued. -/
theorem long_segment_not_covered :
    ∃ trs' nodes', (TcpReassembler.create .test .osLinux).call (.init .osLinux .test .test)
        ⟨1000, 1000, false, replicate 32768 0⟩ = some trs' ∧ trs'.seglist.Holds nodes' ∧
      (⟨1000, 1000, false, replicate 32768 0⟩ : Call).Sends 1000 ∧
      ¬ Covered nodes' 1000 := by
  have hlen : (replicate 32768 (0 : UInt8)).length = 32768 := length_replicate
  have hc : (⟨1000, 1000, false, replicate 32768 0⟩ : Call).InWindow 0 := by
    refine ⟨?_, ?_, ?_⟩
    · rw [hlen]
      decide
    · rw [hlen]
      decide
    · rw [hlen]
      decide
  have hnil : Placed 0 ([] : List Node) := ⟨fun x hx => absurd hx not_mem_nil, .nil⟩
  obtain ⟨trs', nodes', hcall, hholds, -, -, hout⟩ := call_spec (.create .test .osLinux) hnil
    (wellFormed_init .osLinux .test .test).holds (wellFormed_init .osLinux .test .test).count hc
  refine ⟨trs', nodes', hcall, hholds, ⟨Nat.zero_le _, by rw [hlen]; decide⟩, ?_⟩
  rw [(hout.placed hnil).covered_iff]
  cases hout with
  | old _ heq =>
    rw [heq]
    exact covers_nil
  | empty _ _ arr harr v' hins heq =>
    rw [heq, coversAt_empty hins, len, harr.payload, hlen]
    omega
  | edit hne => exact absurd rfl hne
end Snort.Tcp
