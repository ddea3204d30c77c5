import Snort.Stream.Ip.FragmentBytes
import Snort.Stream.Ip.Completion

/-!
# Fragments of one datagram

Fragments that agree with a datagram, in any order, with repeats and overlaps: what is rebuilt
from them is the datagram. The policies are those that handle every overlap well.
-/

namespace Snort.Ip
open List DoublyLinked ListProgram IntervalList
open Option (some.inj)

/-- The fragment is a piece of the datagram `d`, and the last one ends where it ends. -/
structure Packet.PieceOf (d : List Byte) (p : Packet) : Prop extends PacketOk p where
  data : p.data = (d.drop p.off).take p.dsize
  last : p.mf = false → p.off + p.dsize = d.length

/-- Every overlap is handled well. -/
def SafePolicy (policy : FragPolicy) : Prop :=
  policy = .last ∨ policy = .linux ∨ policy = .bsdRight

/-- The fragments of the list hold bytes of the datagram. -/
structure Rebuilding (d : List Byte) (tr : Tracker) (s : Nodes Fragment) : Prop extends
    Counted tr s where
  engine : tr.ft.engine = true
  policy : SafePolicy tr.ft.fragPolicy
  byte : ∀ x ∈ s.list, ∀ i, lo x ≤ i → i < hi x → x.2.byteAt i = d[i]?
  length_le : tr.ft.gotLast = true → tr.ft.bad = true ∨ d.length ≤ tr.ft.calculatedSize

variable {fe : FragEngine} {d : List Byte} {p : Packet} {tr : Tracker} {s s' : Nodes Fragment}
  {ft : FragTracker} {r : InsertRet × FragTracker}

theorem Packet.PieceOf.byte (h : p.PieceOf d) {i : ℕ} (hc : p.Covers i) :
    d[i]? = some (p.byteAt i) := by
  have hlt : i - p.off < p.dsize := Nat.sub_lt_left_of_lt_add hc.1 hc.2
  have hget : p.data[i - p.off]? = d[i]? := by
    rw [h.data, getElem?_take_of_lt hlt, getElem?_drop, Nat.add_sub_cancel' hc.1]
  rw [← hget, Packet.byteAt, getD_eq_getElem?_getD, getElem?_eq_getElem hlt]
  rfl

theorem Rebuilding.hi_le_length (h : Rebuilding d tr s) {x : Node} (hx : x ∈ s.list) :
    hi x ≤ d.length := by
  have hlt := h.ok.ordered.lt x hx
  have hlast : lo x ≤ hi x - 1 ∧ hi x - 1 < hi x := by omega
  have hsome := (h.ok.within x hx).byteAt_isSome hlast
  rw [h.byte x hx _ hlast.1 hlast.2, isSome_getElem?] at hsome
  omega

theorem Outcome.same (h : Outcome p ft s r s') : ∃ ft₁, Started p ft ft₁ ∧ r.2.Same ft₁ := by
  cases h with
  | returned started _ _ => exact ⟨r.2, started, .refl _⟩
  | edited new ft₁ started _ _ _ _ edited _ => exact ⟨ft₁, started, edited.same⟩

/-- The last piece sets the size, which never shrinks. -/
theorem Rebuilding.started_length_le (h : Rebuilding d tr s) (hp : p.PieceOf d)
    (hstarted : Started p tr.ft ft) (hgot : ft.gotLast = true) :
    ft.bad = true ∨ d.length ≤ ft.calculatedSize := by
  rw [hstarted.gotLast] at hgot
  refine or_iff_not_imp_left.mpr fun hbad => ?_
  cases hgot₀ : tr.ft.gotLast with
  | true =>
    exact ((h.length_le hgot₀).resolve_left (mt hstarted.bad hbad)).trans hstarted.calculatedSize
  | false =>
    rw [hgot₀, Bool.false_or, Bool.not_eq_true'] at hgot
    exact (hp.last hgot).ge.trans (hstarted.last_le hgot hgot₀ (Bool.eq_false_iff.mpr hbad))

theorem Rebuilding.insert (h : Rebuilding d tr s) (hp : p.PieceOf d) :
    ∃ tr' s', handle fe tr p = some tr' ∧ Rebuilding d tr' s' := by
  have hsol : tr.ft.fragPolicy ≠ .solaris := by
    rcases h.policy with hp | hp | hp <;> simp [hp]
  obtain ⟨ret, tr', s', hinsert, hlinked, hout⟩ := @insertPacket_outcome fe p tr s True
    hp.dsize_le h.calculatedSize h.linked h.ok (rightOk_of_policy h.policy)
  obtain ⟨ft₁, hstarted, hsame⟩ := hout.same
  refine ⟨tr', s', by rw [handle, if_pos h.engine, hinsert]; rfl,
    h.toCounted.outcome hlinked hout ?_, hout.engine.trans h.engine, ?_, ?_, ?_⟩
  · intro hmf _ x hx
    rw [hp.last hmf]
    exact (h.hi_le_length hx).trans (le_max_right _ _)
  · rw [hsame.fragPolicy, hstarted.fragPolicy]
    exact h.policy
  · cases hout with
    | returned _ _ list => exact list ▸ h.byte
    | edited new ft₂ _ fits start stop _ edited _ =>
      rw [PacketOk.start_eq hsol] at start
      rw [hp.stop_eq hsol] at stop
      intro x hx i hlo hhi
      -- the byte is one of the piece, or was in the list before
      rcases edited.covers_origin hx ⟨hlo, hhi⟩ fits with ⟨hge, hlt, hpart⟩ | ⟨z, hz, hzi, hpart⟩
      · have hcovers : p.Covers i := ⟨start ▸ hge, stop ▸ hlt⟩
        rw [hpart.byteAt, NewFrag.whole_byteAt start hcovers, hp.byte hcovers]
      · rw [hpart.byteAt]
        exact h.byte z hz i hzi.1 hzi.2
  · intro hgot
    rw [hsame.calculatedSize]
    exact (h.started_length_le hp hstarted (hsame.gotLast ▸ hgot)).imp_left hsame.bad

theorem rebuilding_first (hp : p.PieceOf d) (hpolicy : SafePolicy (p.ssnPolicy.getD fe.fragPolicy))
    (hsnap : p.dsize ≤ fe.snapLen) : ∃ s, Rebuilding d (newTracker fe p .zero) s := by
  have hno : ¬ (p.dsize = 0 || decide (fe.snapLen < p.dsize)) = true := by
    simp [Nat.ne_of_gt hp.pos, hsnap]
  obtain ⟨s, hs⟩ : ∃ s, Counted (newTracker fe p .zero) s :=
    newTracker_counted (a := arrival p) hp.firstOk hp.dsize_le hno
  have hft : (newTracker fe p .zero).ft = firstTracker fe p [] := by
    rw [newTracker, if_neg hno]
    rfl
  obtain ⟨hengine, -, hlast, hpol, hcalc⟩ := @firstTracker_fields fe p []
  refine ⟨s, hs, hft ▸ hengine, by rw [hft, hpol]; exact hpolicy, fun x hx i hlo hhi => ?_, ?_⟩
  · rw [hs.linked.lists.unique (newTracker_linked fe p .zero hno).lists, mem_singleton] at hx
    subst hx
    have hcovers : p.Covers i := by
      rw [hi, Fragment.fin, firstFragment_size hp.firstOk] at hhi
      exact ⟨hlo, hhi⟩
    rw [hp.byte hcovers]
    exact @NewFrag.whole_byteAt i p ⟨p.off, p.off, p.off + p.dsize, p.dsize, !p.mf⟩ rfl hcovers
  · intro hgot
    rw [hft, hlast, Bool.not_eq_true'] at hgot
    right
    rw [hft, hcalc, hgot, if_neg Bool.false_ne_true, ← Int.natCast_add, u16_natCast hp.fin_lt]
    exact (hp.last hgot).ge

theorem rebuilding_run {ps : List Packet}
    (hps : ∀ p ∈ ps, p.PieceOf d ∧ SafePolicy (p.ssnPolicy.getD fe.fragPolicy))
    (h : tr = .zero ∨ ∃ s, Rebuilding d tr s) :
    ∃ tr', ps.foldlM (handle fe) tr = some tr' ∧ (tr' = .zero ∨ ∃ s, Rebuilding d tr' s) := by
  induction ps generalizing tr with
  | nil => exact ⟨tr, rfl, h⟩
  | cons p ps ih =>
    obtain ⟨⟨hp, hpolicy⟩, hps⟩ := forall_mem_cons.mp hps
    have hstep : ∃ tr₁, handle fe tr p = some tr₁ ∧ (tr₁ = .zero ∨ ∃ s, Rebuilding d tr₁ s) := by
      rcases h with rfl | ⟨s, hs⟩
      · refine ⟨newTracker fe p .zero, rfl, ?_⟩
        by_cases hsnap : p.dsize ≤ fe.snapLen
        · exact .inr (rebuilding_first hp hpolicy hsnap)
        · exact .inl (if_pos (by simp [Nat.lt_of_not_le hsnap]))
      · obtain ⟨tr₁, s₁, hhandle, hs₁⟩ := hs.insert hp
        exact ⟨tr₁, hhandle, .inr ⟨s₁, hs₁⟩⟩
    obtain ⟨tr₁, hhandle, h₁⟩ := hstep
    obtain ⟨tr', hrun, h'⟩ := ih hps h₁
    exact ⟨tr', by rw [foldlM_cons, hhandle]; exact hrun, h'⟩

/-- However a datagram was cut, and in whatever order its pieces come, a complete tracker rebuilds
the datagram. -/
theorem rebuilt_eq_datagram (fe : FragEngine) (d : List Byte) (ps : List Packet)
    (hps : ∀ p ∈ ps, p.PieceOf d ∧ SafePolicy (p.ssnPolicy.getD fe.fragPolicy)) :
    ∃ tr, ps.foldlM (handle fe) .zero = some tr ∧
      (fragIsComplete tr.ft = true → tr.ft.bad = false →
        ∀ p, ∃ rebuilt fl', (fragRebuild p tr.ft).run fragMachine tr.fl = some (rebuilt, fl') ∧
          ∀ pkt ∈ rebuilt, pkt.dsize = d.length ∧ ∀ i, i < d.length → pkt.payload i = d[i]?) := by
  obtain ⟨tr, hrun, h⟩ := rebuilding_run hps (.inl rfl)
  refine ⟨tr, hrun, fun hcomplete hbad p => ?_⟩
  rcases h with rfl | ⟨s, hs⟩
  · cases hcomplete
  obtain ⟨l, hl, htiles, hrebuild⟩ := hs.completeOk hcomplete hbad
  rw [hl.unique hs.linked.lists] at htiles hrebuild
  have hgot : tr.ft.gotLast = true := by
    simp only [fragIsComplete, Bool.and_eq_true] at hcomplete
    exact hcomplete.1.2
  have hsize : tr.ft.calculatedSize = d.length := by
    refine Nat.le_antisymm (Nat.le_of_not_lt fun hlt => ?_)
      ((hs.length_le hgot).resolve_left (Bool.eq_false_iff.mp hbad))
    obtain ⟨x, hx, -, hhi⟩ := htiles.covers (Nat.zero_le _) hlt
    exact absurd (hs.hi_le_length hx) (Nat.not_le.mpr hhi)
  obtain ⟨rebuilt, fl', hrun', hbytes⟩ := hrebuild p
  refine ⟨rebuilt, fl', hrun', fun pkt hpkt => ?_⟩
  obtain ⟨hdsize, hbyte⟩ := hbytes pkt hpkt
  refine ⟨hdsize.trans hsize, fun i hi' => ?_⟩
  obtain ⟨x, hx, hxi, heq, -⟩ := hbyte i (by rwa [hdsize, hsize])
  rw [heq, hs.byte x hx i hxi.1 hxi.2]

theorem rebuilt_eq_datagram_linux :
    let d : List Byte := replicate 8 1 ++ replicate 4 2
    (∀ p ∈ twoFragments, p.PieceOf d ∧
      SafePolicy (p.ssnPolicy.getD (policyEngine .linux).fragPolicy)) ∧
      ∃ tr, twoFragments.foldlM (handle (policyEngine .linux)) .zero = some tr ∧
        ∃ pkt fl', (fragRebuild (eightBytes 1) tr.ft).run fragMachine tr.fl = some (some pkt, fl') ∧
          ∀ i, i < 12 → pkt.payload i = d[i]? := by
  intro d
  have hps : ∀ p ∈ twoFragments, p.PieceOf d ∧
      SafePolicy (p.ssnPolicy.getD (policyEngine .linux).fragPolicy) := by
    intro p hp
    rcases mem_pair.mp hp with rfl | rfl
    all_goals exact ⟨⟨⟨by decide, by decide, by decide, by decide⟩, by decide, by decide⟩,
      .inr (.inl rfl)⟩
  obtain ⟨tr, hrun, h⟩ := rebuilt_eq_datagram (policyEngine .linux) d _ hps
  have hsome : (twoFragments.foldlM (handle (policyEngine .linux)) .zero).map (fun tr =>
      (fragIsComplete tr.ft, tr.ft.bad, ((fragRebuild (eightBytes 1) tr.ft).run fragMachine
        tr.fl).map (·.1.isSome))) = some (true, false, some true) := by
    decide +kernel
  rw [hrun, Option.map_some, Option.some.injEq, Prod.mk.injEq, Prod.mk.injEq] at hsome
  obtain ⟨rebuilt, fl', hrebuild, hbytes⟩ := h hsome.1 hsome.2.1 (eightBytes 1)
  rw [hrebuild] at hsome
  obtain ⟨pkt, rfl⟩ := Option.isSome_iff_exists.mp (some.inj hsome.2.2)
  exact ⟨hps, tr, hrun, pkt, fl', hrebuild, (hbytes pkt rfl).2⟩
end Snort.Ip
