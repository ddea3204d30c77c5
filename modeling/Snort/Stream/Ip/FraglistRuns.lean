import Snort.Stream.Ip.FraglistLinks
import Snort.Stream.Ip.InsertSpec

/-!
# The list along a run

A tracker is set up by the first fragment, and every later one is inserted. Where
the fragments overlap in ways that the policy handles well, the list is well
formed in every state, whatever `insert` returns.
-/

namespace Snort.Ip
open List DoublyLinked ListProgram IntervalList

/-! ## States -/

variable {fl : Fraglist}

/-- The fragments of the list of a tracker, in their order. -/
structure Fraglist.Lists (fl : Fraglist) (l : List Node) : Prop where
  seg : Seg fl.heap none l none
  head : fl.fraglist = firstOr none l

theorem Fraglist.Lists.unique {l l' : List Node} (h : fl.Lists l) (h' : fl.Lists l') : l = l' :=
  h.seg.unique h'.seg (h.head.symm.trans h'.head)

theorem Linked.lists {tidy : Prop} {s : Nodes Fragment} (h : Linked tidy fl s) :
    fl.Lists s.list := ⟨h.seg, h.head⟩

/-- The list is well formed. -/
structure FraglistOk (tr : Tracker) (l : List Node) : Prop extends tr.fl.Lists l where
  tail : tr.fl.fraglistTail = lastOr none l
  count : tr.fl.fraglistCount = l.length
  increasing : l.Pairwise fun x y => x.2.offset < y.2.offset
  disjoint : l.Pairwise fun x y => x.2.fin ≤ y.2.offset
  size_pos : ∀ x ∈ l, 0 < x.2.size
  data_nonneg : ∀ x ∈ l, 0 ≤ x.2.data
  data_le : ∀ x ∈ l, x.2.data + x.2.size ≤ x.2.flen
  fragBytes : tr.ft.fragBytes = (l.map fun x => x.2.size).sum

/-- A tracker as it is created: everything is zero. -/
def Tracker.zero : Tracker where
  ft :=
    { ipProto := 0
      ttl := 0
      gotFirst := false
      gotLast := false
      rebuilt := false
      bad := false
      noBsdVuln := false
      dropFragments := false
      fragBytes := 0
      calculatedSize := 0
      fragPkts := 0
      fragTime := ⟨0, 0⟩
      ipOptionsLen := 0
      ipOptionsData := none
      copiedIpOptionsLen := 0
      engine := false
      ordinal := 0
      fragPolicy := .first
      overlapCount := 0
      events := [] }
  fl := ⟨fun _ => none, none, none, 0, 0⟩

/-- The packet is handled by `new_tracker`, or by `insert`. -/
def handle (fe : FragEngine) (tr : Tracker) (p : Packet) : Option Tracker :=
  if tr.ft.engine then (insertPacket fe p tr).map Prod.snd else some (newTracker fe p tr)

/-! ## New trackers -/

section New
variable {fe : FragEngine} {p : Packet} {tr : Tracker}

/-- The first fragment of a tracker is not cut, and fits into a datagram. -/
def FirstOk (p : Packet) : Prop := (p.mf = true → 8 ∣ p.dsize) ∧ p.off + p.dsize ≤ 65535

theorem firstFragment_size (h : FirstOk p) : (firstFragment p).size = p.dsize := by
  obtain ⟨hmf, hle⟩ := h
  have hmod := p.off_mod
  unfold firstFragment
  dsimp only
  split_ifs with hm
  · obtain ⟨k, hk⟩ := hmf hm
    have hfin : u16 (p.off + p.dsize : ℤ) = p.off + p.dsize := by
      have := u16_of_lt (x := p.off + p.dsize) (by omega) (by omega)
      omega
    have hround : p.off + p.dsize - (p.off + p.dsize) % 8 = p.off + p.dsize := by omega
    rw [hfin, hround]
    have := u16_of_lt (x := (p.off + p.dsize : ℕ) - p.off) (by omega) (by omega)
    omega
  · rfl

theorem firstFragment_within (h : FirstOk p) (hdsize : p.dsize ≤ 32767) :
    (firstFragment p).Within where
  data_nonneg := Int.le_refl 0
  data_le := by
    rw [firstFragment_size h]
    show (0 : ℤ) + p.dsize ≤ p.dsize
    omega
  flen_le := hdsize
  fin_le := by
    rw [Fragment.fin, firstFragment_size h]
    exact h.2

/-- The first fragment leaves a tracker that counts its bytes. -/
theorem firstTracker_fields (events : List Event) :
    let ft := firstTracker fe p events
    ft.engine = true ∧ ft.fragBytes = p.dsize ∧ ft.gotLast = !p.mf ∧
      ft.fragPolicy = p.ssnPolicy.getD fe.fragPolicy ∧
      ft.calculatedSize = if p.mf then 0 else u16 (p.off + p.dsize) := by
  have hlt := p.dsize_lt
  have hbytes : u32 ((0 : ℕ) + p.dsize) = p.dsize := by
    rw [Int.natCast_zero, Int.zero_add]
    exact u32_natCast (by simp only [Packet.dsize]; omega)
  unfold firstTracker
  dsimp only
  generalize hshort : (if (p.mf && decide (u16 (p.off + p.dsize) % 8 ≠ 0)) = true then
    (resetTracker fe p events).alert .shortFrag else resetTracker fe p events) = ft₁
  have h₁ : ft₁.Same (resetTracker fe p events) ∧ ft₁.fragBytes = 0 := by
    rw [← hshort]
    split_ifs
    · exact ⟨⟨rfl, rfl, rfl, rfl, rfl, id⟩, rfl⟩
    · exact ⟨.refl _, rfl⟩
  -- the options do not matter
  generalize hft₂ : (fragCheckFirstLast p ft₁ p.off).2.addBytes p.dsize = ft₂
  have hopts : (if p.isIp4 = true then fragHandleIPOptions ft₂ p p.off else ft₂).Same ft₂ ∧
      (if p.isIp4 = true then fragHandleIPOptions ft₂ p p.off else ft₂).fragBytes =
        ft₂.fragBytes := by
    split_ifs
    · exact fragHandleIPOptions_same p p.off
    · exact ⟨.refl _, rfl⟩
  obtain ⟨hsame, hsum⟩ := hopts
  rw [hsame.engine, hsum, hsame.gotLast, hsame.fragPolicy, hsame.calculatedSize, ← hft₂]
  cases hmf : p.mf with
  | true =>
    rw [fragCheckFirstLast_of_mf hmf]
    refine ⟨h₁.1.engine, ?_, h₁.1.gotLast, h₁.1.fragPolicy, h₁.1.calculatedSize⟩
    show u32 (ft₁.fragBytes + p.dsize) = p.dsize
    rw [h₁.2, hbytes]
  | false =>
    have hno : ¬ p.adjusts ft₁ := fun h => by
      have := h.2.2.1
      rw [h₁.1.gotLast] at this
      exact Bool.false_ne_true this
    rw [(fragCheckFirstLast_of_last hmf).2]
    refine ⟨h₁.1.engine, ?_, rfl, h₁.1.fragPolicy, ?_⟩
    · show u32 (ft₁.fragBytes + p.dsize) = p.dsize
      rw [h₁.2, hbytes]
    · rw [if_neg hno, h₁.1.calculatedSize]
      exact Nat.zero_max _

theorem newTracker_linked (fe : FragEngine) (p : Packet) (tr : Tracker)
    (h : ¬ (p.dsize = 0 || decide (fe.snapLen < p.dsize)) = true) :
    Linked True (newTracker fe p tr).fl ⟨[(tr.fl.fresh, firstFragment p)], tr.fl.fresh + 1⟩ := by
  rw [newTracker, if_neg h]
  exact
    { seg := ⟨Function.update_self _ _ _, trivial⟩
      head := rfl
      nodup := nodup_singleton _
      lt := fun a ha => by
        rw [mem_singleton.mp ha]
        exact Nat.lt_succ_self _
      fresh := rfl
      tail := fun _ => rfl
      count := fun _ => rfl }

theorem newTracker_listOk (hfirst : FirstOk p) (hdsize : p.dsize ≤ 32767)
    (h : ¬ (p.dsize = 0 || decide (fe.snapLen < p.dsize)) = true) :
    ListOk (newTracker fe p tr).ft ⟨[(tr.fl.fresh, firstFragment p)], tr.fl.fresh + 1⟩ := by
  obtain ⟨-, hbytes, -⟩ := @firstTracker_fields fe p tr.ft.events
  have hsize := firstFragment_size hfirst
  rw [newTracker, if_neg h]
  refine ⟨nodup_singleton _, fun a ha => ?_, ?_, fun x hx => ?_, ?_⟩
  · rw [mem_singleton.mp ha]
    exact Nat.lt_succ_self _
  · refine Ordered.cons_iff.mpr ⟨?_, .nil, fun y hy => absurd hy not_mem_nil⟩
    simp only [Bool.or_eq_true, decide_eq_true_eq, not_or] at h
    simp only [lo, hi, Fragment.fin, hsize]
    omega
  · rw [mem_singleton.mp hx]
    exact firstFragment_within hfirst hdsize
  · simp only [sizes_cons, hsize]
    exact hbytes
end New

/-! ## Insertions -/

section Insertions
variable {fe : FragEngine} {p : Packet} {tr : Tracker} {s : Nodes Fragment} {tidy : Prop}
  {ft : FragTracker} {r : InsertRet × FragTracker} {s' : Nodes Fragment}

theorem Outcome.listOk (hout : Outcome p ft s r s') (h : ListOk ft s) : ListOk r.2 s' := by
  cases hout with
  | returned started _ list =>
    subst list
    exact ⟨h.nodup, h.lt, h.ordered, h.within, started.fragBytes.trans h.fragBytes⟩
  | edited new ft₁ started fits _ _ _ edited _ => exact edited.listOk fits h.within

theorem Outcome.calculatedSize_lt (hout : Outcome p ft s r s') (h : ft.calculatedSize < 65536) :
    r.2.calculatedSize < 65536 := by
  cases hout with
  | returned started _ _ => exact started.calculatedSize_lt h
  | edited new ft₁ started _ _ _ _ edited _ =>
    exact edited.same.calculatedSize ▸ started.calculatedSize_lt h

theorem Outcome.engine (hout : Outcome p ft s r s') : r.2.engine = ft.engine := by
  cases hout with
  | returned started _ _ => exact started.engine
  | edited new ft₁ started _ _ _ _ edited _ => exact edited.same.engine.trans started.engine

theorem insertPacket_outcome (hdsize : p.dsize ≤ 32767) (hcalc : tr.ft.calculatedSize < 65536)
    (hlinked : Linked tidy tr.fl s) (h : ListOk tr.ft s)
    (hclean : Clean tr.ft.fragPolicy (p.start tr.ft) (p.stop tr.ft) s.list) :
    ∃ ret tr' s', insertPacket fe p tr = some (ret, tr') ∧ Linked tidy tr'.fl s' ∧
      Outcome p tr.ft s (ret, tr'.ft) s' := by
  obtain ⟨⟨ret, ft'⟩, s', hrun, hout⟩ := @insert_ends fe p tr.ft s hdsize hcalc h hclean
  obtain ⟨fl', hrun', hlinked'⟩ := (fragMachine_refines tidy).run hlinked hrun
  refine ⟨ret, ⟨ft', fl'⟩, s', ?_, hlinked', hout⟩
  rw [insertPacket, hrun']
  rfl
end Insertions

/-! ## Runs -/

/-- The tracker can take the packet: a first fragment is not cut, and a later one overlaps the
fragments of the list in a way that the policy handles well. -/
def HandleOk (tr : Tracker) (p : Packet) : Prop :=
  if tr.ft.engine then
    ∀ l, tr.fl.Lists l → Clean tr.ft.fragPolicy (p.start tr.ft) (p.stop tr.ft) l
  else FirstOk p

/-- The tracker can take each of the packets when it comes. -/
def RunOk (fe : FragEngine) : Tracker → List Packet → Prop
  | _, [] => True
  | tr, p :: ps => HandleOk tr p ∧ ∀ tr', handle fe tr p = some tr' → RunOk fe tr' ps

/-- A tracker without fragments, or with a well formed list. -/
inductive Tracked (tr : Tracker) : Prop
  | unused (engine : tr.ft.engine = false) (lists : FraglistOk tr [])
  | used (s : Nodes Fragment) (engine : tr.ft.engine = true)
      (calculatedSize : tr.ft.calculatedSize < 65536) (linked : Linked True tr.fl s)
      (ok : ListOk tr.ft s)

section Runs
variable {fe : FragEngine} {p : Packet} {tr : Tracker}

theorem Tracked.fraglistOk (h : Tracked tr) : ∃ l, FraglistOk tr l := by
  cases h with
  | unused _ lists => exact ⟨[], lists⟩
  | used s _ _ linked ok =>
    have hlt : s.list.Pairwise fun x y => lo x < lo y :=
      ok.ordered.pairwise.imp_of_mem fun hx _ hle => (ok.ordered.lt _ hx).trans_le hle
    refine ⟨s.list, ⟨linked.lists, linked.tail trivial, linked.count trivial, hlt,
      ok.ordered.pairwise, fun x hx => ?_, fun x hx => (ok.within x hx).data_nonneg,
      fun x hx => (ok.within x hx).data_le, ok.fragBytes⟩⟩
    have hpos := ok.ordered.lt x hx
    simp only [lo, hi, Fragment.fin] at hpos
    omega

theorem Tracked.zero : Tracked .zero := by
  refine .unused rfl ⟨⟨trivial, rfl⟩, rfl, rfl, .nil, .nil, ?_, ?_, ?_, rfl⟩
  all_goals exact fun x hx => absurd hx not_mem_nil

theorem Tracked.handle (h : Tracked tr) (hdsize : p.dsize ≤ 32767)
    (hok : HandleOk tr p) : ∃ tr', Ip.handle fe tr p = some tr' ∧ Tracked tr' := by
  cases h with
  | unused engine lists =>
    rw [HandleOk, if_neg (by simp [engine])] at hok
    refine ⟨newTracker fe p tr, by rw [Ip.handle, if_neg (by simp [engine])], ?_⟩
    by_cases hsnap : (p.dsize = 0 || decide (fe.snapLen < p.dsize)) = true
    · rw [newTracker, if_pos hsnap]
      exact .unused engine lists
    · obtain ⟨hengine, -, -, -, hcalc⟩ := @firstTracker_fields fe p tr.ft.events
      refine .used _ ?_ ?_ (newTracker_linked fe p tr hsnap) (newTracker_listOk hok hdsize hsnap)
      · rw [newTracker, if_neg hsnap]
        exact hengine
      · rw [newTracker, if_neg hsnap]
        rw [hcalc]
        split_ifs
        · decide
        · exact u16_lt _
  | used s engine calculatedSize linked ok =>
    rw [HandleOk, if_pos engine] at hok
    obtain ⟨ret, tr', s', hinsert, hlinked, hout⟩ :=
      @insertPacket_outcome fe p tr s True hdsize calculatedSize linked ok (hok _ linked.lists)
    refine ⟨tr', by rw [Ip.handle, if_pos engine, hinsert]; rfl, .used s' ?_ ?_ hlinked ?_⟩
    · exact hout.engine.trans engine
    · exact hout.calculatedSize_lt calculatedSize
    · exact hout.listOk ok

theorem Tracked.run {ps : List Packet} (h : Tracked tr) (hps : ∀ p ∈ ps, p.dsize ≤ 32767)
    (hok : RunOk fe tr ps) : ∃ tr', ps.foldlM (Ip.handle fe) tr = some tr' ∧ Tracked tr' := by
  induction ps generalizing tr with
  | nil => exact ⟨tr, rfl, h⟩
  | cons p ps ih =>
    obtain ⟨hp, hrest⟩ := forall_mem_cons.mp hps
    obtain ⟨tr₁, hhandle, h₁⟩ : ∃ tr₁, Ip.handle fe tr p = some tr₁ ∧ Tracked tr₁ :=
      h.handle hp hok.1
    obtain ⟨tr', hrun, h'⟩ := ih h₁ hrest (hok.2 tr₁ hhandle)
    exact ⟨tr', by rw [foldlM_cons, hhandle]; exact hrun, h'⟩

/-- Along every run whose packets the tracker can take, the list is well formed, whatever `insert`
returns. -/
theorem fraglist_wellFormed (fe : FragEngine) (ps : List Packet)
    (hps : ∀ p ∈ ps, 1 ≤ p.dsize ∧ p.dsize ≤ 32767) (hok : RunOk fe .zero ps) :
    ∃ tr, ps.foldlM (Ip.handle fe) .zero = some tr ∧ ∃ l, FraglistOk tr l := by
  obtain ⟨tr, hrun, h⟩ := Tracked.zero.run (fun p hp => (hps p hp).2) hok
  exact ⟨tr, hrun, h.fraglistOk⟩
end Runs

/-! ## Short fragments -/

/-- An IPv4 fragment without options. -/
def fragPacket (units : Fin 8192) (mf : Bool) (data : List Byte)
    (isFragment : 8 * (units : ℕ) ≠ 0 ∨ mf = true) (dsize_lt : data.length < 65536) : Packet where
  isIp4 := true
  off := 8 * units
  mf := mf
  data := data
  proto := 17
  ttl := 64
  ts := ⟨0, 0⟩
  ipOptData := []
  ipOptCodes := []
  ssnPolicy := none
  isFragment := isFragment
  off_lt := by omega
  off_mod := Nat.mul_mod_right 8 _
  dsize_lt := dsize_lt

/-- An engine with one policy, without limits. -/
def policyEngine (fragPolicy : FragPolicy) : FragEngine where
  maxOverlaps := 0
  minFragmentLength := 0
  fragTimeout := 60
  fragPolicy := fragPolicy
  minTtl := 1
  snapLen := 1518

/-- A short fragment with more to come. -/
def moreFragment (units : ℕ) (data : List Byte) : Packet :=
  fragPacket (Fin.ofNat 8192 units) true (data.take 255) (.inr rfl)
    (by rw [length_take]; omega)

/-- A short last fragment, that is not the first one. -/
def lastFragment (units : ℕ) (data : List Byte) : Packet :=
  fragPacket (Fin.ofNat 8191 units).succ false (data.take 255)
    (.inl (Nat.mul_ne_zero (by decide) (Nat.succ_ne_zero _))) (by rw [length_take]; omega)

/-- A first fragment of eight equal bytes. -/
def eightBytes (b : Byte) : Packet := moreFragment 0 (replicate 8 b)

/-- The last fragment of a datagram of twelve bytes. -/
def lastFour : Packet := lastFragment 0 (replicate 4 2)

/-- A datagram of two fragments. -/
def twoFragments : List Packet := [eightBytes 1, lastFour]

theorem fraglist_wellFormed_linux :
    RunOk (policyEngine .linux) .zero twoFragments ∧
      ∃ tr, twoFragments.foldlM (handle (policyEngine .linux)) .zero = some tr ∧
        ∃ l, FraglistOk tr l := by
  have hok : RunOk (policyEngine .linux) .zero twoFragments := by
    have hfirst : FirstOk (eightBytes 1) :=
      ⟨fun _ => by decide, by decide⟩
    refine ⟨hfirst, fun tr htr => ⟨?_, fun _ _ => trivial⟩⟩
    obtain rfl := Option.some.inj htr
    exact fun l _ => rightOk_of_policy (.inr (.inl rfl))
  exact ⟨hok, fraglist_wellFormed _ _ (by decide) hok⟩

/-- A first fragment whose length is not a multiple of eight: its size is rounded down in the list,
but all of its bytes are counted. -/
theorem short_first_not_wellFormed :
    ∃ tr, [fragPacket 0 true (replicate 12 1) (by decide) (by decide)].foldlM
        (handle (policyEngine .linux)) .zero = some tr ∧ ∀ l, ¬ FraglistOk tr l := by
  refine ⟨_, rfl, fun l h => ?_⟩
  have hl := h.toLists.unique (newTracker_linked (policyEngine .linux)
    (fragPacket 0 true (replicate 12 1) (by decide) (by decide)) .zero (by decide)).lists
  have hbytes := h.fragBytes
  rw [hl] at hbytes
  exact absurd hbytes (by decide)
end Snort.Ip
