import Snort.Structures.WriteHistory
import Snort.Stream.Ip.FraglistRuns

/-!
# The bytes of a datagram

Which byte the list of a tracker holds for an offset of the datagram. Under the
last policy it is that of the last fragment with this offset. Under the first
policy it is that of the first one, as long as the overlaps are handled well.
-/

namespace Snort.Ip
open List DoublyLinked ListProgram IntervalList WriteHistory
open Option (some.inj)

/-! ## Bytes -/

/-- The packet has a byte for the offset. -/
def Packet.Covers (p : Packet) (i : ℕ) : Prop := p.off ≤ i ∧ i < p.off + p.dsize

instance (p : Packet) (i : ℕ) : Decidable (p.Covers i) := inferInstanceAs (Decidable (_ ∧ _))

def Packet.byteAt (p : Packet) (i : ℕ) : Byte := p.data.getD (i - p.off) 0

/-- The byte that the fragments hold for an offset. -/
def heldByte (l : List Node) (i : ℕ) : Option Byte :=
  (l.find? fun x => decide (lo x ≤ i ∧ i < hi x)).bind fun x => x.2.byteAt i

section Held
variable {l : List Node} {x : Node} {i : ℕ}

theorem heldByte_of_mem (hord : Ordered lo hi l) (hx : x ∈ l) (hi' : lo x ≤ i ∧ i < hi x) :
    heldByte l i = x.2.byteAt i := by
  rw [heldByte]
  cases hfind : l.find? fun x => decide (lo x ≤ i ∧ i < hi x) with
  | none => exact absurd (decide_eq_true hi') (find?_eq_none.mp hfind x hx)
  | some y =>
    have hy : lo y ≤ i ∧ i < hi y := by simpa using find?_some hfind
    rw [hord.unique hx (mem_of_find?_eq_some hfind) hi' hy]
    rfl

theorem heldByte_of_not_covers (h : ¬ Covers lo hi l i) : heldByte l i = none := by
  rw [heldByte, find?_eq_none.mpr]
  · rfl
  · intro x hx hi'
    exact h ⟨x, hx, of_decide_eq_true hi'⟩

theorem NewFrag.whole_byteAt {p : Packet} {new : NewFrag} (hstart : new.fragOffset = p.off)
    (h : p.Covers i) : (new.whole p).byteAt i = some (p.byteAt i) := by
  obtain ⟨hlo, hhi⟩ := h
  have hk : (0 : ℤ) + i - p.off = (i - p.off : ℕ) := by omega
  simp only [Fragment.byteAt, NewFrag.whole, hstart, hk, Int.toNat_natCast, Packet.byteAt]
  rw [if_pos (Int.natCast_nonneg _), getD_eq_getElem?_getD,
    getElem?_eq_getElem (show i - p.off < p.data.length by simp only [Packet.dsize] at hhi; omega)]
  rfl
end Held

/-! ## One insertion -/

section Insertion
variable {p : Packet} {new : NewFrag} {l : List Node} {ft₁ ft' : FragTracker} {s' : Nodes Fragment}
  {i : ℕ}

/-- What an edited list holds comes from the list before, or from the new fragment. -/
theorem Edited.covers_origin (h : Edited p new l ft₁ ft' s') {x : Node} (hx : x ∈ s'.list)
    (hxi : lo x ≤ i ∧ i < hi x) (hfits : new.Fits p) :
    (new.fragOffset ≤ i ∧ i < new.fragEnd ∧ Part x.2 (new.whole p)) ∨
      ∃ z ∈ l, (lo z ≤ i ∧ i < hi z) ∧ Part x.2 z.2 := by
  obtain ⟨w, hw, hpart⟩ := h.origin x hx
  have hoff := hpart.offset
  have hfin := hpart.fin
  rw [mem_cons, mem_map] at hw
  rcases hw with rfl | ⟨z, hz, rfl⟩
  · have := hfits.lt
    simp only [NewFrag.whole, Fragment.fin] at hoff hfin
    simp only [lo, hi, Fragment.fin] at hxi
    exact .inl ⟨by omega, by omega, hpart⟩
  · exact .inr ⟨z, hz, ⟨hoff.trans hxi.1, hxi.2.trans_le hfin⟩, hpart⟩

variable (hfits : new.Fits p) (hl : Ordered lo hi l) (hstart : new.fragOffset = p.off)
  (hstop : new.fragEnd = p.off + p.dsize) (h : Edited p new l ft₁ ft' s')
  (hin : Inserted p new ft₁ s'.list)
include hfits hl hstart hstop h hin

theorem Edited.heldByte_last (hp : ft₁.fragPolicy = .last) :
    heldByte s'.list i = if p.Covers i then some (p.byteAt i) else heldByte l i := by
  by_cases hc : p.Covers i
  · -- the new fragment is stored as it is
    obtain ⟨x, hx, hpart, hlo, hhi⟩ := hin.last hp
    rw [if_pos hc, heldByte_of_mem h.ordered hx (by rw [hlo, hhi, hstart, hstop]; exact hc),
      hpart.byteAt, NewFrag.whole_byteAt hstart hc]
  · have hout : i < new.fragOffset ∨ new.fragEnd ≤ i := by
      simp only [Packet.Covers] at hc
      omega
    rw [if_neg hc]
    by_cases hcl : Covers lo hi l i
    · obtain ⟨y, hy, hyi⟩ := hcl
      obtain ⟨x, hx, hxi⟩ := h.outside hp i hout ⟨y, hy, hyi⟩
      rcases h.covers_origin hx hxi hfits with ⟨hlo, hhi, -⟩ | ⟨z, hz, hzi, hpart⟩
      · omega
      · rw [heldByte_of_mem h.ordered hx hxi, hpart.byteAt, heldByte_of_mem hl hz hzi]
    · rw [heldByte_of_not_covers hcl, heldByte_of_not_covers]
      rintro ⟨x, hx, hxi⟩
      rcases h.covers_origin hx hxi hfits with ⟨hlo, hhi, -⟩ | ⟨z, hz, hzi, -⟩
      · omega
      · exact hcl ⟨z, hz, hzi⟩

theorem Edited.heldByte_first (hp : ft₁.fragPolicy = .first) (hwithin : ∀ x ∈ l, x.2.Within) :
    heldByte s'.list i = (heldByte l i).or (if p.Covers i then some (p.byteAt i) else none) := by
  by_cases hcl : Covers lo hi l i
  · -- what was there is kept
    obtain ⟨y, hy, hyi⟩ := hcl
    have hsome := (hwithin y hy).byteAt_isSome hyi
    rw [heldByte_of_mem hl hy hyi, heldByte_of_mem h.ordered (h.kept hp y hy) hyi]
    obtain ⟨b, hb⟩ := Option.isSome_iff_exists.mp hsome
    rw [hb]
    rfl
  · rw [heldByte_of_not_covers hcl, Option.none_or]
    by_cases hc : p.Covers i
    · obtain ⟨x, hx, hxi⟩ := hin.first hp i (by rw [hstart]; exact hc.1) (by rw [hstop]; exact hc.2)
      rcases h.covers_origin hx hxi hfits with ⟨-, -, hpart⟩ | ⟨z, hz, hzi, -⟩
      · rw [if_pos hc, heldByte_of_mem h.ordered hx hxi, hpart.byteAt,
          NewFrag.whole_byteAt hstart hc]
      · exact absurd ⟨z, hz, hzi⟩ hcl
    · rw [if_neg hc, heldByte_of_not_covers]
      rintro ⟨x, hx, hxi⟩
      rcases h.covers_origin hx hxi hfits with ⟨hlo, hhi, -⟩ | ⟨z, hz, hzi, -⟩
      · simp only [Packet.Covers] at hc
        omega
      · exact hcl ⟨z, hz, hzi⟩

omit hl hin in
/-- Under the first policy, a fragment that was not there is a part of the new one. -/
theorem Edited.new_range (hp : ft₁.fragPolicy = .first) {x : Node} (hx : x ∈ s'.list)
    (hnew : x ∉ l) : p.off ≤ lo x ∧ hi x ≤ p.off + p.dsize := by
  obtain ⟨w, hw, hpart⟩ := h.origin x hx
  rw [mem_cons, mem_map] at hw
  rcases hw with rfl | ⟨z, hz, rfl⟩
  · have hoff := hpart.offset
    have hfin := hpart.fin
    have := hfits.lt
    simp only [NewFrag.whole, Fragment.fin] at hoff hfin
    simp only [lo, hi, Fragment.fin]
    omega
  · -- two fragments of the list would overlap
    have hxlt := h.ordered.lt x hx
    have heq := h.ordered.unique hx (h.kept hp z hz) ⟨le_refl (lo x), hxlt⟩
      ⟨hpart.offset, hxlt.trans_le hpart.fin⟩
    exact absurd (heq ▸ hz) hnew
end Insertion

/-! ## Runs -/

/-- A fragment that fits into a datagram, and ends at a multiple of eight unless it is the last
one. -/
structure PacketOk (p : Packet) : Prop where
  pos : 1 ≤ p.dsize
  dsize_le : p.dsize ≤ 32767
  fin_lt : p.off + p.dsize < 65536
  dvd : p.mf = true → 8 ∣ p.dsize

/-- The packet is handled with success. -/
def accept (fe : FragEngine) (tr : Tracker) (p : Packet) : Option Tracker :=
  if tr.ft.engine then
    match insertPacket fe p tr with
    | some (.ok, tr') => some tr'
    | _ => none
  else if p.dsize = 0 || fe.snapLen < p.dsize then none
  else some (newTracker fe p tr)

section Runs
variable {fe : FragEngine} {p : Packet} {tr tr' : Tracker} {s : Nodes Fragment}
  {ft : FragTracker} {ps : List Packet}

theorem PacketOk.firstOk (h : PacketOk p) : FirstOk p := ⟨h.dvd, Nat.le_of_lt_succ h.fin_lt⟩

theorem PacketOk.start_eq (hp : ft.fragPolicy ≠ .solaris) :
    p.start ft = p.off := if_neg fun h => hp h.1

theorem PacketOk.stop_eq (h : PacketOk p) (hp : ft.fragPolicy ≠ .solaris) :
    p.stop ft = p.off + p.dsize := by
  simp only [Packet.stop, start_eq hp]
  split_ifs with hmf
  · obtain ⟨k, hk⟩ := h.dvd hmf
    have := p.off_mod
    omega
  · rfl

/-- A tracker with a list of fragments. -/
structure InUse (policy : FragPolicy) (tr : Tracker) (s : Nodes Fragment) : Prop where
  engine : tr.ft.engine = true
  fragPolicy : tr.ft.fragPolicy = policy
  calculatedSize : tr.ft.calculatedSize < 65536
  linked : Linked True tr.fl s
  ok : ListOk tr.ft s

theorem accept_first (h : PacketOk p) (hengine : tr.ft.engine = false)
    (haccept : accept fe tr p = some tr') :
    InUse (p.ssnPolicy.getD fe.fragPolicy) tr'
      ⟨[(tr.fl.fresh, firstFragment p)], tr.fl.fresh + 1⟩ := by
  rw [accept, if_neg (by simp [hengine])] at haccept
  split_ifs at haccept with hsnap
  obtain rfl := some.inj haccept
  obtain ⟨heng, -, -, hpolicy, hcalc⟩ := @firstTracker_fields fe p tr.ft.events
  have hft : (newTracker fe p tr).ft = firstTracker fe p tr.ft.events := by
    rw [newTracker, if_neg hsnap]
  refine ⟨hft ▸ heng, hft ▸ hpolicy, ?_, newTracker_linked fe p tr hsnap,
    newTracker_listOk h.firstOk h.dsize_le hsnap⟩
  rw [hft, hcalc]
  split_ifs
  · decide
  · exact u16_lt _

theorem accept_later {policy : FragPolicy} (h : PacketOk p) (htr : InUse policy tr s)
    (hsolaris : policy ≠ .solaris) (hclean : Clean policy p.off (p.off + p.dsize) s.list)
    (haccept : accept fe tr p = some tr') :
    ∃ s' new ft₁, InUse policy tr' s' ∧ new.Fits p ∧ new.fragOffset = p.off ∧
      new.fragEnd = p.off + p.dsize ∧ Edited p new s.list ft₁ tr'.ft s' ∧
      Inserted p new ft₁ s'.list ∧ ft₁.fragPolicy = policy := by
  have hsol : tr.ft.fragPolicy ≠ .solaris := htr.fragPolicy ▸ hsolaris
  have hstart : p.start tr.ft = p.off := PacketOk.start_eq hsol
  have hstop := h.stop_eq hsol
  have hclean' : Clean tr.ft.fragPolicy (p.start tr.ft) (p.stop tr.ft) s.list := by
    rw [hstart, hstop, htr.fragPolicy]
    exact hclean
  obtain ⟨ret, tr₁, s', hinsert, hlinked, hout⟩ :=
    @insertPacket_outcome fe p tr s True h.dsize_le htr.calculatedSize htr.linked htr.ok hclean'
  rw [accept, if_pos htr.engine, hinsert] at haccept
  cases ret with
  | ok =>
    obtain rfl := some.inj haccept
    have hok := hout.listOk htr.ok
    have hsize := hout.calculatedSize_lt htr.calculatedSize
    have hengine := hout.engine.trans htr.engine
    cases hout with
    | returned _ hret _ => exact absurd rfl hret
    | edited new ft₁ started fits start stop _ edited inserted =>
      have hpolicy : ft₁.fragPolicy = policy := started.fragPolicy.trans htr.fragPolicy
      exact ⟨s', new, ft₁, ⟨hengine, edited.same.fragPolicy.trans hpolicy, hsize, hlinked, hok⟩,
        fits,
        start.trans hstart, stop.trans hstop, edited, inserted rfl, hpolicy⟩
  | failed => exact absurd haccept nofun
  | attack => exact absurd haccept nofun
  | anomaly => exact absurd haccept nofun
  | overlapLimit => exact absurd haccept nofun

theorem heldByte_firstFragment (h : PacketOk p) (a i : ℕ) :
    heldByte [(a, firstFragment p)] i = if p.Covers i then some (p.byteAt i) else none := by
  have hsize := firstFragment_size h.firstOk
  have hpos := h.pos
  have hoff : lo (a, firstFragment p) = p.off := rfl
  have hfin : hi (a, firstFragment p) = p.off + p.dsize := by
    simp only [hi, Fragment.fin, hsize]
    rfl
  have hord : Ordered lo hi [(a, firstFragment p)] := by
    refine Ordered.cons_iff.mpr ⟨?_, .nil, fun y hy => absurd hy not_mem_nil⟩
    rw [hoff, hfin]
    omega
  split_ifs with hc
  · rw [heldByte_of_mem hord mem_cons_self (by rw [hoff, hfin]; exact hc)]
    exact @NewFrag.whole_byteAt i p ⟨p.off, p.off, p.off + p.dsize, p.dsize, !p.mf⟩ rfl hc
  · refine heldByte_of_not_covers ?_
    rintro ⟨x, hx, hxi⟩
    rw [mem_singleton.mp hx, hoff, hfin] at hxi
    exact hc hxi

theorem accept_concat (h : (ps ++ [p]).foldlM (accept fe) .zero = some tr) :
    ∃ tr₁, ps.foldlM (accept fe) .zero = some tr₁ ∧ accept fe tr₁ p = some tr := by
  rw [foldlM_append] at h
  obtain ⟨tr₁, h₁, h₂⟩ := Option.bind_eq_some_iff.mp h
  refine ⟨tr₁, h₁, ?_⟩
  obtain ⟨tr₂, h₃, h₄⟩ := Option.bind_eq_some_iff.mp h₂
  exact h₃.trans (congrArg some (some.inj h₄))

theorem run_last (hps : ∀ p ∈ ps, PacketOk p)
    (hpolicy : ∀ p ∈ ps.head?, p.ssnPolicy.getD fe.fragPolicy = .last) (hne : ps ≠ [])
    (hrun : ps.foldlM (accept fe) .zero = some tr) :
    ∃ s, InUse .last tr s ∧ ∀ i, heldByte s.list i = last Packet.Covers Packet.byteAt ps i := by
  induction ps using List.reverseRecOn generalizing tr with
  | nil => exact absurd rfl hne
  | append_singleton ps p ih =>
    obtain ⟨tr₁, hrun₁, haccept⟩ := accept_concat hrun
    have hp : PacketOk p := hps p (by simp)
    simp only [last_concat]
    cases ps with
    | nil =>
      obtain rfl := some.inj hrun₁
      have huse := accept_first hp rfl haccept
      rw [hpolicy p rfl] at huse
      exact ⟨_, huse, fun i => heldByte_firstFragment hp _ i⟩
    | cons q qs =>
      obtain ⟨s, huse, hheld⟩ := ih (fun p' hp' => hps p' (mem_append_left _ hp'))
        hpolicy nofun hrun₁
      obtain ⟨s', new, ft₁, huse', hfits, hstart, hstop, hedited, hinserted, hft₁⟩ :=
        accept_later hp huse nofun (rightOk_of_policy (.inl rfl)) haccept
      refine ⟨s', huse', fun i => ?_⟩
      rw [hedited.heldByte_last hfits huse.ok.ordered hstart hstop hinserted hft₁, hheld]

/-- Under the last policy, the list holds for each offset the byte of the last fragment that covers
it. -/
theorem lastPolicy_heldByte (fe : FragEngine) (ps : List Packet) (tr : Tracker)
    (hps : ∀ p ∈ ps, PacketOk p)
    (hpolicy : ∀ p ∈ ps.head?, p.ssnPolicy.getD fe.fragPolicy = .last)
    (hrun : ps.foldlM (accept fe) .zero = some tr) :
    ∃ l, tr.fl.Lists l ∧ Ordered lo hi l ∧
      ∀ i, heldByte l i = last Packet.Covers Packet.byteAt ps i := by
  cases ps with
  | nil =>
    obtain rfl := some.inj hrun
    exact ⟨[], ⟨trivial, rfl⟩, .nil, fun i => rfl⟩
  | cons p ps =>
    obtain ⟨s, huse, hheld⟩ := run_last hps hpolicy nofun hrun
    exact ⟨s.list, huse.linked.lists, huse.ok.ordered, hheld⟩

/-- Each packet, when it comes, overlaps the fragments of the list in a way that the first policy
handles well. -/
def CleanRun (fe : FragEngine) (ps : List Packet) : Prop :=
  ∀ qs p rs tr l, ps = qs ++ p :: rs → qs.foldlM (accept fe) .zero = some tr → tr.fl.Lists l →
    Clean .first p.off (p.off + p.dsize) l

theorem CleanRun.init (h : CleanRun fe (ps ++ [p])) : CleanRun fe ps :=
  fun qs q rs tr l heq => h qs q (rs ++ [p]) tr l (by rw [heq, append_assoc, cons_append])

theorem run_first_policy (hps : ∀ p ∈ ps, PacketOk p)
    (hpolicy : ∀ p ∈ ps.head?, p.ssnPolicy.getD fe.fragPolicy = .first) (hne : ps ≠ [])
    (hclean : CleanRun fe ps) (hrun : ps.foldlM (accept fe) .zero = some tr) :
    ∃ s, InUse .first tr s ∧ ∀ i, heldByte s.list i = first Packet.Covers Packet.byteAt ps i := by
  induction ps using List.reverseRecOn generalizing tr with
  | nil => exact absurd rfl hne
  | append_singleton ps p ih =>
    obtain ⟨tr₁, hrun₁, haccept⟩ := accept_concat hrun
    have hp : PacketOk p := hps p (by simp)
    simp only [first_concat]
    cases ps with
    | nil =>
      obtain rfl := some.inj hrun₁
      have huse := accept_first hp rfl haccept
      rw [hpolicy p rfl] at huse
      exact ⟨_, huse, fun i => heldByte_firstFragment hp _ i⟩
    | cons q qs =>
      obtain ⟨s, huse, hheld⟩ := ih (fun p' hp' => hps p' (mem_append_left _ hp'))
        hpolicy nofun hclean.init hrun₁
      obtain ⟨s', new, ft₁, huse', hfits, hstart, hstop, hedited, hinserted, hft₁⟩ :=
        accept_later hp huse (by decide)
          (hclean (q :: qs) p [] tr₁ s.list rfl hrun₁ huse.linked.lists)
          haccept
      refine ⟨s', huse', fun i => ?_⟩
      rw [hedited.heldByte_first hfits huse.ok.ordered hstart hstop hinserted hft₁ huse.ok.within,
        hheld]

/-- Under the first policy, a packet that overlaps the list in a way that is handled well leaves a
list that holds for each offset the byte of the first fragment that covers it. The new fragments of
the list lie in the range of the packet. -/
theorem firstPolicy_heldByte (fe : FragEngine) (ps : List Packet) (p : Packet) (tr tr' : Tracker)
    (hps : ∀ q ∈ ps ++ [p], PacketOk q)
    (hpolicy : ∀ q ∈ (ps ++ [p]).head?, q.ssnPolicy.getD fe.fragPolicy = .first)
    (hclean : CleanRun fe (ps ++ [p])) (hrun : ps.foldlM (accept fe) .zero = some tr)
    (haccept : accept fe tr p = some tr') :
    ∃ l l', tr.fl.Lists l ∧ tr'.fl.Lists l' ∧ Ordered lo hi l' ∧
      (∀ i, heldByte l' i = first Packet.Covers Packet.byteAt (ps ++ [p]) i) ∧
      ∀ x ∈ l', x ∉ l → p.off ≤ lo x ∧ hi x ≤ p.off + p.dsize := by
  have hp : PacketOk p := hps p (by simp)
  have hrun' : (ps ++ [p]).foldlM (accept fe) .zero = some tr' := by
    rw [foldlM_append, hrun]
    show (accept fe tr p).bind _ = _
    rw [haccept]
    rfl
  obtain ⟨s', huse', hheld⟩ := run_first_policy hps hpolicy (by simp) hclean hrun'
  cases ps with
  | nil =>
    obtain rfl := some.inj hrun
    refine ⟨[], s'.list, ⟨trivial, rfl⟩, huse'.linked.lists, huse'.ok.ordered, hheld,
      fun x hx _ => ?_⟩
    have hfirst := accept_first hp rfl haccept
    rw [huse'.linked.lists.unique hfirst.linked.lists] at hx
    rw [mem_singleton.mp hx]
    refine ⟨le_refl _, ?_⟩
    simp only [hi, Fragment.fin, firstFragment_size hp.firstOk]
    exact le_refl _
  | cons q qs =>
    obtain ⟨s, huse, -⟩ := run_first_policy (fun p' hp' => hps p' (mem_append_left _ hp')) hpolicy
      (cons_ne_nil q qs) hclean.init hrun
    obtain ⟨s₁, new, ft₁, huse₁, hfits, hstart, hstop, hedited, -, hft₁⟩ :=
      accept_later hp huse (by decide) (hclean (q :: qs) p [] tr s.list rfl hrun huse.linked.lists)
        haccept
    have hlists := huse'.linked.lists.unique huse₁.linked.lists
    refine ⟨s.list, s'.list, huse.linked.lists, huse'.linked.lists, huse'.ok.ordered, hheld,
      fun x hx hnew => ?_⟩
    rw [hlists] at hx
    exact hedited.new_range hfits hstart hstop hft₁ hx hnew
end Runs

/-- A fragment, and one in the middle of it. -/
def middleFragment : List Packet :=
  [moreFragment 0 (replicate 24 1),
    moreFragment 1 (replicate 8 2)]

theorem middleFragment_ok : ∀ p ∈ middleFragment, PacketOk p := by
  intro p hp
  rcases mem_cons.mp hp with rfl | hp
  · exact ⟨by decide, by decide, by decide, fun _ => by decide⟩
  · rw [mem_singleton.mp hp]
    exact ⟨by decide, by decide, by decide, fun _ => by decide⟩

theorem lastPolicy_middleFragment :
    ∃ tr l, middleFragment.foldlM (accept (policyEngine .last)) .zero = some tr ∧
      tr.fl.Lists l ∧ heldByte l 9 = some 2 := by
  have hrun : ∃ tr, middleFragment.foldlM (accept (policyEngine .last)) .zero = some tr := ⟨_, rfl⟩
  obtain ⟨tr, hrun⟩ := hrun
  obtain ⟨l, hl, -, hheld⟩ :=
    lastPolicy_heldByte (policyEngine .last) middleFragment tr middleFragment_ok
      (fun p hp => by rw [← some.inj hp]; rfl) hrun
  exact ⟨tr, l, hrun, hl, (hheld 9).trans (by decide)⟩

/-- A fragment, and one that begins in it. -/
def laterFragment : Packet := moreFragment 1 (replicate 16 2)

def earlierFragment : Packet := moreFragment 0 (replicate 16 1)

theorem cleanRun_laterFragment :
    CleanRun (policyEngine .first) ([earlierFragment] ++ [laterFragment]) := by
  intro qs p rs tr l heq hrun hl
  match qs with
  | [] =>
    obtain rfl := some.inj hrun
    obtain rfl : l = [] := hl.unique ⟨trivial, rfl⟩
    trivial
  | [q] =>
    obtain ⟨rfl, htail⟩ := List.cons.inj heq
    obtain ⟨rfl, -⟩ := List.cons.inj htail
    obtain ⟨tr₁, h₁, haccept⟩ := @accept_concat _ earlierFragment _ [] hrun
    obtain rfl := some.inj h₁
    have huse := accept_first ⟨by decide, by decide, by decide, fun _ => by decide⟩ rfl haccept
    obtain rfl := hl.unique huse.linked.lists
    trivial
  | q :: q' :: qs =>
    have hlen := congrArg List.length heq
    simp at hlen

theorem firstPolicy_laterFragment :
    ∃ tr tr' l', accept (policyEngine .first) .zero earlierFragment = some tr ∧
      accept (policyEngine .first) tr laterFragment = some tr' ∧ tr'.fl.Lists l' ∧
      heldByte l' 9 = some 1 := by
  obtain ⟨tr, tr', h, h'⟩ : ∃ tr tr', accept (policyEngine .first) .zero earlierFragment = some tr ∧
      accept (policyEngine .first) tr laterFragment = some tr' := ⟨_, _, rfl, rfl⟩
  have hok : ∀ q ∈ [earlierFragment] ++ [laterFragment], PacketOk q := by
    intro q hq
    rw [singleton_append, mem_cons, mem_singleton] at hq
    rcases hq with rfl | rfl <;> exact ⟨by decide, by decide, by decide, fun _ => by decide⟩
  obtain ⟨l, l', -, hl', -, hheld, -⟩ :=
    firstPolicy_heldByte (policyEngine .first) [earlierFragment] laterFragment tr tr' hok
      (fun q hq => by rw [← some.inj hq]; rfl) cleanRun_laterFragment
      (by rw [foldlM_cons, h]; rfl) h'
  exact ⟨tr, tr', l', h, h', hl', (hheld 9).trans (by decide)⟩

/-- The list behind the three fragments. -/
def shiftedList : List Node :=
  let new := (range 32).map (BitVec.ofNat 8)
  [(0, ⟨replicate 16 100, 0, 16, 0, 0, false⟩), (2, ⟨new, 8, 8, 16, 2, false⟩),
    (1, ⟨replicate 8 101, 0, 8, 24, 1, false⟩), (3, ⟨new, 16, 16, 32, 3, false⟩)]

/-- Two fragments, and one over both of them: the rest of it behind the second one is inserted with
the bytes of another place. -/
def shiftedChunk : List Packet :=
  [moreFragment 0 (replicate 16 100),
    moreFragment 3 (replicate 8 101),
    moreFragment 1 ((range 32).map (BitVec.ofNat 8))]

theorem firstPolicy_shiftedChunk :
    (∀ p ∈ shiftedChunk, PacketOk p) ∧
      ∃ tr, shiftedChunk.foldlM (accept (policyEngine .first)) .zero = some tr ∧
        tr.fl.Lists shiftedList ∧ heldByte shiftedList 32 = some 16 ∧
        first Packet.Covers Packet.byteAt shiftedChunk 32 = some 24 ∧
        ∃ x ∈ shiftedList, hi x = 48 := by
  refine ⟨fun p hp => ?_, _, rfl, ⟨⟨?_, ?_, ?_, ?_, trivial⟩, rfl⟩, ?_, ?_, ?_⟩
  · rw [shiftedChunk, mem_cons, mem_cons, mem_singleton] at hp
    rcases hp with rfl | rfl | rfl <;>
      exact ⟨by decide, by decide, by decide, fun _ => by decide⟩
  all_goals decide +kernel
end Snort.Ip
