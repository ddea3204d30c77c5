import Snort.Stream.Ip.RightOverlaps

/-!
# Insertions

`insert` on the list machine: whatever it returns, the list is an edited one. If
it succeeds, the first policy has filled the range of the new fragment, and the
last policy has stored the new fragment as it is.
-/

namespace Snort.Ip
open DoublyLinked ListProgram IntervalList Packet
variable {fe : FragEngine} {p : Packet} {new : NewFrag} {l₀ : List Node} {ft₀ ft : FragTracker}
  {s : Nodes Fragment} {fresh : ℕ} {ed : Edit}
  {sized : Except (InsertRet × FragTracker) (FragTracker × ℕ × ℤ)}

/-- What a successful insertion leaves in the list. -/
structure Inserted (p : Packet) (new : NewFrag) (ft₀ : FragTracker) (l : List Node) : Prop where
  first : ft₀.fragPolicy = .first → ∀ i, new.fragOffset ≤ i → i < new.fragEnd → Covers lo hi l i
  last : ft₀.fragPolicy = .last →
    ∃ x ∈ l, Part x.2 (new.whole p) ∧ lo x = new.fragOffset ∧ hi x = new.fragEnd

theorem addFragNode_nothing {lastfrag : Bool} {slide trunc start : ℕ} {left : Option ℕ}
    {Q : FragTracker × Fragment → Nodes Fragment → Prop} (h : Edited p new l₀ ft₀ ft s)
    (hsize : i16 (new.len - slide - trunc) ≤ 0) :
    Does p new l₀ ft₀ (addFragNode p ft lastfrag new.len slide trunc start left) s Q := by
  unfold addFragNode
  rw [if_pos hsize]
  exact .throw nofun h

theorem finishInsert_does (hnew : new.Fits p) (hl₀ : ∀ x ∈ l₀, x.2.Within)
    (h : Edited p new l₀ ft₀ ed.ft s) (hending : Ending new ft₀ ed s.list) :
    Does p new l₀ ft₀ (finishInsert fe p new ed) s fun r s =>
      r.1 = .ok ∧ Edited p new l₀ ft₀ r.2 s ∧ Inserted p new ft₀ s.list := by
  have hlt := hnew.lt
  have hle := hnew.fragEnd_le
  have htiny := h.checkTinyFragments fe p (new.len - ed.slide - ed.trunc)
  unfold finishInsert
  dsimp only
  split_ifs with hlimit hadd
  · exact .throw nofun (htiny.alert _)
  · cases hending with
    | adds before after list _ left slide le_start trunc_nonneg trunc_le before_le le_after first
        last =>
      obtain ⟨l, fresh⟩ := s
      subst list
      have hslide : u16 ed.slide = ed.fragOffset - new.fragOffset := by
        have := u16_of_lt (x := ed.slide) (by omega) (by omega)
        omega
      have htrunc : u16 ed.trunc = ed.trunc.toNat := by
        have := u16_of_lt trunc_nonneg (by omega)
        omega
      rw [hslide, htrunc, left]
      refine .bind ((addFragNode_does htiny hnew hl₀ (by omega) (by omega) before_le
        fun x hx => ?_).mono ?_)
      · have := le_after x hx
        omega
      · rintro ⟨ft', frag⟩ s ⟨rfl, hE, hoff, hfin, -, hpart⟩
        dsimp only at hE hoff hfin hpart
        refine .pure ⟨rfl, hE, ⟨fun hp i hlo hhi => ?_, fun hp => ?_⟩⟩
        · -- the chunk covers what the fragments around it do not
          rw [covers_append, covers_cons]
          by_cases hin : frag.offset ≤ i ∧ i < frag.fin
          · exact .inr (.inl hin)
          · have hc := first hp i hlo hhi (by omega)
            rw [covers_append] at hc
            exact hc.imp_right Or.inr
        · obtain ⟨hstart, htrunc⟩ := last hp
          refine ⟨(fresh, frag), by simp, hpart, ?_, ?_⟩
          · exact hoff.trans hstart
          · simp only [hi]
            omega
    | nothing _ slide_nonneg slide_lt trunc size le_size =>
      have hslide := u16_of_lt slide_nonneg slide_lt
      refine .bind (addFragNode_nothing htiny ?_)
      rw [trunc, hslide, show u16 0 = 0 from rfl, i16_of_lt (by omega) (by omega)]
      omega
    | skips hno => exact absurd hadd (by simp [hno])
  · cases hending with
    | adds _ _ _ hyes => exact absurd hyes hadd
    | nothing hyes => exact absurd hyes hadd
    | skips _ first last => exact .pure ⟨rfl, htiny, ⟨first, fun hp => absurd hp last⟩⟩

/-! ## The begin of an insertion -/

/-- The weird case of Solaris: a last fragment is put behind an earlier last one. -/
def Packet.adjusts (p : Packet) (ft : FragTracker) : Prop :=
  ft.fragPolicy = .solaris ∧ p.mf = false ∧ ft.gotLast = true ∧
    ft.calculatedSize ≤ u16 (p.off + p.dsize)

instance (p : Packet) (ft : FragTracker) : Decidable (p.adjusts ft) :=
  inferInstanceAs (Decidable (_ ∧ _ ∧ _ ∧ _))

/-- Where the fragment begins in the datagram. -/
def Packet.start (p : Packet) (ft : FragTracker) : ℕ :=
  if p.adjusts ft then ft.calculatedSize else p.off

/-- Where it ends; only the last fragment may end anywhere. -/
def Packet.stop (p : Packet) (ft : FragTracker) : ℕ :=
  let fin := p.start ft + p.dsize
  if p.mf then fin - fin % 8 else fin

/-- What the begin of an insertion does to a tracker. -/
structure Started (p : Packet) (ft ft' : FragTracker) : Prop where
  fragPolicy : ft'.fragPolicy = ft.fragPolicy
  fragBytes : ft'.fragBytes = ft.fragBytes
  engine : ft'.engine = ft.engine
  bad : ft.bad = true → ft'.bad = true
  calculatedSize : ft.calculatedSize ≤ ft'.calculatedSize
  calculatedSize_lt : ft.calculatedSize < 65536 → ft'.calculatedSize < 65536
  gotLast : ft'.gotLast = (ft.gotLast || !p.mf)
  last_le : p.mf = false → ft.gotLast = false → ft'.bad = false →
    p.off + p.dsize ≤ ft'.calculatedSize

namespace Started
variable {ft' ft'' : FragTracker}

theorem of_same (h : Started p ft ft') (hsame : ft''.Same ft')
    (hbytes : ft''.fragBytes = ft'.fragBytes) : Started p ft ft'' where
  fragPolicy := hsame.fragPolicy.trans h.fragPolicy
  fragBytes := hbytes.trans h.fragBytes
  engine := hsame.engine.trans h.engine
  bad := fun hb => hsame.bad (h.bad hb)
  calculatedSize := hsame.calculatedSize ▸ h.calculatedSize
  calculatedSize_lt := hsame.calculatedSize ▸ h.calculatedSize_lt
  gotLast := hsame.gotLast.trans h.gotLast
  last_le := fun hmf hgot hbad => by
    refine hsame.calculatedSize ▸ h.last_le hmf hgot (Bool.eq_false_iff.mpr fun hb => ?_)
    rw [hsame.bad hb] at hbad
    exact absurd hbad nofun

theorem alert (h : Started p ft ft') (e : Event) : Started p ft (ft'.alert e) :=
  h.of_same ⟨rfl, rfl, rfl, rfl, rfl, id⟩ rfl
end Started

theorem fragHandleIPOptions_same (q : Packet) (o : ℕ) :
    (fragHandleIPOptions ft q o).Same ft ∧
    (fragHandleIPOptions ft q o).fragBytes = ft.fragBytes := by
  have halerts : ∀ (codes : List ℕ) (ft' : FragTracker),
      (codes.foldl (fun ft code => if code < 128 && code ≠ 0 then ft.alert .ipOptions else ft)
        ft').Same ft' ∧
      (codes.foldl (fun ft code => if code < 128 && code ≠ 0 then ft.alert .ipOptions else ft)
        ft').fragBytes = ft'.fragBytes := by
    intro codes
    induction codes with
    | nil => exact fun ft' => ⟨.refl ft', rfl⟩
    | cons code codes ih =>
      intro ft'
      rw [List.foldl_cons]
      split_ifs
      · obtain ⟨hsame, hbytes⟩ := ih (ft'.alert .ipOptions)
        exact ⟨⟨hsame.1, hsame.2, hsame.3, hsame.4, hsame.5, hsame.6⟩, hbytes⟩
      · exact ih ft'
  unfold fragHandleIPOptions
  dsimp only
  split_ifs
  all_goals first
    | exact ⟨⟨rfl, rfl, rfl, rfl, rfl, id⟩, rfl⟩
    | skip
  obtain ⟨hsame, hbytes⟩ := halerts q.ipOptCodes
    { ft with copiedIpOptionsLen := q.ipOptData.length % 256 }
  exact ⟨⟨hsame.1, hsame.2, hsame.3, hsame.4, hsame.5, hsame.6⟩, hbytes⟩

theorem fragCheckFirstLast_of_mf (hmf : p.mf = true) :
    fragCheckFirstLast p ft p.off =
      (.ok, { ft with
        gotFirst := ft.gotFirst || decide (p.off = 0)
        noBsdVuln := ft.noBsdVuln || decide (p.off ≠ 0) }) := by
  unfold fragCheckFirstLast
  rw [hmf]
  by_cases hoff : p.off = 0
  · simp [hoff]
  · simp [hoff]

theorem fragCheckFirstLast_of_last (hmf : p.mf = false) :
    ((fragCheckFirstLast p ft p.off).1 = .lastOffsetAdjust ↔ p.adjusts ft) ∧
      (fragCheckFirstLast p ft p.off).2 = { ft with
        gotLast := true
        noBsdVuln := true
        calculatedSize := if p.adjusts ft then ft.calculatedSize
          else max ft.calculatedSize (u16 (p.off + p.dsize)) } := by
  have hoff : 0 < p.off := Nat.pos_of_ne_zero (p.isFragment.resolve_right (by simp [hmf]))
  have hcond : ¬ ((p.mf && decide (p.off = 0)) = true) := by simp [hmf]
  have hcond' : (!p.mf && decide (0 < p.off)) = true := by simp [hmf, hoff]
  generalize hfin : u16 (p.off + p.dsize) = fin
  have hadj : p.adjusts ft ↔ ft.fragPolicy = .solaris ∧ ft.gotLast = true ∧
      ft.calculatedSize ≤ fin := by
    rw [adjusts, hfin]
    simp [hmf]
  unfold fragCheckFirstLast
  rw [if_neg hcond, if_pos hcond', hfin]
  by_cases hsmall : fin < ft.calculatedSize
  · have hno : ¬ p.adjusts ft := fun h => by have := (hadj.mp h).2.2; omega
    have hmax : max ft.calculatedSize fin = ft.calculatedSize := max_eq_left hsmall.le
    by_cases hgot : ft.gotLast = true
    · simp [hgot, hsmall, hno, hmax, hoff.ne', Nat.not_lt.mpr hsmall.le]
    · simp [hgot, hno, hmax, hoff.ne', Nat.not_lt.mpr hsmall.le]
  · have hle : ft.calculatedSize ≤ fin := Nat.not_lt.mp hsmall
    have hmax : max ft.calculatedSize fin = fin := max_eq_right hle
    by_cases hgot : ft.gotLast = true
    · by_cases hsolaris : ft.fragPolicy = .solaris
      · have hyes : p.adjusts ft := hadj.mpr ⟨hsolaris, hgot, hle⟩
        simp [hgot, hsmall, hsolaris, hyes, hoff.ne']
      · have hno : ¬ p.adjusts ft := fun h => hsolaris (hadj.mp h).1
        rcases Nat.eq_or_lt_of_le hle with heq | hlt
        · simp [hgot, hsolaris, hno, hoff.ne', heq]
        · simp [hgot, hsmall, hsolaris, hno, hmax, hoff.ne', hlt]
    · have hno : ¬ p.adjusts ft := fun h => hgot (hadj.mp h).2.1
      rcases Nat.eq_or_lt_of_le hle with heq | hlt
      · simp [hgot, hno, hoff.ne', heq]
      · simp [hgot, hno, hmax, hoff.ne', hlt]

/-- How `insert` begins: it returns early, or knows the new fragment. -/
def Starts (p : Packet) (ft : FragTracker) :
    Except (InsertRet × FragTracker) (FragTracker × NewFrag) → Prop
  | .error (ret, ft') => ret ≠ .ok ∧ Started p ft ft'
  | .ok (ft', new) => Started p ft ft' ∧ new.Fits p ∧ new.fragOffset = p.start ft ∧
    new.fragEnd = p.stop ft ∧ new.fragEnd ≤ ft'.calculatedSize ∧
    (¬ p.adjusts ft → new.origOffset = new.fragOffset)

/-- The rounding of a fragment that is not the last one and ends at `n`. -/
def Rounds (p : Packet) (ft : FragTracker) (n : ℕ) :
    Except FragTracker (FragTracker × ℕ × ℤ) → Prop
  | .error ft' => Started p ft ft'
  | .ok (ft', fin, len) => Started p ft ft' ∧ fin = n - n % 8 ∧ fin ≤ ft'.calculatedSize ∧
    len = i16 (p.dsize - (n - (n - n % 8 : ℕ)))

theorem roundEnd_rounds {n : ℕ} (h : Started p ft ft₀) (hmf : p.mf = true) (hlt : n < 65536) :
    Rounds p ft n (roundEnd ft₀ n p.dsize) := by
  unfold roundEnd
  dsimp only
  generalize hshort : (if n % 8 ≠ 0 then ft₀.alert .shortFrag else ft₀) = ft₁
  have h₁ : Started p ft ft₁ := by
    rw [← hshort]
    split_ifs
    · exact h.alert _
    · exact h
  split_ifs with hsize hgot
  · exact h₁.alert _
  · refine ⟨?_, rfl, le_refl _, rfl⟩
    exact
      { h₁ with
        calculatedSize := h₁.calculatedSize.trans hsize.le
        calculatedSize_lt := fun _ => by dsimp only; omega
        last_le := fun hno => absurd hno (by simp [hmf]) }
  · exact ⟨h₁, rfl, Nat.not_lt.mp hsize, rfl⟩

theorem Packet.adjusts_congr {ft' : FragTracker} (h : ft'.Same ft) :
    p.adjusts ft' ↔ p.adjusts ft := by
  rw [adjusts, adjusts, h.fragPolicy, h.gotLast, h.calculatedSize]

theorem setProto_same : (setProto p ft).Same ft ∧ (setProto p ft).fragBytes = ft.fragBytes := by
  unfold setProto
  split_ifs
  · exact ⟨⟨rfl, rfl, rfl, rfl, rfl, id⟩, rfl⟩
  · exact ⟨.refl ft, rfl⟩

/-- A new fragment with a size. -/
def Sizes (p : Packet) (ft : FragTracker) :
    Except (InsertRet × FragTracker) (FragTracker × ℕ × ℤ) → Prop
  | .error (ret, ft') => ret ≠ .ok ∧ Started p ft ft'
  | .ok (ft', fin, len) => Started p ft ft' ∧ fin = p.stop ft ∧ fin ≤ ft'.calculatedSize ∧
    p.start ft ≤ fin ∧ fin ≤ 65535 ∧ fin - p.start ft ≤ p.dsize ∧ len = fin - p.start ft

section
variable (hdsize : p.dsize ≤ 32767)
include hdsize

theorem enterFrag_starts (h : Sizes p ft sized) : Starts p ft (enterFrag p (p.start ft) sized) := by
  rcases sized with ⟨ret, ft'⟩ | ⟨ft', fin, len⟩
  · exact h
  · obtain ⟨hft, hfin, hcalc, hle, hmax, hlen, hlen'⟩ := h
    rw [enterFrag]
    generalize hopts : (if p.isIp4 = true then fragHandleIPOptions ft' p (p.start ft) else ft') =
      ft''
    have hopts' : ft''.Same ft' ∧ ft''.fragBytes = ft'.fragBytes := by
      rw [← hopts]
      split_ifs
      · exact fragHandleIPOptions_same p (p.start ft)
      · exact ⟨.refl ft', rfl⟩
    split_ifs with hzero
    · exact ⟨nofun, hft.alert _⟩
    · have hft'' := hft.of_same hopts'.1 hopts'.2
      refine ⟨hft''.of_same ⟨rfl, rfl, rfl, rfl, rfl, id⟩ rfl, ⟨?_, hmax, hlen', hlen, hdsize⟩, rfl,
        hfin, hcalc.trans_eq hopts'.1.calculatedSize.symm, fun hno => (if_neg hno).symm⟩
      exact Nat.lt_of_le_of_ne hle (Ne.symm hzero)

theorem sizeFrag_of_mf (hmf : p.mf = true) (h : Started p ft ft₀) {r : FirstLast}
    (hsized : sizeFrag p ft₀ r p.off = sized) : Sizes p ft sized := by
  have hlen : i16 (p.dsize : ℤ) = p.dsize := i16_of_lt (by omega) (by omega)
  unfold sizeFrag at hsized
  dsimp only at hsized
  rw [hlen] at hsized
  have hmod := p.off_mod
  have hstart : p.start ft = p.off := if_neg fun h => absurd h.2.1 (by simp [hmf])
  split_ifs at hsized with hbig hlast
  · subst hsized
    exact ⟨nofun, { h with
      bad := fun _ => rfl
      last_le := fun hno => absurd hno (by simp [hmf]) }⟩
  · exact absurd hlast (by simp [hmf])
  · exact absurd hlast (by simp [hmf])
  · rw [IP_MAXPACKET] at hbig
    have hfin : u16 (p.off + p.dsize : ℤ) = p.off + p.dsize := by
      have := u16_of_lt (x := p.off + p.dsize) (by omega) (by omega)
      omega
    have hrounds := @roundEnd_rounds p ft₀ ft (p.off + p.dsize) h hmf (by omega)
    rw [hfin] at hsized
    cases hround : roundEnd ft₀ (p.off + p.dsize) p.dsize with
    | error ft' =>
      rw [hround] at hsized hrounds
      subst hsized
      exact ⟨nofun, hrounds⟩
    | ok sized' =>
      obtain ⟨ft', fin, len⟩ := sized'
      rw [hround] at hsized hrounds
      subst hsized
      obtain ⟨hft', hfin', hcalc, hlen'⟩ := hrounds
      have hstop : p.stop ft = p.off + p.dsize - (p.off + p.dsize) % 8 := by
        simp only [stop, hstart, hmf, if_true]
      refine ⟨hft', hfin'.trans hstop.symm, hcalc, ?_, ?_, ?_, ?_⟩
      · omega
      · omega
      · omega
      · rw [hlen', i16_of_lt (by omega) (by omega)]
        omega

theorem sizeFrag_of_last (hcalc : ft.calculatedSize < 65536) (hmf : p.mf = false) {r : FirstLast}
    (hr : r = .lastOffsetAdjust ↔ p.adjusts ft)
    (hsame : ft₀.fragPolicy = ft.fragPolicy ∧ ft₀.fragBytes = ft.fragBytes ∧
      ft₀.engine = ft.engine ∧ (ft.bad = true → ft₀.bad = true))
    (hgot : ft₀.gotLast = true)
    (hsize : ft₀.calculatedSize = if p.adjusts ft then ft.calculatedSize else max ft.calculatedSize
      (u16 (p.off + p.dsize)))
    (hsized : sizeFrag p ft₀ r (p.start ft) = sized) : Sizes p ft sized := by
  have hlen : i16 (p.dsize : ℤ) = p.dsize := i16_of_lt (by omega) (by omega)
  have hstop : p.stop ft = p.start ft + p.dsize := by simp only [stop, hmf]; rfl
  have hmax := u16_lt (p.off + p.dsize)
  have hsizele : ft.calculatedSize ≤ ft₀.calculatedSize ∧ ft₀.calculatedSize < 65536 := by
    rw [hsize]
    split_ifs
    · exact ⟨le_refl _, hcalc⟩
    · exact ⟨le_max_left _ _, max_lt hcalc hmax⟩
  -- the tracker is as it was, but for the last fragment
  have hstarted {ft' : FragTracker} (hft : ft'.Same ft₀) (hbytes : ft'.fragBytes = ft₀.fragBytes)
      (hle : ft'.bad = false → ¬ p.adjusts ft → p.off + p.dsize ≤ ft₀.calculatedSize) :
      Started p ft ft' :=
    { fragPolicy := hft.fragPolicy.trans hsame.1
      fragBytes := hbytes.trans hsame.2.1
      engine := hft.engine.trans hsame.2.2.1
      bad := fun hb => hft.bad (hsame.2.2.2 hb)
      calculatedSize := hft.calculatedSize ▸ hsizele.1
      calculatedSize_lt := fun _ => hft.calculatedSize ▸ hsizele.2
      gotLast := by rw [hft.gotLast, hgot, hmf]; simp
      last_le := fun _ hno hbad => hft.calculatedSize ▸ hle hbad fun hadj => by
        rw [hadj.2.2.1] at hno
        exact absurd hno nofun }
  unfold sizeFrag at hsized
  dsimp only at hsized
  rw [hlen] at hsized
  split_ifs at hsized with hbig hlast hadj
  · subst hsized
    refine ⟨nofun, hstarted ⟨rfl, rfl, rfl, rfl, rfl, fun _ => rfl⟩ rfl fun hbad => ?_⟩
    exact absurd hbad nofun
  · rw [IP_MAXPACKET] at hbig
    have hfin : u16 (p.start ft + p.dsize : ℤ) = p.start ft + p.dsize := by
      have := u16_of_lt (x := p.start ft + p.dsize) (by omega) (by omega)
      omega
    rw [hfin] at hsized hadj
    subst hsized
    simp only [Bool.and_eq_true, decide_eq_true_eq] at hadj
    have hadjusts : p.adjusts ft := hr.mp hadj.2
    have hbase : Started p ft ft₀ := hstarted (.refl ft₀) rfl fun _ hno => absurd hadjusts hno
    refine ⟨?_, hstop.symm, le_refl _, Nat.le_add_right _ _, by omega, by omega, by omega⟩
    exact
      { hbase with
        calculatedSize := hbase.calculatedSize.trans hadj.1.le
        calculatedSize_lt := fun _ => by dsimp only; omega
        last_le := fun _ hno => by
          rw [hadjusts.2.2.1] at hno
          exact absurd hno nofun }
  · rw [IP_MAXPACKET] at hbig
    have hfin : u16 (p.start ft + p.dsize : ℤ) = p.start ft + p.dsize := by
      have := u16_of_lt (x := p.start ft + p.dsize) (by omega) (by omega)
      omega
    rw [hfin] at hsized hadj
    subst hsized
    simp only [Bool.and_eq_true, decide_eq_true_eq, not_and, hr] at hadj
    have hle : p.start ft + p.dsize ≤ ft₀.calculatedSize := by
      by_cases hadjusts : p.adjusts ft
      · exact Nat.not_lt.mp fun hlt => hadj hlt hadjusts
      · have hstart : p.start ft = p.off := if_neg hadjusts
        rw [hstart] at hfin ⊢
        rw [hsize, if_neg hadjusts, hfin]
        exact le_max_right _ _
    refine ⟨hstarted (.refl ft₀) rfl fun _ hno => ?_, hstop.symm, hle,
      Nat.le_add_right _ _, by omega,
      by omega, by omega⟩
    rwa [start, if_neg hno] at hle
  · exact absurd hlast (by simp [hmf])

/-- The offset that `insert` uses, and the size that it finds. -/
theorem sizeFrag_sizes (hcalc : ft.calculatedSize < 65536) {ret : FirstLast} {ft₁ : FragTracker}
    (hcheck : fragCheckFirstLast p (setProto p ft) p.off = (ret, ft₁)) :
    (if ret = .lastOffsetAdjust then u16 ft₁.calculatedSize else p.off) = p.start ft ∧
      ∀ sized, sizeFrag p ft₁ ret (p.start ft) = sized → Sizes p ft sized := by
  obtain ⟨hsame, hbytes⟩ := @setProto_same p ft
  cases hmf : p.mf with
  | true =>
    have hstart : p.start ft = p.off := if_neg fun h => absurd h.2.1 (by simp [hmf])
    rw [fragCheckFirstLast_of_mf hmf] at hcheck
    obtain ⟨rfl, rfl⟩ := Prod.mk.inj hcheck
    rw [hstart]
    refine ⟨if_neg nofun, fun sized hsized => sizeFrag_of_mf hdsize hmf ?_ hsized⟩
    exact
      { hsame with
        fragBytes := hbytes
        calculatedSize := hsame.calculatedSize.ge
        calculatedSize_lt := fun h => hsame.calculatedSize.trans_lt h
        gotLast := by rw [hmf, Bool.not_true, Bool.or_false]; exact hsame.gotLast
        last_le := fun hno => absurd hno (by simp [hmf]) }
  | false =>
    obtain ⟨hadj, hft⟩ := @fragCheckFirstLast_of_last p (setProto p ft) hmf
    rw [hcheck, adjusts_congr hsame] at hadj
    rw [hcheck] at hft
    simp only [adjusts_congr hsame, hsame.calculatedSize] at hadj hft
    subst hft
    refine ⟨?_, fun sized hsized => sizeFrag_of_last hdsize hcalc hmf hadj
      (by exact ⟨hsame.fragPolicy, hbytes, hsame.engine, hsame.bad⟩) (by rfl) (by rfl) hsized⟩
    by_cases hadjusts : p.adjusts ft
    · rw [if_pos (hadj.mpr hadjusts), start, if_pos hadjusts]
      rw [if_pos hadjusts, u16_natCast hcalc]
    · rw [if_neg (mt hadj.mp hadjusts), start, if_neg hadjusts]

theorem startInsert_starts (hcalc : ft.calculatedSize < 65536)
    {r : Except (InsertRet × FragTracker) (FragTracker × NewFrag)} (hr : startInsert p ft = r) :
    Starts p ft r := by
  have hsizes := sizeFrag_sizes hdsize hcalc
    (Prod.eta (fragCheckFirstLast p (setProto p ft) p.off)).symm
  rw [← hr, startInsert, hsizes.1]
  generalize hsized : sizeFrag p (fragCheckFirstLast p (setProto p ft) p.off).2
    (fragCheckFirstLast p (setProto p ft) p.off).1 (p.start ft) = sized
  exact enterFrag_starts hdsize (hsizes.2 _ hsized)
end

/-! ## The list -/

theorem Edited.init (hnodup : (ids l₀).Nodup) (hlt : ∀ a ∈ ids l₀, a < fresh)
    (hord : Ordered lo hi l₀) (hbytes : ft.fragBytes = sizes l₀) :
    Edited p new l₀ ft ft ⟨l₀, fresh⟩ where
  nodup := hnodup
  lt := hlt
  ordered := hord
  origin := fun x hx => ⟨x.2, List.mem_cons_of_mem _ (List.mem_map_of_mem hx), Part.refl _⟩
  fragBytes := hbytes
  same := .refl ft
  kept := fun _ _ hx => hx
  outside := fun _ _ _ hc => hc

theorem editList_does (hnew : new.Fits p) (hl₀ : ∀ x ∈ l₀, x.2.Within)
    (horig : ft₀.fragPolicy = .first → new.origOffset = new.fragOffset)
    (hclean : Clean ft₀.fragPolicy new.fragOffset new.fragEnd l₀)
    (h : Edited p new l₀ ft₀ ft₀ ⟨l₀, fresh⟩) :
    Does p new l₀ ft₀ (editList fe p new ft₀) ⟨l₀, fresh⟩ fun r s =>
      r.1 = .ok ∧ Edited p new l₀ ft₀ r.2 s ∧ Inserted p new ft₀ s.list := by
  have hlen := h.length_lt hnew hl₀
  have hfind := @findNeighbours_run [] l₀ fresh new.fragOffset loopFuel hlen h.nodup
  have hsplit := @List.takeWhile_append_dropWhile _ (fun x => decide (lo x < new.fragOffset)) l₀
  have hord := Ordered.append_iff.mp (hsplit ▸ h.ordered)
  refine .run (run_first _) (.run hfind ?_)
  have h' : Edited p new l₀ ft₀ ft₀ ⟨l₀.takeWhile (fun x => decide (lo x < new.fragOffset)) ++
      l₀.dropWhile fun x => decide (lo x < new.fragOffset), fresh⟩ := by
    rw [hsplit]
    exact h
  have hleft := leftOverlap_does h' hnew hl₀ ?_ ?_ hclean
  · rw [hsplit] at hleft
    refine .bind (hleft.mono ?_)
    rintro ed ⟨l, fresh'⟩ ⟨before, after, rfl, hplacing⟩
    split_ifs
    · exact .throw nofun hplacing.edited
    · refine .bind ((rightOverlaps_does hnew hl₀ horig ?_ hplacing).mono ?_)
      · have := hplacing.edited.length_lt hnew hl₀
        simp only [List.length_append] at this
        omega
      · rintro ed s ⟨hedited, hending⟩
        exact finishInsert_does hnew hl₀ hedited hending
  · exact fun x hx => by simpa using List.mem_takeWhile_imp hx
  · refine le_lo_of_head hord.2.1 fun x hx => ?_
    have hnot := List.head?_dropWhile_not (fun x => decide (lo x < new.fragOffset)) l₀
    rw [Option.mem_def.mp hx] at hnot
    simpa using hnot

/-- The list of a tracker is well formed, and the tracker counts its bytes. -/
structure ListOk (ft : FragTracker) (s : Nodes Fragment) : Prop where
  nodup : (ids s.list).Nodup
  lt : ∀ a ∈ ids s.list, a < s.fresh
  ordered : Ordered lo hi s.list
  within : ∀ x ∈ s.list, x.2.Within
  fragBytes : ft.fragBytes = sizes s.list

theorem Edited.listOk (hnew : new.Fits p) (hl₀ : ∀ x ∈ l₀, x.2.Within)
    (h : Edited p new l₀ ft₀ ft s) : ListOk ft s :=
  ⟨h.nodup, h.lt, h.ordered, fun _ hx => h.within hnew hl₀ hx, h.fragBytes⟩

/-- What `insert` makes of a list: it is as it was, or edited. -/
inductive Outcome (p : Packet) (ft : FragTracker) (s : Nodes Fragment) (r : InsertRet × FragTracker)
    (s' : Nodes Fragment) : Prop
  | returned (started : Started p ft r.2) (ret : r.1 ≠ .ok) (list : s' = s)
  | edited (new : NewFrag) (ft₁ : FragTracker) (started : Started p ft ft₁) (fits : new.Fits p)
      (start : new.fragOffset = p.start ft) (stop : new.fragEnd = p.stop ft)
      (calculatedSize : new.fragEnd ≤ ft₁.calculatedSize)
      (edited : Edited p new s.list ft₁ r.2 s')
      (inserted : r.1 = .ok → Inserted p new ft₁ s'.list)

theorem insertFrag_ends {r : Except (InsertRet × FragTracker) (FragTracker × NewFrag)}
    (hstarts : Starts p ft r) (h : ListOk ft s)
    (hclean : Clean ft.fragPolicy (p.start ft) (p.stop ft) s.list) :
    Ends listMachine (insertFrag fe p r) s (Outcome p ft s) := by
  rcases r with ⟨ret, ft₁⟩ | ⟨ft₁, new⟩
  · exact ends_pure (.returned hstarts.2 hstarts.1 rfl)
  · obtain ⟨hstarted, hfits, hstart, hstop, hsize, horig⟩ := hstarts
    have hfirst : ft₁.fragPolicy = .first → new.origOffset = new.fragOffset := fun hp =>
      horig fun hadj => by
        rw [hstarted.fragPolicy, hadj.1] at hp
        exact absurd hp nofun
    have hinit : Edited p new s.list ft₁ ft₁ s :=
      .init h.nodup h.lt h.ordered (hstarted.fragBytes.trans h.fragBytes)
    rw [← hstart, ← hstop, ← hstarted.fragPolicy] at hclean
    refine Ends.bind (Ends.mono (editList_does hfits h.within hfirst hclean hinit) ?_)
    rintro (⟨ret, ft'⟩ | ⟨ret, ft'⟩) s' hr
    · exact ends_pure (.edited new ft₁ hstarted hfits hstart hstop hsize hr.2
        fun hok => absurd hok hr.1)
    · exact ends_pure (.edited new ft₁ hstarted hfits hstart hstop hsize hr.2.1 fun _ => hr.2.2)

theorem insert_ends (hdsize : p.dsize ≤ 32767) (hcalc : ft.calculatedSize < 65536)
    (h : ListOk ft s) (hclean : Clean ft.fragPolicy (p.start ft) (p.stop ft) s.list) :
    Ends listMachine (insert fe p ft) s (Outcome p ft s) := by
  rw [insert]
  generalize hr : startInsert p ft = r
  exact insertFrag_ends (startInsert_starts hdsize hcalc hr) h hclean
end Snort.Ip
