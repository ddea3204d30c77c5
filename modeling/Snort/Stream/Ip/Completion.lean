import Snort.Stream.Ip.FraglistRuns

/-!
# Complete datagrams

`FragIsComplete` compares the byte count of a tracker with the size of the
datagram. Along runs where the count is that of the list, and where no fragment of
the list lies behind the last one, the fragments of a complete datagram follow
each other from its begin to its end, and `FragRebuild` writes every byte.
-/

namespace Snort.Ip
open List Option DoublyLinked ListProgram IntervalList

/-! ## Tilings -/

variable {a b : ℕ} {l : List Node} {ft : FragTracker} {s : Nodes Fragment}

/-- The fragments follow each other from `a` to `b`. -/
def Tiles : ℕ → List Node → ℕ → Prop
  | a, [], b => a = b
  | a, x :: l, b => lo x = a ∧ lo x < hi x ∧ Tiles (hi x) l b

/-- Fragments that are apart and have as many bytes as there are offsets leave no hole. -/
theorem tiles_of_sizes (hord : Ordered lo hi l)
    (hlo : ∀ x ∈ l, a ≤ lo x) (hhi : ∀ x ∈ l, hi x ≤ b) (hab : a ≤ b) (hsizes : b ≤ a + sizes l) :
    Tiles a l b := by
  induction l generalizing a with
  | nil =>
    exact Nat.le_antisymm hab hsizes
  | cons x l ih =>
    obtain ⟨hx, hl, hxl⟩ := Ordered.cons_iff.mp hord
    have hxlo := hlo x mem_cons_self
    have hxhi := hhi x mem_cons_self
    have hhi' : ∀ y ∈ l, hi y ≤ b := fun y hy => hhi y (mem_cons_of_mem _ hy)
    -- the bytes behind the first fragment fit behind it
    have hrest : hi x + sizes l ≤ b := sizes_le_of_le hl hxl hhi' hxhi
    rw [sizes_cons] at hsizes
    have hsize : hi x = lo x + x.2.size := rfl
    exact ⟨by omega, hx, ih hl hxl hhi' hxhi (by omega)⟩

theorem Tiles.covers (h : Tiles a l b) {i : ℕ} (hlo : a ≤ i) (hhi : i < b) : Covers lo hi l i := by
  induction l generalizing a with
  | nil =>
    obtain rfl : a = b := h
    exact absurd hlo (Nat.not_le.mpr hhi)
  | cons x l ih =>
    obtain ⟨hx, -, hrest⟩ := h
    rw [covers_cons]
    rcases Nat.lt_or_ge i (hi x) with hi' | hi'
    · exact .inl ⟨hx.trans_le hlo, hi'⟩
    · exact .inr (ih hrest hi')

theorem ListOk.of_fragBytes {ft' : FragTracker} (h : ListOk ft s)
    (hbytes : ft'.fragBytes = ft.fragBytes) : ListOk ft' s :=
  { h with fragBytes := hbytes.trans h.fragBytes }

/-! ## Rebuilding -/

/-- What the walk over the list writes. -/
structure Copied (l : List Node) (payload payload' : ℕ → Option Byte) : Prop where
  covered : ∀ i, ∀ x ∈ l, lo x ≤ i → i < hi x → payload' i = x.2.byteAt i
  other : ∀ i, ¬ Covers lo hi l i → payload' i = payload i

theorem copyFrags_ends {total offset fuel fresh : ℕ} (before : List Node) {after : List Node}
    {payload : ℕ → Option Byte} (hfuel : after.length < fuel)
    (hnodup : (ids (before ++ after)).Nodup) (hord : Ordered lo hi after)
    (hle : ∀ x ∈ after, hi x ≤ total) :
    Ends listMachine (copyFrags total offset fuel (firstOr none after) payload)
      ⟨before ++ after, fresh⟩ fun r s => s = ⟨before ++ after, fresh⟩ ∧
        ∀ payload' ∈ r, Copied after payload payload' := by
  induction after generalizing before fuel payload with
  | nil =>
    obtain ⟨fuel, rfl⟩ := Nat.exists_eq_succ_of_ne_zero (Nat.ne_zero_of_lt hfuel)
    refine ends_pure ⟨rfl, fun payload' hp => ?_⟩
    rw [← some.inj hp]
    exact ⟨fun i x hx => absurd hx not_mem_nil, fun i _ => rfl⟩
  | cons x after ih =>
    obtain ⟨fuel, rfl⟩ := Nat.exists_eq_succ_of_ne_zero (Nat.ne_zero_of_lt hfuel)
    have hx := not_mem_ids_of_nodup hnodup
    obtain ⟨hpos, hafter, hxafter⟩ := Ordered.cons_iff.mp hord
    obtain ⟨hxle, hle⟩ := forall_mem_cons.mp hle
    have hsize : x.2.size ≠ 0 := by
      simp only [lo, hi, Fragment.fin] at hpos
      omega
    show Ends listMachine (copyFrags total offset (fuel + 1) (some x.1) payload) _ _
    refine ends_bind_of_run (run_load hx) (ends_bind_of_run (run_next hx) ?_)
    rw [if_neg (show ¬ total < x.2.fin from Nat.not_lt.mpr hxle), if_pos hsize]
    split_ifs
    · exact ends_pure ⟨rfl, fun _ hp => absurd hp (not_mem_none _)⟩
    · rw [append_cons] at hnodup
      have hrest := @ih fuel (before ++ [x]) (x.2.copyTo payload) (by simpa using hfuel)
        hnodup hafter hle
      rw [← append_cons] at hrest
      refine hrest.mono ?_
      rintro r s ⟨rfl, hr⟩
      refine ⟨rfl, fun payload' hp => ?_⟩
      obtain ⟨hcovered, hother⟩ := hr payload' hp
      refine ⟨fun i y hy hlo hhi => ?_, fun i hno => ?_⟩
      · rcases List.mem_cons.mp hy with rfl | hy
        · have hno : ¬ Covers lo hi after i := by
            rintro ⟨z, hz, hzi⟩
            have := hxafter z hz
            omega
          rw [hother i hno]
          exact if_pos ⟨hlo, hhi⟩
        · exact hcovered i y hy hlo hhi
      · rw [covers_cons, not_or] at hno
        rw [hother i hno.2]
        exact if_neg hno.1

/-- A packet that is rebuilt from fragments that follow each other has all of its bytes. -/
theorem fragRebuild_tiles {fl : Fraglist}
    (hlinked : Linked True fl s) (hok : ListOk ft s) (hcalc : ft.calculatedSize < 65536)
    (htiles : Tiles 0 s.list ft.calculatedSize) (hle : ∀ x ∈ s.list, hi x ≤ ft.calculatedSize)
    (p : Packet) :
    ∃ rebuilt fl', (fragRebuild p ft).run fragMachine fl = some (rebuilt, fl') ∧
      ∀ pkt ∈ rebuilt, pkt.dsize = ft.calculatedSize ∧
        ∀ i, i < pkt.dsize → ∃ x ∈ s.list, (lo x ≤ i ∧ i < hi x) ∧
          pkt.payload i = x.2.byteAt i ∧ (pkt.payload i).isSome := by
  have hu16 : u16 ft.calculatedSize = ft.calculatedSize := u16_natCast hcalc
  have hfuel : s.list.length < loopFuel := by
    have hsizes := sizes_le hok.ordered fun x hx => (hok.within x hx).fin_le
    exact ((length_le_sizes hok.ordered).trans hsizes).trans_lt (by decide)
  have hends : Ends listMachine (fragRebuild p ft) s fun rebuilt s' => s' = s ∧
      ∀ pkt ∈ rebuilt, pkt.dsize = ft.calculatedSize ∧ Copied s.list (fun _ => none)
      pkt.payload := by
    refine ends_bind_of_run (run_first s) (Ends.bind ?_)
    rw [hu16]
    refine (copyFrags_ends [] hfuel hok.nodup hok.ordered hle).mono ?_
    rintro payload s' ⟨rfl, hcopied⟩
    refine ends_pure ⟨rfl, fun pkt hpkt => ?_⟩
    obtain ⟨payload', hp, rfl⟩ := map_eq_some_iff.mp hpkt
    exact ⟨rfl, hcopied payload' hp⟩
  obtain ⟨rebuilt, s', hrun, rfl, hrebuilt⟩ := hends
  obtain ⟨fl', hrun', -⟩ := (fragMachine_refines True).run hlinked hrun
  refine ⟨rebuilt, fl', hrun', fun pkt hpkt => ?_⟩
  obtain ⟨hdsize, hcopied⟩ := hrebuilt pkt hpkt
  refine ⟨hdsize, fun i hi' => ?_⟩
  obtain ⟨x, hx, hxi⟩ := htiles.covers (Nat.zero_le i) (hdsize ▸ hi')
  have hbyte := hcopied.covered i x hx hxi.1 hxi.2
  exact ⟨x, hx, hxi, hbyte, hbyte ▸ (hok.within x hx).byteAt_isSome hxi⟩

/-! ## Runs -/

/-- If the datagram is complete, the fragments of the list follow each other from its begin to its
end, and each byte of the rebuilt packet is one of theirs. -/
def CompleteOk (tr : Tracker) : Prop :=
  fragIsComplete tr.ft = true → tr.ft.bad = false →
    ∃ l, tr.fl.Lists l ∧ Tiles 0 l tr.ft.calculatedSize ∧
      ∀ p, ∃ rebuilt fl', (fragRebuild p tr.ft).run fragMachine tr.fl = some (rebuilt, fl') ∧
        ∀ pkt ∈ rebuilt, pkt.dsize = tr.ft.calculatedSize ∧
          ∀ i, i < pkt.dsize → ∃ x ∈ l, (lo x ≤ i ∧ i < hi x) ∧
            pkt.payload i = x.2.byteAt i ∧ (pkt.payload i).isSome

/-- The tracker counts the fragments of its list, and knows where they end once it has the last
one. -/
structure Counted (tr : Tracker) (s : Nodes Fragment) : Prop where
  calculatedSize : tr.ft.calculatedSize < 65536
  linked : Linked True tr.fl s
  ok : ListOk tr.ft s
  hi_le : tr.ft.gotLast = true → tr.ft.bad = false → ∀ x ∈ s.list, hi x ≤ tr.ft.calculatedSize

/-- The tracker can take the packet, and counts on: it is in time, it is not dropped, and no
fragment of the list lies behind the last one. -/
structure TakeOk (fe : FragEngine) (tr : Tracker) (a : Arrival) : Prop where
  dsize_le : a.packet.dsize ≤ 32767
  handleOk : HandleOk tr a.packet
  dropped : a.dropped = false
  inTime : tr.ft.engine = true → fragTimedOut a.packet.ts tr.ft.fragTime fe = false
  dropFragments : tr.ft.engine = true → tr.ft.dropFragments = false
  last : tr.ft.engine = true → a.packet.mf = false → tr.ft.gotLast = false →
    ∀ l, tr.fl.Lists l → ∀ x ∈ l, hi x ≤ max tr.ft.calculatedSize (a.packet.off + a.packet.dsize)

/-- `process` takes packets whose ttl is large enough. -/
def ArrivalOk (fe : FragEngine) (tr : Tracker) (a : Arrival) : Prop :=
  fe.minTtl ≤ a.packet.ttl → TakeOk fe tr a

/-- The tracker behind `process` -/
def processed (fe : FragEngine) (tr : Tracker) (a : Arrival) : Option Tracker :=
  (process fe a tr).map Prod.snd

/-- Each of the packets meets the condition when it comes. -/
def ArrivalsOk (fe : FragEngine) : Tracker → List Arrival → Prop
  | _, [] => True
  | tr, a :: as => ArrivalOk fe tr a ∧ ∀ tr', processed fe tr a = some tr' → ArrivalsOk fe tr' as

section Runs
variable {fe : FragEngine} {a : Arrival} {tr : Tracker} {s : Nodes Fragment}

theorem Counted.completeOk (h : Counted tr s) : CompleteOk tr := by
  intro hcomplete hbad
  simp only [fragIsComplete, Bool.and_eq_true, decide_eq_true_eq] at hcomplete
  obtain ⟨⟨-, hlast⟩, hle⟩ := hcomplete
  have hhi := h.hi_le hlast hbad
  rw [h.ok.fragBytes] at hle
  have htiles := tiles_of_sizes h.ok.ordered (fun x _ => Nat.zero_le _) hhi (Nat.zero_le _)
    (by rwa [Nat.zero_add])
  exact ⟨s.list, h.linked.lists, htiles,
    fragRebuild_tiles h.linked h.ok h.calculatedSize htiles hhi⟩

theorem newTracker_counted (hfirst : FirstOk a.packet) (hdsize : a.packet.dsize ≤ 32767)
    (hsnap : ¬ (a.packet.dsize = 0 || decide (fe.snapLen < a.packet.dsize)) = true) :
    ∃ s, Counted (newTracker fe a.packet tr) s := by
  obtain ⟨-, -, hlast, -, hcalc⟩ := @firstTracker_fields fe a.packet tr.ft.events
  have hnew : (newTracker fe a.packet tr).ft = firstTracker fe a.packet tr.ft.events := by
    rw [newTracker, if_neg hsnap]
  refine ⟨_, ?_, newTracker_linked fe a.packet tr hsnap, newTracker_listOk hfirst hdsize hsnap, ?_⟩
  · rw [hnew, hcalc]
    split_ifs
    · decide
    · exact u16_lt _
  · intro hgot _ x hx
    rw [hnew, hlast, Bool.not_eq_true'] at hgot
    have hfin : hi (tr.fl.fresh, firstFragment a.packet) = a.packet.off + a.packet.dsize := by
      show (firstFragment a.packet).offset + (firstFragment a.packet).size = _
      rw [firstFragment_size hfirst]
      rfl
    rw [mem_singleton.mp hx, hfin, hnew, hcalc, if_neg (by rw [hgot]; decide), ← Int.natCast_add,
      u16_natCast (Nat.lt_succ_of_le hfirst.2)]

theorem Counted.outcome {p : Packet} {tr' : Tracker} {ret : InsertRet} {s' : Nodes Fragment}
    (h : Counted tr s) (hlinked : Linked True tr'.fl s') (hout : Outcome p tr.ft s (ret, tr'.ft) s')
    (hlast : p.mf = false → tr.ft.gotLast = false →
      ∀ x ∈ s.list, hi x ≤ max tr.ft.calculatedSize (p.off + p.dsize)) : Counted tr' s' := by
  -- the fragments of the list from before
  have hold : ∀ ft₁, Started p tr.ft ft₁ → ft₁.gotLast = true → ft₁.bad = false →
      ∀ x ∈ s.list, hi x ≤ ft₁.calculatedSize := by
    intro ft₁ hstarted hgot hbad x hx
    have hle := hstarted.calculatedSize
    have hbad₀ : tr.ft.bad = false := Bool.eq_false_iff.mpr fun hb => by
      rw [hstarted.bad hb] at hbad
      exact absurd hbad nofun
    cases hgot₀ : tr.ft.gotLast with
    | true => exact (h.hi_le hgot₀ hbad₀ x hx).trans hle
    | false =>
      rw [hstarted.gotLast, hgot₀, Bool.false_or, Bool.not_eq_true'] at hgot
      have hfin := hstarted.last_le hgot hgot₀ hbad
      exact (hlast hgot hgot₀ x hx).trans (max_le hle hfin)
  refine ⟨hout.calculatedSize_lt h.calculatedSize, hlinked, hout.listOk h.ok, ?_⟩
  cases hout with
  | returned started _ list => exact list ▸ hold _ started
  | edited new ft₁ started fits _ _ calculatedSize edited _ =>
    intro hgot hbad x hx
    have hgot₁ : ft₁.gotLast = true := edited.same.gotLast ▸ hgot
    have hbad₁ : ft₁.bad = false := Bool.eq_false_iff.mpr fun hb => by
      rw [edited.same.bad hb] at hbad
      exact absurd hbad nofun
    rw [edited.same.calculatedSize]
    obtain ⟨w, hw, hpart⟩ := edited.origin x hx
    rw [List.mem_cons, List.mem_map] at hw
    refine hpart.fin.trans ?_
    rcases hw with rfl | ⟨y, hy, rfl⟩
    · have hlt := fits.lt
      simp only [NewFrag.whole, Fragment.fin]
      omega
    · exact hold ft₁ started hgot₁ hbad₁ y hy

theorem prepare_inTime (h : fragTimedOut a.packet.ts tr.ft.fragTime fe = false) :
    prepare fe a tr = { tr with ft := { tr.ft with fragTime := a.packet.ts } } := by
  unfold prepare
  dsimp only
  rw [h, if_neg Bool.false_ne_true]

theorem Counted.insert (h : Counted tr s) (hok : TakeOk fe tr a) (hengine : tr.ft.engine = true) :
    ∃ ret tr' s', insertPacket fe a.packet (prepare fe a tr) = some (ret, tr') ∧
      Counted tr' s' ∧ tr'.ft.engine = true := by
  have hprepare := prepare_inTime (hok.inTime hengine)
  have hclean := hok.handleOk
  rw [HandleOk, if_pos hengine] at hclean
  have h₁ : Counted (prepare fe a tr) s := by
    rw [hprepare]
    exact ⟨h.calculatedSize, h.linked, h.ok.of_fragBytes rfl, h.hi_le⟩
  obtain ⟨ret, tr', s', hinsert, hlinked, hout⟩ := @insertPacket_outcome fe a.packet
    (prepare fe a tr) s True hok.dsize_le h₁.calculatedSize h₁.linked h₁.ok
    (hprepare ▸ hclean _ h.linked.lists)
  refine ⟨ret, tr', s', hinsert, h₁.outcome hlinked hout ?_, ?_⟩
  · intro hmf hgot
    rw [hprepare] at hgot ⊢
    exact hok.last hengine hmf hgot _ h.linked.lists
  · rw [hout.engine, hprepare]
    exact hengine

/-- The tracker is not in use, or it counts. -/
def Counts (tr : Tracker) : Prop := tr.ft.engine = true → ∃ s, Counted tr s

theorem Counted.complete (h : Counted tr s) (hdropped : a.dropped = false) :
    ∃ d tr', Ip.complete a tr false = some (d, tr') ∧ Counts tr' := by
  have hno : ¬ (a.dropped || false) = true := by simp [hdropped]
  unfold Ip.complete
  simp only [if_neg hno]
  split_ifs with hcomplete hbad
  · exact ⟨_, _, rfl, nofun⟩
  · obtain ⟨l, -, -, hrebuild⟩ := h.completeOk hcomplete (Bool.eq_false_iff.mpr hbad)
    obtain ⟨rebuilt, fl', hrun, -⟩ := hrebuild a.packet
    rw [hrun]
    exact ⟨_, _, rfl, nofun⟩
  · exact ⟨_, _, rfl, fun _ => ⟨s, h⟩⟩

theorem Counts.process (h : Counts tr) (hok : ArrivalOk fe tr a) :
    ∃ tr', processed fe tr a = some tr' ∧ Counts tr' := by
  unfold processed Ip.process
  split_ifs with httl hengine
  · refine ⟨_, rfl, fun hengine => ?_⟩
    obtain ⟨s, hs⟩ := h hengine
    exact ⟨s, hs.calculatedSize, hs.linked, hs.ok.of_fragBytes rfl, hs.hi_le⟩
  · rw [Bool.not_eq_true'] at hengine
    have htake := hok (Nat.not_lt.mp httl)
    have hfirst := htake.handleOk
    rw [HandleOk, if_neg (by simp [hengine])] at hfirst
    refine ⟨_, rfl, fun hnew => ?_⟩
    by_cases hsnap : (a.packet.dsize = 0 || decide (fe.snapLen < a.packet.dsize)) = true
    · rw [newTracker, if_pos hsnap, hengine] at hnew
      exact absurd hnew Bool.false_ne_true
    · exact newTracker_counted hfirst htake.dsize_le hsnap
  · have htake := hok (Nat.not_lt.mp httl)
    rw [Bool.not_eq_true', Bool.not_eq_false] at hengine
    obtain ⟨s, hs⟩ := h hengine
    obtain ⟨ret, tr', s', hinsert, hs', -⟩ := hs.insert htake hengine
    have hdrop : (prepare fe a tr).ft.dropFragments = false := by
      rw [prepare_inTime (htake.inTime hengine)]
      exact htake.dropFragments hengine
    dsimp only
    rw [hinsert, hdrop]
    simp only [bind_eq_bind, bind_some]
    split_ifs
    · obtain ⟨d, tr'', hcomplete, h''⟩ := hs'.complete htake.dropped
      exact ⟨tr'', by rw [hcomplete]; rfl, h''⟩
    · exact ⟨tr', rfl, fun _ => ⟨s', hs'⟩⟩

theorem Counts.run {as : List Arrival} (h : Counts tr) (hok : ArrivalsOk fe tr as) :
    ∃ tr', as.foldlM (processed fe) tr = some tr' ∧ Counts tr' := by
  induction as generalizing tr with
  | nil => exact ⟨tr, rfl, h⟩
  | cons a as ih =>
    obtain ⟨tr₁, hprocess, h₁⟩ := h.process hok.1
    obtain ⟨tr', hrun, h'⟩ := ih h₁ (hok.2 tr₁ hprocess)
    exact ⟨tr', by rw [foldlM_cons, hprocess]; exact hrun, h'⟩

/-- Along every run whose packets meet the condition, each tracker in use is complete only with all
of the fragments: behind each packet, and behind each `insert`, where `process` asks. -/
theorem complete_only_if_tiled (fe : FragEngine) (as : List Arrival)
    (hok : ArrivalsOk fe .zero as) :
    ∃ tr, as.foldlM (processed fe) .zero = some tr ∧ (tr.ft.engine = true → CompleteOk tr) ∧
      ∀ a, ArrivalOk fe tr a → fe.minTtl ≤ a.packet.ttl → tr.ft.engine = true →
        ∃ ret tr', insertPacket fe a.packet (prepare fe a tr) = some (ret, tr') ∧
          CompleteOk tr' := by
  have hzero : Counts .zero := fun h => absurd h nofun
  obtain ⟨tr, hrun, h⟩ := hzero.run hok
  refine ⟨tr, hrun, fun hengine => ?_, fun a ha httl hengine => ?_⟩
  · obtain ⟨s, hs⟩ := h hengine
    exact hs.completeOk
  · obtain ⟨s, hs⟩ := h hengine
    obtain ⟨ret, tr', s', hinsert, hs', -⟩ := hs.insert (ha httl) hengine
    exact ⟨ret, tr', hinsert, hs'.completeOk⟩
end Runs

/-- A packet that is not dropped. -/
def arrival (p : Packet) : Arrival := ⟨p, false⟩

/-- The datagram is complete with its last fragment. -/
theorem complete_only_if_tiled_linux :
    ∃ tr ret tr',
      [arrival (eightBytes 1)].foldlM (processed (policyEngine .linux)) .zero = some tr ∧
      insertPacket (policyEngine .linux) lastFour
        (prepare (policyEngine .linux) (arrival lastFour) tr) = some (ret, tr') ∧
      fragIsComplete tr'.ft = true ∧ CompleteOk tr' := by
  have hok : ArrivalsOk (policyEngine .linux) .zero [arrival (eightBytes 1)] :=
    ⟨fun _ => ⟨by decide, ⟨fun _ => by decide, by decide⟩, rfl, nofun, nofun, nofun⟩,
      fun _ _ => trivial⟩
  obtain ⟨tr, hrun, -, hinsert⟩ := complete_only_if_tiled (policyEngine .linux) _ hok
  obtain rfl : newTracker (policyEngine .linux) (eightBytes 1) .zero = tr := some.inj hrun
  have harrival : ArrivalOk (policyEngine .linux)
      (newTracker (policyEngine .linux) (eightBytes 1) .zero) (arrival lastFour) := by
    refine fun _ => ⟨by decide, fun l _ => rightOk_of_policy (.inr (.inl rfl)), rfl, fun _ => rfl,
      fun _ => rfl, fun _ _ _ l hl x hx => ?_⟩
    have hlist := hl.unique (newTracker_linked (policyEngine .linux)
      (eightBytes 1) .zero (by decide)).lists
    rw [hlist] at hx
    rw [mem_singleton.mp hx]
    decide
  obtain ⟨ret, tr', hret, hcomplete⟩ := hinsert (arrival lastFour) harrival (by decide) rfl
  refine ⟨_, ret, tr', rfl, hret, ?_, hcomplete⟩
  have htr := congrArg (fun r => r.map fun r => fragIsComplete r.2.ft) hret
  exact some.inj (htr.symm.trans (by decide +kernel))

/-- A fragment behind the end of the datagram, and the last one. -/
def behindLast : List Arrival :=
  [arrival (moreFragment 4 (replicate 8 1)), arrival (lastFragment 1 (replicate 8 2))]

/-- The first fragment. -/
def firstEight : Arrival :=
  arrival (eightBytes 3)

/-- The list behind the three fragments. -/
def holeList : List Node :=
  [(2, ⟨replicate 8 3, 0, 8, 0, 2, false⟩), (1, ⟨replicate 8 2, 0, 8, 16, 1, true⟩),
    (0, ⟨replicate 8 1, 0, 8, 32, 0, false⟩)]

/-- A fragment behind the end of the datagram, that comes before the last one, is counted: the
datagram is complete with a hole. -/
theorem fragment_behind_last_not_tiled :
    ∃ tr ret tr', behindLast.foldlM (processed (policyEngine .linux)) .zero = some tr ∧
      insertPacket (policyEngine .linux) firstEight.packet
        (prepare (policyEngine .linux) firstEight tr) = some (ret, tr') ∧
      ret = .ok ∧ fragIsComplete tr'.ft = true ∧ tr'.ft.bad = false ∧ tr'.fl.Lists holeList ∧
      ¬ Tiles 0 holeList tr'.ft.calculatedSize ∧ ¬ CompleteOk tr' := by
  have hrun : ((behindLast.foldlM (processed (policyEngine .linux)) .zero).bind fun tr =>
      insertPacket (policyEngine .linux) firstEight.packet
        (prepare (policyEngine .linux) firstEight tr)).map (fun r =>
        ((r.1, fragIsComplete r.2.ft, r.2.ft.bad), r.2.fl.fraglist, [2, 1, 0].map r.2.fl.heap)) =
      some ((.ok, true, false), some 2, [some ⟨none, some 1, ⟨replicate 8 3, 0, 8, 0, 2, false⟩⟩,
          some ⟨some 2, some 0, ⟨replicate 8 2, 0, 8, 16, 1, true⟩⟩,
          some ⟨some 1, none, ⟨replicate 8 1, 0, 8, 32, 0, false⟩⟩]) := by
    decide +kernel
  obtain ⟨⟨ret, tr'⟩, hbind, heq⟩ := map_eq_some_iff.mp hrun
  obtain ⟨tr, hfold, hinsert⟩ := bind_eq_some_iff.mp hbind
  simp only [Prod.mk.injEq, map_cons, map_nil, List.cons.injEq] at heq
  obtain ⟨⟨hret, hcomplete, hbad⟩, hhead, h₂, h₁, h₀, -⟩ := heq
  have hlists : tr'.fl.Lists holeList := ⟨⟨h₂, h₁, h₀, trivial⟩, hhead⟩
  have hhole : ¬ Tiles 0 holeList tr'.ft.calculatedSize := by
    rintro ⟨-, -, hlo, -⟩
    exact absurd hlo (by decide)
  refine ⟨tr, ret, tr', hfold, hinsert, hret, hcomplete, hbad, hlists, hhole, fun h => ?_⟩
  obtain ⟨l, hl, htiles, -⟩ := h hcomplete hbad
  exact hhole (hl.unique hlists ▸ htiles)
end Snort.Ip
