import Snort.Structures.IntervalList
import Snort.Stream.Ip.Defrag

/-!
# What an insertion makes of a list

While `insert` edits the list of a tracker, every fragment of the list is a part
of one that was there or of the new one, the fragments are ordered and apart, and
the byte count is the sum of their sizes. The first policy keeps what was there;
the last policy keeps it outside of the new fragment.
-/

namespace Snort.Ip
open List DoublyLinked ListProgram IntervalList Fragment

/-! ## Fixed widths -/

section Casts
variable {x : ℤ} {n : ℕ}

theorem u16_of_lt (h₀ : 0 ≤ x) (h : x < 65536) : (u16 x : ℤ) = x := by
  rw [u16, Int.toNat_of_nonneg (Int.emod_nonneg x (by decide)), Int.emod_eq_of_lt h₀ h]

theorem u16_lt (x : ℤ) : u16 x < 65536 := by
  have := Int.emod_lt_of_pos x (show (0 : ℤ) < 65536 by decide)
  rw [u16]
  omega

theorem u16_natCast (h : n < 65536) : u16 n = n := by
  have := u16_of_lt (Int.natCast_nonneg n) (by omega)
  omega

theorem i16_of_lt (h₀ : -32768 ≤ x) (h : x < 32768) : i16 x = x := by
  exact Int.bmod_eq_of_le (by omega) (by omega)

theorem u32_natCast (h : n < 4294967296) : u32 n = n := by
  rw [u32, Int.emod_eq_of_lt (Int.natCast_nonneg n) (by omega), Int.toNat_natCast]
end Casts

variable {frag : Fragment}

theorem FragTracker.addBytes_fragBytes {ft : FragTracker} {x : ℤ} {n : ℕ}
    (h : ft.fragBytes + x = n) (hn : n < 4294967296) : (ft.addBytes x).fragBytes = n := by
  show u32 (ft.fragBytes + x) = n
  rw [h, u32_natCast hn]

theorem FragTracker.addBytes_addBytes (ft : FragTracker) (x y : ℤ) :
    (ft.addBytes x).addBytes y = ft.addBytes (x + y) := by
  have h : u32 (u32 (ft.fragBytes + x) + y) = u32 (ft.fragBytes + (x + y)) := by
    rw [u32, u32, u32, Int.toNat_of_nonneg (Int.emod_nonneg _ (by decide)), Int.emod_add_emod,
      Int.add_assoc]
  simp only [FragTracker.addBytes, h]

/-! ## Fragments -/

/-- A fragment with its address. -/
abbrev Node := ℕ × Fragment

def lo (x : Node) : ℕ := x.2.offset

def hi (x : Node) : ℕ := x.2.fin

/-- The bytes of all fragments. -/
def sizes (l : List Node) : ℕ := (l.map fun x => x.2.size).sum

/-- The data lies in the buffer, and the fragment in a datagram. -/
structure Fragment.Within (frag : Fragment) : Prop where
  data_nonneg : 0 ≤ frag.data
  data_le : frag.data + frag.size ≤ frag.flen
  flen_le : frag.flen ≤ 32767
  fin_le : frag.fin ≤ 65535

theorem Fragment.Within.size_le (h : frag.Within) : frag.size ≤ 32767 := by
  have := h.data_nonneg
  have := h.data_le
  have := h.flen_le
  omega

theorem Fragment.Within.byteAt_isSome {i : ℕ} (h : frag.Within)
    (hi' : frag.offset ≤ i ∧ i < frag.fin) : (frag.byteAt i).isSome := by
  have hnonneg := h.data_nonneg
  have hle := h.data_le
  simp only [Fragment.fin, flen] at hi' hle
  simp only [Fragment.byteAt]
  rw [if_pos (by omega), getElem?_eq_getElem (by omega)]
  rfl

/-- A fragment is a part of another one: it holds the same bytes where it is. -/
structure Part (frag whole : Fragment) : Prop where
  fptr : frag.fptr = whole.fptr
  offset : whole.offset ≤ frag.offset
  fin : frag.fin ≤ whole.fin
  data : frag.data - frag.offset = whole.data - whole.offset

namespace Part
variable {frag mid whole : Fragment}

theorem refl (frag : Fragment) : Part frag frag := ⟨rfl, le_refl _, le_refl _, rfl⟩

theorem trans (h : Part frag mid) (h' : Part mid whole) : Part frag whole :=
  ⟨h.fptr.trans h'.fptr, h'.offset.trans h.offset, h.fin.trans h'.fin, h.data.trans h'.data⟩

theorem within (h : Part frag whole) (hw : whole.Within) : frag.Within where
  data_nonneg := by
    have := hw.data_nonneg
    have := h.data
    have := h.offset
    omega
  data_le := by
    have hlen : frag.flen = whole.flen := congrArg List.length h.fptr
    have := hw.data_le
    have := h.data
    have hfin := h.fin
    simp only [Fragment.fin] at hfin
    omega
  flen_le := by
    have hlen : frag.flen = whole.flen := congrArg List.length h.fptr
    exact hlen ▸ hw.flen_le
  fin_le := h.fin.trans hw.fin_le

theorem byteAt (h : Part frag whole) (i : ℕ) : frag.byteAt i = whole.byteAt i := by
  have hdata : frag.data + i - frag.offset = whole.data + i - whole.offset := by
    have := h.data
    omega
  simp only [Fragment.byteAt, hdata, h.fptr]
end Part

section Sizes
variable {before after : List Node} {x : Node} {l : List Node}

@[simp] theorem sizes_append : sizes (before ++ after) = sizes before + sizes after := by
  simp [sizes]

@[simp] theorem sizes_cons : sizes (x :: after) = x.2.size + sizes after := by
  simp [sizes]

/-- Fragments that are apart have no more bytes than there are offsets. -/
theorem sizes_le_of_le {a b : ℕ} (h : Ordered lo hi l) (hlo : ∀ x ∈ l, a ≤ lo x)
    (hhi : ∀ x ∈ l, hi x ≤ b) (hab : a ≤ b) : a + sizes l ≤ b := by
  induction l generalizing a with
  | nil => exact hab
  | cons x l ih =>
    obtain ⟨hx, hl, hxl⟩ := Ordered.cons_iff.mp h
    have hrest := ih hl hxl (fun y hy => hhi y (mem_cons_of_mem _ hy)) (hhi x mem_cons_self)
    have hxlo := hlo x mem_cons_self
    have hsize : hi x = lo x + x.2.size := rfl
    rw [sizes_cons]
    omega

theorem sizes_le {n : ℕ} (h : Ordered lo hi l) (hn : ∀ x ∈ l, hi x ≤ n) : sizes l ≤ n := by
  have hle := sizes_le_of_le h (fun _ _ => Nat.zero_le _) hn (Nat.zero_le n)
  rwa [Nat.zero_add] at hle

theorem length_le_sizes (h : Ordered lo hi l) : l.length ≤ sizes l := by
  induction l with
  | nil => exact Nat.zero_le _
  | cons x l ih =>
    obtain ⟨hx, hl, -⟩ := Ordered.cons_iff.mp h
    have hle := ih hl
    simp only [lo, hi, Fragment.fin, length_cons, sizes_cons] at hx ⊢
    omega
end Sizes

/-! ## Edited lists -/

/-- What an insertion leaves alone in a tracker. -/
structure FragTracker.Same (ft ft₀ : FragTracker) : Prop where
  fragPolicy : ft.fragPolicy = ft₀.fragPolicy
  calculatedSize : ft.calculatedSize = ft₀.calculatedSize
  gotFirst : ft.gotFirst = ft₀.gotFirst
  gotLast : ft.gotLast = ft₀.gotLast
  engine : ft.engine = ft₀.engine
  bad : ft₀.bad = true → ft.bad = true

theorem FragTracker.Same.refl (ft : FragTracker) : ft.Same ft := ⟨rfl, rfl, rfl, rfl, rfl, id⟩

/-- The new fragment, before it is cut. -/
def NewFrag.whole (p : Packet) (new : NewFrag) : Fragment :=
  ⟨p.data, 0, new.fragEnd - new.fragOffset, new.fragOffset, 0, new.lastfrag⟩

/-- The new fragment fits into a datagram, and its length is not rounded up. -/
structure NewFrag.Fits (p : Packet) (new : NewFrag) : Prop where
  lt : new.fragOffset < new.fragEnd
  fragEnd_le : new.fragEnd ≤ 65535
  len : new.len = new.fragEnd - new.fragOffset
  len_le : new.fragEnd - new.fragOffset ≤ p.dsize
  dsize_le : p.dsize ≤ 32767

theorem NewFrag.Fits.within {p : Packet} {new : NewFrag} (h : new.Fits p) :
    (new.whole p).Within where
  data_nonneg := Int.le_refl 0
  data_le := by
    have hle := h.len_le
    simp only [NewFrag.whole, flen, Packet.dsize] at hle ⊢
    omega
  flen_le := h.dsize_le
  fin_le := by
    have := h.lt
    have := h.fragEnd_le
    simp only [NewFrag.whole, Fragment.fin]
    omega

/-- The list `l` with the tracker `ft` is what an insertion has made of the list `l₀` with the
tracker `ft₀`. -/
structure Edited (p : Packet) (new : NewFrag) (l₀ : List Node) (ft₀ ft : FragTracker)
    (s : Nodes Fragment) : Prop where
  nodup : (ids s.list).Nodup
  lt : ∀ a ∈ ids s.list, a < s.fresh
  ordered : Ordered lo hi s.list
  origin : ∀ x ∈ s.list, ∃ w ∈ new.whole p :: l₀.map Prod.snd, Part x.2 w
  fragBytes : ft.fragBytes = sizes s.list
  same : ft.Same ft₀
  kept : ft₀.fragPolicy = .first → ∀ x ∈ l₀, x ∈ s.list
  outside : ft₀.fragPolicy = .last → ∀ i, i < new.fragOffset ∨ new.fragEnd ≤ i →
    Covers lo hi l₀ i → Covers lo hi s.list i

namespace Edited
variable {p : Packet} {new : NewFrag} {l₀ before after : List Node} {ft₀ ft ft' : FragTracker}
  {s : Nodes Fragment} {fresh : ℕ} {x : Node} {frag : Fragment}

section
variable (h : Edited p new l₀ ft₀ ft s)
include h

theorem of_same (hbytes : ft'.fragBytes = ft.fragBytes) (hsame : ft'.Same ft₀) :
    Edited p new l₀ ft₀ ft' s :=
  { h with fragBytes := hbytes.trans h.fragBytes, same := hsame }

theorem alert (e : Event) : Edited p new l₀ ft₀ (ft.alert e) s :=
  h.of_same rfl ⟨h.same.1, h.same.2, h.same.3, h.same.4, h.same.5, h.same.6⟩

theorem countOverlap : Edited p new l₀ ft₀ ft.countOverlap s :=
  h.of_same rfl ⟨h.same.1, h.same.2, h.same.3, h.same.4, h.same.5, h.same.6⟩
end

theorem ordinal {n : ℤ} (h : Edited p new l₀ ft₀ (ft.addBytes n) s) (k : ℕ) :
    Edited p new l₀ ft₀ ({ ft with ordinal := k }.addBytes n) s :=
  h.of_same rfl ⟨h.same.1, h.same.2, h.same.3, h.same.4, h.same.5, h.same.6⟩

theorem teardrop (h : Edited p new l₀ ft₀ ft s) : Edited p new l₀ ft₀ (Snort.Ip.teardrop ft).2 s :=
  h.of_same rfl ⟨h.same.1, h.same.2, h.same.3, h.same.4, h.same.5, fun _ => rfl⟩

theorem checkTinyFragments (h : Edited p new l₀ ft₀ ft s) (fe : FragEngine) (q : Packet) (n : ℤ) :
    Edited p new l₀ ft₀ (checkTinyFragments fe q ft n) s := by
  unfold Snort.Ip.checkTinyFragments
  split_ifs
  · exact h.alert _
  · exact h.alert _
  · exact h
  · exact h

variable (hnew : new.Fits p) (hl₀ : ∀ x ∈ l₀, x.2.Within)
include hnew hl₀

section
variable (h : Edited p new l₀ ft₀ ft s)
include h

theorem within (hx : x ∈ s.list) : x.2.Within := by
  obtain ⟨w, hw, hpart⟩ := h.origin x hx
  rw [mem_cons, mem_map] at hw
  rcases hw with rfl | ⟨y, hy, rfl⟩
  · exact hpart.within hnew.within
  · exact hpart.within (hl₀ y hy)

/-- The fuel of the loops is enough. -/
theorem length_lt : s.list.length < loopFuel := by
  have hlen := length_le_sizes h.ordered
  have hsizes := sizes_le h.ordered fun x hx => (h.within hnew hl₀ hx).fin_le
  exact (hlen.trans hsizes).trans_lt (by decide)

theorem change {s' : Nodes Fragment} {n : ℤ} (hnodup : (ids s'.list).Nodup)
    (hlt : ∀ a ∈ ids s'.list, a < s'.fresh) (hord : Ordered lo hi s'.list)
    (horigin : ∀ y ∈ s'.list, ∃ w ∈ new.whole p :: s.list.map Prod.snd, Part y.2 w)
    (hsizes : (sizes s.list : ℤ) + n = sizes s'.list)
    (hkept : ft₀.fragPolicy = .first → ∀ y ∈ s.list, y ∈ s'.list)
    (houtside : ft₀.fragPolicy = .last → ∀ i, i < new.fragOffset ∨ new.fragEnd ≤ i →
      Covers lo hi s.list i → Covers lo hi s'.list i) :
    Edited p new l₀ ft₀ (ft.addBytes n) s' := by
  have horigin' : ∀ y ∈ s'.list, ∃ w ∈ new.whole p :: l₀.map Prod.snd, Part y.2 w := by
    intro y hy
    obtain ⟨w, hw, hpart⟩ := horigin y hy
    rw [mem_cons, mem_map] at hw
    rcases hw with rfl | ⟨z, hz, rfl⟩
    · exact ⟨_, mem_cons_self, hpart⟩
    · obtain ⟨w, hw, hpart'⟩ := h.origin z hz
      exact ⟨w, hw, hpart.trans hpart'⟩
  have hle : sizes s'.list ≤ 65535 := by
    refine sizes_le hord fun y hy => ?_
    obtain ⟨w, hw, hpart⟩ := horigin' y hy
    rw [mem_cons, mem_map] at hw
    rcases hw with rfl | ⟨z, hz, rfl⟩
    · exact (hpart.within hnew.within).fin_le
    · exact (hpart.within (hl₀ z hz)).fin_le
  exact
    { nodup := hnodup
      lt := hlt
      ordered := hord
      origin := horigin'
      fragBytes := FragTracker.addBytes_fragBytes (by rw [h.fragBytes, hsizes]) (by omega)
      same := ⟨h.same.1, h.same.2, h.same.3, h.same.4, h.same.5, h.same.6⟩
      kept := fun hp y hy => hkept hp y (h.kept hp y hy)
      outside := fun hp i hout hc => houtside hp i hout (h.outside hp i hout hc) }
end

theorem drop (h : Edited p new l₀ ft₀ ft ⟨before ++ x :: after, fresh⟩)
    (hfirst : ft₀.fragPolicy ≠ .first)
    (hlast : ft₀.fragPolicy = .last → new.fragOffset ≤ lo x ∧ hi x ≤ new.fragEnd) :
    Edited p new l₀ ft₀ (ft.addBytes (-x.2.size)) ⟨before ++ after, fresh⟩ := by
  have hsub : (before ++ after).Sublist (before ++ x :: after) :=
    List.Sublist.append_left (sublist_cons_self x after) before
  refine h.change hnew hl₀ (h.nodup.sublist (hsub.map _)) (fun a ha => h.lt a ?_)
    h.ordered.remove (fun y hy => ⟨y.2, ?_, Part.refl _⟩) ?_ (fun hp => absurd hp hfirst) ?_
  · exact (hsub.map _).subset ha
  · exact mem_cons_of_mem _ (mem_map_of_mem (hsub.subset hy))
  · simp only [sizes_append, sizes_cons]
    omega
  · intro hp i hout hc
    obtain ⟨hlo, hhi⟩ := hlast hp
    rw [covers_append, covers_cons] at hc
    rw [covers_append]
    rcases hc with hc | ⟨hxlo, hxhi⟩ | hc
    · exact .inl hc
    · omega
    · exact .inr hc

theorem trim (h : Edited p new l₀ ft₀ ft ⟨before ++ x :: after, fresh⟩)
    (hfirst : ft₀.fragPolicy ≠ .first) (hpart : Part frag x.2) (hpos : 0 < frag.size)
    (hlast : ft₀.fragPolicy = .last → ∀ i, i < new.fragOffset ∨ new.fragEnd ≤ i →
      lo x ≤ i → i < hi x → frag.offset ≤ i ∧ i < frag.fin) :
    Edited p new l₀ ft₀ (ft.addBytes (frag.size - x.2.size))
      ⟨before ++ (x.1, frag) :: after, fresh⟩ := by
  have hids : ids (before ++ (x.1, frag) :: after) = ids (before ++ x :: after) := by simp
  refine h.change hnew hl₀ ?_ ?_ ?_ (fun y hy => ?_) ?_ (fun hp => absurd hp hfirst) ?_
  · exact hids ▸ h.nodup
  · exact hids ▸ h.lt
  · exact h.ordered.replace (Nat.lt_add_of_pos_right hpos) hpart.offset hpart.fin
  · rw [mem_append, mem_cons] at hy
    rcases hy with hy | rfl | hy
    · exact ⟨y.2, by simp [mem_map_of_mem hy], Part.refl _⟩
    · exact ⟨x.2, by simp, hpart⟩
    · exact ⟨y.2, by simp [mem_map_of_mem hy], Part.refl _⟩
  · simp only [sizes_append, sizes_cons]
    omega
  · intro hp i hout hc
    rw [covers_append, covers_cons] at hc ⊢
    rcases hc with hc | ⟨hxlo, hxhi⟩ | hc
    · exact .inl hc
    · exact .inr (.inl (hlast hp i hout hxlo hxhi))
    · exact .inr (.inr hc)

/-- A part of the new fragment is put between the fragments that it does not overlap. -/
theorem add (h : Edited p new l₀ ft₀ ft ⟨before ++ after, fresh⟩)
    (hpart : Part frag (new.whole p)) (hpos : 0 < frag.size)
    (hbefore : ∀ y ∈ before, hi y ≤ frag.offset) (hafter : ∀ y ∈ after, frag.fin ≤ lo y) :
    Edited p new l₀ ft₀ (ft.addBytes frag.size) ⟨before ++ (fresh, frag) :: after, fresh + 1⟩ := by
  have hperm : (before ++ (fresh, frag) :: after).Perm ((fresh, frag) :: (before ++ after)) :=
    perm_middle
  refine h.change hnew hl₀ ?_ (fun a ha => ?_) ?_ (fun y hy => ?_) ?_ (fun _ y hy => ?_) ?_
  · refine ((hperm.map Prod.fst).nodup_iff).mpr (nodup_cons.mpr ⟨fun hmem => ?_, h.nodup⟩)
    exact lt_irrefl _ (h.lt _ hmem)
  · have ha' : a ∈ fresh :: ids (before ++ after) := (hperm.map Prod.fst).subset ha
    rcases mem_cons.mp ha' with rfl | ha'
    · exact Nat.lt_succ_self _
    · exact Nat.lt_succ_of_lt (h.lt a ha')
  · exact h.ordered.insert (Nat.lt_add_of_pos_right hpos) hbefore hafter
  · rcases mem_cons.mp (hperm.subset hy) with rfl | hy'
    · exact ⟨_, mem_cons_self, hpart⟩
    · exact ⟨y.2, mem_cons_of_mem _ (mem_map_of_mem hy'), Part.refl _⟩
  · simp only [sizes_append, sizes_cons]
    omega
  · exact hperm.symm.subset (mem_cons_of_mem _ hy)
  · intro _ i _ hc
    rw [covers_append] at hc
    rw [covers_append, covers_cons]
    rcases hc with hc | hc
    · exact .inl hc
    · exact .inr (.inr hc)

theorem split (h : Edited p new l₀ ft₀ ft ⟨before ++ x :: after, fresh⟩)
    (hfirst : ft₀.fragPolicy ≠ .first) {left right : Fragment}
    (hleft : Part left x.2) (hright : Part right x.2) (hlpos : 0 < left.size)
    (hrpos : 0 < right.size) (hlfin : left.fin = new.fragOffset)
    (hroff : right.offset = new.fragEnd) (hloff : left.offset = x.2.offset)
    (hrfin : right.fin = x.2.fin) (hle : new.fragOffset ≤ new.fragEnd) :
    Edited p new l₀ ft₀ (ft.addBytes (left.size + right.size - x.2.size))
      ⟨before ++ (x.1, left) :: (fresh, right) :: after, fresh + 1⟩ := by
  have hperm : (before ++ (x.1, left) :: (fresh, right) :: after).Perm
      ((fresh, right) :: (before ++ (x.1, left) :: after)) := by
    rw [append_cons, append_cons before (x.1, left) after]
    exact perm_middle
  have hids : ids (before ++ (x.1, left) :: after) = ids (before ++ x :: after) := by simp
  refine h.change hnew hl₀ ?_ (fun a ha => ?_) ?_ (fun y hy => ?_) ?_
    (fun hp => absurd hp hfirst) ?_
  · refine ((hperm.map Prod.fst).nodup_iff).mpr (nodup_cons.mpr ⟨fun hmem => ?_, ?_⟩)
    · exact lt_irrefl _ (h.lt _ (hids ▸ hmem))
    · show (ids (before ++ (x.1, left) :: after)).Nodup
      exact hids ▸ h.nodup
  · have ha' : a ∈ fresh :: ids (before ++ (x.1, left) :: after) :=
      (hperm.map Prod.fst).subset ha
    rw [hids] at ha'
    rcases mem_cons.mp ha' with rfl | ha'
    · exact Nat.lt_succ_self _
    · exact Nat.lt_succ_of_lt (h.lt a ha')
  · -- the left part takes the place of the fragment, the right one goes behind it
    obtain ⟨-, hb, ha⟩ := h.ordered.middle
    have hl : Ordered lo hi (before ++ (x.1, left) :: after) :=
      h.ordered.replace (Nat.lt_add_of_pos_right hlpos) hleft.offset hleft.fin
    rw [append_cons] at hl
    rw [append_cons]
    refine hl.insert (Nat.lt_add_of_pos_right hrpos) (fun y hy => ?_) fun y hy => ?_
    · rcases mem_append.mp hy with hy | hy
      · exact (hb y hy).trans hright.offset
      · rw [mem_singleton.mp hy]
        exact hlfin.trans_le (hle.trans_eq hroff.symm)
    · exact hrfin.trans_le (ha y hy)
  · rcases mem_cons.mp (hperm.subset hy) with rfl | hy'
    · exact ⟨x.2, by simp, hright⟩
    · rw [mem_append, mem_cons] at hy'
      rcases hy' with hy' | rfl | hy'
      · exact ⟨y.2, by simp [mem_map_of_mem hy'], Part.refl _⟩
      · exact ⟨x.2, by simp, hleft⟩
      · exact ⟨y.2, by simp [mem_map_of_mem hy'], Part.refl _⟩
  · simp only [sizes_append, sizes_cons]
    omega
  · intro _ i hout hc
    rw [covers_append, covers_cons] at hc
    rw [covers_append, covers_cons, covers_cons]
    rcases hc with hc | ⟨hxlo, hxhi⟩ | hc
    · exact .inl hc
    · simp only [lo, hi] at hxlo hxhi ⊢
      rcases hout with hout | hout
      · exact .inr (.inl ⟨by omega, by omega⟩)
      · exact .inr (.inr (.inl ⟨by omega, by omega⟩))
    · exact .inr (.inr (.inr hc))
end Edited
end Snort.Ip
