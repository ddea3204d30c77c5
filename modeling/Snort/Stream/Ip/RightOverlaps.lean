import Snort.Stream.Ip.LeftOverlaps

/-!
# Overlaps on the right

The loop of `insert` over the fragments that begin in the new one. In each round
the fragment on the right is cut or dropped, or the new fragment is cut, or it is
inserted up to the fragment and goes on behind it.
-/

namespace Snort.Ip
open Nat List DoublyLinked ListProgram IntervalList Ordered

/-! ## Gaps -/

/-- The fragments that follow each other from an offset on, the offset where they end, and the
fragments behind them. -/
def gap (e : ℕ) : ℕ → List Node → ℕ × List Node × List Node
  | c, [] => (c, [], [])
  | c, x :: rest =>
    if c = lo x ∧ lo x < e then
      let (c', g, rest') := gap e (hi x) rest
      (c', x :: g, rest')
    else (c, [], x :: rest)

section Gap
variable {e c : ℕ} {l : List Node}

theorem gap_append : (gap e c l).2.1 ++ (gap e c l).2.2 = l := by
  induction l generalizing c with
  | nil => rfl
  | cons x rest ih =>
    rw [gap]
    split_ifs
    · exact congrArg (x :: ·) ih
    · rfl

theorem gap_lt : ∀ x ∈ (gap e c l).2.1, lo x < e := by
  induction l generalizing c with
  | nil => exact fun x hx => absurd hx not_mem_nil
  | cons x rest ih =>
    rw [gap]
    split_ifs with h
    · exact forall_mem_cons.mpr ⟨h.2, ih⟩
    · exact fun x hx => absurd hx not_mem_nil

theorem gap_stops : ∀ y ∈ (gap e c l).2.2.head?, ¬ ((gap e c l).1 = lo y ∧ lo y < e) := by
  induction l generalizing c with
  | nil => exact fun y hy => absurd hy nofun
  | cons x rest ih =>
    rw [gap]
    split_ifs with h
    · exact ih
    · intro y hy
      rw [← Option.some.inj hy]
      exact h

theorem gap_covers {i : ℕ} (hlo : c ≤ i) (hhi : i < (gap e c l).1) :
    Covers lo hi (gap e c l).2.1 i := by
  induction l generalizing c with
  | nil => exact absurd hlo (not_le.mpr hhi)
  | cons x rest ih =>
    rw [gap] at hhi ⊢
    split_ifs at hhi ⊢ with h
    · rw [covers_cons]
      by_cases hi' : i < hi x
      · exact .inl ⟨h.1 ▸ hlo, hi'⟩
      · exact .inr (ih (not_lt.mp hi') hhi)
    · exact absurd hlo (not_le.mpr hhi)

theorem gap_last : ((gap e c l).2.1.getLast?.map hi).getD c = (gap e c l).1 := by
  induction l generalizing c with
  | nil => rfl
  | cons x rest ih =>
    rw [gap]
    split_ifs with h
    · have := @ih (hi x)
      rw [getLast?_cons]
      cases hg : (gap e (hi x) rest).2.1.getLast? with
      | none => simpa [hg] using this
      | some y => simpa [hg] using this
    · rfl

theorem gap_of_le (h : ∀ y ∈ l.head?, e ≤ lo y) : gap e c l = (c, [], l) := by
  cases l with
  | nil => rfl
  | cons y rest =>
    have hle : e ≤ lo y := h y rfl
    rw [gap, if_neg (by omega)]

/-- The gap behind a fragment: the last fragment in front of it, and the ones behind it. -/
theorem exists_gap {x : Node} (h : lo x < e) :
    ∃ init y rest, gap e (lo x) (x :: l) = (hi y, init ++ [y], rest) ∧
      x :: l = init ++ y :: rest ∧ (∀ z ∈ init ++ [y], lo z < e) ∧
      (∀ z ∈ rest.head?, lo z ≠ hi y ∨ e ≤ lo z) ∧
      ∀ i, lo x ≤ i → i < hi y → Covers lo hi (init ++ [y]) i := by
  have happend := @gap_append e (lo x) (x :: l)
  have hlt := @gap_lt e (lo x) (x :: l)
  have hstops := @gap_stops e (lo x) (x :: l)
  have hlast := @gap_last e (lo x) (x :: l)
  have hcovers := fun i => @gap_covers e (lo x) (x :: l) i
  rw [gap, if_pos ⟨rfl, h⟩] at happend hlt hstops hlast hcovers ⊢
  generalize gap e (hi x) l = r at happend hlt hstops hlast hcovers ⊢
  obtain ⟨c, g, rest⟩ := r
  dsimp only at happend hlt hstops hlast hcovers ⊢
  obtain ⟨init, y, hg⟩ := (eq_nil_or_concat (x :: g)).resolve_left nofun
  rw [concat_eq_append] at hg
  rw [hg] at happend hlt hlast hcovers ⊢
  have hc : hi y = c := by simpa using hlast
  subst hc
  refine ⟨init, y, rest, rfl, ?_, hlt, fun z hz => ?_, hcovers⟩
  · exact happend.symm.trans (append_cons init y rest).symm
  · have := hstops z hz
    omega
end Gap

section Steps
variable {fe : FragEngine} {p : Packet} {new : NewFrag} {l₀ before after : List Node}
  {ft₀ ft : FragTracker} {fresh : ℕ} {ed : Edit} {fuel c e : ℕ}

theorem findGap_run {left : Option ℕ} (hfuel : after.length < fuel)
    (hnodup : (ids (before ++ after)).Nodup) (hfin : ∀ x ∈ after, hi x < 65536) :
    (findGap new fuel c left (firstOr none after)).run listMachine ⟨before ++ after, fresh⟩ =
      some (((gap new.fragEnd c after).1, lastOr left (gap new.fragEnd c after).2.1,
        firstOr none (gap new.fragEnd c after).2.2), ⟨before ++ after, fresh⟩) := by
  induction after generalizing before fuel c left with
  | nil =>
    obtain ⟨fuel, rfl⟩ := exists_eq_succ_of_ne_zero (ne_zero_of_lt hfuel)
    rfl
  | cons x after ih =>
    obtain ⟨fuel, rfl⟩ := exists_eq_succ_of_ne_zero (ne_zero_of_lt hfuel)
    have hx := not_mem_ids_of_nodup hnodup
    obtain ⟨hxfin, hfin⟩ := forall_mem_cons.mp hfin
    show (findGap new (fuel + 1) c left (some x.1)).run listMachine _ = _
    rw [findGap, Prog.run_bind, run_load hx, gap]
    dsimp only [Option.bind_some]
    by_cases hc : c = x.2.offset ∧ x.2.offset < new.fragEnd
    · have hc' : c = lo x ∧ lo x < new.fragEnd := hc
      have hcast : u16 (x.2.fin : ℕ) = hi x := u16_natCast hxfin
      rw [append_cons] at hnodup
      have hrest := @ih (before ++ [x]) fuel (hi x) (some x.1) (by simpa using hfuel) hnodup hfin
      rw [← append_cons] at hrest
      rw [if_pos hc, if_pos hc', Prog.run_bind, run_next hx, hcast]
      exact hrest
    · have hc' : ¬ (c = lo x ∧ lo x < new.fragEnd) := hc
      rw [if_neg hc, if_neg hc']
      rfl

/-! ## Rounds -/

/-- Ordered fragments begin where the first of them does, or behind it. -/
theorem le_lo_of_head (hord : Ordered lo hi after)
    (h : ∀ x ∈ after.head?, e ≤ lo x) : ∀ x ∈ after, e ≤ lo x := by
  cases after with
  | nil => exact fun x hx => absurd hx not_mem_nil
  | cons y rest =>
    obtain ⟨hy, -, hrest⟩ := cons_iff.mp hord
    have hle : e ≤ lo y := h y rfl
    refine forall_mem_cons.mpr ⟨hle, fun x hx => ?_⟩
    exact hle.trans (hy.le.trans (hrest x hx))

theorem head_le_of_takeWhile
    (h : (after.takeWhile fun x => decide (lo x < e)) = []) : ∀ x ∈ after.head?, e ≤ lo x := by
  intro x hx
  obtain ⟨rest, rfl⟩ := head?_eq_some_iff.mp hx
  by_contra hlt
  rw [takeWhile_cons_of_pos (by simpa using hlt)] at h
  exact absurd h nofun

theorem takeWhile_eq_nil_of_head (h : ∀ x ∈ after.head?, e ≤ lo x) :
    (after.takeWhile fun x => decide (lo x < e)) = [] := by
  cases after with
  | nil => rfl
  | cons x rest =>
    have hle : e ≤ lo x := h x rfl
    exact takeWhile_cons_of_neg (by simpa using hle)

/-- How the loop leaves the new fragment. -/
inductive Ending (new : NewFrag) (ft₀ : FragTracker) (ed : Edit) (l : List Node) : Prop
  /-- It has a place between the fragments. -/
  | adds (before after : List Node) (list : l = before ++ after) (addthis : ed.addthis = true)
      (left : ed.left = lastOr none before) (slide : ed.fragOffset = new.fragOffset + ed.slide)
      (le_start : new.fragOffset ≤ ed.fragOffset) (trunc_nonneg : 0 ≤ ed.trunc)
      (trunc_le : ed.fragOffset + ed.trunc ≤ new.fragEnd)
      (before_le : ∀ x ∈ before, hi x ≤ ed.fragOffset)
      (le_after : ∀ x ∈ after, new.fragEnd - ed.trunc ≤ lo x)
      (first : ft₀.fragPolicy = .first → ∀ i, new.fragOffset ≤ i → i < new.fragEnd →
        i < ed.fragOffset ∨ new.fragEnd - ed.trunc ≤ i → Covers lo hi l i)
      (last : ft₀.fragPolicy = .last → ed.fragOffset = new.fragOffset ∧ ed.trunc = 0)
  /-- Nothing is left of it. -/
  | nothing (addthis : ed.addthis = true) (slide_nonneg : 0 ≤ ed.slide)
      (slide_lt : ed.slide < 65536)
      (trunc : ed.trunc = 0) (size : new.len - ed.slide ≤ 0) (le_size : -32768 ≤ new.len - ed.slide)
  /-- It has been inserted. -/
  | skips (addthis : ed.addthis = false)
      (first : ft₀.fragPolicy = .first → ∀ i, new.fragOffset ≤ i → i < new.fragEnd →
        Covers lo hi l i)
      (last : ft₀.fragPolicy ≠ .last)

/-- The loop stops. -/
def Stops (new : NewFrag) (ed : Edit) (l : List Node) : Prop :=
  ∃ before after, l = before ++ after ∧ ed.right = firstOr none after ∧
    (ed.done = true ∨ ∀ x ∈ after.head?, new.fragEnd ≤ lo x)

/-- What a round does: fewer than `n` fragments are left on the right, or the loop stops. -/
inductive Round (p : Packet) (new : NewFrag) (l₀ : List Node) (ft₀ : FragTracker) (n : ℕ)
    (ed : Edit) (s : Nodes Fragment) : Prop
  | again (before after : List Node) (list : s.list = before ++ after) (lt : after.length < n)
      (placing : Placing p new l₀ ft₀ ed before after s.fresh)
  | ends (edited : Edited p new l₀ ft₀ ed.ft s) (stops : Stops new ed s.list)
      (ending : Ending new ft₀ ed s.list)

theorem Placing.ending (h : Placing p new l₀ ft₀ ed before after fresh)
    (hafter : ∀ x ∈ after.head?, new.fragEnd ≤ lo x) :
    Ending new ft₀ ed (before ++ after) := by
  have htrunc := h.trunc
  have hle := h.start_le
  have hord := (append_iff.mp h.edited.ordered).2.1
  refine .adds before after rfl h.addthis h.left h.slide h.le_start (by omega) (by omega)
    h.before_le (fun x hx => ?_) (fun hp i hlo hhi hout => ?_) fun hp => ⟨h.last hp, htrunc⟩
  · have := le_lo_of_head hord hafter x hx
    omega
  · exact h.first hp i hlo (by omega)

theorem dumpEmpty_run {r : ℕ} {right : Fragment} (hpos : 0 < right.size) (s : Nodes Fragment) :
    (dumpEmpty ed r right).run listMachine s = some (ed, s) := by
  rw [dumpEmpty, if_neg (ne_of_gt hpos)]
  rfl

section Partial
variable {r n : ℕ} {right : Fragment}

theorem Placing.clean_cons (h : Placing p new l₀ ft₀ ed before ((r, right) :: after) fresh)
    (hlt : right.offset < new.fragEnd) :
    RightOk ft₀.fragPolicy new.fragOffset new.fragEnd ed.fragOffset
      ((r, right) :: after.takeWhile fun x => decide (lo x < new.fragEnd)) := by
  have hclean := h.clean
  rwa [takeWhile_cons_of_pos (by exact decide_eq_true hlt)] at hclean

/-- The fragment on the right is cut where the new one ends. -/
theorem truncateRight_ends (hnew : new.Fits p) (hl₀ : ∀ x ∈ l₀, x.2.Within)
    (h : Placing p new l₀ ft₀ ed before ((r, right) :: after) fresh)
    (hfirst : ft₀.fragPolicy ≠ .first) (hlt : right.offset < new.fragEnd)
    (hfin : new.fragEnd < right.fin) :
    Ends listMachine
      (truncateRight { ed with ft := ed.ft.countOverlap, done := true } r right
        (new.fragEnd - right.offset))
      ⟨before ++ (r, right) :: after, fresh⟩ (Round p new l₀ ft₀ n) := by
  have hw : right.Within := h.edited.within hnew hl₀ (mem_append_right _ mem_cons_self)
  have hsize := hw.size_le
  have hend := hnew.fragEnd_le
  have hmem : r ∉ ids before := not_mem_ids_of_nodup h.edited.nodup
  have htrunc := h.trunc
  have hle := h.start_le
  have hdef : right.fin = right.offset + right.size := rfl
  have hstart : ed.fragOffset ≤ right.offset := h.le_after (r, right) mem_cons_self
  have hlo := h.le_start
  obtain ⟨-, -, hafter⟩ := h.edited.ordered.middle
  have hcast : i16 (new.fragEnd - right.offset) = new.fragEnd - right.offset :=
    i16_of_lt (by omega) (by omega)
  have hoffset : u16 (right.offset + (new.fragEnd - right.offset)) = new.fragEnd := by
    have := u16_of_lt (x := right.offset + (new.fragEnd - right.offset)) (by omega) (by omega)
    omega
  have hcut : u16 (right.size - (new.fragEnd - right.offset)) = right.fin - new.fragEnd := by
    have := u16_of_lt (x := right.size - (new.fragEnd - right.offset)) (by omega) (by omega)
    omega
  unfold truncateRight
  rw [hcast, hoffset, hcut]
  refine ends_bind_of_run (run_store hmem) (.of_run (dumpEmpty_run (Nat.sub_pos_of_lt hfin) _) ?_)
  have hbytes : -((new.fragEnd : ℤ) - right.offset) = (right.fin - new.fragEnd : ℕ) -
    right.size := by
    omega
  have htrim := h.edited.countOverlap.trim hnew hl₀ hfirst
    (show Part { right with
        offset := new.fragEnd
        data := right.data + (new.fragEnd - right.offset)
        size := right.fin - new.fragEnd } right from
      ⟨rfl, le_of_lt hlt, by simp only [Fragment.fin]; omega, by dsimp only; omega⟩)
    (by dsimp only; omega) fun _ i hout hlo' hhi => by
      simp only [lo, hi, Fragment.fin] at hlo' hhi ⊢
      omega
  rw [← hbytes] at htrim
  refine .ends htrim ⟨before, _, rfl, h.right, .inl rfl⟩ ?_
  refine .adds before _ rfl h.addthis h.left h.slide h.le_start (by dsimp only; omega)
    (by dsimp only; omega) h.before_le (fun x hx => ?_) (fun hp => absurd hp hfirst)
    fun hp => ⟨h.last hp, htrunc⟩
  rcases mem_cons.mp hx with rfl | hx
  · simp only [lo]
    omega
  · have := hafter x hx
    simp only [lo, hi] at this ⊢
    omega

section
variable (h : Placing p new l₀ ft₀ ed before ((r, right) :: after) fresh)
include h

/-- The new fragment is cut where the one on the right begins. -/
theorem Placing.cutNew (hlast : ft₀.fragPolicy ≠ .last) (hlt : right.offset < new.fragEnd)
    (hfin : new.fragEnd < right.fin) :
    Round p new l₀ ft₀ n
      { ed with ft := ed.ft.countOverlap, done := true, trunc := new.fragEnd - right.offset }
      ⟨before ++ (r, right) :: after, fresh⟩ := by
  have hstart : ed.fragOffset ≤ right.offset := h.le_after (r, right) mem_cons_self
  have hord := (append_iff.mp h.edited.ordered).2.1
  refine .ends h.edited.countOverlap ⟨before, _, rfl, h.right, .inl rfl⟩ ?_
  refine .adds before _ rfl h.addthis h.left h.slide h.le_start (by dsimp only; omega)
    (by dsimp only; omega) h.before_le (fun x hx => ?_) (fun hp i hlo hhi hout => ?_)
    fun hp => absurd hp hlast
  · have := le_lo_of_head hord (e := right.offset) (fun y hy => (Option.some.inj hy) ▸ le_refl _) x
      hx
    dsimp only
    omega
  · rcases hout with hout | hout
    · exact h.first hp i hlo hout
    · dsimp only at hout
      refine ⟨(r, right), by simp, ?_, ?_⟩
      · simp only [lo]
        omega
      · simp only [hi]
        omega

/-- A fragment that begins with the new one and ends behind it leaves nothing of it. -/
theorem Placing.rejectNew (hnew : new.Fits p) (hw : right.Within)
    (hoff : right.offset = ed.fragOffset)
    (hfin : new.fragEnd + (ed.fragOffset - new.fragOffset) ≤ right.fin) {start : ℕ} :
    Round p new l₀ ft₀ n
      { ed with
        ft := ed.ft.countOverlap, done := true, slide := right.fin - ed.fragOffset
        fragOffset := start }
      ⟨before ++ (r, right) :: after, fresh⟩ := by
  have hsize := hw.size_le
  have hle := h.le_start
  have hlen := hnew.len
  have hle' := hnew.lt
  have hdef : right.fin = right.offset + right.size := rfl
  refine .ends h.edited.countOverlap ⟨before, _, rfl, h.right, .inl rfl⟩ ?_
  exact .nothing h.addthis (by dsimp only; omega) (by dsimp only; omega) h.trunc
    (by dsimp only; omega) (by dsimp only; omega)
end

theorem partialRight_ends (hnew : new.Fits p) (hl₀ : ∀ x ∈ l₀, x.2.Within)
    (h : Placing p new l₀ ft₀ ed before ((r, right) :: after) fresh)
    (hlt : right.offset < new.fragEnd) (hov : (new.fragEnd - right.offset : ℤ) < right.size) :
    Ends listMachine (partialRight ed r right (new.fragEnd - right.offset))
      ⟨before ++ (r, right) :: after, fresh⟩ (Round p new l₀ ft₀ n) := by
  have hw : right.Within := h.edited.within hnew hl₀ (mem_append_right _ mem_cons_self)
  have hsize := hw.size_le
  have hdef : right.fin = right.offset + right.size := rfl
  have hstart : ed.fragOffset ≤ right.offset := h.le_after (r, right) mem_cons_self
  have hends : new.fragEnd < right.fin := by omega
  have hcast : i16 (new.fragEnd - right.offset) = new.fragEnd - right.offset :=
    i16_of_lt (by omega) (by omega)
  unfold partialRight
  dsimp only
  rw [show ed.ft.countOverlap.fragPolicy = ft₀.fragPolicy from h.edited.same.fragPolicy, hcast]
  cases hp : ft₀.fragPolicy with
  | first => exact ends_pure (h.cutNew (by simp [hp]) hlt hends)
  | windows => exact ends_pure (h.cutNew (by simp [hp]) hlt hends)
  | solaris => exact ends_pure (h.cutNew (by simp [hp]) hlt hends)
  | bsdRight => exact ends_pure (h.cutNew (by simp [hp]) hlt hends)
  | last => exact truncateRight_ends hnew hl₀ h (by simp [hp]) hlt hends
  | linux => exact truncateRight_ends hnew hl₀ h (by simp [hp]) hlt hends
  | bsd =>
    split_ifs with hoff
    · have hclean := h.clean_cons hlt
      rw [hp] at hclean
      have hslide : i16 (right.fin - ed.fragOffset) = right.fin - ed.fragOffset :=
        i16_of_lt (by omega) (by omega)
      rw [hslide]
      exact .of_run (dumpEmpty_run (by omega) _) (h.rejectNew hnew hw hoff ((hclean hoff).2 hends))
    · exact truncateRight_ends hnew hl₀ h (by simp [hp]) hlt hends
end Partial

theorem rightOk_of_ne {policy : FragPolicy} {o f : ℕ} {l : List Node} (hp : policy ≠ .first)
    (h : ∀ x ∈ l.head?, lo x ≠ f) : RightOk policy o e f l := by
  cases l with
  | nil => trivial
  | cons r rest =>
    have hr : lo r ≠ f := h r rfl
    cases policy with
    | first => exact absurd rfl hp
    | windows => exact fun h => absurd h hr
    | solaris => exact fun h => absurd h hr
    | bsd => exact fun h => absurd h hr
    | last => trivial
    | linux => trivial
    | bsdRight => trivial

/-! ### Chunks -/

theorem startsBefore_run (hnodup : (ids (before ++ after)).Nodup) :
    (nextChunk.startsBefore new (firstOr none after)).run listMachine ⟨before ++ after, fresh⟩ =
      some (after.head?.any fun y => decide (lo y < new.fragEnd), ⟨before ++ after, fresh⟩) := by
  cases after with
  | nil => rfl
  | cons y rest =>
    show (nextChunk.startsBefore new (some y.1)).run listMachine _ = _
    rw [nextChunk.startsBefore, Prog.run_bind, run_load (not_mem_ids_of_nodup hnodup)]
    rfl

theorem head_any_lt_of_le (h : ∀ y ∈ after.head?, e ≤ lo y) :
    (after.head?.any fun y => decide (lo y < e)) = false := by
  cases hhead : after.head? with
  | none => rfl
  | some y => exact decide_eq_false (not_lt.mpr (h y hhead))

/-- The new fragment is inserted, and no other one begins in it behind the chunk. -/
theorem nextChunk_run_done (hnodup : (ids (before ++ after)).Nodup)
    (hright : ed.right = firstOr none after) (hafter : ∀ y ∈ after.head?, new.fragEnd ≤ lo y)
    (hc : new.fragEnd ≤ c) :
    (nextChunk new ed c).run listMachine ⟨before ++ after, fresh⟩ =
      some ({ ed with addthis := false }, ⟨before ++ after, fresh⟩) := by
  rw [nextChunk, hright, Prog.run_bind, startsBefore_run hnodup, head_any_lt_of_le hafter]
  dsimp only [Option.bind_some]
  rw [if_neg Bool.false_ne_true, if_neg (not_lt.mpr hc)]
  rfl

section Full
variable {r : ℕ} {right : Fragment} {y : Node}

/-- The new fragment goes on behind a chunk, and behind the fragments that follow the chunk. -/
theorem Edited.placing_behind (hE : Edited p new l₀ ft₀ ft ⟨before ++ y :: after, fresh⟩)
    (hed : ed.left = some y.1 ∧ ed.right = firstOr none after ∧ ed.addthis = true ∧
      ed.done = false ∧ ed.trunc = 0 ∧ ed.ft = ft ∧ ed.fragOffset = hi y ∧
      (ed.fragOffset : ℤ) = new.fragOffset + ed.slide)
    (hlast : ft₀.fragPolicy ≠ .last) (hle : hi y ≤ new.fragEnd) (hlo : new.fragOffset ≤ hi y)
    (hclean : RightOk ft₀.fragPolicy new.fragOffset new.fragEnd (hi y)
      (after.takeWhile fun x => decide (lo x < new.fragEnd)))
    (hcovers : ft₀.fragPolicy = .first → ∀ i, new.fragOffset ≤ i → i < hi y →
      Covers lo hi (before ++ y :: after) i) :
    Placing p new l₀ ft₀ ed (before ++ [y]) after fresh := by
  obtain ⟨hleft, hright, hadd, hdone, htrunc, hft, hstart, hslide⟩ := hed
  obtain ⟨hy, hbefore, hafter⟩ := hE.ordered.middle
  rw [append_cons] at hE hcovers
  subst hft
  rw [← hstart] at hle hlo hclean hcovers
  exact
    { edited := hE
      left := by rw [hleft, lastOr_concat]
      right := hright
      addthis := hadd
      done := hdone
      trunc := htrunc
      slide := hslide
      le_start := hlo
      start_le := hle
      before_le := fun x hx => by
        rw [hstart]
        rcases mem_append.mp hx with hx | hx
        · exact (hbefore x hx).trans hy.le
        · rw [mem_singleton.mp hx]
      le_after := fun x hx => hstart.symm ▸ hafter x hx
      clean := hclean
      first := hcovers
      last := fun hp => absurd hp hlast }

/-- Under the first policy, the new fragment is whole if it ends behind the last fragment that
begins in it, and these fragments follow each other. -/
theorem Placing.clean_of_gap {init rest : List Node}
    (h : Placing p new l₀ ft₀ ed before ((r, right) :: after) fresh)
    (hoff : ed.fragOffset < right.offset) (happend : (r, right) :: after = init ++ y :: rest)
    (hgaplt : ∀ z ∈ init ++ [y], lo z < new.fragEnd) (hp : ft₀.fragPolicy = .first) :
    ∀ x ∈ (y :: rest.takeWhile fun x => decide (lo x < new.fragEnd)).getLast?, hi x < new.fragEnd →
      ed.fragOffset = new.fragOffset ∧
        Joined (init ++ y :: rest.takeWhile fun x => decide (lo x < new.fragEnd)) := by
  have hclean := h.clean
  rw [hp, happend, append_cons, takeWhile_append_of_pos (by simpa using hgaplt),
    ← append_cons] at hclean
  intro x hx
  have hne : ¬ lo (r, right) = ed.fragOffset := ne_of_gt hoff
  cases init with
  | nil =>
    obtain ⟨rfl, -⟩ := List.cons.inj happend
    rw [nil_append, RightOk, if_neg hne] at hclean
    exact hclean x hx
  | cons z init =>
    obtain ⟨rfl, -⟩ := List.cons.inj happend
    rw [cons_append, RightOk, if_neg hne] at hclean
    refine hclean x ?_
    rwa [← cons_append, getLast?_append_cons]

theorem Placing.alerted (h : Placing p new l₀ ft₀ ed before after fresh) (e : Event) :
    Placing p new l₀ ft₀
      { ed with ft := (ed.ft.alert e).countOverlap, alertedOverlap := true } before after fresh :=
  { h with edited := (h.edited.alert e).countOverlap }

section
variable (hnew : new.Fits p) (hl₀ : ∀ x ∈ l₀, x.2.Within)
include hnew hl₀

/-- What is left of the new fragment behind the fragments up to `y`. -/
theorem nextChunk_ends {n : ℕ}
    (hE : Edited p new l₀ ft₀ ed.ft ⟨before ++ y :: after, fresh⟩) (hleft : ed.left = some y.1)
    (hright : ed.right = firstOr none after) (hadd : ed.addthis = true) (hdone : ed.done = false)
    (hlast : ft₀.fragPolicy ≠ .last) (hlo : new.fragOffset ≤ hi y) (hn : after.length < n)
    (hnext : ∀ z ∈ after.head?, lo z < new.fragEnd → new.origOffset = new.fragOffset ∧
      RightOk ft₀.fragPolicy new.fragOffset new.fragEnd (hi y)
        (after.takeWhile fun x => decide (lo x < new.fragEnd)))
    (htail : (∀ z ∈ after.head?, new.fragEnd ≤ lo z) → hi y < new.fragEnd →
      ed.fragOffset = new.fragOffset)
    (hcovers : ft₀.fragPolicy = .first → ∀ i, new.fragOffset ≤ i → i < hi y →
      Covers lo hi (before ++ y :: after) i) :
    Ends listMachine (nextChunk new ed (hi y)) ⟨before ++ y :: after, fresh⟩
      (Round p new l₀ ft₀ n) := by
  have hnodup := hE.nodup
  have hload := @run_load _ before after y.1 fresh y.2 (not_mem_ids_of_nodup hnodup)
  have hfin := (hE.within hnew hl₀ (x := y) (by simp)).fin_le
  have hlen := hnew.len_le
  have hds := hnew.dsize_le
  obtain ⟨hy, -, hafter⟩ := hE.ordered.middle
  have hnodup' : (ids (before ++ [y] ++ after)).Nodup := by rwa [append_cons] at hnodup
  have hstarts := @startsBefore_run new (before ++ [y]) after fresh hnodup'
  rw [← append_cons] at hstarts
  by_cases hhead : ∀ z ∈ after.head?, new.fragEnd ≤ lo z
  · by_cases hend : new.fragEnd ≤ hi y
    · -- nothing is left
      have hrun := @nextChunk_run_done new (before ++ [y]) after fresh ed _ hnodup'
        hright hhead hend
      rw [← append_cons] at hrun
      refine .of_run hrun (.ends hE ⟨_, after, append_cons before y after, hright,
        .inr hhead⟩ (.skips rfl (fun hp i hlo hhi => ?_) hlast))
      exact hcovers hp i hlo (hhi.trans_le hend)
    · -- the rest goes behind the last fragment
      have hstart := htail hhead (not_le.mp hend)
      have hslide : i16 (hi y - new.fragOffset) = hi y - new.fragOffset :=
        i16_of_lt (by omega) (by omega)
      rw [nextChunk, hright]
      refine ends_bind_of_run hstarts ?_
      rw [head_any_lt_of_le hhead, if_neg Bool.false_ne_true, if_pos (not_le.mp hend), hleft]
      refine ends_bind_of_run hload (ends_pure ?_)
      refine .again _ after (append_cons before y after) hn (hE.placing_behind ?_ hlast
        (le_of_lt (not_le.mp hend)) hlo ?_ hcovers)
      · refine ⟨rfl, rfl, hadd, hdone, rfl, rfl, rfl, ?_⟩
        show (hi y : ℤ) = new.fragOffset + i16 (hi y - ed.fragOffset)
        rw [hstart, hslide]
        omega
      · rw [takeWhile_eq_nil_of_head hhead]
        trivial
  · -- the next chunk begins behind the last fragment
    push Not at hhead
    obtain ⟨z, hz, hzlt⟩ := hhead
    obtain ⟨horig, hclean⟩ := hnext z hz hzlt
    have hle : hi y ≤ lo z := hafter z (mem_of_mem_head? hz)
    have hslide : i16 (hi y - new.origOffset) = hi y - new.fragOffset := by
      rw [horig, i16_of_lt (by omega) (by omega)]
    have hyes : (after.head?.any fun y => decide (lo y < new.fragEnd)) = true := by
      rw [Option.mem_def.mp hz]
      exact decide_eq_true hzlt
    have hleftEnd : (nextChunk.leftEnd new ed.left).run listMachine
        ⟨before ++ y :: after, fresh⟩ = some (hi y, ⟨before ++ y :: after, fresh⟩) := by
      have hcast : u16 (y.2.fin : ℕ) = hi y := u16_natCast (by omega)
      rw [hleft, nextChunk.leftEnd, Prog.run_bind, hload, Option.bind_some]
      rw [hcast]
      rfl
    rw [nextChunk, hright]
    refine ends_bind_of_run hstarts ?_
    rw [hyes, if_pos rfl]
    refine ends_bind_of_run hleftEnd (ends_pure ?_)
    refine .again _ after (append_cons before y after) hn (hE.placing_behind
      ⟨hleft, rfl, hadd, hdone, rfl, rfl, rfl, ?_⟩ hlast (by omega) hlo hclean hcovers)
    dsimp only
    rw [hslide]
    omega

variable (h : Placing p new l₀ ft₀ ed before ((r, right) :: after) fresh)
include h

theorem dumpRight_ends (hfirst : ft₀.fragPolicy ≠ .first) (hfin : right.fin ≤ new.fragEnd)
    (hpolicy : (ft₀.fragPolicy = .last ∨ ft₀.fragPolicy = .linux ∨ ft₀.fragPolicy = .bsdRight) ∨
      ed.fragOffset < right.offset) :
    Ends listMachine (dumpRight ed r right) ⟨before ++ (r, right) :: after, fresh⟩
      (Round p new l₀ ft₀ (after.length + 1)) := by
  have hmem : r ∉ ids before := not_mem_ids_of_nodup h.edited.nodup
  have hstart : ed.fragOffset ≤ right.offset := h.le_after (r, right) mem_cons_self
  have hdrop := h.edited.drop hnew hl₀ hfirst fun _ => ⟨h.le_start.trans hstart, hfin⟩
  obtain ⟨hpos, -, hafter⟩ := h.edited.ordered.middle
  refine ends_bind_of_run (run_next hmem) (ends_bind_of_run (run_unlink hmem) (ends_pure ?_))
  refine .again before after rfl (lt_succ_self _) ?_
  exact
    { h with
      edited := hdrop
      right := rfl
      le_after := fun x hx => h.le_after x (mem_cons_of_mem _ hx)
      clean := by
        rcases hpolicy with hp | hlt
        · exact rightOk_of_policy hp
        · refine rightOk_of_ne hfirst fun x hx => ?_
          have hle := hafter x (takeWhile_subset _ (mem_of_mem_head? hx))
          simp only [lo, hi] at hle hpos ⊢
          omega
      first := fun hp => absurd hp hfirst }

/-- The new fragment begins with the one on the right, and ends behind it: the rest goes behind
it. -/
theorem rejectRight_does_behind (hlast : ft₀.fragPolicy ≠ .last) (hfin : right.fin ≤ new.fragEnd)
    (hoff : right.offset = ed.fragOffset)
    (hclean : right.fin < new.fragEnd → (after.takeWhile fun x => decide (lo x < new.fragEnd)) =
      [] ∧ ed.fragOffset = new.fragOffset) :
    Does p new l₀ ft₀ (rejectRight fe p new ed r right (new.fragEnd - right.offset))
      ⟨before ++ (r, right) :: after, fresh⟩ (Round p new l₀ ft₀ (after.length + 1)) := by
  have hw : right.Within := h.edited.within hnew hl₀ (mem_append_right _ mem_cons_self)
  have hsize := hw.size_le
  have hle := hw.fin_le
  have hdef : right.fin = right.offset + right.size := rfl
  have hmem : r ∉ ids before := not_mem_ids_of_nodup h.edited.nodup
  have hslide : i16 (right.fin - ed.fragOffset) = right.fin - ed.fragOffset :=
    i16_of_lt (by omega) (by omega)
  have hstart : u16 (ed.fragOffset + (right.fin - ed.fragOffset)) = right.fin := by
    have := u16_of_lt (x := ed.fragOffset + (right.fin - ed.fragOffset)) (by omega) (by omega)
    omega
  have hplace : (chunkPlace ed r right (new.fragEnd - right.offset)).run listMachine
      ⟨before ++ (r, right) :: after, fresh⟩ =
      some ({ ed with slide := right.fin - ed.fragOffset, fragOffset := right.fin, left := some r,
                      right := firstOr none after }, ⟨before ++ (r, right) :: after, fresh⟩) := by
    rw [chunkPlace, if_pos hoff, Prog.run_bind, run_next hmem, Option.bind_some]
    dsimp only
    rw [hslide, hstart]
    rfl
  refine .run hplace ?_
  dsimp only
  rw [h.trunc]
  split_ifs with hend
  · exact .throw nofun h.edited
  · obtain ⟨hnil, ho⟩ := hclean (by omega)
    obtain ⟨-, hbefore, hafter⟩ := h.edited.ordered.middle
    have hcast : u16 (right.fin - ed.fragOffset) = right.fin - ed.fragOffset := by
      have := u16_of_lt (x := right.fin - ed.fragOffset) (by omega) (by omega)
      omega
    have hord := (append_iff.mp h.edited.ordered).2.1
    have hhead := head_le_of_takeWhile hnil
    have hafter' := le_lo_of_head (cons_iff.mp hord).2.1 hhead
    have hE := h.edited.checkTinyFragments fe p (new.len - (right.fin - ed.fragOffset) - 0)
    rw [append_cons] at hE ⊢
    rw [hcast, show u16 0 = 0 from rfl, ← lastOr_concat none before (r, right)]
    refine .bind ((addFragNode_does hE hnew hl₀ (by omega) (by omega) (fun x hx => ?_)
      fun x hx => (sub_le _ _).trans (hafter' x hx)).mono ?_)
    · rcases mem_append.mp hx with hx | hx
      · have := hbefore x hx
        simp only [lo] at this
        omega
      · rw [mem_singleton.mp hx]
        exact le_refl _
    · rintro ⟨ft', frag⟩ s ⟨rfl, hE', hfragoff, hfragfin, hfraglt, -⟩
      dsimp only at hE' hfragoff hfragfin ⊢
      have hnodup := hE'.nodup
      rw [append_cons _ (fresh, frag)] at hnodup ⊢
      have hcurr : u16 (frag.fin : ℕ) = new.fragEnd := by
        have := hnew.fragEnd_le
        rw [u16_natCast (by omega)]
        omega
      have hlen : after.length < loopFuel := by
        have := hE'.length_lt hnew hl₀
        simp only [length_append, length_cons] at this
        omega
      have hfins : ∀ x ∈ after, hi x < 65536 := fun x hx =>
        lt_succ_of_le (hE'.within hnew hl₀ (by simp [hx])).fin_le
      rw [hcurr]
      refine .run (findGap_run hlen hnodup hfins) ?_
      rw [gap_of_le hhead]
      refine .liftM (.of_run (nextChunk_run_done hnodup rfl hhead (le_refl _)) ?_)
      rw [← append_cons _ (fresh, frag)]
      refine .ends hE' ⟨_, after, append_cons _ (fresh, frag) _, rfl, .inr hhead⟩ ?_
      refine .skips rfl (fun hp i hlo hhi => ?_) hlast
      -- the fragment on the right, or the chunk behind it
      by_cases hi' : i < right.fin
      · exact ⟨(r, right), by simp, by simp only [lo]; omega, hi'⟩
      · exact ⟨(fresh, frag), by simp, by simp only [lo]; omega, by simp only [hi]; omega⟩

/-- The new fragment begins before the one on the right: the chunk goes between them. -/
theorem rejectRight_does_between (hlast : ft₀.fragPolicy ≠ .last) (hlt : right.offset < new.fragEnd)
    (hoff : ed.fragOffset < right.offset)
    (hpolicy : (ft₀.fragPolicy = .first ∧ new.origOffset = new.fragOffset) ∨
      right.fin = new.fragEnd) :
    Does p new l₀ ft₀ (rejectRight fe p new ed r right (new.fragEnd - right.offset))
      ⟨before ++ (r, right) :: after, fresh⟩ (Round p new l₀ ft₀ (after.length + 1)) := by
  have hslide := h.slide
  have hle := h.le_start
  have hlen := hnew.len_le
  have hds := hnew.dsize_le
  have hord := (append_iff.mp h.edited.ordered).2.1
  have hcast : i16 (new.fragEnd - right.offset) = new.fragEnd - right.offset :=
    i16_of_lt (by omega) (by omega)
  have htrunc : u16 (new.fragEnd - right.offset) = new.fragEnd - right.offset := by
    have := u16_of_lt (x := new.fragEnd - right.offset) (by omega) (by omega)
    omega
  have hslide' : u16 ed.slide = ed.fragOffset - new.fragOffset := by
    have := u16_of_lt (x := ed.slide) (by omega) (by omega)
    omega
  have hplace : (chunkPlace ed r right (new.fragEnd - right.offset)).run listMachine
      ⟨before ++ (r, right) :: after, fresh⟩ =
      some ({ ed with trunc := new.fragEnd - right.offset },
        ⟨before ++ (r, right) :: after, fresh⟩) := by
    rw [chunkPlace, if_neg (ne_of_gt hoff), hcast]
    rfl
  refine .run hplace ?_
  dsimp only
  rw [if_neg (by omega), hslide', htrunc, h.left]
  refine .bind ((addFragNode_does (h.edited.checkTinyFragments fe p _) hnew hl₀ (by omega)
    (by omega) h.before_le fun x hx => ?_).mono ?_)
  · have := le_lo_of_head hord (e := right.offset) (fun y hy => Option.some.inj hy ▸ le_refl _) x hx
    omega
  · rintro ⟨ft', frag⟩ s ⟨rfl, hE, hfragoff, hfragfin, hfraglt, -⟩
    dsimp only at hE hfragoff hfragfin ⊢
    have hnodup := hE.nodup
    rw [append_cons] at hnodup ⊢
    have hcurr : u16 (frag.fin : ℕ) = right.offset := by
      have := hnew.fragEnd_le
      rw [u16_natCast (by omega)]
      omega
    have hlen : ((r, right) :: after).length < loopFuel := by
      have := hE.length_lt hnew hl₀
      simp only [length_append, length_cons] at this ⊢
      omega
    have hfins : ∀ x ∈ (r, right) :: after, hi x < 65536 := fun x hx =>
      lt_succ_of_le (hE.within hnew hl₀ (by
        rw [mem_append, mem_cons]
        exact .inr (.inr hx))).fin_le
    rw [hcurr, h.right]
    refine .run (findGap_run hlen hnodup hfins) ?_
    obtain ⟨init, y, rest, hgap, happend, hgaplt, hstops, hgapcovers⟩ :=
      @exists_gap new.fragEnd after (r, right) hlt
    rw [show right.offset = lo (r, right) from rfl, hgap]
    have hlists : before ++ (fresh, frag) :: (r, right) :: after =
        (before ++ (fresh, frag) :: init) ++ y :: rest := by
      rw [happend, append_assoc, cons_append]
    have hclean := h.clean_of_gap hoff happend hgaplt
    rw [← append_cons, hlists]
    rw [hlists] at hE
    have hords := append_iff.mp (append_cons init y rest ▸ happend ▸ hord)
    have hr : (r, right) ∈ init ++ [y] := by
      cases init with
      | nil => simp [(List.cons.inj happend).1]
      | cons z init => simp [(List.cons.inj happend).1]
    obtain ⟨hypos, hinit, -⟩ := hords.1.middle
    have hy : right.fin ≤ hi y := by
      rcases mem_append.mp hr with hr | hr
      · exact (hinit _ hr).trans hypos.le
      · rw [← mem_singleton.mp hr]
        exact le_refl _
    have hpos : right.offset < right.fin := (cons_iff.mp hord).1
    refine .liftM (nextChunk_ends hnew hl₀ hE (lastOr_concat _ _ _) rfl h.addthis h.done hlast ?_ ?_
      (fun z hz hzlt => ?_) (fun hhead hend => ?_) fun hp i hlo hhi => ?_)
    · omega
    · have hlength := congrArg List.length happend
      simp only [length_append, length_cons] at hlength
      omega
    · have hz' : right.fin ≤ lo z := hords.2.2 _ hr z (mem_of_mem_head? hz)
      rcases hpolicy with ⟨hp, horig⟩ | hend
      · refine ⟨horig, ?_⟩
        obtain ⟨rest, rfl⟩ := head?_eq_some_iff.mp hz
        have hne : ¬ lo z = hi y := (hstops z hz).resolve_right (not_le.mpr hzlt)
        rw [takeWhile_cons_of_pos (by simpa using hzlt)] at hclean ⊢
        rw [hp, RightOk, if_neg hne]
        intro x hx hxlt
        -- otherwise the walk would not have stopped at the fragment
        obtain ⟨-, hjoined⟩ := hclean hp x (by rwa [getLast?_cons_cons]) hxlt
        have hchain := List.IsChain.right_of_append hjoined
        exact absurd (isChain_cons_cons.mp hchain).1 (Ne.symm hne)
      · omega
    · rcases hpolicy with ⟨hp, -⟩ | hend'
      · have hlast' := hclean hp y
        rw [takeWhile_eq_nil_of_head hhead] at hlast'
        exact (hlast' rfl hend).1
      · omega
    · rw [← hlists]
      rcases lt_or_ge i ed.fragOffset with hi' | hi'
      · have hc := h.first hp i hlo hi'
        rw [covers_append] at hc
        rw [covers_append, covers_cons]
        exact hc.imp_right Or.inr
      · rw [covers_append, covers_cons]
        refine .inr ?_
        rcases lt_or_ge i right.offset with hi'' | hi''
        · exact .inl ⟨hfragoff.trans_le hi', by simp only [hi]; omega⟩
        · rw [happend, append_cons, covers_append]
          exact .inr (.inl (hgapcovers i hi'' hhi))

/-- A fragment on the right that ends with the new one or before. -/
theorem fullRight_does (horig : ft₀.fragPolicy = .first → new.origOffset = new.fragOffset)
    (hlt : right.offset < new.fragEnd) (hov : ¬ (new.fragEnd - right.offset : ℤ) < right.size) :
    Does p new l₀ ft₀ (fullRight fe p new ed r right (new.fragEnd - right.offset))
      ⟨before ++ (r, right) :: after, fresh⟩ (Round p new l₀ ft₀ (after.length + 1)) := by
  have hfin : right.fin ≤ new.fragEnd := by
    simp only [Fragment.fin]
    omega
  unfold fullRight
  dsimp only
  -- the alert comes first
  generalize hed : (if ed.alertedOverlap = true then ed else
    { ed with ft := (ed.ft.alert .anomalyOvlp).countOverlap, alertedOverlap := true }) = ed'
  have h' : Placing p new l₀ ft₀ ed' before ((r, right) :: after) fresh := by
    rw [← hed]
    split_ifs
    · exact h
    · exact h.alerted _
  have hstart : ed'.fragOffset ≤ right.offset := h'.le_after (r, right) mem_cons_self
  have hclean := h'.clean_cons hlt
  have hdumps (hfirst : ft₀.fragPolicy ≠ .first)
      (hpolicy : (ft₀.fragPolicy = .last ∨ ft₀.fragPolicy = .linux ∨ ft₀.fragPolicy = .bsdRight) ∨
        ed'.fragOffset < right.offset) :
      Does p new l₀ ft₀ (liftM (dumpRight ed' r right)) ⟨before ++ (r, right) :: after, fresh⟩
        (Round p new l₀ ft₀ (after.length + 1)) :=
    .liftM (dumpRight_ends hnew hl₀ h' hfirst hfin hpolicy)
  rw [h'.edited.same.fragPolicy]
  cases hp : ft₀.fragPolicy with
  | first =>
    rw [hp, RightOk] at hclean
    rcases eq_or_lt_of_le hstart with hoff | hoff
    · rw [if_pos (show lo (r, right) = _ from hoff.symm)] at hclean
      exact rejectRight_does_behind hnew hl₀ h' (by simp [hp]) hfin hoff.symm
        fun hlt => ⟨hclean.1, hclean.2 hlt⟩
    · exact rejectRight_does_between hnew hl₀ h' (by simp [hp]) hlt hoff (Or.inl ⟨hp, horig hp⟩)
  | windows =>
    rw [hp, RightOk] at hclean
    dsimp only
    split_ifs with hdump
    · exact hdumps (by simp [hp]) (Or.inr hdump.2)
    · rcases eq_or_lt_of_le hstart with hoff | hoff
      · exact rejectRight_does_behind hnew hl₀ h' (by simp [hp]) hfin hoff.symm (hclean hoff.symm)
      · exact rejectRight_does_between hnew hl₀ h' (by simp [hp]) hlt hoff (Or.inr (by omega))
  | solaris =>
    rw [hp, RightOk] at hclean
    split_ifs with hdump hdump'
    · exact hdumps (by simp [hp]) (Or.inr hdump.2)
    · exact hdumps (by simp [hp]) (Or.inr hdump'.2)
    · exact rejectRight_does_behind hnew hl₀ h' (by simp [hp]) hfin (by omega) (hclean (by
        show right.offset = _
        omega))
  | bsd =>
    rw [hp, RightOk] at hclean
    split_ifs with hdump hdump'
    · exact hdumps (by simp [hp]) (Or.inr hdump.2)
    · exact hdumps (by simp [hp]) (Or.inr hdump'.2)
    · exact rejectRight_does_behind hnew hl₀ h' (by simp [hp]) hfin (by omega) (hclean (by
        show right.offset = _
        omega)).1
  | bsdRight => exact hdumps (by simp [hp]) (Or.inl (by simp [hp]))
  | last => exact hdumps (by simp [hp]) (Or.inl (by simp [hp]))
  | linux => exact hdumps (by simp [hp]) (Or.inl (by simp [hp]))
end
end Full

/-! ## The loop -/

theorem rightOverlaps_stops {s : Nodes Fragment}
    {Q : Edit → Nodes Fragment → Prop} (hnodup : (ids s.list).Nodup) (h : Stops new ed s.list)
    (hQ : Q ed s) : Does p new l₀ ft₀ (rightOverlaps fe p new (fuel + 1) ed) s Q := by
  obtain ⟨l, fresh⟩ := s
  obtain ⟨before, after, rfl, hright, hstop⟩ := h
  rw [rightOverlaps, hright]
  cases after with
  | nil => exact .pure hQ
  | cons x after =>
    refine .run (run_load (not_mem_ids_of_nodup hnodup)) ?_
    rw [if_neg]
    · exact .pure hQ
    · rintro ⟨hlt, hdone⟩
      rcases hstop with hstop | hstop
      · exact absurd hstop (by simp [hdone])
      · exact absurd hlt (not_lt.mpr (hstop x rfl))

/-- The loop ends with a place for the new fragment, or with nothing left to add. -/
theorem rightOverlaps_does (hnew : new.Fits p) (hl₀ : ∀ x ∈ l₀, x.2.Within)
    (horig : ft₀.fragPolicy = .first → new.origOffset = new.fragOffset)
    (hfuel : after.length < fuel) (h : Placing p new l₀ ft₀ ed before after fresh) :
    Does p new l₀ ft₀ (rightOverlaps fe p new fuel ed) ⟨before ++ after, fresh⟩ fun ed s =>
      Edited p new l₀ ft₀ ed.ft s ∧ Ending new ft₀ ed s.list := by
  -- each round leaves fewer fragments on the right
  induction fuel generalizing ed before after fresh with
  | zero => exact absurd hfuel (not_lt_zero _)
  | succ fuel ih =>
    by_cases hhead : ∀ x ∈ after.head?, new.fragEnd ≤ lo x
    · exact rightOverlaps_stops h.edited.nodup ⟨before, after, rfl, h.right, .inr hhead⟩
        ⟨h.edited, h.ending hhead⟩
    · push Not at hhead
      obtain ⟨⟨r, right⟩, hr, hlt⟩ := hhead
      obtain ⟨after, rfl⟩ := head?_eq_some_iff.mp hr
      have hed : { ed with trunc := 0, right := firstOr none ((r, right) :: after) } = ed := by
        rw [← h.trunc, ← h.right]
      have hrest : ∀ ed s, Round p new l₀ ft₀ (after.length + 1) ed s →
          Does p new l₀ ft₀ (rightOverlaps fe p new fuel ed) s fun ed s =>
            Edited p new l₀ ft₀ ed.ft s ∧ Ending new ft₀ ed s.list := by
        rintro ed ⟨l, fresh⟩ (⟨before, after', rfl, hlt, h⟩ | ⟨hedited, hstops, hending⟩)
        · exact ih (by rw [length_cons] at hfuel; omega) h
        · obtain ⟨fuel, rfl⟩ := exists_eq_succ_of_ne_zero (n := fuel) (by
            rw [length_cons] at hfuel
            omega)
          exact rightOverlaps_stops hedited.nodup hstops ⟨hedited, hending⟩
      rw [rightOverlaps, h.right]
      refine .run (run_load (not_mem_ids_of_nodup h.edited.nodup)) ?_
      rw [if_pos ⟨hlt, h.done⟩]
      simp only [hed]
      split_ifs with htear hov
      · exact .throw nofun h.edited.teardrop
      · exact .lift ((partialRight_ends hnew hl₀ h hlt hov).mono hrest)
      · exact .bind ((fullRight_does hnew hl₀ h horig hlt hov).mono hrest)
end Steps
end Snort.Ip
