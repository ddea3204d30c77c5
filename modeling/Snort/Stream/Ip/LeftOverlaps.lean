import Snort.Stream.Ip.EditedList

/-!
# The place of a new fragment, and overlaps on the left

`insert` walks over the list up to the offset of the new fragment. The list is cut
at this place into the fragments before and after it. If the last fragment before
the place overlaps the new one, one of the two is cut. Wherever `insert` returns,
the list is an edited one.
-/

namespace Snort.Ip
open List DoublyLinked ListProgram IntervalList Fragment

/-! ## Rules -/

section Rules
variable {α β : Type} {p : Packet} {new : NewFrag} {l₀ : List Node} {ft₀ : FragTracker}
  {s s' : Nodes Fragment} {Q : β → Nodes Fragment → Prop} {f : α → Insert β}

/-- The part of `insert` ends with the postcondition, or returns from `insert` with a list that
is edited, and not with success. -/
def Does (p : Packet) (new : NewFrag) (l₀ : List Node) (ft₀ : FragTracker) (x : Insert β)
    (s : Nodes Fragment) (Q : β → Nodes Fragment → Prop) : Prop :=
  Ends listMachine x.run s fun r s' =>
    match r with
    | .ok a => Q a s'
    | .error ret => ret.1 ≠ .ok ∧ Edited p new l₀ ft₀ ret.2 s'

theorem Does.pure {b : β} (h : Q b s) : Does p new l₀ ft₀ (pure b) s Q := ends_return h

theorem Does.throw {ret : InsertRet × FragTracker} (hret : ret.1 ≠ .ok)
    (h : Edited p new l₀ ft₀ ret.2 s) : Does p new l₀ ft₀ (throw ret) s Q := ends_throw ⟨hret, h⟩

theorem Does.bind {x : Insert α}
    (h : Does p new l₀ ft₀ x s fun a s' => Does p new l₀ ft₀ (f a) s' Q) :
    Does p new l₀ ft₀ (x >>= f) s Q := by
  refine Ends.bindExcept (Ends.mono h ?_)
  rintro (ret | a) s' hr
  · exact hr
  · exact hr

theorem Does.mono {x : Insert β} {P : β → Nodes Fragment → Prop} (h : Does p new l₀ ft₀ x s P)
    (hPQ : ∀ b s', P b s' → Q b s') : Does p new l₀ ft₀ x s Q := by
  refine Ends.mono h ?_
  rintro (ret | b) s' hr
  · exact hr
  · exact hPQ b s' hr

theorem Does.run {x : Prog Fragment α} {a : α}
    (hx : x.run listMachine s = some (a, s')) (h : Does p new l₀ ft₀ (f a) s' Q) :
    Does p new l₀ ft₀ (liftM x >>= f) s Q := ends_bindLift_of_run hx h

theorem Does.lift {x : Prog Fragment α}
    (h : Ends listMachine x s fun a s' => Does p new l₀ ft₀ (f a) s' Q) :
    Does p new l₀ ft₀ (liftM x >>= f) s Q := Ends.bindLift h

theorem Does.liftM {x : Prog Fragment β} (h : Ends listMachine x s Q) :
    Does p new l₀ ft₀ (liftM x) s Q := by
  obtain ⟨b, s', hx, hQ⟩ := h
  refine ⟨.ok b, s', ?_, hQ⟩
  show (x >>= fun a => Pure.pure (Except.ok a)).run listMachine s = _
  rw [Prog.run_bind, hx]
  rfl
end Rules

variable {before after : List Node}

theorem not_mem_ids_of_nodup {x : Node}
    (h : (ids (before ++ x :: after)).Nodup) : x.1 ∉ ids before := by
  rw [ids_append, nodup_append] at h
  exact fun hmem => h.2.2 x.1 hmem x.1 (by simp) rfl

theorem nodup_before (h : (ids (before ++ after)).Nodup) : (ids before).Nodup := by
  rw [ids_append, nodup_append] at h
  exact h.1

/-! ## The new fragment -/

section Steps
variable {fe : FragEngine} {p : Packet} {new : NewFrag} {l₀ before after : List Node}
  {ft₀ ft : FragTracker} {fresh : ℕ} {o : ℕ} {ed : Edit}
/-- The new fragment begins at `start`, which is as far from its offset as the slide. -/
theorem addFragNode_does (h : Edited p new l₀ ft₀ ft ⟨before ++ after, fresh⟩) (hnew : new.Fits p)
    (hl₀ : ∀ x ∈ l₀, x.2.Within) {lastfrag : Bool} {slide trunc start : ℕ}
    (hslide : start = new.fragOffset + slide) (htrunc : start + trunc ≤ new.fragEnd)
    (hbefore : ∀ x ∈ before, hi x ≤ start) (hafter : ∀ x ∈ after, new.fragEnd - trunc ≤ lo x) :
    Does p new l₀ ft₀ (addFragNode p ft lastfrag new.len slide trunc start (lastOr none before))
      ⟨before ++ after, fresh⟩ fun r s =>
        s = ⟨before ++ (fresh, r.2) :: after, fresh + 1⟩ ∧ Edited p new l₀ ft₀ r.1 s ∧
          r.2.offset = start ∧ r.2.fin = new.fragEnd - trunc ∧ start < new.fragEnd - trunc ∧
          Part r.2 (new.whole p) := by
  have hlen := hnew.len
  have hle := hnew.len_le
  have hds := hnew.dsize_le
  have hlt := hnew.lt
  have hsize : i16 (new.len - slide - trunc) = new.fragEnd - trunc - start := by
    rw [i16_of_lt (by omega) (by omega)]
    omega
  unfold addFragNode
  dsimp only
  rw [hsize]
  split_ifs with hzero
  · exact .throw nofun h
  · refine .run (run_link (nodup_before h.nodup)) (.pure ?_)
    have hpart : Part ⟨p.data, slide, (new.fragEnd - trunc - start : ℤ).toNat, start, ft.ordinal,
        lastfrag⟩ (new.whole p) :=
      ⟨rfl, by simp only [NewFrag.whole]; omega, by simp only [NewFrag.whole, fin]; omega,
        by simp only [NewFrag.whole]; omega⟩
    have hadd := h.add hnew hl₀ hpart (by dsimp only; omega) hbefore fun x hx => by
      have := hafter x hx
      simp only [fin]
      omega
    exact ⟨rfl, hadd.ordinal _, rfl, by simp only [fin]; omega, by omega, hpart⟩

/-! ## The place of the new fragment -/

/-- The walk stops where the fragments begin behind the offset. -/
theorem findNeighbours_run {fuel : ℕ} (hfuel : after.length < fuel)
    (hnodup : (ids (before ++ after)).Nodup) :
    (findNeighbours o fuel (lastOr none before) (firstOr none after)).run listMachine
        ⟨before ++ after, fresh⟩ =
      some ((lastOr none (before ++ after.takeWhile fun x => decide (lo x < o)),
        firstOr none (after.dropWhile fun x => decide (lo x < o))), ⟨before ++ after, fresh⟩) := by
  -- the walk moves one fragment after the other to the ones before
  induction after generalizing before fuel with
  | nil =>
    obtain ⟨fuel, rfl⟩ := Nat.exists_eq_succ_of_ne_zero (Nat.ne_zero_of_lt hfuel)
    simp only [takeWhile_nil, dropWhile_nil, append_nil]
    rfl
  | cons x after ih =>
    obtain ⟨fuel, rfl⟩ := Nat.exists_eq_succ_of_ne_zero (Nat.ne_zero_of_lt hfuel)
    have hx := not_mem_ids_of_nodup hnodup
    show (findNeighbours o (fuel + 1) (lastOr none before) (some x.1)).run listMachine _ = _
    rw [findNeighbours, Prog.run_bind, run_load hx]
    dsimp only [Option.bind_some]
    by_cases ho : o ≤ x.2.offset
    · have hlo : ¬ lo x < o := Nat.not_lt.mpr ho
      rw [if_pos ho, takeWhile_cons_of_neg (by simpa using hlo),
        dropWhile_cons_of_neg (by simpa using hlo), append_nil]
      rfl
    · have hlo : lo x < o := Nat.not_le.mp ho
      rw [append_cons] at hnodup
      have hrest := @ih (before ++ [x]) fuel (by simpa using hfuel) hnodup
      simp only [lastOr_concat, append_assoc, singleton_append] at hrest
      rw [if_neg ho, Prog.run_bind, run_next hx, takeWhile_cons_of_pos (by simpa using hlo),
        dropWhile_cons_of_pos (by simpa using hlo)]
      exact hrest

/-! ## Overlaps on the left -/

/-- Fragments where each begins where the one before it ends. -/
def Joined (l : List Node) : Prop := l.IsChain fun x y => hi x = lo y

/-- The overlaps on the right are handled well: by the policies that reject the new fragment where
it overlaps an old one, only if there is nothing else to be cut off the new fragment. The new
fragment begins at `o`, or at `f` behind the fragment on the left, and ends at `e`; the list is that
of the fragments that begin in it. -/
def RightOk (policy : FragPolicy) (o e f : ℕ) : List Node → Prop
  | [] => True
  | r :: rest =>
    match policy with
    | .last | .linux | .bsdRight => True
    | .first =>
      if lo r = f then rest = [] ∧ (hi r < e → f = o)
      else (∀ x ∈ (r :: rest).getLast?, hi x < e → f = o ∧ Joined (r :: rest))
    | .windows | .solaris => lo r = f → hi r < e → rest = [] ∧ f = o
    | .bsd => lo r = f → (hi r < e → rest = [] ∧ f = o) ∧ (e < hi r → e + (f - o) ≤ hi r)

/-- Where the new fragment begins behind the one on its left. -/
def startBehind (o : ℕ) (before : List Node) : ℕ :=
  match before.getLast? with
  | none => o
  | some x => max o (hi x)

/-- The new fragment `[o, e)` overlaps the fragments of the list in a way that the policy handles
well. -/
def Clean (policy : FragPolicy) (o e : ℕ) (l : List Node) : Prop :=
  RightOk policy o e (startBehind o (l.takeWhile fun x => decide (lo x < o)))
    ((l.dropWhile fun x => decide (lo x < o)).takeWhile fun x => decide (lo x < e))

/-- The new fragment has its place between the fragments before and after it, as far as those before
go. -/
structure Placing (p : Packet) (new : NewFrag) (l₀ : List Node) (ft₀ : FragTracker) (ed : Edit)
    (before after : List Node) (fresh : ℕ) : Prop where
  edited : Edited p new l₀ ft₀ ed.ft ⟨before ++ after, fresh⟩
  left : ed.left = lastOr none before
  right : ed.right = firstOr none after
  addthis : ed.addthis = true
  done : ed.done = false
  trunc : ed.trunc = 0
  slide : ed.fragOffset = new.fragOffset + ed.slide
  le_start : new.fragOffset ≤ ed.fragOffset
  start_le : ed.fragOffset ≤ new.fragEnd
  before_le : ∀ x ∈ before, hi x ≤ ed.fragOffset
  le_after : ∀ x ∈ after, ed.fragOffset ≤ lo x
  clean : RightOk ft₀.fragPolicy new.fragOffset new.fragEnd ed.fragOffset
    (after.takeWhile fun x => decide (lo x < new.fragEnd))
  first : ft₀.fragPolicy = .first → ∀ i, new.fragOffset ≤ i → i < ed.fragOffset →
    Covers lo hi (before ++ after) i
  last : ft₀.fragPolicy = .last → ed.fragOffset = new.fragOffset

theorem rightOk_of_policy {policy : FragPolicy} {e f : ℕ} {l : List Node}
    (h : policy = .last ∨ policy = .linux ∨ policy = .bsdRight) : RightOk policy o e f l := by
  cases l with
  | nil => trivial
  | cons r rest => rcases h with rfl | rfl | rfl <;> trivial

variable {left : Fragment} {l : ℕ}

theorem dumpLeft_run (hl : l ∉ ids before) (hpos : 0 < left.size) :
    (dumpLeft ed l).run listMachine ⟨before ++ (l, left) :: after, fresh⟩ =
      some (ed, ⟨before ++ (l, left) :: after, fresh⟩) := by
  rw [dumpLeft, Prog.run_bind, run_load hl, Option.bind_some, if_neg (Nat.ne_of_gt hpos)]
  rfl

theorem dupFragNode_run (hnodup : (ids (before ++ (l, left) :: after)).Nodup) :
    (dupFragNode ft l).run listMachine ⟨before ++ (l, left) :: after, fresh⟩ =
      some (({ ft with ordinal := ft.ordinal + 1 }.addBytes left.size, fresh),
        ⟨before ++ (l, left) :: (fresh, { left with ord := ft.ordinal }) :: after, fresh + 1⟩) := by
  have hl : l ∉ ids before := not_mem_ids_of_nodup hnodup
  have hnodup' : (ids (before ++ [(l, left)])).Nodup := by
    rw [append_cons] at hnodup
    exact nodup_before hnodup
  have hlink := @run_link _ _ after fresh { left with ord := ft.ordinal } hnodup'
  simp only [lastOr_concat, append_assoc, singleton_append] at hlink
  rw [dupFragNode, Prog.run_bind, run_load hl, Option.bind_some, Prog.run_bind, hlink]
  rfl

/-- The fragment on the left is cut, or split around the new one. -/
theorem truncateLeft_ends (hnew : new.Fits p) (hl₀ : ∀ x ∈ l₀, x.2.Within)
    (h : Edited p new l₀ ft₀ ed.ft ⟨before ++ (l, left) :: after, fresh⟩)
    (hpolicy : ft₀.fragPolicy ≠ .first) (hstart : ed.fragOffset = new.fragOffset)
    (hl : left.offset < new.fragOffset) (hfin : new.fragOffset < left.fin)
    (hafter : ∀ x ∈ after, left.fin ≤ lo x) (hright : ed.right = firstOr none after) :
    Ends listMachine (truncateLeft new ed l left (left.fin - ed.fragOffset))
      ⟨before ++ (l, left) :: after, fresh⟩ fun ed' s =>
        ∃ left' after', s.list = before ++ (l, left') :: after' ∧
          Edited p new l₀ ft₀ ed'.ft s ∧ left'.fin = new.fragOffset ∧
          (∀ x ∈ after', new.fragOffset ≤ lo x) ∧
          ∃ ft, ed' = { ed with ft, right := firstOr none after' } := by
  have hw : left.Within := h.within hnew hl₀ (mem_append_right _ mem_cons_self)
  have hsize := hw.size_le
  have hnodup := h.nodup
  have hlmem : l ∉ ids before := not_mem_ids_of_nodup hnodup
  have hlen := hnew.len
  have hlt := hnew.lt
  have hle := hnew.fragEnd_le
  have hdef : left.fin = left.offset + left.size := rfl
  have hov : i16 (left.fin - new.fragOffset : ℤ) = left.fin - new.fragOffset :=
    i16_of_lt (by omega) (by omega)
  have hcut : u16 (left.size - (left.fin - new.fragOffset) : ℤ) = new.fragOffset - left.offset := by
    have := u16_of_lt (x := left.size - (left.fin - new.fragOffset)) (by omega) (by omega)
    omega
  -- the rest of the fragment on the left
  have hpart : Part { left with size := new.fragOffset - left.offset } left :=
    ⟨rfl, le_refl _, by simp only [fin]; omega, rfl⟩
  have hpos : 0 < new.fragOffset - left.offset := by omega
  have hend : (new.fragOffset + new.len : ℤ) = new.fragEnd := by omega
  unfold truncateLeft
  dsimp only
  rw [hstart, hov, hcut, hend]
  split_ifs with hsplit
  · have hcutRight :
        u16 (left.size - (new.fragEnd - left.offset) : ℤ) = left.fin - new.fragEnd := by
      have := u16_of_lt (x := left.size - (new.fragEnd - left.offset)) (by omega) (by omega)
      omega
    have hlr :
      fresh ∉ ids (before ++ [(l, { left with size := new.fragOffset - left.offset })]) := by
      intro hmem
      refine lt_irrefl fresh (h.lt fresh ?_)
      simp only [ids_append, ids_cons, ids_nil, mem_append, mem_cons] at hmem ⊢
      tauto
    refine ends_bind_of_run (dupFragNode_run hnodup) (ends_bind_of_run (run_store hlmem) ?_)
    rw [append_cons]
    refine ends_bind_of_run (run_load hlr) (ends_bind_of_run (run_store hlr) ?_)
    rw [← append_cons, u16_natCast (by omega), hcutRight]
    refine .of_run (dumpLeft_run hlmem hpos) ?_
    have hsplit' := h.split hnew hl₀ hpolicy hpart
      (show Part ⟨left.fptr, left.data + (new.fragEnd - left.offset), left.fin - new.fragEnd,
          new.fragEnd, ed.ft.ordinal, left.last⟩ left from
        ⟨rfl, by dsimp only; omega, by simp only [fin]; omega, by dsimp only; omega⟩)
      hpos (by dsimp only; omega) (by simp only [fin]; omega) rfl rfl
      (by simp only [fin]; omega) (by omega)
    have hbytes : (left.size : ℤ) + -(left.fin - new.fragOffset) + -(new.fragEnd - left.offset) =
        (new.fragOffset - left.offset : ℕ) + (left.fin - new.fragEnd : ℕ) - left.size := by omega
    refine ⟨_, _, rfl, ?_, by simp only [fin]; omega, fun x hx => ?_, _, rfl⟩
    · simp only [FragTracker.addBytes_addBytes]
      rw [hbytes]
      exact hsplit'.ordinal _
    · rcases mem_cons.mp hx with rfl | hx
      · exact Nat.le_of_lt hlt
      · exact Nat.le_of_lt (hfin.trans_le (hafter x hx))
  · refine ends_bind_of_run (run_store hlmem) (.of_run (dumpLeft_run hlmem hpos) ?_)
    have htrim := h.trim hnew hl₀ hpolicy hpart hpos fun _ i hout hlo hhi => by
      simp only [lo, hi, fin] at hlo hhi ⊢
      omega
    have hbytes : -((left.fin : ℤ) - new.fragOffset) =
        (new.fragOffset - left.offset : ℕ) - left.size := by omega
    refine ⟨_, after, rfl, ?_, by simp only [fin]; omega, fun x hx => ?_,
      ed.ft.addBytes (-(left.fin - new.fragOffset)), ?_⟩
    · rw [hbytes]
      exact htrim
    · exact Nat.le_of_lt (hfin.trans_le (hafter x hx))
    · rw [← hright]

/-- A list with a place for the new fragment. -/
def Placed (p : Packet) (new : NewFrag) (l₀ : List Node) (ft₀ : FragTracker) (ed : Edit)
    (s : Nodes Fragment) : Prop :=
  ∃ before after, s.list = before ++ after ∧ Placing p new l₀ ft₀ ed before after s.fresh

theorem Edited.placing (h : Edited p new l₀ ft₀ ft ⟨before ++ after, fresh⟩) (hnew : new.Fits p)
    {right : Option ℕ} {left : Option ℕ}
    (hleft : left = lastOr none before) (hright : right = firstOr none after)
    (hbefore : ∀ x ∈ before, hi x ≤ new.fragOffset) (hafter : ∀ x ∈ after, new.fragOffset ≤ lo x)
    (hclean : RightOk ft₀.fragPolicy new.fragOffset new.fragEnd new.fragOffset
      (after.takeWhile fun x => decide (lo x < new.fragEnd))) :
    Placing p new l₀ ft₀ ⟨ft, new.fragOffset, 0, 0, left, right, false, true, false⟩ before after
      fresh where
  edited := h
  left := hleft
  right := hright
  addthis := rfl
  done := rfl
  trunc := rfl
  slide := (Int.add_zero _).symm
  le_start := le_refl _
  start_le := Nat.le_of_lt hnew.lt
  before_le := hbefore
  le_after := hafter
  clean := hclean
  first := fun _ _ hlo hhi => absurd hlo (Nat.not_le.mpr hhi)
  last := fun _ => rfl

theorem slideLeft_eq (hw : left.Within) (hl : left.offset < ed.fragOffset)
    (hov : ed.fragOffset < left.fin) :
    slideLeft ed (left.fin - ed.fragOffset) =
      { ed with fragOffset := left.fin, slide := left.fin - ed.fragOffset } := by
  have hsize := hw.size_le
  have hfin := hw.fin_le
  have hdef : left.fin = left.offset + left.size := rfl
  have hslide : i16 (left.fin - ed.fragOffset : ℤ) = left.fin - ed.fragOffset :=
    i16_of_lt (by omega) (by omega)
  have hstart : u16 (ed.fragOffset + (left.fin - ed.fragOffset)) = left.fin := by
    have := u16_of_lt (x := ed.fragOffset + (left.fin - ed.fragOffset)) (by omega) (by omega)
    omega
  rw [slideLeft, hslide, hstart]

theorem slideLeft_placing (hw : left.Within)
    (h : Edited p new l₀ ft₀ ft ⟨before ++ (l, left) :: after, fresh⟩)
    (hed : ed = ⟨ft, new.fragOffset, 0, 0, some l, firstOr none after, false, true, false⟩)
    (hl : left.offset < new.fragOffset) (hov : new.fragOffset < left.fin)
    (hle : left.fin ≤ new.fragEnd) (hpolicy : ft₀.fragPolicy ≠ .last)
    (hclean : RightOk ft₀.fragPolicy new.fragOffset new.fragEnd left.fin (after.takeWhile fun x =>
      decide (lo x < new.fragEnd))) :
    Placing p new l₀ ft₀ (slideLeft ed (left.fin - ed.fragOffset)) (before ++ [(l, left)]) after
      fresh := by
  obtain ⟨-, hbefore, hafter⟩ := h.ordered.middle
  rw [append_cons] at h
  subst hed
  rw [slideLeft_eq hw hl hov]
  exact
    { edited := h
      left := (lastOr_concat none before (l, left)).symm
      right := rfl
      addthis := rfl
      done := rfl
      trunc := rfl
      slide := by dsimp only; omega
      le_start := Nat.le_of_lt hov
      start_le := hle
      before_le := fun x hx => by
        rcases mem_append.mp hx with hx | hx
        · have := hbefore x hx
          simp only [lo] at this
          dsimp only
          omega
        · rw [mem_singleton.mp hx]
          exact le_refl _
      le_after := hafter
      clean := hclean
      first := fun _ i hlo hhi =>
        -- the fragment on the left covers what is cut off
        ⟨(l, left), by simp, Nat.le_of_lt (hl.trans_le hlo), hhi⟩
      last := fun hp => absurd hp hpolicy }

theorem resolveLeft_does (hnew : new.Fits p) (hl₀ : ∀ x ∈ l₀, x.2.Within)
    (h : Edited p new l₀ ft₀ ft ⟨before ++ (l, left) :: after, fresh⟩)
    (hl : left.offset < new.fragOffset) (hov : new.fragOffset < left.fin)
    (hclean : RightOk ft₀.fragPolicy new.fragOffset new.fragEnd left.fin (after.takeWhile fun x =>
      decide (lo x < new.fragEnd)))
    (hed : ed = ⟨ft, new.fragOffset, 0, 0, some l, firstOr none after, false, true, false⟩) :
    Does p new l₀ ft₀ (resolveLeft new ed l left (left.fin - ed.fragOffset))
      ⟨before ++ (l, left) :: after, fresh⟩ fun ed s =>
        Edited p new l₀ ft₀ ed.ft s ∧ (ed.fragOffset ≤ new.fragEnd → Placed p new l₀ ft₀ ed s) := by
  have hw : left.Within := h.within hnew hl₀ (mem_append_right _ mem_cons_self)
  obtain ⟨-, hbefore, hafter⟩ := h.ordered.middle
  have hft : ed.ft.fragPolicy = ft₀.fragPolicy := by rw [hed]; exact h.same.fragPolicy
  have hE : Edited p new l₀ ft₀ ed.ft ⟨before ++ (l, left) :: after, fresh⟩ := by rw [hed]; exact h
  have hstart : ed.fragOffset = new.fragOffset := by rw [hed]
  have hright : ed.right = firstOr none after := by rw [hed]
  have hplaced (hpolicy : ft₀.fragPolicy ≠ .last)
      (hle : (slideLeft ed (left.fin - ed.fragOffset)).fragOffset ≤ new.fragEnd) :
      Placed p new l₀ ft₀ (slideLeft ed (left.fin - ed.fragOffset))
        ⟨before ++ (l, left) :: after, fresh⟩ := by
    rw [slideLeft_eq hw (hstart ▸ hl) (hstart ▸ hov)] at hle
    exact ⟨before ++ [(l, left)], after, append_cons _ _ _,
      slideLeft_placing hw h hed hl hov hle hpolicy hclean⟩
  -- the new fragment slides, unless nothing is left of it
  have hslides (hpolicy : ft₀.fragPolicy ≠ .last) :
      Does p new l₀ ft₀
        (if new.fragEnd ≤ (slideLeft ed (left.fin - ed.fragOffset)).fragOffset then
          throw (.anomaly, (slideLeft ed (left.fin - ed.fragOffset)).ft.alert .anomalyZero)
        else pure (slideLeft ed (left.fin - ed.fragOffset)))
        ⟨before ++ (l, left) :: after, fresh⟩ fun ed s =>
          Edited p new l₀ ft₀ ed.ft s ∧
            (ed.fragOffset ≤ new.fragEnd → Placed p new l₀ ft₀ ed s) := by
    split_ifs with hend
    · exact .throw nofun (hE.alert _)
    · exact .pure ⟨hE, hplaced hpolicy⟩
  -- the new fragment stays, and the one on the left is cut
  have htruncates (hpolicy : ft₀.fragPolicy = .last ∨ ft₀.fragPolicy = .bsdRight) :
      Does p new l₀ ft₀ (liftM (truncateLeft new ed l left (left.fin - ed.fragOffset)))
        ⟨before ++ (l, left) :: after, fresh⟩ fun ed s =>
          Edited p new l₀ ft₀ ed.ft s ∧
            (ed.fragOffset ≤ new.fragEnd → Placed p new l₀ ft₀ ed s) := by
    have hfirst : ft₀.fragPolicy ≠ .first := by
      rcases hpolicy with hp | hp <;> rw [hp] <;> exact nofun
    refine .liftM ((truncateLeft_ends hnew hl₀ hE hfirst hstart hl hov hafter hright).mono ?_)
    rintro _ ⟨l', fresh'⟩ ⟨left', after', rfl, hE', hfin, hafter', ft', rfl⟩
    refine ⟨hE', fun _ => ⟨before ++ [(l, left')], after', append_cons _ _ _, ?_⟩⟩
    subst hed
    rw [append_cons] at hE'
    refine hE'.placing hnew (lastOr_concat none before (l, left')).symm rfl (fun x hx => ?_) hafter'
      (rightOk_of_policy (by tauto))
    rcases mem_append.mp hx with hx | hx
    · exact (hbefore x hx).trans (Nat.le_of_lt hl)
    · rw [mem_singleton.mp hx]
      exact hfin.le
  unfold resolveLeft
  rw [hft]
  cases hp : ft₀.fragPolicy with
  | first => exact hslides (by simp [hp])
  | linux => exact hslides (by simp [hp])
  | bsd => exact hslides (by simp [hp])
  | windows => exact hslides (by simp [hp])
  | solaris => exact hslides (by simp [hp])
  | bsdRight =>
    split_ifs with hend
    · refine .liftM (.of_run (dumpLeft_run (not_mem_ids_of_nodup h.nodup) ?_) ?_)
      · simp only [fin] at hov
        omega
      · exact ⟨hE, hplaced (by simp [hp])⟩
    · exact htruncates (.inr hp)
  | last => exact htruncates (.inl hp)

theorem leftOverlap_does (h : Edited p new l₀ ft₀ ft ⟨before ++ after, fresh⟩) (hnew : new.Fits p)
    (hl₀ : ∀ x ∈ l₀, x.2.Within)
    (hbefore : ∀ x ∈ before, lo x < new.fragOffset) (hafter : ∀ x ∈ after, new.fragOffset ≤ lo x)
    (hclean : RightOk ft₀.fragPolicy new.fragOffset new.fragEnd
      (startBehind new.fragOffset before) (after.takeWhile fun x => decide (lo x < new.fragEnd))) :
    Does p new l₀ ft₀
      (leftOverlap p new ⟨ft, new.fragOffset, 0, 0, lastOr none before, firstOr none after, false,
        true, false⟩)
      ⟨before ++ after, fresh⟩ (Placed p new l₀ ft₀) := by
  rcases eq_nil_or_concat before with rfl | ⟨init, ⟨l, left⟩, rfl⟩
  · exact .pure ⟨[], after, rfl, h.placing hnew rfl rfl (fun x hx => absurd hx not_mem_nil)
      hafter hclean⟩
  · have hstart : startBehind new.fragOffset (init ++ [(l, left)]) = max new.fragOffset
      left.fin := by
      rw [startBehind, getLast?_concat]
      rfl
    rw [concat_eq_append, hstart] at hclean
    rw [concat_eq_append] at h hbefore ⊢
    rw [← append_cons] at h ⊢
    have hlo : left.offset < new.fragOffset := hbefore (l, left) (by simp)
    rw [leftOverlap, lastOr_concat]
    refine .run (run_load (not_mem_ids_of_nodup h.nodup)) ?_
    dsimp only
    split_ifs with hov htear
    · refine .pure ⟨init ++ [(l, left)], after, append_cons _ _ _, ?_⟩
      rw [append_cons] at h
      rw [max_eq_left (by omega)] at hclean
      refine h.placing hnew (lastOr_concat none init (l, left)).symm rfl (fun x hx => ?_)
        hafter hclean
      have hord := (Ordered.append_iff.mp h.ordered).1
      rcases mem_append.mp hx with hx | hx
      · exact ((hord.middle).2.1 x hx).trans (Nat.le_of_lt hlo)
      · rw [mem_singleton.mp hx]
        show left.fin ≤ _
        omega
    · exact .throw nofun h.countOverlap.teardrop
    · rw [max_eq_right (by omega)] at hclean
      refine .bind ((resolveLeft_does hnew hl₀ h.countOverlap hlo (by omega) hclean rfl).mono ?_)
      intro ed s hed
      split_ifs with hend
      · exact .throw nofun (hed.1.alert _)
      · exact .pure (hed.2 (Nat.not_lt.mp hend))
end Steps
end Snort.Ip
