import Snort.SearchEngines.Acsmx2.Build

/-!
# Row formats of `acsmx2.cc`

Every row starts with a format code and a match flag. The rest is the full row
of 256 next states, or an encoding of it that leaves zeros out: sorted pairs of
input and next state, one band from the first to the last non-zero cell, or
several bands split at long runs of zeros.

A row is a list of words. A read outside of it is `none`, so the lemmas that a
lookup gives `some` value also say that it stays within the row. The cells hold
next states only, never `ACSM_FAIL_STATE2`, and a cell is tested against 0 alone.
-/

namespace Snort.Acsmx2
open List Option

/-! ## Encodings -/

variable {cell : ℕ → ℕ}

/-- The cast of a state to a cell of `sizeofstate` bytes. -/
def narrow (sizeofstate : ℕ) (state : ℕ) : ℕ :=
  match sizeofstate with
  | 1 => state % 256
  | 2 => state % 65536
  | _ => state

/-- The loop of `Conv_Full_DFA_To_Sparse` that writes the pairs. -/
def sparsePairs : ℕ → List ℕ → List ℕ
  | _, [] => []
  | i, state :: full =>
    if state ≠ 0 then i :: state :: sparsePairs (i + 1) full else sparsePairs (i + 1) full

/-- A row of `Conv_Full_DFA_To_Sparse` for state `k`. -/
def sparseRow (maxRowNodes k : ℕ) (full : List ℕ) : List ℕ :=
  let cnt := full.countP (· ≠ 0)
  if k = 0 ∨ cnt > maxRowNodes then acfFull :: 0 :: full
  else acfSparse :: 0 :: cnt :: sparsePairs 0 full

/-- The first and the last non-zero cell; `-1` and `-2` if there is none. -/
def bandLimits : List ℕ → ℕ → ℤ → ℤ → ℤ × ℤ
  | [], _, first, last => (first, last)
  | state :: full, i, first, last =>
    if state ≠ 0 then bandLimits full (i + 1) (if first < 0 then i else first) i
    else bandLimits full (i + 1) first last

/-- A row of `Conv_Full_DFA_To_Banded`; the words are unsigned 32-bit numbers. -/
def bandedRow (full : List ℕ) : List ℕ :=
  let limits := bandLimits full 0 (-1) (-2)
  let cnt := limits.2 - limits.1 + 1
  acfBanded :: 0 :: cnt.toNat :: (limits.1 % 2 ^ 32).toNat ::
    (range cnt.toNat).map fun j => full.getD (limits.1.toNat + j) 0

/-- The inner loop of `calcSparseBands`, from the cell `i` on: the last non-zero
cell, and where the loop stopped. -/
def bandEnd (zmax : ℕ) : List ℕ → ℕ → ℕ → ℕ → ℕ × ℕ × List ℕ
  | [], i, _, last => (last, i, [])
  | state :: next, i, zcnt, last =>
    if state = 0 then
      if zcnt + 1 > zmax then (last, i, state :: next)
      else bandEnd zmax next (i + 1) (zcnt + 1) last
    else bandEnd zmax next (i + 1) 0 i

/-- `calcSparseBands`: begin and end of each band. The outer loop goes on after
the cell at which the inner one stopped. -/
def calcSparseBands (zmax : ℕ) : ℕ → List ℕ → ℕ → List (ℕ × ℕ)
  | _, [], _ => []
  | 0, _ :: _, _ => []
  | fuel + 1, state :: next, i =>
    if state ≠ 0 then
      let r := bandEnd zmax (state :: next) i 0 0
      (i, r.1) :: calcSparseBands zmax fuel r.2.2.tail (r.2.1 + 1)
    else calcSparseBands zmax fuel next (i + 1)

/-- The words of one band. -/
def bandWords (full : List ℕ) (band : ℕ × ℕ) : List ℕ :=
  (band.2 - band.1 + 1) :: band.1 ::
    (range (band.2 - band.1 + 1)).map fun j => full.getD (band.1 + j) 0

/-- A row of `Conv_Full_DFA_To_SparseBands`, which gives up on a band beyond the
alphabet. -/
def sparseBandsRow (zmax : ℕ) (full : List ℕ) : Option (List ℕ) :=
  let bands := calcSparseBands zmax full.length full 0
  if bands.any (fun b => 256 ≤ b.2) then none
  else some (acfSparseBands :: 0 :: bands.length :: bands.flatMap (bandWords full))

/-! ## Lookups -/

/-- How a scan of pairs or bands ends. -/
inductive RowScan where
  | found (next : ℕ)
  | past
  | exhausted
deriving DecidableEq, Repr

/-- The next state of a DFA row, where what is absent is state 0. -/
def RowScan.value : RowScan → ℕ
  | found next => next
  | past => 0
  | exhausted => 0

/-- The loop over `n` pairs, which are sorted by their input. -/
def scanPairs : ℕ → List ℕ → ℕ → Option RowScan
  | 0, _, _ => some .exhausted
  | n + 1, key :: next :: ps, input =>
    if input < key then some .past
    else if key = input then some (.found next)
    else scanPairs n ps input
  | _ + 1, _, _ => none

/-- The loop over `nb` bands. -/
def scanBands : ℕ → List ℕ → ℕ → Option RowScan
  | 0, _, _ => some .exhausted
  | nb + 1, n :: index :: ps, input =>
    if input < index then some .past
    else if input < index + n then (ps[input - index]?).map .found
    else scanBands nb (ps.drop n) input
  | _ + 1, _, _ => none

/-- `SparseGetNextStateDFA`. -/
def sparseGetNextStateDFA (ps : List ℕ) (input : ℕ) : Option ℕ :=
  match ps with
  | fmt :: _ :: body =>
    if fmt = acfFull then body[input]?
    else if fmt = acfSparse then
      match body with
      | n :: pairs => (scanPairs n pairs input).map RowScan.value
      | [] => none
    else if fmt = acfSparseBands then
      match body with
      | nb :: bands => (scanBands nb bands input).map RowScan.value
      | [] => none
    else some 0
  | _ => none

/-- The transition of `acsm_search_dfa_banded`. -/
def bandedGetNextState (ps : List ℕ) (sindex : ℕ) : Option ℕ :=
  match ps with
  | _ :: _ :: n :: first :: band =>
    if sindex < first then some 0
    else if first + n ≤ sindex then some 0
    else band[sindex - first]?
  | _ => none

/-- `get_next_state_nfa`; the inner `none` is `ACSM_FAIL_STATE2`. -/
def getNextStateNfa (ps : List ℕ) (state input : ℕ) : Option (Option ℕ) :=
  match ps with
  | fmt :: _ :: body =>
    if fmt = acfBanded then
      match body with
      | n :: index :: _ =>
        if input < index then some (if state = 0 then some 0 else none)
        else if index + n ≤ input then some (if state = 0 then some 0 else none)
        -- the cells are read from the count word on, as in the source
        else (body[input - index]?).map fun next =>
          if next = 0 ∧ state ≠ 0 then none else some next
      | _ => none
    else if fmt = acfSparse then
      match body with
      | n :: pairs => (scanPairs n pairs input).map fun
        | .found next => some next
        | .past => none
        | .exhausted => if state = 0 then some 0 else none
      | [] => none
    else if fmt = acfSparseBands then
      match body with
      | nb :: bands => (scanBands nb bands input).map fun
        | .found next => if next = 0 ∧ state ≠ 0 then none else some next
        | .past => if state ≠ 0 then none else some 0
        | .exhausted => if state ≠ 0 then none else some 0
      | [] => none
    else if fmt = acfFull then
      (body[input]?).map fun next => if next = 0 ∧ state ≠ 0 then none else some next
    else some (some 0)
  | _ => none

/-! ## The scan of pairs -/

theorem scanPairs_spec (input : ℕ) : ∀ (full : List ℕ) (i : ℕ),
    ∃ r, scanPairs (full.countP (· ≠ 0)) (sparsePairs i full) input = some r ∧
      r.value = (if input < i then 0 else full.getD (input - i) 0) ∧
      (∀ next, r = .found next → next ≠ 0) := by
  intro full
  induction full with
  | nil =>
    intro i
    exact ⟨.exhausted, rfl, by simp [RowScan.value], fun _ h => by cases h⟩
  | cons state full ih =>
    intro i
    have hnext : i < input → (state :: full).getD (input - i) 0 = full.getD
      (input - (i + 1)) 0 := by
      intro hlt
      rw [show input - i = (input - (i + 1)) + 1 by omega, getD_cons_succ]
    by_cases hs : state ≠ 0
    · have hcnt : (state :: full).countP (· ≠ 0) = full.countP (· ≠ 0) + 1 := by
        rw [countP_cons_of_pos (by simpa using hs)]
      rw [hcnt, sparsePairs, if_pos hs, scanPairs]
      by_cases hlt : input < i
      · exact ⟨.past, if_pos hlt, by simp [RowScan.value, hlt], fun _ h => by cases h⟩
      · rw [if_neg hlt]
        by_cases heq : i = input
        · refine ⟨.found state, if_pos heq, by simp [RowScan.value, heq], ?_⟩
          intro next h
          cases h
          exact hs
        · obtain ⟨r, hr, hval, hne⟩ := ih (i + 1)
          refine ⟨r, by rw [if_neg heq, hr], ?_, hne⟩
          rw [hval, if_neg (by omega), if_neg hlt, hnext (by omega)]
    · have hcnt : (state :: full).countP (· ≠ 0) = full.countP (· ≠ 0) := by
        rw [countP_cons_of_neg (by simpa using hs)]
      obtain ⟨r, hr, hval, hne⟩ := ih (i + 1)
      refine ⟨r, by rw [hcnt, sparsePairs, if_neg hs, hr], ?_, hne⟩
      rw [hval]
      rcases Nat.lt_trichotomy input i with hlt | heq | hgt
      · rw [if_pos hlt, if_pos (by omega)]
      · subst heq
        rw [if_pos (by omega), if_neg (by omega), Nat.sub_self, getD_cons_zero]
        exact (not_not.mp hs).symm
      · rw [if_neg (by omega), if_neg (by omega), hnext hgt]

/-! ## The band limits -/

/-- `first` and `last` enclose the non-zero cells below `i`. -/
def LimitsOk (cell : ℕ → ℕ) (i : ℕ) (first last : ℤ) : Prop :=
  (first = -1 ∧ last = -2 ∧ ∀ j < i, cell j = 0) ∨
  (0 ≤ first ∧ first ≤ last ∧ last < i ∧ ∀ j < i, (j : ℤ) < first ∨ last < (j : ℤ) → cell j = 0)

theorem bandLimits_spec (cell : ℕ → ℕ) : ∀ (full : List ℕ) (i : ℕ) (first last : ℤ),
    (∀ j, j < full.length → cell (i + j) = full.getD j 0) → LimitsOk cell i first last →
    LimitsOk cell (i + full.length) (bandLimits full i first last).1
      (bandLimits full i first last).2 := by
  intro full
  induction full with
  | nil => intro i first last _ h; exact h
  | cons state full ih =>
    intro i first last hcell h
    have hi : cell i = state := by
      have := hcell 0 (by simp)
      simpa using this
    have htail : ∀ j, j < full.length → cell (i + 1 + j) = full.getD j 0 := by
      intro j hj
      have := hcell (j + 1) (by simpa using hj)
      rw [show i + 1 + j = i + (j + 1) by omega, this, getD_cons_succ]
    rw [length_cons, show i + (full.length + 1) = i + 1 + full.length by omega]
    by_cases hs : state ≠ 0
    · rw [bandLimits, if_pos hs]
      refine ih _ _ _ htail (.inr ?_)
      rcases h with ⟨hf, hl, hz⟩ | ⟨hf, hfl, hl, hz⟩
      · rw [if_pos (by omega)]
        exact ⟨by omega, by omega, by omega, fun j hj hout => hz j (by omega)⟩
      · rw [if_neg (by omega)]
        exact ⟨hf, by omega, by omega, fun j hj hout => hz j (by omega) (by omega)⟩
    · rw [bandLimits, if_neg hs]
      refine ih _ _ _ htail ?_
      rw [not_not] at hs
      rcases h with ⟨hf, hl, hz⟩ | ⟨hf, hfl, hl, hz⟩
      · refine .inl ⟨hf, hl, fun j hj => ?_⟩
        rcases Nat.lt_succ_iff_lt_or_eq.mp hj with hj | rfl
        · exact hz j hj
        · rw [hi, hs]
      · refine .inr ⟨hf, hfl, by omega, fun j hj hout => ?_⟩
        rcases Nat.lt_succ_iff_lt_or_eq.mp hj with hj | rfl
        · exact hz j hj hout
        · rw [hi, hs]

/-! ## The bands -/

/-- Bands from `lo` on: in order, within the alphabet, and all cells between
them are zero. -/
def GoodBands (cell : ℕ → ℕ) : ℕ → List (ℕ × ℕ) → Prop
  | lo, [] => ∀ j, lo ≤ j → j < 256 → cell j = 0
  | lo, (first, last) :: bands =>
    lo ≤ first ∧ first ≤ last ∧ last < 256 ∧ (∀ j, lo ≤ j → j < first → cell j = 0) ∧
      GoodBands cell (last + 1) bands

theorem GoodBands.of_zeros {lo : ℕ} (lo' : ℕ) (hle : lo ≤ lo')
    (hz : ∀ j, lo ≤ j → j < lo' → j < 256 → cell j = 0) :
    ∀ {bands : List (ℕ × ℕ)}, GoodBands cell lo' bands → GoodBands cell lo bands
  | [], h => by
      intro j hj hlt
      by_cases hj' : j < lo'
      · exact hz j hj hj' hlt
      · exact h j (by omega) hlt
  | (first, last) :: bands, h => by
      obtain ⟨h1, h2, h3, h4, h5⟩ := h
      refine ⟨by omega, h2, h3, fun j hj hlt => ?_, h5⟩
      by_cases hj' : j < lo'
      · exact hz j hj hj' (by omega)
      · exact h4 j (by omega) hlt

theorem GoodBands.last_lt : ∀ {bands : List (ℕ × ℕ)} {lo : ℕ},
    GoodBands cell lo bands → ∀ b ∈ bands, b.2 < 256
  | [], _, _, b, hb => absurd hb not_mem_nil
  | (first, last) :: bands, lo, h, b, hb => by
      obtain ⟨-, -, h3, -, h5⟩ := h
      rcases mem_cons.mp hb with rfl | hb
      · exact h3
      · exact h5.last_lt b hb

/-- The inner loop stops at `i'`: everything after the last non-zero cell is
zero up to there, and so is the cell at which it stopped. -/
theorem bandEnd_spec (zmax : ℕ) (cell : ℕ → ℕ) : ∀ (next : List ℕ) (i zcnt last : ℕ),
    (∀ j, j < next.length → cell (i + j) = next.getD j 0) → last < i →
    (∀ j, last < j → j < i → cell j = 0) →
    ∃ last' i', bandEnd zmax next i zcnt last = (last', i', next.drop (i' - i)) ∧
      i ≤ i' ∧ i' ≤ i + next.length ∧ last ≤ last' ∧ last' < i' ∧
      (∀ j, last' < j → j < i' → cell j = 0) ∧ (i' < i + next.length → cell i' = 0) := by
  intro next
  induction next with
  | nil =>
    intro i zcnt last _ hlast hz
    exact ⟨last, i, by simp [bandEnd], by omega, by simp, by omega, hlast, hz, by simp⟩
  | cons state next ih =>
    intro i zcnt last hcell hlast hz
    have hi : cell i = state := by
      have := hcell 0 (by simp)
      simpa using this
    have htail : ∀ j, j < next.length → cell (i + 1 + j) = next.getD j 0 := by
      intro j hj
      have := hcell (j + 1) (by simpa using hj)
      rw [show i + 1 + j = i + (j + 1) by omega, this, getD_cons_succ]
    have hstep : ∀ zcnt' last₁, last ≤ last₁ → last₁ < i + 1 →
        (∀ j, last₁ < j → j < i + 1 → cell j = 0) →
        bandEnd zmax (state :: next) i zcnt last = bandEnd zmax next (i + 1) zcnt' last₁ →
        ∃ last' i', bandEnd zmax (state :: next) i zcnt last =
            (last', i', (state :: next).drop (i' - i)) ∧
          i ≤ i' ∧ i' ≤ i + (state :: next).length ∧ last ≤ last' ∧ last' < i' ∧
          (∀ j, last' < j → j < i' → cell j = 0) ∧
          (i' < i + (state :: next).length → cell i' = 0) := by
      intro zcnt' last₁ hle hlt hz₁ heq
      obtain ⟨last', i', hend, h1, h2, h3, h4, h5, h6⟩ := ih (i + 1) zcnt' last₁ htail hlt hz₁
      refine ⟨last', i', ?_, by omega, by rw [length_cons]; omega, by omega, h4, h5, ?_⟩
      · rw [heq, hend, show i' - i = (i' - (i + 1)) + 1 by omega, drop_succ_cons]
      · intro hlt'
        rw [length_cons] at hlt'
        exact h6 (by omega)
    by_cases hs : state = 0
    · by_cases hmax : zcnt + 1 > zmax
      · refine ⟨last, i, ?_, by omega, by simp, by omega, hlast, hz, fun _ => by rw [hi, hs]⟩
        rw [bandEnd, if_pos hs, if_pos hmax, Nat.sub_self, drop_zero]
      · refine hstep (zcnt + 1) last (by omega) (by omega) ?_ ?_
        · intro j hj hlt
          rcases Nat.lt_succ_iff_lt_or_eq.mp hlt with hlt | rfl
          · exact hz j hj hlt
          · rw [hi, hs]
        · rw [bandEnd, if_pos hs, if_neg hmax]
    · refine hstep 0 i (by omega) (by omega) (fun j hj hlt => by omega) ?_
      rw [bandEnd, if_neg hs]

theorem calcSparseBands_spec (zmax : ℕ) (cell : ℕ → ℕ) : ∀ (fuel : ℕ) (next : List ℕ) (i : ℕ),
    next.length ≤ fuel → next.length = 256 - i →
    (∀ j, j < next.length → cell (i + j) = next.getD j 0) →
    GoodBands cell i (calcSparseBands zmax fuel next i) := by
  intro fuel
  induction fuel with
  | zero =>
    intro next i hfuel hlen _
    have hnil := eq_nil_of_length_eq_zero (Nat.le_zero.mp hfuel)
    subst hnil
    intro j hj hlt
    rw [length_nil] at hlen
    omega
  | succ fuel ih =>
    intro next i hfuel hlen hcell
    cases next with
    | nil =>
      intro j hj hlt
      rw [length_nil] at hlen
      omega
    | cons state next =>
      rw [length_cons] at hfuel hlen
      have hi : cell i = state := by
        have := hcell 0 (by simp)
        simpa using this
      have htail : ∀ j, j < next.length → cell (i + 1 + j) = next.getD j 0 := by
        intro j hj
        have := hcell (j + 1) (by simpa using hj)
        rw [show i + 1 + j = i + (j + 1) by omega, this, getD_cons_succ]
      by_cases hs : state ≠ 0
      · obtain ⟨last, i', hend, h1, h2, h3, h4, h5, h6⟩ :=
          bandEnd_spec zmax cell next (i + 1) 0 i htail (by omega) (fun j hj hlt => by omega)
        have hfirst : bandEnd zmax (state :: next) i 0 0 =
            (last, i', next.drop (i' - (i + 1))) := by
          rw [bandEnd, if_neg hs, hend]
        rw [calcSparseBands, if_pos hs, hfirst]
        refine ⟨Nat.le_refl i, h3, by omega, fun j hj hlt => by omega, ?_⟩
        refine GoodBands.of_zeros (i' + 1) (by omega) ?_ (ih _ _ ?_ ?_ ?_)
        · intro j hj hlt h256
          by_cases hj' : j < i'
          · exact h5 j (by omega) hj'
          · rw [show j = i' by omega]
            exact h6 (by omega)
        · rw [length_tail, length_drop]
          omega
        · rw [length_tail, length_drop]
          omega
        · intro j hj
          rw [length_tail, length_drop] at hj
          rw [getD_eq_getElem?_getD, getElem?_tail, getElem?_drop,
            ← getD_eq_getElem?_getD, ← htail _ (by omega)]
          congr 1
          omega
      · rw [calcSparseBands, if_neg hs]
        rw [not_not] at hs
        refine GoodBands.of_zeros (i + 1) (by omega) ?_ (ih _ _ (by omega) (by omega) htail)
        intro j hj hlt _
        rw [show j = i by omega, hi, hs]

theorem scanBands_spec (full : List ℕ) (input : ℕ) (hin : input < 256) :
    ∀ (bands : List (ℕ × ℕ)) (lo : ℕ), GoodBands (fun j => full.getD j 0) lo bands →
      lo ≤ input → ∃ r, scanBands bands.length (bands.flatMap (bandWords full)) input = some r ∧
        r.value = full.getD input 0 := by
  intro bands
  induction bands with
  | nil =>
    intro lo hgood hlo
    exact ⟨.exhausted, rfl, (hgood input hlo hin).symm⟩
  | cons band bands ih =>
    intro lo hgood hlo
    obtain ⟨first, last⟩ := band
    obtain ⟨h1, h2, h3, h4, h5⟩ := hgood
    show ∃ r, scanBands (bands.length + 1) ((last - first + 1) :: first ::
      ((range (last - first + 1)).map (fun j => full.getD (first + j) 0) ++
        bands.flatMap (bandWords full))) input = some r ∧ _
    rw [scanBands]
    by_cases hlt : input < first
    · exact ⟨.past, if_pos hlt, (h4 input hlo hlt).symm⟩
    · rw [if_neg hlt]
      by_cases hband : input < first + (last - first + 1)
      · have hidx : input - first < ((range (last - first + 1)).map
            (fun j => full.getD (first + j) 0)).length := by
          rw [length_map, length_range]
          omega
        refine ⟨.found (full.getD input 0), ?_, rfl⟩
        rw [if_pos hband, getElem?_append_left hidx, getElem?_map,
          getElem?_range (by omega), map_some, map_some,
          show first + (input - first) = input by omega]
      · obtain ⟨r, hr, hval⟩ := ih (last + 1) h5 (by omega)
        refine ⟨r, ?_, hval⟩
        rw [if_neg hband]
        have hdrop : ((range (last - first + 1)).map (fun j => full.getD (first + j) 0) ++
            bands.flatMap (bandWords full)).drop (last - first + 1) =
            bands.flatMap (bandWords full) := by
          simp
        rw [hdrop, hr]

/-! ## Every format gives the full row back -/

/-- What an NFA row gives for a cell: a zero fails, except at state 0. -/
def nfaCell (state next : ℕ) : Option ℕ :=
  if next = 0 ∧ state ≠ 0 then none else some next

section Rows
variable {full : List ℕ} (hlen : full.length = 256) (c : UInt8) (flag : ℕ)
include hlen
variable {row : List ℕ}

theorem getElem?_full : full[c.toNat]? = some (full.getD c.toNat 0) := by
  have hlt := c.toNat_lt
  rw [getD_eq_getElem?_getD, getElem?_eq_getElem (by omega), getD_some]

theorem goodBands_calcSparseBands (zmax : ℕ) :
    GoodBands (fun j => full.getD j 0) 0 (calcSparseBands zmax full.length full 0) :=
  calcSparseBands_spec zmax _ _ _ _ (Nat.le_refl _) (by omega) (fun j _ => by rw [Nat.zero_add])

theorem sparseBandsRow_eq (zmax : ℕ) : sparseBandsRow zmax full =
    some (acfSparseBands :: 0 :: (calcSparseBands zmax full.length full 0).length ::
      (calcSparseBands zmax full.length full 0).flatMap (bandWords full)) := by
  have hgood := goodBands_calcSparseBands hlen zmax
  refine if_neg ?_
  rw [List.any_eq_true]
  rintro ⟨b, hb, hge⟩
  have := hgood.last_lt b hb
  have := of_decide_eq_true hge
  omega

theorem sparseGetNextStateDFA_sparseRow (maxRowNodes k : ℕ) :
    sparseGetNextStateDFA ((sparseRow maxRowNodes k full).set 1 flag) c.toNat =
      some (full.getD c.toNat 0) := by
  unfold sparseRow
  by_cases hk : k = 0 ∨ full.countP (· ≠ 0) > maxRowNodes
  · rw [if_pos hk]
    exact getElem?_full hlen c
  · rw [if_neg hk]
    obtain ⟨r, hr, hval, -⟩ := scanPairs_spec c.toNat full 0
    show (scanPairs _ _ c.toNat).map RowScan.value = _
    rw [hr, map_some, hval, if_neg (by omega), Nat.sub_zero]

theorem sparseGetNextStateDFA_sparseBandsRow (zmax : ℕ)
    (hrow : sparseBandsRow zmax full = some row) :
    sparseGetNextStateDFA (row.set 1 flag) c.toNat = some (full.getD c.toNat 0) := by
  rw [sparseBandsRow_eq hlen zmax, some.injEq] at hrow
  subst hrow
  obtain ⟨r, hr, hval⟩ := scanBands_spec full c.toNat c.toNat_lt _ 0
    (goodBands_calcSparseBands hlen zmax) (Nat.zero_le _)
  show (scanBands _ _ c.toNat).map RowScan.value = _
  rw [hr, map_some, hval]

theorem bandedGetNextState_bandedRow :
    bandedGetNextState ((bandedRow full).set 1 flag) c.toNat = some (full.getD c.toNat 0) := by
  have hlt := c.toNat_lt
  have hlim := bandLimits_spec (fun j => full.getD j 0) full 0 (-1) (-2)
    (fun j _ => by rw [Nat.zero_add]) (.inl ⟨rfl, rfl, fun j hj => by omega⟩)
  rw [hlen, Nat.zero_add] at hlim
  set limits := bandLimits full 0 (-1) (-2)
  show (if c.toNat < (limits.1 % 2 ^ 32).toNat then some 0
    else if (limits.1 % 2 ^ 32).toNat + (limits.2 - limits.1 + 1).toNat ≤ c.toNat then some 0
    else ((range (limits.2 - limits.1 + 1).toNat).map
      fun j => full.getD (limits.1.toNat + j) 0)[c.toNat - (limits.1 % 2 ^ 32).toNat]?) = _
  rcases hlim with ⟨hf, -, hz⟩ | ⟨hf, hfl, hl, hz⟩
  · -- an empty band starts beyond the alphabet
    rw [hf, if_pos (by omega)]
    exact congrArg some (hz c.toNat hlt).symm
  · have hmod : limits.1 % 2 ^ 32 = limits.1 := Int.emod_eq_of_lt hf (by omega)
    rw [hmod]
    by_cases h1 : c.toNat < limits.1.toNat
    · rw [if_pos h1]
      exact congrArg some (hz c.toNat hlt (.inl (by omega))).symm
    · rw [if_neg h1]
      by_cases h2 : limits.1.toNat + (limits.2 - limits.1 + 1).toNat ≤ c.toNat
      · rw [if_pos h2]
        exact congrArg some (hz c.toNat hlt (.inr (by omega))).symm
      · rw [if_neg h2, getElem?_map, getElem?_range (by omega), map_some,
          show limits.1.toNat + (c.toNat - limits.1.toNat) = c.toNat by omega]

theorem getNextStateNfa_fullRow (state : ℕ) :
    getNextStateNfa (acfFull :: flag :: full) state c.toNat =
      some (nfaCell state (full.getD c.toNat 0)) := by
  show (full[c.toNat]?).map _ = _
  rw [getElem?_full hlen c]
  rfl

theorem getNextStateNfa_sparseRow (maxRowNodes state : ℕ) :
    getNextStateNfa ((sparseRow maxRowNodes state full).set 1 flag) state c.toNat =
      some (nfaCell state (full.getD c.toNat 0)) := by
  unfold sparseRow
  by_cases hk : state = 0 ∨ full.countP (· ≠ 0) > maxRowNodes
  · rw [if_pos hk]
    exact getNextStateNfa_fullRow hlen c flag state
  · rw [if_neg hk]
    rw [not_or] at hk
    obtain ⟨r, hr, hval, hne⟩ := scanPairs_spec c.toNat full 0
    rw [if_neg (by omega), Nat.sub_zero] at hval
    show (scanPairs _ _ c.toNat).map _ = _
    rw [hr, map_some, ← hval]
    -- state 0 has a full row, so a scan that finds nothing fails
    cases r with
    | found next => simp [nfaCell, RowScan.value, hne next rfl]
    | past => simp [nfaCell, RowScan.value, hk.1]
    | exhausted => simp [nfaCell, RowScan.value, hk.1]

theorem getNextStateNfa_sparseBandsRow (zmax state : ℕ)
    (hrow : sparseBandsRow zmax full = some row) :
    getNextStateNfa (row.set 1 flag) state c.toNat =
      some (nfaCell state (full.getD c.toNat 0)) := by
  rw [sparseBandsRow_eq hlen zmax, some.injEq] at hrow
  subst hrow
  obtain ⟨r, hr, hval⟩ := scanBands_spec full c.toNat c.toNat_lt _ 0
    (goodBands_calcSparseBands hlen zmax) (Nat.zero_le _)
  show (scanBands _ _ c.toNat).map _ = _
  rw [hr, map_some, ← hval]
  by_cases hs : state = 0
  · cases r <;> simp [nfaCell, RowScan.value, hs]
  · cases r <;> simp [nfaCell, RowScan.value, hs]
end Rows
end Snort.Acsmx2
