import Snort.SearchEngines.Bnfa.Build

/-!
# The compacted array of `bnfa_search.cc`

All states are stored in one array of 32-bit words. The row of a state is its
number, a control word with the failure state, and its transitions: 256 words for
a full row, otherwise one word per transition with the byte in the high 8 bits.
A first pass writes states into the low 24 bits, a second one replaces them by
the indices of their rows.
-/

namespace Snort.Bnfa
open Nat List Automata
variable {hi lo fail : ℕ}

def bnfaSparseMatchBit : ℕ := 0x80000000
def bnfaSparseFullBit : ℕ := 0x40000000
def bnfaSparseCountBits : ℕ := 0x3f000000
def bnfaSparseMaxRowTransitions : ℕ := 0x3f
def bnfaSparseLinearSearchLimit : ℕ := 6

/-! ## Writing the array -/

/-- `_bnfa_list_conv_row_to_full`. -/
def convRowToFull (t : BnfaTransTable) (state : ℕ) : List ℕ :=
  if state = 0 then alphabet.map t.zero else (t.lists state).convToFull id

/-- The number of transitions of a full row. -/
def countTransitions (full : List ℕ) : ℕ :=
  (range 256).countP fun i => full.getD i 0 &&& bnfaSparseMaxState != 0

/-- The state is stored as a full row. -/
def BnfaStruct.isFull (bnfa : BnfaStruct) (k : ℕ) : Bool :=
  (k == 0 && bnfa.bnfaForceFullZeroState) ||
    decide (countTransitions (convRowToFull bnfa.bnfaTransTable k) > bnfaSparseMaxRowTransitions)

/-- The words of a state in the counting pass. -/
def BnfaStruct.rowSize (bnfa : BnfaStruct) (k : ℕ) : ℕ :=
  2 + if bnfa.isFull k then 256
    else countTransitions (convRowToFull bnfa.bnfaTransTable k)

/-- The control word, from its first byte, the failure state and the match bit. -/
def controlWord (cb failState : ℕ) (isMatch : Bool) : ℕ :=
  cb ||| (failState &&& bnfaSparseMaxState) ||| if isMatch then bnfaSparseMatchBit else 0

/-- The loop over the 256 bytes that keeps the first `nc` transitions. -/
def sparseTransitions (full : List ℕ) (nc : ℕ) : List ℕ :=
  ((range 256).filterMap fun i =>
    let state := full.getD i 0 &&& bnfaSparseMaxState
    if state ≠ 0 then some (i <<< 24 ||| state) else none).take nc

/-- The words of state `k`. -/
def BnfaStruct.csparseRow (bnfa : BnfaStruct) (k : ℕ) : List ℕ :=
  let full := convRowToFull bnfa.bnfaTransTable k
  let nc := countTransitions full
  let isMatch := !(bnfa.bnfaMatchList k).isEmpty
  if bnfa.isFull k then
    k :: controlWord bnfaSparseFullBit (bnfa.bnfaFailState k) isMatch :: full
  else
    k :: controlWord (nc <<< 24) (bnfa.bnfaFailState k) isMatch :: sparseTransitions full nc

/-- The array `ps` and the indices `pi` of the rows. -/
def BnfaStruct.csparseRows (bnfa : BnfaStruct) : List ℕ × List ℕ :=
  (range bnfa.bnfaNumStates).foldl
    (fun (ps, pi) k => (ps ++ bnfa.csparseRow k, pi ++ [ps.length])) ([], [])

/-- Replace the state in the low 24 bits by the index of its row. -/
def relinkWord (pi : List ℕ) (w : ℕ) : Option ℕ :=
  pi[w &&& bnfaSparseMaxState]?.map fun index => (w &&& 0xff000000) ||| index

/-- The second pass over the next `k` rows; each row says itself how long it is. -/
def relinkRows (pi : List ℕ) : ℕ → List ℕ → Option (List ℕ)
  | 0, rest => some rest
  | k + 1, state :: cw :: rest =>
    let cnt := if cw &&& bnfaSparseFullBit ≠ 0 then 256 else (cw &&& bnfaSparseCountBits) >>> 24
    if rest.length < cnt then none
    else
      (relinkWord pi cw).bind fun cw =>
        ((rest.take cnt).mapM (relinkWord pi)).bind fun transitions =>
          (relinkRows pi k (rest.drop cnt)).map fun rest =>
            state :: cw :: (transitions ++ rest)
  | _ + 1, _ => none

/-- `_bnfa_conv_list_to_csparse_array`, with `none` for −1. -/
def bnfaConvListToCsparseArray (bnfa : BnfaStruct) : Option (List ℕ) :=
  let nps := ((range bnfa.bnfaNumStates).map bnfa.rowSize).sum
  if nps > bnfaSparseMaxState then none
  else
    let (ps, pi) := bnfa.csparseRows
    if ps.length > nps then none
    else if pi.any (fun index => decide (index ≥ nps)) then none
    else relinkRows pi bnfa.bnfaNumStates ps

/-! ## Reading the array -/

/-- `_bnfa_binearch`; the outer `none` is a read outside the array. -/
def bnfaBinearch (a : List ℕ) (val : ℕ) (l r : ℤ) : Option (Option ℕ) :=
  if r < l then some none
  else
    let m := (r + l) / 2
    match a[m.toNat]? with
    | none => none
    | some w =>
      let c := w >>> 24
      if val = c then some (some m.toNat)
      else if val < c then bnfaBinearch a val l (m - 1)
      else bnfaBinearch a val (m + 1) r
termination_by (r - l + 1).toNat
decreasing_by all_goals omega

/-- The loop over the `nc` transition words of a short row. -/
def linearSearch (input : ℕ) : ℕ → List ℕ → Option (Option ℕ)
  | 0, _ => some none
  | _ + 1, [] => none
  | nc + 1, w :: words =>
    if w >>> 24 = input then some (some (w &&& bnfaSparseMaxState))
    else linearSearch input nc words

/-- The transition of the row at `sindex`, from its control word on; the outer
`none` is a read outside the array. -/
def rowTransition (sindex input : ℕ) : List ℕ → Option (Option ℕ)
  | [] => none
  | cw :: words =>
    if cw &&& bnfaSparseFullBit ≠ 0 then
      words[input]?.map fun w =>
        if sindex = 0 ∨ w &&& bnfaSparseMaxState ≠ 0 then some (w &&& bnfaSparseMaxState)
        else none
    else
      let nc := (cw >>> 24) &&& bnfaSparseMaxRowTransitions
      if nc > bnfaSparseLinearSearchLimit then
        match bnfaBinearch words input 0 (nc - 1) with
        | none => none
        | some none => some none
        | some (some index) => words[index]?.map fun w => some (w &&& bnfaSparseMaxState)
      else linearSearch input nc words

/-- `_bnfa_get_next_state_csparse_nfa`. -/
def bnfaGetNextStateCsparseNfa (pcx : List ℕ) (input : ℕ) : ℕ → ℕ → Option ℕ
  | 0, _ => none
  | fuel + 1, sindex =>
    match rowTransition sindex input (pcx.drop (sindex + 1)) with
    | none => none
    | some (some next) => some next
    | some none =>
      bnfaGetNextStateCsparseNfa pcx input fuel (pcx.getD (sindex + 1) 0 &&& bnfaSparseMaxState)

/-! ## Words -/

/-- The word with the byte `hi` over the 24 bits of `lo`. -/
def packWord (hi lo : ℕ) : ℕ := hi <<< 24 ||| lo

theorem packWord_eq_add (h : lo < 2 ^ 24) : packWord hi lo = hi * 2 ^ 24 + lo := by
  rw [packWord, ← shiftLeft_add_eq_or_of_lt h, shiftLeft_eq]

theorem and_bnfaSparseMaxState (w : ℕ) : w &&& bnfaSparseMaxState = w % 2 ^ 24 :=
  and_two_pow_sub_one_eq_mod w 24

theorem and_bnfaSparseMaxState_of_lt {w : ℕ} (h : w < 2 ^ 24) : w &&& bnfaSparseMaxState = w := by
  rw [and_bnfaSparseMaxState, mod_eq_of_lt h]

theorem packWord_low (h : lo < 2 ^ 24) : packWord hi lo &&& bnfaSparseMaxState = lo := by
  rw [and_bnfaSparseMaxState, packWord_eq_add h, mul_comm, mul_add_mod, mod_eq_of_lt h]

theorem packWord_shiftRight (h : lo < 2 ^ 24) : packWord hi lo >>> 24 = hi := by
  rw [packWord_eq_add h, shiftRight_eq_div_pow]
  omega

theorem packWord_and_high (h : lo < 2 ^ 24) (mask : ℕ) :
    packWord hi lo &&& mask <<< 24 = (hi &&& mask) <<< 24 := by
  have hlow : lo &&& mask <<< 24 = 0 := by
    apply eq_of_testBit_eq
    intro i
    rw [testBit_and, testBit_shiftLeft, zero_testBit]
    by_cases hi : i < 24
    · simp [not_le.mpr hi]
    · rw [Nat.testBit_lt_two_pow (h.trans_le (Nat.pow_le_pow_right (by decide) (by omega)))]
      rfl
  rw [packWord, and_or_distrib_right, hlow, or_zero, shiftLeft_and_distrib]

theorem shiftLeft_ne_zero_iff {a : ℕ} : a <<< 24 ≠ 0 ↔ a ≠ 0 := by
  rw [shiftLeft_eq]
  omega

theorem packWord_zero (lo : ℕ) : packWord 0 lo = lo := by
  rw [packWord, zero_shiftLeft, zero_or]

/-- Only the low bits of a word change when a state is replaced by an index. -/
theorem relinkWord_packWord {pi : List ℕ} {s index : ℕ} (hhi : hi < 256) (hs : s < 2 ^ 24)
    (hpi : pi[s]? = some index) : relinkWord pi (packWord hi s) = some (packWord hi index) := by
  have hmask : packWord hi s &&& 0xff000000 = hi <<< 24 := by
    show packWord hi s &&& 255 <<< 24 = hi <<< 24
    rw [packWord_and_high hs]
    congr 1
    exact (and_two_pow_sub_one_eq_mod hi 8).trans (mod_eq_of_lt hhi)
  rw [relinkWord, packWord_low hs, hpi, Option.map_some, hmask]
  rfl

/-! ## The control byte -/

/-- The high byte of the control word: the number of transitions or the bit for a
full row, and the match bit. -/
def controlByte (cb : ℕ) (isMatch : Bool) : ℕ :=
  cb ||| if isMatch then 0x80 else 0

theorem controlWord_eq (cb failState : ℕ) (isMatch : Bool) :
    controlWord (cb <<< 24) failState isMatch =
      packWord (controlByte cb isMatch) (failState &&& bnfaSparseMaxState) := by
  cases isMatch with
  | false => simp only [controlWord, controlByte, packWord, Bool.false_eq_true, if_false, or_zero]
  | true =>
    have hbit : bnfaSparseMatchBit = 0x80 <<< 24 := rfl
    simp only [controlWord, controlByte, packWord, if_true, hbit, shiftLeft_or_distrib]
    rw [Nat.or_assoc, Nat.or_assoc, Nat.or_comm (0x80 <<< 24)]

theorem controlByte_full (isMatch : Bool) :
    controlByte 0x40 isMatch < 256 ∧ controlByte 0x40 isMatch &&& 0x40 ≠ 0 ∧
      (controlByte 0x40 isMatch &&& 0x80 ≠ 0 ↔ isMatch = true) := by
  cases isMatch <;> decide

theorem controlByte_sparse {nc : ℕ} (hnc : nc ≤ 63) (isMatch : Bool) :
    controlByte nc isMatch < 256 ∧ controlByte nc isMatch &&& 0x40 = 0 ∧
      controlByte nc isMatch &&& 0x3f = nc ∧
      (controlByte nc isMatch &&& 0x80 ≠ 0 ↔ isMatch = true) := by
  have hall : ∀ nc : Fin 64, ∀ b : Bool, controlByte nc b < 256 ∧ controlByte nc b &&& 0x40 = 0 ∧
      controlByte nc b &&& 0x3f = nc ∧ (controlByte nc b &&& 0x80 ≠ 0 ↔ b = true) := by
    decide
  exact hall ⟨nc, by omega⟩ isMatch

/-! ## Searching a sorted row -/

/-- The words are in the order of their bytes, each byte once. -/
def KeySorted (words : List ℕ) : Prop :=
  words.Pairwise fun w w' => w >>> 24 < w' >>> 24

/-- `r` is what a search for `input` has to return. -/
def Finds (words : List ℕ) (input : ℕ) (r : Option (Option ℕ)) : Prop :=
  (∀ w ∈ words, w >>> 24 = input → r = some (some (w &&& bnfaSparseMaxState))) ∧
    ((∀ w ∈ words, w >>> 24 ≠ input) → r = some none)

theorem linearSearch_finds (input : ℕ) (words rest : List ℕ) (hs : KeySorted words) :
    Finds words input (linearSearch input words.length (words ++ rest)) := by
  induction words with
  | nil => exact ⟨fun w hw => absurd hw not_mem_nil, fun _ => rfl⟩
  | cons v words ih =>
    rw [KeySorted, pairwise_cons] at hs
    obtain ⟨hfound, hmiss⟩ := ih hs.2
    rw [length_cons, cons_append, linearSearch]
    by_cases hv : v >>> 24 = input
    · rw [if_pos hv]
      refine ⟨?_, fun h => absurd hv (h v (mem_cons_self ..))⟩
      intro w hw hkey
      rcases mem_cons.mp hw with rfl | hw
      · rfl
      · have := hs.1 w hw
        omega
    · rw [if_neg hv]
      refine ⟨?_, fun h => hmiss (fun w hw => h w (mem_cons_of_mem _ hw))⟩
      intro w hw hkey
      rcases mem_cons.mp hw with rfl | hw
      · exact absurd hkey hv
      · exact hfound w hw hkey

/-- The interval `[l, r]` keeps the position of the byte, if it has one. -/
theorem bnfaBinearch_spec (words rest : List ℕ) (val : ℕ) (hs : KeySorted words) :
    ∀ (size : ℕ) (l r : ℤ), (r - l + 1).toNat = size → 0 ≤ l → r < words.length →
    (∀ i (hi : i < words.length), words[i] >>> 24 = val → l ≤ i ∧ (i : ℤ) ≤ r) →
    ∃ found, bnfaBinearch (words ++ rest) val l r = some found ∧
      (found = none → ∀ w ∈ words, w >>> 24 ≠ val) ∧
      (∀ i, found = some i → ∃ hi : i < words.length, words[i] >>> 24 = val) := by
  have hmono : ∀ i j (hi : i < words.length) (hj : j < words.length), i < j →
      words[i] >>> 24 < words[j] >>> 24 := by
    intro i j hi hj hij
    exact pairwise_iff_getElem.mp hs i j hi hj hij
  intro size
  induction size using Nat.strong_induction_on with
  | _ size ih =>
    intro l r hsize hl hr hin
    rw [bnfaBinearch]
    by_cases hlr : r < l
    · rw [if_pos hlr]
      refine ⟨none, rfl, ?_, by simp⟩
      intro _ w hw hkey
      obtain ⟨i, hi, rfl⟩ := getElem_of_mem hw
      have := hin i hi hkey
      omega
    · rw [if_neg hlr]
      have hm : ((r + l) / 2).toNat < words.length := by omega
      have hget : (words ++ rest)[((r + l) / 2).toNat]? = some words[((r + l) / 2).toNat] := by
        rw [getElem?_append_left hm, getElem?_eq_getElem hm]
      simp only [hget]
      by_cases heq : val = words[((r + l) / 2).toNat] >>> 24
      · rw [if_pos heq]
        refine ⟨some _, rfl, by simp, ?_⟩
        intro i hi
        rw [Option.some.injEq] at hi
        subst hi
        exact ⟨hm, heq.symm⟩
      · rw [if_neg heq]
        by_cases hlt : val < words[((r + l) / 2).toNat] >>> 24
        · rw [if_pos hlt]
          refine ih _ ?_ l ((r + l) / 2 - 1) rfl hl (by omega) ?_
          · omega
          · intro i hi hkey
            have hbound := hin i hi hkey
            refine ⟨hbound.1, ?_⟩
            by_contra hgt
            have hle := lt_or_ge ((r + l) / 2).toNat i
            rcases hle with hle | hle
            · have := hmono _ i hm hi hle
              omega
            · have he : i = ((r + l) / 2).toNat := by omega
              subst he
              exact heq hkey.symm
        · rw [if_neg hlt]
          refine ih _ ?_ ((r + l) / 2 + 1) r rfl (by omega) hr ?_
          · omega
          · intro i hi hkey
            have hbound := hin i hi hkey
            refine ⟨?_, hbound.2⟩
            by_contra hgt
            rcases lt_or_ge i ((r + l) / 2).toNat with hle | hle
            · have := hmono i _ hi hm hle
              omega
            · have he : i = ((r + l) / 2).toNat := by omega
              subst he
              exact heq hkey.symm

/-- Both ways to search a sparse row find the word of the byte. -/
theorem rowTransition_sparse {words : List ℕ} (hs : KeySorted words) (hlen : words.length ≤ 63)
    (isMatch : Bool) (hfail : fail < 2 ^ 24) (sindex input : ℕ) (rest : List ℕ) :
    Finds words input (rowTransition sindex input
      (packWord (controlByte words.length isMatch) fail :: (words ++ rest))) := by
  obtain ⟨-, hfull, hcount, -⟩ := controlByte_sparse hlen isMatch
  have hcw : packWord (controlByte words.length isMatch) fail &&& bnfaSparseFullBit = 0 := by
    show _ &&& 0x40 <<< 24 = 0
    rw [packWord_and_high hfail, hfull]
    rfl
  have hnc : packWord (controlByte words.length isMatch) fail >>> 24 &&&
      bnfaSparseMaxRowTransitions = words.length := by
    rw [packWord_shiftRight hfail]
    exact hcount
  simp only [rowTransition, hcw, hnc, ne_eq, not_true_eq_false, if_false]
  by_cases hlin : words.length > bnfaSparseLinearSearchLimit
  · rw [if_pos hlin]
    obtain ⟨found, hbin, hnone, hsome⟩ := bnfaBinearch_spec words rest input hs _ 0
      (words.length - 1) rfl (Int.le_refl 0) (by omega) (fun i hi _ => by omega)
    rw [hbin]
    cases found with
    | none =>
      have hmiss := hnone rfl
      exact ⟨fun w hw hkey => absurd hkey (hmiss w hw), fun _ => rfl⟩
    | some i =>
      obtain ⟨hi, hkey⟩ := hsome i rfl
      simp only [getElem?_append_left hi, getElem?_eq_getElem hi, Option.map_some]
      refine ⟨?_, fun h => absurd hkey (h _ (getElem_mem hi))⟩
      intro w hw hkey'
      obtain ⟨j, hj, rfl⟩ := getElem_of_mem hw
      -- a byte occurs once, so both positions are the same
      have hji : j = i := by
        have hmono := pairwise_iff_getElem.mp hs
        rcases lt_trichotomy i j with hlt | heq | hgt
        · have := hmono i j hi hj hlt
          omega
        · exact heq.symm
        · have := hmono j i hj hi hgt
          omega
      subst hji
      rfl
  · rw [if_neg hlin]
    exact linearSearch_finds input words rest hs

theorem rowTransition_full (isMatch : Bool) (hfail : fail < 2 ^ 24)
    (sindex input : ℕ) (words : List ℕ) :
    rowTransition sindex input (packWord (controlByte 0x40 isMatch) fail :: words) =
      words[input]?.map fun w =>
        if sindex = 0 ∨ w &&& bnfaSparseMaxState ≠ 0 then some (w &&& bnfaSparseMaxState)
        else none := by
  have hcw : packWord (controlByte 0x40 isMatch) fail &&& bnfaSparseFullBit ≠ 0 := by
    show _ &&& 0x40 <<< 24 ≠ 0
    rw [packWord_and_high hfail, shiftLeft_ne_zero_iff]
    exact (controlByte_full isMatch).2.1
  rw [rowTransition, if_pos hcw]
end Snort.Bnfa
