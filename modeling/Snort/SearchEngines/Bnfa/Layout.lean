import Snort.SearchEngines.Bnfa.Csparse

/-!
# The layout of the compacted array

A row is described by its control byte and its entries, pairs of a high byte and
a state. Both passes write the same rows: the first one with the states, the
second one with the indices of their rows. Decoding a row gives back the
transitions of the list form.
-/

namespace Snort.Bnfa
open List Option Automata BnfaStruct

/-! ## Full rows -/

theorem getElem?_alphabet (c : UInt8) : alphabet[c.toNat]? = some c := by
  rw [alphabet, List.getElem?_map, getElem?_range c.toNat_lt, map_some, UInt8.ofNat_toNat]

variable (t : BnfaTransTable)

theorem length_convRowToFull (k : ℕ) : (convRowToFull t k).length = 256 := by
  unfold convRowToFull
  split
  · rw [length_map, alphabet, length_map, length_range]
  · exact TransList.length_convToFull _ _

theorem getElem?_convRowToFull (k : ℕ) (c : UInt8) :
    (convRowToFull t k)[c.toNat]? = some ((bnfaListGetNextState t k c).getD 0) := by
  unfold convRowToFull bnfaListGetNextState
  by_cases hk : k = 0
  · rw [if_pos hk, if_pos hk, List.getElem?_map, getElem?_alphabet]
    rfl
  · rw [if_neg hk, if_neg hk, TransList.getElem?_convToFull]
    cases (t.lists k).lookup c <;> rfl

theorem getD_convRowToFull (k : ℕ) (c : UInt8) :
    (convRowToFull t k).getD c.toNat 0 = (bnfaListGetNextState t k c).getD 0 := by
  rw [getD_eq_getElem?_getD, getElem?_convRowToFull, getD_some]

/-! ## Rows and their indices -/

section Rows
variable (bnfa : BnfaStruct)

/-- The index of the row of a state. -/
def BnfaStruct.rowIndex (k : ℕ) : ℕ :=
  ((range k).map bnfa.rowSize).sum

/-- The transitions of a row: the high byte of the word and the state. -/
def BnfaStruct.rowEntries (k : ℕ) : List (ℕ × ℕ) :=
  let full := convRowToFull bnfa.bnfaTransTable k
  if bnfa.isFull k then full.map fun s => (0, s)
  else (range 256).filterMap fun i =>
    if full.getD i 0 ≠ 0 then some (i, full.getD i 0) else none

def BnfaStruct.rowControl (k : ℕ) : ℕ :=
  controlByte
    (if bnfa.isFull k then 0x40 else countTransitions (convRowToFull bnfa.bnfaTransTable k))
    (!(bnfa.bnfaMatchList k).isEmpty)

/-- The row of a state, with `link` for what stands for a state. -/
def BnfaStruct.linkedRow (link : ℕ → ℕ) (k : ℕ) : List ℕ :=
  k :: packWord (bnfa.rowControl k) (link (bnfa.bnfaFailState k)) ::
    (bnfa.rowEntries k).map fun e => packWord e.1 (link e.2)

/-- What the passes rely on: state 0 is stored as a full row, and all states fit
into 24 bits. -/
structure BnfaStruct.Bounded : Prop where
  force : bnfa.bnfaForceFullZeroState = true
  numStates_le : bnfa.bnfaNumStates ≤ bnfaSparseMaxState
  cell_lt : ∀ k, k < bnfa.bnfaNumStates → ∀ s ∈ convRowToFull bnfa.bnfaTransTable k,
    s < bnfa.bnfaNumStates
  fail_lt : ∀ k, k < bnfa.bnfaNumStates → bnfa.bnfaFailState k < bnfa.bnfaNumStates

variable {bnfa} {k : ℕ}

section
variable (h : bnfa.Bounded)
include h

theorem BnfaStruct.Bounded.lt_pow {s : ℕ} (hs : s < bnfa.bnfaNumStates) : s < 2 ^ 24 := by
  have := h.numStates_le
  unfold bnfaSparseMaxState at this
  omega

section
variable (hk : k < bnfa.bnfaNumStates)
include hk

theorem BnfaStruct.Bounded.getD_lt (i : ℕ) :
    (convRowToFull bnfa.bnfaTransTable k).getD i 0 < bnfa.bnfaNumStates := by
  rw [getD_eq_getElem?_getD]
  cases hget : (convRowToFull bnfa.bnfaTransTable k)[i]? with
  | none => exact Nat.zero_lt_of_lt hk
  | some s => exact h.cell_lt k hk s (mem_of_getElem? hget)

theorem BnfaStruct.Bounded.cell_and (i : ℕ) :
    (convRowToFull bnfa.bnfaTransTable k).getD i 0 &&& bnfaSparseMaxState =
      (convRowToFull bnfa.bnfaTransTable k).getD i 0 :=
  and_bnfaSparseMaxState_of_lt (h.lt_pow (h.getD_lt hk i))

theorem BnfaStruct.Bounded.countTransitions_eq :
    countTransitions (convRowToFull bnfa.bnfaTransTable k) =
      ((range 256).filterMap fun i =>
        if (convRowToFull bnfa.bnfaTransTable k).getD i 0 ≠ 0 then
          some (i, (convRowToFull bnfa.bnfaTransTable k).getD i 0) else none).length := by
  rw [length_filterMap_eq_countP, countTransitions]
  refine countP_congr fun i _ => ?_
  rw [h.cell_and hk]
  simp

theorem BnfaStruct.Bounded.length_rowEntries : 2 + (bnfa.rowEntries k).length = bnfa.rowSize k := by
  rw [rowEntries, rowSize]
  by_cases hf : bnfa.isFull k = true
  · simp only [hf, if_true, length_map, length_convRowToFull]
  · simp only [hf, if_false, Bool.false_eq_true, h.countTransitions_eq hk]
end

theorem BnfaStruct.Bounded.length_linkedRow (link : ℕ → ℕ) (hk : k < bnfa.bnfaNumStates) :
    (bnfa.linkedRow link k).length = bnfa.rowSize k := by
  rw [← h.length_rowEntries hk, linkedRow, length_cons, length_cons, length_map]
  omega

/-- The first pass writes the rows with the states themselves. -/
theorem BnfaStruct.Bounded.csparseRow_eq (hk : k < bnfa.bnfaNumStates) :
    bnfa.csparseRow k = bnfa.linkedRow id k := by
  have hfail := and_bnfaSparseMaxState_of_lt (h.lt_pow (h.fail_lt k hk))
  unfold csparseRow linkedRow rowControl rowEntries
  by_cases hf : bnfa.isFull k = true
  · have hbit : bnfaSparseFullBit = 0x40 <<< 24 := rfl
    simp only [hf, if_true, hbit, controlWord_eq, hfail, List.map_map]
    have hid : ((fun e : ℕ × ℕ => packWord e.1 (id e.2)) ∘ fun s => (0, s)) = id := by
      funext s
      exact packWord_zero s
    rw [hid, List.map_id]
    rfl
  · simp only [hf, if_false, Bool.false_eq_true, controlWord_eq, hfail, sparseTransitions,
      h.cell_and hk, map_filterMap]
    rw [take_of_length_le]
    · congr 2
      refine filterMap_congr fun i _ => ?_
      by_cases h0 : (convRowToFull bnfa.bnfaTransTable k).getD i 0 ≠ 0
      · simp only [if_pos h0]
        rfl
      · simp only [if_neg h0]
        rfl
    · rw [h.countTransitions_eq hk, length_filterMap_eq_countP, length_filterMap_eq_countP]
      refine Nat.le_of_eq (countP_congr fun i _ => ?_)
      split <;> rfl
end

/-! ## The two passes -/

variable {k : ℕ}
variable (bnfa) in
theorem csparseRows_foldl (m : ℕ) : (range m).foldl
    (fun (acc : List ℕ × List ℕ) k => (acc.1 ++ bnfa.csparseRow k, acc.2 ++ [acc.1.length]))
      ([], []) =
    ((range m).flatMap bnfa.csparseRow,
      (range m).map fun k => ((range k).flatMap bnfa.csparseRow).length) := by
  induction m with
  | zero => rfl
  | succ m ih =>
    rw [range_succ, foldl_append, ih, flatMap_append, map_append]
    simp only [foldl_cons, foldl_nil, flatMap_cons, flatMap_nil, append_nil, map_cons, map_nil]

theorem BnfaStruct.rowControl_full (hf : bnfa.isFull k = true) :
    bnfa.rowControl k = controlByte 0x40 (!(bnfa.bnfaMatchList k).isEmpty) := by
  rw [rowControl, if_pos hf]

section
variable (h : bnfa.Bounded)
include h

theorem BnfaStruct.Bounded.length_flatMap (link : ℕ → ℕ) (hk : k ≤ bnfa.bnfaNumStates) :
    ((range k).flatMap (bnfa.linkedRow link)).length = bnfa.rowIndex k := by
  rw [List.length_flatMap, rowIndex]
  congr 1
  refine List.map_congr_left fun j hj => h.length_linkedRow link ?_
  rw [mem_range] at hj
  omega

theorem BnfaStruct.Bounded.csparseRows_eq :
    bnfa.csparseRows = ((range bnfa.bnfaNumStates).flatMap (bnfa.linkedRow id),
      (range bnfa.bnfaNumStates).map bnfa.rowIndex) := by
  have hrows : ∀ k, k ≤ bnfa.bnfaNumStates →
      (range k).flatMap bnfa.csparseRow = (range k).flatMap (bnfa.linkedRow id) := by
    intro k hk
    refine flatMap_congr fun j hj => h.csparseRow_eq ?_
    rw [mem_range] at hj
    omega
  refine (csparseRows_foldl bnfa bnfa.bnfaNumStates).trans ?_
  rw [hrows _ (Nat.le_refl _)]
  congr 1
  refine List.map_congr_left fun k hk => ?_
  have hle := Nat.le_of_lt (mem_range.mp hk)
  rw [hrows k hle, h.length_flatMap id hle]

variable (hk : k < bnfa.bnfaNumStates)
include hk

theorem BnfaStruct.Bounded.rowEntries_lt :
    ∀ e ∈ bnfa.rowEntries k, e.1 < 256 ∧ e.2 < bnfa.bnfaNumStates := by
  intro e he
  unfold rowEntries at he
  by_cases hf : bnfa.isFull k = true
  · simp only [hf, if_true] at he
    obtain ⟨s, hs, rfl⟩ := mem_map.mp he
    exact ⟨Nat.succ_pos 255, h.cell_lt k hk s hs⟩
  · simp only [hf, if_false, Bool.false_eq_true] at he
    obtain ⟨i, hi, hsome⟩ := mem_filterMap.mp he
    rw [ite_none_right_eq_some, some.injEq] at hsome
    rw [← hsome.2]
    exact ⟨mem_range.mp hi, h.getD_lt hk i⟩

theorem BnfaStruct.Bounded.rowControl_sparse (hf : ¬ bnfa.isFull k = true) :
    (bnfa.rowEntries k).length ≤ 63 ∧ bnfa.rowControl k =
        controlByte (bnfa.rowEntries k).length (!(bnfa.bnfaMatchList k).isEmpty) := by
  have hlen := h.length_rowEntries hk
  rw [rowSize, if_neg hf] at hlen
  have hnc : (bnfa.rowEntries k).length =
      countTransitions (convRowToFull bnfa.bnfaTransTable k) := by omega
  rw [rowControl, if_neg hf, hnc]
  refine ⟨?_, rfl⟩
  rw [isFull, Bool.or_eq_true, not_or, decide_eq_true_eq] at hf
  exact Nat.le_of_not_gt hf.2

/-- The second pass finds the length of a row in its control word. -/
theorem BnfaStruct.Bounded.rowControl_count {lo : ℕ} (hlo : lo < 2 ^ 24) :
    bnfa.rowControl k < 256 ∧
      (if packWord (bnfa.rowControl k) lo &&& bnfaSparseFullBit ≠ 0 then 256
        else (packWord (bnfa.rowControl k) lo &&& bnfaSparseCountBits) >>> 24) =
        (bnfa.rowEntries k).length := by
  have hfullBit : packWord (bnfa.rowControl k) lo &&& bnfaSparseFullBit =
      (bnfa.rowControl k &&& 0x40) <<< 24 := packWord_and_high hlo 0x40
  have hcountBits : packWord (bnfa.rowControl k) lo &&& bnfaSparseCountBits =
      (bnfa.rowControl k &&& 0x3f) <<< 24 := packWord_and_high hlo 0x3f
  have hlen := h.length_rowEntries hk
  rw [hfullBit, hcountBits]
  by_cases hf : bnfa.isFull k = true
  · obtain ⟨hlt, hbit, -⟩ := controlByte_full (!(bnfa.bnfaMatchList k).isEmpty)
    rw [rowSize, if_pos hf] at hlen
    rw [rowControl_full hf, if_pos (shiftLeft_ne_zero_iff.mpr hbit)]
    exact ⟨hlt, by omega⟩
  · obtain ⟨hle, hcb⟩ := h.rowControl_sparse hk hf
    obtain ⟨hlt, hbit, hcount, -⟩ := controlByte_sparse hle (!(bnfa.bnfaMatchList k).isEmpty)
    rw [hcb, hbit, hcount, Nat.shiftLeft_shiftRight]
    exact ⟨hlt, rfl⟩

theorem BnfaStruct.Bounded.rowControl_matchBit {lo : ℕ} (hlo : lo < 2 ^ 24) :
    packWord (bnfa.rowControl k) lo &&& bnfaSparseMatchBit ≠ 0 ↔ bnfa.bnfaMatchList k ≠ [] := by
  have hbit : packWord (bnfa.rowControl k) lo &&& bnfaSparseMatchBit =
      (bnfa.rowControl k &&& 0x80) <<< 24 := packWord_and_high hlo 0x80
  have hmatch : (!(bnfa.bnfaMatchList k).isEmpty) = true ↔ bnfa.bnfaMatchList k ≠ [] := by
    rw [Bool.not_eq_true', isEmpty_eq_false_iff]
  rw [hbit, shiftLeft_ne_zero_iff, ← hmatch]
  by_cases hf : bnfa.isFull k = true
  · rw [rowControl_full hf]
    exact (controlByte_full _).2.2
  · obtain ⟨hle, hcb⟩ := h.rowControl_sparse hk hf
    rw [hcb]
    exact (controlByte_sparse hle _).2.2.2
end

theorem mapM_map_eq_some {α β γ : Type*} {f : β → Option γ} {p : α → β} {q : α → γ} :
    ∀ {l : List α}, (∀ x ∈ l, f (p x) = some (q x)) → (l.map p).mapM f = some (l.map q)
  | [], _ => rfl
  | x :: l, h => by
      rw [map_cons, mapM_cons, h x (mem_cons_self ..),
        mapM_map_eq_some (fun y hy => h y (mem_cons_of_mem _ hy))]
      rfl

/-- The second pass replaces every state by the index of its row. -/
theorem BnfaStruct.Bounded.relinkRows_eq (h : bnfa.Bounded) (ks : List ℕ) :
    (∀ k ∈ ks, k < bnfa.bnfaNumStates) →
    relinkRows ((range bnfa.bnfaNumStates).map bnfa.rowIndex) ks.length
        (ks.flatMap (bnfa.linkedRow id)) =
      some (ks.flatMap (bnfa.linkedRow bnfa.rowIndex)) := by
  have hword : ∀ {hi s}, hi < 256 → s < bnfa.bnfaNumStates →
      relinkWord ((range bnfa.bnfaNumStates).map bnfa.rowIndex) (packWord hi s) =
        some (packWord hi (bnfa.rowIndex s)) := by
    intro hi s hhi hs
    refine relinkWord_packWord hhi (h.lt_pow hs) ?_
    rw [List.getElem?_map, getElem?_range hs, map_some]
  induction ks with
  | nil => intro _; rfl
  | cons k ks ih =>
    intro hks
    have hk := hks k (mem_cons_self ..)
    have hrest := ih (fun j hj => hks j (mem_cons_of_mem _ hj))
    obtain ⟨hcb, hcnt⟩ := h.rowControl_count hk (h.lt_pow (h.fail_lt k hk))
    have htrans := mapM_map_eq_some (fun e he =>
      hword (h.rowEntries_lt hk e he).1 (h.rowEntries_lt hk e he).2)
    set words := (bnfa.rowEntries k).map fun e => packWord e.1 e.2 with hwords
    have hlen : (bnfa.rowEntries k).length = words.length := by rw [hwords, length_map]
    rw [hlen] at hcnt
    show relinkRows _ (ks.length + 1) (k ::
      packWord (bnfa.rowControl k) (bnfa.bnfaFailState k) ::
        (words ++ ks.flatMap (bnfa.linkedRow id))) = _
    rw [relinkRows]
    simp only [hcnt, take_left, drop_left, htrans, hrest,
      hword hcb (h.fail_lt k hk), bind_some, map_some, length_append]
    rw [if_neg (by omega), flatMap_cons]
    rfl

/-! ## The finished array -/

theorem BnfaStruct.rowIndex_succ (k : ℕ) :
    bnfa.rowIndex (k + 1) = bnfa.rowIndex k + bnfa.rowSize k := by
  unfold rowIndex
  rw [range_succ, map_append, sum_append_nat, map_singleton, sum_singleton]

variable (bnfa) in
theorem BnfaStruct.rowIndex_strictMono : StrictMono bnfa.rowIndex := by
  refine strictMono_nat_of_lt_succ fun k => ?_
  rw [rowIndex_succ, rowSize]
  omega

theorem BnfaStruct.rowIndex_le (k : ℕ) : bnfa.rowIndex k ≤ 258 * k := by
  induction k with
  | zero => exact Nat.le_refl _
  | succ k ih =>
    have hcount : countTransitions (convRowToFull bnfa.bnfaTransTable k) ≤ 256 := by
      refine countP_le_length.trans ?_
      rw [length_range]
    rw [rowIndex_succ, rowSize]
    split <;> omega

variable {k : ℕ}
variable (bnfa) in
/-- The array after both passes. -/
def BnfaStruct.linkedArray : List ℕ :=
  (range bnfa.bnfaNumStates).flatMap (bnfa.linkedRow bnfa.rowIndex)

/-- Compaction fails exactly if the indices do not fit into 24 bits. -/
theorem BnfaStruct.Bounded.conv_eq (h : bnfa.Bounded) :
    bnfaConvListToCsparseArray bnfa =
      if bnfa.rowIndex bnfa.bnfaNumStates > bnfaSparseMaxState then none
      else some bnfa.linkedArray := by
  have hlen := h.length_flatMap id (Nat.le_refl _)
  have hpi : ((range bnfa.bnfaNumStates).map bnfa.rowIndex).any
      (fun index => decide (index ≥ bnfa.rowIndex bnfa.bnfaNumStates)) = false := by
    rw [List.any_eq_false]
    intro index hindex
    obtain ⟨k, hk, rfl⟩ := mem_map.mp hindex
    have := bnfa.rowIndex_strictMono (mem_range.mp hk)
    rw [decide_eq_true_eq]
    omega
  have hrelink := h.relinkRows_eq (range bnfa.bnfaNumStates) (fun k hk => mem_range.mp hk)
  rw [length_range] at hrelink
  have hnps : ((range bnfa.bnfaNumStates).map bnfa.rowSize).sum =
      bnfa.rowIndex bnfa.bnfaNumStates := rfl
  unfold bnfaConvListToCsparseArray
  simp only [hnps, h.csparseRows_eq, hlen, hrelink, hpi, gt_iff_lt, Nat.lt_irrefl, if_false,
    Bool.false_eq_true]
  rfl

section
variable (h : bnfa.Bounded) (hk : k < bnfa.bnfaNumStates)
include h hk

theorem BnfaStruct.Bounded.drop_linkedArray : ∃ rest,
    bnfa.linkedArray.drop (bnfa.rowIndex k) = bnfa.linkedRow bnfa.rowIndex k ++ rest := by
  have hsplit : range bnfa.bnfaNumStates =
      range k ++ (k :: List.range' (k + 1) (bnfa.bnfaNumStates - k - 1)) := by
    rw [range_eq_range', range_eq_range', ← range'_succ, Nat.sub_add_cancel (by omega)]
    have happend : List.range' 0 k ++ List.range' (0 + k) (bnfa.bnfaNumStates - k) =
        List.range' 0 (k + (bnfa.bnfaNumStates - k)) := range'_append_1
    rw [Nat.zero_add, Nat.add_sub_cancel' (Nat.le_of_lt hk)] at happend
    exact happend.symm
  have hdrop : bnfa.linkedArray.drop (bnfa.rowIndex k) =
      bnfa.linkedRow bnfa.rowIndex k ++ (List.range' (k + 1) (bnfa.bnfaNumStates - k - 1)).flatMap
        (bnfa.linkedRow bnfa.rowIndex) := by
    rw [linkedArray, hsplit, flatMap_append, flatMap_cons]
    exact drop_left' (h.length_flatMap bnfa.rowIndex (Nat.le_of_lt hk))
  exact ⟨_, hdrop⟩

theorem BnfaStruct.Bounded.getElem?_linkedArray :
    bnfa.linkedArray[bnfa.rowIndex k]? = some k ∧ bnfa.linkedArray[bnfa.rowIndex k + 1]? =
        some (packWord (bnfa.rowControl k) (bnfa.rowIndex (bnfa.bnfaFailState k))) := by
  obtain ⟨rest, hdrop⟩ := h.drop_linkedArray hk
  have hget : ∀ i, bnfa.linkedArray[bnfa.rowIndex k + i]? =
      (bnfa.linkedRow bnfa.rowIndex k ++ rest)[i]? := by
    intro i
    rw [← hdrop, getElem?_drop]
  exact ⟨hget 0, hget 1⟩
end

/-! ## Decoding -/

/-- The array fits, and no list has a transition to state 0. -/
structure BnfaStruct.Linked (bnfa : BnfaStruct) : Prop extends bnfa.Bounded where
  fits : bnfa.rowIndex bnfa.bnfaNumStates ≤ bnfaSparseMaxState
  lookup_ne_zero : ∀ k, k < bnfa.bnfaNumStates → k ≠ 0 → ∀ c m,
    bnfaListGetNextState bnfa.bnfaTransTable k c = some m → m ≠ 0

theorem BnfaStruct.rowIndex_ne_zero (hk : k ≠ 0) : bnfa.rowIndex k ≠ 0 := by
  have := bnfa.rowIndex_strictMono (Nat.pos_of_ne_zero hk)
  omega

section
variable (h : bnfa.Linked) (hk : k < bnfa.bnfaNumStates)
include h hk

theorem BnfaStruct.Linked.rowIndex_lt : bnfa.rowIndex k < 2 ^ 24 := by
  have hlt := bnfa.rowIndex_strictMono hk
  have hfits := h.fits
  unfold bnfaSparseMaxState at hfits
  omega

theorem BnfaStruct.Linked.getNextState_lt (c : UInt8) :
    (bnfaListGetNextState bnfa.bnfaTransTable k c).getD 0 < bnfa.bnfaNumStates := by
  rw [← getD_convRowToFull]
  exact h.getD_lt hk _

theorem BnfaStruct.Linked.rowTransition_full (hf : bnfa.isFull k = true) (c : UInt8)
    (rest : List ℕ) :
    rowTransition (bnfa.rowIndex k) c.toNat ((bnfa.linkedRow bnfa.rowIndex k ++ rest).drop 1) =
      some ((bnfaListGetNextState bnfa.bnfaTransTable k c).map bnfa.rowIndex) := by
  have hcell := h.rowIndex_lt (h.getNextState_lt hk c)
  have hentries : bnfa.rowEntries k =
      (convRowToFull bnfa.bnfaTransTable k).map fun s => (0, s) := by
    simp only [rowEntries, hf, if_true]
  have hword : ((bnfa.rowEntries k).map (fun e => packWord e.1 (bnfa.rowIndex e.2)) ++
      rest)[c.toNat]? = some (packWord 0 (bnfa.rowIndex
        ((bnfaListGetNextState bnfa.bnfaTransTable k c).getD 0))) := by
    rw [getElem?_append_left (by
      rw [hentries, length_map, length_map, length_convRowToFull]
      exact c.toNat_lt), hentries, List.map_map, List.getElem?_map, getElem?_convRowToFull]
    rfl
  show rowTransition _ _ (packWord (bnfa.rowControl k) _ :: (_ ++ rest)) = _
  rw [rowControl_full hf, Bnfa.rowTransition_full _
    (h.rowIndex_lt (h.fail_lt k hk)), hword, map_some, packWord_low hcell]
  by_cases h0 : k = 0
  · subst h0
    rfl
  · cases hget : bnfaListGetNextState bnfa.bnfaTransTable k c with
    | none =>
      rw [if_neg (by
        rw [not_or]
        exact ⟨rowIndex_ne_zero h0, not_not.mpr rfl⟩)]
      rfl
    | some m =>
      have hm := h.lookup_ne_zero k hk h0 c m hget
      rw [getD_some, if_pos (.inr (rowIndex_ne_zero hm))]
      rfl

theorem BnfaStruct.Linked.rowTransition_sparse (hf : ¬ bnfa.isFull k = true) (c : UInt8)
    (rest : List ℕ) :
    rowTransition (bnfa.rowIndex k) c.toNat ((bnfa.linkedRow bnfa.rowIndex k ++ rest).drop 1) =
      some ((bnfaListGetNextState bnfa.bnfaTransTable k c).map bnfa.rowIndex) := by
  have h0 : k ≠ 0 := by
    rintro rfl
    refine hf ?_
    rw [isFull, h.force]
    rfl
  obtain ⟨hlen, hcb⟩ := h.rowControl_sparse hk hf
  have hentry : ∀ e, e ∈ bnfa.rowEntries k ↔ e.1 < 256 ∧ e.2 ≠ 0 ∧
      e.2 = (convRowToFull bnfa.bnfaTransTable k).getD e.1 0 := by
    intro e
    simp only [rowEntries, hf, if_false, Bool.false_eq_true, mem_filterMap,
      mem_range, ite_none_right_eq_some, some.injEq]
    constructor
    · rintro ⟨i, hi, hne, rfl⟩
      exact ⟨hi, hne, rfl⟩
    · rintro ⟨hi, hne, he⟩
      rw [he] at hne
      exact ⟨e.1, hi, hne, by rw [← he]⟩
  set words := (bnfa.rowEntries k).map fun e => packWord e.1 (bnfa.rowIndex e.2) with hwords
  have hkey : ∀ e ∈ bnfa.rowEntries k, packWord e.1 (bnfa.rowIndex e.2) >>> 24 = e.1 :=
    fun e he => packWord_shiftRight (h.rowIndex_lt (h.rowEntries_lt hk e he).2)
  have hsorted : KeySorted words := by
    have hpairs : (bnfa.rowEntries k).Pairwise fun e e' => e.1 < e'.1 := by
      simp only [rowEntries, hf, if_false, Bool.false_eq_true]
      refine List.Pairwise.filterMap _ ?_ pairwise_lt_range
      intro i j hij e he e' he'
      rw [ite_none_right_eq_some, some.injEq] at he he'
      rw [← he.2, ← he'.2]
      exact hij
    refine pairwise_map.mpr (hpairs.imp_of_mem ?_)
    intro e e' he he' hlt
    rwa [hkey e he, hkey e' he']
  have hwlen : words.length = (bnfa.rowEntries k).length := by rw [hwords, length_map]
  obtain ⟨hfound, hmiss⟩ := Bnfa.rowTransition_sparse hsorted (by rw [hwlen]; exact hlen)
    (!(bnfa.bnfaMatchList k).isEmpty) (h.rowIndex_lt (h.fail_lt k hk)) (bnfa.rowIndex k)
    c.toNat rest
  rw [hwlen, ← hcb] at hfound hmiss
  have hcell := getD_convRowToFull bnfa.bnfaTransTable k c
  cases hget : bnfaListGetNextState bnfa.bnfaTransTable k c with
  | some m =>
    rw [hget, getD_some] at hcell
    have hm := h.lookup_ne_zero k hk h0 c m hget
    have he : (c.toNat, m) ∈ bnfa.rowEntries k :=
      (hentry _).mpr ⟨c.toNat_lt, hm, hcell.symm⟩
    have hword := hfound _ (mem_map_of_mem he) (hkey _ he)
    rw [packWord_low (h.rowIndex_lt (h.rowEntries_lt hk _ he).2)] at hword
    exact hword
  | none =>
    rw [hget, getD_none] at hcell
    refine hmiss ?_
    intro w hw hkeyw
    obtain ⟨e, he, rfl⟩ := mem_map.mp hw
    rw [hkey e he] at hkeyw
    obtain ⟨-, hne, hval⟩ := (hentry e).mp he
    rw [hkeyw, hcell] at hval
    exact hne hval
end

/-- Decoding the array follows the failure states of the list form. -/
theorem BnfaStruct.Linked.getNextState_eq (h : bnfa.Linked) (c : UInt8) :
    ∀ fuel k, k < bnfa.bnfaNumStates →
      bnfaGetNextStateCsparseNfa bnfa.linkedArray c.toNat fuel (bnfa.rowIndex k) =
        (chase (bnfaListGetNextState bnfa.bnfaTransTable) bnfa.bnfaFailState c fuel k).map
          bnfa.rowIndex := by
  intro fuel
  induction fuel with
  | zero => intro k _; rfl
  | succ fuel ih =>
    intro k hk
    obtain ⟨rest, hdrop⟩ := h.drop_linkedArray hk
    have hrow : rowTransition (bnfa.rowIndex k) c.toNat
        (bnfa.linkedArray.drop (bnfa.rowIndex k + 1)) =
        some ((bnfaListGetNextState bnfa.bnfaTransTable k c).map bnfa.rowIndex) := by
      rw [← drop_drop, hdrop]
      by_cases hf : bnfa.isFull k = true
      · exact h.rowTransition_full hk hf c rest
      · exact h.rowTransition_sparse hk hf c rest
    have hfail : bnfa.linkedArray.getD (bnfa.rowIndex k + 1) 0 &&& bnfaSparseMaxState =
        bnfa.rowIndex (bnfa.bnfaFailState k) := by
      rw [getD_eq_getElem?_getD, (h.getElem?_linkedArray hk).2, getD_some,
        packWord_low (h.rowIndex_lt (h.fail_lt k hk))]
    rw [bnfaGetNextStateCsparseNfa, chase, hrow, hfail]
    cases bnfaListGetNextState bnfa.bnfaTransTable k c with
    | some m => rfl
    | none => exact ih _ (h.fail_lt k hk)
end Rows
end Snort.Bnfa
