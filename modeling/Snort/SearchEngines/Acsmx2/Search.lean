import Snort.SearchEngines.Acsmx2.Formats

/-!
# Compilation and search in `acsmx2.cc`

The finished lists are stored row by row in the chosen format, the match flags
are set, and the lists are freed. Each storage has its own search: full and
banded rows report a state before the transition out of it and once more at the
end of the text, sparse rows and the NFA report after the transition.
-/

namespace Snort.Acsmx2
open Automata
open Option (some.injEq)

/-! ## Storing the rows -/

variable {n s : ℕ} {ps : List AcsmPattern2} {lab : ℕ → List UInt8} {mlist : ℕ → List AcsmPattern2}
  {fail : ℕ → ℕ} {nfa dfa : ℕ → TransList} {acsm : AcsmStruct2}

/-- The rows of all states, or `none` if one of them cannot be stored. -/
def convRows (acsm : AcsmStruct2) (row : ℕ → List ℕ → Option (List ℕ)) : Option (ℕ → List ℕ) :=
  let full := fun k => (acsm.acsmTransTable k).convToFull (narrow acsm.sizeofstate)
  if (List.range acsm.acsmNumStates).all (fun k => (row k (full k)).isSome) then
    some (fun k => if k < acsm.acsmNumStates then (row k (full k)).getD [] else [])
  else none

def convListToFull (acsm : AcsmStruct2) : Option (ℕ → List ℕ) :=
  convRows acsm (fun _ full => some (acfFull :: 0 :: full))

def convFullDFAToSparse (acsm : AcsmStruct2) : Option (ℕ → List ℕ) :=
  convRows acsm (fun k full => some (sparseRow acsm.acsmSparseMaxRowNodes k full))

def convFullDFAToBanded (acsm : AcsmStruct2) : Option (ℕ → List ℕ) :=
  convRows acsm (fun _ full => some (bandedRow full))

def convFullDFAToSparseBands (acsm : AcsmStruct2) : Option (ℕ → List ℕ) :=
  convRows acsm (fun _ full => sparseBandsRow acsm.acsmSparseMaxZcnt full)

/-- The selection of the storage. -/
def convToFormat (acsm : AcsmStruct2) : Option (ℕ → List ℕ) :=
  match acsm.acsmFormat with
  | .sparse => convFullDFAToSparse acsm
  | .banded => convFullDFAToBanded acsm
  | .sparseBands => convFullDFAToSparseBands acsm
  | .full _ => convListToFull acsm

/-- `acsmUpdateMatchStates`: word 1 of a row is its match flag. -/
def acsmUpdateMatchStates (acsm : AcsmStruct2) : AcsmStruct2 :=
  { acsm with
    acsmNextState := fun state =>
      if state < acsm.acsmNumStates ∧ acsm.acsmMatchList state ≠ [] then
        (acsm.acsmNextState state).set 1 1
      else acsm.acsmNextState state }

/-- `_acsmCompile2`. -/
def acsmCompile2 (acsm : AcsmStruct2) : Option AcsmStruct2 :=
  (acsmBuildLists acsm).bind fun acsm =>
    (convToFormat acsm).map fun rows =>
      { acsmUpdateMatchStates { acsm with acsmNextState := rows } with
        acsmTransTable := fun _ => TransList.empty }

/-! ## Searches -/

/-- `MatchList[state]` is not null. -/
def AcsmStruct2.isMatch (acsm : AcsmStruct2) (state : ℕ) : Bool :=
  !(acsm.acsmMatchList state).isEmpty

/-- The match flag of the row is tested before the list. -/
def AcsmStruct2.isFlagged (acsm : AcsmStruct2) (state : ℕ) : Bool :=
  (acsm.acsmNextState state).getD 1 0 != 0 && acsm.isMatch state

/-- The check of the last state after a loop that was not left early. -/
def checkLast {κ : Type*} (hit : ℕ → Bool) (mtch : MpseMatch ℕ κ) (index : ℕ) (r : Scan κ) :
    Scan κ :=
  if r.stopped then r
  else if hit r.state then
    let m := mtch r.state index r.context
    ⟨decide (0 < m.1), r.state, r.nfound + 1, m.2⟩
  else r

def AcsmStruct2.stepFull (acsm : AcsmStruct2) (state : ℕ) (c : UInt8) : Option ℕ :=
  (acsm.acsmNextState state)[2 + (xlatcase c).toNat]?

def AcsmStruct2.stepSparse (acsm : AcsmStruct2) (state : ℕ) (c : UInt8) : Option ℕ :=
  sparseGetNextStateDFA (acsm.acsmNextState state) (xlatcase c).toNat

def AcsmStruct2.stepBanded (acsm : AcsmStruct2) (state : ℕ) (c : UInt8) : Option ℕ :=
  bandedGetNextState (acsm.acsmNextState state) (xlatcase c).toNat

/-- The loop `while ((nstate = get_next_state_nfa(...)) == ACSM_FAIL_STATE2)`. -/
def nfaNext (rows : ℕ → List ℕ) (failState : ℕ → ℕ) (c : UInt8) : ℕ → ℕ → Option ℕ
  | 0, _ => none
  | fuel + 1, state =>
    match getNextStateNfa (rows state) state c.toNat with
    | none => none
    | some (some nstate) => some nstate
    | some none => nfaNext rows failState c fuel (failState state)

/-- One text byte of `acsm_search_nfa`. No failure chain is longer than the
number of states. -/
def AcsmStruct2.stepNfa (acsm : AcsmStruct2) (state : ℕ) (c : UInt8) : Option ℕ :=
  acsm.acsmFailState.bind fun failState =>
    nfaNext acsm.acsmNextState failState (xlatcase c) acsm.acsmNumStates state

section Searches
variable {κ : Type*} (acsm : AcsmStruct2) (Tx : List UInt8) (mtch : MpseMatch ℕ κ)
  (context : κ) (current_state : Option ℕ)

/-- `acsm_search_dfa_sparse`. -/
def acsmSearchDfaSparse : Option (SearchResult κ) :=
  match current_state with
  | none => some ⟨0, context, none⟩
  | some state =>
    (scanAfter acsm.stepSparse acsm.isFlagged mtch Tx 0 state 0 context).map
      fun r => ⟨r.nfound, r.context, some r.state⟩

/-- `acsm_search_dfa_full`. -/
def acsmSearchDfaFull : Option (SearchResult κ) :=
  match current_state with
  | none => some ⟨0, context, none⟩
  | some state =>
    (scanBefore acsm.stepFull acsm.isFlagged mtch Tx 0 state 0 context).map fun r =>
      let r := checkLast acsm.isMatch mtch Tx.length r
      ⟨r.nfound, r.context, some r.state⟩

/-- `acsm_search_dfa_banded`; only an early exit stores the state. -/
def acsmSearchDfaBanded : Option (SearchResult κ) :=
  match current_state with
  | none => some ⟨0, context, none⟩
  | some state =>
    (scanBefore acsm.stepBanded acsm.isFlagged mtch Tx 0 state 0 context).map fun r =>
      let r := checkLast acsm.isMatch mtch Tx.length r
      ⟨r.nfound, r.context, some (if r.stopped then r.state else state)⟩

/-- `acsm_search_nfa`; only an early exit stores the state. -/
def acsmSearchNfa : Option (SearchResult κ) :=
  match current_state with
  | none => some ⟨0, context, none⟩
  | some state =>
    (scanAfter acsm.stepNfa acsm.isMatch mtch Tx 0 state 0 context).map fun r =>
      ⟨r.nfound, r.context, some (if r.stopped then r.state else state)⟩

/-- `_search` of the engine of each format. The one with banded rows has no
search for the NFA. -/
def mpseSearch : Option (SearchResult κ) :=
  match acsm.acsmFormat with
  | .banded => acsmSearchDfaBanded acsm Tx mtch context current_state
  | .full _ =>
    if acsm.dfa then acsmSearchDfaFull acsm Tx mtch context current_state
    else acsmSearchNfa acsm Tx mtch context current_state
  | _ =>
    if acsm.dfa then acsmSearchDfaSparse acsm Tx mtch context current_state
    else acsmSearchNfa acsm Tx mtch context current_state
end Searches

/-! ## The stored rows -/

/-- The encoding of one full row. -/
def AcsmStruct2.formatRow (acsm : AcsmStruct2) (k : ℕ) (full : List ℕ) : Option (List ℕ) :=
  match acsm.acsmFormat with
  | .sparse => some (sparseRow acsm.acsmSparseMaxRowNodes k full)
  | .banded => some (bandedRow full)
  | .sparseBands => sparseBandsRow acsm.acsmSparseMaxZcnt full
  | .full _ => some (acfFull :: 0 :: full)

theorem convToFormat_eq (acsm : AcsmStruct2) :
    convToFormat acsm = convRows acsm acsm.formatRow := by
  unfold convToFormat
  have h : acsm.formatRow = fun k full => acsm.formatRow k full := rfl
  unfold AcsmStruct2.formatRow
  cases acsm.acsmFormat <;> rfl

/-- Every full row can be stored, with a clear match flag in word 1. -/
theorem formatRow_shape (acsm : AcsmStruct2) (k : ℕ) {full : List ℕ} (hlen : full.length = 256) :
    ∃ fmt body, acsm.formatRow k full = some (fmt :: 0 :: body) := by
  unfold AcsmStruct2.formatRow
  cases acsm.acsmFormat with
  | full compressStates => exact ⟨_, _, rfl⟩
  | sparse =>
    simp only [sparseRow]
    split
    · exact ⟨_, _, rfl⟩
    · exact ⟨_, _, rfl⟩
  | banded => exact ⟨_, _, rfl⟩
  | sparseBands => exact ⟨_, _, sparseBandsRow_eq hlen _⟩

/-- The cast to a compressed cell loses nothing: the size is chosen by the number
of states. -/
theorem narrow_sizeofState (format : AcsmFormat) {m : ℕ} (hm : m < n) :
    narrow (sizeofState format n) m = m := by
  unfold sizeofState
  split
  · split
    · exact Nat.mod_eq_of_lt (by omega)
    · split
      · exact Nat.mod_eq_of_lt (by omega)
      · rfl
  · rfl

/-- A compiled automaton: the rows hold the lists of `table` in the chosen
format, and the match flags agree with the match lists. -/
structure AcsmStruct2.Stored (acsm : AcsmStruct2) (n : ℕ) (mlist : ℕ → List AcsmPattern2)
    (failState : Option (ℕ → ℕ)) (table : ℕ → TransList) : Prop where
  numStates : acsm.acsmNumStates = n
  matchList : acsm.acsmMatchList = mlist
  failState_eq : acsm.acsmFailState = failState
  rows : ∀ s, s < n → ∃ row full, full.length = 256 ∧
    (∀ c : UInt8, full.getD c.toNat 0 = listGetNextState2 table s c) ∧
    acsm.formatRow s full = some row ∧
    acsm.acsmNextState s = row.set 1 (if mlist s = [] then 0 else 1)

theorem convRows_eq (acsm : AcsmStruct2) (row : ℕ → List ℕ → Option (List ℕ))
    (h : ∀ k full, full.length = 256 → (row k full).isSome) :
    convRows acsm row = some (fun k => if k < acsm.acsmNumStates then
      (row k ((acsm.acsmTransTable k).convToFull (narrow acsm.sizeofstate))).getD [] else []) := by
  refine if_pos ?_
  rw [List.all_eq_true]
  intro k _
  exact h k _ (TransList.length_convToFull _ _)

theorem acsmCompile2_stored (h : IsListBuild ps n lab mlist fail nfa dfa)
    (hbuild : acsmBuildLists acsm = some (acsm.withLists n mlist fail nfa dfa)) :
    ∃ acsm', acsmCompile2 acsm = some acsm' ∧ acsm'.acsmFormat = acsm.acsmFormat ∧
      acsm'.dfa = acsm.dfa ∧ acsm'.Stored n mlist (if acsm.dfa then none else some fail)
        (if acsm.dfa then dfa else nfa) := by
  have hcell : ∀ s, s < n → ∀ c m,
      ((if acsm.dfa then dfa else nfa) s).lookup c = some m → m ≠ 0 ∧ m < n := by
    split
    · exact h.dfa_cell
    · exact h.nfa_cell
  set table := if acsm.dfa then dfa else nfa with htable
  set lists := acsm.withLists n mlist fail nfa dfa with hlists
  have hsome : ∀ k full, full.length = 256 → (lists.formatRow k full).isSome := by
    intro k full hlen
    obtain ⟨fmt, body, he⟩ := formatRow_shape lists k hlen
    rw [he]
    rfl
  unfold acsmCompile2
  rw [hbuild, Option.bind_some, convToFormat_eq, convRows_eq lists _ hsome, Option.map_some]
  refine ⟨_, rfl, rfl, rfl, rfl, rfl, rfl, ?_⟩
  intro s hs
  set full := (table s).convToFull (narrow (sizeofState acsm.acsmFormat n)) with hfull
  have hlen : full.length = 256 := TransList.length_convToFull _ _
  obtain ⟨fmt, body, hrow⟩ := formatRow_shape lists s hlen
  refine ⟨fmt :: 0 :: body, full, hlen, ?_, hrow, ?_⟩
  · intro c
    rw [List.getD_eq_getElem?_getD, hfull, TransList.getElem?_convToFull, Option.getD_some,
      listGetNextState2]
    cases hl : (table s).lookup c with
    | none => rfl
    | some m => exact narrow_sizeofState _ (hcell s hs c m hl).2
  · have hstored : (if s < n then (lists.formatRow s full).getD [] else []) = fmt :: 0 :: body := by
      rw [if_pos hs, hrow, Option.getD_some]
    show (if s < n ∧ mlist s ≠ [] then
      (if s < n then (lists.formatRow s full).getD [] else []).set 1 1
      else (if s < n then (lists.formatRow s full).getD [] else [])) = _
    rw [hstored]
    by_cases hm : mlist s = []
    · rw [if_neg (fun hc => hc.2 hm), if_pos hm]
      rfl
    · rw [if_pos ⟨hs, hm⟩, if_neg hm]

/-! ## The transitions of the searches -/

namespace AcsmStruct2.Stored
variable {acsm : AcsmStruct2} {n : ℕ} {mlist : ℕ → List AcsmPattern2}
  {failState : Option (ℕ → ℕ)} {table : ℕ → TransList} {s : ℕ}

section
variable (h : acsm.Stored n mlist failState table)
include h

theorem isFlagged_eq (hs : s < n) : acsm.isFlagged s = acsm.isMatch s := by
  obtain ⟨row, full, hlen, -, hrow, hnext⟩ := h.rows s hs
  obtain ⟨fmt, body, hshape⟩ := formatRow_shape acsm s hlen
  rw [hrow, some.injEq] at hshape
  subst hshape
  have hflag : (acsm.acsmNextState s).getD 1 0 = if mlist s = [] then 0 else 1 := by
    rw [hnext]
    rfl
  rw [isFlagged, hflag, isMatch, h.matchList]
  by_cases hm : mlist s = []
  · simp [hm]
  · simp [hm]

theorem stepFull_eq {compress : Bool} (hf : acsm.acsmFormat = .full compress) (hs : s < n)
    (c : UInt8) : acsm.stepFull s c = some (listGetNextState2 table s (xlatcase c)) := by
  obtain ⟨row, full, hlen, hcell, hrow, hnext⟩ := h.rows s hs
  rw [formatRow, hf, some.injEq] at hrow
  rw [stepFull, hnext, ← hrow, ← hcell, Nat.add_comm]
  exact getElem?_full hlen _

theorem stepSparse_eq (hf : acsm.acsmFormat = .sparse ∨ acsm.acsmFormat = .sparseBands) (hs : s < n)
    (c : UInt8) : acsm.stepSparse s c = some (listGetNextState2 table s (xlatcase c)) := by
  obtain ⟨row, full, hlen, hcell, hrow, hnext⟩ := h.rows s hs
  rw [stepSparse, hnext, ← hcell]
  rcases hf with hf | hf
  · rw [formatRow, hf, some.injEq] at hrow
    rw [← hrow]
    exact sparseGetNextStateDFA_sparseRow hlen _ _ _ _
  · rw [formatRow, hf] at hrow
    exact sparseGetNextStateDFA_sparseBandsRow hlen _ _ _ hrow

theorem stepBanded_eq (hf : acsm.acsmFormat = .banded) (hs : s < n) (c : UInt8) :
    acsm.stepBanded s c = some (listGetNextState2 table s (xlatcase c)) := by
  obtain ⟨row, full, hlen, hcell, hrow, hnext⟩ := h.rows s hs
  rw [formatRow, hf, some.injEq] at hrow
  rw [stepBanded, hnext, ← hrow, ← hcell]
  exact bandedGetNextState_bandedRow hlen _ _
end

/-- The formats whose rows `get_next_state_nfa` decodes. -/
def NfaFormat (format : AcsmFormat) : Prop :=
  format = .full false ∨ format = .sparse ∨ format = .sparseBands

theorem getNextStateNfa_eq (h : acsm.Stored n mlist failState table)
    (hf : NfaFormat acsm.acsmFormat) (hs : s < n) (c : UInt8) :
    getNextStateNfa (acsm.acsmNextState s) s c.toNat =
      some (nfaCell s (listGetNextState2 table s c)) := by
  obtain ⟨row, full, hlen, hcell, hrow, hnext⟩ := h.rows s hs
  rw [hnext, ← hcell]
  rcases hf with hf | hf | hf
  · rw [formatRow, hf, some.injEq] at hrow
    rw [← hrow]
    exact getNextStateNfa_fullRow hlen _ _ _
  · rw [formatRow, hf, some.injEq] at hrow
    rw [← hrow]
    exact getNextStateNfa_sparseRow hlen _ _ _ _
  · rw [formatRow, hf] at hrow
    exact getNextStateNfa_sparseBandsRow hlen _ _ _ _ hrow
end AcsmStruct2.Stored

theorem nfaCell_listGetNextState2 {table : ℕ → TransList} {c : UInt8}
    (h : ∀ m, (table s).lookup c = some m → m ≠ 0) :
    nfaCell s (listGetNextState2 table s c) = listGetNextState table s c := by
  unfold nfaCell listGetNextState2 listGetNextState
  cases hl : (table s).lookup c with
  | some m => simp [h m hl]
  | none => by_cases hs : s = 0 <;> simp [hs]

/-- The failure loop of the search is the one of the lists, so it ends. -/
theorem AcsmStruct2.Stored.stepNfa_eq (h : acsm.Stored n mlist (some fail) nfa)
    (hb : IsListBuild ps n lab mlist fail nfa dfa)
    (hf : AcsmStruct2.Stored.NfaFormat acsm.acsmFormat) (hs : s < n) (c : UInt8) :
    acsm.stepNfa s c = some (listGetNextState2 dfa s (xlatcase c)) := by
  have hloop : ∀ fuel s, s < n → nfaNext acsm.acsmNextState fail (xlatcase c) fuel s =
      chase (listGetNextState nfa) fail (xlatcase c) fuel s := by
    intro fuel
    induction fuel with
    | zero => intro s _; rfl
    | succ fuel ih =>
      intro s hs
      rw [nfaNext, chase, h.getNextStateNfa_eq hf hs,
        nfaCell_listGetNextState2 (fun m hm => (hb.nfa_cell s hs _ m hm).1)]
      cases listGetNextState nfa s (xlatcase c) with
      | some t => rfl
      | none => exact ih (fail s) (hb.fail_lt s hs)
  rw [AcsmStruct2.stepNfa, h.failState_eq, Option.bind_some, h.numStates, hloop n s hs,
    hb.chase_nfa s hs]
end Snort.Acsmx2
