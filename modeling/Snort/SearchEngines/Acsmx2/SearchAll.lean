import Snort.SearchEngines.Acsmx2.Equivalence

/-!
# Reporting every pattern

`acsm_search_dfa_full_all` reports each entry of a match list, not the list.
The automaton reads the text with folded case, so an entry that is not `nocase`
is first compared with the original bytes before the current position.
-/

namespace Snort.Acsmx2
open List Automata
variable {Tx : List UInt8} {index : ℕ}

/-- `memcmp(casepatrn, T - n, n) == 0`, or `none` if the comparison would start
before the text. -/
def memcmpBefore (Tx casepatrn : List UInt8) (index : ℕ) : Option Bool :=
  if casepatrn.length ≤ index then
    some (decide (casepatrn = (Tx.take index).drop (index - casepatrn.length)))
  else none

/-- The condition on an entry; `||` skips the comparison for `nocase`. -/
def checkEntry (Tx : List UInt8) (index : ℕ) (mlist : AcsmPattern2) : Option Bool :=
  if mlist.nocase then some true else memcmpBefore Tx mlist.casepatrn index

section Loops
variable {κ : Type*} (Tx : List UInt8) (mtch : MpseMatch AcsmPattern2 κ)

/-- The loop over the match list of `state`. -/
def checkEntries (index state : ℕ) : List AcsmPattern2 → ℕ → κ → Option (Scan κ)
  | [], nfound, context => some ⟨false, state, nfound, context⟩
  | mlist :: next, nfound, context =>
    match checkEntry Tx index mlist with
    | none => none
    | some false => checkEntries index state next nfound context
    | some true =>
      let m := mtch mlist index context
      if 0 < m.1 then some ⟨true, state, nfound + 1, m.2⟩
      else checkEntries index state next (nfound + 1) m.2

variable (acsm : AcsmStruct2)

/-- `AC_SEARCH_ALL` and the check of the last state, which does not look at the
match flag. -/
def searchAllLoop : List UInt8 → ℕ → ℕ → ℕ → κ → Option (Scan κ)
  | [], index, state, nfound, context =>
    checkEntries Tx mtch index state (acsm.acsmMatchList state) nfound context
  | c :: T, index, state, nfound, context =>
    (if (acsm.acsmNextState state).getD 1 0 ≠ 0 then
      checkEntries Tx mtch index state (acsm.acsmMatchList state) nfound context
    else some ⟨false, state, nfound, context⟩).bind fun r =>
      if r.stopped then some r
      else (acsm.stepFull state c).bind fun nextState =>
        searchAllLoop T (index + 1) nextState r.nfound r.context

/-- `acsm_search_dfa_full_all`. -/
def acsmSearchDfaFullAll (context : κ) (current_state : Option ℕ) : Option (SearchResult κ) :=
  match current_state with
  | none => some ⟨0, context, none⟩
  | some state =>
    (searchAllLoop Tx mtch acsm Tx 0 state 0 context).map
      fun r => ⟨r.nfound, r.context, some r.state⟩
end Loops

/-! ## The entries that pass -/

/-- What an entry is compared for after the automaton has found it. -/
def passes (Tx : List UInt8) (index : ℕ) (p : AcsmPattern2) : Bool :=
  p.nocase || decide (p.casepatrn <:+ Tx.take index)

/-- The pattern ends at `index`: exactly, or up to case if it is `nocase`. -/
def occursAt (Tx : List UInt8) (index : ℕ) (p : AcsmPattern2) : Bool :=
  if p.nocase then decide (p.patrn <:+ convertCaseEx (Tx.take index))
  else decide (p.casepatrn <:+ Tx.take index)

/-- The calls for the state visited at an index. -/
def entryCalls (Tx : List UInt8) (mlist : ℕ → List AcsmPattern2) (v : ℕ × ℕ) :
    List (AcsmPattern2 × ℕ) :=
  ((mlist v.1).filter (passes Tx v.2)).map fun p => (p, v.2)

theorem checkEntry_eq {p : AcsmPattern2}
    (hindex : index ≤ Tx.length) (hlen : p.casepatrn.length ≤ index) :
    checkEntry Tx index p = some (passes Tx index p) := by
  unfold checkEntry passes memcmpBefore
  cases p.nocase with
  | true => rfl
  | false =>
    have htake : (Tx.take index).length = index := length_take_of_le hindex
    have hiff : p.casepatrn = (Tx.take index).drop (index - p.casepatrn.length) ↔
        p.casepatrn <:+ Tx.take index := by
      rw [suffix_iff_eq_drop, htake]
    simp only [Bool.false_eq_true, if_false, if_pos hlen, Bool.false_or, hiff]

theorem checkEntries_eq {κ : Type*} {mtch : MpseMatch AcsmPattern2 κ} (hcb : mtch.ReturnsZero)
    (hindex : index ≤ Tx.length) (state : ℕ)
    (l : List AcsmPattern2) : (∀ p ∈ l, p.casepatrn.length ≤ index) → ∀ nfound context,
    checkEntries Tx mtch index state l nfound context =
      let calls := (l.filter (passes Tx index)).map fun p => (p, index)
      some ⟨false, state, nfound + calls.length, mtch.fire context calls⟩ := by
  induction l with
  | nil => intro _ nfound context; rfl
  | cons p l ih =>
    intro hlen nfound context
    have hrest := ih (fun q hq => hlen q (mem_cons_of_mem _ hq))
    rw [checkEntries, checkEntry_eq hindex (hlen p (mem_cons_self ..))]
    cases hp : passes Tx index p with
    | false =>
      rw [filter_cons_of_neg (by rw [hp]; exact Bool.false_ne_true)]
      exact hrest nfound context
    | true =>
      rw [filter_cons_of_pos hp]
      simp only [hcb p index context, Int.lt_irrefl, if_false, hrest, map_cons,
        length_cons, MpseMatch.fire_cons, Nat.add_assoc, Nat.add_comm 1]

/-- A pattern that the automaton reports and that passes occurs, and conversely. -/
theorem passes_and_suffix (a : PatternArgs) :
    (passes Tx index (acsmPattern2 a) &&
        decide ((acsmPattern2 a).patrn <:+ (convertCaseEx Tx).take index)) =
      occursAt Tx index (acsmPattern2 a) := by
  rw [← convertCaseEx_take]
  unfold passes occursAt
  cases (acsmPattern2 a).nocase with
  | true => rfl
  | false =>
    simp only [Bool.false_or, Bool.false_eq_true, if_false]
    by_cases hsuf : (acsmPattern2 a).casepatrn <:+ Tx.take index
    · have hupper : (acsmPattern2 a).patrn <:+ convertCaseEx (Tx.take index) := hsuf.map _
      simp only [hsuf, hupper, decide_true, Bool.and_self]
    · simp only [hsuf, decide_false, Bool.false_and]

/-! ## The search -/

section Search
variable {κ : Type*} {acsm : AcsmStruct2} {ps : List AcsmPattern2} {n : ℕ}
  {lab : ℕ → List UInt8} {mlist : ℕ → List AcsmPattern2} {fail : ℕ → ℕ}
  {nfa dfa : ℕ → TransList} {mtch : MpseMatch AcsmPattern2 κ}

/-- A row without the flag has an empty list, so the flag changes nothing. -/
theorem checkEntries_flag {failState : Option (ℕ → ℕ)} {table : ℕ → TransList}
    (h : acsm.Stored n mlist failState table) {state : ℕ} (hs : state < n) (Tx : List UInt8)
    (index nfound : ℕ) (context : κ) :
    (if (acsm.acsmNextState state).getD 1 0 ≠ 0 then
        checkEntries Tx mtch index state (acsm.acsmMatchList state) nfound context
      else some ⟨false, state, nfound, context⟩) =
      checkEntries Tx mtch index state (mlist state) nfound context := by
  rw [h.matchList]
  by_cases hflag : (acsm.acsmNextState state).getD 1 0 = 0
  · rw [if_neg (fun hne => hne hflag)]
    have hm := h.isFlagged_eq hs
    rw [AcsmStruct2.isFlagged, hflag, AcsmStruct2.isMatch, h.matchList] at hm
    have hnil : mlist state = [] := by
      simpa using hm
    rw [hnil]
    rfl
  · rw [if_pos hflag]

/-- The loop reports the passing entries of every visited state, provided that no
entry is longer than the text read so far. -/
theorem searchAllLoop_eq (hb : IsListBuild ps n lab mlist fail nfa dfa)
    (h : acsm.Stored n mlist none dfa) {compress : Bool}
    (hf : acsm.acsmFormat = .full compress) (hcb : mtch.ReturnsZero) (Tx T : List UInt8) :
    ∀ index state nfound (context : κ), index + T.length ≤ Tx.length → state < n →
      (∀ v ∈ (state, index) :: visits (upperDelta dfa) index state T, ∀ p ∈ mlist v.1,
        p.casepatrn.length ≤ v.2) →
      searchAllLoop Tx mtch acsm T index state nfound context =
        let calls := ((state, index) :: visits (upperDelta dfa) index state T).flatMap
          (entryCalls Tx mlist)
        some ⟨false, T.foldl (upperDelta dfa) state, nfound + calls.length,
          mtch.fire context calls⟩ := by
  induction T with
  | nil =>
    intro index state nfound context hindex hs hlen
    have hentries : ∀ p ∈ mlist state, p.casepatrn.length ≤ index :=
      hlen (state, index) (mem_cons_self ..)
    rw [length_nil, Nat.add_zero] at hindex
    rw [searchAllLoop, h.matchList, checkEntries_eq hcb hindex state _ hentries]
    simp only [visits, flatMap_cons, flatMap_nil, append_nil]
    rfl
  | cons c T ih =>
    intro index state nfound context hindex hs hlen
    rw [length_cons] at hindex
    obtain ⟨hstep, hlt⟩ := hb.stepsAs (fun s hs c => h.stepFull_eq hf hs c) state hs c
    have hrest := fun nfound context => ih (index + 1) (upperDelta dfa state c) nfound context
      (by omega) hlt (fun v hv => hlen v (mem_cons_of_mem _ hv))
    have hcalls : ((state, index) :: visits (upperDelta dfa) index state (c :: T)).flatMap
        (entryCalls Tx mlist) = entryCalls Tx mlist (state, index) ++
          ((upperDelta dfa state c, index + 1) ::
            visits (upperDelta dfa) (index + 1) (upperDelta dfa state c) T).flatMap
              (entryCalls Tx mlist) :=
      flatMap_cons ..
    rw [searchAllLoop, checkEntries_flag h hs, checkEntries_eq hcb (by omega) state _
      (hlen _ (mem_cons_self ..)), hcalls]
    simp only [Option.bind_some, Bool.false_eq_true, if_false, hstep, hrest,
      length_append, MpseMatch.fire_append, Nat.add_assoc]
    rfl
end Search

/-- No entry of the list reached after `i` bytes is longer than these bytes. -/
theorem casepatrn_length_le {args : List PatternArgs} {n : ℕ} {lab : ℕ → List UInt8}
    {mlist : ℕ → List AcsmPattern2} {δ : ℕ → UInt8 → ℕ}
    (h : IsMatcher n lab AcsmPattern2.patrn (args.map acsmPattern2).reverse δ mlist)
    (u : List UInt8) : ∀ p ∈ mlist (u.foldl δ 0), p.casepatrn.length ≤ u.length := by
  intro p hp
  have hmem := (h.out_run u).subset hp
  rw [mem_filter, decide_eq_true_eq] at hmem
  obtain ⟨a, -, rfl⟩ := mem_map.mp (mem_reverse.mp hmem.1)
  calc (acsmPattern2 a).casepatrn.length
      = (acsmPattern2 a).patrn.length := (length_convertCaseEx _).symm
    _ ≤ u.length := hmem.2.length_le

/-- `acsm_search_dfa_full_all` reports each occurrence of each added pattern once,
in groups of increasing end index, and no comparison leaves the text. -/
theorem acsmSearchDfaFullAll_finds_all {κ : Type*} (compressStates : Bool)
    (args : List PatternArgs) (hne : ∀ a ∈ args, a.pat ≠ []) (text : List UInt8)
    (mtch : MpseMatch AcsmPattern2 κ) (hcb : mtch.ReturnsZero) (context : κ) :
    ∃ acsm, acsmCompile2 (acsmLoad2 (.full compressStates) true args) = some acsm ∧
      ∃ entries : ℕ → List AcsmPattern2, (∀ i, i ≤ text.length →
          (entries i).Perm ((args.map acsmPattern2).filter (occursAt text i))) ∧
        let calls := (range (text.length + 1)).flatMap fun i =>
          (entries i).map fun p => (p, i)
        ∃ last, acsmSearchDfaFullAll text mtch acsm context (some 0) =
          some ⟨calls.length, mtch.fire context calls, last⟩ := by
  obtain ⟨n, lab, mlist, fail, nfa, dfa, hb, hcompile⟩ := acsmCompile2_spec args
  obtain ⟨-, acsm, hcomp, hf, -, hstored⟩ := hcompile (.full compressStates) true
  have hm := hb.matcher (patrn_ne_nil hne)
  have hvisits : (0, 0) :: visits (upperDelta dfa) 0 0 text =
      (range (text.length + 1)).map fun i => (dfaState dfa 0 (text.take i), i) := by
    simp only [cons_visits_eq_map, upperDelta_foldl, dfaState]
  refine ⟨acsm, hcomp,
    fun i => (mlist (dfaState dfa 0 (text.take i))).filter (passes text i), ?_, ?_⟩
  · intro i _
    have hout := (hm.out_run (convertCaseEx (text.take i))).filter (passes text i)
    rw [filter_filter, convertCaseEx_take] at hout
    show ((mlist (dfaState dfa 0 (text.take i))).filter (passes text i)).Perm _
    rw [dfaState, convertCaseEx_take]
    refine hout.trans (((reverse_perm _).filter _).trans (List.Perm.of_eq ?_))
    refine filter_congr ?_
    intro p hp
    obtain ⟨a, -, rfl⟩ := mem_map.mp hp
    exact passes_and_suffix a
  · have hloop := searchAllLoop_eq hb hstored hf hcb text text 0 0 0 context
      (by rw [Nat.zero_add]) hb.automaton.pos (by
        rw [hvisits]
        intro v hv p hp
        obtain ⟨i, hi, rfl⟩ := mem_map.mp hv
        have hlen := casepatrn_length_le hm _ p hp
        rw [length_convertCaseEx, length_take] at hlen
        exact hlen.trans (Nat.min_le_left _ _))
    rw [hvisits, flatMap_map] at hloop
    simp only [acsmSearchDfaFullAll, hloop, Option.map_some, Nat.zero_add]
    exact ⟨_, rfl⟩

/-- The text `xaA`, once searched for a case-sensitive `a` and once for a
`nocase` one. -/
theorem acsmSearchDfaFullAll_finds_all_xaA :
    let args : List PatternArgs := [⟨[97], false, false, 1⟩, ⟨[97], true, false, 2⟩]
    (∀ a ∈ args, a.pat ≠ []) ∧ ∃ acsm log last,
      acsmCompile2 (acsmLoad2 (.full false) true args) = some acsm ∧
      acsmSearchDfaFullAll [120, 97, 65] record acsm [] (some 0) = some ⟨log.length, log, last⟩ ∧
      log.Perm [(acsmPattern2 ⟨[97], false, false, 1⟩, 2),
        (acsmPattern2 ⟨[97], true, false, 2⟩, 2), (acsmPattern2 ⟨[97], true, false, 2⟩, 3)] := by
  intro args
  have hne : ∀ a ∈ args, a.pat ≠ [] := by decide
  obtain ⟨acsm, hcomp, entries, hperm, last, hsearch⟩ :=
    acsmSearchDfaFullAll_finds_all false args hne [120, 97, 65] record record_returnsZero []
  rw [fire_record, nil_append] at hsearch
  refine ⟨hne, acsm, _, last, hcomp, hsearch, ?_⟩
  have hcalls := List.Perm.flatMap_left (range 4) (fun i hi =>
    (hperm i (Nat.le_of_lt_succ (mem_range.mp hi))).map fun p => (p, i))
  exact hcalls.trans (List.Perm.of_eq (by decide))
end Snort.Acsmx2
