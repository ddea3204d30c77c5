import Snort.SearchEngines.Acsmx2.Search

/-!
# All storages search alike

Whatever the rows look like, a search goes through the states of the list-form
DFA and reports those with a match list. The results are stated for any start
state, since a search may continue an earlier one.
-/

namespace Snort.Acsmx2
open List Option Automata

section Scans
variable {κ : Type*} {n : ℕ} {δ : ℕ → UInt8 → ℕ} {step : ℕ → UInt8 → Option ℕ}
  {hit hit' : ℕ → Bool} {mtch : MpseMatch ℕ κ}

/-- Reporting before the transition, with the check of the last state, reports
the start state and everything visited. -/
theorem checkLast_scanBefore (hstep : StepsAs n step δ) (hcb : mtch.ReturnsZero)
    (hhit : ∀ s, s < n → hit s = hit' s) (text : List UInt8) {state : ℕ} (hs : state < n)
    (context : κ) :
    (scanBefore step hit mtch text 0 state 0 context).map (checkLast hit' mtch text.length) =
      let calls := reports hit' ((state, 0) :: visits δ 0 state text)
      some ⟨false, text.foldl δ state, calls.length, mtch.fire context calls⟩ := by
  have hlast := visits_dropLast δ text 0 state
  rw [Nat.zero_add] at hlast
  have hlt : ∀ v ∈ (state, 0) :: visits δ 0 state text, v.1 < n := by
    intro v hv
    rcases mem_cons.mp hv with rfl | hv
    · exact hs
    · exact visits_lt (fun s hs c => (hstep s hs c).2) text 0 state hs v hv
  have hdrop : reports hit ((state, 0) :: visits δ 0 state text).dropLast =
      reports hit' ((state, 0) :: visits δ 0 state text).dropLast :=
    reports_congr hhit (fun v hv => hlt v (dropLast_subset _ hv))
  have hall : reports hit' ((state, 0) :: visits δ 0 state text) =
      reports hit' ((state, 0) :: visits δ 0 state text).dropLast ++
        reports hit' [(text.foldl δ state, text.length)] := by
    rw [← reports_append, hlast]
  rw [scanBefore_spec hit hstep hcb text 0 state 0 context hs, map_some, hdrop, hall, reports_cons]
  simp only [checkLast, Bool.false_eq_true, if_false, Nat.zero_add, MpseMatch.fire_append,
    length_append]
  by_cases hh : hit' (text.foldl δ state) = true
  · simp only [hh, if_true, hcb _ _ _, Int.lt_irrefl, decide_false]
    rfl
  · simp only [hh, if_false, Bool.false_eq_true]
    rfl
end Scans

/-! ## The searches from any state -/

section Searches
variable {κ : Type*} {acsm : AcsmStruct2} {ps : List AcsmPattern2} {n : ℕ}
  {lab : ℕ → List UInt8} {mlist : ℕ → List AcsmPattern2} {fail : ℕ → ℕ}
  {nfa dfa : ℕ → TransList} {mtch : MpseMatch ℕ κ} {state : ℕ}

/-- The states of the DFA lists, read with folded case. -/
def upperDelta (dfa : ℕ → TransList) (state : ℕ) (c : UInt8) : ℕ :=
  listGetNextState2 dfa state (xlatcase c)

theorem upperDelta_foldl (dfa : ℕ → TransList) (text : List UInt8) (state : ℕ) :
    text.foldl (upperDelta dfa) state =
      (convertCaseEx text).foldl (listGetNextState2 dfa) state := by
  rw [convertCaseEx, foldl_map]
  rfl

theorem visits_upperDelta (dfa : ℕ → TransList) (text : List UInt8) (i state : ℕ) :
    visits (upperDelta dfa) i state text =
      visits (listGetNextState2 dfa) i state (convertCaseEx text) :=
  visits_map (listGetNextState2 dfa) xlatcase text i state

theorem IsListBuild.stepsAs (hb : IsListBuild ps n lab mlist fail nfa dfa)
    {step : ℕ → UInt8 → Option ℕ}
    (hstep : ∀ s, s < n → ∀ c, step s c = some (listGetNextState2 dfa s (xlatcase c))) :
    StepsAs n step (upperDelta dfa) :=
  fun s hs c => ⟨hstep s hs c, (hb.automaton.next s hs (xlatcase c)).1⟩

/-- The reported visits of a run from `state`. -/
def dfaReports (dfa : ℕ → TransList) (mlist : ℕ → List AcsmPattern2) (state : ℕ)
    (text : List UInt8) : List (ℕ × ℕ) :=
  reports (fun s => !(mlist s).isEmpty)
    (visits (listGetNextState2 dfa) 0 state (convertCaseEx text))

/-- The state after the text. -/
def dfaState (dfa : ℕ → TransList) (state : ℕ) (text : List UInt8) : ℕ :=
  (convertCaseEx text).foldl (listGetNextState2 dfa) state

theorem dfaReports_eq_map (dfa : ℕ → TransList) (mlist : ℕ → List AcsmPattern2) (state : ℕ)
    (text : List UInt8) : dfaReports dfa mlist state text = reports (fun s => !(mlist s).isEmpty)
        ((range text.length).map fun i => (dfaState dfa state (text.take (i + 1)), i + 1)) := by
  rw [dfaReports, visits_eq_map, length_convertCaseEx]
  simp only [dfaState, convertCaseEx_take]

/-- A report of the start state at index 0, if it has a match list. -/
def startReport (mlist : ℕ → List AcsmPattern2) (state : ℕ) : List (ℕ × ℕ) :=
  reports (fun s => !(mlist s).isEmpty) [(state, 0)]

theorem AcsmStruct2.Stored.isMatch_eq {failState : Option (ℕ → ℕ)} {table : ℕ → TransList}
    (h : acsm.Stored n mlist failState table) :
    acsm.isMatch = fun s => !(mlist s).isEmpty := by
  funext s
  rw [AcsmStruct2.isMatch, h.matchList]

theorem acsmSearchDfaSparse_eq (hb : IsListBuild ps n lab mlist fail nfa dfa)
    (h : acsm.Stored n mlist none dfa)
    (hf : acsm.acsmFormat = .sparse ∨ acsm.acsmFormat = .sparseBands)
    (hcb : mtch.ReturnsZero) (text : List UInt8) (context : κ) (hs : state < n) :
    acsmSearchDfaSparse acsm text mtch context (some state) =
      let calls := dfaReports dfa mlist state text
      some ⟨calls.length, mtch.fire context calls, some (dfaState dfa state text)⟩ := by
  have hsteps := hb.stepsAs (fun s hs c => h.stepSparse_eq hf hs c)
  have hcalls : reports acsm.isFlagged (visits (upperDelta dfa) 0 state text) =
      dfaReports dfa mlist state text := by
    rw [dfaReports, ← visits_upperDelta, ← h.isMatch_eq]
    exact reports_congr (fun s hs => h.isFlagged_eq hs)
      (visits_lt (fun s hs c => (hsteps s hs c).2) text 0 state hs)
  simp only [acsmSearchDfaSparse, scanAfter_spec _ hsteps hcb text 0 state 0 context hs,
    map_some, hcalls, upperDelta_foldl, Nat.zero_add]
  rfl

theorem acsmSearchNfa_eq (hb : IsListBuild ps n lab mlist fail nfa dfa)
    (h : acsm.Stored n mlist (some fail) nfa) (hf : AcsmStruct2.Stored.NfaFormat acsm.acsmFormat)
    (hcb : mtch.ReturnsZero) (text : List UInt8) (context : κ) (hs : state < n) :
    acsmSearchNfa acsm text mtch context (some state) =
      let calls := dfaReports dfa mlist state text
      some ⟨calls.length, mtch.fire context calls, some state⟩ := by
  have hsteps := hb.stepsAs (fun s hs c => h.stepNfa_eq hb hf hs c)
  have hcalls : reports acsm.isMatch (visits (upperDelta dfa) 0 state text) =
      dfaReports dfa mlist state text := by
    rw [dfaReports, ← visits_upperDelta, ← h.isMatch_eq]
  simp only [acsmSearchNfa, scanAfter_spec _ hsteps hcb text 0 state 0 context hs,
    map_some, hcalls, Nat.zero_add, Bool.false_eq_true, if_false]

/-- The calls of a search that reports before the transition. -/
theorem startReport_append_dfaReports (dfa : ℕ → TransList) (mlist : ℕ → List AcsmPattern2)
    (state : ℕ) (text : List UInt8) :
    reports (fun s => !(mlist s).isEmpty) ((state, 0) :: visits (upperDelta dfa) 0 state text) =
      startReport mlist state ++ dfaReports dfa mlist state text := by
  rw [visits_upperDelta, startReport, dfaReports, ← reports_append]
  rfl

section
variable (hb : IsListBuild ps n lab mlist fail nfa dfa) (h : acsm.Stored n mlist none dfa)
include hb h

theorem acsmSearchDfaFull_eq {compress : Bool} (hf : acsm.acsmFormat = .full compress)
    (hcb : mtch.ReturnsZero) (text : List UInt8) (context : κ) (hs : state < n) :
    acsmSearchDfaFull acsm text mtch context (some state) =
      let calls := startReport mlist state ++ dfaReports dfa mlist state text
      some ⟨calls.length, mtch.fire context calls, some (dfaState dfa state text)⟩ := by
  have hsteps := hb.stepsAs (fun s hs c => h.stepFull_eq hf hs c)
  have hscan := checkLast_scanBefore hsteps hcb (fun s hs => h.isFlagged_eq hs) text hs context
  rw [h.isMatch_eq, startReport_append_dfaReports, upperDelta_foldl] at hscan
  obtain ⟨r, hr, hlast⟩ := map_eq_some_iff.mp hscan
  simp only [acsmSearchDfaFull, hr, map_some, h.isMatch_eq, hlast]
  rfl

theorem acsmSearchDfaBanded_eq (hf : acsm.acsmFormat = .banded) (hcb : mtch.ReturnsZero)
    (text : List UInt8) (context : κ) (hs : state < n) :
    acsmSearchDfaBanded acsm text mtch context (some state) =
      let calls := startReport mlist state ++ dfaReports dfa mlist state text
      some ⟨calls.length, mtch.fire context calls, some state⟩ := by
  have hsteps := hb.stepsAs (fun s hs c => h.stepBanded_eq hf hs c)
  have hscan := checkLast_scanBefore hsteps hcb (fun s hs => h.isFlagged_eq hs) text hs context
  rw [h.isMatch_eq, startReport_append_dfaReports, upperDelta_foldl] at hscan
  obtain ⟨r, hr, hlast⟩ := map_eq_some_iff.mp hscan
  simp only [acsmSearchDfaBanded, hr, map_some, h.isMatch_eq, hlast]
  rfl
end
end Searches

/-! ## Compiling and searching a list of patterns -/

variable {ps : List AcsmPattern2} {n : ℕ} {lab : ℕ → List UInt8} {mlist : ℕ → List AcsmPattern2}
  {fail : ℕ → ℕ} {nfa dfa : ℕ → TransList}

/-- One list build serves every format and both kinds of automaton. -/
theorem acsmCompile2_spec (args : List PatternArgs) :
    ∃ n lab mlist fail nfa dfa,
      IsListBuild (args.map acsmPattern2).reverse n lab mlist fail nfa dfa ∧
      ∀ format b, acsmBuildLists (acsmLoad2 format b args) =
          some ((acsmLoad2 format b args).withLists n mlist fail nfa dfa) ∧
        ∃ acsm, acsmCompile2 (acsmLoad2 format b args) = some acsm ∧
          acsm.acsmFormat = format ∧ acsm.dfa = b ∧
          acsm.Stored n mlist (if b then none else some fail) (if b then dfa else nfa) := by
  obtain ⟨n, lab, mlist, fail, nfa, dfa, hb, hlists⟩ :=
    acsmBuildLists_spec (args.map acsmPattern2).reverse
  refine ⟨n, lab, mlist, fail, nfa, dfa, hb, ?_⟩
  intro format b
  obtain ⟨hpats, hformat, hdfa⟩ := acsmLoad2_spec format b args
  have hbuild := hlists (acsmLoad2 format b args) hpats
  obtain ⟨acsm, hcomp, hfmt, hd, hstored⟩ := acsmCompile2_stored hb hbuild
  rw [hformat] at hfmt
  rw [hdfa] at hd hstored
  exact ⟨hbuild, acsm, hcomp, hfmt, hd, hstored⟩

section
variable (hb : IsListBuild ps n lab mlist fail nfa dfa) (hne : ∀ p ∈ ps, p.patrn ≠ [])
include hb hne

/-- State 0 has no match list, so nothing is reported before the first byte. -/
theorem IsListBuild.startReport_zero : startReport mlist 0 = [] := by
  rw [startReport, reports_cons, (hb.matcher hne).out_root hne]
  rfl

/-- The engines that can also run the NFA, with the DFA enabled. -/
theorem mpseSearch_dfa_eq {κ : Type*} {acsm : AcsmStruct2} {mtch : MpseMatch ℕ κ}
    (h : acsm.Stored n mlist none dfa) (hdfa : acsm.dfa = true)
    (hf : AcsmStruct2.Stored.NfaFormat acsm.acsmFormat) (hcb : mtch.ReturnsZero) (text : List UInt8)
    (context : κ) :
    mpseSearch acsm text mtch context (some 0) =
      let calls := dfaReports dfa mlist 0 text
      some ⟨calls.length, mtch.fire context calls, some (dfaState dfa 0 text)⟩ := by
  have hpos := hb.automaton.pos
  rcases hf with hf | hf | hf
  · have hsearch := acsmSearchDfaFull_eq hb h hf hcb text context hpos
    rw [hb.startReport_zero hne, nil_append] at hsearch
    rw [mpseSearch, hf]
    simp only [hdfa, if_true, hsearch]
  · rw [mpseSearch, hf]
    simp only [hdfa, if_true]
    exact acsmSearchDfaSparse_eq hb h (.inl hf) hcb text context hpos
  · rw [mpseSearch, hf]
    simp only [hdfa, if_true]
    exact acsmSearchDfaSparse_eq hb h (.inr hf) hcb text context hpos
end

/-- All DFA storages report the same calls: those of the list-form DFA. -/
theorem acsmSearchDfa_formats_agree {κ : Type*} (args : List PatternArgs)
    (hne : ∀ a ∈ args, a.pat ≠ []) (text : List UInt8) (mtch : MpseMatch ℕ κ)
    (hcb : mtch.ReturnsZero) (context : κ) :
    ∃ (dfa : ℕ → TransList) (mlist : ℕ → List AcsmPattern2),
      (∀ format, ∃ lists, acsmBuildLists (acsmLoad2 format true args) = some lists ∧
        lists.acsmTransTable = dfa ∧ lists.acsmMatchList = mlist) ∧
      let visited := visits (listGetNextState2 dfa) 0 0 (convertCaseEx text)
      let calls := visited.filter (fun v => !(mlist v.1).isEmpty)
      (∀ compressStates, ∃ acsm,
        acsmCompile2 (acsmLoad2 (.full compressStates) true args) = some acsm ∧
        acsm.acsmMatchList = mlist ∧ ∃ last, acsmSearchDfaFull acsm text mtch context (some 0) =
            some ⟨calls.length, mtch.fire context calls, last⟩) ∧
      (∀ format, format = .sparse ∨ format = .sparseBands → ∃ acsm,
        acsmCompile2 (acsmLoad2 format true args) = some acsm ∧
        acsm.acsmMatchList = mlist ∧ ∃ last, acsmSearchDfaSparse acsm text mtch context (some 0) =
            some ⟨calls.length, mtch.fire context calls, last⟩) ∧
      ∃ acsm, acsmCompile2 (acsmLoad2 .banded true args) = some acsm ∧
        acsm.acsmMatchList = mlist ∧ ∃ last, acsmSearchDfaBanded acsm text mtch context (some 0) =
            some ⟨calls.length, mtch.fire context calls, last⟩ := by
  obtain ⟨n, lab, mlist, fail, nfa, dfa, hb, hcompile⟩ := acsmCompile2_spec args
  have hstart := hb.startReport_zero (patrn_ne_nil hne)
  have hpos := hb.automaton.pos
  refine ⟨dfa, mlist, ?_, ?_, ?_, ?_⟩
  · intro format
    refine ⟨_, (hcompile format true).1, ?_, rfl⟩
    show (if (acsmLoad2 format true args).dfa then dfa else nfa) = dfa
    rw [(acsmLoad2_spec format true args).2.2]
    rfl
  · intro compressStates
    obtain ⟨-, acsm, hcomp, hf, -, hstored⟩ := hcompile (.full compressStates) true
    have hsearch := acsmSearchDfaFull_eq hb hstored hf hcb text context hpos
    rw [hstart, nil_append] at hsearch
    exact ⟨acsm, hcomp, hstored.matchList, _, hsearch⟩
  · intro format hformat
    obtain ⟨-, acsm, hcomp, hf, -, hstored⟩ := hcompile format true
    rw [← hf] at hformat
    have hsearch := acsmSearchDfaSparse_eq hb hstored hformat hcb text context hpos
    exact ⟨acsm, hcomp, hstored.matchList, _, hsearch⟩
  · obtain ⟨-, acsm, hcomp, hf, -, hstored⟩ := hcompile .banded true
    have hsearch := acsmSearchDfaBanded_eq hb hstored hf hcb text context hpos
    rw [hstart, nil_append] at hsearch
    exact ⟨acsm, hcomp, hstored.matchList, _, hsearch⟩

/-- The text `xab` with the patterns `ab` and `b`, full and sparse rows. -/
theorem acsmSearchDfa_formats_agree_xab :
    let args : List PatternArgs := [⟨[97, 98], true, false, 1⟩, ⟨[98], false, false, 2⟩]
    (∀ a ∈ args, a.pat ≠ []) ∧ ∃ full sparse log last last',
      acsmCompile2 (acsmLoad2 (.full true) true args) = some full ∧
      acsmCompile2 (acsmLoad2 .sparse true args) = some sparse ∧
      acsmSearchDfaFull full [120, 97, 98] record [] (some 0) = some ⟨log.length, log, last⟩ ∧
      acsmSearchDfaSparse sparse [120, 97, 98] record [] (some 0) =
        some ⟨log.length, log, last'⟩ := by
  intro args
  have hne : ∀ a ∈ args, a.pat ≠ [] := by decide
  obtain ⟨dfa, mlist, -, hfull, hsparse, -⟩ :=
    acsmSearchDfa_formats_agree args hne [120, 97, 98] record record_returnsZero []
  obtain ⟨full, hcomp, -, last, hsearch⟩ := hfull true
  obtain ⟨sparse, hcomp', -, last', hsearch'⟩ := hsparse .sparse (.inl rfl)
  rw [fire_record, nil_append] at hsearch hsearch'
  exact ⟨hne, full, sparse, _, last, last', hcomp, hcomp', hsearch, hsearch'⟩

/-- The NFA search goes through the states of the DFA compiled from the same
patterns, so its failure loop always ends, and it reports the same calls. -/
theorem acsmSearchNfa_follows_dfa {κ : Type*} (args : List PatternArgs)
    (hne : ∀ a ∈ args, a.pat ≠ []) (format : AcsmFormat)
    (hformat : format = .full false ∨ format = .sparse ∨ format = .sparseBands)
    (text : List UInt8) (mtch : MpseMatch ℕ κ) (hcb : mtch.ReturnsZero) (context : κ) :
    ∃ nfa dfa, acsmCompile2 (acsmLoad2 format false args) = some nfa ∧
      acsmCompile2 (acsmLoad2 format true args) = some dfa ∧
      nfa.acsmMatchList = dfa.acsmMatchList ∧
      ∃ after : ℕ → ℕ,
        (∀ i, i ≤ text.length → (text.take i).foldlM nfa.stepNfa 0 = some (after i)) ∧
        (∀ i, i ≤ text.length → ∃ r, mpseSearch dfa (text.take i) mtch context (some 0) = some r ∧
          r.currentState = some (after i)) ∧
        let calls := ((range text.length).map fun i => (after (i + 1), i + 1)).filter
          fun v => !(dfa.acsmMatchList v.1).isEmpty
        (∃ last, acsmSearchNfa nfa text mtch context (some 0) =
          some ⟨calls.length, mtch.fire context calls, last⟩) ∧
        ∃ last, mpseSearch dfa text mtch context (some 0) =
          some ⟨calls.length, mtch.fire context calls, last⟩ := by
  obtain ⟨n, lab, mlist, fail, nfa, dfa, hb, hcompile⟩ := acsmCompile2_spec args
  obtain ⟨-, N, hN, hNf, -, hNst⟩ := hcompile format false
  obtain ⟨-, D, hD, hDf, hDd, hDst⟩ := hcompile format true
  have hNf' : AcsmStruct2.Stored.NfaFormat N.acsmFormat := hNf ▸ hformat
  have hDf' : AcsmStruct2.Stored.NfaFormat D.acsmFormat := hDf ▸ hformat
  have hsteps := hb.stepsAs (fun s hs c => hNst.stepNfa_eq hb hNf' hs c)
  have hdfa := mpseSearch_dfa_eq hb (patrn_ne_nil hne) hDst hDd hDf' hcb
  have hcalls : dfaReports dfa mlist 0 text =
      ((range text.length).map fun i => (dfaState dfa 0 (text.take (i + 1)), i + 1)).filter
        fun v => !(D.acsmMatchList v.1).isEmpty := by
    rw [dfaReports_eq_map, hDst.matchList]
    rfl
  refine ⟨N, D, hN, hD, hNst.matchList.trans hDst.matchList.symm,
    fun i => dfaState dfa 0 (text.take i), ?_, ?_, ?_, ?_⟩
  · intro i _
    rw [foldlM_step hsteps _ 0 hb.automaton.pos, upperDelta_foldl]
    rfl
  · intro i _
    exact ⟨_, hdfa (text.take i) context, rfl⟩
  · have hsearch := acsmSearchNfa_eq hb hNst hNf' hcb text context hb.automaton.pos
    rw [hcalls] at hsearch
    exact ⟨_, hsearch⟩
  · have hsearch := hdfa text context
    rw [hcalls] at hsearch
    exact ⟨_, hsearch⟩

/-- The text `xab` with the patterns `ab` and `b`, sparse rows. -/
theorem acsmSearchNfa_follows_dfa_xab :
    let args : List PatternArgs := [⟨[97, 98], true, false, 1⟩, ⟨[98], false, false, 2⟩]
    (∀ a ∈ args, a.pat ≠ []) ∧ ∃ nfa dfa log last last',
      acsmCompile2 (acsmLoad2 .sparse false args) = some nfa ∧
      acsmCompile2 (acsmLoad2 .sparse true args) = some dfa ∧
      acsmSearchNfa nfa [120, 97, 98] record [] (some 0) = some ⟨log.length, log, last⟩ ∧
      mpseSearch dfa [120, 97, 98] record [] (some 0) = some ⟨log.length, log, last'⟩ := by
  intro args
  have hne : ∀ a ∈ args, a.pat ≠ [] := by decide
  obtain ⟨nfa, dfa, hnfa, hdfa, -, after, -, -, ⟨last, hsearch⟩, last', hsearch'⟩ :=
    acsmSearchNfa_follows_dfa args hne .sparse (.inr (.inl rfl)) [120, 97, 98] record
      record_returnsZero []
  rw [fire_record, nil_append] at hsearch hsearch'
  exact ⟨hne, nfa, dfa, _, last, last', hnfa, hdfa, hsearch, hsearch'⟩
end Snort.Acsmx2
