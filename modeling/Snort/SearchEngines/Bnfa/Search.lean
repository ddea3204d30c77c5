import Snort.SearchEngines.Bnfa.Layout

/-!
# The search of `bnfa_search.cc`

The search follows the compacted array. A match state is not reported again as
long as no other match state has been reported in between.
-/

namespace Snort.Bnfa
open List Automata BnfaStruct
variable {word : BnfaPattern → List UInt8} {ps : List BnfaPattern} {lists bnfa : BnfaStruct}
  {lab : ℕ → List UInt8} {mlist : ℕ → List BnfaPattern} {fail : ℕ → ℕ}

/-- `_bnfaCompile`, with `none` for −1. -/
def bnfaCompile (bnfa : BnfaStruct) : Option BnfaStruct :=
  (bnfaBuildLists bnfa).bind fun bnfa =>
    (bnfaConvListToCsparseArray bnfa).map fun ps =>
      { bnfa with
        bnfaTransList := ps
        bnfaFailState := fun _ => 0
        bnfaTransTable := ⟨fun _ => 0, fun _ => TransList.empty⟩
        bnfaMatchStates :=
          (List.range bnfa.bnfaNumStates).countP fun i => !(bnfa.bnfaMatchList i).isEmpty }

/-- An index no row has, as the last match before the first one. -/
def lastStateInit : ℕ := 0xffffffff

section Search
variable {κ : Type*} (bnfa : BnfaStruct) (mtch : MpseMatch ℕ κ)

/-- The loop of `_bnfa_search_csparse_nfa`; `current_state` is what the pointer
holds if the search leaves without storing. -/
def bnfaSearchLoop (current_state : ℕ) :
    List UInt8 → ℕ → ℕ → ℕ → ℕ → κ → Option (SearchResult κ)
  | [], _, sindex, _, nfound, context => some ⟨nfound, context, some sindex⟩
  | c :: T, index, sindex, last_match, nfound, context =>
    match bnfaGetNextStateCsparseNfa bnfa.bnfaTransList (xlatcase c).toNat bnfa.bnfaNumStates
        sindex with
    | none => none
    | some sindex =>
      match bnfa.bnfaTransList[sindex]?, bnfa.bnfaTransList[sindex + 1]? with
      | some state, some cw =>
        if sindex ≠ 0 ∧ cw &&& bnfaSparseMatchBit ≠ 0 then
          if sindex = last_match then
            bnfaSearchLoop current_state T (index + 1) sindex last_match nfound context
          else if (bnfa.bnfaMatchList state).isEmpty then
            some ⟨nfound, context, some current_state⟩
          else
            let m := mtch state (index + 1) context
            if 0 < m.1 then some ⟨nfound + 1, m.2, some sindex⟩
            else
              bnfaSearchLoop current_state T (index + 1) sindex
                (if m.1 < 0 then last_match else sindex) (nfound + 1) m.2
        else bnfaSearchLoop current_state T (index + 1) sindex last_match nfound context
      | _, _ => none

/-- `AcBnfaMpse::_search`, which always starts in state 0. -/
def bnfaSearch (Tx : List UInt8) (context : κ) (current_state : ℕ) : Option (SearchResult κ) :=
  bnfaSearchLoop bnfa mtch current_state Tx 0 0 lastStateInit 0 context
end Search

/-- An engine with the given option to which the patterns have been added; a
refused pattern is left out. -/
def bnfaLoad (opt : Bool) (args : List PatternArgs) : BnfaStruct :=
  args.foldl (fun p a => (bnfaAddPattern p a).getD p) (bnfaSetOpt bnfaNew opt)

/-! ## Runs of repeated reports -/

/-- Leave out a report of the state reported last. -/
def collapse : Option ℕ → List (ℕ × ℕ) → List (ℕ × ℕ)
  | _, [] => []
  | last, v :: vs => if last = some v.1 then collapse last vs else v :: collapse (some v.1) vs

theorem cons_collapse_eq_destutter' (vs : List (ℕ × ℕ)) : ∀ v : ℕ × ℕ,
    v :: collapse (some v.1) vs = vs.destutter' (fun v w => v.1 ≠ w.1) v := by
  induction vs with
  | nil => intro v; rfl
  | cons w vs ih =>
    intro v
    rw [collapse, destutter']
    by_cases h : v.1 = w.1
    · rw [if_pos (by rw [h]), if_neg (not_not.mpr h)]
      exact ih v
    · rw [if_neg (fun he => h (Option.some.inj he)), if_pos h, ih w]

/-- Every run of reports of one state is collapsed to the first. -/
theorem collapse_none (vs : List (ℕ × ℕ)) :
    collapse none vs = vs.destutter (fun v w => v.1 ≠ w.1) := by
  cases vs with
  | nil => rfl
  | cons v vs => exact cons_collapse_eq_destutter' vs v

/-! ## The search over states -/

section StateScan
variable {κ : Type*} (δ : ℕ → UInt8 → ℕ) (hit : ℕ → Bool) (mtch : MpseMatch ℕ κ)

/-- The search with states in place of the indices of their rows. -/
def stateScan : List UInt8 → ℕ → ℕ → Option ℕ → ℕ → κ → SearchResult κ
  | [], _, state, _, nfound, context => ⟨nfound, context, some state⟩
  | c :: T, index, state, last, nfound, context =>
    let state := δ state c
    if hit state = true ∧ last ≠ some state then
      let m := mtch state (index + 1) context
      if 0 < m.1 then ⟨nfound + 1, m.2, some state⟩
      else
        stateScan T (index + 1) state (if m.1 < 0 then last else some state) (nfound + 1) m.2
    else stateScan T (index + 1) state last nfound context

variable {δ hit mtch}

theorem stateScan_spec (hcb : mtch.ReturnsZero) (T : List UInt8) :
    ∀ index state last nfound (context : κ),
      stateScan δ hit mtch T index state last nfound context =
        let calls := collapse last (reports hit (visits δ index state T))
        ⟨nfound + calls.length, mtch.fire context calls, some (T.foldl δ state)⟩ := by
  induction T with
  | nil => intro index state last nfound context; rfl
  | cons c T ih =>
    intro index state last nfound context
    rw [stateScan, visits, reports_cons]
    by_cases hh : hit (δ state c) = true
    · simp only [hh, if_true, singleton_append, collapse]
      by_cases hlast : last = some (δ state c)
      · rw [if_neg (by rw [not_and, not_not]; exact fun _ => hlast), if_pos hlast, ih]
        rfl
      · simp only [ne_eq, hlast, not_false_eq_true, and_self, if_true, hcb _ _ _,
          Int.lt_irrefl, if_false, ih, length_cons, MpseMatch.fire_cons, foldl_cons]
        rw [Nat.add_assoc, Nat.add_comm 1]
    · simp only [hh, false_and, if_false, Bool.false_eq_true, ih, nil_append, foldl_cons]
end StateScan

/-! ## The search over the array -/

/-- The match states. -/
def BnfaStruct.isMatch (bnfa : BnfaStruct) (state : ℕ) : Bool :=
  !(bnfa.bnfaMatchList state).isEmpty

/-- The transitions of the list form are those of `δ`. -/
def BnfaStruct.Follows (lists : BnfaStruct) (δ : ℕ → UInt8 → ℕ) : Prop :=
  ∀ s, s < lists.bnfaNumStates → ∀ c,
    chase (bnfaListGetNextState lists.bnfaTransTable) lists.bnfaFailState c
      lists.bnfaNumStates s = some (δ s c) ∧ δ s c < lists.bnfaNumStates

/-- The compacted record. -/
def BnfaStruct.compacted (lists : BnfaStruct) : BnfaStruct :=
  { lists with
    bnfaTransList := lists.linkedArray
    bnfaFailState := fun _ => 0
    bnfaTransTable := ⟨fun _ => 0, fun _ => TransList.empty⟩
    bnfaMatchStates :=
      (List.range lists.bnfaNumStates).countP fun i => !(lists.bnfaMatchList i).isEmpty }

section Compacted
variable {κ : Type*} {lists : BnfaStruct} {δ : ℕ → UInt8 → ℕ} {s : ℕ}

theorem BnfaStruct.Linked.decode (h : lists.Linked) (hδ : lists.Follows δ)
    (hs : s < lists.bnfaNumStates) (c : UInt8) :
    bnfaGetNextStateCsparseNfa lists.linkedArray c.toNat lists.bnfaNumStates
      (lists.rowIndex s) = some (lists.rowIndex (δ s c)) := by
  rw [h.getNextState_eq c _ s hs, (hδ s hs c).1, Option.map_some]

/-- The index of the last match, or one that no row has. -/
def BnfaStruct.lastIndex (lists : BnfaStruct) (last : Option ℕ) : ℕ :=
  last.elim lastStateInit lists.rowIndex

theorem BnfaStruct.Linked.rowIndex_eq_lastIndex_iff (h : lists.Linked)
    (hs : s < lists.bnfaNumStates) (last : Option ℕ) :
    lists.rowIndex s = lists.lastIndex last ↔ last = some s := by
  cases last with
  | none =>
    have hlt := h.rowIndex_lt hs
    show lists.rowIndex s = lastStateInit ↔ none = some s
    unfold lastStateInit
    constructor
    · omega
    · intro he
      cases he
  | some t =>
    show lists.rowIndex s = lists.rowIndex t ↔ some t = some s
    rw [lists.rowIndex_strictMono.injective.eq_iff, Option.some.injEq, eq_comm]

theorem bnfaSearchLoop_eq (h : lists.Linked) (hδ : lists.Follows δ)
    (hroot : lists.bnfaMatchList 0 = []) (mtch : MpseMatch ℕ κ) (current_state : ℕ)
    (T : List UInt8) : ∀ index state last nfound (context : κ), state < lists.bnfaNumStates →
      bnfaSearchLoop lists.compacted mtch current_state T index (lists.rowIndex state)
          (lists.lastIndex last) nfound context =
        let r := stateScan (fun s c => δ s (xlatcase c)) lists.isMatch mtch T index state last
          nfound context
        some { r with currentState := r.currentState.map lists.rowIndex } := by
  induction T with
  | nil => intro index state last nfound context _; rfl
  | cons c T ih =>
    intro index state last nfound context hs
    have hlt := (hδ state hs (xlatcase c)).2
    have hnext : bnfaGetNextStateCsparseNfa lists.compacted.bnfaTransList (xlatcase c).toNat
        lists.compacted.bnfaNumStates (lists.rowIndex state) = _ := h.decode hδ hs (xlatcase c)
    set next := δ state (xlatcase c) with hnextdef
    obtain ⟨hstate, hcw⟩ := h.getElem?_linkedArray hlt
    have hbit := h.rowControl_matchBit hlt (h.rowIndex_lt (h.fail_lt next hlt))
    have hlast := h.rowIndex_eq_lastIndex_iff hlt last
    rw [bnfaSearchLoop, stateScan]
    simp only [hnext, ← hnextdef]
    show (match lists.linkedArray[lists.rowIndex next]?,
      lists.linkedArray[lists.rowIndex next + 1]? with
      | some state, some cw => _
      | _, _ => none) = _
    simp only [hstate, hcw]
    by_cases hm : lists.bnfaMatchList next = []
    · have hhit : lists.isMatch next = false := by
        rw [isMatch, hm]
        rfl
      rw [if_neg (fun hc => hbit.mp hc.2 hm), hhit, if_neg (fun hc => Bool.false_ne_true hc.1)]
      exact ih _ _ _ _ _ hlt
    · have hhit : lists.isMatch next = true := by
        rw [isMatch, Bool.not_eq_true', isEmpty_eq_false_iff]
        exact hm
      have hne : next ≠ 0 := fun h0 => hm (h0 ▸ hroot)
      have hempty : (lists.compacted.bnfaMatchList next).isEmpty = false :=
        isEmpty_eq_false_iff.mpr hm
      rw [if_pos ⟨rowIndex_ne_zero hne, hbit.mpr hm⟩, hhit]
      by_cases hrep : last = some next
      · rw [if_pos (hlast.mpr hrep), if_neg (fun hc => hc.2 hrep)]
        exact ih _ _ _ _ _ hlt
      · have hreport : true = true ∧ last ≠ some next := ⟨rfl, hrep⟩
        rw [if_neg (fun hc => hrep (hlast.mp hc)), hempty, if_neg Bool.false_ne_true,
          if_pos hreport]
        by_cases hpos : 0 < (mtch next (index + 1) context).1
        · rw [if_pos hpos, if_pos hpos]
          rfl
        · rw [if_neg hpos, if_neg hpos]
          by_cases hneg : (mtch next (index + 1) context).1 < 0
          · rw [if_pos hneg, if_pos hneg]
            exact ih _ _ _ _ _ hlt
          · rw [if_neg hneg, if_neg hneg]
            exact ih _ _ (some next) _ _ hlt
end Compacted

/-! ## Compilation -/

/-- The arguments a pattern was added with. -/
def BnfaPattern.args (p : BnfaPattern) : PatternArgs :=
  ⟨p.casepatrn, p.nocase, p.negative, p.userdata⟩

theorem bnfaLoad_spec (opt : Bool) (args : List PatternArgs) :
    (bnfaLoad opt args).bnfaPatterns.map BnfaPattern.args =
        (args.filter fun a => decide (a.pat ≠ [])).reverse ∧
      (bnfaLoad opt args).bnfaOpt = opt ∧
      (bnfaLoad opt args).bnfaForceFullZeroState = true ∧
      (bnfaLoad opt args).bnfaCaseMode = .perPatCase := by
  induction args using List.reverseRecOn with
  | nil => exact ⟨rfl, rfl, rfl, rfl⟩
  | append_singleton args a ih =>
    unfold bnfaLoad at ih ⊢
    rw [foldl_append, filter_append, reverse_append, foldl_cons, foldl_nil, bnfaAddPattern]
    by_cases ha : a.pat = []
    · rw [dif_pos ha, Option.getD_none, filter_cons_of_neg (by simpa using ha)]
      exact ih
    · rw [dif_neg ha, Option.getD_some, filter_cons_of_pos (by simpa using ha)]
      exact ⟨congrArg _ ih.1, ih.2⟩

theorem bnfaLoad_patterns (opt : Bool) {args : List PatternArgs} (hne : ∀ a ∈ args, a.pat ≠ []) :
    (bnfaLoad opt args).bnfaPatterns.map BnfaPattern.args = args.reverse := by
  rw [(bnfaLoad_spec opt args).1, filter_eq_self.mpr]
  intro a ha
  exact decide_eq_true (hne a ha)

section
variable (h : IsListNfa word ps lists.bnfaNumStates lab lists.bnfaTransTable mlist fail)
include h

/-- The list form meets the conditions of the compaction, also with other failure
states. -/
theorem IsListNfa.bounded (hforce : lists.bnfaForceFullZeroState = true)
    (hle : lists.bnfaNumStates ≤ bnfaSparseMaxState)
    (hfail : ∀ k, k < lists.bnfaNumStates → lists.bnfaFailState k < lists.bnfaNumStates) :
    lists.Bounded where
  force := hforce
  numStates_le := hle
  fail_lt := hfail
  cell_lt := by
    intro k hk s hs
    obtain ⟨i, hi, rfl⟩ := getElem_of_mem hs
    have hi' : i < 256 := by rwa [length_convRowToFull] at hi
    have hcell := getElem?_convRowToFull lists.bnfaTransTable k (UInt8.ofNat i)
    rw [UInt8.toNat_ofNat_of_lt' hi', getElem?_eq_getElem hi, Option.some.injEq] at hcell
    rw [hcell]
    by_cases h0 : k = 0
    · rw [bnfaListGetNextState, if_pos h0]
      exact h.zero_lt _
    · rw [bnfaListGetNextState, if_neg h0]
      cases hl : (lists.bnfaTransTable.lists k).lookup (UInt8.ofNat i) with
      | none => exact h.trie.pos
      | some m => exact (h.lookup_lt hk h0 hl).2

theorem IsListNfa.linked (hbounded : lists.Bounded)
    (hfits : lists.rowIndex lists.bnfaNumStates ≤ bnfaSparseMaxState) :
    lists.Linked where
  toBounded := hbounded
  fits := hfits
  lookup_ne_zero := by
    intro k hk h0 c m hm
    rw [bnfaListGetNextState, if_neg h0] at hm
    exact (h.lookup_lt hk h0 hm).1
end

/-- The states and the words of the array fit into 24 bits. -/
def BnfaStruct.fits (lists : BnfaStruct) : Bool :=
  decide (lists.bnfaNumStates ≤ bnfaSparseMaxState) &&
    decide (lists.rowIndex lists.bnfaNumStates ≤ bnfaSparseMaxState)

/-- What an engine is compiled to, with the failure states that were built. -/
theorem bnfaCompile_eq (hforce : bnfa.bnfaForceFullZeroState = true) {failState : ℕ → ℕ}
    (hL : IsListNfa word ps bnfa.withTrie.bnfaNumStates lab bnfa.withTrie.bnfaTransTable mlist fail)
    (hfail : ∀ k, k < bnfa.withTrie.bnfaNumStates → failState k < bnfa.withTrie.bnfaNumStates)
    (hbuild : bnfaBuildLists bnfa =
      if bnfa.withTrie.bnfaNumStates > bnfaSparseMaxState then none
      else some (bnfa.withLinks failState mlist)) :
    bnfaCompile bnfa =
      if (bnfa.withLinks failState mlist).fits then
        some (bnfa.withLinks failState mlist).compacted
      else none := by
  set lists := bnfa.withLinks failState mlist with hlists
  have hn : bnfa.withTrie.bnfaNumStates = lists.bnfaNumStates := rfl
  unfold fits
  by_cases hle : lists.bnfaNumStates ≤ bnfaSparseMaxState
  · have hbounded : lists.Bounded := IsListNfa.bounded hL hforce hle hfail
    rw [hn, if_neg (Nat.not_lt.mpr hle)] at hbuild
    rw [bnfaCompile, hbuild, Option.bind_some, hbounded.conv_eq]
    by_cases hfit : lists.rowIndex lists.bnfaNumStates ≤ bnfaSparseMaxState
    · rw [if_neg (Nat.not_lt.mpr hfit), decide_eq_true hle, decide_eq_true hfit]
      rfl
    · rw [if_pos (Nat.not_le.mp hfit), decide_eq_false hfit, Bool.and_false]
      rfl
  · rw [hn, if_pos (Nat.not_le.mp hle)] at hbuild
    rw [bnfaCompile, hbuild, decide_eq_false hle]
    rfl

theorem bnfaCompile_spec (hopt : bnfa.bnfaOpt = false)
    (hforce : bnfa.bnfaForceFullZeroState = true) : ∃ lab mlist fail,
    IsListNfa (BnfaPattern.word bnfa.bnfaCaseMode) bnfa.bnfaPatterns bnfa.withTrie.bnfaNumStates
      lab bnfa.withTrie.bnfaTransTable mlist fail ∧
    bnfaCompile bnfa =
      if (bnfa.withLinks fail mlist).fits then some (bnfa.withLinks fail mlist).compacted
      else none := by
  obtain ⟨lab, L, hlinks, hL⟩ := bnfaBuildLists_spec bnfa
  have hbuild := bnfaBuildLists_eq hlinks
  simp only [hopt, Bool.false_eq_true, if_false] at hbuild
  exact ⟨lab, L.out, L.fail, hL, bnfaCompile_eq hforce hL hL.fail_lt hbuild⟩

theorem fits_of_small (failState : ℕ → ℕ) (mlist : ℕ → List BnfaPattern)
    (hsmall : 258 * ((bnfa.bnfaPatterns.map fun p => p.casepatrn.length).sum + 1) ≤
      bnfaSparseMaxState) : (bnfa.withLinks failState mlist).fits = true := by
  have hn : (bnfa.withLinks failState mlist).bnfaNumStates ≤
      (bnfa.bnfaPatterns.map fun p => p.casepatrn.length).sum + 1 :=
    Nat.succ_le_succ (patternTrie_numStates_le bnfa.bnfaCaseMode bnfa.bnfaPatterns)
  have hindex := (bnfa.withLinks failState mlist).rowIndex_le
    (bnfa.withLinks failState mlist).bnfaNumStates
  rw [fits, Bool.and_eq_true, decide_eq_true_eq, decide_eq_true_eq]
  omega

/-- Compilation succeeds unless there are very many patterns. -/
theorem bnfaCompile_isSome (hopt : bnfa.bnfaOpt = false)
    (hforce : bnfa.bnfaForceFullZeroState = true)
    (hsmall : 258 * ((bnfa.bnfaPatterns.map fun p => p.casepatrn.length).sum + 1) ≤
      bnfaSparseMaxState) : ∃ compiled, bnfaCompile bnfa = some compiled := by
  obtain ⟨lab, mlist, fail, -, hcomp⟩ := bnfaCompile_spec hopt hforce
  rw [if_pos (fits_of_small fail mlist hsmall)] at hcomp
  exact ⟨_, hcomp⟩

/-! ## The search -/

/-- The reports of a search with a callback that returns 0. -/
theorem bnfaSearch_eq {κ : Type*} {δ : ℕ → UInt8 → ℕ} (h : lists.Linked)
    (hpos : 0 < lists.bnfaNumStates) (hδ : lists.Follows δ) (hroot : lists.bnfaMatchList 0 = [])
    {mtch : MpseMatch ℕ κ} (hcb : mtch.ReturnsZero) (text : List UInt8) (context : κ)
    (current_state : ℕ) :
    bnfaSearch lists.compacted mtch text context current_state =
      let calls := (reports lists.isMatch (visits δ 0 0 (convertCaseEx text))).destutter
        (fun v w => v.1 ≠ w.1)
      some ⟨calls.length, mtch.fire context calls,
        some (lists.rowIndex ((convertCaseEx text).foldl δ 0))⟩ := by
  refine (bnfaSearchLoop_eq h hδ hroot mtch current_state text 0 0 none 0 context hpos).trans ?_
  rw [stateScan_spec hcb, collapse_none, visits_map δ xlatcase, convertCaseEx, foldl_map]
  simp only [Nat.zero_add]
  rfl

/-- Without the optimisation, decoding the compacted array gives the Aho-Corasick
successor, and the search reports the visits to match states, with each run of
reports of one state collapsed to the first. -/
theorem bnfaSearch_follows_ahoCorasick {κ : Type*} (args : List PatternArgs)
    (hne : ∀ a ∈ args, a.pat ≠ []) (bnfa : BnfaStruct)
    (hcomp : bnfaCompile (bnfaLoad false args) = some bnfa) :
    bnfa.bnfaPatterns.map BnfaPattern.args = args.reverse ∧
    ∃ (n : ℕ) (lab : ℕ → List UInt8) (δ : ℕ → UInt8 → ℕ) (index : ℕ → ℕ),
      IsMatcher n lab (fun p => convertCaseEx p.casepatrn) bnfa.bnfaPatterns δ bnfa.bnfaMatchList ∧
      index 0 = 0 ∧ (∀ s, s < n → bnfa.bnfaTransList[index s]? = some s) ∧
      (∀ s, s < n → ∀ c : UInt8,
        bnfaGetNextStateCsparseNfa bnfa.bnfaTransList c.toNat bnfa.bnfaNumStates (index s) =
          some (index (δ s c))) ∧
      ∀ (text : List UInt8) (mtch : MpseMatch ℕ κ), mtch.ReturnsZero → ∀ context current_state,
        let visited := visits δ 0 0 (convertCaseEx text)
        let calls := (visited.filter fun v => !(bnfa.bnfaMatchList v.1).isEmpty).destutter
          (fun v w => v.1 ≠ w.1)
        bnfaSearch bnfa mtch text context current_state =
          some ⟨calls.length, mtch.fire context calls,
            some (index ((convertCaseEx text).foldl δ 0))⟩ := by
  obtain ⟨-, hopt, hforce, hmode⟩ := bnfaLoad_spec false args
  obtain ⟨lab, mlist, fail, hL, hspec⟩ := bnfaCompile_spec hopt hforce
  rw [hcomp] at hspec
  set lists := (bnfaLoad false args).withLinks fail mlist with hlists
  have hfits : lists.fits = true := by
    by_contra hfits
    rw [if_neg hfits] at hspec
    cases hspec
  rw [if_pos hfits, Option.some.injEq] at hspec
  rw [fits, Bool.and_eq_true, decide_eq_true_eq, decide_eq_true_eq] at hfits
  subst hspec
  have hL' : IsListNfa (BnfaPattern.word .perPatCase) lists.bnfaPatterns lists.bnfaNumStates
      lab lists.bnfaTransTable mlist fail := hmode ▸ hL
  have hlinked : lists.Linked :=
    hL'.linked (hL'.bounded hforce hfits.1 hL'.fail_lt) hfits.2
  have hfollows : lists.Follows (nfaNext lists.bnfaTransTable fail lists.bnfaNumStates) :=
    fun s hs c => ⟨(hL'.chase_spec hs c).1, (hL'.chase_spec hs c).2.1⟩
  have hmatcher := hL'.matcher _ hL'.automaton
  have hroot : lists.bnfaMatchList 0 = [] :=
    hmatcher.out_root (fun p _ => p.word_ne_nil .perPatCase)
  refine ⟨bnfaLoad_patterns false hne, lists.bnfaNumStates, lab, _, lists.rowIndex, hmatcher, rfl,
    fun s hs => (hlinked.getElem?_linkedArray hs).1, fun s hs c => hlinked.decode hfollows hs c, ?_⟩
  intro text mtch hcb context current_state
  exact bnfaSearch_eq hlinked hL'.trie.pos hfollows hroot hcb text context current_state

/-- The pattern `ab` can be compiled and searched for. -/
theorem bnfaSearch_follows_ahoCorasick_ab :
    let args : List PatternArgs := [⟨[97, 98], true, false, 1⟩]
    (∀ a ∈ args, a.pat ≠ []) ∧ ∃ bnfa log last, bnfaCompile (bnfaLoad false args) = some bnfa ∧
      bnfaSearch bnfa record [97, 98, 97, 98] [] 0 = some ⟨log.length, log, last⟩ := by
  intro args
  have hne : ∀ a ∈ args, a.pat ≠ [] := by decide
  obtain ⟨bnfa, hcomp⟩ := bnfaCompile_isSome (bnfaLoad_spec false args).2.1
    (bnfaLoad_spec false args).2.2.1 (by decide)
  obtain ⟨-, n, lab, δ, index, -, -, -, -, hsearch⟩ :=
    bnfaSearch_follows_ahoCorasick args hne bnfa hcomp
  have hrun := hsearch [97, 98, 97, 98] record record_returnsZero [] 0
  simp only [fire_record, nil_append] at hrun
  exact ⟨hne, bnfa, _, _, hcomp, hrun⟩
end Snort.Bnfa
