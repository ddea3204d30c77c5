import Snort.Automata.Determinize
import Snort.Automata.Matcher
import Snort.SearchEngines.SearchCommon
import Snort.SearchEngines.TransList

/-!
# Building the automaton of `bnfa_search.cc`

The engine `ac_bnfa` builds a keyword trie in transition lists, adds failure
states, and may then shorten the failure chains. State 0 is an array with a
transition for every byte, so it never fails; the other states have lists.
-/

namespace Snort.Bnfa
open Automata TransList
open Function (update update_of_ne update_self)

/-! ## Data -/

/-- `bnfa_pattern_t`. A pattern without bytes gets no memory and is refused. -/
structure BnfaPattern where
  casepatrn : List UInt8
  userdata : ℕ
  nocase : Bool
  negative : Bool
  nonempty : casepatrn ≠ []
deriving DecidableEq, Repr

inductive BnfaCaseMode where
  | perPatCase
  | onlyCase
  | noCase
deriving DecidableEq, Repr

/-- `bnfaTransTable`: the array of state 0, which reads as zeros before it is
allocated, and the lists of the other states. -/
structure BnfaTransTable where
  zero : UInt8 → ℕ
  lists : ℕ → TransList

variable {t : BnfaTransTable}

def bnfaListGetNextState (t : BnfaTransTable) (state : ℕ) (input : UInt8) : Option ℕ :=
  if state = 0 then some (t.zero input) else (t.lists state).lookup input

def bnfaListPutNextState (t : BnfaTransTable) (state : ℕ) (input : UInt8) (next_state : ℕ) :
    BnfaTransTable :=
  if state = 0 then { t with zero := update t.zero input next_state }
  else { t with lists := update t.lists state ((t.lists state).put input next_state) }

/-- The table as the construction of the trie uses it. -/
def bnfaRows : Rows BnfaTransTable UInt8 where
  get := bnfaListGetNextState
  put := bnfaListPutNextState
  get_put_self t s c m := by
    unfold bnfaListGetNextState bnfaListPutNextState
    by_cases hs : s = 0
    · simp only [if_pos hs, update_self]
    · simp only [if_neg hs, update_self, lookup_put_self]
  get_put_of_ne t s c m s' c' hne := by
    unfold bnfaListGetNextState bnfaListPutNextState
    by_cases hs' : s' = 0
    · by_cases hs : s = 0
      · have hc : c' ≠ c := fun he => hne ⟨hs'.trans hs.symm, he⟩
        simp only [if_pos hs, if_pos hs', update_of_ne hc]
      · simp only [if_neg hs, if_pos hs']
    · by_cases hs : s = 0
      · simp only [if_pos hs, if_neg hs']
      · simp only [if_neg hs, if_neg hs']
        by_cases he : s' = s
        · subst he
          rw [update_self]
          exact lookup_put_of_ne _ _ (fun hc => hne ⟨rfl, hc⟩)
        · rw [update_of_ne he]

/-- `bnfa_struct_t`, always with the sparse format and 256 letters, as `bnfaNew`
sets it. -/
structure BnfaStruct where
  bnfaPatterns : List BnfaPattern
  bnfaPatternCnt : ℕ
  bnfaCaseMode : BnfaCaseMode
  bnfaOpt : Bool
  bnfaForceFullZeroState : Bool
  bnfaMaxStates : ℕ
  bnfaNumStates : ℕ
  bnfaMatchStates : ℕ
  bnfaTransTable : BnfaTransTable
  bnfaMatchList : ℕ → List BnfaPattern
  bnfaFailState : ℕ → ℕ
  bnfaTransList : List ℕ

def bnfaNew : BnfaStruct where
  bnfaPatterns := []
  bnfaPatternCnt := 0
  bnfaCaseMode := .perPatCase
  bnfaOpt := false
  bnfaForceFullZeroState := true
  bnfaMaxStates := 0
  bnfaNumStates := 0
  bnfaMatchStates := 0
  bnfaTransTable := ⟨fun _ => 0, fun _ => empty⟩
  bnfaMatchList := fun _ => []
  bnfaFailState := fun _ => 0
  bnfaTransList := []

def bnfaSetOpt (p : BnfaStruct) (flag : Bool) : BnfaStruct :=
  { p with bnfaOpt := flag }

/-- `bnfaAddPattern`, with `none` for −1. -/
def bnfaAddPattern (p : BnfaStruct) (a : PatternArgs) : Option BnfaStruct :=
  if h : a.pat = [] then none
  else
    some { p with
      bnfaPatterns := ⟨a.pat, a.user, a.nocase, a.negative, h⟩ :: p.bnfaPatterns
      bnfaPatternCnt := p.bnfaPatternCnt + 1 }

/-! ## The keyword trie -/

/-- The letter under which a byte of a pattern is stored. -/
def storedLetter (mode : BnfaCaseMode) (c : UInt8) : UInt8 :=
  if mode = .onlyCase then c else xlatcase c

def BnfaPattern.word (mode : BnfaCaseMode) (p : BnfaPattern) : List UInt8 :=
  p.casepatrn.map (storedLetter mode)

theorem BnfaPattern.word_ne_nil (mode : BnfaCaseMode) (p : BnfaPattern) : p.word mode ≠ [] :=
  fun h => p.nonempty (List.map_eq_nil_iff.mp h)

def BnfaStruct.trie (bnfa : BnfaStruct) : KeywordTrie BnfaTransTable BnfaPattern :=
  ⟨bnfa.bnfaTransTable, bnfa.bnfaNumStates, bnfa.bnfaMatchList⟩

/-- `_bnfa_add_pattern_states`. Its tests against `bnfaMaxStates` never fire
(`patternTrie_numStates_le`). -/
def bnfaAddPatternStates (bnfa : BnfaStruct) (p : BnfaPattern) : BnfaStruct :=
  let k := KeywordTrie.add (bnfaRows.trans true) (BnfaPattern.word bnfa.bnfaCaseMode) bnfa.trie p
  { bnfa with
    bnfaTransTable := k.table, bnfaNumStates := k.numStates, bnfaMatchList := k.matchList }

/-! ## Failure states -/

/-- `KcontainsJ`: every transition of `tj` is one of `tk`, or `tk` is empty. -/
def kcontainsJ (tk tj : TransList) : Bool :=
  if tk.nodes.length = 0 then true
  else tj.nodes.all fun t => (tk.convToFull id).getD t.key.toNat 0 != 0

/-- The loop `while (fs && KcontainsJ(...)) fs = FailState[fs]`. -/
def skipContained (t : BnfaTransTable) (failState : ℕ → ℕ) (k : ℕ) : ℕ → ℕ → Option ℕ
  | 0, _ => none
  | fuel + 1, fs =>
    if fs ≠ 0 ∧ kcontainsJ (t.lists k) (t.lists fs) = true then
      skipContained t failState k fuel (failState fs)
    else some fs

/-- `_bnfa_opt_nfa`. Links of lower states that are read have been rewritten. -/
def bnfaOptNfa (t : BnfaTransTable) (numStates : ℕ) (failState : ℕ → ℕ) : Option (ℕ → ℕ) :=
  (List.range' 2 (numStates - 2)).foldlM (fun failState k =>
    (skipContained t failState k numStates (failState k)).map
      fun fs => update failState k fs) failState

/-- `_bnfa_build_nfa`. -/
def bnfaBuildNfa (bnfa : BnfaStruct) : Option BnfaStruct :=
  (buildLinks alphabet (bnfaListGetNextState bnfa.bnfaTransTable) (fun _ _ => ()) false
      bnfa.bnfaNumStates ⟨bnfa.bnfaFailState, bnfa.bnfaMatchList, fun _ => false, ()⟩).bind
    fun L =>
      let bnfa := { bnfa with bnfaFailState := L.fail, bnfaMatchList := L.out }
      if bnfa.bnfaOpt then
        (bnfaOptNfa bnfa.bnfaTransTable bnfa.bnfaNumStates bnfa.bnfaFailState).map
          fun failState => { bnfa with bnfaFailState := failState }
      else some bnfa

/-- The number of states is limited by the 24 bits of a transition. -/
def bnfaSparseMaxState : ℕ := 0x00ffffff

/-- The first half of `_bnfaCompile`: sizes, the trie, and its states counted. -/
def bnfaBuildTrie (bnfa : BnfaStruct) : BnfaStruct :=
  let maxStates := bnfa.bnfaMaxStates + (bnfa.bnfaPatterns.map fun p => p.casepatrn.length).sum + 1
  let bnfa := bnfa.bnfaPatterns.foldl bnfaAddPatternStates
    { bnfa with
      bnfaMaxStates := maxStates
      bnfaTransTable := ⟨fun _ => 0, fun _ => empty⟩
      bnfaMatchList := fun _ => []
      bnfaNumStates := 0 }
  { bnfa with bnfaNumStates := bnfa.bnfaNumStates + 1, bnfaFailState := fun _ => 0 }

/-- `_bnfaCompile` up to the failure states. -/
def bnfaBuildLists (bnfa : BnfaStruct) : Option BnfaStruct :=
  let bnfa := bnfaBuildTrie bnfa
  if bnfa.bnfaNumStates > bnfaSparseMaxState then none else bnfaBuildNfa bnfa

/-! ## What the construction leaves behind -/

/-- The trie of the patterns, in the order of the list. -/
def patternTrie (mode : BnfaCaseMode) (ps : List BnfaPattern) :
    KeywordTrie BnfaTransTable BnfaPattern :=
  ps.foldl (KeywordTrie.add (bnfaRows.trans true) (BnfaPattern.word mode))
    ⟨⟨fun _ => 0, fun _ => empty⟩, 0, fun _ => []⟩

theorem bnfaAddPatternStates_foldl (ps : List BnfaPattern) : ∀ bnfa : BnfaStruct,
    ps.foldl bnfaAddPatternStates bnfa =
      let k := ps.foldl
        (KeywordTrie.add (bnfaRows.trans true) (BnfaPattern.word bnfa.bnfaCaseMode)) bnfa.trie
      { bnfa with
        bnfaTransTable := k.table, bnfaNumStates := k.numStates,
        bnfaMatchList := k.matchList } := by
  induction ps with
  | nil => intro bnfa; rfl
  | cons p ps ih => intro bnfa; exact ih (bnfaAddPatternStates bnfa p)

/-- No list has a transition to state 0. -/
def NoZero (t : BnfaTransTable) : Prop :=
  ∀ s c, (t.lists s).lookup c ≠ some 0

theorem NoZero.put (h : NoZero t) (s : ℕ) (c : UInt8) {m : ℕ}
    (hm : m ≠ 0) : NoZero (bnfaListPutNextState t s c m) := by
  intro s' c'
  unfold bnfaListPutNextState
  by_cases hs : s = 0
  · rw [if_pos hs]
    exact h s' c'
  · rw [if_neg hs]
    show (update t.lists s ((t.lists s).put c m) s').lookup c' ≠ some 0
    by_cases he : s' = s
    · subst he
      rw [update_self]
      by_cases hc : c' = c
      · rw [hc, lookup_put_self]
        exact fun h0 => hm (Option.some.inj h0)
      · rw [lookup_put_of_ne _ _ hc]
        exact h s' c'
    · rw [update_of_ne he]
      exact h s' c'

section
variable (mode : BnfaCaseMode) (ps : List BnfaPattern)
include mode ps

theorem patternTrie_noZero : NoZero (patternTrie mode ps).table := by
  refine foldl_add_table _ _ NoZero ?_ ps _ ?_
  · intro t s c m hm ht
    exact ht.put s c (Nat.ne_of_gt hm)
  · intro s c
    simp [lookup, empty, lookupNode]

theorem patternTrie_spec :
    ∃ lab, IsKeywordTrie (bnfaRows.trans true) (BnfaPattern.word mode) ps
      (patternTrie mode ps) lab := by
  refine isKeywordTrie_foldl _ ?_ ps
  intro s c
  show usable true (bnfaListGetNextState _ s c) = none
  unfold bnfaListGetNextState
  by_cases hs : s = 0
  · rw [if_pos hs]
    rfl
  · rw [if_neg hs]
    rfl

/-- One state per byte at most, so `bnfaMaxStates` is never reached. -/
theorem patternTrie_numStates_le :
    (patternTrie mode ps).numStates ≤ (ps.map fun p => p.casepatrn.length).sum := by
  obtain ⟨lab, hk⟩ := patternTrie_spec mode ps
  simpa only [BnfaPattern.word, List.length_map] using hk.numStates_le
end

theorem bnfaListGetNextState_isNfa (h : NoZero t) :
    IsNfa ((bnfaRows.trans true).get t) (bnfaListGetNextState t) where
  root c := by
    show some (t.zero c) = some ((usable true (some (t.zero c))).getD 0)
    rw [getD_usable]
  other := by
    intro s c hs
    show bnfaListGetNextState t s c = usable true (bnfaListGetNextState t s c)
    rw [bnfaListGetNextState, if_neg hs]
    cases hl : (t.lists s).lookup c with
    | none => rfl
    | some m =>
      have hm : m ≠ 0 := fun h0 => h s c (by rw [hl, h0])
      rw [usable_of_ne_zero true hm]

/-- The list form of the automaton: a trie whose states stand for the prefixes of
the patterns, failure states, and the lists of the patterns that end in a state. -/
structure IsListNfa (word : BnfaPattern → List UInt8) (ps : List BnfaPattern) (n : ℕ)
    (lab : ℕ → List UInt8) (t : BnfaTransTable) (mlist : ℕ → List BnfaPattern)
    (fail : ℕ → ℕ) : Prop where
  trie : IsTrie n ((bnfaRows.trans true).get t) lab
  nfa : IsNfa ((bnfaRows.trans true).get t) (bnfaListGetNextState t)
  lang : ∀ u, Lang n lab u ↔ u = [] ∨ ∃ p ∈ ps, u <+: word p
  fails : ∀ s, s < n → s ≠ 0 → IsFail n lab fail s
  fail_zero : fail 0 = 0
  matcher : ∀ δ, IsAutomaton n lab word ps δ → IsMatcher n lab word ps δ mlist

/-- The successor found by following failure states. -/
def nfaNext (t : BnfaTransTable) (fail : ℕ → ℕ) (n s : ℕ) (c : UInt8) : ℕ :=
  (chase (bnfaListGetNextState t) fail c n s).getD 0

section ListNfa
variable {word : BnfaPattern → List UInt8} {ps : List BnfaPattern} {n : ℕ}
  {lab : ℕ → List UInt8} {t : BnfaTransTable} {mlist : ℕ → List BnfaPattern} {fail : ℕ → ℕ} {s : ℕ}

section
variable (h : IsListNfa word ps n lab t mlist fail)
include h

theorem IsListNfa.fail_lt : ∀ s, s < n → fail s < n := by
  intro s hs
  by_cases h0 : s = 0
  · rw [h0, h.fail_zero]
    exact h.trie.pos
  · exact (h.fails s hs h0).1

theorem IsListNfa.chase_spec (hs : s < n) (c : UInt8) :
    chase (bnfaListGetNextState t) fail c n s = some (nfaNext t fail n s c) ∧
      IsNext n lab s c (nfaNext t fail n s c) := by
  obtain ⟨m, hm, hnext⟩ := Automata.chase_spec h.trie h.nfa c n s hs (h.trie.length_lab_lt hs)
    (fun u hu hu0 _ => h.fails u hu hu0)
  rw [nfaNext, hm, Option.getD_some]
  exact ⟨rfl, hnext⟩

theorem IsListNfa.automaton :
    IsAutomaton n lab word ps (nfaNext t fail n) where
  pos := h.trie.pos
  root := h.trie.root
  inj := h.trie.inj
  lang := h.lang
  next _ hs c := (h.chase_spec hs c).2

theorem IsListNfa.zero_lt (c : UInt8) : t.zero c < n := by
  have hnext := (IsNext.of_root (a := c) h.trie).1
  have hroot := h.nfa.root c
  rw [bnfaListGetNextState, if_pos rfl, Option.some.injEq] at hroot
  rwa [hroot]

theorem IsListNfa.lookup_lt (hs : s < n) (h0 : s ≠ 0) {c : UInt8} {m : ℕ}
    (hm : (t.lists s).lookup c = some m) : m ≠ 0 ∧ m < n := by
  have hgoto : (bnfaRows.trans true).get t s c = some m := by
    rw [← h.nfa.other c h0, bnfaListGetNextState, if_neg h0, hm]
  exact ⟨h.trie.goto_ne_zero hs hgoto, h.trie.goto_lt hs hgoto⟩
end
end ListNfa

/-- The record after the trie is built. -/
def BnfaStruct.withTrie (bnfa : BnfaStruct) : BnfaStruct :=
  let k := patternTrie bnfa.bnfaCaseMode bnfa.bnfaPatterns
  { bnfa with
    bnfaMaxStates :=
      bnfa.bnfaMaxStates + (bnfa.bnfaPatterns.map fun p => p.casepatrn.length).sum + 1
    bnfaTransTable := k.table
    bnfaNumStates := k.numStates + 1
    bnfaMatchList := k.matchList
    bnfaFailState := fun _ => 0 }

theorem bnfaBuildTrie_eq (bnfa : BnfaStruct) : bnfaBuildTrie bnfa = bnfa.withTrie := by
  simp only [bnfaBuildTrie, bnfaAddPatternStates_foldl]
  rfl

/-- Without the optimisation, the lists are those of the Aho-Corasick
construction. -/
theorem bnfaBuildLinks_spec (mode : BnfaCaseMode) (ps : List BnfaPattern) :
    let k := patternTrie mode ps
    ∃ lab L, buildLinks alphabet (bnfaListGetNextState k.table) (fun _ _ => ()) false
        (k.numStates + 1) ⟨fun _ => 0, k.matchList, fun _ => false, ()⟩ = some L ∧
      IsListNfa (BnfaPattern.word mode) ps (k.numStates + 1) lab k.table L.out L.fail := by
  intro k
  obtain ⟨lab, hk⟩ := patternTrie_spec mode ps
  have hnfa := bnfaListGetNextState_isNfa (patternTrie_noZero mode ps)
  obtain ⟨L, hbuild, hL⟩ := hk.links hnfa alphabet_nodup mem_alphabet (fun _ _ => ()) false
    ⟨fun _ => 0, k.matchList, fun _ => false, ()⟩ (fun _ => rfl) (Nat.le_refl _)
  refine ⟨lab, L, hbuild, hk.trie, hnfa, hk.lang, hL.fails, hL.root.1, ?_⟩
  intro δ hδ
  exact hk.isMatcher rfl hL (fun p _ => p.word_ne_nil mode) hδ

/-- The record after the failure states are built. -/
def BnfaStruct.withLinks (bnfa : BnfaStruct) (failState : ℕ → ℕ)
    (matchList : ℕ → List BnfaPattern) : BnfaStruct :=
  { bnfa.withTrie with bnfaFailState := failState, bnfaMatchList := matchList }

/-- The links that are built for the trie of the engine. -/
def BnfaStruct.HasLinks (bnfa : BnfaStruct) (L : Links BnfaPattern Unit) : Prop :=
  buildLinks alphabet (bnfaListGetNextState bnfa.withTrie.bnfaTransTable) (fun _ _ => ()) false
    bnfa.withTrie.bnfaNumStates
    ⟨bnfa.withTrie.bnfaFailState, bnfa.withTrie.bnfaMatchList, fun _ => false, ()⟩ = some L

theorem bnfaBuildLists_eq {bnfa : BnfaStruct} {L : Links BnfaPattern Unit}
    (hL : bnfa.HasLinks L) : bnfaBuildLists bnfa =
      if bnfa.withTrie.bnfaNumStates > bnfaSparseMaxState then none
      else if bnfa.bnfaOpt then
        (bnfaOptNfa bnfa.withTrie.bnfaTransTable bnfa.withTrie.bnfaNumStates L.fail).map
          fun failState => bnfa.withLinks failState L.out
      else some (bnfa.withLinks L.fail L.out) := by
  have hnfa : bnfaBuildNfa bnfa.withTrie =
      if bnfa.bnfaOpt then
        (bnfaOptNfa bnfa.withTrie.bnfaTransTable bnfa.withTrie.bnfaNumStates L.fail).map
          fun failState => bnfa.withLinks failState L.out
      else some (bnfa.withLinks L.fail L.out) := by
    unfold bnfaBuildNfa
    rw [hL]
    rfl
  simp only [bnfaBuildLists, bnfaBuildTrie_eq, hnfa]

theorem bnfaBuildLists_spec (bnfa : BnfaStruct) : ∃ lab L, bnfa.HasLinks L ∧
    IsListNfa (BnfaPattern.word bnfa.bnfaCaseMode) bnfa.bnfaPatterns bnfa.withTrie.bnfaNumStates
      lab bnfa.withTrie.bnfaTransTable L.out L.fail :=
  bnfaBuildLinks_spec bnfa.bnfaCaseMode bnfa.bnfaPatterns
end Snort.Bnfa
