import Snort.Automata.Determinize
import Snort.SearchEngines.SearchCommon
import Snort.SearchEngines.TransList

/-!
# Building the automaton of `acsmx2.cc`

The second Aho-Corasick engine builds its automaton in transition lists and
stores it afterwards in one of several row formats. This module has the part up
to the finished lists: the keyword trie, the failure states with the inherited
match lists, and, if the DFA is enabled, the lists after the failures have been
folded in.
-/

namespace Snort.Acsmx2
open Option Automata TransList
open Function (update update_of_ne update_self)

/-! ## Data -/

variable {table : ℕ → TransList}

/-- `ACSM_PATTERN2` without the trees of the agent; `udata` is the user's address. -/
structure AcsmPattern2 where
  patrn : List UInt8
  casepatrn : List UInt8
  udata : ℕ
  nocase : Bool
  negative : Bool
deriving DecidableEq, Repr

/-- The storage formats. Only the engine with full rows offers compressed
states, so the flag `compress_states` belongs to that format. -/
inductive AcsmFormat where
  | full (compressStates : Bool)
  | sparse
  | banded
  | sparseBands
deriving DecidableEq, Repr

/-- The code in the first word of a row. -/
def acfFull : ℕ := 0
def acfSparse : ℕ := 1
def acfBanded : ℕ := 2
def acfSparseBands : ℕ := 3

/-- `ACSM_STRUCT2`. `ACSM_FAIL_STATE2` is `none` where a state is read from the
lists. The alphabet has 256 letters, as `acsmNew2` sets it. -/
structure AcsmStruct2 where
  acsmPatterns : List AcsmPattern2
  acsmFailState : Option (ℕ → ℕ)
  acsmMatchList : ℕ → List AcsmPattern2
  acsmTransTable : ℕ → TransList
  acsmNextState : ℕ → List ℕ
  acsmMaxStates : ℕ
  acsmNumStates : ℕ
  acsmFormat : AcsmFormat
  acsmSparseMaxRowNodes : ℕ
  acsmSparseMaxZcnt : ℕ
  numPatterns : ℕ
  sizeofstate : ℕ
  dfa : Bool

variable (format : AcsmFormat) (dfa : Bool)

def acsmNew2 : AcsmStruct2 where
  acsmPatterns := []
  acsmFailState := none
  acsmMatchList := fun _ => []
  acsmTransTable := fun _ => empty
  acsmNextState := fun _ => []
  acsmMaxStates := 0
  acsmNumStates := 0
  acsmFormat := format
  acsmSparseMaxRowNodes := 256
  acsmSparseMaxZcnt := 10
  numPatterns := 0
  sizeofstate := 0
  dfa := dfa

def acsmPattern2 (a : PatternArgs) : AcsmPattern2 where
  patrn := convertCaseEx a.pat
  casepatrn := a.pat
  udata := a.user
  nocase := a.nocase
  negative := a.negative

def acsmAddPattern2 (p : AcsmStruct2) (a : PatternArgs) : AcsmStruct2 :=
  { p with
    acsmPatterns := acsmPattern2 a :: p.acsmPatterns
    numPatterns := p.numPatterns + 1 }

variable (args : List PatternArgs)

/-- An engine of the given format to which the patterns have been added. -/
def acsmLoad2 : AcsmStruct2 :=
  args.foldl acsmAddPattern2 (acsmNew2 format dfa)

theorem acsmLoad2_spec :
    (acsmLoad2 format dfa args).acsmPatterns = (args.map acsmPattern2).reverse ∧
      (acsmLoad2 format dfa args).acsmFormat = format ∧
      (acsmLoad2 format dfa args).dfa = dfa := by
  induction args using List.reverseRecOn with
  | nil => exact ⟨rfl, rfl, rfl⟩
  | append_singleton args a ih =>
    unfold acsmLoad2 at ih ⊢
    rw [List.foldl_append, List.map_append, List.reverse_append]
    exact ⟨congrArg _ ih.1, ih.2⟩

theorem patrn_ne_nil {args : List PatternArgs} (hne : ∀ a ∈ args, a.pat ≠ []) :
    ∀ p ∈ (args.map acsmPattern2).reverse, p.patrn ≠ [] := by
  intro p hp
  obtain ⟨a, ha, rfl⟩ := List.mem_map.mp (List.mem_reverse.mp hp)
  exact fun hnil => hne a ha (convertCaseEx_eq_nil_iff.mp hnil)

/-! ## Transition lists -/

/-- `List_GetNextState`. -/
def listGetNextState (table : ℕ → TransList) (state : ℕ) (input : UInt8) : Option ℕ :=
  match (table state).lookup input with
  | some next => some next
  | none => if state = 0 then some 0 else none

/-- `List_GetNextState2`, where the default is state 0. -/
def listGetNextState2 (table : ℕ → TransList) (state : ℕ) (input : UInt8) : ℕ :=
  ((table state).lookup input).getD 0

/-- `List_PutNextState`. -/
def listPutNextState (table : ℕ → TransList) (state : ℕ) (input : UInt8) (next : ℕ) :
    ℕ → TransList :=
  update table state ((table state).put input next)

theorem lookup_listPutNextState_of_ne (table : ℕ → TransList) {state state' : ℕ}
    {input input' : UInt8} (next : ℕ) (hne : ¬(state' = state ∧ input' = input)) :
    (listPutNextState table state input next state').lookup input' =
      (table state').lookup input' := by
  unfold listPutNextState
  by_cases hs : state' = state
  · subst hs
    rw [update_self]
    exact lookup_put_of_ne _ _ (fun hc => hne ⟨rfl, hc⟩)
  · rw [update_of_ne hs]

theorem lookup_listPutNextState_self (table : ℕ → TransList) (state : ℕ) (input : UInt8)
    (next : ℕ) : (listPutNextState table state input next state).lookup input = some next := by
  rw [listPutNextState, update_self]
  exact lookup_put_self ..

/-- The lists as the trie construction uses them. -/
def listRows : Rows (ℕ → TransList) UInt8 where
  get := listGetNextState
  put := listPutNextState
  get_put_self t s c m := by
    rw [listGetNextState, lookup_listPutNextState_self]
  get_put_of_ne t s c m s' c' hne := by
    rw [listGetNextState, lookup_listPutNextState_of_ne t m hne, listGetNextState]

/-- The lists with `acsmTransTableOpt`, the array of pointers to their nodes:
`opt` says which pointers are set. -/
structure TransTableOpt where
  table : ℕ → TransList
  opt : ℕ → UInt8 → Bool
  opt_iff : ∀ s c, opt s c = true ↔ (table s).lookup c ≠ none

/-- The loop that fills the array. -/
def TransTableOpt.ofTable (table : ℕ → TransList) : TransTableOpt where
  table := table
  opt s c := ((table s).lookup c).isSome
  opt_iff s c := by rw [isSome_iff_ne_none]

variable (t : TransTableOpt) (state : ℕ) (input : UInt8)

/-- `List_GetNextStateOpt`. -/
def listGetNextStateOpt : Option ℕ :=
  if t.opt state input then (t.table state).lookup input
  else if state = 0 then some 0
  else none

/-- `List_PutNextStateOpt`: through the pointer, or a new node at the head. -/
def listPutNextStateOpt (next : ℕ) :
    TransTableOpt where
  table := listPutNextState t.table state input next
  opt := if t.opt state input then t.opt
    else update t.opt state (update (t.opt state) input true)
  opt_iff s c := by
    by_cases hcur : s = state ∧ c = input
    · obtain ⟨rfl, rfl⟩ := hcur
      rw [lookup_listPutNextState_self]
      by_cases hopt : t.opt s c = true
      · simp [hopt]
      · simp [hopt]
    · have hother : (if t.opt state input then t.opt
          else update t.opt state (update (t.opt state) input true)) s c =
          t.opt s c := by
        split
        · rfl
        · by_cases hs : s = state
          · subst hs
            have hc : c ≠ input := fun hc => hcur ⟨rfl, hc⟩
            rw [update_self, update_of_ne hc]
          · rw [update_of_ne hs]
      rw [hother, lookup_listPutNextState_of_ne t.table next hcur]
      exact t.opt_iff s c

theorem listGetNextStateOpt_eq :
    listGetNextStateOpt t state input = listGetNextState t.table state input := by
  unfold listGetNextStateOpt listGetNextState
  have hiff := t.opt_iff state input
  cases hl : (t.table state).lookup input with
  | some m =>
    rw [hl] at hiff
    simp [hiff.mpr (by simp)]
  | none =>
    rw [hl] at hiff
    simp [hiff]

/-- The lists as the conversion to the DFA uses them. -/
def optRows : Rows TransTableOpt UInt8 where
  get := listGetNextStateOpt
  put := listPutNextStateOpt
  get_put_self t s c m := by
    rw [listGetNextStateOpt_eq]
    exact listRows.get_put_self ..
  get_put_of_ne t s c m s' c' hne := by
    rw [listGetNextStateOpt_eq, listGetNextStateOpt_eq]
    exact listRows.get_put_of_ne _ _ _ _ _ _ hne

/-! ## Compilation up to the lists -/

variable (acsm : AcsmStruct2)

def AcsmStruct2.trie : KeywordTrie (ℕ → TransList) AcsmPattern2 :=
  ⟨acsm.acsmTransTable, acsm.acsmNumStates, acsm.acsmMatchList⟩

/-- `AddPatternStates`; a transition to state 0 is none to follow. -/
def addPatternStates (p : AcsmPattern2) : AcsmStruct2 :=
  let k := acsm.trie.add (listRows.trans true) AcsmPattern2.patrn p
  { acsm with
    acsmTransTable := k.table, acsmNumStates := k.numStates, acsmMatchList := k.matchList }

/-- `Build_NFA`. A state that waits in the queue is not queued again. -/
def buildNFA : Option AcsmStruct2 :=
  (buildLinks alphabet (listGetNextState acsm.acsmTransTable) (fun _ _ => ()) true
    acsm.acsmNumStates ⟨fun _ => 0, acsm.acsmMatchList, fun _ => false, ()⟩).map
    (fun L => { acsm with acsmFailState := some L.fail, acsmMatchList := L.out })

/-- `Convert_NFA_To_DFA`, after which the failure states are freed. -/
def convertNFAToDFA (failState : ℕ → ℕ) : Option AcsmStruct2 :=
  (determinize optRows failState true true alphabet acsm.acsmNumStates
    (TransTableOpt.ofTable acsm.acsmTransTable)).map
    (fun t => { acsm with acsmTransTable := t.table, acsmFailState := none })

/-- The size of a state in a row, by the number of states. -/
def sizeofState (numStates : ℕ) : ℕ :=
  match format with
  | .full true => if numStates < 255 then 1 else if numStates < 65535 then 2 else 4
  | _ => 4

def acsmInitTable2 : AcsmStruct2 :=
  { acsm with
    acsmMaxStates := acsm.acsmMaxStates + (acsm.acsmPatterns.map fun p => p.patrn.length).sum + 1
    acsmNumStates := 0
    acsmTransTable := fun _ => empty
    acsmMatchList := fun _ => [] }

/-- Count state 0 and choose the size of a state. -/
def acsmCountStates : AcsmStruct2 :=
  { acsm with
    acsmNumStates := acsm.acsmNumStates + 1
    sizeofstate := sizeofState acsm.acsmFormat (acsm.acsmNumStates + 1) }

/-- `_acsmCompile2` up to the finished transition lists. -/
def acsmBuildLists : Option AcsmStruct2 :=
  let acsm := acsmInitTable2 acsm
  let acsm := acsm.acsmPatterns.foldl addPatternStates acsm
  let acsm := acsmCountStates acsm
  (buildNFA acsm).bind fun acsm =>
    if acsm.dfa then acsm.acsmFailState.bind (convertNFAToDFA acsm) else some acsm

/-! ## The finished lists -/

theorem usable_listGetNextState (h : ∀ s c, (table s).lookup c ≠ some 0) :
    IsNfa ((listRows.trans true).get table) (listGetNextState table) where
  root c := by
    show _ = some ((usable true (listGetNextState table 0 c)).getD 0)
    cases hl : (table 0).lookup c with
    | none =>
      simp only [listGetNextState, hl, if_true]
      rfl
    | some m =>
      have hm : m ≠ 0 := fun h0 => h 0 c (by rw [hl, h0])
      simp [listGetNextState, hl, usable_of_ne_zero true hm]
  other {s} c hs := by
    show _ = usable true (listGetNextState table s c)
    cases hl : (table s).lookup c with
    | none => simp [listGetNextState, hl, hs, usable]
    | some m =>
      have hm : m ≠ 0 := fun h0 => h s c (by rw [hl, h0])
      simp [listGetNextState, hl, usable_of_ne_zero true hm]

theorem getD_listGetNextState (table : ℕ → TransList) (s : ℕ) (c : UInt8) :
    (listGetNextState table s c).getD 0 = listGetNextState2 table s c := by
  unfold listGetNextState listGetNextState2
  cases (table s).lookup c with
  | some m => rfl
  | none => by_cases hs : s = 0 <;> simp [hs]

/-- The lists `_acsmCompile2` builds for the patterns `ps`: with the failure
states they are the NFA, with the failures folded in they are the DFA, and both
go from each state to the same next state. -/
structure IsListBuild (ps : List AcsmPattern2) (n : ℕ) (lab : ℕ → List UInt8)
    (mlist : ℕ → List AcsmPattern2) (fail : ℕ → ℕ) (nfa dfa : ℕ → TransList) : Prop where
  automaton : IsAutomaton n lab AcsmPattern2.patrn ps (listGetNextState2 dfa)
  matcher : (∀ p ∈ ps, p.patrn ≠ []) →
    IsMatcher n lab AcsmPattern2.patrn ps (listGetNextState2 dfa) mlist
  chase_nfa : ∀ s, s < n → ∀ c,
    chase (listGetNextState nfa) fail c n s = some (listGetNextState2 dfa s c)
  fail_lt : ∀ s, s < n → fail s < n
  nfa_cell : ∀ s, s < n → ∀ c m, (nfa s).lookup c = some m → m ≠ 0 ∧ m < n
  dfa_cell : ∀ s, s < n → ∀ c m, (dfa s).lookup c = some m → m ≠ 0 ∧ m < n

/-- The record after the lists are built. -/
def AcsmStruct2.withLists (n : ℕ) (mlist : ℕ → List AcsmPattern2) (fail : ℕ → ℕ)
    (nfa dfa : ℕ → TransList) : AcsmStruct2 :=
  { acsm with
    acsmMaxStates := (acsmInitTable2 acsm).acsmMaxStates
    acsmNumStates := n
    sizeofstate := sizeofState acsm.acsmFormat n
    acsmMatchList := mlist
    acsmTransTable := if acsm.dfa then dfa else nfa
    acsmFailState := if acsm.dfa then none else some fail }

variable (ps : List AcsmPattern2)

theorem addPatternStates_foldl (acsm : AcsmStruct2) :
    ps.foldl addPatternStates acsm =
      let k := ps.foldl (KeywordTrie.add (listRows.trans true) AcsmPattern2.patrn) acsm.trie
      { acsm with
        acsmTransTable := k.table, acsmNumStates := k.numStates,
        acsmMatchList := k.matchList } := by
  induction ps generalizing acsm with
  | nil => rfl
  | cons p ps ih => exact ih (addPatternStates acsm p)

/-- The trie has no transition to state 0, and neither has the DFA. -/
def NoZero (table : ℕ → TransList) : Prop :=
  ∀ s c, (table s).lookup c ≠ some 0

theorem NoZero.put (h : NoZero table) (s : ℕ) (c : UInt8) {m : ℕ}
    (hm : m ≠ 0) : NoZero (listPutNextState table s c m) := by
  intro s' c'
  by_cases hcur : s' = s ∧ c' = c
  · rw [hcur.1, hcur.2, lookup_listPutNextState_self]
    exact fun he => hm (Option.some.inj he)
  · rw [lookup_listPutNextState_of_ne table m hcur]
    exact h s' c'

theorem optRows_get_ofTable (table : ℕ → TransList) :
    optRows.get (TransTableOpt.ofTable table) = listGetNextState table := by
  funext s c
  exact listGetNextStateOpt_eq _ _ _

/-- The trie of the patterns, in the order of the list. -/
def patternTrie : KeywordTrie (ℕ → TransList) AcsmPattern2 :=
  ps.foldl (KeywordTrie.add (listRows.trans true) AcsmPattern2.patrn)
    ⟨fun _ => empty, 0, fun _ => []⟩

theorem patternTrie_spec :
    NoZero (patternTrie ps).table ∧
      ∃ lab, IsKeywordTrie (listRows.trans true) AcsmPattern2.patrn ps (patternTrie ps) lab := by
  refine ⟨?_, isKeywordTrie_foldl _ ?_ ps⟩
  · refine foldl_add_table _ _ NoZero ?_ ps _ ?_
    · intro t s c m hm ht
      exact ht.put s c (by omega)
    · intro s c
      simp [lookup, empty, lookupNode]
  · intro s c
    by_cases hs : s = 0 <;>
      simp only [Rows.trans, listRows, listGetNextState, lookup, empty,
        lookupNode, hs, if_true, if_false] <;> rfl

/-- The lists depend on the patterns alone, not on the storage format. -/
theorem acsmBuildLists_spec :
    ∃ n lab mlist fail nfa dfa, IsListBuild ps n lab mlist fail nfa dfa ∧
      ∀ acsm, acsm.acsmPatterns = ps →
        acsmBuildLists acsm = some (acsm.withLists n mlist fail nfa dfa) := by
  obtain ⟨hzero, lab, hk⟩ := patternTrie_spec ps
  set k := patternTrie ps with hkdef
  have hnfa := usable_listGetNextState hzero
  obtain ⟨L, hbuild, hL⟩ := hk.links hnfa alphabet_nodup mem_alphabet (fun _ _ => ()) true
    ⟨fun _ => 0, k.matchList, fun _ => false, ()⟩ (fun _ => rfl) (Nat.le_refl _)
  have hopt : IsNfa ((listRows.trans true).get k.table)
      (optRows.get (TransTableOpt.ofTable k.table)) := by
    rw [optRows_get_ofTable]
    exact hnfa
  obtain ⟨t, hdet, hauto, -, -⟩ := hk.rows_isAutomaton hopt hL alphabet_nodup mem_alphabet
    true true (Nat.le_refl _)
  have hδ : ∀ s c, (optRows.get t s c).getD 0 = listGetNextState2 t.table s c := by
    intro s c
    show (listGetNextStateOpt t s c).getD 0 = _
    rw [listGetNextStateOpt_eq, getD_listGetNextState]
  simp only [hδ] at hauto
  have hzero' : NoZero t.table := determinize_table (fun t => NoZero t.table) (by
    intro t s c m hm ht
    exact ht.put s c (ne_zero_of_usable_true hm)) hdet hzero
  obtain ⟨hsome, hchase⟩ := hk.chase_isAutomaton hnfa hL (Nat.le_refl _)
  refine ⟨k.numStates + 1, lab, L.out, L.fail, k.table, t.table, ⟨hauto, ?_, ?_, ?_, ?_, ?_⟩, ?_⟩
  · intro hne
    exact hk.isMatcher rfl hL hne hauto
  · intro s hs c
    obtain ⟨m, hm⟩ := isSome_iff_exists.mp (hsome s hs c)
    have hnext := hchase.next s hs c
    rw [hm, getD_some] at hnext
    rw [hm, hnext.unique hk.trie (hauto.next s hs c)]
  · intro s hs
    by_cases h0 : s = 0
    · rw [h0, hL.root.1]
      exact Nat.succ_pos _
    · exact (hL.fails s hs h0).1
  · intro s hs c m hm
    have hm0 : m ≠ 0 := fun h0 => hzero s c (by rw [hm, h0])
    refine ⟨hm0, hk.trie.goto_lt hs (a := c) ?_⟩
    show usable true (listGetNextState k.table s c) = some m
    rw [listGetNextState, hm, usable_of_ne_zero true hm0]
  · intro s hs c m hm
    refine ⟨fun h0 => hzero' s c (by rw [hm, h0]), ?_⟩
    have hlt := (hauto.next s hs c).1
    rwa [listGetNextState2, hm, getD_some] at hlt
  · intro acsm hps
    subst hps
    have hfold : acsm.acsmPatterns.foldl addPatternStates (acsmInitTable2 acsm) =
        { acsmInitTable2 acsm with acsmTransTable := k.table, acsmNumStates := k.numStates,
                                   acsmMatchList := k.matchList } :=
      addPatternStates_foldl _ _
    show (buildNFA (acsmCountStates
      (acsm.acsmPatterns.foldl addPatternStates (acsmInitTable2 acsm)))).bind _ = _
    rw [hfold]
    -- the passes see the trie with all its states counted
    have hnfa' : buildNFA (acsmCountStates { acsmInitTable2 acsm with
        acsmTransTable := k.table, acsmNumStates := k.numStates,
        acsmMatchList := k.matchList }) =
        some { acsmCountStates { acsmInitTable2 acsm with
          acsmTransTable := k.table, acsmNumStates := k.numStates,
          acsmMatchList := k.matchList } with
          acsmFailState := some L.fail, acsmMatchList := L.out } := by
      exact congrArg (Option.map _) hbuild
    rw [hnfa', bind_some]
    by_cases hd : acsm.dfa = true
    · have hdfa : ∀ a : AcsmStruct2, a.acsmNumStates = k.numStates + 1 →
          a.acsmTransTable = k.table → convertNFAToDFA a L.fail =
            some { a with acsmTransTable := t.table, acsmFailState := none } := by
        intro a hn ht
        rw [convertNFAToDFA, hn, ht, hdet, map_some]
      show (if acsm.dfa then _ else _) = _
      rw [if_pos hd, bind_some, hdfa _ rfl rfl]
      simp only [AcsmStruct2.withLists, acsmCountStates, acsmInitTable2, hd, if_true]
    · show (if acsm.dfa then _ else _) = _
      simp only [AcsmStruct2.withLists, acsmCountStates, acsmInitTable2, hd, if_false,
        Bool.false_eq_true]
end Snort.Acsmx2
