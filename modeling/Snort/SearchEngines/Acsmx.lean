import Snort.Automata.Determinize
import Snort.SearchEngines.SearchCommon

/-!
# The standard Aho-Corasick engine (`acsmx.cc`)

A table of states with 256 next states each, `ACSM_FAIL_STATE` where there is
none. Patterns are inserted upper-cased, failure links and inherited match
lists come from a breadth-first pass, and a second pass folds the links into
the table. State numbers and counters are natural numbers; allocation succeeds.
-/

namespace Snort
open List Option Automata
open Function (update update_of_ne)

/-! ## Data -/

def acsmFailState : ℤ := -1

/-- `ACSM_USERDATA`, shared by all the copies of a pattern. -/
structure AcsmUserdata where
  id : ℕ
  refCount : ℕ
deriving DecidableEq, Repr

/-- `ACSM_PATTERN` without the trees of the agent; `udata` is an address. -/
structure AcsmPattern where
  udata : ℕ
  patrn : List UInt8
  casepatrn : List UInt8
  nocase : Bool
  negative : Bool
deriving DecidableEq, Repr

/-- `ACSM_STRUCT` with the columns of its state table, and the user data by
address. -/
structure AcsmStruct where
  acsmMaxStates : ℕ
  acsmNumStates : ℕ
  acsmPatterns : List AcsmPattern
  nextState : ℕ → UInt8 → ℤ
  failState : ℕ → ℕ
  matchList : ℕ → List AcsmPattern
  numPatterns : ℕ
  userdata : ℕ → AcsmUserdata

/-- The `NextState` rows, as the building passes read and write them. -/
def nextStateRows : Rows (ℕ → UInt8 → ℤ) UInt8 where
  get t s c := if t s c = acsmFailState then none else some (t s c).toNat
  put t s c m := update t s (update (t s) c m)
  get_put_self t s c m := by
    have hne : (m : ℤ) ≠ acsmFailState := by
      rw [acsmFailState]
      omega
    simp [hne]
  get_put_of_ne t s c m s' c' hne := by
    by_cases hs : s' = s
    · subst hs
      have hc : c' ≠ c := fun hc => hne ⟨rfl, hc⟩
      simp [update_of_ne hc]
    · simp [update_of_ne hs]

/-! ## Adding patterns -/

def acsmNew : AcsmStruct where
  acsmMaxStates := 0
  acsmNumStates := 0
  acsmPatterns := []
  nextState := fun _ _ => 0
  failState := fun _ => 0
  matchList := fun _ => []
  numPatterns := 0
  userdata := fun _ => ⟨0, 0⟩

/-- The pattern record of an add call, with its user data at address `k`. -/
def acsmPattern (k : ℕ) (a : PatternArgs) : AcsmPattern where
  udata := k
  patrn := convertCaseEx a.pat
  casepatrn := a.pat
  nocase := a.nocase
  negative := a.negative

/-- New patterns go to the front of the list. Each allocates its own user data,
at an address no earlier pattern has. -/
def acsmAddPattern (p : AcsmStruct) (a : PatternArgs) : AcsmStruct :=
  { p with
    acsmPatterns := acsmPattern p.numPatterns a :: p.acsmPatterns
    numPatterns := p.numPatterns + 1
    userdata := update p.userdata p.numPatterns ⟨a.user, 1⟩ }

/-! ## Compilation -/

def AcsmStruct.trie (acsm : AcsmStruct) : KeywordTrie (ℕ → UInt8 → ℤ) AcsmPattern :=
  ⟨acsm.nextState, acsm.acsmNumStates, acsm.matchList⟩

def AcsmStruct.links (acsm : AcsmStruct) : Links AcsmPattern (ℕ → AcsmUserdata) :=
  ⟨acsm.failState, acsm.matchList, fun _ => false, acsm.userdata⟩

/-- `AddPatternStates` with `AddMatchListEntry`. -/
def addPatternStates (acsm : AcsmStruct) (p : AcsmPattern) : AcsmStruct :=
  let k := acsm.trie.add (nextStateRows.trans false) AcsmPattern.patrn p
  { acsm with nextState := k.table, acsmNumStates := k.numStates, matchList := k.matchList }

/-- Copying a match-list entry counts a reference to its user data. -/
def copyMatchListEntry (px : AcsmPattern) (heap : ℕ → AcsmUserdata) : ℕ → AcsmUserdata :=
  update heap px.udata { heap px.udata with refCount := (heap px.udata).refCount + 1 }

/-- `Build_NFA`; the queue holds every state at most once, so the number of
table rows bounds its loop. -/
def buildNFA (acsm : AcsmStruct) : Option AcsmStruct :=
  (buildLinks alphabet (nextStateRows.get acsm.nextState) copyMatchListEntry false
    acsm.acsmMaxStates acsm.links).map
    (fun L => { acsm with failState := L.fail, matchList := L.out, userdata := L.mem })

/-- `Convert_NFA_To_DFA`. -/
def convertNFAToDFA (acsm : AcsmStruct) : Option AcsmStruct :=
  (determinize nextStateRows acsm.failState false false alphabet
    acsm.acsmMaxStates acsm.nextState).map
    (fun t => { acsm with nextState := t })

/-- The freshly allocated table: every next state is `ACSM_FAIL_STATE`. -/
def acsmInitTable (acsm : AcsmStruct) : AcsmStruct :=
  { acsm with
    acsmMaxStates := 1 + (acsm.acsmPatterns.map fun p => p.patrn.length).sum
    acsmNumStates := 0
    nextState := fun _ _ => acsmFailState
    failState := fun _ => 0
    matchList := fun _ => [] }

/-- All failed transitions of state 0 return to state 0. -/
def acsmSetRoot (acsm : AcsmStruct) : AcsmStruct :=
  { acsm with
    nextState := update acsm.nextState 0
      (fun c => if acsm.nextState 0 c = acsmFailState then 0 else acsm.nextState 0 c) }

/-- `_acsmCompile`. -/
def acsmCompile (acsm : AcsmStruct) : Option AcsmStruct :=
  let acsm := acsmInitTable acsm
  let acsm := acsm.acsmPatterns.foldl addPatternStates acsm
  let acsm := acsmSetRoot acsm
  (buildNFA acsm).bind convertNFAToDFA

/-! ## Search -/

/-- Reading `NextState[*T]`; `ACSM_FAIL_STATE` is no row of the table. -/
def AcsmStruct.step (acsm : AcsmStruct) (state : ℕ) (c : UInt8) : Option ℕ :=
  nextStateRows.get acsm.nextState state c

def AcsmStruct.isMatch (acsm : AcsmStruct) (state : ℕ) : Bool :=
  !(acsm.matchList state).isEmpty

/-- The size of the static buffer `Tc`. -/
def tcSize : ℕ :=
  64 * 1024

/-- `acsmSearch`; there is no result where the text is written past the end of `Tc`. -/
def acsmSearch {κ : Type*} (acsm : AcsmStruct) (Tx : List UInt8) (mtch : MpseMatch ℕ κ)
    (context : κ) (current_state : Option ℕ) : Option (SearchResult κ) :=
  -- `ConvertCaseEx(Tc, Tx, n)` is the first statement and does not look at the size
  if tcSize < Tx.length then none
  else
    let Tc := convertCaseEx Tx
    match current_state with
    | none => some ⟨0, context, none⟩
    | some state =>
      (scanAfter acsm.step acsm.isMatch mtch Tc 0 state 0 context).map
        (fun r => ⟨r.nfound, r.context, some r.state⟩)

theorem acsmSearch_eq_none {κ : Type*} (acsm : AcsmStruct) {Tx : List UInt8}
    (h : tcSize < Tx.length) (mtch : MpseMatch ℕ κ) (context : κ) (current_state : Option ℕ) :
    acsmSearch acsm Tx mtch context current_state = none :=
  if_pos h

theorem acsmSearch_of_fits {κ : Type*} (acsm : AcsmStruct) {Tx : List UInt8}
    (h : Tx.length ≤ tcSize) (mtch : MpseMatch ℕ κ) (context : κ) (state : ℕ) :
    acsmSearch acsm Tx mtch context (some state) =
      (scanAfter acsm.step acsm.isMatch mtch (convertCaseEx Tx) 0 state 0 context).map
        (fun r => ⟨r.nfound, r.context, some r.state⟩) :=
  if_neg (Nat.not_lt.mpr h)

/-! ## The compiled table -/

/-- The added patterns, as records in the order of the calls. -/
def acsmAdded (args : List PatternArgs) : List AcsmPattern :=
  args.mapIdx acsmPattern

theorem acsmAddPattern_foldl (args : List PatternArgs) :
    (args.foldl acsmAddPattern acsmNew).acsmPatterns = (acsmAdded args).reverse ∧
      (args.foldl acsmAddPattern acsmNew).numPatterns = args.length := by
  induction args using List.reverseRecOn with
  | nil => exact ⟨rfl, rfl⟩
  | append_singleton args a ih =>
    rw [foldl_append, foldl_cons, foldl_nil]
    refine ⟨?_, ?_⟩
    · rw [acsmAddPattern, ih.1, ih.2, acsmAdded, acsmAdded, mapIdx_concat, reverse_append]
      rfl
    · rw [acsmAddPattern, ih.2, length_append, length_singleton]

theorem map_patrn_acsmAdded (args : List PatternArgs) :
    (acsmAdded args).map AcsmPattern.patrn = args.map fun a => convertCaseEx a.pat := by
  induction args using List.reverseRecOn with
  | nil => rfl
  | append_singleton args a ih =>
    rw [acsmAdded, mapIdx_concat, map_append, map_append, ← ih]
    rfl

/-- The transition function of a compiled table. -/
def AcsmStruct.delta (acsm : AcsmStruct) (state : ℕ) (c : UInt8) : ℕ :=
  (acsm.nextState state c).toNat

theorem addPatternStates_foldl (ps : List AcsmPattern) (acsm : AcsmStruct) :
    (ps.foldl addPatternStates acsm).trie =
        ps.foldl (KeywordTrie.add (nextStateRows.trans false) AcsmPattern.patrn) acsm.trie ∧
      (ps.foldl addPatternStates acsm).acsmMaxStates = acsm.acsmMaxStates := by
  induction ps generalizing acsm with
  | nil => exact ⟨rfl, rfl⟩
  | cons p ps ih => exact ih (addPatternStates acsm p)

theorem nextStateRows_get_acsmSetRoot (acsm : AcsmStruct) :
    IsNfa (nextStateRows.get acsm.nextState)
      (nextStateRows.get (acsmSetRoot acsm).nextState) where
  root c := by
    have h0 : ¬ (0 : ℤ) = acsmFailState := by decide
    by_cases hfail : acsm.nextState 0 c = acsmFailState
    · simp [nextStateRows, acsmSetRoot, hfail, h0]
    · simp [nextStateRows, acsmSetRoot, hfail]
  other c hs := by
    simp [nextStateRows, acsmSetRoot, update_of_ne hs]

/-- A compiled table is the automaton of its patterns, no row has a failed
transition left, and the match lists are complete unless a pattern is empty. -/
structure AcsmStruct.Compiled (acsm : AcsmStruct) (ps : List AcsmPattern)
    (lab : ℕ → List UInt8) : Prop where
  automaton : IsAutomaton (acsm.acsmNumStates + 1) lab AcsmPattern.patrn ps acsm.delta
  steps : StepsAs (acsm.acsmNumStates + 1) acsm.step acsm.delta
  matcher : (∀ p ∈ ps, p.patrn ≠ []) →
    IsMatcher (acsm.acsmNumStates + 1) lab AcsmPattern.patrn ps acsm.delta acsm.matchList

theorem acsmCompile_compiled (acsm : AcsmStruct) :
    ∃ acsm' lab, acsmCompile acsm = some acsm' ∧ acsm'.Compiled acsm.acsmPatterns lab := by
  obtain ⟨htrie, hmax⟩ :=
    addPatternStates_foldl acsm.acsmPatterns (acsmInitTable acsm)
  set a₁ := acsm.acsmPatterns.foldl addPatternStates (acsmInitTable acsm)
  obtain ⟨lab, hk⟩ : ∃ lab, IsKeywordTrie (nextStateRows.trans false) AcsmPattern.patrn
      acsm.acsmPatterns a₁.trie lab := by
    rw [htrie]
    exact isKeywordTrie_foldl _ (fun s c => by simp [Rows.trans, nextStateRows, acsmInitTable]) _
  have hfuel : a₁.acsmNumStates + 1 ≤ (acsmSetRoot a₁).acsmMaxStates := by
    have := hk.numStates_le
    rw [acsmSetRoot, hmax]
    simp only [AcsmStruct.trie, acsmInitTable] at this ⊢
    omega
  have hnfa : IsNfa ((nextStateRows.trans false).get a₁.trie.table)
      (nextStateRows.get (acsmSetRoot a₁).nextState) := by
    rw [Rows.trans_false_get]
    exact nextStateRows_get_acsmSetRoot a₁
  obtain ⟨L, hbuild, hL⟩ := hk.links hnfa alphabet_nodup mem_alphabet copyMatchListEntry
    false (acsmSetRoot a₁).links (fun _ => rfl) hfuel
  obtain ⟨t, hdet, hauto, hcell, hframe⟩ := hk.rows_isAutomaton hnfa hL alphabet_nodup
    mem_alphabet false false hfuel
  have hget : ∀ s, s < a₁.acsmNumStates + 1 → ∀ c,
      nextStateRows.get t s c = some ((nextStateRows.get t s c).getD 0) := by
    intro s hs c
    by_cases h0 : s = 0
    · rw [hframe s (.inl h0), h0, hnfa.root c, getD_some]
    · exact hcell s hs h0 c
  have hdelta : ∀ s c, (nextStateRows.get t s c).getD 0 = (t s c).toNat := by
    intro s c
    by_cases hf : t s c = acsmFailState
    · simp only [nextStateRows, hf, if_true, getD_none]
      rfl
    · simp [nextStateRows, hf]
  simp only [hdelta] at hauto hget
  refine ⟨{ acsmSetRoot a₁ with failState := L.fail, matchList := L.out, userdata := L.mem,
                                nextState := t }, lab, ?_, ?_⟩
  · show (buildNFA (acsmSetRoot a₁)).bind convertNFAToDFA = _
    have hb : buildNFA (acsmSetRoot a₁) = some { acsmSetRoot a₁ with
        failState := L.fail, matchList := L.out, userdata := L.mem } := by
      rw [buildNFA, hbuild, map_some]
    rw [hb, bind_some, convertNFAToDFA, hdet, map_some]
  · exact ⟨hauto, fun s hs c => ⟨hget s hs c, (hauto.next s hs c).1⟩,
      fun hne => hk.isMatcher rfl hL hne hauto⟩

/-! ## The search over a compiled table -/

theorem AcsmStruct.isMatch_eq (acsm : AcsmStruct) :
    acsm.isMatch = fun s => !(acsm.matchList s).isEmpty :=
  rfl

/-- The search reports the ends of occurrences and leaves the state of the text. -/
theorem AcsmStruct.Compiled.search {acsm : AcsmStruct} {ps : List AcsmPattern}
    {lab : ℕ → List UInt8} (h : acsm.Compiled ps lab) (hne : ∀ p ∈ ps, p.patrn ≠ [])
    {κ : Type*} {mtch : MpseMatch ℕ κ} (hcb : mtch.ReturnsZero) (context : κ)
    {text : List UInt8} (hfits : text.length ≤ tcSize) :
    acsmSearch acsm text mtch context (some 0) =
      let ends := matchEnds (ps.map AcsmPattern.patrn) (convertCaseEx text)
      some ⟨ends.length, mtch.fire context (ends.map fun i =>
        (((convertCaseEx text).take i).foldl acsm.delta 0, i)),
        some ((convertCaseEx text).foldl acsm.delta 0)⟩ := by
  have hscan := scanAfter_spec acsm.isMatch h.steps hcb (convertCaseEx text) 0 0 0
    context h.automaton.pos
  have hrep := reports_visits (h.matcher hne) (convertCaseEx text)
  rw [← AcsmStruct.isMatch_eq] at hrep
  rw [acsmSearch_of_fits acsm hfits, hscan]
  simp only [hrep, map_some, length_map, Nat.zero_add]

theorem acsmAdded_patrn_ne_nil {args : List PatternArgs} (hne : ∀ a ∈ args, a.pat ≠ []) :
    ∀ p ∈ acsmAdded args, p.patrn ≠ [] := by
  intro p hp
  have hmem := mem_map_of_mem (f := AcsmPattern.patrn) hp
  rw [map_patrn_acsmAdded] at hmem
  obtain ⟨a, ha, he⟩ := mem_map.mp hmem
  rw [← he, Ne, convertCaseEx_eq_nil_iff]
  exact hne a ha

/-- Compiling non-empty patterns and searching from state 0 with a callback that
returns 0: the callback is called exactly at the ends of occurrences, in order,
and the match list of the state reached after `i` bytes has the patterns that
end there, if and only if the text fits into `Tc`. -/
theorem acsmSearch_finds_all {κ : Type*} (args : List PatternArgs)
    (hne : ∀ a ∈ args, a.pat ≠ []) (text : List UInt8) (mtch : MpseMatch ℕ κ)
    (hcb : mtch.ReturnsZero) (context : κ) :
    ∃ acsm, acsmCompile (args.foldl acsmAddPattern acsmNew) = some acsm ∧ ∃ after : ℕ → ℕ,
        (∀ i, i ≤ text.length → i ≤ tcSize →
          ∃ r, acsmSearch acsm (text.take i) mtch context (some 0) = some r ∧
            r.currentState = some (after i)) ∧
        (∀ i, i ≤ text.length → (acsm.matchList (after i)).Perm
          ((acsmAdded args).filter fun p => p.patrn <:+ (convertCaseEx text).take i)) ∧
        (acsmSearch acsm text mtch context (some 0) =
            (let ends := matchEnds (args.map fun a => convertCaseEx a.pat) (convertCaseEx text)
            some ⟨ends.length, mtch.fire context (ends.map fun i => (after i, i)),
              some (after text.length)⟩) ↔
          text.length ≤ tcSize) := by
  have hadd := (acsmAddPattern_foldl args).1
  obtain ⟨acsm, lab, hcomp, hc⟩ := acsmCompile_compiled (args.foldl acsmAddPattern acsmNew)
  rw [hadd] at hc
  have hps : ∀ p ∈ (acsmAdded args).reverse, p.patrn ≠ [] := by
    intro p hp
    exact acsmAdded_patrn_ne_nil hne p (mem_reverse.mp hp)
  refine ⟨acsm, hcomp, fun i => ((convertCaseEx text).take i).foldl acsm.delta 0, ?_, ?_, ?_⟩
  · intro i _ hi
    refine ⟨_, hc.search hps hcb context (length_take_le i text |>.trans hi), ?_⟩
    rw [convertCaseEx_take]
  · intro i _
    refine ((hc.matcher hps).out_run _).trans ?_
    rw [filter_reverse]
    exact reverse_perm _
  · refine ⟨fun hsearch => ?_, fun hfits => ?_⟩
    · by_contra hlong
      rw [acsmSearch_eq_none acsm (Nat.lt_of_not_le hlong)] at hsearch
      exact absurd hsearch (by simp)
    rw [hc.search hps hcb context hfits, map_reverse, matchEnds_reverse, map_patrn_acsmAdded]
    have hlen : (convertCaseEx text).take text.length = convertCaseEx text :=
      take_of_length_le (by rw [length_convertCaseEx])
    simp only [hlen]

/-- Two patterns with the same bytes up to case, the text `xAb`. -/
theorem acsmSearch_finds_all_xAb :
    let args : List PatternArgs := [⟨[97], true, false, 1⟩, ⟨[65], false, false, 2⟩]
    (∀ a ∈ args, a.pat ≠ []) ∧
      ∃ acsm, ∃ after : ℕ → ℕ, acsmCompile (args.foldl acsmAddPattern acsmNew) = some acsm ∧
        acsmSearch acsm [120, 65, 98] record [] (some 0) =
          some ⟨1, [(after 2, 2)], some (after 3)⟩ ∧
        (acsm.matchList (after 2)).Perm (acsmAdded args) := by
  intro args
  have hne : ∀ a ∈ args, a.pat ≠ [] := by decide
  obtain ⟨acsm, hcomp, after, -, hlist, hsearch⟩ :=
    acsmSearch_finds_all args hne [120, 65, 98] record record_returnsZero []
  refine ⟨hne, acsm, after, hcomp, ?_, ?_⟩
  · have hends : matchEnds (args.map fun a => convertCaseEx a.pat)
        (convertCaseEx [120, 65, 98]) = [2] := by decide
    rw [hsearch.mpr (by decide), hends]
    rfl
  · refine (hlist 2 (by decide)).trans (List.Perm.of_eq ?_)
    decide

/-- One byte more than `Tc` holds: the pattern is one `a`, and so is every byte of the text. -/
theorem acsmSearch_overruns_Tc :
    ∃ acsm, acsmCompile ([⟨[97], true, false, 1⟩].foldl acsmAddPattern acsmNew) = some acsm ∧
      acsmSearch acsm (replicate 65537 97) record [] (some 0) = none := by
  obtain ⟨acsm, lab, hcomp, -⟩ :=
    acsmCompile_compiled ([⟨[97], true, false, 1⟩].foldl acsmAddPattern acsmNew)
  refine ⟨acsm, hcomp, acsmSearch_eq_none acsm ?_ record [] (some 0)⟩
  rw [length_replicate]
  decide
end Snort
