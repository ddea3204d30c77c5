import Snort.SearchEngines.Bnfa.Search

/-!
# The optimisation of the failure states in `bnfa_search.cc`

`_bnfa_opt_nfa` lets a state fail past states whose transitions are among its own.
For a state without transitions the containment test always succeeds, so such a
state fails to state 0. This is right only if nothing that ends there can go on:
the theorem at the end gives the exact condition on the patterns.
-/

namespace Snort.Bnfa
open List Option Automata
open Function (update_of_ne update_self update)

/-! ## The containment test -/

theorem kcontainsJ_eq_true_iff {tk tj : TransList} (hk : ∀ c, tk.lookup c ≠ some 0) :
    kcontainsJ tk tj = true ↔
      (∀ c, tk.lookup c = none) ∨ ∀ c, tk.lookup c = none → tj.lookup c = none := by
  unfold kcontainsJ
  rw [← TransList.length_nodes_eq_zero_iff]
  by_cases hlen : tk.nodes.length = 0
  · rw [if_pos hlen]
    exact ⟨fun _ => .inl hlen, fun _ => rfl⟩
  · rw [if_neg hlen, or_iff_right hlen, List.all_eq_true]
    have hcell : ∀ c : UInt8, ((tk.convToFull id).getD c.toNat 0 != 0) = true ↔
        tk.lookup c ≠ none := by
      intro c
      rw [getD_eq_getElem?_getD, TransList.getElem?_convToFull, getD_some, bne_iff_ne]
      cases hl : tk.lookup c with
      | none => simp
      | some m =>
        have hm : m ≠ 0 := fun h0 => hk c (by rw [hl, h0])
        simpa using hm
    constructor
    · intro hall c hc
      by_contra hj
      have hmem : c ∈ tj.nodes.map TransNode.key := by
        by_contra hnot
        exact hj (TransList.lookupNode_eq_none_iff.mpr hnot)
      obtain ⟨t, ht, rfl⟩ := List.mem_map.mp hmem
      exact (hcell t.key).mp (hall t ht) hc
    · intro h t ht
      rw [hcell]
      intro hnone
      exact TransList.lookupNode_eq_none_iff.mp (h t.key hnone) (mem_map_of_mem ht)

/-! ## Skipping contained states -/

section Opt
variable {word : BnfaPattern → List UInt8} {ps : List BnfaPattern} {n : ℕ}
  {lab : ℕ → List UInt8} {t : BnfaTransTable} {mlist : ℕ → List BnfaPattern} {fail : ℕ → ℕ}
  {s k : ℕ} {f : ℕ → ℕ}

/-- The state has no transitions. -/
def Leaf (t : BnfaTransTable) (s : ℕ) : Prop :=
  ∀ c, (bnfaRows.trans true).get t s c = none

theorem IsListNfa.get_eq_lookup (h : IsListNfa word ps n lab t mlist fail)
    (h0 : s ≠ 0) (c : UInt8) : (bnfaRows.trans true).get t s c = (t.lists s).lookup c := by
  rw [← h.nfa.other c h0, bnfaListGetNextState, if_neg h0]

theorem IsListNfa.kcontainsJ_iff (h : IsListNfa word ps n lab t mlist fail)
    {fs : ℕ} (hk : k < n) (hk0 : k ≠ 0) (hfs0 : fs ≠ 0) :
    kcontainsJ (t.lists k) (t.lists fs) = true ↔ Leaf t k ∨ ∀ c,
      (bnfaRows.trans true).get t k c = none → (bnfaRows.trans true).get t fs c = none := by
  rw [kcontainsJ_eq_true_iff (fun c hc => (h.lookup_lt hk hk0 hc).1 rfl)]
  simp only [Leaf, h.get_eq_lookup hk0, h.get_eq_lookup hfs0]

/-- Links that lead to shorter words. -/
def Descends (n : ℕ) (lab : ℕ → List UInt8) (f : ℕ → ℕ) : Prop :=
  ∀ s, s < n → s ≠ 0 → f s < n ∧ (lab (f s)).length < (lab s).length

/-- The loop ends. From a leaf it reaches state 0; otherwise it only passes states
that have no transition where `k` has none. -/
theorem IsListNfa.skipContained_spec (h : IsListNfa word ps n lab t mlist fail)
    (hf : Descends n lab f) (hk : k < n) (hk0 : k ≠ 0) :
    ∀ fuel fs, fs < n → (lab fs).length < fuel → ∃ r, skipContained t f k fuel fs = some r ∧
      r < n ∧ (lab r).length ≤ (lab fs).length ∧ (Leaf t k → r = 0) ∧
      (¬ Leaf t k → (∀ s, s < n → s ≠ 0 → IsBackup n ((bnfaRows.trans true).get t) lab f s) →
        ∀ c u, (bnfaRows.trans true).get t k c = none → IsNext n lab r c u →
          IsNext n lab fs c u) := by
  intro fuel
  induction fuel with
  | zero => intro fs _ hlt; omega
  | succ fuel ih =>
    intro fs hfs hlt
    rw [skipContained]
    by_cases hskip : fs ≠ 0 ∧ kcontainsJ (t.lists k) (t.lists fs) = true
    · rw [if_pos hskip]
      obtain ⟨hlt', hshort⟩ := hf fs hfs hskip.1
      obtain ⟨r, hr, hrlt, hrlen, hleaf, hnext⟩ := ih (f fs) hlt' (by omega)
      refine ⟨r, hr, hrlt, by omega, hleaf, ?_⟩
      intro hnl hback c u hc hu
      have hpass := ((h.kcontainsJ_iff hk hk0 hskip.1).mp hskip.2).resolve_left hnl
      exact (hback fs hfs hskip.1).next c u (hpass c hc) (hnext hnl hback c u hc hu)
    · rw [if_neg hskip]
      refine ⟨fs, rfl, hfs, Nat.le_refl _, ?_, fun _ _ _ _ _ hu => hu⟩
      intro hleaf
      by_contra hfs0
      exact hskip ⟨hfs0, (h.kcontainsJ_iff hk hk0 hfs0).mpr (.inl hleaf)⟩

/-- Nothing that ends in a leaf goes on with the next byte. -/
def LeavesFinal (n : ℕ) (lab : ℕ → List UInt8) (t : BnfaTransTable) : Prop :=
  ∀ s, s < n → s ≠ 0 → Leaf t s → ∀ c u, IsNext n lab 0 c u → IsNext n lab s c u

/-- The links before state `k` is visited. -/
structure OptInv (n : ℕ) (lab : ℕ → List UInt8) (t : BnfaTransTable) (k : ℕ) (f : ℕ → ℕ) :
    Prop where
  zero : f 0 = 0
  descends : Descends n lab f
  leaf : ∀ s, 2 ≤ s → s < k → s < n → Leaf t s → f s = 0
  backup : LeavesFinal n lab t → ∀ s, s < n → s ≠ 0 →
    IsBackup n ((bnfaRows.trans true).get t) lab f s

section
variable (h : IsListNfa word ps n lab t mlist fail)
include h

theorem IsListNfa.optInv_start :
    OptInv n lab t 2 fail where
  zero := h.fail_zero
  descends s hs h0 := ⟨(h.fails s hs h0).1, (h.fails s hs h0).length_lt h.trie hs h0⟩
  leaf s h2 hlt := by omega
  backup _ s hs h0 := (h.fails s hs h0).isBackup h.trie hs h0

theorem IsListNfa.optInv_step (hinv : OptInv n lab t k f) (hk2 : 2 ≤ k) (hk : k < n) : ∃ fs,
      skipContained t f k n (f k) = some fs ∧ OptInv n lab t (k + 1) (update f k fs) := by
  have hk0 : k ≠ 0 := by omega
  obtain ⟨hflt, hfshort⟩ := hinv.descends k hk hk0
  obtain ⟨r, hr, hrlt, hrlen, hleaf, hnext⟩ := h.skipContained_spec hinv.descends hk hk0 n (f k)
    hflt (h.trie.length_lab_lt hflt)
  refine ⟨r, hr, ?_, ?_, ?_, ?_⟩
  · rw [update_of_ne (Ne.symm hk0)]
    exact hinv.zero
  · intro s hs h0
    by_cases he : s = k
    · subst he
      rw [update_self]
      exact ⟨hrlt, by omega⟩
    · rw [update_of_ne he]
      exact hinv.descends s hs h0
  · intro s h2 hlt hs hl
    by_cases he : s = k
    · subst he
      rw [update_self]
      exact hleaf hl
    · rw [update_of_ne he]
      exact hinv.leaf s h2 (by omega) hs hl
  · intro hfinal s hs h0
    by_cases he : s = k
    · subst he
      refine ⟨by rwa [update_self], by rw [update_self]; omega, ?_⟩
      intro c u hc hu
      rw [update_self] at hu
      by_cases hl : Leaf t s
      · rw [hleaf hl] at hu
        exact hfinal s hs h0 hl c u hu
      · have hback := hinv.backup hfinal
        exact (hback s hs h0).next c u hc (hnext hl hback c u hc hu)
    · obtain ⟨hlt, hshort, hnext'⟩ := hinv.backup hfinal s hs h0
      refine ⟨?_, ?_, ?_⟩ <;> rw [update_of_ne he]
      · exact hlt
      · exact hshort
      · exact hnext'

theorem IsListNfa.bnfaOptNfa_spec : ∃ f, bnfaOptNfa t n fail = some f ∧ OptInv n lab t n f := by
  have hrun : ∀ m, 2 + m ≤ max n 2 → ∃ f, (List.range' 2 m).foldlM (fun f k =>
      (skipContained t f k n (f k)).map fun fs => update f k fs) fail = some f ∧
      OptInv n lab t (2 + m) f := by
    intro m
    induction m with
    | zero => intro _; exact ⟨fail, rfl, h.optInv_start⟩
    | succ m ih =>
      intro hm
      obtain ⟨f, hf, hinv⟩ := ih (by omega)
      obtain ⟨fs, hskip, hinv'⟩ := h.optInv_step hinv (by omega) (by omega)
      refine ⟨_, ?_, hinv'⟩
      rw [range'_1_concat, foldlM_append, hf]
      simp only [foldlM_cons, foldlM_nil, bind_eq_bind, bind_some, hskip, map_some]
      rfl
  obtain ⟨f, hf, hinv⟩ := hrun (n - 2) (by omega)
  refine ⟨f, hf, hinv.zero, hinv.descends, ?_, hinv.backup⟩
  intro s h2 hlt hs hl
  exact hinv.leaf s h2 (by omega) hs hl
end

/-! ## When the successors stay the same -/

/-- State 1 is a child of state 0, so a leaf it is final. -/
theorem IsListNfa.isNext_one (h : IsListNfa word ps n lab t mlist fail) (hn : 1 < n)
    (hleaf : Leaf t 1) {c : UInt8} {u : ℕ} (hu : IsNext n lab 0 c u) : IsNext n lab 1 c u := by
  obtain ⟨s, a, hs, hlab⟩ := h.trie.parent hn one_ne_zero
  have hgt := h.trie.goto_gt hs ((h.trie.edge hs).mpr ⟨hn, hlab⟩)
  have hs0 : s = 0 := by omega
  have hback := (h.fails 1 hn one_ne_zero).isBackup h.trie hn one_ne_zero
  have hshort := hback.shorter
  rw [hlab, hs0, h.trie.root, nil_append, length_singleton, Nat.lt_one_iff,
    length_eq_zero_iff] at hshort
  have hfail : fail 1 = 0 := (h.trie.lab_eq_nil_iff hback.lt).mp hshort
  refine hback.next c u (hleaf c) ?_
  rw [hfail]
  exact hu

/-- Following the optimised failure states leads to the same successors exactly if
the leaves are final. -/
theorem IsListNfa.chase_eq_iff (h : IsListNfa word ps n lab t mlist fail)
    (hinv : OptInv n lab t n f) :
    (∀ s, s < n → ∀ c, chase (bnfaListGetNextState t) f c n s =
        chase (bnfaListGetNextState t) fail c n s) ↔ LeavesFinal n lab t := by
  constructor
  · intro hsame s hs h0 hleaf c u hu
    by_cases h1 : s = 1
    · subst h1
      exact h.isNext_one hs hleaf hu
    · -- the optimised chain goes to state 0, which has a transition for every byte
      obtain ⟨m, rfl⟩ : ∃ m, n = m + 2 := ⟨n - 2, by omega⟩
      have hzero := hinv.leaf s (by omega) hs hs hleaf
      have hget : bnfaListGetNextState t s c = none := by
        rw [h.nfa.other c h0]
        exact hleaf c
      have hchase : chase (bnfaListGetNextState t) f c (m + 2) s =
          some (((bnfaRows.trans true).get t 0 c).getD 0) := by
        rw [chase, hget]
        rw [hzero, chase, h.nfa.root c]
      have hspec := h.chase_spec hs c
      rw [← hsame s hs c, hchase, some.injEq] at hspec
      have hroot := IsNext.of_root (a := c) h.trie
      rw [hspec.1] at hroot
      rw [hu.unique h.trie hroot]
      exact hspec.2
  · intro hfinal s hs c
    obtain ⟨u, hu, hnext⟩ := chase_backup_spec h.trie h.nfa c n s hs (h.trie.length_lab_lt hs)
      (fun u hu hu0 _ => hinv.backup hfinal u hu hu0)
    obtain ⟨hchase, hnext'⟩ := h.chase_spec hs c
    rw [hu, hchase, hnext.unique h.trie hnext']

/-! ## The condition on the patterns -/

/-- No word that is not a proper prefix of another one has a non-empty suffix that
is a proper prefix of some word. -/
def OverlapFree (words : List (List UInt8)) : Prop :=
  ∀ u ∈ words, (∀ w ∈ words, u <+: w → w = u) → ∀ v, v ≠ [] → v <:+ u → ∀ w ∈ words, v <+: w → w = v

theorem exists_snoc_prefix {v w : List UInt8} (hpre : v <+: w) (hne : w ≠ v) :
    ∃ c, v ++ [c] <+: w := by
  obtain ⟨r, rfl⟩ := hpre
  cases r with
  | nil => exact absurd (append_nil v) hne
  | cons c r => exact ⟨c, r, by simp⟩

theorem not_snoc_prefix_self (v : List UInt8) (c : UInt8) : ¬ v ++ [c] <+: v := by
  intro h
  have := h.length_le
  rw [length_append, length_singleton] at this
  omega

section
variable (h : IsListNfa word ps n lab t mlist fail)
include h

/-- A leaf is the end of a pattern that is no proper prefix of another one. -/
theorem IsListNfa.leaf_iff (hs : s < n) (h0 : s ≠ 0) : Leaf t s ↔
      lab s ∈ ps.map word ∧ ∀ w ∈ ps.map word, lab s <+: w → w = lab s := by
  have hmem : ∀ u, u ≠ [] → (Lang n lab u ↔ ∃ w ∈ ps.map word, u <+: w) := by
    intro u hu
    rw [h.lang, or_iff_right hu]
    simp only [List.mem_map, exists_exists_and_eq_and]
  have hgoto : ∀ c, (bnfaRows.trans true).get t s c = none ↔
      ¬ ∃ w ∈ ps.map word, lab s ++ [c] <+: w := by
    intro c
    rw [h.trie.goto_eq_none_iff hs, hmem _ (by simp)]
  constructor
  · intro hleaf
    have hmax : ∀ w ∈ ps.map word, lab s <+: w → w = lab s := by
      intro w hw hpre
      by_contra hne
      obtain ⟨c, hc⟩ := exists_snoc_prefix hpre hne
      exact (hgoto c).mp (hleaf c) ⟨w, hw, hc⟩
    have hne : lab s ≠ [] := fun hnil => h0 ((h.trie.lab_eq_nil_iff hs).mp hnil)
    obtain ⟨w, hw, hpre⟩ := (hmem _ hne).mp (IsTrie.lang_lab hs)
    exact ⟨hmax w hw hpre ▸ hw, hmax⟩
  · rintro ⟨-, hmax⟩ c
    rw [hgoto]
    rintro ⟨w, hw, hc⟩
    rw [hmax w hw ((prefix_append _ _).trans hc)] at hc
    exact not_snoc_prefix_self _ _ hc

/-- At a state, the next byte starts afresh exactly if no word reaches back. -/
theorem IsListNfa.isNext_root_iff (s : ℕ) (c : UInt8) :
    (∀ u, IsNext n lab 0 c u → IsNext n lab s c u) ↔
      ∀ v, Lang n lab (v ++ [c]) → v <:+ lab s → v = [] := by
  have hroot : ∃ u, IsNext n lab 0 c u := ⟨_, IsNext.of_root h.trie⟩
  have hword : (∀ u, IsNext n lab 0 c u → IsNext n lab s c u) ↔
      longestSuffix (Lang n lab) (lab s ++ [c]) = longestSuffix (Lang n lab) [c] := by
    constructor
    · intro hall
      obtain ⟨u, hu⟩ := hroot
      have hlab := hu.2
      rw [h.trie.root, nil_append] at hlab
      rw [← hlab, ← (hall u hu).2]
    · intro he u hu
      refine ⟨hu.1, ?_⟩
      rw [he, hu.2, h.trie.root, nil_append]
  rw [hword, longestSuffix_append_eq_iff h.trie.prefixClosed.nil]
  constructor
  · intro hshort v hv hsuf
    have hlen := hshort (v ++ [c]) hv (suffix_concat_iff.mpr (.inr ⟨v, rfl, hsuf⟩))
    rw [length_append, length_singleton] at hlen
    exact length_eq_zero_iff.mp (by omega)
  · intro hnil v hv hsuf
    rcases suffix_concat_iff.mp hsuf with rfl | ⟨v', rfl, hsuf'⟩
    · exact Nat.zero_le _
    · rw [hnil v' hv hsuf']
      exact Nat.le_refl _

theorem IsListNfa.leavesFinal_iff (hne : ∀ p ∈ ps, word p ≠ []) :
    LeavesFinal n lab t ↔ OverlapFree (ps.map word) := by
  constructor
  · intro hfinal u hu hmax v hv hsuf w hw hpre
    obtain ⟨p, hp, rfl⟩ := List.mem_map.mp hu
    obtain ⟨s, hs, hlab⟩ := (h.lang (word p)).mpr (.inr ⟨p, hp, prefix_rfl⟩)
    have h0 : s ≠ 0 := fun he => hne p hp (by rw [← hlab, he, h.trie.root])
    have hleaf := (h.leaf_iff hs h0).mpr ⟨by rwa [hlab], by rwa [hlab]⟩
    by_contra hwv
    obtain ⟨c, hc⟩ := exists_snoc_prefix hpre hwv
    obtain ⟨q, hq, rfl⟩ := List.mem_map.mp hw
    have hlang : Lang n lab (v ++ [c]) := (h.lang _).mpr (.inr ⟨q, hq, hc⟩)
    exact hv ((h.isNext_root_iff s c).mp (hfinal s hs h0 hleaf c) v hlang (by rwa [hlab]))
  · intro hfree s hs h0 hleaf c
    obtain ⟨hmem, hmax⟩ := (h.leaf_iff hs h0).mp hleaf
    refine (h.isNext_root_iff s c).mpr ?_
    intro v hlang hsuf
    by_contra hv
    obtain ⟨p, hp, hpre⟩ := ((h.lang _).mp hlang).resolve_left (by simp)
    have hword := hfree _ hmem hmax v hv hsuf (word p) (mem_map_of_mem hp)
      ((prefix_append _ _).trans hpre)
    rw [hword] at hpre
    exact not_snoc_prefix_self _ _ hpre
end
end Opt

/-! ## The engine with and without the optimisation -/

/-- The successor of a state in the list form. -/
def BnfaStruct.follow (lists : BnfaStruct) (s : ℕ) (c : UInt8) : Option ℕ :=
  chase (bnfaListGetNextState lists.bnfaTransTable) lists.bnfaFailState c lists.bnfaNumStates s

theorem bnfaLoad_true (args : List PatternArgs) :
    bnfaLoad true args = bnfaSetOpt (bnfaLoad false args) true := by
  induction args using List.reverseRecOn with
  | nil => rfl
  | append_singleton args a ih =>
    unfold bnfaLoad at ih ⊢
    rw [foldl_append, foldl_append, ih]
    simp only [foldl_cons, foldl_nil, bnfaAddPattern]
    split <;> rfl

/-- Both engines have the same states, rows and match lists; only the failure
states differ. -/
theorem bnfaBuildLists_opt (base : BnfaStruct) (hopt : base.bnfaOpt = false) :
    ∃ lab mlist fail f, IsListNfa (BnfaPattern.word base.bnfaCaseMode) base.bnfaPatterns
        base.withTrie.bnfaNumStates lab base.withTrie.bnfaTransTable mlist fail ∧
      OptInv base.withTrie.bnfaNumStates lab base.withTrie.bnfaTransTable
        base.withTrie.bnfaNumStates f ∧
      (bnfaBuildLists base =
        if base.withTrie.bnfaNumStates > bnfaSparseMaxState then none
        else some (base.withLinks fail mlist)) ∧
      bnfaBuildLists (bnfaSetOpt base true) =
        if base.withTrie.bnfaNumStates > bnfaSparseMaxState then none
        else some ((bnfaSetOpt base true).withLinks f mlist) := by
  obtain ⟨lab, L, hlinks, hL⟩ := bnfaBuildLists_spec base
  obtain ⟨f, hf, hinv⟩ := hL.bnfaOptNfa_spec
  refine ⟨lab, L.out, L.fail, f, hL, hinv, ?_, ?_⟩
  · have hbuild := bnfaBuildLists_eq hlinks
    simpa only [hopt, Bool.false_eq_true, if_false] using hbuild
  · have hlinks' : (bnfaSetOpt base true).HasLinks L := hlinks
    have hf' : bnfaOptNfa (bnfaSetOpt base true).withTrie.bnfaTransTable
        (bnfaSetOpt base true).withTrie.bnfaNumStates L.fail = some f := hf
    rw [bnfaBuildLists_eq hlinks', hf']
    rfl

/-- Engines with the same rows and the same successors search alike, whatever the
callback does. -/
theorem bnfaSearch_congr {κ : Type*} {plain opt : BnfaStruct} {δ : ℕ → UInt8 → ℕ}
    (hplain : plain.Linked) (hopt : opt.Linked) (hδ : plain.Follows δ) (hδ' : opt.Follows δ)
    (hindex : opt.rowIndex = plain.rowIndex) (hlist : opt.bnfaMatchList = plain.bnfaMatchList)
    (hn : opt.bnfaNumStates = plain.bnfaNumStates) (hpos : 0 < plain.bnfaNumStates)
    (hroot : plain.bnfaMatchList 0 = []) (mtch : MpseMatch ℕ κ) (text : List UInt8) (context : κ)
    (current_state : ℕ) :
    bnfaSearch opt.compacted mtch text context current_state =
      bnfaSearch plain.compacted mtch text context current_state := by
  have hmatch : opt.isMatch = plain.isMatch := by
    funext s
    rw [BnfaStruct.isMatch, hlist, BnfaStruct.isMatch]
  refine (bnfaSearchLoop_eq hopt hδ' (by rwa [hlist]) mtch current_state text 0 0 none 0 context
    (by rwa [hn])).trans (Eq.trans ?_ (bnfaSearchLoop_eq hplain hδ hroot mtch current_state text
      0 0 none 0 context hpos).symm)
  rw [hindex, hmatch]

theorem overlapFree_reverse (words : List (List UInt8)) :
    OverlapFree words.reverse ↔ OverlapFree words := by
  simp only [OverlapFree, mem_reverse]

theorem bnfaLoad_words {args : List PatternArgs} (hne : ∀ a ∈ args, a.pat ≠ []) :
    (bnfaLoad false args).bnfaPatterns.map (BnfaPattern.word .perPatCase) =
      (args.map fun a => convertCaseEx a.pat).reverse := by
  have hword : BnfaPattern.word .perPatCase =
      (fun a : PatternArgs => convertCaseEx a.pat) ∘ BnfaPattern.args := rfl
  rw [hword, ← List.map_map, bnfaLoad_patterns false hne, List.map_reverse]

/-- The optimisation leaves all successors, and with them the reports of every
search, as they are exactly if no pattern that is not a proper prefix of another
one has a non-empty suffix that is a proper prefix of some pattern. -/
theorem bnfaOpt_preserves_iff (args : List PatternArgs) (hne : ∀ a ∈ args, a.pat ≠ [])
    (plain opt : BnfaStruct) (hplain : bnfaBuildLists (bnfaLoad false args) = some plain)
    (hopt : bnfaBuildLists (bnfaLoad true args) = some opt) :
    ((∀ s, s < plain.bnfaNumStates → ∀ c, opt.follow s c = plain.follow s c) ∧
      ∀ plain' opt', bnfaCompile (bnfaLoad false args) = some plain' →
        bnfaCompile (bnfaLoad true args) = some opt' →
        ∀ (κ : Type) (mtch : MpseMatch ℕ κ) (text : List UInt8) (context : κ) (current_state : ℕ),
          bnfaSearch opt' mtch text context current_state =
            bnfaSearch plain' mtch text context current_state) ↔
      OverlapFree (args.map fun a => convertCaseEx a.pat) := by
  obtain ⟨-, hoff, hforce, hmode⟩ := bnfaLoad_spec false args
  obtain ⟨lab, mlist, fail, f, hL, hinv, hbuild, hbuild'⟩ := bnfaBuildLists_opt _ hoff
  have hwords := hL.leavesFinal_iff (fun p _ => p.word_ne_nil _)
  rw [hmode, bnfaLoad_words hne, overlapFree_reverse] at hwords
  rw [bnfaLoad_true] at hopt ⊢
  set base := bnfaLoad false args with hbase
  have hsmall : ¬ base.withTrie.bnfaNumStates > bnfaSparseMaxState := by
    intro hgt
    rw [hplain, if_pos hgt] at hbuild
    cases hbuild
  have hfail : ∀ k, k < base.withTrie.bnfaNumStates → f k < base.withTrie.bnfaNumStates := by
    intro k hk
    by_cases h0 : k = 0
    · rw [h0, hinv.zero]
      exact hL.trie.pos
    · exact (hinv.descends k hk h0).1
  have hcomp := bnfaCompile_eq hforce hL hL.fail_lt hbuild
  have hforce' : (bnfaSetOpt base true).bnfaForceFullZeroState = true := hforce
  have hcomp' := bnfaCompile_eq hforce' hL hfail hbuild'
  rw [hplain, if_neg hsmall, some.injEq] at hbuild
  rw [hopt, if_neg hsmall, some.injEq] at hbuild'
  subst hbuild hbuild'
  rw [← hwords, ← hL.chase_eq_iff hinv]
  refine and_iff_left_of_imp ?_
  -- equal successors: the searches go through the same states
  intro hsame plain' opt' hplain' hopt' κ mtch text context current_state
  rw [hcomp, ite_none_right_eq_some, some.injEq] at hplain'
  rw [hcomp', ite_none_right_eq_some, some.injEq] at hopt'
  obtain ⟨hfits, rfl⟩ := hplain'
  obtain ⟨-, rfl⟩ := hopt'
  rw [BnfaStruct.fits, Bool.and_eq_true, decide_eq_true_eq, decide_eq_true_eq] at hfits
  have hlinked : (base.withLinks fail mlist).Linked :=
    IsListNfa.linked hL (IsListNfa.bounded hL hforce hfits.1 hL.fail_lt) hfits.2
  have hlinked' : ((bnfaSetOpt base true).withLinks f mlist).Linked :=
    IsListNfa.linked hL (IsListNfa.bounded hL hforce hfits.1 hfail) hfits.2
  have hfollows : (base.withLinks fail mlist).Follows
      (nfaNext base.withTrie.bnfaTransTable fail base.withTrie.bnfaNumStates) :=
    fun s hs c => ⟨(hL.chase_spec hs c).1, (hL.chase_spec hs c).2.1⟩
  have hfollows' : ((bnfaSetOpt base true).withLinks f mlist).Follows
      (nfaNext base.withTrie.bnfaTransTable fail base.withTrie.bnfaNumStates) :=
    fun s hs c => ⟨(hsame s hs c).trans (hL.chase_spec hs c).1, (hL.chase_spec hs c).2.1⟩
  exact bnfaSearch_congr hlinked hlinked' hfollows hfollows' rfl rfl rfl hL.trie.pos
    ((hL.matcher _ hL.automaton).out_root (fun p _ => p.word_ne_nil _)) mtch text context
    current_state

/-- The patterns `ab` and `b`: the failure link of `ab` leads to `b`, from where nothing goes on,
and is shortened. -/
theorem bnfaOpt_preserves_iff_ab :
    let args : List PatternArgs := [⟨[97, 98], true, false, 1⟩, ⟨[98], true, false, 2⟩]
    (∀ a ∈ args, a.pat ≠ []) ∧ ∃ plain opt, bnfaBuildLists (bnfaLoad false args) = some plain ∧
      bnfaBuildLists (bnfaLoad true args) = some opt ∧
      ∀ s, s < plain.bnfaNumStates → ∀ c, opt.follow s c = plain.follow s c := by
  intro args
  have hne : ∀ a ∈ args, a.pat ≠ [] := by decide
  have hplain : (bnfaBuildLists (bnfaLoad false args)).isSome = true := by decide +kernel
  have hopt : (bnfaBuildLists (bnfaLoad true args)).isSome = true := by decide +kernel
  obtain ⟨plain, hplain⟩ := isSome_iff_exists.mp hplain
  obtain ⟨opt, hopt⟩ := isSome_iff_exists.mp hopt
  have hfree : OverlapFree (args.map fun a => convertCaseEx a.pat) := by
    let words : List (List UInt8) := [[65, 66], [66]]
    have htails : ∀ u ∈ words, ∀ v ∈ u.tails, v ≠ [] → ∀ w ∈ words, v <+: w → w = v := by decide
    show OverlapFree words
    intro u hu _ v hv hsuf w hw hpre
    exact htails u hu v ((mem_tails _ _).mpr hsuf) hv w hw hpre
  exact ⟨hne, plain, opt, hplain, hopt,
    ((bnfaOpt_preserves_iff args hne plain opt hplain hopt).mpr hfree).1⟩

/-- The patterns `ab` and `bc`, the text `abc`: with the optimisation, the leaf
`ab` fails to state 0 instead of `b`, and `bc` is not found. -/
theorem bnfaOpt_loses_match :
    let args : List PatternArgs := [⟨[97, 98], true, false, 1⟩, ⟨[98, 99], true, false, 2⟩]
    let reported := fun opt => (bnfaCompile (bnfaLoad opt args)).bind fun bnfa =>
      (bnfaSearch bnfa record [97, 98, 99] [] 0).map fun r => r.context
    reported false = some [(4, 2), (2, 3)] ∧ reported true = some [(4, 2)] := by
  decide +kernel
end Snort.Bnfa
