import Snort.Automata.LongestSuffix

/-!
# Numbered keyword tries

A keyword trie is kept as a transition table over states `0, 1, …` in the
order of their creation, with `0` the root. The words the states stand for are
not stored; they are carried by a ghost labelling `lab`. `IsTrie` says that
the table and the labelling describe the same tree, and every construction
below is proved by exhibiting the labelling it extends.

The table itself is abstract: any type with a lookup and an update that obey
the one law of `TransTable` will do.
-/

namespace Automata
open Function Nat List
open Function (update)
variable {α τ ρ : Type*} {n : ℕ} {lab : ℕ → List α}

/-- `goto` restricted to the first `n` states is the tree of the words `lab`, with
numbers that grow along its edges. -/
structure IsTrie (n : ℕ) (goto : ℕ → α → Option ℕ) (lab : ℕ → List α) : Prop where
  pos : 0 < n
  root : lab 0 = []
  inj : ∀ {s t}, s < n → t < n → lab s = lab t → s = t
  edge : ∀ {s a t}, s < n → (goto s a = some t ↔ t < n ∧ lab t = lab s ++ [a])
  parent : ∀ {t}, t < n → t ≠ 0 → ∃ s a, s < n ∧ lab t = lab s ++ [a]
  outside : ∀ {s} a, n ≤ s → goto s a = none
  goto_gt : ∀ {s a t}, s < n → goto s a = some t → s < t

/-- The language of the trie: the words of its states. -/
def Lang (n : ℕ) (lab : ℕ → List α) (u : List α) : Prop := ∃ s, s < n ∧ lab s = u

instance [DecidableEq α] (n : ℕ) (lab : ℕ → List α) : DecidablePred (Lang n lab) :=
  fun u => inferInstanceAs (Decidable (∃ s, s < n ∧ lab s = u))

namespace IsTrie
variable {n : ℕ} {goto : ℕ → α → Option ℕ} {lab : ℕ → List α} {s t : ℕ} {a : α}

theorem prefixClosed (h : IsTrie n goto lab) : PrefixClosed (Lang n lab) where
  nil := ⟨0, h.pos, h.root⟩
  init := by
    rintro u a ⟨t, ht, hlab⟩
    have hne : t ≠ 0 := by
      rintro rfl
      rw [h.root] at hlab
      simp at hlab
    obtain ⟨s, b, hs, hst⟩ := h.parent ht hne
    rw [hlab] at hst
    exact ⟨s, hs, (append_inj' hst rfl).1.symm⟩

theorem lang_lab (hs : s < n) : Lang n lab (lab s) := ⟨s, hs, rfl⟩

section
variable (h : IsTrie n goto lab) (hs : s < n)
include h hs

theorem goto_lt (hg : goto s a = some t) : t < n := ((h.edge hs).mp hg).1

theorem lab_goto (hg : goto s a = some t) : lab t = lab s ++ [a] := ((h.edge hs).mp hg).2

theorem goto_eq_none_iff : goto s a = none ↔ ¬ Lang n lab (lab s ++ [a]) := by
  rw [Option.eq_none_iff_forall_not_mem]
  constructor
  · rintro hnone ⟨t, ht, hlab⟩
    exact hnone t ((h.edge hs).mpr ⟨ht, hlab⟩)
  · intro hnot t ht
    obtain ⟨htn, hlab⟩ := (h.edge hs).mp ht
    exact hnot ⟨t, htn, hlab⟩

theorem lab_eq_nil_iff : lab s = [] ↔ s = 0 := by
  constructor
  · intro hnil
    exact h.inj hs h.pos (hnil.trans h.root.symm)
  · rintro rfl
    exact h.root

theorem goto_ne_zero (hg : goto s a = some t) : t ≠ 0 := by
  rintro rfl
  have hlab := h.lab_goto hs hg
  rw [h.root] at hlab
  simp at hlab

/-- The prefixes of a state's word are distinct states, so words are shorter
than the number of states. -/
theorem length_lab_lt : (lab s).length < n := by
  have hmem : ∀ k : Fin ((lab s).length + 1), ∃ t : Fin n, lab t = (lab s).take k := by
    intro k
    obtain ⟨t, ht, hlab⟩ :=
      h.prefixClosed.of_prefix ( take_prefix k (lab s)) (lang_lab hs)
    exact ⟨⟨t, ht⟩, hlab⟩
  choose f hf using hmem
  have hinj : Function.Injective f := by
    intro i j hij
    have htake : (lab s).take i = (lab s).take j := by rw [← hf i, ← hf j, hij]
    have hlen := congrArg List.length htake
    rw [length_take, length_take] at hlen
    have hi := i.isLt
    have hj := j.isLt
    exact Fin.ext (by omega)
  have hcard := Fintype.card_le_of_injective f hinj
  rw [Fintype.card_fin, Fintype.card_fin] at hcard
  omega

/-- A fresh leaf under `s` keeps the trie; it gets the next free number. -/
theorem extend (hnone : goto s a = none) {goto' : ℕ → α → Option ℕ}
    (hput : ∀ s' a', (s' = s ∧ a' = a → goto' s' a' = some n) ∧
      (¬ (s' = s ∧ a' = a) → goto' s' a' = goto s' a')) :
    IsTrie (n + 1) goto' (update lab n (lab s ++ [a])) := by
  have hnew : update lab n (lab s ++ [a]) n = lab s ++ [a] :=
    update_self ..
  have hold : ∀ t, t < n → update lab n (lab s ++ [a]) t = lab t :=
    fun t ht => update_of_ne (Nat.ne_of_lt ht) ..
  have hfresh : ∀ t, t < n → lab t ≠ lab s ++ [a] := fun t ht he =>
    (h.goto_eq_none_iff hs).mp hnone ⟨t, ht, he⟩
  refine ⟨succ_pos n, by rw [hold 0 h.pos, h.root], ?_, ?_, ?_, ?_, ?_⟩
  · intro t t' ht ht' he
    rcases Nat.lt_succ_iff_lt_or_eq.mp ht with ht | rfl <;>
      rcases Nat.lt_succ_iff_lt_or_eq.mp ht' with ht' | rfl
    · rw [hold _ ht, hold _ ht'] at he
      exact h.inj ht ht' he
    · rw [hold _ ht, hnew] at he
      exact absurd he (hfresh t ht)
    · rw [hold _ ht', hnew] at he
      exact absurd he.symm (hfresh t' ht')
    · rfl
  · intro s' a' t hs'
    by_cases hsa : s' = s ∧ a' = a
    · obtain ⟨rfl, rfl⟩ := hsa
      rw [(hput s' a').1 ⟨rfl, rfl⟩, hold s' hs, Option.some.injEq]
      constructor
      · rintro rfl
        exact ⟨lt_succ_self _, hnew⟩
      · rintro ⟨ht, he⟩
        rcases Nat.lt_succ_iff_lt_or_eq.mp ht with ht | rfl
        · rw [hold t ht] at he
          exact absurd he (hfresh t ht)
        · rfl
    · rw [(hput s' a').2 hsa]
      rcases Nat.lt_succ_iff_lt_or_eq.mp hs' with hs' | rfl
      · rw [hold s' hs', h.edge hs']
        constructor
        · rintro ⟨ht, he⟩
          exact ⟨Nat.lt_succ_of_lt ht, by rw [hold t ht, he]⟩
        · rintro ⟨ht, he⟩
          rcases Nat.lt_succ_iff_lt_or_eq.mp ht with ht | rfl
          · rw [hold t ht] at he
            exact ⟨ht, he⟩
          · rw [hnew] at he
            obtain ⟨h1, h2⟩ := append_inj' he rfl
            cases h2
            exact absurd ⟨(h.inj hs' hs h1.symm), rfl⟩ hsa
      · -- the new state has no children yet: nothing extends its word
        rw [h.outside a' (le_refl _), hnew]
        constructor
        · intro hcontra
          cases hcontra
        · rintro ⟨ht, he⟩
          rcases Nat.lt_succ_iff_lt_or_eq.mp ht with ht | rfl
          · rw [hold t ht] at he
            obtain ⟨u, hu, hlu⟩ := h.prefixClosed.init _ a' ⟨t, ht, he⟩
            exact absurd hlu (hfresh u hu)
          · simp at he
  · intro t ht hne
    rcases Nat.lt_succ_iff_lt_or_eq.mp ht with ht | rfl
    · obtain ⟨p, b, hp, he⟩ := h.parent ht hne
      exact ⟨p, b, Nat.lt_succ_of_lt hp, by rw [hold t ht, hold p hp, he]⟩
    · exact ⟨s, a, Nat.lt_succ_of_lt hs, by rw [hnew, hold s hs]⟩
  · intro s' a' hs'
    have hne : ¬ (s' = s ∧ a' = a) := by
      rintro ⟨rfl, -⟩
      omega
    rw [(hput s' a').2 hne]
    exact h.outside a' (by omega)
  · intro s' a' t hs' hg
    by_cases hsa : s' = s ∧ a' = a
    · rw [(hput s' a').1 hsa, Option.some.injEq] at hg
      omega
    · rw [(hput s' a').2 hsa] at hg
      rcases Nat.lt_succ_iff_lt_or_eq.mp hs' with hs' | rfl
      · exact h.goto_gt hs' hg
      · rw [h.outside a' (le_refl _)] at hg
        cases hg
end
end IsTrie

theorem lang_extend {w u : List α} : Lang (n + 1) (update lab n w) u ↔ Lang n lab u ∨ u = w := by
  constructor
  · rintro ⟨s, hs, rfl⟩
    rcases Nat.lt_succ_iff_lt_or_eq.mp hs with hs | rfl
    · exact .inl ⟨s, hs, by rw [update_of_ne (Nat.ne_of_lt hs)]⟩
    · exact .inr (update_self ..)
  · rintro (⟨s, hs, rfl⟩ | rfl)
    · exact ⟨s, Nat.lt_succ_of_lt hs, update_of_ne (Nat.ne_of_lt hs) ..⟩
    · exact ⟨n, lt_succ_self n, update_self ..⟩

/-! ## Tables and the insertion of a word -/

/-- A transition table: lookup, and an update that changes one entry. State
numbers written are positive, so a table may use `0` for an absent entry. -/
structure TransTable (τ α : Type*) where
  get : τ → ℕ → α → Option ℕ
  put : τ → ℕ → α → ℕ → τ
  get_put_self : ∀ t s a m, 0 < m → get (put t s a m) s a = some m
  get_put_of_ne : ∀ t s a m s' a', ¬ (s' = s ∧ a' = a) → get (put t s a m) s' a' = get t s' a'

/-- Follow existing transitions as far as they go; returns the state reached
and the letters left over. -/
def matchStates (goto : ℕ → α → Option ℕ) : ℕ → List α → ℕ × List α
  | s, [] => (s, [])
  | s, a :: p =>
    match goto s a with
    | none => (s, a :: p)
    | some t => matchStates goto t p

/-- One new state per remaining letter. `n` is the highest state in use. -/
def addStates (T : TransTable τ α) : τ → ℕ → ℕ → List α → τ × ℕ × ℕ
  | t, n, s, [] => (t, n, s)
  | t, n, s, a :: p => addStates T (T.put t s a (n + 1)) (n + 1) (n + 1) p

variable (T : TransTable τ α)

/-- Insert a word: reuse what is there, then add what is missing. -/
def addWord (t : τ) (n : ℕ) (p : List α) : τ × ℕ × ℕ :=
  let m := matchStates (T.get t) 0 p
  addStates T t n m.1 m.2

theorem matchStates_spec {goto : ℕ → α → Option ℕ}
    (h : IsTrie n goto lab) : ∀ (p : List α) (s : ℕ), s < n →
    (matchStates goto s p).1 < n ∧
    (∃ q, p = q ++ (matchStates goto s p).2 ∧ lab (matchStates goto s p).1 = lab s ++ q) ∧
    (∀ a r, (matchStates goto s p).2 = a :: r → goto (matchStates goto s p).1 a = none) := by
  intro p
  induction p with
  | nil => intro s hs; exact ⟨hs, ⟨[], by simp [matchStates]⟩, by simp [matchStates]⟩
  | cons a p ih =>
    intro s hs
    cases hg : goto s a with
    | none =>
      have he : matchStates goto s (a :: p) = (s, a :: p) := by
        simp [matchStates, hg]
      rw [he]
      refine ⟨hs, ⟨[], by simp⟩, ?_⟩
      rintro b r hbr
      cases hbr
      exact hg
    | some t =>
      have he : matchStates goto s (a :: p) = matchStates goto t p := by
        simp [matchStates, hg]
      rw [he]
      obtain ⟨hlt, ⟨q, hq, hlab⟩, hstop⟩ := ih t (h.goto_lt hs hg)
      refine ⟨hlt, ⟨a :: q, ?_, ?_⟩, hstop⟩
      · rw [cons_append, ← hq]
      · rw [hlab, h.lab_goto hs hg]
        simp

theorem addStates_spec : ∀ (p : List α) (t : τ) (n s : ℕ)
    (lab : ℕ → List α), IsTrie (n + 1) (T.get t) lab → s < n + 1 →
    (∀ a q, p = a :: q → T.get t s a = none) →
    ∃ lab', IsTrie ((addStates T t n s p).2.1 + 1) (T.get (addStates T t n s p).1) lab' ∧
      (addStates T t n s p).2.2 < (addStates T t n s p).2.1 + 1 ∧
      lab' (addStates T t n s p).2.2 = lab s ++ p ∧
      (addStates T t n s p).2.1 = n + p.length ∧
      (∀ i, i < n + 1 → lab' i = lab i) ∧
      ∀ u, Lang ((addStates T t n s p).2.1 + 1) lab' u ↔
        Lang (n + 1) lab u ∨ ∃ q, q <+: p ∧ u = lab s ++ q := by
  intro p
  induction p with
  | nil =>
    intro t n s lab h hs _
    refine ⟨lab, h, hs, by simp [addStates], rfl, fun _ _ => rfl, ?_⟩
    intro u
    constructor
    · exact Or.inl
    · rintro (hu | ⟨q, hq, rfl⟩)
      · exact hu
      · rw [prefix_nil.mp hq, append_nil]
        exact IsTrie.lang_lab hs
  | cons a p ih =>
    intro t n s lab h hs hstop
    have hnone : T.get t s a = none := hstop a p rfl
    have hput : ∀ s' a', (s' = s ∧ a' = a → T.get (T.put t s a (n + 1)) s' a' = some (n + 1)) ∧
        (¬(s' = s ∧ a' = a) → T.get (T.put t s a (n + 1)) s' a' = T.get t s' a') := by
      intro s' a'
      refine ⟨?_, T.get_put_of_ne _ _ _ _ _ _⟩
      rintro ⟨rfl, rfl⟩
      exact T.get_put_self _ _ _ _ (succ_pos n)
    have hext := h.extend hs hnone hput
    obtain ⟨lab', htrie, hlt, hlab, hlen, hold, hlang⟩ :=
      ih (T.put t s a (n + 1)) (n + 1) (n + 1) _ hext (lt_succ_self _) (by
        rintro b q rfl
        rw [T.get_put_of_ne _ _ _ _ _ _ (by omega)]
        exact h.outside b (le_refl _))
    have hlab_old : ∀ i, i < n + 1 → lab' i = lab i := by
      intro i hi
      rw [hold i (Nat.lt_succ_of_lt hi), update_of_ne (Nat.ne_of_lt hi)]
    refine ⟨lab', htrie, hlt, by rw [addStates, hlab]; simp, ?_, hlab_old, ?_⟩
    · rw [addStates, hlen, length_cons]
      omega
    · intro u
      rw [addStates, hlang u, lang_extend]
      constructor
      · rintro ((hu | rfl) | ⟨q, hq, rfl⟩)
        · exact .inl hu
        · exact .inr ⟨[a], ⟨p, rfl⟩, rfl⟩
        · exact .inr ⟨a :: q, cons_prefix_cons.mpr ⟨rfl, hq⟩, by simp⟩
      · rintro (hu | ⟨q, hq, rfl⟩)
        · exact .inl (.inl hu)
        · cases q with
          | nil =>
            rw [append_nil]
            exact .inl (.inl (IsTrie.lang_lab hs))
          | cons b q =>
            obtain ⟨rfl, hq'⟩ := cons_prefix_cons.mp hq
            exact .inr ⟨q, hq', by simp⟩

/-- Inserting a word adds exactly its prefixes, keeps every old state's word,
and ends in the state of the word itself. -/
theorem addWord_spec {t : τ} (h : IsTrie (n + 1) (T.get t) lab) (p : List α) :
    ∃ lab', IsTrie ((addWord T t n p).2.1 + 1) (T.get (addWord T t n p).1) lab' ∧
      (addWord T t n p).2.2 < (addWord T t n p).2.1 + 1 ∧
      lab' (addWord T t n p).2.2 = p ∧
      n ≤ (addWord T t n p).2.1 ∧ (addWord T t n p).2.1 ≤ n + p.length ∧
      (∀ i, i < n + 1 → lab' i = lab i) ∧
      ∀ u, Lang ((addWord T t n p).2.1 + 1) lab' u ↔ Lang (n + 1) lab u ∨ u <+: p := by
  obtain ⟨hm, ⟨q, hq, hlabm⟩, hstop⟩ := matchStates_spec h p 0 h.pos
  rw [h.root, nil_append] at hlabm
  set m := matchStates (T.get t) 0 p with hmdef
  obtain ⟨lab', htrie, hlt, hlab, hlen, hold, hlang⟩ :=
    addStates_spec T m.2 t n m.1 lab h hm hstop
  have he : addWord T t n p = addStates T t n m.1 m.2 := rfl
  have hplen := congrArg List.length hq
  rw [length_append] at hplen
  rw [he]
  refine ⟨lab', htrie, hlt, by rw [hlab, hlabm, ← hq], by omega, by omega, hold, ?_⟩
  intro u
  rw [hlang u, hlabm]
  constructor
  · rintro (hu | ⟨r, hr, rfl⟩)
    · exact .inl hu
    · rw [hq]
      exact .inr ((prefix_append_right_inj q).mpr hr)
  · rintro (hu | hu)
    · exact .inl hu
    · rcases prefix_or_prefix_of_prefix hu ⟨m.2, hq.symm⟩ with huq | ⟨r, rfl⟩
      · exact .inl (h.prefixClosed.of_prefix huq (hlabm ▸ IsTrie.lang_lab hm))
      · rw [hq] at hu
        exact .inr ⟨r, (prefix_append_right_inj q).mp hu, rfl⟩

/-! ## Keyword tries: the words with the patterns that end at them -/

/-- A table, its highest state, and for each state the patterns ending there. -/
structure KeywordTrie (τ ρ : Type*) where
  table : τ
  numStates : ℕ
  matchList : ℕ → List ρ

/-- Insert the word of a pattern and put the pattern at the front of the list
of its last state. -/
def KeywordTrie.add (word : ρ → List α) (k : KeywordTrie τ ρ) (p : ρ) : KeywordTrie τ ρ :=
  let r := addWord T k.table k.numStates (word p)
  { table := r.1
    numStates := r.2.1
    matchList := update k.matchList r.2.2 (p :: k.matchList r.2.2) }

/-- `k` is the keyword trie of the patterns `ps`, added in that order. -/
structure IsKeywordTrie [DecidableEq α] (T : TransTable τ α) (word : ρ → List α)
    (ps : List ρ) (k : KeywordTrie τ ρ) (lab : ℕ → List α) : Prop where
  trie : IsTrie (k.numStates + 1) (T.get k.table) lab
  lang : ∀ u, Lang (k.numStates + 1) lab u ↔ u = [] ∨ ∃ p ∈ ps, u <+: word p
  matches_eq : ∀ s, s < k.numStates + 1 →
    k.matchList s = (ps.filter fun p => decide (word p = lab s)).reverse
  matches_outside : ∀ s, k.numStates < s → k.matchList s = []
  numStates_le : k.numStates ≤ (ps.map fun p => (word p).length).sum

variable [DecidableEq α] {T : TransTable τ α} {word : ρ → List α} {t : τ}

theorem isKeywordTrie_nil (hempty : ∀ s a, T.get t s a = none) :
    IsKeywordTrie T word [] ⟨t, 0, fun _ => []⟩ (fun _ => []) where
  trie :=
    { pos := succ_pos 0
      root := rfl
      inj := by intro s t hs ht _; simp only at hs ht; omega
      edge := by intro s a t _; simp [hempty]
      parent := by intro t ht hne; simp only at ht; omega
      outside := by intro s a _; exact hempty s a
      goto_gt := by intro s a t _ hg; rw [hempty] at hg; cases hg }
  lang := by
    intro u
    constructor
    · rintro ⟨s, hs, rfl⟩
      exact .inl rfl
    · rintro (rfl | ⟨p, hp, -⟩)
      · exact ⟨0, by simp, rfl⟩
      · cases hp
  matches_eq := by intro s _; rfl
  matches_outside := by intro s _; rfl
  numStates_le := by simp

theorem IsKeywordTrie.add {ps : List ρ}
    {k : KeywordTrie τ ρ} {lab : ℕ → List α} (h : IsKeywordTrie T word ps k lab) (p : ρ) :
    ∃ lab', IsKeywordTrie T word (ps ++ [p]) (k.add T word p) lab' := by
  obtain ⟨lab', htrie, hlt, hlab, hge, hle, hold, hlang⟩ := addWord_spec T h.trie (word p)
  set r := addWord T k.table k.numStates (word p) with hr
  -- the old lists, read with the new labels: a fresh state is the end of no old pattern
  have hown : ∀ s, s < r.2.1 + 1 →
      k.matchList s = (ps.filter fun q => decide (word q = lab' s)).reverse := by
    intro s hs
    by_cases hs' : s < k.numStates + 1
    · rw [hold s hs']
      exact h.matches_eq s hs'
    · rw [h.matches_outside s (by omega), eq_comm, reverse_eq_nil_iff, filter_eq_nil_iff]
      intro q hq hdec
      have hword : word q = lab' s := of_decide_eq_true hdec
      obtain ⟨s', hs'', he⟩ := (h.lang (word q)).mpr (.inr ⟨q, hq, prefix_rfl⟩)
      have : s' = s := htrie.inj (by omega) hs (by rw [hold s' hs'', he, hword])
      omega
  refine ⟨lab', htrie, ?_, ?_, ?_, ?_⟩
  · intro u
    show Lang (r.2.1 + 1) lab' u ↔ _
    rw [hlang u, h.lang u]
    constructor
    · rintro ((hu | ⟨q, hq, hqu⟩) | hu)
      · exact .inl hu
      · exact .inr ⟨q, mem_append_left _ hq, hqu⟩
      · exact .inr ⟨p, by simp, hu⟩
    · rintro (hu | ⟨q, hq, hqu⟩)
      · exact .inl (.inl hu)
      · rcases mem_append.mp hq with hq | hq
        · exact .inl (.inr ⟨q, hq, hqu⟩)
        · rw [mem_singleton.mp hq] at hqu
          exact .inr hqu
  · intro s hs
    show update k.matchList r.2.2 (p :: k.matchList r.2.2) s = _
    by_cases hsr : s = r.2.2
    · subst hsr
      rw [update_self, filter_append, reverse_append, hown _ hlt]
      have hfilter : [p].filter (fun q => decide (word q = lab' r.2.2)) = [p] := by
        simp [hlab]
      rw [hfilter]
      rfl
    · have hne : word p ≠ lab' s := by
        intro he
        exact hsr (htrie.inj hs hlt (by rw [hlab, he]))
      rw [update_of_ne hsr, hown s hs, filter_append]
      have hfilter : [p].filter (fun q => decide (word q = lab' s)) = [] := by simp [hne]
      rw [hfilter, append_nil]
  · intro s hs
    have hs' : r.2.1 < s := hs
    show update k.matchList r.2.2 (p :: k.matchList r.2.2) s = []
    rw [update_of_ne (by omega)]
    exact h.matches_outside s (by omega)
  · have hsum := h.numStates_le
    show r.2.1 ≤ _
    rw [map_append, List.sum_append]
    simp only [map_cons, map_nil, sum_cons, sum_nil]
    omega

/-- Adding patterns one after another builds the keyword trie of the list. -/
theorem isKeywordTrie_foldl (word : ρ → List α) (hempty : ∀ s a, T.get t s a = none) (ps : List ρ) :
    ∃ lab, IsKeywordTrie T word ps (ps.foldl (KeywordTrie.add T word) ⟨t, 0, fun _ => []⟩) lab := by
  induction ps using List.reverseRecOn with
  | nil => exact ⟨_, isKeywordTrie_nil hempty⟩
  | append_singleton ps p ih =>
    obtain ⟨lab, hk⟩ := ih
    rw [foldl_append]
    exact hk.add p

omit [DecidableEq α] in
/-- A property of tables that every write of a positive state keeps holds after
any number of insertions. -/
theorem foldl_add_table (T : TransTable τ α) (word : ρ → List α) (Inv : τ → Prop)
    (hput : ∀ t s a m, 0 < m → Inv t → Inv (T.put t s a m)) (ps : List ρ) :
    ∀ k : KeywordTrie τ ρ, Inv k.table → Inv (ps.foldl (KeywordTrie.add T word) k).table := by
  have hadd : ∀ (p : List α) (t : τ) (n s : ℕ), Inv t → Inv (addStates T t n s p).1 := by
    intro p
    induction p with
    | nil => intro t n s ht; exact ht
    | cons a p ih => intro t n s ht; exact ih _ _ _ (hput t s a (n + 1) (succ_pos n) ht)
  induction ps with
  | nil => intro k hk; exact hk
  | cons p ps ih => intro k hk; exact ih _ (hadd _ _ _ _ hk)
end Automata
