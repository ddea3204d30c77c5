import Snort.Automata.Determinize

/-!
# The multi-pattern matcher

What a compiled automaton is for: after any text it is in the state of the
longest suffix that begins some pattern, and the output list of that state has
every pattern that ends there, once per pattern. The statement does not say how
transitions are stored, so every representation that computes the same next
states is the same matcher.
-/

namespace Automata
open List
variable {α ρ σ : Type*}

/-! ## Runs -/

/-- The states a run visits, each with the number of letters read so far. -/
def visits (δ : ℕ → α → ℕ) : ℕ → ℕ → List α → List (ℕ × ℕ)
  | _, _, [] => []
  | i, s, a :: w => (δ s a, i + 1) :: visits δ (i + 1) (δ s a) w

section
variable (δ : ℕ → α → ℕ)
include δ

theorem visits_append (u v : List α) : ∀ i s,
    visits δ i s (u ++ v) = visits δ i s u ++ visits δ (i + u.length) (u.foldl δ s) v := by
  induction u with
  | nil => intro i s; rfl
  | cons a u ih =>
    intro i s
    simp only [cons_append, visits, ih, foldl_cons, length_cons]
    rw [Nat.add_right_comm, Nat.add_assoc]

variable (w : List α)

theorem visits_shift : ∀ i k s,
    visits δ (i + k) s w = (visits δ i s w).map (fun v => (v.1, v.2 + k)) := by
  induction w with
  | nil => intro i k s; rfl
  | cons a w ih =>
    intro i k s
    simp only [visits, map_cons, Nat.add_right_comm i k 1, ih]

theorem visits_eq_map (s : ℕ) : visits δ 0 s w =
    (List.range w.length).map (fun k => ((w.take (k + 1)).foldl δ s, k + 1)) := by
  induction w using List.reverseRecOn with
  | nil => rfl
  | append_singleton w a ih =>
    rw [visits_append, ih, length_append, length_singleton, range_succ, map_append]
    congr 1
    · refine map_congr_left (fun k hk => ?_)
      rw [take_append_of_le_length (by rw [mem_range] at hk; omega)]
    · have htake : (w ++ [a]).take (w.length + 1) = w ++ [a] :=
        take_of_length_le (by simp)
      simp only [visits, map_cons, map_nil, htake, foldl_append,
        foldl_cons, foldl_nil, Nat.zero_add]

theorem cons_visits_eq_map (s : ℕ) :
    (s, 0) :: visits δ 0 s w =
      (List.range (w.length + 1)).map (fun k => ((w.take k).foldl δ s, k)) := by
  rw [visits_eq_map, range_succ_eq_map, map_cons, map_map]
  rfl

/-- Translating each letter as it is read is translating the word first. -/
theorem visits_map {β : Type*} (f : β → α) (w : List β) : ∀ i s,
    visits (fun s b => δ s (f b)) i s w = visits δ i s (w.map f) := by
  induction w with
  | nil => intro i s; rfl
  | cons b w ih => intro i s; simp only [visits, map_cons, ih]

theorem visits_dropLast : ∀ i s,
    ((s, i) :: visits δ i s w).dropLast ++ [(w.foldl δ s, i + w.length)] =
      (s, i) :: visits δ i s w := by
  induction w with
  | nil => intro i s; rfl
  | cons a w ih =>
    intro i s
    rw [visits, dropLast_cons_cons, cons_append, foldl_cons, length_cons,
      ← Nat.add_assoc, Nat.add_right_comm, ih]
end

/-! ## Outputs -/

theorem filter_append_filter_perm {p q r : ρ → Bool} :
    ∀ {l : List ρ}, (∀ x ∈ l, r x = (p x || q x)) → (∀ x ∈ l, ¬(p x = true ∧ q x = true)) →
      (l.filter p ++ l.filter q).Perm (l.filter r)
  | [], _, _ => List.Perm.refl _
  | x :: l, hor, hand => by
      have ih := filter_append_filter_perm (l := l) (fun y hy => hor y (mem_cons_of_mem x hy))
        (fun y hy => hand y (mem_cons_of_mem x hy))
      have hx := hor x mem_cons_self
      have hd := hand x mem_cons_self
      cases hp : p x <;> cases hq : q x <;> rw [hp, hq] at hx hd
      · simpa [hp, hq, hx] using ih
      · simpa [hp, hq, hx] using perm_middle.trans (ih.cons x)
      · simpa [hp, hq, hx] using ih.cons x
      · exact absurd ⟨rfl, rfl⟩ hd

variable [DecidableEq α] {n : ℕ} {lab : ℕ → List α} {word : ρ → List α} {ps : List ρ}

/-- With the failure links in place, every output list has all the patterns that
end at the state's word. -/
theorem IsLinked.out_perm {goto : ℕ → α → Option ℕ} {L₀ L : Links ρ σ}
    (h : IsTrie n goto lab) (hL : IsLinked n lab L₀ L)
    (hown : ∀ s, s < n → (L₀.out s).Perm (ps.filter fun p => decide (word p = lab s)))
    (hmem : ∀ p ∈ ps, Lang n lab (word p)) (hne : ∀ p ∈ ps, word p ≠ []) :
    ∀ s, s < n → (L.out s).Perm (ps.filter fun p => decide (word p <:+ lab s)) := by
  intro s hs
  induction hd : (lab s).length using Nat.strong_induction_on generalizing s with
  | _ d ih =>
    by_cases h0 : s = 0
    · subst h0
      rw [hL.root.2]
      refine (hown 0 hs).trans (List.Perm.of_eq (filter_congr (fun p _ => ?_)))
      rw [h.root]
      exact decide_eq_decide.mpr suffix_nil.symm
    · have hf := hL.fails s hs h0
      have hlen := hf.length_lt h hs h0
      have hnil : lab s ≠ [] := fun hnil => h0 ((h.lab_eq_nil_iff hs).mp hnil)
      have hfail := ih _ (by omega) (L.fail s) hf.1 rfl
      have hinh : (inherited lab L s).Perm
          (ps.filter fun p => decide (word p <:+ lab (L.fail s))) := by
        unfold inherited
        split
        · -- a child of the root inherits nothing, and no pattern is empty
          have hlab0 : lab (L.fail s) = [] := eq_nil_of_length_eq_zero (by omega)
          refine List.Perm.of_eq (Eq.symm ?_)
          rw [filter_eq_nil_iff, hlab0]
          intro p hp hdec
          exact hne p hp (suffix_nil.mp (of_decide_eq_true hdec))
        · exact (reverse_perm _).trans hfail
      rw [hL.outs s hs h0]
      refine (hinh.append (hown s hs)).trans ?_
      refine filter_append_filter_perm ?_ ?_
      · intro p hp
        rw [← Bool.decide_or, hf.2]
        exact decide_eq_decide.mpr ((suffix_iff_failWord (hmem p hp) hnil).trans Or.comm)
      · intro p _ hboth
        have h1 : word p <:+ lab (L.fail s) := of_decide_eq_true hboth.1
        have h2 : word p = lab s := of_decide_eq_true hboth.2
        have := h1.length_le
        rw [h2] at this
        omega

/-! ## The specification -/

/-- `δ` is the automaton of the patterns `ps`, over states labelled by the
prefixes of the patterns' words. -/
structure IsAutomaton (n : ℕ) (lab : ℕ → List α) (word : ρ → List α) (ps : List ρ)
    (δ : ℕ → α → ℕ) : Prop where
  pos : 0 < n
  root : lab 0 = []
  inj : ∀ {s t}, s < n → t < n → lab s = lab t → s = t
  lang : ∀ u, Lang n lab u ↔ u = [] ∨ ∃ p ∈ ps, u <+: word p
  next : ∀ s, s < n → ∀ a, IsNext n lab s a (δ s a)

/-- The automaton with the patterns that end in each state. -/
structure IsMatcher (n : ℕ) (lab : ℕ → List α) (word : ρ → List α) (ps : List ρ)
    (δ : ℕ → α → ℕ) (out : ℕ → List ρ) : Prop extends IsAutomaton n lab word ps δ where
  outs : ∀ s, s < n → (out s).Perm (ps.filter fun p => decide (word p <:+ lab s))

/-! ## From the trie to the matcher -/

section Construction
variable {τ τ' : Type*} {T : TransTable τ α} {k : KeywordTrie τ ρ} {L₀ L : Links ρ σ}
  {get : ℕ → α → Option ℕ} {alphabet : List α} {fuel : ℕ} {δ : ℕ → α → ℕ}

section
variable (h : IsKeywordTrie T word ps k lab)
include h

theorem IsKeywordTrie.links (hget : IsNfa (T.get k.table) get) (hnd : alphabet.Nodup)
    (hall : ∀ a, a ∈ alphabet) (copy : ρ → σ → σ) (guard : Bool) (L₀ : Links ρ σ)
    (hq : ∀ s, L₀.queued s = false) (hfuel : k.numStates + 1 ≤ fuel) :
    ∃ L, buildLinks alphabet get copy guard fuel L₀ = some L ∧
      IsLinked (k.numStates + 1) lab L₀ L :=
  buildLinks_spec h.trie hget hnd hall copy (fun _ => hq) hfuel

theorem IsKeywordTrie.isAutomaton
    (hδ : ∀ s, s < k.numStates + 1 → ∀ a, IsNext (k.numStates + 1) lab s a (δ s a)) :
    IsAutomaton (k.numStates + 1) lab word ps δ where
  pos := h.trie.pos
  root := h.trie.root
  inj := h.trie.inj
  lang := h.lang
  next := hδ

/-- The lists the links inherit complete an automaton to a matcher. -/
theorem IsKeywordTrie.isMatcher (hout : L₀.out = k.matchList)
    (hL : IsLinked (k.numStates + 1) lab L₀ L) (hne : ∀ p ∈ ps, word p ≠ [])
    (hδ : IsAutomaton (k.numStates + 1) lab word ps δ) :
    IsMatcher (k.numStates + 1) lab word ps δ L.out where
  toIsAutomaton := hδ
  outs := by
    refine hL.out_perm h.trie ?_ ?_ hne
    · intro s hs
      rw [hout, h.matches_eq s hs]
      exact reverse_perm _
    · intro p hp
      exact (h.lang _).mpr (.inr ⟨p, hp, prefix_rfl⟩)

theorem IsKeywordTrie.chase_isAutomaton (hget : IsNfa (T.get k.table) get)
    (hL : IsLinked (k.numStates + 1) lab L₀ L) (hfuel : k.numStates + 1 ≤ fuel) :
    (∀ s, s < k.numStates + 1 → ∀ a, (chase get L.fail a fuel s).isSome) ∧
      IsAutomaton (k.numStates + 1) lab word ps
        (fun s a => (chase get L.fail a fuel s).getD 0) := by
  have hchase : ∀ s, s < k.numStates + 1 → ∀ a, ∃ t, chase get L.fail a fuel s = some t ∧
      IsNext (k.numStates + 1) lab s a t := by
    intro s hs a
    have hlen := h.trie.length_lab_lt hs
    exact chase_spec h.trie hget a fuel s hs (by omega) (fun t ht ht0 _ => hL.fails t ht ht0)
  refine ⟨?_, h.isAutomaton ?_⟩
  · intro s hs a
    obtain ⟨t, ht, -⟩ := hchase s hs a
    rw [ht]
    rfl
  · intro s hs a
    obtain ⟨t, ht, hnext⟩ := hchase s hs a
    rw [ht]
    exact hnext

/-- The rows after the second pass are an automaton; an absent cell stands for
the root. -/
theorem IsKeywordTrie.rows_isAutomaton {R : Rows τ' α} {t₀ : τ'}
    (hget : IsNfa (T.get k.table) (R.get t₀)) (hL : IsLinked (k.numStates + 1) lab L₀ L)
    (hnd : alphabet.Nodup) (hall : ∀ a, a ∈ alphabet) (guard skipZero : Bool)
    (hfuel : k.numStates + 1 ≤ fuel) :
    ∃ t, determinize R L.fail guard skipZero alphabet fuel t₀ = some t ∧
      IsAutomaton (k.numStates + 1) lab word ps (fun s a => (R.get t s a).getD 0) ∧
      (∀ s, s < k.numStates + 1 → s ≠ 0 → ∀ a,
        R.get t s a = usable skipZero (some ((R.get t s a).getD 0))) ∧
      (∀ s, s = 0 ∨ k.numStates + 1 ≤ s → ∀ a, R.get t s a = R.get t₀ s a) := by
  obtain ⟨t, hdet, hrows, hframe⟩ := determinize_spec guard skipZero h.trie hget
    hL.fails hnd hall hfuel
  have hcell : ∀ s, s < k.numStates + 1 → ∀ a,
      IsNext (k.numStates + 1) lab s a ((R.get t s a).getD 0) ∧
      (s ≠ 0 → R.get t s a = usable skipZero (some ((R.get t s a).getD 0))) := by
    intro s hs a
    by_cases h0 : s = 0
    · subst h0
      rw [hframe 0 (.inl rfl), hget.root a, Option.getD_some]
      exact ⟨IsNext.of_root h.trie, fun hne => absurd rfl hne⟩
    · obtain ⟨m, hm, hmget⟩ := hrows s hs h0 a
      rw [hmget, getD_usable]
      exact ⟨hm, fun _ => rfl⟩
  exact ⟨t, hdet, h.isAutomaton (fun s hs a => (hcell s hs a).1),
    fun s hs h0 a => (hcell s hs a).2 h0, hframe⟩
end
end Construction

namespace IsAutomaton
variable {δ : ℕ → α → ℕ}

section
variable (h : IsAutomaton n lab word ps δ)
include h

theorem prefixClosed : PrefixClosed (Lang n lab) where
  nil := ⟨0, h.pos, h.root⟩
  init := by
    intro u a hu
    rw [h.lang] at hu ⊢
    rcases hu with hu | ⟨p, hp, hpre⟩
    · exact absurd hu (by simp)
    · exact .inr ⟨p, hp, (prefix_append u [a]).trans hpre⟩

theorem word_mem {p : ρ} (hp : p ∈ ps) : Lang n lab (word p) :=
  (h.lang _).mpr (.inr ⟨p, hp, prefix_rfl⟩)

/-- A run from any state reads its letters after the state's word. -/
theorem run_spec {s : ℕ} (hs : s < n) (w : List α) :
    w.foldl δ s < n ∧ lab (w.foldl δ s) = longestSuffix (Lang n lab) (lab s ++ w) := by
  induction w using List.reverseRecOn with
  | nil =>
    rw [append_nil, longestSuffix_of_mem ⟨s, hs, rfl⟩]
    exact ⟨hs, rfl⟩
  | append_singleton w a ih =>
    rw [foldl_append, foldl_cons, foldl_nil]
    have hnext := h.next _ ih.1 a
    refine ⟨hnext.1, ?_⟩
    rw [hnext.2, ih.2, ← longestSuffix_snoc h.prefixClosed, append_assoc]

theorem run_lt (w : List α) : w.foldl δ 0 < n :=
  (h.run_spec h.pos w).1

theorem lab_run (w : List α) : lab (w.foldl δ 0) = longestSuffix (Lang n lab) w := by
  rw [(h.run_spec h.pos w).2, h.root, nil_append]

/-- Forgetting `u` leads to the same state unless a word reaches back into it. -/
theorem run_append_eq_iff (u w : List α) :
    (u ++ w).foldl δ 0 = w.foldl δ 0 ↔
      ∀ p ∈ ps, ∀ v, v <+: word p → v <:+ u ++ w → v.length ≤ w.length := by
  have hlab : (u ++ w).foldl δ 0 = w.foldl δ 0 ↔
      longestSuffix (Lang n lab) (u ++ w) = longestSuffix (Lang n lab) w := by
    rw [← h.lab_run, ← h.lab_run]
    exact ⟨fun he => by rw [he], h.inj (h.run_lt _) (h.run_lt _)⟩
  rw [hlab, longestSuffix_append_eq_iff h.prefixClosed.nil]
  constructor
  · intro hshort p hp v hpre hsuf
    exact hshort v ((h.lang v).mpr (.inr ⟨p, hp, hpre⟩)) hsuf
  · intro hshort v hv hsuf
    rcases (h.lang v).mp hv with rfl | ⟨p, hp, hpre⟩
    · exact Nat.zero_le _
    · exact hshort p hp v hpre hsuf
end
end IsAutomaton

namespace IsMatcher
variable {δ : ℕ → α → ℕ} {out : ℕ → List ρ}

section
variable (h : IsMatcher n lab word ps δ out)
include h

/-- The outputs after reading `w` are the patterns that end there. -/
theorem out_run (w : List α) :
    (out (w.foldl δ 0)).Perm (ps.filter fun p => decide (word p <:+ w)) := by
  refine (h.outs _ (h.run_lt w)).trans (List.Perm.of_eq (filter_congr (fun p hp => ?_)))
  rw [h.lab_run]
  exact decide_eq_decide.mpr (suffix_iff_longestSuffix (h.word_mem hp)).symm

theorem out_run_eq_nil_iff (w : List α) : out (w.foldl δ 0) = [] ↔ ¬ ∃ p ∈ ps, word p <:+ w := by
  have hperm := h.out_run w
  constructor
  · rintro hnil ⟨p, hp, hsuf⟩
    rw [hnil] at hperm
    have hmem : p ∈ ps.filter fun p => decide (word p <:+ w) :=
      mem_filter.mpr ⟨hp, decide_eq_true hsuf⟩
    exact absurd (hperm.symm.subset hmem) not_mem_nil
  · intro hno
    have : (ps.filter fun p => decide (word p <:+ w)) = [] := by
      rw [filter_eq_nil_iff]
      intro p hp hdec
      exact hno ⟨p, hp, of_decide_eq_true hdec⟩
    rw [this] at hperm
    exact hperm.eq_nil

theorem out_root (hne : ∀ p ∈ ps, word p ≠ []) : out 0 = [] := by
  have := (h.out_run_eq_nil_iff []).mpr (by
    rintro ⟨p, hp, hsuf⟩
    exact hne p hp (suffix_nil.mp hsuf))
  exact this
end
end IsMatcher
end Automata
