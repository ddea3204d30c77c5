import Snort.Automata.FailureLinks

/-!
# Folding failure links into the rows

The second breadth-first pass over a keyword trie with failure links: a cell
without a transition receives the cell of the failure state, whose row is
complete already because it is shallower. The rows are rewritten in place, so
the pass reads cells it has written itself; `determinize_spec` says that every
cell ends up with the next state of the automaton.

Two storage conventions are covered. With `skipZero` a cell that would lead to
the root is left empty, otherwise it is written out.
-/

namespace Automata
open List Option
variable {τ α : Type*}

/-- Rows of transitions that can be read and overwritten. -/
structure Rows (τ α : Type*) where
  get : τ → ℕ → α → Option ℕ
  put : τ → ℕ → α → ℕ → τ
  get_put_self : ∀ t s a m, get (put t s a m) s a = some m
  get_put_of_ne : ∀ t s a m s' a', ¬(s' = s ∧ a' = a) → get (put t s a m) s' a' = get t s' a'

variable (skipZero : Bool) (o : Option ℕ)

/-- A transition to the root counts as none where rows leave it out. -/
def usable : Option ℕ :=
  o.filter (fun s => !(skipZero && s == 0))

theorem usable_of_ne_zero {s : ℕ} (hs : s ≠ 0) : usable skipZero (some s) = some s := by
  simp [usable, hs]

@[simp] theorem usable_false : usable false o = o := by
  cases o <;> rfl

@[simp] theorem usable_usable : usable skipZero (usable skipZero o) = usable skipZero o := by
  cases o with
  | none => rfl
  | some s =>
    by_cases h : (!(skipZero && s == 0)) = true
    · simp [usable, Option.filter, h]
    · simp [usable, Option.filter, h]

theorem ne_zero_of_usable_true {m : ℕ} (h : usable true (some m) = some m) : m ≠ 0 := by
  rintro rfl
  cases h

/-- An absent cell of a complete row stands for the root. -/
theorem getD_usable (m : ℕ) : (usable skipZero (some m)).getD 0 = m := by
  by_cases hm : m = 0
  · subst hm
    cases skipZero <;> rfl
  · rw [usable_of_ne_zero skipZero hm, getD_some]

/-- The transitions the insertion of words follows. -/
def Rows.trans (R : Rows τ α) (skipZero : Bool) : TransTable τ α where
  get t s a := usable skipZero (R.get t s a)
  put := R.put
  get_put_self t s a m hm := by
    rw [R.get_put_self, usable_of_ne_zero skipZero (by omega)]
  get_put_of_ne t s a m s' a' hne := by
    rw [R.get_put_of_ne _ _ _ _ _ _ hne]

theorem Rows.trans_false_get (R : Rows τ α) : (R.trans false).get = R.get := by
  funext t s a
  exact usable_false _

/-- The rows being rewritten and the flags of the waiting states. -/
structure DetState (τ : Type*) where
  table : τ
  queued : ℕ → Bool

section Pass
variable (R : Rows τ α) (fail : ℕ → ℕ) (guard skipZero : Bool)

/-- One cell of the row of `r`: a transition is followed later, a missing one is
read from the row of the failure state. -/
def completeLetter (r : ℕ) (acc : List ℕ × DetState τ) (a : α) : List ℕ × DetState τ :=
  match usable skipZero (R.get acc.2.table r a) with
  | some s =>
    let pushed := enqueue guard acc.2.queued s
    (acc.1 ++ pushed.1, { acc.2 with queued := pushed.2 })
  | none =>
    match usable skipZero (R.get acc.2.table (fail r) a) with
    | some m => (acc.1, { acc.2 with table := R.put acc.2.table r a m })
    | none => acc

def completeRow (alphabet : List α) (r : ℕ) (st : DetState τ) : List ℕ × DetState τ :=
  alphabet.foldl (completeLetter R fail guard skipZero r)
    ([], { st with queued := dequeue guard st.queued r })

/-- The root's row is complete from the start; its children are queued. -/
def rootLetterRow (acc : List ℕ × DetState τ) (a : α) : List ℕ × DetState τ :=
  match R.get acc.2.table 0 a with
  | none => acc
  | some s =>
    if s = 0 then acc
    else
      let pushed := enqueue guard acc.2.queued s
      (acc.1 ++ pushed.1, { acc.2 with queued := pushed.2 })

def determinize (alphabet : List α) (fuel : ℕ) (t : τ) : Option τ :=
  let start := alphabet.foldl (rootLetterRow R guard) ([], ⟨t, fun _ => false⟩)
  (bfs (fun r st => some (completeRow R fail guard skipZero alphabet r st)) fuel
    start.1 start.2).map DetState.table
end Pass

section Spec
variable [DecidableEq α] {n : ℕ} {goto : ℕ → α → Option ℕ} {lab : ℕ → List α}
  {alphabet : List α} {R : Rows τ α} {t₀ : τ} {fail : ℕ → ℕ} {guard skipZero : Bool}
  {st : DetState τ} {done q : List ℕ} {r : ℕ}

/-- The cells in `cells` are complete, the others are as they were. -/
structure DetInv (n : ℕ) (lab : ℕ → List α) (R : Rows τ α) (t₀ : τ)
    (guard skipZero : Bool) (cells : ℕ → α → Prop) (queue : List ℕ) (st : DetState τ) :
    Prop where
  complete : ∀ s a, cells s a → s < n → s ≠ 0 →
    ∃ m, IsNext n lab s a m ∧ R.get st.table s a = usable skipZero (some m)
  frame : ∀ s a, s = 0 ∨ ¬ cells s a → R.get st.table s a = R.get t₀ s a
  flags : Flags guard st.queued queue

theorem DetInv.congr {cells cells' : ℕ → α → Prop} {queue : List ℕ}
    (h : DetInv n lab R t₀ guard skipZero cells queue st)
    (hiff : ∀ s a, cells s a ↔ cells' s a) :
    DetInv n lab R t₀ guard skipZero cells' queue st := by
  have : cells = cells' := by
    funext s a
    exact propext (hiff s a)
  rwa [← this]

section
variable (h : IsTrie n goto lab) (hget : IsNfa goto (R.get t₀))
  (hfail : ∀ s, s < n → s ≠ 0 → IsFail n lab fail s)
include h hget hfail

theorem completeLetter_spec {pushed : List ℕ} {seen : List α} (hr : r < n) (hr0 : r ≠ 0)
    (hnot : r ∉ done) (hshallow : ∀ s, s < n → (lab s).length < (lab r).length → s ∈ done)
    (hinv : DetInv n lab R t₀ guard skipZero (fun s b => s ∈ done ∨ s = r ∧ b ∈ seen)
      (q ++ pushed) st)
    {a : α} (ha : a ∉ seen) (hfresh : ∀ s, goto r a = some s → s ∉ q ++ pushed) :
    (completeLetter R fail guard skipZero r (pushed, st) a).1 = pushed ++ (goto r a).toList ∧
      DetInv n lab R t₀ guard skipZero (fun s b => s ∈ done ∨ s = r ∧ b ∈ seen ++ [a])
        (q ++ (pushed ++ (goto r a).toList))
        (completeLetter R fail guard skipZero r (pushed, st) a).2 := by
  have hcell : R.get st.table r a = goto r a := by
    rw [hinv.frame r a (.inr (by rintro (hd | ⟨-, hs⟩); exacts [hnot hd, ha hs])), hget.other a hr0]
  cases hg : goto r a with
  | some s =>
    have hs0 := h.goto_ne_zero hr hg
    have hpush := hinv.flags.enqueue (hfresh s hg)
    have heq : completeLetter R fail guard skipZero r (pushed, st) a =
        (pushed ++ [s], { st with queued := (enqueue guard st.queued s).2 }) := by
      simp only [completeLetter, hcell, hg, usable_of_ne_zero skipZero hs0, hpush.1]
    rw [heq, toList_some]
    refine ⟨rfl, ?_, ?_, ?_⟩
    · rintro s' b (hd | ⟨rfl, hb⟩) hs' hs0'
      · exact hinv.complete s' b (.inl hd) hs' hs0'
      · rcases mem_append.mp hb with hb | hb
        · exact hinv.complete s' b (.inr ⟨rfl, hb⟩) hs' hs0'
        · rw [mem_singleton.mp hb]
          exact ⟨s, IsNext.of_goto h hr hg, by rw [hcell, hg, usable_of_ne_zero skipZero hs0]⟩
    · intro s' b hs'
      refine hinv.frame s' b (hs'.imp_right (fun hn hc => hn ?_))
      exact hc.imp_right (fun ⟨he, hb⟩ => ⟨he, mem_append_left _ hb⟩)
    · rw [← append_assoc]
      exact hpush.2
  | none =>
    -- the failure state is shallower, so its row is complete
    have hf := hfail r hr hr0
    have hlen := hf.length_lt h hr hr0
    have hrow : ∃ m, IsNext n lab (fail r) a m ∧
        usable skipZero (R.get st.table (fail r) a) = usable skipZero (some m) := by
      by_cases hf0 : fail r = 0
      · refine ⟨_, hf0 ▸ IsNext.of_root h, ?_⟩
        rw [hf0, hinv.frame 0 a (.inl rfl), hget.root a]
      · obtain ⟨m, hm, hmget⟩ := hinv.complete (fail r) a (.inl (hshallow _ hf.1 hlen)) hf.1 hf0
        exact ⟨m, hm, by rw [hmget, usable_usable]⟩
    obtain ⟨m, hm, hmget⟩ := hrow
    have hnext := IsNext.of_fail h hr hr0 hf hg hm
    have hres : ∃ t', (completeLetter R fail guard skipZero r (pushed, st) a) =
          (pushed, { st with table := t' }) ∧
        R.get t' r a = usable skipZero (some m) ∧
        ∀ s' b, ¬(s' = r ∧ b = a) → R.get t' s' b = R.get st.table s' b := by
      have hnone : usable skipZero (none : Option ℕ) = none := rfl
      cases hu : usable skipZero (some m) with
      | some m' =>
        refine ⟨R.put st.table r a m', ?_, R.get_put_self .., fun s' b hne =>
          R.get_put_of_ne _ _ _ _ _ _ hne⟩
        simp only [completeLetter, hcell, hg, hnone, hmget, hu]
      | none =>
        refine ⟨st.table, ?_, by rw [hcell, hg], fun _ _ _ => rfl⟩
        simp only [completeLetter, hcell, hg, hnone, hmget, hu]
    obtain ⟨t', heq, hself, hother⟩ := hres
    rw [heq, toList_none, append_nil]
    refine ⟨rfl, ?_, ?_, hinv.flags⟩
    · intro s' b hc hs' hs0'
      by_cases hcur : s' = r ∧ b = a
      · rw [hcur.1, hcur.2]
        exact ⟨m, hnext, hself⟩
      · obtain ⟨m', hm', hget'⟩ := hinv.complete s' b (hc.imp_right (fun ⟨he, hb⟩ =>
          ⟨he, by
            rcases mem_append.mp hb with hb | hb
            · exact hb
            · exact absurd ⟨he, mem_singleton.mp hb⟩ hcur⟩)) hs' hs0'
        exact ⟨m', hm', (hother s' b hcur).trans hget'⟩
    · intro s' b hs'
      have hne : ¬(s' = r ∧ b = a) := by
        rintro ⟨rfl, rfl⟩
        rcases hs' with hs' | hs'
        · exact hr0 hs'
        · exact hs' (.inr ⟨rfl, by simp⟩)
      refine (hother s' b hne).trans (hinv.frame s' b (hs'.imp_right (fun hn hc => hn ?_)))
      exact hc.imp_right (fun ⟨he, hb⟩ => ⟨he, mem_append_left _ hb⟩)

theorem completeRow_spec (hnd : alphabet.Nodup) (hall : ∀ a, a ∈ alphabet)
    (hf : Frontier (fun r => alphabet.filterMap (goto r)) (fun s => (lab s).length) done (r :: q))
    (hinv : DetInv n lab R t₀ guard skipZero (fun s _ => s ∈ done) (r :: q) st) :
    (completeRow R fail guard skipZero alphabet r st).1 = alphabet.filterMap (goto r) ∧
      DetInv n lab R t₀ guard skipZero (fun s _ => s ∈ done ++ [r])
        (q ++ alphabet.filterMap (goto r))
        (completeRow R fail guard skipZero alphabet r st).2 := by
  have htree := h.isTree hnd hall
  have hrn : r < n := hf.lt_of_mem htree (by simp)
  have hr0 : r ≠ 0 := fun he => hf.not_done (he ▸ hf.root_done)
  have hloop : ∀ (todo seen : List α) (st : DetState τ), alphabet = seen ++ todo →
      DetInv n lab R t₀ guard skipZero (fun s b => s ∈ done ∨ s = r ∧ b ∈ seen)
        (q ++ seen.filterMap (goto r)) st →
      ∃ st', todo.foldl (completeLetter R fail guard skipZero r)
          (seen.filterMap (goto r), st) = (alphabet.filterMap (goto r), st') ∧
        DetInv n lab R t₀ guard skipZero (fun s b => s ∈ done ∨ s = r ∧ b ∈ alphabet)
          (q ++ alphabet.filterMap (goto r)) st' := by
    intro todo
    induction todo with
    | nil =>
      intro seen st halpha hinv
      rw [append_nil] at halpha
      subst halpha
      exact ⟨st, rfl, hinv⟩
    | cons a todo ih =>
      intro seen st halpha hinv
      have ha : a ∉ seen := by
        intro hmem
        rw [halpha] at hnd
        exact (nodup_append.mp hnd).2.2 a hmem a mem_cons_self rfl
      have hfresh : ∀ s, goto r a = some s → s ∉ q ++ seen.filterMap (goto r) := by
        intro s hg hmem
        rcases mem_append.mp hmem with hq | hs
        · have hchild : s ∈ alphabet.filterMap (goto r) :=
            mem_filterMap.mpr ⟨a, hall a, hg⟩
          exact hf.children_fresh htree hchild (by simp [hq])
        · obtain ⟨b, hb, hgb⟩ := mem_filterMap.mp hs
          have he := (h.lab_goto hrn hgb).symm.trans (h.lab_goto hrn hg)
          have hba : b = a := by simpa using he
          exact ha (hba ▸ hb)
      obtain ⟨hfst, hinv'⟩ := completeLetter_spec h hget hfail hrn hr0 hf.not_done
        (fun s hs hlt => hf.done_of_depth_lt htree hs hlt) hinv ha hfresh
      have hseen : seen.filterMap (goto r) ++ (goto r a).toList =
          (seen ++ [a]).filterMap (goto r) := by
        cases hg : goto r a <;> simp [filterMap_append, hg]
      rw [hseen] at hfst hinv'
      rw [foldl_cons, ← Prod.eta (completeLetter R fail guard skipZero r _ a), hfst]
      exact ih (seen ++ [a]) _ (by simp [halpha]) hinv'
  have hstart : DetInv n lab R t₀ guard skipZero (fun s b => s ∈ done ∨ s = r ∧ b ∈ [])
      (q ++ ([] : List α).filterMap (goto r))
      { st with queued := dequeue guard st.queued r } := by
    refine ⟨?_, ?_, ?_⟩
    · rintro s b (hd | ⟨-, hb⟩) hs hs0
      · exact hinv.complete s b hd hs hs0
      · exact absurd hb not_mem_nil
    · intro s b hs
      exact hinv.frame s b (hs.imp_right (fun hn hd => hn (.inl hd)))
    · rw [filterMap_nil, append_nil]
      exact hinv.flags.dequeue hf.front_fresh
  obtain ⟨st', hfold, hinv'⟩ := hloop alphabet [] _ rfl hstart
  rw [filterMap_nil] at hfold
  rw [completeRow, hfold]
  refine ⟨rfl, hinv'.congr (fun s a => ?_)⟩
  simp [hall a]
end

omit [DecidableEq α] in
variable (guard) in
theorem rootLetterRow_foldl (h : IsTrie n goto lab) (hget : IsNfa goto (R.get t₀))
    (hnd : alphabet.Nodup) (hall : ∀ a, a ∈ alphabet) :
    ∃ queued, alphabet.foldl (rootLetterRow R guard) ([], ⟨t₀, fun _ => false⟩) =
        (alphabet.filterMap (goto 0), ⟨t₀, queued⟩) ∧
      Flags guard queued (alphabet.filterMap (goto 0)) := by
  have hloop : ∀ (todo : List α) (pushed : List ℕ) (queued : ℕ → Bool),
      (pushed ++ todo.filterMap (goto 0)).Nodup → Flags guard queued pushed →
      ∃ queued', todo.foldl (rootLetterRow R guard) (pushed, ⟨t₀, queued⟩) =
          (pushed ++ todo.filterMap (goto 0), ⟨t₀, queued'⟩) ∧
        Flags guard queued' (pushed ++ todo.filterMap (goto 0)) := by
    intro todo
    induction todo with
    | nil => intro pushed queued _ hfl; exact ⟨queued, by simp, by simpa using hfl⟩
    | cons a todo ih =>
      intro pushed queued hnodup hfl
      rw [foldl_cons]
      cases hg : goto 0 a with
      | none =>
        have hletter : rootLetterRow R guard (pushed, ⟨t₀, queued⟩) a = (pushed, ⟨t₀, queued⟩) := by
          simp [rootLetterRow, hget.root a, hg]
        rw [filterMap_cons_none hg] at hnodup ⊢
        rw [hletter]
        exact ih pushed queued hnodup hfl
      | some s =>
        rw [filterMap_cons_some hg, append_cons] at hnodup ⊢
        have hnew : s ∉ pushed := by
          intro hmem
          have := List.Nodup.of_append_left hnodup
          exact (nodup_append.mp this).2.2 s hmem s (by simp) rfl
        have hpush := hfl.enqueue hnew
        have hletter : rootLetterRow R guard (pushed, ⟨t₀, queued⟩) a =
            (pushed ++ [s], ⟨t₀, (enqueue guard queued s).2⟩) := by
          simp [rootLetterRow, hget.root a, hg, h.goto_ne_zero h.pos hg, hpush.1]
        rw [hletter]
        exact ih _ _ hnodup hpush.2
  have := hloop alphabet [] (fun _ => false) (by simpa using (h.isTree hnd hall).nodup 0)
    (fun _ s => by simp)
  simpa using this

variable (guard skipZero) in
/-- The pass ends, and every row holds the next states of the automaton. -/
theorem determinize_spec (h : IsTrie n goto lab) (hget : IsNfa goto (R.get t₀))
    (hfail : ∀ s, s < n → s ≠ 0 → IsFail n lab fail s)
    (hnd : alphabet.Nodup) (hall : ∀ a, a ∈ alphabet) {fuel : ℕ} (hfuel : n ≤ fuel) :
    ∃ t, determinize R fail guard skipZero alphabet fuel t₀ = some t ∧
      (∀ s, s < n → s ≠ 0 → ∀ a, ∃ m, IsNext n lab s a m ∧ R.get t s a = usable skipZero (some m)) ∧
      (∀ s, s = 0 ∨ n ≤ s → ∀ a, R.get t s a = R.get t₀ s a) := by
  have htree := h.isTree hnd hall
  obtain ⟨queued, hroot, hflags⟩ := rootLetterRow_foldl guard h hget hnd hall
  have hstart : DetInv n lab R t₀ guard skipZero (fun s _ => s ∈ [0])
      (alphabet.filterMap (goto 0)) ⟨t₀, queued⟩ := by
    refine ⟨?_, fun _ _ _ => rfl, hflags⟩
    intro s a hs _ hs0
    exact absurd (mem_singleton.mp hs) hs0
  have hstep : ∀ done r q st, Frontier (fun r => alphabet.filterMap (goto r))
      (fun s => (lab s).length) done (r :: q) →
      DetInv n lab R t₀ guard skipZero (fun s _ => s ∈ done) (r :: q) st →
      ∃ st', some (completeRow R fail guard skipZero alphabet r st) =
          some (alphabet.filterMap (goto r), st') ∧
        DetInv n lab R t₀ guard skipZero (fun s _ => s ∈ done ++ [r])
          (q ++ alphabet.filterMap (goto r)) st' := by
    intro done r q st hf hinv
    obtain ⟨hfst, hinv'⟩ := completeRow_spec h hget hfail hnd hall hf hinv
    exact ⟨_, by rw [← hfst], hinv'⟩
  obtain ⟨done, st, hbfs, hf, hinv⟩ := bfs_rule htree
    (fun done queue st => DetInv n lab R t₀ guard skipZero (fun s _ => s ∈ done) queue st)
    hstep fuel [0] _ _ (Frontier.start htree) hstart (by omega)
  refine ⟨st.table, ?_, ?_, ?_⟩
  · rw [determinize, hroot, hbfs]
    rfl
  · intro s hs hs0 a
    exact hinv.complete s a (hf.done_of_empty htree hs) hs hs0
  · intro s hs a
    refine hinv.frame s a (hs.imp_right (fun hle hmem => ?_))
    have := hf.lt_of_mem htree (mem_append_left _ hmem)
    omega
end Spec

/-- A property of tables that every write of the pass keeps. -/
theorem determinize_table {R : Rows τ α} {fail : ℕ → ℕ} {guard skipZero : Bool}
    {alphabet : List α} {fuel : ℕ} {t₀ t : τ} (Inv : τ → Prop)
    (hput : ∀ t s a m, usable skipZero (some m) = some m → Inv t → Inv (R.put t s a m))
    (hdet : determinize R fail guard skipZero alphabet fuel t₀ = some t) (h₀ : Inv t₀) :
    Inv t := by
  have hletter : ∀ r (acc : List ℕ × DetState τ) a, Inv acc.2.table →
      Inv (completeLetter R fail guard skipZero r acc a).2.table := by
    intro r acc a hacc
    unfold completeLetter
    split
    · exact hacc
    · split
      · rename_i m hm
        refine hput _ _ _ _ ?_ hacc
        rw [← hm, usable_usable]
      · exact hacc
  have hrow : ∀ r st, Inv st.table →
      Inv (completeRow R fail guard skipZero alphabet r st).2.table := by
    intro r st hst
    exact foldlRecOn alphabet (completeLetter R fail guard skipZero r)
      (motive := fun acc : List ℕ × DetState τ => Inv acc.2.table) hst
      (fun acc hacc a _ => hletter r acc a hacc)
  have hroot : ∀ (todo : List α) (acc : List ℕ × DetState τ),
      (todo.foldl (rootLetterRow R guard) acc).2.table = acc.2.table := by
    intro todo
    induction todo with
    | nil => intro acc; rfl
    | cons a todo ih =>
      intro acc
      rw [foldl_cons, ih]
      unfold rootLetterRow
      split
      · rfl
      · split <;> rfl
  obtain ⟨st, hbfs, rfl⟩ := map_eq_some_iff.mp hdet
  refine bfs_invariant (fun st : DetState τ => Inv st.table) ?_ _ _ _ _ hbfs ?_
  · intro r st new st' hv hst
    have := hrow r st hst
    rw [Option.some.inj hv] at this
    exact this
  · rw [hroot]
    exact h₀
end Automata
