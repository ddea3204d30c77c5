import Snort.Automata.BreadthFirst
import Snort.Automata.NumberedTrie

/-!
# Failure links of a keyword trie

The breadth-first construction of failure links and inherited outputs. The
links are one table of states and one table of output lists, updated in place
while the walk goes on; `buildLinks` is that loop, and `buildLinks_spec` says
what it leaves behind: every link names the state of the failure word, and
every output list has the outputs of the linked state in front.

`queued` is the optional guard that keeps a waiting state from being queued a
second time, `mem` is whatever the copying of an output entry has to record.
-/

namespace Automata
open Function List
open Function (update)
variable {α ρ σ : Type*}

theorem IsTrie.isTree {n : ℕ} {goto : ℕ → α → Option ℕ} {lab : ℕ → List α}
    (h : IsTrie n goto lab) {alphabet : List α} (hnd : alphabet.Nodup)
    (hall : ∀ a, a ∈ alphabet) :
    IsTree n (fun r => alphabet.filterMap (goto r)) (fun s => (lab s).length) := by
  have hchild : ∀ {r x}, x ∈ alphabet.filterMap (goto r) → ∃ a, r < n ∧ goto r a = some x := by
    intro r x hx
    obtain ⟨a, -, ha⟩ := mem_filterMap.mp hx
    refine ⟨a, ?_, ha⟩
    by_contra hr
    rw [h.outside a (by omega)] at ha
    cases ha
  refine ⟨h.pos, ?_, ?_, ?_, ?_, ?_, ?_⟩
  · intro r
    by_cases hr : r < n
    · apply hnd.filterMap
      intro a a' x hx hx'
      have he := (h.lab_goto hr hx).symm.trans (h.lab_goto hr hx')
      simpa using he
    · have : alphabet.filterMap (goto r) = [] := by
        rw [filterMap_eq_nil_iff]
        intro a _
        exact h.outside a (by omega)
      rw [this]
      exact nodup_nil
  · intro r x hx
    obtain ⟨a, hr, hg⟩ := hchild hx
    exact h.goto_lt hr hg
  · intro r x hx
    obtain ⟨a, hr, hg⟩ := hchild hx
    exact h.goto_ne_zero hr hg
  · intro r r' x hx hx'
    obtain ⟨a, hr, hg⟩ := hchild hx
    obtain ⟨a', hr', hg'⟩ := hchild hx'
    have he := (h.lab_goto hr hg).symm.trans (h.lab_goto hr' hg')
    exact h.inj hr hr' (append_inj' he rfl).1
  · intro x hx hne
    obtain ⟨s, a, hs, hlab⟩ := h.parent hx hne
    exact ⟨s, hs, mem_filterMap.mpr ⟨a, hall a, (h.edge hs).mpr ⟨hx, hlab⟩⟩⟩
  · intro r x hx
    obtain ⟨a, hr, hg⟩ := hchild hx
    rw [h.lab_goto hr hg, length_append, length_singleton]

/-! ## Following failure links -/

/-- Follow failure links until some state has a transition on `a`. -/
def chase (get : ℕ → α → Option ℕ) (fail : ℕ → ℕ) (a : α) : ℕ → ℕ → Option ℕ
  | 0, _ => none
  | fuel + 1, s =>
    match get s a with
    | some t => some t
    | none => chase get fail a fuel (fail s)

/-- The transitions of the machine with failure links: those of the trie, and
the root never fails. -/
structure IsNfa (goto get : ℕ → α → Option ℕ) : Prop where
  root : ∀ a, get 0 a = some ((goto 0 a).getD 0)
  other : ∀ {s} a, s ≠ 0 → get s a = goto s a

/-- `t` is the state an automaton on the trie's states takes from `s` on `a`:
the one whose word is the longest suffix of the extended word. -/
def IsNext [DecidableEq α] (n : ℕ) (lab : ℕ → List α) (s : ℕ) (a : α) (t : ℕ) : Prop :=
  t < n ∧ lab t = longestSuffix (Lang n lab) (lab s ++ [a])

/-- `fail s` is the state of the failure word of `s`. -/
def IsFail [DecidableEq α] (n : ℕ) (lab : ℕ → List α) (fail : ℕ → ℕ) (s : ℕ) : Prop :=
  fail s < n ∧ lab (fail s) = failWord (Lang n lab) (lab s)

variable [DecidableEq α] {n s : ℕ} {goto get : ℕ → α → Option ℕ} {lab : ℕ → List α} {fail : ℕ → ℕ}

theorem IsFail.length_lt (h : IsTrie n goto lab) (hs : s < n) (hne : s ≠ 0)
    (hf : IsFail n lab fail s) : (lab (fail s)).length < (lab s).length := by
  rw [hf.2]
  exact failWord_length_lt (fun hnil => hne ((h.lab_eq_nil_iff hs).mp hnil))

namespace IsNext
variable {n : ℕ} {goto get : ℕ → α → Option ℕ} {lab : ℕ → List α} {s : ℕ} {a : α} {t : ℕ}

section
variable (h : IsTrie n goto lab)
include h

theorem of_goto (hs : s < n) (hg : goto s a = some t) : IsNext n lab s a t := by
  have ht := (h.edge hs).mp hg
  exact ⟨ht.1, by rw [← ht.2, longestSuffix_of_mem (IsTrie.lang_lab ht.1)]⟩

theorem of_root : IsNext n lab 0 a ((goto 0 a).getD 0) := by
  cases hg : goto 0 a with
  | some t => exact of_goto h h.pos hg
  | none =>
    refine ⟨h.pos, ?_⟩
    have hnot := (h.goto_eq_none_iff h.pos).mp hg
    rw [h.root, nil_append] at hnot
    rw [Option.getD_none, h.root, nil_append, longestSuffix_cons_of_not_mem hnot]
    rfl

/-- Without a transition of its own, a state goes where its failure state goes. -/
theorem of_fail (hs : s < n) (h0 : s ≠ 0) {fail : ℕ → ℕ} (hf : IsFail n lab fail s)
    (hg : goto s a = none) (ht : IsNext n lab (fail s) a t) : IsNext n lab s a t := by
  have hne : lab s ≠ [] := fun hnil => h0 ((h.lab_eq_nil_iff hs).mp hnil)
  refine ⟨ht.1, ?_⟩
  rw [ht.2, hf.2, longestSuffix_snoc_of_not_mem h.prefixClosed hne ((h.goto_eq_none_iff hs).mp hg)]

theorem unique {t' : ℕ} (ht : IsNext n lab s a t) (ht' : IsNext n lab s a t') : t = t' :=
  h.inj ht.1 ht'.1 (ht.2.trans ht'.2.symm)
end
end IsNext

/-- A link that serves as well as the failure link: it leads to a shorter word, and
where `s` has no transition, it leads to the next state. -/
structure IsBackup (n : ℕ) (goto : ℕ → α → Option ℕ) (lab : ℕ → List α) (fail : ℕ → ℕ)
    (s : ℕ) : Prop where
  lt : fail s < n
  shorter : (lab (fail s)).length < (lab s).length
  next : ∀ a t, goto s a = none → IsNext n lab (fail s) a t → IsNext n lab s a t

theorem IsFail.isBackup (h : IsTrie n goto lab) (hs : s < n) (hne : s ≠ 0)
    (hf : IsFail n lab fail s) : IsBackup n goto lab fail s where
  lt := hf.1
  shorter := hf.length_lt h hs hne
  next _ _ hg ht := IsNext.of_fail h hs hne hf hg ht

/-- Where the links are right, following them finds the next state. -/
theorem chase_backup_spec (h : IsTrie n goto lab) (hget : IsNfa goto get) (a : α) :
    ∀ fuel s, s < n → (lab s).length < fuel →
    (∀ t, t < n → t ≠ 0 → (lab t).length ≤ (lab s).length → IsBackup n goto lab fail t) →
    ∃ t, chase get fail a fuel s = some t ∧ IsNext n lab s a t := by
  intro fuel
  induction fuel with
  | zero => intro s _ hlt; omega
  | succ fuel ih =>
    intro s hs hlt hback
    by_cases h0 : s = 0
    · -- the root answers for every letter
      subst h0
      exact ⟨_, by simp [chase, hget.root a], IsNext.of_root h⟩
    · cases hg : goto s a with
      | some t =>
        exact ⟨t, by simp [chase, hget.other a h0, hg], IsNext.of_goto h hs hg⟩
      | none =>
        have hb := hback s hs h0 (Nat.le_refl _)
        have hlen := hb.shorter
        obtain ⟨t, hchase, ht⟩ := ih (fail s) hb.lt (by omega)
          (fun u hu hu0 hle => hback u hu hu0 (by omega))
        exact ⟨t, by simp [chase, hget.other a h0, hg, hchase], hb.next a t hg ht⟩

theorem chase_spec (h : IsTrie n goto lab) (hget : IsNfa goto get) (a : α) (fuel s : ℕ)
    (hs : s < n) (hlt : (lab s).length < fuel)
    (hfail : ∀ t, t < n → t ≠ 0 → (lab t).length ≤ (lab s).length → IsFail n lab fail t) :
    ∃ t, chase get fail a fuel s = some t ∧ IsNext n lab s a t :=
  chase_backup_spec h hget a fuel s hs hlt
    (fun t ht ht0 hle => (hfail t ht ht0 hle).isBackup h ht ht0)

/-! ## The construction -/

/-- The tables under construction. -/
structure Links (ρ σ : Type*) where
  fail : ℕ → ℕ
  out : ℕ → List ρ
  queued : ℕ → Bool
  mem : σ

/-- Copy output entries to the front of the list of `s`, one at a time. -/
def Links.copyOut (copy : ρ → σ → σ) (s : ℕ) (es : List ρ) (L : Links ρ σ) : Links ρ σ :=
  es.foldl (fun L e =>
    { L with out := update L.out s (e :: L.out s), mem := copy e L.mem }) L

/-- Set the failure link of `s` and inherit the outputs of the linked state. -/
def Links.link (copy : ρ → σ → σ) (s next : ℕ) (L : Links ρ σ) : Links ρ σ :=
  Links.copyOut copy s (L.out next) { L with fail := update L.fail s next }

/-- One transition of the visited state `r`. -/
def visitLetter (get : ℕ → α → Option ℕ) (copy : ρ → σ → σ) (guard : Bool) (fuel r : ℕ)
    (acc : List ℕ × Links ρ σ) (a : α) : Option (List ℕ × Links ρ σ) :=
  match get r a with
  | none => some acc
  | some s =>
    let pushed := enqueue guard acc.2.queued s
    match chase get acc.2.fail a fuel (acc.2.fail r) with
    | none => none
    | some next =>
      some (acc.1 ++ pushed.1, Links.link copy s next { acc.2 with queued := pushed.2 })

variable (alphabet : List α)

/-- All transitions of `r`, in the order of the alphabet. -/
def visitLinks (get : ℕ → α → Option ℕ) (copy : ρ → σ → σ) (guard : Bool) (fuel r : ℕ)
    (L : Links ρ σ) : Option (List ℕ × Links ρ σ) :=
  alphabet.foldlM (visitLetter get copy guard fuel r)
    ([], { L with queued := dequeue guard L.queued r })

/-- One transition of the root, whose children all fail to the root. -/
def rootLetter (get : ℕ → α → Option ℕ) (guard : Bool) (acc : List ℕ × Links ρ σ)
    (a : α) : List ℕ × Links ρ σ :=
  match get 0 a with
  | none => acc
  | some s =>
    if s = 0 then acc
    else
      let pushed := enqueue guard acc.2.queued s
      (acc.1 ++ pushed.1, { acc.2 with queued := pushed.2, fail := update acc.2.fail s 0 })

def rootLinks (get : ℕ → α → Option ℕ) (guard : Bool) (L : Links ρ σ) : List ℕ × Links ρ σ :=
  alphabet.foldl (rootLetter get guard) ([], L)

/-- Failure links and outputs of the whole trie. -/
def buildLinks (get : ℕ → α → Option ℕ) (copy : ρ → σ → σ) (guard : Bool) (fuel : ℕ)
    (L : Links ρ σ) :
    Option (Links ρ σ) :=
  let start := rootLinks alphabet get guard L
  bfs (visitLinks alphabet get copy guard fuel) fuel start.1 start.2

@[simp] theorem Links.copyOut_fail (copy : ρ → σ → σ) (s : ℕ) :
    ∀ (es : List ρ) (L : Links ρ σ), (L.copyOut copy s es).fail = L.fail
  | [], _ => rfl
  | _ :: es, _ => Links.copyOut_fail copy s es _

@[simp] theorem Links.copyOut_queued (copy : ρ → σ → σ) (s : ℕ) :
    ∀ (es : List ρ) (L : Links ρ σ), (L.copyOut copy s es).queued = L.queued
  | [], _ => rfl
  | _ :: es, _ => Links.copyOut_queued copy s es _

theorem Links.copyOut_out (copy : ρ → σ → σ) (s : ℕ) :
    ∀ (es : List ρ) (L : Links ρ σ), (L.copyOut copy s es).out =
      update L.out s (es.reverse ++ L.out s)
  | [], L => by simp [Links.copyOut]
  | e :: es, L => by
      have ih := Links.copyOut_out copy s es
        { L with out := update L.out s (e :: L.out s), mem := copy e L.mem }
      simp only [Links.copyOut, foldl_cons] at ih ⊢
      rw [ih]
      simp

@[simp] theorem Links.link_fail (copy : ρ → σ → σ) (s next : ℕ) (L : Links ρ σ) :
    (L.link copy s next).fail = update L.fail s next := by
  rw [Links.link, Links.copyOut_fail]

@[simp] theorem Links.link_queued (copy : ρ → σ → σ) (s next : ℕ) (L : Links ρ σ) :
    (L.link copy s next).queued = L.queued := by
  rw [Links.link, Links.copyOut_queued]

@[simp] theorem Links.link_out (copy : ρ → σ → σ) (s next : ℕ) (L : Links ρ σ) :
    (L.link copy s next).out = update L.out s ((L.out next).reverse ++ L.out s) := by
  rw [Links.link, Links.copyOut_out]

/-- The outputs `s` inherits from its failure state. The children of the root are
linked to it by the first loop, which copies nothing. -/
def inherited (lab : ℕ → List α) (L : Links ρ σ) (s : ℕ) : List ρ :=
  if (lab s).length = 1 then [] else (L.out (L.fail s)).reverse

/-- What holds of the tables during the walk: discovered states are finished,
the others are untouched. -/
structure LinkInv (n : ℕ) (lab : ℕ → List α) (guard : Bool) (L₀ : Links ρ σ)
    (done queue : List ℕ) (L : Links ρ σ) : Prop where
  fails : ∀ s ∈ done ++ queue, s ≠ 0 → IsFail n lab L.fail s
  outs : ∀ s ∈ done ++ queue, s ≠ 0 → L.out s = inherited lab L s ++ L₀.out s
  root : L.fail 0 = L₀.fail 0 ∧ L.out 0 = L₀.out 0
  frame : ∀ s, s ∉ done ++ queue → L.fail s = L₀.fail s ∧ L.out s = L₀.out s
  flags : Flags guard L.queued queue

theorem LinkInv.discover {guard : Bool} {L₀ L L' : Links ρ σ} {done queue : List ℕ} {next : ℕ}
    (h : IsTrie n goto lab) (hinv : LinkInv n lab guard L₀ done queue L)
    (hlt : ∀ t ∈ done ++ queue, t < n)
    (hdepth : ∀ t ∈ done ++ queue, (lab t).length ≤ (lab s).length)
    (hs : s < n) (hs0 : s ≠ 0) (hfresh : s ∉ done ++ queue) (hnext : next < n)
    (hlab : lab next = failWord (Lang n lab) (lab s))
    (hfail : L'.fail = update L.fail s next)
    (hout : L'.out = update L.out s
      ((if (lab s).length = 1 then [] else (L.out next).reverse) ++ L.out s))
    (hflags : Flags guard L'.queued (queue ++ [s])) :
    LinkInv n lab guard L₀ done (queue ++ [s]) L' := by
  have hsfail : IsFail n lab L'.fail s := by
    rw [IsFail, hfail, update_self]
    exact ⟨hnext, hlab⟩
  have hnextne : next ≠ s := by
    rintro rfl
    have := hsfail.length_lt h hs hs0
    rw [hfail, update_self] at this
    omega
  have hold : ∀ t, t ∈ done ++ queue → t ≠ s := fun t ht he => hfresh (he ▸ ht)
  refine ⟨?_, ?_, ?_, ?_, hflags⟩
  · intro t ht ht0
    rw [← append_assoc, mem_append, mem_singleton] at ht
    rcases ht with ht | rfl
    · have := hinv.fails t ht ht0
      rw [IsFail, hfail, update_of_ne (hold t ht)]
      exact this
    · exact hsfail
  · intro t ht ht0
    rw [← append_assoc, mem_append, mem_singleton] at ht
    rcases ht with ht | rfl
    · -- an older state's link is shallower than `s`, so its outputs did not move
      have hft := hinv.fails t ht ht0
      have hlen := hft.length_lt h (hlt t ht) ht0
      have hne : L.fail t ≠ s := by
        intro he
        rw [he] at hlen
        have := hdepth t ht
        omega
      rw [inherited, hout, hfail, update_of_ne (hold t ht),
        update_of_ne (hold t ht), update_of_ne hne]
      exact hinv.outs t ht ht0
    · rw [inherited, hout, hfail, update_self, update_self,
        update_of_ne hnextne, (hinv.frame t hfresh).2]
  · rw [hfail, hout, update_of_ne (Ne.symm hs0), update_of_ne (Ne.symm hs0)]
    exact hinv.root
  · intro t ht
    rw [← append_assoc, mem_append, mem_singleton, not_or] at ht
    rw [hfail, hout, update_of_ne ht.2, update_of_ne ht.2]
    exact hinv.frame t ht.1

section Build
variable {n : ℕ} {goto get : ℕ → α → Option ℕ} {lab : ℕ → List α} {alphabet : List α}
  {guard : Bool} {L₀ : Links ρ σ} {fuel r : ℕ} {done q : List ℕ} {L : Links ρ σ}

section
variable (h : IsTrie n goto lab) (hget : IsNfa goto get) (hnd : alphabet.Nodup)
  (hall : ∀ a, a ∈ alphabet) (copy : ρ → σ → σ) (hfuel : n ≤ fuel)
  (hf : Frontier (fun r => alphabet.filterMap (goto r)) (fun s => (lab s).length) done (r :: q))
include h hget hnd hall copy hfuel hf

/-- One letter of the visited state `r`: if `r` has a child there, it is pushed
and finished. -/
theorem visitLetter_spec {pushed : List ℕ}
    (hinv : LinkInv n lab guard L₀ (done ++ [r]) (q ++ pushed) L)
    (hpushed : ∀ x ∈ pushed, x ∈ alphabet.filterMap (goto r)) (a : α)
    (hfresh : ∀ s, goto r a = some s → s ∉ pushed) :
    ∃ L', visitLetter get copy guard fuel r (pushed, L) a = some (pushed ++ (goto r a).toList, L') ∧
      LinkInv n lab guard L₀ (done ++ [r]) (q ++ (pushed ++ (goto r a).toList)) L' := by
  have htree := h.isTree hnd hall
  have hrn : r < n := hf.lt_of_mem htree (by simp)
  have hr0 : r ≠ 0 := fun he => hf.not_done (he ▸ hf.root_done)
  cases hg : goto r a with
  | none =>
    refine ⟨L, ?_, by simpa using hinv⟩
    simp [visitLetter, hget.other a hr0, hg]
  | some s =>
    have hs := h.goto_lt hrn hg
    have hlabs := h.lab_goto hrn hg
    have hchild : s ∈ alphabet.filterMap (goto r) :=
      mem_filterMap.mpr ⟨a, hall a, hg⟩
    have hassoc : (done ++ [r]) ++ (q ++ pushed) = (done ++ r :: q) ++ pushed := by simp
    have hnew : s ∉ (done ++ [r]) ++ (q ++ pushed) := by
      rw [hassoc, mem_append, not_or]
      exact ⟨hf.children_fresh htree hchild, hfresh s hg⟩
    have hle : ∀ t ∈ (done ++ [r]) ++ (q ++ pushed), t < n ∧ (lab t).length ≤ (lab s).length := by
      intro t ht
      rw [hlabs, length_append, length_singleton]
      rw [hassoc, mem_append] at ht
      rcases ht with ht | ht
      · refine ⟨hf.lt_of_mem htree ht, ?_⟩
        rcases mem_append.mp ht with ht | ht
        · have := hf.depth_le_of_done ht
          omega
        · exact hf.levels r mem_cons_self t ht
      · exact ⟨htree.lt (hpushed t ht), le_of_eq (htree.depth_child (hpushed t ht))⟩
    -- all links the search for `next` reads belong to finished states
    have hfr := hinv.fails r (by simp) hr0
    have hlen := hfr.length_lt h hrn hr0
    have hlenn := h.length_lab_lt hrn
    obtain ⟨next, hchase, hnext, hlabn⟩ := chase_spec h hget a fuel (L.fail r) hfr.1
      (by omega) (fun t ht ht0 hle => hinv.fails t (mem_append_left _
        (mem_append_left _ (hf.done_of_depth_lt htree ht (by omega)))) ht0)
    have hpush := hinv.flags.enqueue (fun hmem => hnew (mem_append_right _ hmem))
    refine ⟨Links.link copy s next { L with queued := (enqueue guard L.queued s).2 }, ?_, ?_⟩
    · simp only [visitLetter, hget.other a hr0, hg, hchase, hpush.1, Option.toList_some]
    · rw [Option.toList_some, ← append_assoc]
      refine hinv.discover h (fun t ht => (hle t ht).1) (fun t ht => (hle t ht).2) hs
        (h.goto_ne_zero hrn hg) hnew hnext ?_ ?_ ?_ ?_
      · have hne : lab r ≠ [] := fun hnil => hr0 ((h.lab_eq_nil_iff hrn).mp hnil)
        rw [hlabn, hfr.2, hlabs, failWord_snoc h.prefixClosed a hne]
      · rw [Links.link_fail]
      · have hlen1 : ¬ (lab s).length = 1 := by
          rw [hlabs, length_append, length_singleton]
          omega
        rw [Links.link_out, if_neg hlen1]
      · rw [Links.link_queued]
        exact hpush.2

theorem visitLinks_spec (hinv : LinkInv n lab guard L₀ done (r :: q) L) :
    ∃ L', visitLinks alphabet get copy guard fuel r L = some (alphabet.filterMap (goto r), L') ∧
      LinkInv n lab guard L₀ (done ++ [r]) (q ++ alphabet.filterMap (goto r)) L' := by
  have hloop : ∀ (todo : List α) (pushed : List ℕ) (L : Links ρ σ),
      (∀ x ∈ pushed ++ todo.filterMap (goto r), x ∈ alphabet.filterMap (goto r)) →
      (pushed ++ todo.filterMap (goto r)).Nodup →
      LinkInv n lab guard L₀ (done ++ [r]) (q ++ pushed) L →
      ∃ L', todo.foldlM (visitLetter get copy guard fuel r) (pushed, L) =
          some (pushed ++ todo.filterMap (goto r), L') ∧
        LinkInv n lab guard L₀ (done ++ [r]) (q ++ (pushed ++ todo.filterMap (goto r))) L' := by
    intro todo
    induction todo with
    | nil => intro pushed L _ _ hinv; exact ⟨L, by simp, by simpa using hinv⟩
    | cons a todo ih =>
      intro pushed L hsub hnodup hinv
      have hsplit : pushed ++ (a :: todo).filterMap (goto r) =
          (pushed ++ (goto r a).toList) ++ todo.filterMap (goto r) := by
        cases hg : goto r a <;> simp [hg]
      rw [hsplit] at hsub hnodup ⊢
      obtain ⟨L', hvisit, hinv'⟩ := visitLetter_spec h hget hnd hall copy hfuel hf hinv
        (fun x hx => hsub x (by simp [hx])) a (by
          intro s hs hmem
          rw [hs, Option.toList_some] at hnodup
          have := List.Nodup.of_append_left hnodup
          exact (nodup_append.mp this).2.2 s hmem s (by simp) rfl)
      obtain ⟨L'', hfold, hinv''⟩ := ih _ L' hsub hnodup hinv'
      exact ⟨L'', by rw [foldlM_cons, hvisit]; exact hfold, hinv''⟩
  have hpop : LinkInv n lab guard L₀ (done ++ [r]) (q ++ [])
      { L with queued := dequeue guard L.queued r } := by
    have hassoc : (done ++ [r]) ++ (q ++ []) = done ++ r :: q := by simp
    refine ⟨?_, ?_, hinv.root, ?_, ?_⟩
    · rw [hassoc]
      exact hinv.fails
    · rw [hassoc]
      exact hinv.outs
    · rw [hassoc]
      exact hinv.frame
    · rw [append_nil]
      exact hinv.flags.dequeue hf.front_fresh
  have hchild : (alphabet.filterMap (goto r)).Nodup := (h.isTree hnd hall).nodup r
  exact hloop alphabet [] _ (by simp) (by simpa using hchild) hpop
end

/-- The first loop leaves the children of the root in the queue. -/
theorem rootLinks_spec (h : IsTrie n goto lab) (hget : IsNfa goto get)
    (hnd : alphabet.Nodup) (hall : ∀ a, a ∈ alphabet)
    (hq : guard = true → ∀ s, L₀.queued s = false) :
    (rootLinks alphabet get guard L₀).1 = alphabet.filterMap (goto 0) ∧
      LinkInv n lab guard L₀ [0] (alphabet.filterMap (goto 0))
        (rootLinks alphabet get guard L₀).2 := by
  have htree := h.isTree hnd hall
  have hstart : LinkInv n lab guard L₀ [0] [] L₀ := by
    refine ⟨?_, ?_, ⟨rfl, rfl⟩, fun _ _ => ⟨rfl, rfl⟩, ?_⟩
    · intro s hs hs0
      exact absurd (by simpa using hs) hs0
    · intro s hs hs0
      exact absurd (by simpa using hs) hs0
    · intro hg s
      simp [hq hg s]
  have hloop : ∀ (todo : List α) (pushed : List ℕ) (L : Links ρ σ),
      (∀ x ∈ pushed ++ todo.filterMap (goto 0), x ∈ alphabet.filterMap (goto 0)) →
      (pushed ++ todo.filterMap (goto 0)).Nodup → LinkInv n lab guard L₀ [0] pushed L →
      ∃ L', todo.foldl (rootLetter get guard) (pushed, L) =
          (pushed ++ todo.filterMap (goto 0), L') ∧
        LinkInv n lab guard L₀ [0] (pushed ++ todo.filterMap (goto 0)) L' := by
    intro todo
    induction todo with
    | nil => intro pushed L _ _ hinv; exact ⟨L, by simp, by simpa using hinv⟩
    | cons a todo ih =>
      intro pushed L hsub hnodup hinv
      rw [foldl_cons]
      cases hg : goto 0 a with
      | none =>
        have hletter : rootLetter get guard (pushed, L) a = (pushed, L) := by
          simp [rootLetter, hget.root a, hg]
        rw [filterMap_cons_none hg] at hsub hnodup ⊢
        rw [hletter]
        exact ih pushed L hsub hnodup hinv
      | some s =>
        have hs0 := h.goto_ne_zero h.pos hg
        have hlabs := h.lab_goto h.pos hg
        rw [h.root, nil_append] at hlabs
        rw [filterMap_cons_some hg, append_cons] at hsub hnodup ⊢
        have hnew : s ∉ pushed := by
          intro hmem
          have := List.Nodup.of_append_left hnodup
          exact (nodup_append.mp this).2.2 s hmem s (by simp) rfl
        have hpush := hinv.flags.enqueue hnew
        have hletter : rootLetter get guard (pushed, L) a = (pushed ++ [s],
            { L with queued := (enqueue guard L.queued s).2,
                     fail := update L.fail s 0 }) := by
          simp [rootLetter, hget.root a, hg, hs0, hpush.1]
        rw [hletter]
        refine ih _ _ hsub hnodup ?_
        have hdepth : ∀ t ∈ [0] ++ pushed, t < n ∧ (lab t).length ≤ (lab s).length := by
          intro t ht
          rw [singleton_append, mem_cons] at ht
          rcases ht with rfl | ht
          · exact ⟨h.pos, by rw [h.root]; exact Nat.zero_le _⟩
          · have hmem := hsub t (by simp [ht])
            refine ⟨htree.lt hmem, ?_⟩
            have hd := htree.depth_child hmem
            rw [hd, h.root, hlabs]
            simp
        refine hinv.discover h (fun t ht => (hdepth t ht).1) (fun t ht => (hdepth t ht).2)
          (h.goto_lt h.pos hg) hs0 ?_ h.pos ?_ ?_ ?_ hpush.2
        · rw [singleton_append, mem_cons, not_or]
          exact ⟨hs0, hnew⟩
        · rw [h.root, hlabs, failWord_singleton]
        · rfl
        · rw [if_pos (by rw [hlabs, length_singleton]), nil_append, update_eq_self]
  obtain ⟨L', hfold, hinv⟩ := hloop alphabet [] L₀ (by simp) (by simpa using htree.nodup 0) hstart
  rw [rootLinks, hfold]
  simpa using hinv

/-- The finished tables: every link names the state of the failure word, every
output list is the linked state's, copied to the front of the state's own. -/
structure IsLinked (n : ℕ) (lab : ℕ → List α) (L₀ L : Links ρ σ) : Prop where
  fails : ∀ s, s < n → s ≠ 0 → IsFail n lab L.fail s
  outs : ∀ s, s < n → s ≠ 0 → L.out s = inherited lab L s ++ L₀.out s
  root : L.fail 0 = L₀.fail 0 ∧ L.out 0 = L₀.out 0
  frame : ∀ s, n ≤ s → L.fail s = L₀.fail s ∧ L.out s = L₀.out s

/-- The construction ends, with fuel for one visit per state, and is right. -/
theorem buildLinks_spec (h : IsTrie n goto lab) (hget : IsNfa goto get)
    (hnd : alphabet.Nodup) (hall : ∀ a, a ∈ alphabet) (copy : ρ → σ → σ)
    (hq : guard = true → ∀ s, L₀.queued s = false) (hfuel : n ≤ fuel) :
    ∃ L, buildLinks alphabet get copy guard fuel L₀ = some L ∧ IsLinked n lab L₀ L := by
  have htree := h.isTree hnd hall
  obtain ⟨hqueue, hinv⟩ := rootLinks_spec h hget hnd hall hq
  have hstep : ∀ done r q (L : Links ρ σ), Frontier (fun r => alphabet.filterMap (goto r))
      (fun s => (lab s).length) done (r :: q) → LinkInv n lab guard L₀ done (r :: q) L →
      ∃ L', visitLinks alphabet get copy guard fuel r L = some (alphabet.filterMap (goto r), L') ∧
        LinkInv n lab guard L₀ (done ++ [r]) (q ++ alphabet.filterMap (goto r)) L' :=
    fun _ _ _ _ hf hinv => visitLinks_spec h hget hnd hall copy hfuel hf hinv
  obtain ⟨done, L, hbfs, hf, hinv'⟩ := bfs_rule htree (LinkInv n lab guard L₀) hstep
    fuel [0] _ _ (Frontier.start htree) hinv (by omega)
  refine ⟨L, ?_, ?_⟩
  · rw [buildLinks, hqueue]
    exact hbfs
  · refine ⟨?_, ?_, hinv'.root, ?_⟩
    · intro s hs hs0
      exact hinv'.fails s (mem_append_left _ (hf.done_of_empty htree hs)) hs0
    · intro s hs hs0
      exact hinv'.outs s (mem_append_left _ (hf.done_of_empty htree hs)) hs0
    · intro s hs
      refine hinv'.frame s (fun hmem => ?_)
      have := hf.lt_of_mem htree hmem
      omega
end Build
end Automata
