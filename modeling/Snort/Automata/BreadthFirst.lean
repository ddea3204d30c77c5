import Mathlib

/-!
# Breadth-first walks over a numbered tree

A worklist loop that takes nodes from the front and appends what the visit
returns at the back. On a tree whose visits return exactly the children, the
list `done ++ queue` is the breadth-first order: no repetitions, depths never
decreasing, and at most two levels waiting. `bfs_rule` turns that into an
induction principle, so that a proof about such a loop only has to treat one
visit, knowing that everything shallower has been visited already.
-/

namespace Automata
open List
variable {σ : Type*}
  {guard : Bool} {queued : ℕ → Bool} {x : ℕ} {visit : ℕ → σ → Option (List ℕ × σ)}

/-- Visit the front node, append the nodes the visit returns. A visit that
fails, or a queue that outlives the fuel, gives `none`. -/
def bfs (visit : ℕ → σ → Option (List ℕ × σ)) : ℕ → List ℕ → σ → Option σ
  | _, [], st => some st
  | 0, _ :: _, _ => none
  | fuel + 1, r :: q, st =>
    match visit r st with
    | none => none
    | some (new, st') => bfs visit fuel (q ++ new) st'

/-- Append a node to the queue. With `guard`, a node that is flagged as waiting
is not appended again. -/
def enqueue (guard : Bool) (queued : ℕ → Bool) (x : ℕ) : List ℕ × (ℕ → Bool) :=
  if guard then
    if queued x then ([], queued) else ([x], Function.update queued x true)
  else ([x], queued)

/-- Clear the flag of a node taken from the queue. -/
def dequeue (guard : Bool) (queued : ℕ → Bool) (x : ℕ) : ℕ → Bool :=
  if guard then Function.update queued x false else queued

/-- The guard's flags are the membership test of the queue. -/
def Flags (guard : Bool) (queued : ℕ → Bool) (queue : List ℕ) : Prop :=
  guard = true → ∀ x, queued x = true ↔ x ∈ queue

theorem Flags.enqueue {queue : List ℕ} (h : Flags guard queued queue) (hx : x ∉ queue) :
    (enqueue guard queued x).1 = [x] ∧ Flags guard (enqueue guard queued x).2 (queue ++ [x]) := by
  unfold Automata.enqueue
  cases guard with
  | false => exact ⟨rfl, fun hg => Bool.noConfusion hg⟩
  | true =>
    have hq : queued x = false := by
      rw [← Bool.not_eq_true, h rfl x]
      exact hx
    simp only [hq, if_true, Bool.false_eq_true, if_false]
    refine ⟨trivial, fun _ y => ?_⟩
    by_cases hy : y = x
    · subst hy
      simp
    · rw [Function.update_of_ne hy, h rfl y]
      simp [hy]

theorem Flags.dequeue {q : List ℕ} (h : Flags guard queued (x :: q)) (hx : x ∉ q) :
    Flags guard (dequeue guard queued x) q := by
  intro hg y
  subst hg
  show Function.update queued x false y = true ↔ y ∈ q
  by_cases hy : y = x
  · subst hy
    simp [hx]
  · rw [Function.update_of_ne hy, h rfl y]
    simp [hy]

/-- A rooted tree on the numbers below `n`, given by its lists of children. -/
structure IsTree (n : ℕ) (children : ℕ → List ℕ) (depth : ℕ → ℕ) : Prop where
  pos : 0 < n
  nodup : ∀ r, (children r).Nodup
  lt : ∀ {r x}, x ∈ children r → x < n
  ne_root : ∀ {r x}, x ∈ children r → x ≠ 0
  parent_unique : ∀ {r r' x}, x ∈ children r → x ∈ children r' → r = r'
  parent : ∀ {x}, x < n → x ≠ 0 → ∃ r, r < n ∧ x ∈ children r
  depth_child : ∀ {r x}, x ∈ children r → depth x = depth r + 1

/-- The state of a breadth-first walk: `done` has been visited in that order,
`queue` is waiting. The root counts as visited from the start. -/
structure Frontier (children : ℕ → List ℕ) (depth : ℕ → ℕ) (done queue : List ℕ) :
    Prop where
  nodup : (done ++ queue).Nodup
  root_done : 0 ∈ done
  closed : ∀ r ∈ done, ∀ x ∈ children r, x ∈ done ++ queue
  origin : ∀ x ∈ done ++ queue, x = 0 ∨ ∃ r ∈ done, x ∈ children r
  sorted : (done ++ queue).Pairwise (fun x y => depth x ≤ depth y)
  levels : ∀ x ∈ queue, ∀ y ∈ queue, depth y ≤ depth x + 1

namespace Frontier
variable {n : ℕ} {children : ℕ → List ℕ} {depth : ℕ → ℕ} {done q : List ℕ} {r : ℕ} {x : ℕ}

theorem start (h : IsTree n children depth) :
    Frontier children depth [0] (children 0) where
  nodup := nodup_cons.mpr ⟨fun hmem => h.ne_root hmem rfl, h.nodup 0⟩
  root_done := mem_singleton_self 0
  closed := by
    intro r hr x hx
    rw [mem_singleton.mp hr] at hx
    exact mem_append_right _ hx
  origin := by
    intro x hx
    rcases mem_cons.mp hx with hx | hx
    · exact .inl hx
    · exact .inr ⟨0, mem_singleton_self 0, hx⟩
  sorted := by
    refine pairwise_cons.mpr ⟨?_, ?_⟩
    · intro x hx
      rw [h.depth_child hx]
      omega
    · apply List.Pairwise.imp_of_mem (R := fun _ _ => True)
      · intro x y hx hy _
        rw [h.depth_child hx, h.depth_child hy]
      · exact pairwise_of_forall (fun _ _ => trivial)
  levels := by
    intro x hx y hy
    rw [h.depth_child hx, h.depth_child hy]
    omega

section
variable (hf : Frontier children depth done (r :: q))
include hf

theorem depth_le_of_done (hx : x ∈ done) : depth x ≤ depth r :=
  (pairwise_append.mp hf.sorted).2.2 x hx r mem_cons_self

theorem depth_ge_of_queue (hx : x ∈ q) : depth r ≤ depth x :=
  (pairwise_cons.mp (pairwise_append.mp hf.sorted).2.1).1 x hx

theorem front_fresh : r ∉ q :=
  (nodup_cons.mp (nodup_append.mp hf.nodup).2.1).1

theorem not_done : r ∉ done := by
  intro hr
  exact (nodup_append.mp hf.nodup).2.2 r hr r mem_cons_self rfl
end

section
variable (h : IsTree n children depth)
include h
/-- The children of the front node are new: their only parent is not done. -/
theorem children_fresh (hf : Frontier children depth done (r :: q))
    (hx : x ∈ children r) : x ∉ done ++ r :: q := by
  intro hmem
  rcases hf.origin x hmem with hx0 | ⟨r', hr', hx'⟩
  · exact h.ne_root hx hx0
  · rw [h.parent_unique hx' hx] at hr'
    exact hf.not_done hr'

theorem step (hf : Frontier children depth done (r :: q)) :
    Frontier children depth (done ++ [r]) (q ++ children r) := by
  have hassoc : (done ++ [r]) ++ (q ++ children r) = (done ++ r :: q) ++ children r := by
    simp
  have hle : ∀ x ∈ done ++ r :: q, depth x ≤ depth r + 1 := by
    intro x hx
    rcases mem_append.mp hx with hx | hx
    · have := hf.depth_le_of_done hx
      omega
    · exact hf.levels r mem_cons_self x hx
  refine ⟨?_, ?_, ?_, ?_, ?_, ?_⟩
  · rw [hassoc]
    refine nodup_append.mpr ⟨hf.nodup, h.nodup r, ?_⟩
    rintro x hx y hy rfl
    exact hf.children_fresh h hy hx
  · exact mem_append_left _ hf.root_done
  · intro r' hr' x hx
    rw [hassoc]
    rcases mem_append.mp hr' with hr' | hr'
    · exact mem_append_left _ (hf.closed r' hr' x hx)
    · rw [mem_singleton.mp hr'] at hx
      exact mem_append_right _ hx
  · intro x hx
    rw [hassoc] at hx
    rcases mem_append.mp hx with hx | hx
    · rcases hf.origin x hx with h0 | ⟨r', hr', hx'⟩
      · exact .inl h0
      · exact .inr ⟨r', mem_append_left _ hr', hx'⟩
    · exact .inr ⟨r, by simp, hx⟩
  · rw [hassoc]
    refine pairwise_append.mpr ⟨hf.sorted, ?_, ?_⟩
    · apply List.Pairwise.imp_of_mem (R := fun _ _ => True)
      · intro x y hx hy _
        rw [h.depth_child hx, h.depth_child hy]
      · exact pairwise_of_forall (fun _ _ => trivial)
    · intro x hx y hy
      rw [h.depth_child hy]
      exact hle x hx
  · intro x hx y hy
    have hxr : depth r ≤ depth x := by
      rcases mem_append.mp hx with hx | hx
      · exact hf.depth_ge_of_queue hx
      · rw [h.depth_child hx]
        omega
    have hyr : depth y ≤ depth r + 1 := by
      rcases mem_append.mp hy with hy | hy
      · exact hle y (mem_append_right _ (mem_cons_of_mem _ hy))
      · rw [h.depth_child hy]
    omega

theorem lt_of_mem (hf : Frontier children depth done q) (hx : x ∈ done ++ q) : x < n := by
  rcases hf.origin x hx with rfl | ⟨r, -, hxr⟩
  · exact h.pos
  · exact h.lt hxr

theorem length_le (hf : Frontier children depth done q) : (done ++ q).length ≤ n := by
  have hsub : (done ++ q) ⊆ List.range n := fun x hx =>
    mem_range.mpr (hf.lt_of_mem h hx)
  simpa using (subperm_of_subset hf.nodup hsub).length_le

/-- Everything shallower than the front node has been visited. -/
theorem done_of_depth_lt (hf : Frontier children depth done (r :: q))
    (hx : x < n) (hlt : depth x < depth r) : x ∈ done := by
  induction hd : depth x using Nat.strong_induction_on generalizing x with
  | _ d ih =>
    by_cases h0 : x = 0
    · rw [h0]; exact hf.root_done
    · obtain ⟨p, hp, hxp⟩ := h.parent hx h0
      have hdx := h.depth_child hxp
      have hpd : p ∈ done := ih (depth p) (by omega) hp (by omega) rfl
      rcases mem_append.mp (hf.closed p hpd x hxp) with hm | hm
      · exact hm
      · exfalso
        rcases mem_cons.mp hm with rfl | hm
        · omega
        · have := hf.depth_ge_of_queue hm
          omega

theorem done_of_empty (hf : Frontier children depth done []) (hx : x < n) : x ∈ done := by
  induction hd : depth x using Nat.strong_induction_on generalizing x with
  | _ d ih =>
    by_cases h0 : x = 0
    · rw [h0]; exact hf.root_done
    · obtain ⟨p, hp, hxp⟩ := h.parent hx h0
      have hdx := h.depth_child hxp
      have hpd : p ∈ done := ih (depth p) (by omega) hp rfl
      simpa using hf.closed p hpd x hxp
end
end Frontier

/-- Induction over a breadth-first walk: an invariant of the walk's position
that every visit maintains holds when the queue is empty, and the fuel of one
visit per node is enough. -/
theorem bfs_rule {n : ℕ} {children : ℕ → List ℕ} {depth : ℕ → ℕ} (h : IsTree n children depth)
    (Inv : List ℕ → List ℕ → σ → Prop)
    (hstep : ∀ done r q st, Frontier children depth done (r :: q) → Inv done (r :: q) st →
      ∃ st', visit r st = some (children r, st') ∧ Inv (done ++ [r]) (q ++ children r) st') :
    ∀ fuel done queue st, Frontier children depth done queue → Inv done queue st →
      n ≤ fuel + done.length →
      ∃ done' st', bfs visit fuel queue st = some st' ∧
        Frontier children depth done' [] ∧ Inv done' [] st' := by
  intro fuel
  induction fuel with
  | zero =>
    intro done queue st hf hinv hfuel
    cases queue with
    | nil => exact ⟨done, st, rfl, hf, hinv⟩
    | cons r q =>
      have hlen := hf.length_le h
      rw [length_append, length_cons] at hlen
      omega
  | succ fuel ih =>
    intro done queue st hf hinv hfuel
    cases queue with
    | nil => exact ⟨done, st, rfl, hf, hinv⟩
    | cons r q =>
      obtain ⟨st', hvisit, hinv'⟩ := hstep done r q st hf hinv
      obtain ⟨done', st'', hbfs, hf', hinv''⟩ :=
        ih (done ++ [r]) (q ++ children r) st' (hf.step h) hinv' (by
          rw [length_append, length_singleton]
          omega)
      exact ⟨done', st'', by rw [bfs, hvisit]; exact hbfs, hf', hinv''⟩

/-- What every visit keeps, a finished walk keeps. -/
theorem bfs_invariant (Inv : σ → Prop)
    (hvisit : ∀ r st new st', visit r st = some (new, st') → Inv st → Inv st') :
    ∀ fuel queue st st', bfs visit fuel queue st = some st' → Inv st → Inv st' := by
  intro fuel
  induction fuel with
  | zero =>
    intro queue st st' hbfs hinv
    cases queue with
    | nil => exact Option.some.inj hbfs ▸ hinv
    | cons r q => cases hbfs
  | succ fuel ih =>
    intro queue st st' hbfs hinv
    cases queue with
    | nil => exact Option.some.inj hbfs ▸ hinv
    | cons r q =>
      rw [bfs] at hbfs
      cases hv : visit r st with
      | none => rw [hv] at hbfs; cases hbfs
      | some p =>
        rw [hv] at hbfs
        exact ih _ _ _ hbfs (hvisit r st p.1 p.2 hv hinv)
end Automata
