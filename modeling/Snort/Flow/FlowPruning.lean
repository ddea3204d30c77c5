import Snort.Flow.FlowCacheInv

/-!
# The pruning loops of the cache of flows

Each loop returns, keeps the table and the list of flows seen in one direction, and
frees the nodes of the flows it releases. The loops over the table go through its
nodes in a bounded number of turns; the walk through the list ends at a flow that
was not blocked, and where there is none it runs into the sentinel.
-/

namespace Snort.Flow
open Nat List Option DoublyLinked
open Chained (Node)
open Snort.Hash (ZHash ZTable)
open Snort.Hash.ZTable (cells mem_cells_of_used)
open FlowCache

namespace FlowCache.Inv
variable {κ : Type} [DecidableEq κ] {hash : κ → ℕ} {c : FlowCache κ} {t : ZTable κ ℕ}
  {unis : List ℕ} {n : Node κ ℕ} {a : ℕ}

/-! ## Loops over the table -/

variable {c₁ : FlowCache κ} {t₁ : ZTable κ ℕ} {pruned fuel blocks ignoreOffloads : ℕ}
  {result : Option (ℕ × FlowCache κ)} {u v : List ℕ} {f : CachedFlow} {l : List (Node κ ℕ)}
  {saveMe : Option ℕ}

/-- What a loop of the cache comes to: flows are released, and the rest is kept. -/
def Returns (hash : κ → ℕ) (c : FlowCache κ) (t : ZTable κ ℕ) (pruned : ℕ)
    (result : Option (ℕ × FlowCache κ)) : Prop :=
  ∃ k c' t' unis', result = some (pruned + k, c') ∧ Inv hash c' t' unis' ∧ Frame c c' ∧ Freed t t' k

variable (h : Inv hash c t unis)
omit [DecidableEq κ] in
theorem returns_same (h : Inv hash c t unis)
    (pruned : ℕ) : Returns hash c t pruned (some (pruned, c)) :=
  ⟨0, c, t, unis, rfl, h, .refl c, .refl t⟩

omit [DecidableEq κ] in
theorem Returns.after {k : ℕ} (h : Returns hash c₁ t₁ (pruned + k) result)
    (hframe : Frame c c₁) (hfreed : Freed t t₁ k) : Returns hash c t pruned result := by
  obtain ⟨k', c', t', unis', hresult, hinv, hframe', hfreed'⟩ := h
  exact ⟨k + k', c', t', unis', by rw [hresult, add_assoc], hinv, hframe.trans hframe',
    hfreed.trans hfreed'⟩

omit [DecidableEq κ] in
theorem Returns.afterSame (h : Returns hash c₁ t₁ pruned result)
    (hframe : Frame c c₁) (hfreed : Freed t t₁ 0) : Returns hash c t pruned result :=
  Returns.after h hframe hfreed

section
variable (h : Inv hash c t unis)
include h

/-- `prune_stale` goes on while the oldest flow is stale, and at most twice. -/
theorem pruneStaleLoop (thetime : ℕ) (saveMe : Option ℕ) (hpruned : pruned ≤ cleanupFlows + 1)
    (hfuel : cleanupFlows + 2 ≤ pruned + fuel) :
    Returns hash c t pruned (c.pruneStaleLoop hash thetime saveMe fuel pruned
      (t.used.getLast?.map Node.data)) := by
  induction fuel generalizing c t unis pruned with
  | zero => omega
  | succ fuel ih =>
    cases hflow : t.used.getLast?.map Node.data with
    | none => exact returns_same h pruned
    | some a =>
      obtain ⟨n, -, hn, rfl⟩ := mem_of_getLast? hflow
      obtain ⟨f, hf, -⟩ := h.flow_used hn
      unfold pruneStaleLoop
      rw [hf]
      simp only [bind_eq_bind, bind_some]
      split_ifs with hmany hsave hoff hfresh
      · exact returns_same h pruned
      · exact returns_same h pruned
      · exact returns_same h pruned
      · exact returns_same h pruned
      · obtain ⟨c₁, hc₁, h₁, hframe⟩ := h.markRelease hn ssnflagTimedout .idle
        obtain ⟨table, hfirst, h₂⟩ := h₁.first
        rw [hc₁, bind_some, hfirst, bind_some]
        have hle : pruned + 1 ≤ cleanupFlows + 1 := Nat.succ_le_succ (Nat.le_of_not_lt hmany)
        have hrest := ih h₂ hle (by omega)
        exact hrest.after ⟨hframe.config, hframe.uniHead, hframe.uniTail⟩
          (freed_release.trans freed_atOldest)

theorem pruneStale (thetime : ℕ) (saveMe : Option ℕ) :
    Returns hash c t 0 (c.pruneStale hash thetime saveMe) := by
  obtain ⟨table, hfirst, h₁⟩ := h.first
  unfold FlowCache.pruneStale
  rw [hfirst, bind_eq_bind, bind_some]
  have hloop := h₁.pruneStaleLoop thetime saveMe (zero_le _) (le_of_eq (zero_add _).symm)
  exact hloop.afterSame ⟨rfl, rfl, rfl⟩ freed_atOldest

theorem purgeLoop (hfuel : t.used.length < fuel) (retired : ℕ) :
    Returns hash c t retired (c.purgeLoop hash fuel retired) := by
  induction fuel generalizing c t unis retired with
  | zero => exact absurd hfuel (not_lt_zero _)
  | succ fuel ih =>
    obtain ⟨table, hfirst, h₁⟩ := h.first
    unfold purgeLoop
    rw [hfirst, bind_eq_bind, bind_some]
    cases hflow : t.used.getLast?.map Node.data with
    | none => exact (returns_same h₁ retired).afterSame ⟨rfl, rfl, rfl⟩ freed_atOldest
    | some a =>
      obtain ⟨n, -, hn, rfl⟩ := mem_of_getLast? hflow
      have hn₁ : n ∈ (atOldest t).used := hn
      obtain ⟨c₂, hc₂, h₂, hframe⟩ := h₁.release hn₁ .none
      have hlength := h₁.length_release hn₁
      simp only [bind_eq_bind, hc₂, bind_some]
      rw [show (atOldest t).used = t.used from rfl] at hlength
      have hrest := ih h₂ (by omega) (retired + 1)
      exact hrest.after ⟨hframe.config, hframe.uniHead, hframe.uniTail⟩
        (freed_atOldest.trans freed_release)

variable (standby : ℕ → Bool) (numFlows thetime : ℕ)

theorem timeoutLoop {l₁ l₂ : List (Node κ ℕ)} (ht : t.used = l₁ ++ l₂)
    (hcursor : t.cursor = lastOr none (l₁.map Node.cell)) (hfuel : l₁.length < fuel) (retired : ℕ) :
    Returns hash c t retired
      (c.timeoutLoop hash standby numFlows thetime fuel retired t.current) := by
  obtain ⟨fuel, rfl⟩ : ∃ m, fuel = m + 1 := ⟨fuel - 1, by omega⟩
  -- The induction is on the nodes not passed yet; the walk is at the last of them.
  induction l₁ using List.reverseRecOn generalizing c t unis l₂ fuel retired with
  | nil =>
    have hcurrent : t.current = none := by
      unfold ZTable.current
      rw [ZHash.Rep.at_none hcursor]
      rfl
    rw [hcurrent]
    exact returns_same h retired
  | append_singleton l₁ n ih =>
    have hsome : t.cursor = some n.addr := by
      rw [hcursor, map_append]
      exact lastOr_concat _ _ _
    rw [append_assoc, singleton_append] at ht
    rw [length_append, length_singleton] at hfuel
    obtain ⟨fuel, rfl⟩ : ∃ k, fuel = k + 1 := ⟨fuel - 1, by omega⟩
    have hn : n ∈ t.used := ht ▸ mem_append_right _ mem_cons_self
    have hcurrent : t.current = some n.data := by
      unfold ZTable.current ZTable.at?
      rw [hsome, bind_some, ZTable.find?_addr h.table.nodup hn]
      rfl
    have hnodup := h.table.nodup
    have hprev : ZTable.prevOf t.used n.addr = lastOr none (l₁.map Node.cell) := by
      rw [ht] at hnodup ⊢
      exact ZTable.prevOf_split hnodup
    obtain ⟨f, hf, -⟩ := h.flow_used hn
    rw [hcurrent]
    unfold timeoutLoop
    rw [hf]
    simp only [bind_eq_bind, bind_some]
    split_ifs with hmany hfresh hskip
    · exact returns_same h retired
    · obtain ⟨table, htable, hrep⟩ := h.table.next
      rw [htable, bind_some]
      have hnext : t.next.2.cursor = lastOr none (l₁.map Node.cell) := by
        unfold ZTable.next
        rw [hsome, bind_some, hprev]
      have h₁ : Inv hash { c with table } t.next.2 unis := h.withCursor hrep
      exact (ih h₁ ht hnext retired fuel (by omega)).afterSame ⟨rfl, rfl, rfl⟩ ⟨fun _ hm => hm, rfl⟩
    · obtain ⟨c₁, hc₁, h₁, hframe⟩ := h.markRelease hn ssnflagTimedout .idle
      rw [hc₁, bind_some, h₁.table.current, bind_some]
      have hused : (t.release n).used = l₁ ++ l₂ := by
        rw [ht] at hnodup
        unfold ZTable.release
        rw [ht, ZTable.without_split hnodup]
      have hpast : (t.release n).cursor = lastOr none (l₁.map Node.cell) := by
        unfold ZTable.release ZTable.cursorPast
        rw [if_pos hsome, hprev]
      exact (ih h₁ hused hpast (retired + 1) fuel (by omega)).after hframe freed_release
    · exact returns_same h retired

theorem timeout : Returns hash c t 0 (c.timeout hash standby numFlows thetime) := by
  unfold FlowCache.timeout timeoutStart
  rw [h.table.current]
  simp only [bind_eq_bind, bind_some]
  cases hcursor : t.cursor with
  | none =>
    have hcurrent : t.current = none := by
      unfold ZTable.current
      rw [ZHash.Rep.at_none hcursor]
      rfl
    obtain ⟨table, hfirst, h₁⟩ := h.first
    rw [hcurrent]
    rw [hfirst, ← ZTable.first_fst h.table.nodup]
    have hfuel : t.used.length < table.count + 1 := by
      rw [h₁.table.count]
      exact lt_succ_self _
    have hloop := h₁.timeoutLoop standby numFlows thetime (append_nil t.used).symm rfl hfuel 0
    exact hloop.afterSame ⟨rfl, rfl, rfl⟩ freed_atOldest
  | some a =>
    obtain ⟨l₁, n, l₂, ht, rfl, hat⟩ := h.table.at_cursor hcursor
    have hcurrent : t.current = some n.data := by
      unfold ZTable.current
      rw [hat]
      rfl
    rw [hcurrent]
    simp only [bind_some]
    rw [← hcurrent]
    have hsplit : t.used = (l₁ ++ [n]) ++ l₂ := by rw [ht, append_assoc, singleton_append]
    refine h.timeoutLoop standby numFlows thetime hsplit ?_ ?_ 0
    · rw [hcursor, map_append, map_singleton, lastOr_concat]
      rfl
    · rw [h.table.count, hsplit]
      exact lt_succ_of_le (sublist_append_left _ _).length_le

theorem pruneOne (reason : PruneReason) :
    ∃ b c' t' unis', c.pruneOne hash reason = some (b, c') ∧ Inv hash c' t' unis' ∧ Frame c c' := by
  unfold FlowCache.pruneOne
  split_ifs with hcount
  · exact ⟨false, c, t, unis, rfl, h, .refl c⟩
  · obtain ⟨table, hfirst, h₁⟩ := h.first
    rw [hfirst, bind_eq_bind, bind_some]
    rcases eq_nil_or_concat t.used with hnil | ⟨l, n, hl⟩
    · rw [h.table.count, hnil] at hcount
      exact absurd (zero_le 1) hcount
    · rw [concat_eq_append] at hl
      have hn : n ∈ (atOldest t).used := by
        rw [show (atOldest t).used = t.used from rfl, hl]
        exact mem_append_right _ mem_cons_self
      obtain ⟨c₂, hc₂, h₂, hframe⟩ := h₁.markRelease hn ssnflagPruned reason
      refine ⟨true, c₂, _, _, ?_, h₂, ⟨hframe.config, hframe.uniHead, hframe.uniTail⟩⟩
      rw [hl, getLast?_concat, map_some]
      simp only [bind_eq_bind, bind_some, hc₂]
end

/-! ## The list of flows seen in one direction -/

omit [DecidableEq κ] in
theorem uni_cell (h : Inv hash c t unis) (hu : unis = u ++ a :: v) :
    ∃ next, c.links a = some ⟨lastOr (some c.uniHead) (u.map (·, ())), next, ()⟩ := by
  have hlist := h.list
  rw [hu, map_append, map_cons] at hlist
  have hseg : Seg c.links none (((c.uniHead, ()) :: u.map (·, ())) ++
      (a, ()) :: (v.map (·, ()) ++ [(c.uniTail, ())])) none := by
    have hseg := hlist.seg
    rw [append_assoc] at hseg
    exact hseg
  exact ⟨_, hseg.cell⟩

omit [DecidableEq κ] in
theorem uni_node (h : Inv hash c t unis) (ha : a ∈ unis) : ∃ n ∈ t.used, n.data = a :=
  mem_map.mp (h.mem a ha)

/-- The first sentinel cannot be released: it has no flow before it. -/
theorem release_head (h : Inv hash c t unis)
    (reason : PruneReason) : c.release hash c.uniHead reason = none := by
  obtain ⟨f, hf, -⟩ := h.head_flow
  obtain ⟨b, hb, hmem⟩ := firstOr_concat_some none (unis.map fun a => (a, ())) (c.uniTail, ())
  have hhead : c.links c.uniHead = some ⟨none, some b, ()⟩ := by
    rw [← hb]
    exact h.list.head_cell
  have hne : c.uniHead ≠ b := fun heq => (nodup_cons.mp h.list.nodup).1 (heq ▸ hmem)
  obtain ⟨d, hd⟩ := isSome_iff_exists.mp (h.list.seg.2.isSome hmem)
  have hunlink : c.links.unlinkSelf c.uniHead = none := by
    unfold Heap.unlinkSelf
    simp only [Heap.read_some, hhead, bind_eq_bind, bind_some]
    rw [Heap.write_some hd, bind_some, Heap.modify_of_ne _ hne, hhead]
    rfl
  unfold FlowCache.release FlowCache.remove FlowCache.unlinkUni FlowCache.setFlow
  simp only [hf, Heap.read_some, hhead, hunlink, bind_eq_bind, bind_some,
    bind_none, reduceCtorEq, if_false]

/-- The flow at an address was blocked. -/
def blocked (c : FlowCache κ) (a : ℕ) : Bool := (c.flows a).any CachedFlow.wasBlocked

def offloaded (c : FlowCache κ) (a : ℕ) : Bool := (c.flows a).any CachedFlow.isOffloaded

omit [DecidableEq κ] in
theorem blocked_eq (hf : c.flows a = some f) : blocked c a = f.wasBlocked := by
  unfold blocked
  rw [hf]
  rfl

omit [DecidableEq κ] in
theorem offloaded_eq (hf : c.flows a = some f) : offloaded c a = f.isOffloaded := by
  unfold offloaded
  rw [hf]
  rfl

/-- The walk of `prune_unis` finds a flow that was not blocked, -/
theorem pruneUnisLoop_some (h : Inv hash c t unis) (hmany : c.maxUni < c.uniCount)
    (hu : unis = u ++ v) (hfree : ∃ a ∈ u, blocked c a = false)
    (hfuel : u.length + 1 < fuel) :
    ∃ c' t' unis', c.pruneUnisLoop hash fuel 0 (lastOr (some c.uniHead) (u.map (·, ()))) =
        some (1, c') ∧ Inv hash c' t' unis' ∧ Frame c c' ∧ Freed t t' 1 := by
  induction u using List.reverseRecOn generalizing v fuel with
  | nil =>
    obtain ⟨a, ha, -⟩ := hfree
    exact absurd ha not_mem_nil
  | append_singleton u a ih =>
    rw [append_assoc, singleton_append] at hu
    rw [length_append, length_singleton] at hfuel
    obtain ⟨fuel, rfl⟩ : ∃ m, fuel = m + 2 := ⟨fuel - 2, by omega⟩
    have ha : a ∈ unis := hu ▸ mem_append_right _ mem_cons_self
    obtain ⟨n, hn, rfl⟩ := h.uni_node ha
    obtain ⟨f, hf, -⟩ := h.flow_used hn
    obtain ⟨next, hcell⟩ := h.uni_cell hu
    rw [map_append, map_singleton, lastOr_concat]
    unfold pruneUnisLoop
    rw [if_pos ⟨hmany, one_pos⟩, Heap.read_some, hcell]
    simp only [bind_eq_bind, bind_some, hf]
    cases hblocked : f.wasBlocked with
    | true =>
      refine ih hu ?_ (by omega)
      obtain ⟨b, hb, hfb⟩ := hfree
      rcases mem_append.mp hb with hb | hb
      · exact ⟨b, hb, hfb⟩
      · rw [mem_singleton.mp hb, blocked_eq hf, hblocked] at hfb
        cases hfb
    | false =>
      obtain ⟨c', hc', hinv, hframe⟩ := h.release hn .uni
      rw [if_neg Bool.false_ne_true, hc', bind_some]
      refine ⟨c', _, _, ?_, hinv, hframe, freed_release⟩
      unfold pruneUnisLoop
      cases lastOr (some c.uniHead) (u.map fun a => (a, ())) with
      | none => rfl
      | some b =>
        dsimp only
        rw [if_neg fun hcond => absurd hcond.2 (lt_irrefl 1)]

/-- or it ends at the sentinel. -/
theorem pruneUnisLoop_none (h : Inv hash c t unis) (hmany : c.maxUni < c.uniCount)
    (hu : unis = u ++ v) (hall : ∀ a ∈ u, blocked c a = true) :
    c.pruneUnisLoop hash fuel 0 (lastOr (some c.uniHead) (u.map (·, ()))) = none := by
  induction u using List.reverseRecOn generalizing v fuel with
  | nil =>
    obtain ⟨f, hf, hblocked⟩ := h.head_flow
    cases fuel with
    | zero => rfl
    | succ fuel =>
      unfold pruneUnisLoop
      simp only [map_nil, lastOr]
      rw [if_pos ⟨hmany, one_pos⟩, Heap.read_some, h.list.head_cell]
      simp only [bind_eq_bind, bind_some, hf, hblocked, Bool.false_eq_true, if_false]
      rw [h.release_head, bind_none]
  | append_singleton u a ih =>
    cases fuel with
    | zero => rfl
    | succ fuel =>
      rw [append_assoc, singleton_append] at hu
      have ha : a ∈ unis := hu ▸ mem_append_right _ mem_cons_self
      obtain ⟨n, hn, rfl⟩ := h.uni_node ha
      obtain ⟨f, hf, -⟩ := h.flow_used hn
      obtain ⟨next, hcell⟩ := h.uni_cell hu
      have hblocked := hall n.data (mem_append_right _ mem_cons_self)
      rw [blocked_eq hf] at hblocked
      rw [map_append, map_singleton, lastOr_concat]
      unfold pruneUnisLoop
      rw [if_pos ⟨hmany, one_pos⟩, Heap.read_some, hcell]
      simp only [bind_eq_bind, bind_some, hf, hblocked, if_true]
      exact ih hu fun b hb => hall b (mem_append_left _ hb)

omit [DecidableEq κ] in
theorem uniTail_read (h : Inv hash c t unis) :
    c.links.read (some c.uniTail) =
      some ⟨lastOr (some c.uniHead) (unis.map (·, ())), none, ()⟩ := by
  exact h.list.tail_cell

theorem pruneUnis_few (h : Inv hash c t unis)
    (hfew : c.uniCount ≤ c.maxUni) : c.pruneUnis hash = some (0, c) := by
  unfold pruneUnis
  rw [h.uniTail_read, bind_eq_bind, bind_some]
  unfold pruneUnisLoop
  cases lastOr (some c.uniHead) (unis.map fun a => (a, ())) with
  | none => rfl
  | some b =>
    dsimp only
    rw [if_neg fun hcond => absurd hcond.1 (Nat.not_lt_of_le hfew)]

theorem pruneUnis_some (h : Inv hash c t unis) (hmany : c.maxUni < c.uniCount)
    (hfree : ∃ a ∈ unis, blocked c a = false) :
    ∃ c' t' unis', c.pruneUnis hash = some (1, c') ∧ Inv hash c' t' unis' ∧ Frame c c' ∧
      Freed t t' 1 := by
  unfold pruneUnis
  rw [h.uniTail_read, bind_eq_bind, bind_some]
  refine h.pruneUnisLoop_some hmany (append_nil _).symm hfree ?_
  rw [h.count]
  omega

theorem pruneUnis_none (h : Inv hash c t unis) (hmany : c.maxUni < c.uniCount)
    (hall : ∀ a ∈ unis, blocked c a = true) : c.pruneUnis hash = none := by
  unfold pruneUnis
  rw [h.uniTail_read, bind_eq_bind, bind_some]
  exact h.pruneUnisLoop_none hmany (append_nil _).symm hall

/-! ## Pruning any flow -/

/-- The table with its oldest node moved to the front. -/
def rotated (t : ZTable κ ℕ) : ZTable κ ℕ := (atOldest t).touch.2

omit [DecidableEq κ] in
theorem at_oldest (h : Inv hash c t unis) (hl : t.used = l ++ [n]) : (atOldest t).at? = some n := by
  have hn : n ∈ t.used := hl ▸ mem_append_right _ mem_cons_self
  have hcursor : (atOldest t).cursor = some n.addr := by
    show lastOr none (t.used.map Node.cell) = _
    rw [hl, map_append]
    exact lastOr_concat _ _ _
  unfold ZTable.at?
  rw [hcursor, bind_some]
  exact ZTable.find?_addr h.table.nodup hn

omit [DecidableEq κ] in
/-- Touching the oldest of two or more nodes moves it to the front. -/
theorem rotated_used (h : Inv hash c t unis) (hl : t.used = l ++ [n]) (hne : l ≠ []) :
    (atOldest t).touch.1 = true ∧ (rotated t).used = n :: l ∧ (rotated t).free = t.free := by
  have hat := h.at_oldest hl
  have hnodup := h.table.nodup
  have hhead : ¬(atOldest t).used.head?.map Node.addr = some n.addr := by
    obtain ⟨m, l', rfl⟩ := exists_cons_of_ne_nil hne
    rw [show (atOldest t).used = t.used from rfl, hl]
    rw [hl] at hnodup
    exact fun heq => ZTable.addr_ne_of_nodup hnodup (mem_append_left _ mem_cons_self) (some.inj heq)
  have hwithout : ZTable.without t.used n.addr = l := by
    rw [hl] at hnodup ⊢
    rw [ZTable.without_split hnodup, append_nil]
  unfold rotated ZTable.touch
  rw [hat]
  dsimp only
  rw [if_neg hhead]
  exact ⟨rfl, congrArg (n :: ·) hwithout, rfl⟩

omit [DecidableEq κ] in
theorem touchOldest (h : Inv hash c t unis) (hl : t.used = l ++ [n]) (hne : l ≠ [])
    {table : ZHash κ ℕ} (h₁ : Inv hash { c with table } (atOldest t) unis) :
    ∃ table', table.touch = some (true, table') ∧
      Inv hash { c with table := table' } (rotated t) unis := by
  obtain ⟨htrue, hused, hfree⟩ := h.rotated_used hl hne
  obtain ⟨table', htouch, hrep⟩ := h₁.table.touch
  rw [htrue] at htouch
  have hperm : (rotated t).used.Perm t.used := by
    rw [hused, hl]
    exact (perm_append_singleton n l).symm
  refine ⟨table', htouch, h₁.withTable hrep ?_ fun a ha => ?_⟩
  · show ((rotated t).used.map Node.cell ++ (rotated t).free).Perm _
    rw [hfree]
    exact (hperm.map _).append_right _
  · exact (hperm.map Node.data).mem_iff.mpr (h.mem a ha)

omit [DecidableEq κ] in
theorem freed_rotated (h : Inv hash c t unis) (hl : t.used = l ++ [n]) (hne : l ≠ []) :
    Freed t (rotated t) 0 := by
  obtain ⟨-, hused, hfree⟩ := h.rotated_used hl hne
  refine ⟨fun m hm => ?_, by rw [hfree]; rfl⟩
  rw [hused] at hm
  rw [hl]
  exact (perm_append_singleton n l).mem_iff.mpr hm

/-- Whether the oldest flow is the one to be saved. -/
def atSaved (t : ZTable κ ℕ) (saveMe : Option ℕ) : ℕ :=
  if t.used.getLast?.map Node.data = saveMe then 1 else 0

omit [DecidableEq κ] in
theorem atSaved_le (t : ZTable κ ℕ) (saveMe : Option ℕ) : atSaved t saveMe ≤ 1 := by
  unfold atSaved
  split_ifs
  · exact le_refl _
  · exact zero_le _

omit [DecidableEq κ] in
/-- The flow to be saved is not met twice in a row. -/
theorem atSaved_rotated (h : Inv hash c t unis) (hl : t.used = l ++ [n]) (hne : l ≠ []) :
    atSaved (rotated t) (some n.data) = 0 := by
  obtain ⟨-, hused, -⟩ := h.rotated_used hl hne
  rcases eq_nil_or_concat l with hnil | ⟨l', m, hl'⟩
  · exact absurd hnil hne
  · rw [concat_eq_append] at hl'
    have hlast : (rotated t).used.getLast?.map Node.data = some m.data := by
      rw [hused, hl', ← cons_append, getLast?_concat]
      rfl
    unfold atSaved
    rw [hlast, if_neg]
    intro heq
    have hm : m ∈ t.used := by
      rw [hl, hl']
      exact mem_append_left _ (mem_append_right _ mem_cons_self)
    have hn : n ∈ t.used := hl ▸ mem_append_right _ mem_cons_self
    have hmn : m = n := h.eq_of_data hm hn (some.inj heq)
    have hnodup := h.table.nodup
    rw [hl] at hnodup
    refine ZTable.addr_ne_of_nodup hnodup (m := m) ?_ (congrArg Node.addr hmn)
    rw [hl']
    exact mem_append_left _ (mem_append_right _ mem_cons_self)

/-- A bound on the number of turns of `prune_excess`. -/
def turns (t : ZTable κ ℕ) (saveMe : Option ℕ) (blocks ignoreOffloads : ℕ) : ℕ :=
  2 * ignoreOffloads + 2 * (t.used.length + (t.used.length - blocks)) + atSaved t saveMe

omit [DecidableEq κ] in
theorem two_le_of_maxCap (hcap : c.maxCap < t.used.length) : 2 ≤ t.used.length := by
  have htwo := c.config.two_le
  unfold maxCap cleanupFlows at hcap
  omega

omit [DecidableEq κ] in
theorem exists_oldest (hcap : c.maxCap < t.used.length) : ∃ l n, t.used = l ++ [n] := by
  rcases eq_nil_or_concat t.used with hnil | ⟨l, n, hl⟩
  · rw [hnil] at hcap
    exact absurd hcap (not_lt_zero _)
  · exact ⟨l, n, by rw [hl, concat_eq_append]⟩

omit [DecidableEq κ] in
theorem ne_nil_of_maxCap (hcap : c.maxCap < t.used.length)
    (hl : t.used = l ++ [n]) : l ≠ [] := fun hnil => by
  have htwo := two_le_of_maxCap hcap
  rw [hl, hnil] at htwo
  exact absurd htwo (not_succ_le_self 1)

section
variable (h : Inv hash c t unis) (hl : t.used = l ++ [n]) (hcap : c.maxCap < t.used.length)
  (hblocks : blocks < t.used.length) (hf : c.flows n.data = some f)
include h hl hcap hblocks hf

/-- A turn of `prune_excess` passes over the oldest flow, -/
theorem excess_skip
    (hskip : saveMe = some n.data ∨ f.wasBlocked ∨ (f.isOffloaded ∧ ignoreOffloads ≠ 0))
    (fuel pruned : ℕ) :
    ∃ table, c.pruneExcessLoop hash saveMe (fuel + 1) pruned blocks ignoreOffloads =
        pruneExcessLoop hash saveMe fuel pruned
          (if f.wasBlocked then blocks + 1 else blocks) (ignoreOffloads - 1) { c with table } ∧
      Inv hash { c with table } (rotated t) unis := by
  have hne : l ≠ [] := ne_nil_of_maxCap hcap hl
  obtain ⟨table, hfirst, h₁⟩ := h.first
  obtain ⟨table', htouch, h₂⟩ := h.touchOldest hl hne h₁
  refine ⟨table', ?_, h₂⟩
  rw [pruneExcessLoop, h.table.count, if_pos ⟨hcap, hblocks⟩, hfirst, hl, getLast?_concat]
  simp only [map_some, bind_eq_bind, bind_some, hf]
  rw [if_pos hskip, htouch, bind_some, if_pos rfl]

/-- or it prunes it. -/
theorem excess_prune
    (hskip : ¬(saveMe = some n.data ∨ f.wasBlocked ∨ (f.isOffloaded ∧ ignoreOffloads ≠ 0)))
    (fuel pruned : ℕ) :
    ∃ c', c.pruneExcessLoop hash saveMe (fuel + 1) pruned blocks ignoreOffloads =
        c'.pruneExcessLoop hash saveMe fuel (pruned + 1) blocks (ignoreOffloads - 1) ∧
      Inv hash c' ((atOldest t).release n) (unis.erase n.data) ∧ Frame c c' := by
  have hn : n ∈ (atOldest t).used := by
    rw [show (atOldest t).used = t.used from rfl, hl]
    exact mem_append_right _ mem_cons_self
  obtain ⟨table, hfirst, h₁⟩ := h.first
  obtain ⟨c', hc', h₂, hframe⟩ := h₁.markRelease hn ssnflagPruned .excess
  refine ⟨c', ?_, h₂, ⟨hframe.config, hframe.uniHead, hframe.uniTail⟩⟩
  rw [pruneExcessLoop, h.table.count, if_pos ⟨hcap, hblocks⟩, hfirst, hl, getLast?_concat]
  simp only [map_some, bind_eq_bind, bind_some, hf]
  rw [if_neg hskip, hc', bind_some]
end

section
include h

/-- The loop ends when few flows are left, or when as many blocked flows were met. -/
theorem excess_stop
    (hstop : ¬(c.maxCap < t.used.length ∧ blocks < t.used.length)) (fuel pruned : ℕ) :
    c.pruneExcessLoop hash saveMe (fuel + 1) pruned blocks ignoreOffloads = some (pruned, c) := by
  rw [pruneExcessLoop, h.table.count, if_neg hstop]

theorem pruneExcessLoop (saveMe : Option ℕ) (hfuel : turns t saveMe blocks ignoreOffloads < fuel)
    (pruned : ℕ) :
    Returns hash c t pruned (c.pruneExcessLoop hash saveMe fuel pruned blocks ignoreOffloads) := by
  induction fuel generalizing c t unis pruned blocks ignoreOffloads with
  | zero => exact absurd hfuel (not_lt_zero _)
  | succ fuel ih =>
    by_cases hcond : c.maxCap < t.used.length ∧ blocks < t.used.length
    · obtain ⟨hcap, hblocks⟩ := hcond
      obtain ⟨l, n, hl⟩ := exists_oldest hcap
      have hne : l ≠ [] := ne_nil_of_maxCap hcap hl
      have hn : n ∈ t.used := hl ▸ mem_append_right _ mem_cons_self
      obtain ⟨f, hf, -⟩ := h.flow_used hn
      by_cases hskip : saveMe = some n.data ∨ f.wasBlocked ∨ (f.isOffloaded ∧ ignoreOffloads ≠ 0)
      · obtain ⟨table, hstep, h₁⟩ := h.excess_skip hl hcap hblocks hf hskip fuel pruned
        rw [hstep]
        refine (ih h₁ ?_ pruned).afterSame ⟨rfl, rfl, rfl⟩ (h.freed_rotated hl hne)
        -- A blocked flow is counted, an offloaded one uses up a turn, and the saved one comes once.
        have hlength : (rotated t).used.length = t.used.length := by
          rw [(h.rotated_used hl hne).2.1, hl, length_append, length_cons]
          rfl
        have hle := atSaved_le (rotated t) saveMe
        unfold turns at hfuel ⊢
        rw [hlength]
        split_ifs with hblocked
        · omega
        · rcases hskip with hsave | hb | ⟨-, hignore⟩
          · have hone : atSaved t saveMe = 1 := by
              unfold atSaved
              rw [hsave, hl, getLast?_concat]
              exact if_pos rfl
            have hzero := h.atSaved_rotated hl hne
            rw [← hsave] at hzero
            omega
          · exact absurd hb hblocked
          · omega
      · obtain ⟨c₁, hstep, h₁, hframe⟩ := h.excess_prune hl hcap hblocks hf hskip fuel pruned
        have hless : ((atOldest t).release n).used.length + 1 = t.used.length :=
          (ZTable.without_perm h.table.nodup hn).length_eq
        have hle := atSaved_le ((atOldest t).release n) saveMe
        have hturns : turns ((atOldest t).release n) saveMe blocks (ignoreOffloads - 1) < fuel := by
          unfold turns at hfuel ⊢
          omega
        rw [hstep]
        exact (ih h₁ hturns (pruned + 1)).after hframe (freed_atOldest.trans freed_release)
    · rw [h.excess_stop hcond]
      exact returns_same h pruned

theorem pruneExcess (saveMe : Option ℕ) : Returns hash c t 0 (c.pruneExcess hash saveMe) := by
  refine h.pruneExcessLoop saveMe ?_ 0
  have hle := atSaved_le t saveMe
  unfold turns
  rw [h.table.count]
  omega
end
end FlowCache.Inv
end Snort.Flow
