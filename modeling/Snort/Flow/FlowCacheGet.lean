import Snort.Flow.FlowPruning

/-!
# When the cache has a flow to give

`FlowCache::get` looks for the key, then for a free node, and then prunes. It gives
a flow exactly if there is something to find or to prune for it, where the loop of
`prune_excess` counts a blocked flow each time it meets it: in its second round, the
first without regard for offloads, it can give up before it comes to a flow that it
could prune.
-/

namespace Snort.Flow
open List Option DoublyLinked
open Chained (Node)
open Snort.Hash (ZHash ZTable)
open Snort.Hash.ZTable (cells mem_cells_of_used)
open FlowCache

namespace FlowCache
variable {κ : Type} [DecidableEq κ] {hash : κ → ℕ} {c : FlowCache κ} {t : ZTable κ ℕ}
  {unis : List ℕ} {n : Node κ ℕ} {key : κ}

/-! ## Looking for a flow -/

namespace Inv
variable {table : ZHash κ ℕ} {x : ℕ × ℕ} (h : Inv hash c t unis)
omit [DecidableEq κ] in
theorem toFront (h : Inv hash c t unis) (hn : n ∈ t.used)
    (hrep : table.Rep hash (t.toFront n)) : Inv hash { c with table } (t.toFront n) unis := by
  have hperm : (t.toFront n).used.Perm t.used := by
    rw [ZTable.toFront_used h.table.nodup hn]
    exact ZTable.without_perm h.table.nodup hn
  exact h.withTable hrep (ZTable.cells_toFront h.table.nodup hn) fun a ha =>
    (hperm.map Node.data).mem_iff.mpr (h.mem a ha)

section
include h

theorem find (key : κ) (now : ℕ) :
    ∃ r c' t', c.find hash key now = some (r, c') ∧ Inv hash c' t' unis ∧ Frame c c' := by
  obtain ⟨table, htable, hrep⟩ := h.table.find key
  unfold FlowCache.find
  unfold ZTable.find at htable hrep
  cases hkey : t.lookup key with
  | none =>
    rw [hkey] at htable hrep
    rw [htable]
    exact ⟨none, { c with table }, t, rfl, h.withTable hrep (.refl _) h.mem, ⟨rfl, rfl, rfl⟩⟩
  | some n =>
    rw [hkey] at htable hrep
    have hn := (ZHash.mem_of_lookup hkey).1
    have h₁ := h.toFront hn hrep
    obtain ⟨f, hf, -⟩ := h.flow_used hn
    rw [htable]
    simp only [bind_eq_bind, bind_some, hf]
    split_ifs with hlt
    · exact ⟨_, _, _, rfl, h₁.setFlow (data_mem (ZHash.mem_toFront hn)) hf rfl, ⟨rfl, rfl, rfl⟩⟩
    · exact ⟨_, _, _, rfl, h₁, ⟨rfl, rfl, rfl⟩⟩

omit [DecidableEq κ] in
theorem free_notMem (hx : x ∈ t.free) : x.2 ∉ unis := fun hmem => by
  obtain ⟨n, hn, hdata⟩ := h.uni_node hmem
  have hnodup := h.nodup
  unfold cells at hnodup
  rw [map_append] at hnodup
  exact (nodup_append.mp hnodup).2.2 n.data
    (mem_map_of_mem (mem_map_of_mem hn)) x.2 (mem_map_of_mem hx) hdata

omit [DecidableEq κ] in
theorem useFree {free : List (ℕ × ℕ)} (hfree : t.free = x :: free)
    (hrep : table.Rep hash { t with used := ⟨x.1, key, x.2⟩ :: t.used, free }) :
    Inv hash { c with table } { t with used := ⟨x.1, key, x.2⟩ :: t.used, free } unis :=
  h.withTable hrep (ZTable.cells_use hfree key) fun a ha => mem_cons_of_mem _ (h.mem a ha)

omit [DecidableEq κ] in
theorem linkUni (hn : n ∈ t.used) (hout : n.data ∉ unis) :
    ∃ links, c.linkUni n.data = some { c with links, uniCount := c.uniCount + 1 } ∧
      Inv hash { c with links, uniCount := c.uniCount + 1 } t (n.data :: unis) := by
  have hcell := h.off n.cell (mem_cells_of_used hn) hout
  have hsentinel := h.sentinel n.cell (mem_cells_of_used hn)
  have hids : ids ((c.uniHead, ()) :: (unis.map (·, ()) ++ [(c.uniTail, ())])) =
      c.uniHead :: (unis ++ [c.uniTail]) := by
    rw [ids_cons, ids_append, ids_map_unit]
    rfl
  have hfence : n.data ∉ c.uniHead :: (unis ++ [c.uniTail]) := fun hin => by
    rcases mem_cons.mp hin with heq | hin
    · exact hsentinel.1 heq
    · rcases mem_append.mp hin with hin | hin
      · exact hout hin
      · exact hsentinel.2 (mem_singleton.mp hin)
  obtain ⟨links, hlinks, hlist, hoff⟩ := h.list.linkAfter hcell (by rwa [hids])
  refine ⟨links, ?_, ?_⟩
  · unfold FlowCache.linkUni
    rw [show c.links.linkAfter c.uniHead n.data = some links from hlinks]
    rfl
  · exact { h with
      list := hlist
      off := fun y hy hnot => by
        have hyn : y.2 ≠ n.data := ne_of_not_mem_cons hnot
        have hyu : y.2 ∉ unis := not_mem_of_not_mem_cons hnot
        rw [← h.off y hy hyu]
        refine hoff y.2 fun hin => ?_
        rw [hids] at hin
        rcases mem_cons.mp hin with heq | hin
        · exact hyn heq
        · rcases mem_cons.mp hin with heq | hin
          · exact (h.sentinel y hy).1 heq
          · rcases mem_append.mp hin with hin | hin
            · exact hyu hin
            · exact (h.sentinel y hy).2 (mem_singleton.mp hin)
      mem := fun a ha => by
        rcases mem_cons.mp ha with rfl | ha
        · exact mem_map_of_mem hn
        · exact h.mem a ha
      count := congrArg (· + 1) h.count }
end

/-! ## The second half of `get` -/

theorem getAgain_nil (h : Inv hash c t unis)
    (hkey : t.lookup key = none) (hfree : t.free = []) (now : ℕ) :
    ∃ c', c.getAgain hash key now = some (none, c') ∧ Inv hash c' t unis ∧ Frame c c' := by
  obtain ⟨table, htable, hrep⟩ := h.table.get key
  unfold ZTable.get at htable hrep
  rw [hkey, hfree] at htable hrep
  refine ⟨{ c with table }, ?_, h.withTable hrep (.refl _) h.mem, ⟨rfl, rfl, rfl⟩⟩
  unfold getAgain
  rw [htable]
  rfl

theorem getAgain_cons (h : Inv hash c t unis)
    (hkey : t.lookup key = none) (hfree : t.free ≠ []) (now : ℕ) :
    ∃ a c' t' unis', c.getAgain hash key now = some (some a, c') ∧ Inv hash c' t' unis' ∧
      Frame c c' := by
  obtain ⟨x, free, hcons⟩ := exists_cons_of_ne_nil hfree
  obtain ⟨table, htable, hrep⟩ := h.table.get key
  unfold ZTable.get at htable hrep
  rw [hkey, hcons] at htable hrep
  have h₁ := h.useFree hcons hrep
  have hn : (⟨x.1, key, x.2⟩ : Node κ ℕ) ∈ (⟨x.1, key, x.2⟩ : Node κ ℕ) :: t.used := mem_cons_self
  obtain ⟨f, hf, -⟩ := h₁.flow_used hn
  have h₂ : Inv hash (FlowCache.setFlow { c with table } x.2 f.reset) _ unis :=
    h₁.setFlow (data_mem hn) hf rfl
  have hout : x.2 ∉ unis := h.free_notMem (hcons ▸ mem_cons_self)
  obtain ⟨links, hlink, h₃⟩ := h₂.linkUni hn hout
  obtain ⟨f', hf', -⟩ := h₃.flow_used hn
  have h₄ : Inv hash (FlowCache.setFlow _ x.2 { f' with lastDataSeen := now }) _ _ :=
    h₃.setFlow (data_mem hn) hf' rfl
  refine ⟨x.2, _, _, _, ?_, h₄, ⟨rfl, rfl, rfl⟩⟩
  unfold getAgain
  rw [htable]
  simp only [bind_eq_bind, bind_some]
  rw [show c.flows x.2 = some f from hf, bind_some, hlink, bind_some]
  rw [show flows _ x.2 = some f' from hf', bind_some]
end Inv

/-! ## Stale flows -/

/-- The flow was not used for a while, and no packet of it is out. -/
def staleAt (c : FlowCache κ) (thetime a : ℕ) : Bool :=
  (c.flows a).any fun f =>
    !f.isOffloaded && decide (f.lastDataSeen + c.config.pruningTimeout < thetime)

def oldestStale (c : FlowCache κ) (t : ZTable κ ℕ) (thetime : ℕ) : Bool :=
  t.used.getLast?.any fun n => c.staleAt thetime n.data

namespace Inv
variable {thetime : ℕ}

theorem pruneStale_fresh (h : Inv hash c t unis) (hfresh : c.oldestStale t thetime = false) :
    ∃ table, c.pruneStale hash thetime none = some (0, { c with table }) ∧
      Inv hash { c with table } (atOldest t) unis := by
  obtain ⟨table, hfirst, h₁⟩ := h.first
  refine ⟨table, ?_, h₁⟩
  unfold FlowCache.pruneStale
  rw [hfirst, bind_eq_bind, bind_some]
  cases hlast : t.used.getLast? with
  | none => rfl
  | some n =>
    obtain ⟨f, hf, -⟩ := h.flow_used (List.mem_of_getLast? hlast)
    unfold oldestStale staleAt at hfresh
    rw [hlast, any_some, hf, any_some] at hfresh
    simp only [map_some]
    rw [FlowCache.pruneStaleLoop, if_neg (Nat.not_lt_zero _), if_neg (some_ne_none _), hf]
    simp only [bind_eq_bind, bind_some]
    split_ifs with hoff hseen
    · rfl
    · rfl
    · rw [Bool.eq_false_iff.mpr hoff, decide_eq_true (Nat.lt_of_not_le hseen)] at hfresh
      cases hfresh

theorem pruneStale_stale (h : Inv hash c t unis) (hstale : c.oldestStale t thetime = true) :
    ∃ k c' t' unis', c.pruneStale hash thetime none = some (k + 1, c') ∧ Inv hash c' t' unis' ∧
      Frame c c' ∧ Freed t t' (k + 1) := by
  obtain ⟨table, hfirst, h₁⟩ := h.first
  cases hlast : t.used.getLast? with
  | none =>
    unfold oldestStale at hstale
    rw [hlast] at hstale
    cases hstale
  | some n =>
    have hn : n ∈ t.used := List.mem_of_getLast? hlast
    obtain ⟨f, hf, -⟩ := h.flow_used hn
    unfold oldestStale staleAt at hstale
    rw [hlast, any_some, hf, any_some, Bool.and_eq_true, Bool.not_eq_true',
      decide_eq_true_iff] at hstale
    obtain ⟨hoff, hseen⟩ := hstale
    have hn₁ : n ∈ (atOldest t).used := hn
    obtain ⟨c₂, hc₂, h₂, hframe⟩ := h₁.markRelease hn₁ ssnflagTimedout .idle
    obtain ⟨table', hfirst', h₃⟩ := h₂.first
    have hloop := h₃.pruneStaleLoop thetime none (Nat.le_add_left 1 cleanupFlows)
      (Nat.le_of_eq (Nat.add_comm (cleanupFlows + 1) 1))
    obtain ⟨k, c', t', unis', hresult, hinv, hframe', hfreed⟩ := hloop
    refine ⟨k, c', t', unis', ?_, hinv, ?_, ?_⟩
    · unfold FlowCache.pruneStale
      rw [hfirst, bind_eq_bind, bind_some, hlast]
      simp only [map_some]
      rw [FlowCache.pruneStaleLoop, if_neg (Nat.not_lt_zero _), if_neg (some_ne_none _), hf]
      simp only [bind_eq_bind, bind_some]
      rw [hoff, if_neg Bool.false_ne_true, if_neg (Nat.not_le_of_lt hseen), hc₂, bind_some,
        hfirst', bind_some, Nat.add_comm k 1]
      exact hresult
    · have hfront : Frame c { c₂ with table := table' } :=
        ⟨hframe.config, hframe.uniHead, hframe.uniTail⟩
      exact hfront.trans hframe'
    · have hall := (freed_release (n := n)).trans (freed_atOldest.trans hfreed)
      rw [Nat.zero_add, Nat.add_comm 1 k] at hall
      exact ⟨hall.used, hall.free⟩
end Inv

/-! ## Pruning any flow -/

/-- The flow can be pruned at once. -/
def plain (c : FlowCache κ) (n : Node κ ℕ) : Bool :=
  !Inv.blocked c n.data && !Inv.offloaded c n.data

/-- The number of blocked flows that are older than all others. -/
def blockedFirst (c : FlowCache κ) (l : List (Node κ ℕ)) : ℕ :=
  (l.reverse.takeWhile fun n => Inv.blocked c n.data).length

/-- The number of blocked flows. -/
def blockedCount (c : FlowCache κ) (l : List (Node κ ℕ)) : ℕ :=
  l.countP fun n => Inv.blocked c n.data

theorem pruneExcessLoop_le {saveMe : Option ℕ} {fuel pruned blocks ignoreOffloads r : ℕ}
    {c' : FlowCache κ}
    (hloop : c.pruneExcessLoop hash saveMe fuel pruned blocks ignoreOffloads = some (r, c')) :
    pruned ≤ r := by
  induction fuel generalizing c pruned blocks ignoreOffloads with
  | zero => cases hloop
  | succ fuel ih =>
    rw [pruneExcessLoop] at hloop
    split at hloop
    · obtain ⟨⟨flow, c₁⟩, -, hloop⟩ := bind_eq_some_iff.mp hloop
      obtain ⟨a, -, hloop⟩ := bind_eq_some_iff.mp hloop
      obtain ⟨f, -, hloop⟩ := bind_eq_some_iff.mp hloop
      split at hloop
      · obtain ⟨⟨touched, table⟩, -, hloop⟩ := bind_eq_some_iff.mp hloop
        cases touched with
        | true => exact ih hloop
        | false => exact Nat.le_of_eq (congrArg Prod.fst (some.inj hloop))
      · obtain ⟨c₂, -, hloop⟩ := bind_eq_some_iff.mp hloop
        exact Nat.le_of_succ_le (ih hloop)
    · exact Nat.le_of_eq (congrArg Prod.fst (some.inj hloop))

namespace Inv
variable {u v : List (Node κ ℕ)} {fuel r : ℕ} {c' : FlowCache κ}

section
variable (h : Inv hash c t unis) (ht : t.used = v ++ u) (hcap : c.maxCap < t.used.length)
include h ht hcap

/-- The second round, with offloaded flows pruned: it ends before a flow that is not blocked if too
many blocked flows were met by then. -/
theorem excess_second {blocks : ℕ}
    (hloop : c.pruneExcessLoop hash none fuel 0 (blocks + v.length) 0 = some (r, c')) :
    0 < r ↔ blocks + v.length + c.blockedFirst u < t.used.length := by
  cases fuel with
  | zero => cases hloop
  | succ fuel =>
    -- The induction is on the nodes not met in this round.
    induction u using List.reverseRecOn generalizing c t v fuel with
    | nil =>
      have hlength : t.used.length = v.length := by rw [ht, append_nil]
      rw [h.excess_stop (by omega)] at hloop
      obtain ⟨rfl, -⟩ := Prod.mk.inj (some.inj hloop)
      exact ⟨fun hlt => absurd hlt (Nat.lt_irrefl 0), fun hlt => by omega⟩
    | append_singleton u n ih =>
      rw [← append_assoc] at ht
      have hn : n ∈ t.used := ht ▸ mem_append_right _ mem_cons_self
      obtain ⟨f, hf, -⟩ := h.flow_used hn
      have hfirst : c.blockedFirst (u ++ [n]) =
          if f.wasBlocked then c.blockedFirst u + 1 else 0 := by
        unfold blockedFirst
        rw [reverse_concat, takeWhile_cons, blocked_eq hf]
        split_ifs <;> rfl
      by_cases hblocks : blocks + v.length < t.used.length
      · by_cases hblocked : f.wasBlocked = true
        · obtain ⟨table, hstep, h₁⟩ := h.excess_skip ht hcap hblocks hf (.inr (.inl hblocked)) fuel
            0
          have hne := ne_nil_of_maxCap hcap ht
          have hused : (rotated t).used = (n :: v) ++ u := (h.rotated_used ht hne).2.1
          have hlength : (rotated t).used.length = t.used.length := by
            rw [(h.rotated_used ht hne).2.1, ht, length_append, length_cons]
            rfl
          rw [hstep, if_pos hblocked] at hloop
          cases fuel with
          | zero => cases hloop
          | succ fuel =>
            rw [ih h₁ hused (hlength ▸ hcap) fuel hloop, hfirst, if_pos hblocked, hlength,
              length_cons]
            show blocks + (v.length + 1) + c.blockedFirst u < _ ↔ _
            omega
        · have hkeep : ¬(none = some n.data ∨ f.wasBlocked ∨ (f.isOffloaded ∧ 0 ≠ 0)) := by
            rintro (hsave | hb | ⟨-, hz⟩)
            · cases hsave
            · exact hblocked hb
            · exact hz rfl
          obtain ⟨c₁, hstep, -, -⟩ := h.excess_prune ht hcap hblocks hf hkeep fuel 0
          rw [hstep] at hloop
          have hle := pruneExcessLoop_le hloop
          rw [hfirst, if_neg hblocked]
          exact ⟨fun _ => hblocks, fun _ => hle⟩
      · rw [h.excess_stop fun hcond => hblocks hcond.2] at hloop
        obtain ⟨rfl, -⟩ := Prod.mk.inj (some.inj hloop)
        exact ⟨fun hlt => absurd hlt (Nat.lt_irrefl 0), fun hlt => by omega⟩

/-- The first round prunes the oldest flow that is neither blocked nor offloaded, if there is
one. -/
theorem excess_first
    (hloop : c.pruneExcessLoop hash none fuel 0 (c.blockedCount v) u.length = some (r, c')) :
    0 < r ↔ (∃ n ∈ u, c.plain n = true) ∨
      c.blockedCount (u ++ v) + c.blockedFirst (u ++ v) < t.used.length := by
  induction u using List.reverseRecOn generalizing c t v fuel with
  | nil =>
    have hused : t.used = [] ++ v := by rw [ht, append_nil, nil_append]
    have hloop' : c.pruneExcessLoop hash none fuel 0
        (c.blockedCount v + ([] : List (Node κ ℕ)).length) 0 = some (r, c') := hloop
    rw [h.excess_second hused hcap hloop']
    constructor
    · exact fun hlt => .inr hlt
    · rintro (⟨n, hn, -⟩ | hlt)
      · exact absurd hn not_mem_nil
      · exact hlt
  | append_singleton u n ih =>
    cases fuel with
    | zero => cases hloop
    | succ fuel =>
      rw [← append_assoc] at ht
      have hn : n ∈ t.used := ht ▸ mem_append_right _ mem_cons_self
      obtain ⟨f, hf, -⟩ := h.flow_used hn
      have hplain : c.plain n = (!f.wasBlocked && !f.isOffloaded) := by
        unfold plain
        rw [blocked_eq hf, offloaded_eq hf]
      have hblocks : c.blockedCount v < t.used.length := by
        have hle : c.blockedCount v ≤ v.length := countP_le_length
        rw [ht, length_append, length_append, length_singleton]
        omega
      have hignore : (u ++ [n]).length ≠ 0 := by
        rw [length_append, length_singleton]
        exact Nat.succ_ne_zero _
      by_cases hskip : f.wasBlocked = true ∨ f.isOffloaded = true
      · obtain ⟨table, hstep, h₁⟩ := h.excess_skip ht hcap hblocks hf
          (.inr (hskip.imp_right fun hoff => ⟨hoff, hignore⟩)) fuel 0
        have hne := ne_nil_of_maxCap hcap ht
        have hused : (rotated t).used = (n :: v) ++ u := (h.rotated_used ht hne).2.1
        have hlength : (rotated t).used.length = t.used.length := by
          rw [(h.rotated_used ht hne).2.1, ht, length_append, length_cons]
          rfl
        have hcount : (if f.wasBlocked then c.blockedCount v + 1 else c.blockedCount v) =
            blockedCount { c with table } (n :: v) := by
          show _ = c.blockedCount (n :: v)
          unfold blockedCount
          rw [countP_cons, blocked_eq hf]
          split_ifs <;> rfl
        rw [hstep, hcount, length_append, length_singleton, Nat.add_sub_cancel] at hloop
        rw [ih h₁ hused (hlength ▸ hcap) hloop, hlength, append_assoc, singleton_append]
        refine or_congr_left ⟨?_, ?_⟩
        · rintro ⟨m, hm, hmplain⟩
          exact ⟨m, mem_append_left _ hm, hmplain⟩
        · rintro ⟨m, hm, hmplain⟩
          rcases mem_append.mp hm with hm | hm
          · exact ⟨m, hm, hmplain⟩
          · rw [mem_singleton.mp hm, hplain] at hmplain
            rcases hskip with hb | hoff
            · rw [hb] at hmplain
              cases hmplain
            · rw [hoff, Bool.and_comm] at hmplain
              cases hmplain
      · have hkeep : ¬(none = some n.data ∨ f.wasBlocked ∨
            (f.isOffloaded ∧ (u ++ [n]).length ≠ 0)) := by
          rintro (hsave | hb | ⟨hoff, -⟩)
          · cases hsave
          · exact hskip (.inl hb)
          · exact hskip (.inr hoff)
        obtain ⟨c₁, hstep, -, -⟩ := h.excess_prune ht hcap hblocks hf hkeep fuel 0
        rw [hstep] at hloop
        have hle := pruneExcessLoop_le hloop
        obtain ⟨hb, hoff⟩ := not_or.mp hskip
        refine ⟨fun _ => .inl ⟨n, mem_append_right _ mem_cons_self, ?_⟩, fun _ => hle⟩
        rw [hplain, Bool.eq_false_iff.mpr hb, Bool.eq_false_iff.mpr hoff]
        rfl
end
end Inv

/-- `prune_excess` frees a node: there are more flows than it is to leave, and one is neither
blocked nor offloaded, or one is not blocked and older than so many that the blocked flows of the
whole table and those before it, counted once more, are fewer than the flows. -/
def ExcessFrees (c : FlowCache κ) (t : ZTable κ ℕ) : Prop :=
  c.maxCap < t.used.length ∧
    ((∃ n ∈ t.used, c.plain n = true) ∨
      c.blockedCount t.used + c.blockedFirst t.used < t.used.length)

/-- The walk of `prune_unis` does not come to the sentinel. -/
def UniSafe (c : FlowCache κ) (unis : List ℕ) : Prop :=
  c.uniCount ≤ c.maxUni ∨ ∃ a ∈ unis, Inv.blocked c a = false

/-- The pruning that `get` does frees a node. -/
def Frees (c : FlowCache κ) (t : ZTable κ ℕ) (unis : List ℕ) (now : ℕ) : Prop :=
  c.oldestStale t (now % 2 ^ 32) = true ∨
    (c.maxUni < c.uniCount ∧ ∃ a ∈ unis, Inv.blocked c a = false) ∨
    (c.uniCount ≤ c.maxUni ∧ c.ExcessFrees t)

namespace Inv
variable {now : ℕ}
theorem pruneExcess_frees (h : Inv hash c t unis) :
    ∃ k c' t' unis', c.pruneExcess hash none = some (k, c') ∧ Inv hash c' t' unis' ∧ Frame c c' ∧
      Freed t t' k ∧ (0 < k ↔ c.ExcessFrees t) := by
  obtain ⟨k, c', t', unis', hresult, hinv, hframe, hfreed⟩ := h.pruneExcess none
  rw [Nat.zero_add] at hresult
  refine ⟨k, c', t', unis', hresult, hinv, hframe, hfreed, ?_⟩
  unfold FlowCache.pruneExcess at hresult
  by_cases hcap : c.maxCap < t.used.length
  · have hloop : c.pruneExcessLoop hash none (6 * c.table.count + 2) 0 (c.blockedCount [])
        t.used.length = some (k, c') := by rwa [← h.table.count]
    rw [h.excess_first (nil_append t.used).symm hcap hloop, append_nil]
    exact ⟨fun hor => ⟨hcap, hor⟩, fun hand => hand.2⟩
  · rw [h.excess_stop fun hcond => hcap hcond.1] at hresult
    obtain ⟨rfl, -⟩ := Prod.mk.inj (some.inj hresult)
    exact ⟨fun hlt => absurd hlt (Nat.lt_irrefl 0), fun hand => absurd hand.1 hcap⟩

theorem makeRoom (h : Inv hash c t unis)
    (hsafe : c.oldestStale t (now % 2 ^ 32) = true ∨ c.UniSafe unis) :
    ∃ k c' t' unis', c.makeRoom hash now = some c' ∧ Inv hash c' t' unis' ∧ Frame c c' ∧
      Freed t t' k ∧ (0 < k ↔ c.Frees t unis now) := by
  unfold FlowCache.makeRoom
  cases hstale : c.oldestStale t (now % 2 ^ 32) with
  | true =>
    obtain ⟨k, c', t', unis', hresult, hinv, hframe, hfreed⟩ := h.pruneStale_stale hstale
    refine ⟨k + 1, c', t', unis', ?_, hinv, hframe, hfreed,
      ⟨fun _ => .inl hstale, fun _ => Nat.succ_pos k⟩⟩
    rw [hresult, bind_eq_bind, bind_some]
    exact if_pos (Nat.succ_ne_zero k)
  | false =>
    obtain ⟨table, hresult, h₁⟩ := h.pruneStale_fresh hstale
    have hsafe₁ : c.UniSafe unis := hsafe.resolve_left (by rw [hstale]; exact Bool.false_ne_true)
    rw [hresult]
    simp only [bind_eq_bind, bind_some, ne_eq, not_true, if_false]
    by_cases hfew : c.uniCount ≤ c.maxUni
    · obtain ⟨k, c', t', unis', hexcess, hinv, hframe, hfreed, hiff⟩ := h₁.pruneExcess_frees
      refine ⟨k, c', t', unis', ?_, hinv, ⟨hframe.config, hframe.uniHead, hframe.uniTail⟩,
        ⟨hfreed.used, hfreed.free⟩, ?_⟩
      · rw [h₁.pruneUnis_few hfew]
        simp only [bind_some, not_true, if_false, hexcess]
      · rw [hiff]
        constructor
        · exact fun hex => .inr (.inr ⟨hfew, hex⟩)
        · rintro (htrue | ⟨hmany, -⟩ | ⟨-, hex⟩)
          · rw [hstale] at htrue
            cases htrue
          · exact absurd hmany (Nat.not_lt_of_le hfew)
          · exact hex
    · have hmany : c.maxUni < c.uniCount := Nat.lt_of_not_le hfew
      have hfree := hsafe₁.resolve_left hfew
      obtain ⟨c', t', unis', hunis, hinv, hframe, hfreed⟩ := h₁.pruneUnis_some hmany hfree
      refine ⟨1, c', t', unis', ?_, hinv, ⟨hframe.config, hframe.uniHead, hframe.uniTail⟩,
        ⟨hfreed.used, hfreed.free⟩,
        ⟨fun _ => .inr (.inl ⟨hmany, hfree⟩), fun _ => Nat.one_pos⟩⟩
      rw [hunis, bind_some]
      rw [if_pos Nat.one_ne_zero]

theorem makeRoom_none (h : Inv hash c t unis)
    (hstale : ¬c.oldestStale t (now % 2 ^ 32) = true) (hsplit : ¬c.UniSafe unis) :
    c.makeRoom hash now = none := by
  obtain ⟨table, hresult, h₁⟩ := h.pruneStale_fresh (Bool.eq_false_iff.mpr hstale)
  obtain ⟨hmany, hall⟩ := not_or.mp hsplit
  have hblocked : ∀ a ∈ unis, Inv.blocked c a = true := fun a ha => by
    cases hb : Inv.blocked c a with
    | true => rfl
    | false => exact absurd ⟨a, ha, hb⟩ hall
  unfold FlowCache.makeRoom
  rw [hresult]
  simp only [bind_eq_bind, bind_some, ne_eq, not_true, if_false]
  rw [h₁.pruneUnis_none (Nat.lt_of_not_le hmany) hblocked, bind_none]

/-! ## Getting a flow -/

theorem get_first (h : Inv hash c t unis) (hkey : (t.lookup key).isSome ∨ t.free ≠ []) (now : ℕ) :
    ∃ a c' t', c.get hash key now = some (some a, c') ∧ Inv hash c' t' unis ∧ Frame c c' := by
  obtain ⟨table, htable, hrep⟩ := h.table.get key
  obtain ⟨n, isNew, t', hget, hn, h₁⟩ : ∃ n isNew t', t.get key = (some n.data, isNew, t') ∧
      n ∈ t'.used ∧ Inv hash { c with table } t' unis := by
    unfold ZTable.get at htable hrep ⊢
    cases hlookup : t.lookup key with
    | some n =>
      rw [hlookup] at hrep
      have hn := (ZHash.mem_of_lookup hlookup).1
      exact ⟨n, false, t.toFront n, rfl, ZHash.mem_toFront hn, h.toFront hn hrep⟩
    | none =>
      rw [hlookup] at hkey
      obtain ⟨x, free, hcons⟩ := exists_cons_of_ne_nil (hkey.resolve_left Bool.false_ne_true)
      rw [hlookup, hcons] at hrep
      rw [hcons]
      exact ⟨⟨x.1, key, x.2⟩, true, _, rfl, mem_cons_self, h.useFree hcons hrep⟩
  obtain ⟨f, hf, -⟩ := h₁.flow_used hn
  have h₂ : Inv hash (FlowCache.setFlow { c with table } n.data { f with lastDataSeen := now }) t'
    unis :=
    h₁.setFlow (data_mem hn) hf rfl
  refine ⟨n.data, _, t', ?_, h₂, ⟨rfl, rfl, rfl⟩⟩
  unfold get
  rw [htable, hget]
  simp only [bind_eq_bind, bind_some]
  rw [show c.flows n.data = some f from hf, bind_some]

theorem get_second (h : Inv hash c t unis)
    (hkey : t.lookup key = none) (hfree : t.free = []) (now : ℕ) :
    ∃ table, c.get hash key now =
        (FlowCache.makeRoom hash now { c with table }).bind (fun c => c.getAgain hash key now) ∧
      Inv hash { c with table } t unis := by
  obtain ⟨table, htable, hrep⟩ := h.table.get key
  unfold ZTable.get at htable hrep
  rw [hkey, hfree] at htable hrep
  refine ⟨table, ?_, h.withTable hrep (.refl _) h.mem⟩
  unfold get
  rw [htable]
  rfl

theorem lookup_freed {t' : ZTable κ ℕ} {k : ℕ} (hfreed : Freed t t' k)
    (hkey : t.lookup key = none) :
    t'.lookup key = none :=
  find?_eq_none.mpr fun n hn => find?_eq_none.mp hkey n (hfreed.used n hn)

/-- Where the walk of `prune_unis` is safe, `get` returns, with a flow if pruning frees a node. -/
theorem get_pruned (h : Inv hash c t unis)
    (hsafe : c.oldestStale t (now % 2 ^ 32) = true ∨ c.UniSafe unis)
    (hkey : t.lookup key = none) (hfree : t.free = []) :
    ∃ r c' t' unis', c.get hash key now = some (r, c') ∧ Inv hash c' t' unis' ∧ Frame c c' ∧
      (r.isSome ↔ c.Frees t unis now) := by
  obtain ⟨table, hget, h₁⟩ := h.get_second hkey hfree now
  obtain ⟨k, c₁, t₁, unis₁, hroom, h₂, hframe, hfreed, hiff⟩ := h₁.makeRoom hsafe
  have hkey₁ := lookup_freed hfreed hkey
  have hlength := hfreed.free
  rw [hfree, length_nil, Nat.zero_add] at hlength
  rw [hget, hroom, bind_some]
  have hframe₁ : Frame c c₁ := ⟨hframe.config, hframe.uniHead, hframe.uniTail⟩
  rcases Nat.eq_zero_or_pos k with hzero | hpos
  · have hnil : t₁.free = [] := eq_nil_of_length_eq_zero (hlength.trans hzero)
    obtain ⟨c', hagain, hinv, hframe'⟩ := h₂.getAgain_nil hkey₁ hnil now
    refine ⟨none, c', t₁, unis₁, hagain, hinv, hframe₁.trans hframe', ?_⟩
    refine ⟨fun hsome => absurd hsome Bool.false_ne_true, fun hfrees => ?_⟩
    exact absurd (hiff.mpr hfrees) (by rw [hzero]; exact Nat.lt_irrefl 0)
  · have hcons : t₁.free ≠ [] := fun hnil => by
      rw [hnil, length_nil] at hlength
      exact absurd hpos (by rw [← hlength]; exact Nat.lt_irrefl 0)
    obtain ⟨a, c', t', unis', hagain, hinv, hframe'⟩ := h₂.getAgain_cons hkey₁ hcons now
    exact ⟨some a, c', t', unis', hagain, hinv, hframe₁.trans hframe',
      ⟨fun _ => hiff.mp hpos, fun _ => rfl⟩⟩
end Inv
end FlowCache
end Snort.Flow
