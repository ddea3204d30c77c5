import Snort.Flow.FlowCache
import Snort.Hash.ZHashRuns

/-!
# What the calls of the cache keep

The flows are each at one node of the table, in use or free. Those on the list of
flows seen in one direction are in use, and only they have links. Each step of the
pruning loops keeps this, so the loops do.
-/

namespace Snort.Flow
open List Option DoublyLinked
open Chained (Node)
open Snort.Hash (ZHash ZTable)
open Snort.Hash.ZTable (cells mem_cells_of_used cells_release)
open FlowCache

namespace FlowCache
variable {κ : Type}

/-- The table, the list of flows seen in one direction, and the flows. -/
structure Inv (hash : κ → ℕ) (c : FlowCache κ) (t : ZTable κ ℕ) (unis : List ℕ) : Prop where
  table : c.table.Rep hash t
  nodup : ((cells t).map Prod.snd).Nodup
  flow : ∀ x ∈ cells t, ∃ f, c.flows x.2 = some f ∧ f.key = some x.1
  list : Fenced c.links (c.uniHead, ()) (c.uniTail, ()) (unis.map (·, ()))
  off : ∀ x ∈ cells t, x.2 ∉ unis → c.links x.2 = some ⟨none, none, ()⟩
  sentinel : ∀ x ∈ cells t, x.2 ≠ c.uniHead ∧ x.2 ≠ c.uniTail
  head_flow : ∃ f, c.flows c.uniHead = some f ∧ f.wasBlocked = false
  mem : ∀ a ∈ unis, a ∈ t.used.map Node.data
  count : c.uniCount = unis.length
  released : ∀ r ∈ c.released, r.1 ≠ c.uniHead ∧ r.1 ≠ c.uniTail

/-- The sentinels and the configuration stay. -/
structure Frame (c c' : FlowCache κ) : Prop where
  config : c'.config = c.config
  uniHead : c'.uniHead = c.uniHead
  uniTail : c'.uniTail = c.uniTail

theorem Frame.refl (c : FlowCache κ) : Frame c c := ⟨rfl, rfl, rfl⟩

theorem Frame.trans {c c' c'' : FlowCache κ} (h : Frame c c') (h' : Frame c' c'') : Frame c c'' :=
  ⟨h'.config.trans h.config, h'.uniHead.trans h.uniHead, h'.uniTail.trans h.uniTail⟩

/-- So many nodes have become free. -/
structure Freed (t t' : ZTable κ ℕ) (k : ℕ) : Prop where
  used : ∀ n ∈ t'.used, n ∈ t.used
  free : t'.free.length = t.free.length + k

theorem Freed.refl (t : ZTable κ ℕ) : Freed t t 0 := ⟨fun _ hn => hn, rfl⟩

theorem Freed.trans {t t' t'' : ZTable κ ℕ} {k k' : ℕ} (h : Freed t t' k) (h' : Freed t' t'' k') :
    Freed t t'' (k + k') :=
  ⟨fun n hn => h.used n (h'.used n hn), by rw [h'.free, h.free, Nat.add_assoc]⟩

variable {hash : κ → ℕ} {c : FlowCache κ} {t : ZTable κ ℕ} {unis : List ℕ} {n : Node κ ℕ} {a : ℕ}

@[simp] theorem ids_map_unit (l : List ℕ) : ids (l.map fun a => (a, ())) = l := by
  unfold ids
  rw [List.map_map]
  exact map_id l

namespace Inv
variable {table : ZHash κ ℕ}

section
variable (h : Inv hash c t unis)
include h

theorem fenced_nodup : (c.uniHead :: (unis ++ [c.uniTail])).Nodup := by
  have hnodup := h.list.nodup
  rw [ids_cons, ids_append, ids_map_unit] at hnodup
  exact hnodup

theorem unis_nodup : unis.Nodup :=
  (nodup_append.mp (nodup_cons.mp h.fenced_nodup).2).1

theorem eq_of_data {m : Node κ ℕ} (hm : m ∈ t.used) (hn : n ∈ t.used) (heq : m.data = n.data) :
    m = n := by
  have hcell := inj_on_of_nodup_map h.nodup (mem_cells_of_used hm) (mem_cells_of_used hn) heq
  exact Chained.eq_of_addr_eq h.table.nodup hm hn (congrArg Prod.fst hcell)

theorem withTable {t' : ZTable κ ℕ} (hrep : table.Rep hash t') (hperm : (cells t').Perm (cells t))
    (hmem : ∀ a ∈ unis, a ∈ t'.used.map Node.data) : Inv hash { c with table } t' unis where
  __ := h
  table := hrep
  nodup := (hperm.map _).nodup_iff.mpr h.nodup
  flow x hx := h.flow x (hperm.mem_iff.mp hx)
  off x hx := h.off x (hperm.mem_iff.mp hx)
  sentinel x hx := h.sentinel x (hperm.mem_iff.mp hx)
  mem := hmem

theorem withCursor {p : Option ℕ} (hrep : table.Rep hash { t with cursor := p }) :
    Inv hash { c with table } { t with cursor := p } unis :=
  h.withTable hrep (List.Perm.refl _) h.mem

theorem setFlow (ha : a ∈ (cells t).map Prod.snd) {f f' : CachedFlow} (hf : c.flows a = some f)
    (hkey : f'.key = f.key) : Inv hash (c.setFlow a f') t unis where
  __ := h
  flow x hx := by
    obtain ⟨g, hg, hgkey⟩ := h.flow x hx
    rcases eq_or_ne x.2 a with heq | hne
    · rw [heq, hf] at hg
      obtain rfl := Option.some.inj hg
      exact ⟨f', heq ▸ Function.update_self _ _ _, hkey.trans hgkey⟩
    · exact ⟨g, (Function.update_of_ne hne _ _).trans hg, hgkey⟩
  head_flow := by
    obtain ⟨g, hg, hblocked⟩ := h.head_flow
    obtain ⟨x, hx, rfl⟩ := mem_map.mp ha
    exact ⟨g, (Function.update_of_ne (h.sentinel x hx).1.symm _ _).trans hg, hblocked⟩

theorem unlinkUni (ha : a ∈ (cells t).map Prod.snd) :
    ∃ links uniCount, c.unlinkUni a = some { c with links, uniCount } ∧
      Inv hash { c with links, uniCount } t (unis.erase a) := by
  obtain ⟨x, hx, rfl⟩ := mem_map.mp ha
  by_cases hmem : x.2 ∈ unis
  · obtain ⟨u₁, u₂, rfl⟩ := append_of_mem hmem
    have hnodup := h.unis_nodup
    have hlist := h.list
    rw [map_append, map_cons] at hlist
    obtain ⟨links, hlinks, hlist', hcell, hoff⟩ := hlist.unlinkSelf
    have herase : (u₁ ++ x.2 :: u₂).erase x.2 = u₁ ++ u₂ := by
      have hnot : x.2 ∉ u₁ := fun hin =>
        (nodup_append.mp hnodup).2.2 _ hin _ mem_cons_self rfl
      rw [erase_append_right _ hnot, erase_cons_head]
    have hnext : ∃ y, c.links x.2 = some y ∧ y.next ≠ none := by
      have hseg : Seg c.links none (((c.uniHead, ()) :: u₁.map (·, ())) ++
          (x.2, ()) :: (u₂.map (·, ()) ++ [(c.uniTail, ())])) none := by
        have hseg := hlist.seg
        rw [append_assoc] at hseg
        exact hseg
      obtain ⟨b, hb, -⟩ := firstOr_concat_some none (u₂.map fun a => (a, ())) (c.uniTail, ())
      refine ⟨_, hseg.cell, ?_⟩
      rw [hb]
      exact some_ne_none b
    refine ⟨links, c.uniCount - 1, ?_, ?_⟩
    · obtain ⟨y, hy, hne⟩ := hnext
      unfold unlinkUni
      rw [Heap.read_some, hy]
      simp only [bind_eq_bind, bind_some]
      rw [if_neg hne, hlinks, bind_some]
    · rw [herase]
      exact { h with
        list := by rwa [map_append]
        off := fun y hy hout => by
          rcases eq_or_ne y.2 x.2 with heq | hne
          · rw [heq]
            exact hcell
          · have hout' : y.2 ∉ u₁ ++ x.2 :: u₂ := fun hin => by
              rcases mem_append.mp hin with hin | hin
              · exact hout (mem_append_left _ hin)
              · rcases mem_cons.mp hin with heq | hin
                · exact hne heq
                · exact hout (mem_append_right _ hin)
            rw [← h.off y hy hout']
            refine hoff y.2 fun hin => ?_
            rw [← map_cons (f := fun a => (a, ())), ← map_append, ids_cons, ids_append,
              ids_map_unit] at hin
            rcases mem_cons.mp hin with heq | hin
            · exact (h.sentinel y hy).1 heq
            · rcases mem_append.mp hin with hin | hin
              · exact hout' hin
              · exact (h.sentinel y hy).2 (mem_singleton.mp hin)
        mem := fun b hb => h.mem b (((sublist_cons_self _ _).append_left _).subset hb)
        count := by
          rw [h.count, length_append, length_append, length_cons]
          rfl }
  · refine ⟨c.links, c.uniCount, ?_, ?_⟩
    · unfold unlinkUni
      rw [Heap.read_some, h.off x hx hmem]
      rfl
    · rw [erase_of_not_mem hmem]
      exact h
end

section Keyed
variable [DecidableEq κ] (hn : n ∈ t.used)
omit [DecidableEq κ] in
theorem data_mem (hn : n ∈ t.used) : n.data ∈ (cells t).map Prod.snd :=
  mem_map_of_mem (mem_cells_of_used hn)

variable (h : Inv hash c t unis)
omit [DecidableEq κ] in
theorem flow_used (hn : n ∈ t.used) (h : Inv hash c t unis) :
    ∃ f, c.flows n.data = some f ∧ f.key = some n.addr :=
  h.flow n.cell (mem_cells_of_used hn)

omit [DecidableEq κ] in
theorem keyIn (hn : n ∈ t.used) (h : Inv hash c t unis) : c.keyIn (some n.addr) = some n.key := by
  obtain ⟨r, hr, hval⟩ := h.table.nodes.rows.cell h.table.nodes.nrows_pos hn
  unfold FlowCache.keyIn
  rw [Heap.read_some, hr, bind_some, hval]

section
include h hn

theorem remove :
    ∃ c', c.remove hash n.data = some (true, c') ∧
      Inv hash c' (t.release n) (unis.erase n.data) ∧ Frame c c' := by
  obtain ⟨links, uniCount, hunlink, h₁⟩ := h.unlinkUni (data_mem hn)
  obtain ⟨f, hf, hkey⟩ := h.flow_used hn
  obtain ⟨table, htable, hrep⟩ := h₁.table.removeKey n.key
  have hremove : t.removeKey n.key = (true, t.release n) := by
    unfold ZTable.removeKey
    rw [h.table.lookup_key hn]
  rw [hremove] at htable hrep
  refine ⟨{ c with links, uniCount, table }, ?_, ?_, ⟨rfl, rfl, rfl⟩⟩
  · unfold FlowCache.remove
    rw [hunlink]
    simp only [bind_eq_bind, bind_some]
    rw [hf, bind_some, hkey, h₁.keyIn hn, bind_some, htable, bind_some]
  · refine h₁.withTable hrep (cells_release h.table.nodup hn) fun a ha => ?_
    obtain ⟨m, hm, rfl⟩ := mem_map.mp (h₁.mem a ha)
    have hne : m.data ≠ n.data := fun heq => h.unis_nodup.not_mem_erase (heq ▸ ha)
    refine mem_map_of_mem (mem_filter.mpr ⟨hm, decide_eq_true fun haddr => hne ?_⟩)
    rw [Chained.eq_of_addr_eq h.table.nodup hm hn haddr]

omit [DecidableEq κ] in
theorem withReleased (reason : PruneReason) :
    Inv hash { c with released := c.released ++ [(n.data, reason)] } t unis :=
  { h with
    released := fun r hr => by
      rcases mem_append.mp hr with hr | hr
      · exact h.released r hr
      · rw [mem_singleton.mp hr]
        exact h.sentinel n.cell (mem_cells_of_used hn) }

theorem release (reason : PruneReason) :
    ∃ c', c.release hash n.data reason = some (true, c') ∧
      Inv hash c' (t.release n) (unis.erase n.data) ∧ Frame c c' := by
  obtain ⟨f, hf, -⟩ := h.flow_used hn
  have h₁ : Inv hash (c.setFlow n.data f.reset) t unis := h.setFlow (data_mem hn) hf rfl
  obtain ⟨c', hc', hinv, hframe⟩ := (h₁.withReleased hn reason).remove hn
  refine ⟨c', ?_, hinv, ⟨hframe.config, hframe.uniHead, hframe.uniTail⟩⟩
  unfold FlowCache.release
  rw [hf]
  exact hc'

theorem markRelease (flag : BitVec 32) (reason : PruneReason) :
    ∃ c', c.markRelease hash n.data flag reason = some c' ∧
      Inv hash c' (t.release n) (unis.erase n.data) ∧ Frame c c' := by
  obtain ⟨f, hf, -⟩ := h.flow_used hn
  have h₁ : Inv hash (c.setFlow n.data (f.setFlag flag)) t unis := h.setFlow (data_mem hn) hf rfl
  obtain ⟨c', hc', hinv, hframe⟩ := h₁.release hn reason
  refine ⟨c', ?_, hinv, ⟨hframe.config, hframe.uniHead, hframe.uniTail⟩⟩
  unfold FlowCache.markRelease
  rw [hf]
  simp only [bind_eq_bind, bind_some]
  rw [hc', bind_some]
end

omit [DecidableEq κ] in
theorem freed_release : Freed t (t.release n) 1 :=
  ⟨fun _ hm => ZTable.without_sublist.subset hm, rfl⟩

omit [DecidableEq κ] in
theorem length_release (hn : n ∈ t.used) (h : Inv hash c t unis) :
    (t.release n).used.length + 1 = t.used.length :=
  (ZTable.without_perm h.table.nodup hn).length_eq
end Keyed

/-! ### The oldest flow -/

/-- The table with the cursor at its oldest node. -/
def atOldest (t : ZTable κ ℕ) : ZTable κ ℕ := t.first.2

theorem first (h : Inv hash c t unis) :
    ∃ table, c.first = some (t.used.getLast?.map Node.data, { c with table }) ∧
      Inv hash { c with table } (atOldest t) unis := by
  obtain ⟨table, htable, hrep⟩ := h.table.first
  refine ⟨table, ?_, h.withCursor hrep⟩
  unfold FlowCache.first
  rw [htable, ZTable.first_fst h.table.nodup]
  rfl

theorem freed_atOldest : Freed t (atOldest t) 0 := ⟨fun _ hn => hn, rfl⟩

theorem mem_of_getLast? (ha : t.used.getLast?.map Node.data = some a) :
    ∃ n, t.used.getLast? = some n ∧ n ∈ t.used ∧ n.data = a := by
  obtain ⟨n, hlast, rfl⟩ := map_eq_some_iff.mp ha
  exact ⟨n, hlast, mem_of_getLast? hlast, rfl⟩
end Inv
end FlowCache
end Snort.Flow
