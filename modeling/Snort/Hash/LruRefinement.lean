import Snort.Structures.Recency
import Snort.Hash.LruCacheShared

/-!
# The LRU cache as a bounded recency list

The abstract cache is a list of entries, the latest used one first, with a
capacity. The list, the map and the size of `LruCacheShared` represent it, as long
as `set_max_size` drops at most one entry: behind the first one, it decrements an
iterator whose node it has erased.
-/

namespace Snort.Hash
open Nat List Option DoublyLinked ListProgram LruCacheShared

/-! ## The recency list -/

/-- The calls of the cache. -/
inductive LruOp (Key Data : Type) where
  | insert (key : Key) (data : Data)
  | find (key : Key) (update : Bool)
  | remove (key : Key)
  | removeData (key : Key)
  | clear
  | setMaxSize (newSize : ℕ)

/-- What a call returns. -/
inductive LruResult (Data : Type) where
  | none
  | bool (b : Bool)
  | data (d : Option Data)
deriving DecidableEq

/-- A recency list with a capacity. -/
structure LruList (Key Data : Type) where
  capacity : ℕ
  entries : List (Key × Data)

variable {Key Data : Type} [DecidableEq Key]

namespace LruList
variable (l : LruList Key Data) (key : Key)

def lookup : Option (Key × Data) := l.entries.find? fun e => e.1 = key

/-- The entries of the other keys. -/
def others : List (Key × Data) := l.entries.filter fun e => e.1 ≠ key

/-- The call on the recency list. -/
def step : LruOp Key Data → LruResult Data × LruList Key Data
  | .insert key data =>
    (.none, { l with entries := ((key, data) :: l.others key).take l.capacity })
  | .find key update =>
    match l.lookup key with
    | none => (.data none, l)
    | some e => (.data (some e.2), if update then { l with entries := e :: l.others key } else l)
  | .remove key => (.bool (l.lookup key).isSome, { l with entries := l.others key })
  | .removeData key => (.data ((l.lookup key).map Prod.snd), { l with entries := l.others key })
  | .clear => (.none, { l with entries := [] })
  | .setMaxSize newSize =>
    if newSize = 0 then (.bool false, l)
    else (.bool true, ⟨newSize, l.entries.take newSize⟩)
end LruList

namespace LruCacheShared

/-- The call on the cache. -/
def step (walk : WalkOrder (Key × ℕ)) (c : LruCacheShared Key Data) :
    LruOp Key Data → Option (LruResult Data × LruCacheShared Key Data)
  | .insert key data => (c.insert key data).map fun c => (.none, c)
  | .find key update => (c.find key update).map fun r => (.data r.1, r.2)
  | .remove key => (c.remove key).map fun r => (.bool r.1, r.2)
  | .removeData key => (c.removeData key).map fun r => (.data r.1, r.2)
  | .clear => (c.clear walk).map fun c => (.none, c)
  | .setMaxSize newSize => (c.setMaxSize newSize).map fun r => (.bool r.1, r.2)
end LruCacheShared

/-! ## The representation -/

/-- The nodes and the map hold the entries. -/
structure Holds (nodes : List (ℕ × (Key × Data))) (map : List (Key × ℕ))
    (entries : List (Key × Data)) : Prop where
  ids_nodup : (ids nodes).Nodup
  nodes_eq : nodes.map Prod.snd = entries
  keys_nodup : (entries.map Prod.fst).Nodup
  map_nodup : (map.map Prod.fst).Nodup
  mem_map : ∀ k p, (k, p) ∈ map ↔ ∃ d, (p, (k, d)) ∈ nodes

section Holds
variable {nodes before behind : List (ℕ × (Key × Data))} {map : List (Key × ℕ)}
  {entries : List (Key × Data)} {k : Key} {d : Data} {p : ℕ}

theorem others_of_nodup {l t : List (Key × Data)} (h : ((l ++ (k, d) :: t).map Prod.fst).Nodup) :
    (l ++ (k, d) :: t).filter (fun e => e.1 ≠ k) = l ++ t := by
  rw [map_append, map_cons, nodup_append, nodup_cons] at h
  obtain ⟨-, ⟨hk, -⟩, hdisj⟩ := h
  have hl : l.filter (fun e => e.1 ≠ k) = l := by
    refine filter_eq_self.mpr fun e he => decide_eq_true fun hek => ?_
    exact hdisj e.1 (mem_map_of_mem he) k mem_cons_self hek
  have ht : t.filter (fun e => e.1 ≠ k) = t := by
    refine filter_eq_self.mpr fun e he => decide_eq_true fun hek => ?_
    exact hk (List.mem_map.mpr ⟨e, he, hek⟩)
  rw [filter_append, filter_cons_of_neg (by simp), hl, ht]

namespace Holds

omit [DecidableEq Key] in
theorem nil : Holds ([] : List (ℕ × (Key × Data))) [] [] :=
  ⟨nodup_nil, rfl, nodup_nil, nodup_nil, by simp⟩

omit [DecidableEq Key] in
theorem split (h : Holds nodes map entries) (hmem : (k, p) ∈ map) :
    ∃ before d behind, nodes = before ++ (p, (k, d)) :: behind ∧ p ∉ ids before := by
  obtain ⟨d, hd⟩ := (h.mem_map k p).mp hmem
  obtain ⟨before, behind, rfl⟩ := append_of_mem hd
  refine ⟨before, d, behind, rfl, fun hp => ?_⟩
  have hnodup := h.ids_nodup
  rw [ids_append, ids_cons, nodup_append] at hnodup
  exact hnodup.2.2 p hp p mem_cons_self rfl

theorem find_eq_none (h : Holds nodes map entries)
    (hfind : map.find? (fun e => e.1 = k) = none) : ∀ e ∈ entries, e.1 ≠ k := by
  rintro ⟨k', d⟩ he rfl
  rw [← h.nodes_eq] at he
  obtain ⟨⟨p, e⟩, hp, rfl⟩ := List.mem_map.mp he
  have hmem : (k', p) ∈ map := (h.mem_map k' p).mpr ⟨d, hp⟩
  exact find?_eq_none.mp hfind _ hmem (by simp)

theorem find_eq_some (h : Holds nodes map entries)
    {e : Key × ℕ} (hfind : map.find? (fun e => e.1 = k) = some e) :
    ∃ before d behind, nodes = before ++ (e.2, (k, d)) :: behind ∧ e.2 ∉ ids before := by
  obtain ⟨k', p⟩ := e
  obtain rfl : k' = k := by simpa using find?_some hfind
  exact h.split (mem_of_find?_eq_some hfind)

theorem erase (h : Holds (before ++ (p, (k, d)) :: behind) map entries) :
    Holds (before ++ behind) (map.filter fun e => e.1 ≠ k) (entries.filter fun e => e.1 ≠ k) := by
  have hentries : entries = before.map Prod.snd ++ (k, d) :: behind.map Prod.snd := by
    rw [← h.nodes_eq]
    simp
  have hkeys := h.keys_nodup
  rw [hentries] at hkeys
  have hothers := others_of_nodup hkeys
  rw [hentries, hothers]
  have hsub : (before ++ behind).Sublist (before ++ (p, (k, d)) :: behind) :=
    List.Sublist.append_left (sublist_cons_self _ _) _
  refine ⟨h.ids_nodup.sublist (hsub.map _), by simp, ?_, ?_, fun k' p' => ?_⟩
  · rw [← hothers]
    exact hkeys.sublist (filter_sublist.map _)
  · exact h.map_nodup.sublist (filter_sublist.map _)
  · rw [mem_filter, h.mem_map]
    constructor
    · rintro ⟨⟨d', hd'⟩, hne⟩
      refine ⟨d', ?_⟩
      rw [mem_append, mem_cons] at hd'
      rcases hd' with hd' | heq | hd'
      · exact mem_append_left _ hd'
      · rw [Prod.mk.injEq, Prod.mk.injEq] at heq
        simp [heq.2.1] at hne
      · exact mem_append_right _ hd'
    · rintro ⟨d', hd'⟩
      refine ⟨⟨d', hsub.subset hd'⟩, decide_eq_true fun hk => ?_⟩
      have hmem : (k', d') ∈ before.map Prod.snd ++ behind.map Prod.snd := by
        rw [← map_append]
        exact mem_map_of_mem hd'
      rw [← hothers, mem_filter] at hmem
      exact of_decide_eq_true hmem.2 hk

omit [DecidableEq Key] in
theorem cons (h : Holds nodes map entries) (hk : ∀ e ∈ entries, e.1 ≠ k) (hp : p ∉ ids nodes) :
    Holds ((p, (k, d)) :: nodes) ((k, p) :: map) ((k, d) :: entries) := by
  have hknodes : ∀ q d', (q, (k, d')) ∉ nodes := fun q d' hmem =>
    hk (k, d') (h.nodes_eq ▸ mem_map_of_mem hmem) rfl
  refine ⟨nodup_cons.mpr ⟨hp, h.ids_nodup⟩, by simp [h.nodes_eq], ?_, ?_, fun k' p' => ?_⟩
  · refine nodup_cons.mpr ⟨fun hmem => ?_, h.keys_nodup⟩
    obtain ⟨e, he, heq⟩ := List.mem_map.mp hmem
    exact hk e he heq
  · refine nodup_cons.mpr ⟨fun hmem => ?_, h.map_nodup⟩
    obtain ⟨⟨k', q⟩, he, rfl⟩ := List.mem_map.mp hmem
    obtain ⟨d', hd'⟩ := (h.mem_map k' q).mp he
    exact hknodes q d' hd'
  · simp only [mem_cons, h.mem_map, Prod.mk.injEq]
    constructor
    · rintro (⟨rfl, rfl⟩ | ⟨d', hd'⟩)
      · exact ⟨d, .inl ⟨rfl, rfl, rfl⟩⟩
      · exact ⟨d', .inr hd'⟩
    · rintro ⟨d', ⟨rfl, rfl, -⟩ | hd'⟩
      · exact .inl ⟨rfl, rfl⟩
      · exact .inr ⟨d', hd'⟩

theorem moveFront (h : Holds (before ++ (p, (k, d)) :: behind) map entries) :
    Holds ((p, (k, d)) :: (before ++ behind)) map ((k, d) :: entries.filter fun e => e.1 ≠ k) := by
  have hperm : ((p, (k, d)) :: (before ++ behind)).Perm (before ++ (p, (k, d)) :: behind) :=
    perm_middle.symm
  have herase := h.erase
  refine ⟨(hperm.map _).nodup_iff.mpr h.ids_nodup, ?_, ?_, h.map_nodup, fun k' p' => ?_⟩
  · rw [map_cons, herase.nodes_eq]
  · refine nodup_cons.mpr ⟨fun hmem => ?_, herase.keys_nodup⟩
    obtain ⟨e, he, heq⟩ := List.mem_map.mp hmem
    exact of_decide_eq_true (mem_filter.mp he).2 heq
  · rw [h.mem_map]
    simp only [hperm.mem_iff]
end Holds
end Holds

/-- The list, the map and the size hold the entries. -/
structure Sized (list : Nodes (Key × Data)) (map : List (Key × ℕ)) (size : ℕ)
    (entries : List (Key × Data)) : Prop extends Holds list.list map entries where
  lt : ∀ a ∈ ids list.list, a < list.fresh
  size_eq : size = entries.length

/-- The cache represents the recency list. -/
structure Rep (c : LruCacheShared Key Data) (l : LruList Key Data) : Prop where
  sized : Sized c.list c.map c.currentSize l.entries
  capacity : c.maxSize = l.capacity
  le : l.entries.length ≤ l.capacity

section Sized
variable {list : Nodes (Key × Data)} {map : List (Key × ℕ)} {size p : ℕ}
  {entries : List (Key × Data)} {k : Key} {before behind : List (ℕ × (Key × Data))}
omit [DecidableEq Key] in
theorem unlink_split {v : Key × Data}
    (hlist : list.list = before ++ (p, v) :: behind) (hp : p ∉ ids before) :
    listMachine.load list p = some v ∧
      listMachine.unlink list p = some { list with list := before ++ behind } := by
  simp only [listMachine, hlist, splitAddr_append hp, map_some, and_self]

theorem Sized.erase (h : Sized list map size entries)
    {d : Data} (hlist : list.list = before ++ (p, (k, d)) :: behind) :
    Sized { list with list := before ++ behind } (map.filter fun e => e.1 ≠ k) (size - 1)
      (entries.filter fun e => e.1 ≠ k) := by
  have hholds := h.toHolds
  rw [hlist] at hholds
  refine ⟨hholds.erase, fun a ha => h.lt a ?_, ?_⟩
  · rw [hlist]
    rw [ids_append] at ha ⊢
    rcases mem_append.mp ha with ha | ha
    · exact mem_append_left _ ha
    · exact mem_append_right _ (mem_cons_of_mem _ ha)
  · rw [h.size_eq, ← hholds.erase.nodes_eq, ← hholds.nodes_eq]
    simp

theorem others_of_not_mem (h : ∀ e ∈ entries, e.1 ≠ k) :
    entries.filter (fun e => e.1 ≠ k) = entries :=
  filter_eq_self.mpr fun e he => decide_eq_true (h e he)

/-- The lookup of the key in the map and in the list of entries. -/
theorem Sized.lookup (h : Sized list map size entries) :
    (map.find? (fun e => e.1 = k) = none ∧ entries.find? (fun e => e.1 = k) = none ∧
        ∀ e ∈ entries, e.1 ≠ k) ∨
      ∃ p before d behind, (∃ k', map.find? (fun e => e.1 = k) = some (k', p)) ∧
        entries.find? (fun e => e.1 = k) = some (k, d) ∧
        list.list = before ++ (p, (k, d)) :: behind ∧ p ∉ ids before := by
  cases hfind : map.find? (fun e => e.1 = k) with
  | none =>
    have hne := h.find_eq_none hfind
    exact .inl ⟨rfl, find?_eq_none.mpr fun e he => by simpa using hne e he, hne⟩
  | some e =>
    obtain ⟨before, d, behind, hlist, hp⟩ := h.find_eq_some hfind
    refine .inr ⟨e.2, before, d, behind, ⟨e.1, rfl⟩, ?_, hlist, hp⟩
    have hkeys := h.keys_nodup
    have hnodes := h.nodes_eq
    rw [hlist, map_append, map_cons] at hnodes
    rw [← hnodes] at hkeys ⊢
    rw [find?_append, find?_eq_none.mpr, none_or, find?_cons_of_pos (by simp)]
    intro e' he'
    rw [map_append, nodup_append] at hkeys
    have hne := hkeys.2.2 e'.1 (mem_map_of_mem he') k (by simp)
    simpa using hne

theorem Sized.eraseLast (h : Sized list map size entries) (hne : entries ≠ []) :
    ∃ p entry nodes, decrement list none = some p ∧ listMachine.load list p = some entry ∧
      listMachine.unlink list p = some nodes ∧ p ∉ ids nodes.list ∧
      Sized nodes (map.filter fun e => e.1 ≠ entry.1) (size - 1) entries.dropLast := by
  have hnodes : list.list ≠ [] := fun hnil => hne (by rw [← h.nodes_eq, hnil]; rfl)
  obtain ⟨init, ⟨p, k, d⟩, hlist⟩ := (eq_nil_or_concat list.list).resolve_left hnodes
  rw [concat_eq_append] at hlist
  have hp : p ∉ ids init := by
    have hnodup := h.ids_nodup
    rw [hlist, ids_append, nodup_append] at hnodup
    exact fun hmem => hnodup.2.2 p hmem p mem_cons_self rfl
  obtain ⟨hload, hunlink⟩ := unlink_split hlist hp
  have hlast : entries.filter (fun e => e.1 ≠ k) = entries.dropLast := by
    have hkeys := h.keys_nodup
    have heq : entries = init.map Prod.snd ++ [(k, d)] := by
      rw [← h.nodes_eq, hlist]
      simp
    rw [heq] at hkeys ⊢
    rw [others_of_nodup hkeys, dropLast_concat, append_nil]
  refine ⟨p, (k, d), _, ?_, hload, hunlink, by simpa using hp, hlast ▸ h.erase hlist⟩
  rw [decrement, hlist, lastOr_concat]
end Sized

/-! ## The calls -/

section Calls
variable {c : LruCacheShared Key Data} {l : LruList Key Data} {key : Key}

section
variable (h : Rep c l)
include h

theorem Rep.eraseOld (key : Key) :
    ∃ c', c.eraseOld key = some c' ∧ c'.maxSize = c.maxSize ∧
      Sized c'.list c'.map c'.currentSize (l.others key) := by
  unfold LruCacheShared.eraseOld LruCacheShared.mapFind LruList.others
  rcases @Sized.lookup _ _ _ _ _ _ _ key h.sized with ⟨hmap, -, hne⟩ |
    ⟨p, before, d, behind, ⟨k', hmap⟩, -, hlist, hp⟩
  · rw [hmap, others_of_not_mem hne]
    exact ⟨_, rfl, rfl, h.sized⟩
  · rw [hmap]
    simp only [map_some, (unlink_split hlist hp).2]
    exact ⟨_, rfl, rfl, h.sized.erase hlist⟩

theorem Rep.insert (key : Key) (data : Data) :
    ∃ c', c.insert key data = some c' ∧
      Rep c' { l with entries := ((key, data) :: l.others key).take l.capacity } := by
  obtain ⟨c₁, hc₁, hmax, h₁⟩ := h.eraseOld key
  have hothers : (l.others key).length ≤ l.capacity :=
    le_trans (length_filter_le _ _) h.le
  have hne : ∀ e ∈ l.others key, e.1 ≠ key := fun e he =>
    of_decide_eq_true (mem_filter.mp he).2
  have hmap : c₁.map.filter (fun e => e.1 ≠ key) = c₁.map := by
    refine filter_eq_self.mpr fun e he => decide_eq_true fun hk => ?_
    obtain ⟨d, hd⟩ := (h₁.mem_map e.1 e.2).mp he
    exact hne (e.1, d) (h₁.nodes_eq ▸ mem_map_of_mem hd) hk
  have hfresh : c₁.list.fresh ∉ ids c₁.list.list := fun hmem =>
    absurd (h₁.lt _ hmem) (lt_irrefl _)
  -- the new entry in front
  have h₂ : Sized ⟨(c₁.list.fresh, (key, data)) :: c₁.list.list, c₁.list.fresh + 1⟩
      ((key, c₁.list.fresh) :: c₁.map) (c₁.currentSize + 1) ((key, data) :: l.others key) := by
    refine ⟨h₁.toHolds.cons hne hfresh, fun a ha => ?_, congrArg (· + 1) h₁.size_eq⟩
    rcases mem_cons.mp ha with rfl | ha
    · exact lt_succ_self _
    · exact lt_succ_of_lt (h₁.lt a ha)
  unfold LruCacheShared.insert
  simp only [hc₁, bind_eq_bind, bind_some, listMachine, mapErase, hmap, eraseOldest]
  by_cases hfull : c₁.maxSize ≤ c₁.currentSize
  · rw [if_pos hfull]
    obtain ⟨p, entry, nodes, hdecr, hload, hunlink, -, h₃⟩ := h₂.eraseLast (cons_ne_nil _ _)
    simp only [listMachine] at hload hunlink
    simp only [hdecr, hload, hunlink, bind_some]
    rw [hmax, h.capacity, h₁.size_eq] at hfull
    have htake : ((key, data) :: l.others key).take l.capacity =
        ((key, data) :: l.others key).dropLast := by
      rw [dropLast_eq_take, length_cons, Nat.add_sub_cancel]
      congr 1
      exact le_antisymm hfull hothers
    refine ⟨_, rfl, ?_, hmax.trans h.capacity, ?_⟩
    · rw [htake]
      exact h₃
    · exact (length_take_le _ _)
  · rw [if_neg hfull]
    rw [hmax, h.capacity, h₁.size_eq] at hfull
    have htake : ((key, data) :: l.others key).take l.capacity = (key, data) :: l.others key :=
      take_of_length_le (by rw [length_cons]; omega)
    refine ⟨_, rfl, ?_, hmax.trans h.capacity, length_take_le _ _⟩
    rw [htake]
    exact h₂

theorem Rep.find (key : Key) (update : Bool) :
    ∃ c', (c.find key update).map (fun r => (LruResult.data r.1, r.2)) =
        some ((l.step (.find key update)).1, c') ∧ Rep c' (l.step (.find key update)).2 := by
  unfold LruCacheShared.find LruCacheShared.mapFind LruList.step
  dsimp only
  rcases @Sized.lookup _ _ _ _ _ _ _ key h.sized with ⟨hmap, hfind, -⟩ |
    ⟨p, before, d, behind, ⟨k', hmap⟩, hfind, hlist, hp⟩
  · rw [hmap, LruList.lookup, hfind]
    exact ⟨_, rfl, h.sized, h.capacity, h.le⟩
  · rw [hmap, LruList.lookup, hfind]
    simp only [map_some, (unlink_split hlist hp).1, bind_eq_bind, bind_some, spliceIf]
    cases update with
    | false => exact ⟨_, rfl, h.sized, h.capacity, h.le⟩
    | true =>
      have hholds := h.sized.toHolds
      rw [hlist] at hholds
      have hfront := hholds.moveFront
      simp only [if_true, spliceFront, hlist, splitAddr_append hp, map_some, bind_some]
      have hlen : ((key, d) :: l.entries.filter fun e => e.1 ≠ key).length = l.entries.length := by
        rw [← hfront.nodes_eq, ← h.sized.nodes_eq, hlist]
        simp
        omega
      refine ⟨_, rfl, ⟨hfront, fun a ha => h.sized.lt a ?_, ?_⟩, h.capacity, ?_⟩
      · rw [hlist]
        exact (perm_middle.symm.map Prod.fst).mem_iff.mp ha
      · exact h.sized.size_eq.trans hlen.symm
      · exact le_trans (le_of_eq hlen) h.le

theorem Rep.others {before behind : List (ℕ × (Key × Data))} {p : ℕ} {d : Data}
    (hlist : c.list.list = before ++ (p, (key, d)) :: behind) (stats : LruCacheSharedStats) :
    Rep { c.mapErase key with
        currentSize := c.currentSize - 1, list := { c.list with list := before ++ behind }, stats }
      { l with entries := l.others key } :=
  ⟨h.sized.erase hlist, h.capacity, le_trans (length_filter_le _ _) h.le⟩

theorem Rep.remove (key : Key) :
    ∃ c', (c.remove key).map (fun r => (LruResult.bool r.1, r.2)) =
        some ((l.step (.remove key)).1, c') ∧ Rep c' (l.step (.remove key)).2 := by
  unfold LruCacheShared.remove LruCacheShared.mapFind LruList.step
  dsimp only
  rcases @Sized.lookup _ _ _ _ _ _ _ key h.sized with ⟨hmap, hfind, hne⟩ |
    ⟨p, before, d, behind, ⟨k', hmap⟩, hfind, hlist, hp⟩
  · rw [hmap, LruList.lookup, hfind, LruList.others, others_of_not_mem hne]
    exact ⟨_, rfl, h⟩
  · rw [hmap, LruList.lookup, hfind]
    simp only [map_some, (unlink_split hlist hp).2, bind_eq_bind, bind_some]
    exact ⟨_, rfl, h.others hlist _⟩

theorem Rep.removeData (key : Key) :
    ∃ c', (c.removeData key).map (fun r => (LruResult.data r.1, r.2)) =
        some ((l.step (.removeData key)).1, c') ∧ Rep c' (l.step (.removeData key)).2 := by
  unfold LruCacheShared.removeData LruCacheShared.mapFind LruList.step
  dsimp only
  rcases @Sized.lookup _ _ _ _ _ _ _ key h.sized with ⟨hmap, hfind, hne⟩ |
    ⟨p, before, d, behind, ⟨k', hmap⟩, hfind, hlist, hp⟩
  · rw [hmap, LruList.lookup, hfind, LruList.others, others_of_not_mem hne]
    exact ⟨_, rfl, h⟩
  · rw [hmap, LruList.lookup, hfind]
    simp only [map_some, (unlink_split hlist hp).1, (unlink_split hlist hp).2,
      bind_eq_bind, bind_some]
    exact ⟨_, rfl, h.others hlist _⟩
end

omit [DecidableEq Key] in
theorem Holds.perm {nodes : List (ℕ × (Key × Data))} {map map' : List (Key × ℕ)}
    {entries : List (Key × Data)} (h : Holds nodes map entries) (hperm : map'.Perm map) :
    Holds nodes map' entries :=
  { h with
    map_nodup := (hperm.map _).nodup_iff.mpr h.map_nodup
    mem_map := fun k p => by rw [hperm.mem_iff, h.mem_map] }

/-- The loop of `clear` erases a node for each entry of the map, and so all of them. -/
theorem Holds.clear {list : Nodes (Key × Data)} {map : List (Key × ℕ)}
    {entries : List (Key × Data)} (h : Holds list.list map entries) :
    map.foldlM (fun list e => listMachine.unlink list e.2)
      list = some { list with list := [] } := by
  induction map generalizing list entries with
  | nil =>
    have hnil : list.list = [] := by
      refine eq_nil_iff_forall_not_mem.mpr fun e he => ?_
      obtain ⟨p, k, d⟩ := e
      exact absurd ((h.mem_map k p).mpr ⟨d, he⟩) not_mem_nil
    rw [foldlM_nil, ← hnil]
    rfl
  | cons e map ih =>
    obtain ⟨k, p⟩ := e
    obtain ⟨before, d, behind, hlist, hp⟩ := h.split mem_cons_self
    rw [hlist] at h
    have herase := h.erase
    have hmap := h.map_nodup
    rw [map_cons, nodup_cons] at hmap
    have hfilter : ((k, p) :: map).filter (fun e => e.1 ≠ k) = map := by
      rw [filter_cons_of_neg (by simp)]
      refine filter_eq_self.mpr fun e he => decide_eq_true fun hek => ?_
      exact hmap.1 (List.mem_map.mpr ⟨e, he, hek⟩)
    rw [hfilter] at herase
    rw [foldlM_cons, (unlink_split hlist hp).2]
    exact @ih { list with list := before ++ behind } _ herase

theorem Rep.clear (h : Rep c l) (walk : WalkOrder (Key × ℕ)) :
    ∃ c', c.clear walk = some c' ∧ Rep c' { l with entries := [] } := by
  have hclear := (h.sized.toHolds.perm (walk.perm c.map)).clear
  unfold LruCacheShared.clear
  rw [hclear]
  refine ⟨_, rfl, ⟨Holds.nil, ?_, rfl⟩, h.capacity, zero_le _⟩
  exact fun a ha => absurd ha not_mem_nil

/-- `set_max_size` drops at most one entry. -/
def LruList.StepOk (l : LruList Key Data) : LruOp Key Data → Prop
  | .setMaxSize newSize => newSize = 0 ∨ l.entries.length ≤ newSize + 1
  | _ => True

variable {newSize : ℕ}

theorem shrink_of_le (h : c.currentSize ≤ newSize) (fuel : ℕ) (it : Option ℕ) :
    shrink newSize fuel it c = some c := by
  cases fuel with
  | zero => exact if_neg (not_lt.mpr h)
  | succ fuel => exact if_neg (not_lt.mpr h)

theorem Rep.setMaxSize (h : Rep c l) (hpos : newSize ≠ 0) (hok : l.entries.length ≤ newSize + 1) :
    ∃ c', c.setMaxSize newSize = some (true, c') ∧ Rep c' ⟨newSize, l.entries.take newSize⟩ := by
  have hsize := h.sized.size_eq
  unfold LruCacheShared.setMaxSize
  rw [if_neg hpos]
  by_cases hle : c.currentSize ≤ newSize
  · rw [shrink_of_le hle]
    refine ⟨_, rfl, ?_, rfl, length_take_le _ _⟩
    rw [take_of_length_le (hsize ▸ hle)]
    exact h.sized
  · have hone : c.currentSize = newSize + 1 := by omega
    have hne : l.entries ≠ [] := fun hnil => by
      rw [hnil, length_nil] at hsize
      omega
    obtain ⟨p, entry, nodes, hdecr, hload, hunlink, -, h₁⟩ := h.sized.eraseLast hne
    rw [hone] at h₁
    rw [hone, shrink, if_pos (by omega), hdecr]
    simp only [bind_eq_bind, bind_some, hload, hunlink]
    rw [shrink_of_le (by dsimp only; omega)]
    refine ⟨_, rfl, ?_, rfl, length_take_le _ _⟩
    have htake : l.entries.take newSize = l.entries.dropLast := by
      rw [dropLast_eq_take]
      congr 1
      omega
    rw [htake, hone]
    exact h₁

/-- Behind the first entry that it drops, `set_max_size` uses an iterator of an erased node. -/
theorem Rep.setMaxSize_none (h : Rep c l) (hpos : newSize ≠ 0)
    (hno : ¬ l.entries.length ≤ newSize + 1) : c.setMaxSize newSize = none := by
  have hsize := h.sized.size_eq
  have hne : l.entries ≠ [] := fun hnil => by
    rw [hnil, length_nil] at hno
    omega
  obtain ⟨m, hm⟩ : ∃ m, c.currentSize = m + 1 + 1 := ⟨c.currentSize - 2, by omega⟩
  obtain ⟨p, entry, nodes, hdecr, hload, hunlink, hp, h₁⟩ := h.sized.eraseLast hne
  have hsplit : splitAddr p nodes.list = none := by
    cases hs : splitAddr p nodes.list with
    | none => rfl
    | some r =>
      obtain ⟨hlist, -⟩ := eq_append_of_splitAddr hs
      exact absurd (by rw [hlist]; simp) hp
  unfold LruCacheShared.setMaxSize
  rw [if_neg hpos, hm, shrink, if_pos (by omega), hdecr]
  simp only [bind_eq_bind, bind_some, hload, hunlink]
  rw [shrink, if_pos (by dsimp only; omega)]
  have hdead : decrement nodes (some p) = none := by
    rw [decrement, listMachine]
    simp only [hsplit, map_none, bind_none]
  rw [hdead]
  rfl

theorem Rep.step (h : Rep c l) (walk : WalkOrder (Key × ℕ)) {op : LruOp Key Data}
    (hok : l.StepOk op) :
    ∃ c', c.step walk op = some ((l.step op).1, c') ∧ Rep c' (l.step op).2 := by
  cases op with
  | insert key data =>
    obtain ⟨c', hc', h'⟩ := h.insert key data
    exact ⟨c', by rw [LruCacheShared.step, hc']; rfl, h'⟩
  | find key update => exact h.find key update
  | remove key => exact h.remove key
  | removeData key => exact h.removeData key
  | clear =>
    obtain ⟨c', hc', h'⟩ := h.clear walk
    exact ⟨c', by rw [LruCacheShared.step, hc']; rfl, h'⟩
  | setMaxSize newSize =>
    by_cases hzero : newSize = 0
    · refine ⟨c, ?_, ?_⟩
      · simp [LruCacheShared.step, LruCacheShared.setMaxSize, LruList.step, hzero]
      · simpa [LruList.step, hzero] using h
    · obtain ⟨c', hc', h'⟩ := h.setMaxSize hzero (hok.resolve_left hzero)
      refine ⟨c', ?_, ?_⟩
      · simp [LruCacheShared.step, hc', LruList.step, hzero]
      · simpa [LruList.step, hzero] using h'

theorem Rep.step_none (h : Rep c l) (walk : WalkOrder (Key × ℕ)) {op : LruOp Key Data}
    (hno : ¬ l.StepOk op) : c.step walk op = none := by
  cases op with
  | setMaxSize newSize =>
    rw [LruList.StepOk, not_or] at hno
    rw [LruCacheShared.step, h.setMaxSize_none hno.1 hno.2]
    rfl
  | _ => exact absurd trivial hno
end Calls

/-! ## Runs -/

/-- The results of the calls, and the list behind them. -/
def LruList.run : LruList Key Data → List (LruOp Key Data) → List (LruResult Data) ×
    LruList Key Data
  | l, [] => ([], l)
  | l, op :: ops =>
    let r := l.step op
    let rest := LruList.run r.2 ops
    (r.1 :: rest.1, rest.2)

/-- The results of the calls, and the cache behind them. -/
def LruCacheShared.run (walk : WalkOrder (Key × ℕ)) :
    LruCacheShared Key Data → List (LruOp Key Data) →
      Option (List (LruResult Data) × LruCacheShared Key Data)
  | c, [] => some ([], c)
  | c, op :: ops => do
    let r ← c.step walk op
    let rest ← run walk r.2 ops
    some (r.1 :: rest.1, rest.2)

/-- Each `set_max_size` drops at most one entry. -/
def LruList.RunOk : LruList Key Data → List (LruOp Key Data) → Prop
  | _, [] => True
  | l, op :: ops => l.StepOk op ∧ LruList.RunOk (l.step op).2 ops

/-- The key that a call uses. -/
def LruOp.uses : LruOp Key Data → Option Key
  | .insert key _ => some key
  | .find key true => some key
  | _ => none

/-- The stamps behind a call at the time `now`. -/
def stampStep (now : ℕ) (stamp : Key → ℕ) (op : LruOp Key Data) : Key → ℕ :=
  match op.uses with
  | some key => Function.update stamp key now
  | none => stamp

/-- When each key has been used last. -/
def stamps : ℕ → (Key → ℕ) → List (LruOp Key Data) → Key → ℕ
  | _, stamp, [] => stamp
  | now, stamp, op :: ops => stamps (now + 1) (stampStep (now + 1) stamp op) ops

/-- The cache behind the calls is the recency list, with the same keys in its list and in its map,
its size is that of both, and the data are in the order of their last use. -/
structure LruOk (size : ℕ) (ops : List (LruOp Key Data)) (results : List (LruResult Data))
    (c : LruCacheShared Key Data) : Prop where
  results : results = (LruList.run ⟨size, []⟩ ops).1
  data : c.getAllData = (LruList.run ⟨size, []⟩ ops).2.entries
  maxSize : c.maxSize = (LruList.run (⟨size, []⟩ : LruList Key Data) ops).2.capacity
  keys_nodup : (c.getAllData.map Prod.fst).Nodup
  keys : (c.map.map Prod.fst).Perm (c.getAllData.map Prod.fst)
  iterators : ∀ e ∈ c.map, ∃ d, (e.2, (e.1, d)) ∈ c.list.list
  list_size : c.currentSize = c.getAllData.length
  map_size : c.currentSize = c.map.length
  le : c.currentSize ≤ c.maxSize
  recent : Recency.Ordered Prod.fst (stamps 0 (fun _ => 0) ops) c.getAllData

section Runs
variable {c : LruCacheShared Key Data} {l : LruList Key Data} {ops : List (LruOp Key Data)}
omit [DecidableEq Key] in
theorem Holds.keys_perm {nodes : List (ℕ × (Key × Data))} {map : List (Key × ℕ)}
    {entries : List (Key × Data)} (h : Holds nodes map entries) :
    (map.map Prod.fst).Perm (entries.map Prod.fst) := by
  rw [perm_ext_iff_of_nodup h.map_nodup h.keys_nodup]
  intro k
  constructor
  · intro hk
    obtain ⟨⟨k', p⟩, hmem, rfl⟩ := List.mem_map.mp hk
    obtain ⟨d, hd⟩ := (h.mem_map k' p).mp hmem
    exact List.mem_map.mpr ⟨(k', d), h.nodes_eq ▸ mem_map_of_mem hd, rfl⟩
  · intro hk
    obtain ⟨⟨k', d⟩, hmem, rfl⟩ := List.mem_map.mp hk
    rw [← h.nodes_eq] at hmem
    obtain ⟨⟨p, e⟩, hp, rfl⟩ := List.mem_map.mp hmem
    exact List.mem_map.mpr ⟨(k', p), (h.mem_map k' p).mpr ⟨d, hp⟩, rfl⟩

variable {stamp : Key → ℕ} {now : ℕ}

theorem ordered_step (h : Recency.Ordered Prod.fst stamp l.entries) (hle : ∀ k, stamp k ≤ now)
    (op : LruOp Key Data) :
    Recency.Ordered Prod.fst (stampStep (now + 1) stamp op) (l.step op).2.entries := by
  have hothers (key : Key) : Recency.Ordered Prod.fst stamp (l.others key) :=
    h.sublist filter_sublist
  have hne (key : Key) : ∀ e ∈ l.others key, e.1 ≠ key := fun e he =>
    of_decide_eq_true (mem_filter.mp he).2
  have huse (key : Key) (d : Data) : Recency.Ordered Prod.fst (Function.update stamp key (now + 1))
      ((key, d) :: l.others key) :=
    (hothers key).use (a := (key, d)) (hne key) fun e _ => lt_succ_of_le (hle e.1)
  cases op with
  | insert key data => exact (huse key data).sublist (take_sublist _ _)
  | find key update =>
    simp only [LruList.step, stampStep]
    cases hfind : l.lookup key with
    | none =>
      have habsent : ∀ e ∈ l.entries, e.1 ≠ key := fun e he => by
        simpa using find?_eq_none.mp hfind e he
      cases update with
      | false => exact h
      | true => exact h.congr fun e he => Function.update_of_ne (habsent e he) _ _
    | some e =>
      obtain ⟨k', d⟩ := e
      obtain rfl : k' = key := by simpa using find?_some hfind
      cases update with
      | false => exact h
      | true => exact huse k' d
  | remove key => exact hothers key
  | removeData key => exact hothers key
  | clear => exact Recency.Ordered.nil
  | setMaxSize newSize =>
    simp only [LruList.step, stampStep, LruOp.uses]
    split_ifs
    · exact h
    · exact h.sublist (take_sublist _ _)

theorem stampStep_le (hle : ∀ k, stamp k ≤ now) (op : LruOp Key Data) (k : Key) :
    stampStep (now + 1) stamp op k ≤ now + 1 := by
  unfold stampStep
  cases op.uses with
  | none => exact le_succ_of_le (hle k)
  | some key =>
    dsimp only
    rcases eq_or_ne k key with rfl | hk
    · exact le_of_eq (Function.update_self k (now + 1) stamp)
    · rw [Function.update_of_ne hk]
      exact le_succ_of_le (hle k)

theorem ordered_run (h : Recency.Ordered Prod.fst stamp l.entries) (hle : ∀ k, stamp k ≤ now) :
    Recency.Ordered Prod.fst (stamps now stamp ops) (l.run ops).2.entries := by
  induction ops generalizing l stamp now with
  | nil => exact h
  | cons op ops ih => exact ih (ordered_step h hle op) (stampStep_le hle op)

theorem Rep.run (h : Rep c l) (walk : WalkOrder (Key × ℕ)) (hok : l.RunOk ops) :
    ∃ c', c.run walk ops = some ((l.run ops).1, c') ∧ Rep c' (l.run ops).2 := by
  induction ops generalizing c l with
  | nil => exact ⟨c, rfl, h⟩
  | cons op ops ih =>
    obtain ⟨c₁, hstep, h₁⟩ := h.step walk hok.1
    obtain ⟨c', hrun, h'⟩ := ih h₁ hok.2
    refine ⟨c', ?_, h'⟩
    simp only [run, hstep, hrun, bind_eq_bind, bind_some]
    rfl

/-- A run that does not meet the condition does not end. -/
theorem Rep.runOk_of_run (h : Rep c l) (walk : WalkOrder (Key × ℕ))
    {r : List (LruResult Data) × LruCacheShared Key Data} (hrun : c.run walk ops = some r) :
    l.RunOk ops := by
  induction ops generalizing c l r with
  | nil => trivial
  | cons op ops ih =>
    obtain ⟨r₁, hstep, hrest⟩ := bind_eq_some_iff.mp hrun
    obtain ⟨r₂, hrun₂, -⟩ := bind_eq_some_iff.mp hrest
    have hok : l.StepOk op := by
      by_contra hno
      rw [h.step_none walk hno] at hstep
      exact absurd hstep nofun
    obtain ⟨c₁, hstep', h₁⟩ := h.step walk hok
    rw [hstep] at hstep'
    obtain rfl := Option.some.inj hstep'
    exact ⟨hok, ih h₁ hrun₂⟩

omit [DecidableEq Key] in
theorem Rep.new (size : ℕ) : Rep (new size : LruCacheShared Key Data) ⟨size, []⟩ :=
  ⟨⟨Holds.nil, fun _ ha => absurd ha not_mem_nil, rfl⟩, rfl, zero_le _⟩

/-- The cache behaves as the recency list if, and only if, no `set_max_size` drops more than one
entry. -/
theorem lruCacheShared_refines (walk : WalkOrder (Key × ℕ)) (size : ℕ)
    (ops : List (LruOp Key Data)) :
    (∃ results c, (new size).run walk ops = some (results, c) ∧
      LruOk size ops results c) ↔ LruList.RunOk ⟨size, []⟩ ops := by
  constructor
  · rintro ⟨results, c, hrun, -⟩
    exact (Rep.new size).runOk_of_run walk hrun
  · intro hok
    obtain ⟨c, hrun, h⟩ := (Rep.new size).run walk hok
    have hdata : c.getAllData = (LruList.run ⟨size, []⟩ ops).2.entries := h.sized.nodes_eq
    have hsize : c.currentSize = c.getAllData.length := h.sized.size_eq.trans (by rw [hdata])
    have hkeys : (c.map.map Prod.fst).Perm (c.getAllData.map Prod.fst) := hdata ▸ h.sized.keys_perm
    refine ⟨_, c, hrun, rfl, hdata, h.capacity, hdata ▸ h.sized.keys_nodup, hkeys, ?_,
      hsize, ?_, ?_, ?_⟩
    · exact fun e he => (h.sized.mem_map e.1 e.2).mp he
    · rw [hsize]
      simpa using hkeys.length_eq.symm
    · rw [h.capacity, h.sized.size_eq]
      exact h.le
    · rw [hdata]
      exact ordered_run Recency.Ordered.nil fun _ => le_refl 0
end Runs

/-- A cache of three entries is reduced to one: `--list_iter` of the second turn starts from the
node that the first turn has erased. -/
theorem lruCacheShared_shrink_by_two :
    (new 3).run ⟨id, fun l => List.Perm.refl l⟩
        [.insert 1 10, .insert 2 20, .insert 3 30, .setMaxSize 1] = none ∧
      (LruList.run ⟨3, []⟩
        [.insert 1 10, .insert 2 20, .insert 3 30, .setMaxSize 1]).2.entries = [(3, 30)] := by
  decide +kernel
end Snort.Hash
