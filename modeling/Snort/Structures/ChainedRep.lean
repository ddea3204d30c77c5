import Snort.Structures.ChainedTable

/-!
# What chained tables represent

A table represents a list of entries in use, a list of free nodes, and the nodes
that are on no list. The programs of a table are given by what they make of these
lists: an entry is moved to the front, a node is taken off the lists or put on
them, and the node of a key is found.
-/

namespace DoublyLinked
open Function List Option Chained
open Function (update)

namespace Chained
variable {κ δ : Type} [DecidableEq κ]

/-- The table has a list of nodes in use and a list of free ones. Nodes that are on no list are
loose. -/
structure Rep (hash : κ → ℕ) (t : Chained κ δ) (used : List (Node κ δ))
    (free loose : List (ℕ × δ)) : Prop where
  nrows_pos : 0 < t.nrows
  rows : RowsOf hash t used
  lists : Lists t (used.map Node.cell) free
  keys : (used.map Node.key).Nodup
  loose_cell : ∀ x ∈ loose, ∃ c, t.links x.1 = some c ∧ c.val = x.2
  nodup : (used.map Node.addr ++ ids free ++ ids loose).Nodup
  alloc : ∀ a, (t.links a).isSome ↔ a ∈ used.map Node.addr ++ ids free ++ ids loose
  alloc_row : ∀ a, (t.rowLinks a).isSome ↔ (t.links a).isSome
  fresh : ∀ a, (t.links a).isSome → a < t.nextAddr

section Rep
variable {hash : κ → ℕ} {t : Chained κ δ} {used l₁ l₂ : List (Node κ δ)} {free loose : List (ℕ × δ)}
  {n : Node κ δ} {x : ℕ × δ}
omit [DecidableEq κ]
variable {links : Heap δ} {key : κ}

theorem Rep.empty (hash : κ → ℕ) {nrows : ℕ} (hpos : 0 < nrows) :
    Rep hash (Chained.empty nrows : Chained κ δ) [] [] [] where
  nrows_pos := hpos
  rows := ⟨fun _ => [], ⟨fun _ _ => trivial, fun _ _ => rfl, fun _ _ => nodup_nil,
    fun _ _ _ hx => absurd hx not_mem_nil⟩, fun i hi x => by simp⟩
  lists := ⟨trivial, rfl, rfl, trivial, rfl, nodup_nil⟩
  keys := nodup_nil
  loose_cell _ hx := absurd hx not_mem_nil
  nodup := nodup_nil
  alloc a := by simp [Chained.empty]
  alloc_row a := by simp [Chained.empty]
  fresh a ha := absurd ha (by simp [Chained.empty])

theorem Rep.nodup_addr (h : Rep hash t used free loose) : (used.map Node.addr).Nodup :=
  (nodup_append.mp (nodup_append.mp h.nodup).1).1

theorem Rep.addr_lt (h : Rep hash t used free loose) (hn : n ∈ used) : n.addr < t.nextAddr :=
  h.fresh _ ((h.alloc _).mpr (by simp [mem_map_of_mem hn]))

theorem Rep.loose_notMem (h : Rep hash t used free [x]) :
    x.1 ∉ used.map Node.addr ∧ x.1 ∉ ids free := by
  have hdisj := (nodup_append.mp h.nodup).2.2
  exact ⟨fun hmem => hdisj _ (mem_append_left _ hmem) _ mem_cons_self rfl,
    fun hmem => hdisj _ (mem_append_right _ hmem) _ mem_cons_self rfl⟩

/-- A change to the links of the nodes in use and of the free nodes. -/
theorem Rep.of_links (h : Rep hash t used free loose) {ghead gtail fhead : Option ℕ}
    {used' : List (Node κ δ)} {free' loose' : List (ℕ × δ)}
    (hlists : Lists { t with links, ghead, gtail, fhead } (used'.map Node.cell) free')
    (hvals : SameVals t.links links) (hmem : ∀ m, m ∈ used' ↔ m ∈ used)
    (hkeys : (used'.map Node.key).Nodup)
    (hloose : ∀ x ∈ loose', ∃ c, links x.1 = some c ∧ c.val = x.2)
    (hperm : (used'.map Node.addr ++ ids free' ++ ids loose').Perm
      (used.map Node.addr ++ ids free ++ ids loose)) :
    Rep hash { t with links, ghead, gtail, fhead } used' free' loose' where
  nrows_pos := h.nrows_pos
  rows := (h.rows.congr hmem).of_rows rfl rfl rfl
  lists := hlists
  keys := hkeys
  loose_cell := hloose
  nodup := hperm.nodup_iff.mpr h.nodup
  alloc a := by
    rw [hperm.mem_iff, ← h.alloc a]
    exact Bool.eq_iff_iff.mp (hvals.isSome a)
  alloc_row a := by
    rw [show (links a).isSome = (t.links a).isSome from hvals.isSome a]
    exact h.alloc_row a
  fresh a ha := h.fresh a (by rwa [← hvals.isSome a])

theorem Rep.pushFree (h : Rep hash t used free [x]) :
    ∃ links, t.pushFree x.1 = some { t with links, fhead := some x.1 } ∧
      Rep hash { t with links, fhead := some x.1 } used (x :: free) [] := by
  obtain ⟨c, hc, hval⟩ := h.loose_cell x mem_cons_self
  obtain ⟨hused, hfree⟩ := h.loose_notMem
  obtain ⟨links, hpush, hlists, hvals⟩ := h.lists.pushFree hc (by rwa [ids_map_cell]) hfree
  rw [hval] at hlists
  refine ⟨links, hpush, h.of_links hlists hvals (fun _ => Iff.rfl) h.keys
    (fun _ hx => absurd hx not_mem_nil) ?_⟩
  rw [ids_cons, ids_nil, append_nil, append_assoc]
  have hperm : ([x.1] ++ ids free).Perm (ids free ++ [x.1]) := perm_append_comm
  exact hperm.append_left _

theorem Rep.popFree (h : Rep hash t used (x :: free) []) :
    ∃ links, t.popFree = some (some x.1, { t with links, fhead := firstOr none free }) ∧
      Rep hash { t with links, fhead := firstOr none free } used free [x] := by
  obtain ⟨links, hpop, hlists, hvals⟩ := h.lists.popFree
  have hcell : t.links x.1 = some ⟨none, firstOr none free, x.2⟩ := h.lists.free.1
  refine ⟨links, hpop, h.of_links hlists hvals (fun _ => Iff.rfl) h.keys ?_ ?_⟩
  · rintro y (_ | ⟨_, hy⟩)
    · exact hvals.exists_cell hcell
    · exact absurd hy not_mem_nil
  · rw [ids_cons, ids_nil, append_nil, append_assoc]
    have hperm : (ids free ++ [x.1]).Perm ([x.1] ++ ids free) := perm_append_comm
    exact hperm.append_left _

/-- Moving a node to the front of its row changes neither list. -/
theorem Rep.rowToFront (h : Rep hash t (l₁ ++ n :: l₂) free loose) :
    ∃ rowLinks table, t.rowToFront n.addr = some { t with rowLinks, table } ∧
      Rep hash { t with rowLinks, table } (l₁ ++ n :: l₂) free loose := by
  obtain ⟨rowLinks, table, hfront, hrows, hvals⟩ := h.rows.rowToFront h.nrows_pos h.nodup_addr
  refine ⟨rowLinks, table, hfront, h.nrows_pos, hrows, ?_, h.keys, h.loose_cell, h.nodup, h.alloc,
    fun a => ?_, h.fresh⟩
  · exact ⟨h.lists.used, h.lists.ghead, h.lists.gtail, h.lists.free, h.lists.fhead, h.lists.nodup⟩
  · rw [hvals.isSome]
    exact h.alloc_row a

theorem map_cell_split :
    (l₁ ++ n :: l₂).map Node.cell = l₁.map Node.cell ++ n.cell :: l₂.map Node.cell := by
  rw [map_append, map_cons]

theorem notMem_of_nodup (hnodup : ((l₁ ++ n :: l₂).map Node.addr).Nodup) :
    n.addr ∉ (l₁ ++ l₂).map Node.addr := by
  intro hmem
  obtain ⟨m, hm, haddr⟩ := mem_map.mp hmem
  exact ((mem_append_iff_of_nodup Node.addr hnodup m).mp hm).2 haddr

/-- Moving a node to the front of the list of nodes in use. -/
theorem Rep.globalToFront (h : Rep hash t (l₁ ++ n :: l₂) free loose) :
    ∃ t₁ links gtail, t.unlinkGlobal n.addr = some t₁ ∧
      t₁.linkGlobal n.addr = some { t with links, ghead := some n.addr, gtail } ∧
      Rep hash { t with links, ghead := some n.addr, gtail } (n :: (l₁ ++ l₂)) free loose := by
  have hlists := h.lists
  rw [map_cell_split] at hlists
  obtain ⟨links₁, hunlink, hlists₁, hvals₁⟩ := hlists.unlinkGlobal
  rw [← map_append] at hunlink hlists₁
  have hcell : t.links n.addr = some ⟨lastOr none (l₁.map Node.cell),
    firstOr none (l₂.map Node.cell),
    n.data⟩ := hlists.used.cell
  obtain ⟨c, hc, hval⟩ := hvals₁.exists_cell hcell
  have hout : n.addr ∉ ids ((l₁ ++ l₂).map Node.cell) := by
    rw [ids_map_cell]
    exact notMem_of_nodup h.nodup_addr
  have hfree : n.addr ∉ ids free := hlists.disjoint (by simp [Node.cell])
  obtain ⟨links, hlink, hlists₂, hvals⟩ := hlists₁.linkGlobal hc hout hfree
  rw [hval] at hlink hlists₂
  have hperm : (n :: (l₁ ++ l₂)).Perm (l₁ ++ n :: l₂) := perm_middle.symm
  refine ⟨_, links, _, hunlink, hlink, ?_⟩
  refine h.of_links hlists₂ (hvals₁.trans hvals) (fun m => hperm.mem_iff)
    ((hperm.map _).nodup_iff.mpr h.keys) ?_ ?_
  · intro y hy
    obtain ⟨c, hc, hy⟩ := h.loose_cell y hy
    obtain ⟨c', hc', hval'⟩ := (hvals₁.trans hvals).exists_cell hc
    exact ⟨c', hc', hval'.trans hy⟩
  · exact ((hperm.map _).append_right _).append_right _

/-- The rows do not matter for the list of nodes in use, -/
theorem unlinkGlobal_of_rows (t : Chained κ δ) (rowLinks : Heap (RowPart κ)) (table : ℕ → Option ℕ)
    (a : ℕ) : unlinkGlobal { t with rowLinks, table } a =
      (t.unlinkGlobal a).map fun t => { t with rowLinks, table } := by
  unfold unlinkGlobal
  cases t.links.unlinkCell t.ghead t.gtail a <;> rfl

/-- nor the other way round. -/
theorem unlinkRow_of_links (t : Chained κ δ) (links : Heap δ) (ghead gtail : Option ℕ) (a : ℕ) :
    unlinkRow { t with links, ghead, gtail } a =
      (t.unlinkRow a).map fun t => { t with links, ghead, gtail } := by
  unfold unlinkRow
  dsimp only [Heap.read_some, rowHead]
  cases t.rowLinks a with
  | none => rfl
  | some c =>
    simp only [bind_eq_bind, bind_some]
    split_ifs
    · rw [bind_some, bind_some]
      cases t.rowLinks.unlinkHeaded (t.table c.val.rindex) a <;> rfl
    · rfl

/-- A node in use is taken off both lists, in either order. -/
theorem Rep.detach (h : Rep hash t (l₁ ++ n :: l₂) free []) :
    ∃ rowLinks table links ghead gtail, t.unlinkRow n.addr = some { t with rowLinks, table } ∧
      unlinkGlobal { t with rowLinks, table } n.addr =
        some { t with rowLinks, table, links, ghead, gtail } ∧
      t.unlinkGlobal n.addr = some { t with links, ghead, gtail } ∧
      unlinkRow { t with links, ghead, gtail } n.addr =
        some { t with rowLinks, table, links, ghead, gtail } ∧
      Rep hash { t with rowLinks, table, links, ghead, gtail } (l₁ ++ l₂) free [n.cell] := by
  obtain ⟨rowLinks, table, hrow, hrows, hrvals⟩ := h.rows.unlinkRow h.nrows_pos h.nodup_addr
  have hlists := h.lists
  rw [map_cell_split] at hlists
  obtain ⟨links, hunlink, hlists₁, hvals⟩ := hlists.unlinkGlobal
  rw [← map_append] at hunlink hlists₁
  have hsub : (l₁ ++ l₂).Sublist (l₁ ++ n :: l₂) := (sublist_cons_self _ _).append_left _
  have hperm : ((l₁ ++ l₂).map Node.addr ++ ids free ++ ids [n.cell]).Perm
      ((l₁ ++ n :: l₂).map Node.addr ++ ids free ++ ids ([] : List (ℕ × δ))) := by
    rw [map_append, map_append, map_cons, ids_nil, append_nil]
    have hmiddle : (l₁.map Node.addr ++ n.addr :: l₂.map Node.addr ++ ids free).Perm
        (n.addr :: (l₁.map Node.addr ++ l₂.map Node.addr ++ ids free)) := by
      rw [append_assoc, append_assoc]
      exact perm_middle
    exact perm_append_comm.trans hmiddle.symm
  refine ⟨rowLinks, table, links, _, _, hrow, ?_, hunlink, ?_, ?_⟩
  · rw [unlinkGlobal_of_rows, show t.unlinkGlobal n.addr = _ from hunlink]
    rfl
  · rw [unlinkRow_of_links, hrow]
    rfl
  · refine ⟨h.nrows_pos, hrows.of_rows rfl rfl rfl, ?_, h.keys.sublist (hsub.map _), ?_,
      hperm.nodup_iff.mpr h.nodup, fun a => ?_, fun a => ?_, fun a ha => ?_⟩
    · exact ⟨hlists₁.used, hlists₁.ghead, hlists₁.gtail, hlists₁.free, hlists₁.fhead, hlists₁.nodup⟩
    · rintro y (_ | ⟨_, hy⟩)
      · exact hvals.exists_cell hlists.used.cell
      · exact absurd hy not_mem_nil
    · rw [hperm.mem_iff, ← h.alloc a]
      exact Bool.eq_iff_iff.mp (hvals.isSome a)
    · rw [hrvals.isSome, show (links a).isSome = (t.links a).isSome from hvals.isSome a]
      exact h.alloc_row a
    · exact h.fresh a (by rwa [← hvals.isSome a])

theorem Rep.attach (h : Rep hash t used free [x]) (hkey : key ∉ used.map Node.key) :
    ∃ t₁ t₂ rowLinks table links gtail,
      t.setKey x.1 (t.rowOf hash key) key = some t₁ ∧ t₁.linkRow x.1 = some t₂ ∧
      t₂.linkGlobal x.1 = some { t with rowLinks, table, links, ghead := some x.1, gtail } ∧
      Rep hash { t with rowLinks, table, links, ghead := some x.1, gtail }
        (⟨x.1, key, x.2⟩ :: used) free [] := by
  obtain ⟨c, hc, hval⟩ := h.loose_cell x mem_cons_self
  obtain ⟨hused, hfree⟩ := h.loose_notMem
  obtain ⟨r, hr⟩ := isSome_iff_exists.mp ((h.alloc_row x.1).mpr (by rw [hc]; rfl))
  -- The row and the key are written to the node, which is in no row yet.
  let row₁ : Cell (RowPart κ) := ⟨r.prev, r.next, ⟨t.rowOf hash key, some key⟩⟩
  have hset : t.setKey x.1 (t.rowOf hash key) key =
      some { t with rowLinks := update t.rowLinks x.1 (some row₁) } := by
    unfold setKey
    rw [Heap.write_eq_update hr]
    rfl
  have hrows₁ : RowsOf hash { t with rowLinks := update t.rowLinks x.1 (some row₁) } used :=
    h.rows.frame fun m hm => update_of_ne
      (fun heq : m.addr = x.1 => hused (heq ▸ mem_map_of_mem hm)) _ _
  have hrow₁ : update t.rowLinks x.1 (some row₁) x.1 = some row₁ := update_self _ _ _
  obtain ⟨rowLinks, table, hlinkRow, hrows, hrvals⟩ :=
    hrows₁.linkRow (n := ⟨x.1, key, x.2⟩) h.nrows_pos hrow₁ rfl hused
  have hlists : Lists { t with rowLinks, table } (used.map Node.cell) free :=
    ⟨h.lists.used, h.lists.ghead, h.lists.gtail, h.lists.free, h.lists.fhead, h.lists.nodup⟩
  obtain ⟨links, hlink, hlists', hvals⟩ := hlists.linkGlobal hc (by rwa [ids_map_cell]) hfree
  rw [hval] at hlink hlists'
  have hperm : ((⟨x.1, key, x.2⟩ :: used : List (Node κ δ)).map Node.addr ++ ids free ++
      ids ([] : List (ℕ × δ))).Perm (used.map Node.addr ++ ids free ++ ids [x]) := by
    rw [ids_nil, append_nil, map_cons, cons_append]
    exact (perm_append_singleton x.1 (used.map Node.addr ++ ids free)).symm
  refine ⟨_, _, rowLinks, table, links, _, hset, hlinkRow, hlink, ?_⟩
  refine ⟨h.nrows_pos, hrows.of_rows rfl rfl rfl, hlists', ?_,
    fun _ hy => absurd hy not_mem_nil, hperm.nodup_iff.mpr h.nodup, fun a => ?_, fun a => ?_,
    fun a ha => ?_⟩
  · exact nodup_cons.mpr ⟨hkey, h.keys⟩
  · rw [hperm.mem_iff, ← h.alloc a]
    exact Bool.eq_iff_iff.mp (hvals.isSome a)
  · rw [hrvals.isSome, show (links a).isSome = (t.links a).isSome from hvals.isSome a,
      ← h.alloc_row a]
    dsimp only
    rcases eq_or_ne a x.1 with rfl | hne
    · rw [hrow₁, hr]
      exact Iff.rfl
    · rw [update_of_ne hne]
  · exact h.fresh a (by rwa [← hvals.isSome a])

/-- The key and the data of a node can be written in either order. -/
theorem setKey_setData {t₁ : Chained κ δ} {a row : ℕ} {f : δ → δ}
    (hdata : t.setData a f = some { t with links })
    (hset : setKey { t with links } a row key = some t₁) :
    ∃ t₀, t.setKey a row key = some t₀ ∧ t₀.setData a f = some t₁ := by
  obtain ⟨rowLinks, hrow, rfl⟩ := map_eq_some_iff.mp hset
  obtain ⟨links', hwrite, heq⟩ := map_eq_some_iff.mp hdata
  obtain rfl : links' = links := congrArg Chained.links heq
  refine ⟨{ t with rowLinks }, ?_, ?_⟩
  · unfold setKey
    rw [hrow]
    rfl
  · unfold Chained.setData
    rw [hwrite]
    rfl

theorem Rep.setData (h : Rep hash t used free [x]) (f : δ → δ) :
    ∃ links, t.setData x.1 f = some { t with links } ∧
      Rep hash { t with links } used free [(x.1, f x.2)] := by
  obtain ⟨c, hc, hval⟩ := h.loose_cell x mem_cons_self
  obtain ⟨hused, hfree⟩ := h.loose_notMem
  have hother {a : ℕ} (ha : a ≠ x.1) :
      update t.links x.1 (some { c with val := f c.val }) a = t.links a :=
    update_of_ne ha _ _
  have hsome (a : ℕ) : (update t.links x.1 (some { c with val := f c.val }) a).isSome =
      (t.links a).isSome := by
    rcases eq_or_ne a x.1 with rfl | ha
    · rw [update_self, hc]
      rfl
    · rw [hother ha]
  refine ⟨update t.links x.1 (some { c with val := f c.val }), ?_, h.nrows_pos,
    h.rows.of_rows rfl rfl rfl,
    ⟨?_, h.lists.ghead, h.lists.gtail, ?_, h.lists.fhead, h.lists.nodup⟩, h.keys, ?_, h.nodup,
    fun a => ?_, fun a => ?_, fun a ha => ?_⟩
  · unfold Chained.setData
    rw [Heap.write_eq_update hc]
    rfl
  · refine h.lists.used.frame fun a ha => hother fun heq => hused ?_
    rwa [ids_map_cell, heq] at ha
  · exact h.lists.free.frame fun a ha => hother fun heq => hfree (heq ▸ ha)
  · rintro y (_ | ⟨_, hy⟩)
    · exact ⟨_, update_self _ _ _, congrArg f hval⟩
    · exact absurd hy not_mem_nil
  · rw [show (update t.links x.1 _ a).isSome = _ from hsome a]
    exact h.alloc a
  · rw [show (update t.links x.1 _ a).isSome = _ from hsome a]
    exact h.alloc_row a
  · exact h.fresh a (by rwa [← hsome a])

theorem Rep.setFirst (h : Rep hash t (n :: l₁) free []) (f : δ → δ) :
    ∃ links, t.setData n.addr f = some { t with links } ∧
      Rep hash { t with links } ({ n with data := f n.data } :: l₁) free [] := by
  have hseg : Seg t.links none (n.cell :: l₁.map Node.cell) none := h.lists.used
  have hfree : n.addr ∉ ids free := h.lists.disjoint mem_cons_self
  have hnodup := h.lists.nodup_used
  set g : Cell δ → Cell δ := fun c => { c with val := f c.val } with hg
  have hsome (a : ℕ) : (t.links.modify n.addr g a).isSome = (t.links a).isSome := by
    rcases eq_or_ne a n.addr with rfl | ha
    · rw [Heap.modify_self, isSome_map]
    · rw [Heap.modify_of_ne g ha]
  obtain ⟨rows, hrows, hmem⟩ := h.rows
  refine ⟨t.links.modify n.addr g, ?_, h.nrows_pos,
    ⟨rows, ⟨hrows.seg, hrows.head, hrows.nodup, hrows.home⟩, fun i hi x => ?_⟩,
    ⟨Seg.modify_val (l := []) hseg hnodup g rfl, h.lists.ghead, h.lists.gtail,
      h.lists.free.frame_modify hfree g, h.lists.fhead, h.lists.nodup⟩, h.keys, nofun, h.nodup,
    fun a => ?_, fun a => ?_, fun a ha => h.fresh a (by rwa [← hsome a])⟩
  · unfold Chained.setData
    rw [Heap.write_some (show t.links n.addr = _ from hseg.1)]
    rfl
  · rw [hmem i hi x, exists_mem_cons_iff, exists_mem_cons_iff]
    rfl
  · rw [show (t.links.modify n.addr g a).isSome = _ from hsome a]
    exact h.alloc a
  · rw [show (t.links.modify n.addr g a).isSome = _ from hsome a]
    exact h.alloc_row a

theorem Rep.new (h : Rep hash t used free []) (data : δ) :
    Rep hash (t.alloc data) used free [(t.nextAddr, data)] := by
  have hout : ¬(t.links t.nextAddr).isSome := fun hsome => Nat.lt_irrefl _ (h.fresh _ hsome)
  have hused {m : Node κ δ} (hm : m ∈ used) : m.addr ≠ t.nextAddr :=
    Nat.ne_of_lt (h.addr_lt hm)
  have hmem : t.nextAddr ∉ used.map Node.addr ++ ids free := fun hmem =>
    hout ((h.alloc _).mpr (mem_append_left _ hmem))
  have hlinks {a : ℕ} (ha : a ∈ used.map Node.addr ++ ids free) :
      t.links.alloc t.nextAddr data a = t.links a :=
    update_of_ne (fun heq : a = t.nextAddr => hmem (heq ▸ ha)) _ _
  refine ⟨h.nrows_pos, (h.rows.frame fun m hm => update_of_ne (hused hm) _ _).of_rows rfl rfl rfl,
    ⟨?_, h.lists.ghead, h.lists.gtail, ?_, h.lists.fhead, h.lists.nodup⟩, h.keys, ?_, ?_,
    fun a => ?_, fun a => ?_, fun a ha => ?_⟩
  · refine h.lists.used.frame fun a ha => hlinks (mem_append_left _ ?_)
    rwa [ids_map_cell] at ha
  · exact h.lists.free.frame fun a ha => hlinks (mem_append_right _ ha)
  · rintro y (_ | ⟨_, hy⟩)
    · exact ⟨_, update_self _ _ _, rfl⟩
    · exact absurd hy not_mem_nil
  · have hnodup := h.nodup
    rw [ids_nil, append_nil] at hnodup
    exact (perm_append_singleton _ _).nodup_iff.mpr (nodup_cons.mpr ⟨hmem, hnodup⟩)
  · have halloc := h.alloc a
    rw [ids_nil, append_nil] at halloc
    rw [ids_cons, ids_nil, mem_append, ← halloc, mem_singleton]
    show (update t.links t.nextAddr _ a).isSome = true ↔ _
    rcases eq_or_ne a t.nextAddr with rfl | hne
    · rw [update_self]
      exact ⟨fun _ => .inr rfl, fun _ => rfl⟩
    · rw [update_of_ne hne]
      exact ⟨.inl, fun hor => hor.resolve_right hne⟩
  · show (update t.rowLinks t.nextAddr _ a).isSome = true ↔
      (update t.links t.nextAddr _ a).isSome = true
    rcases eq_or_ne a t.nextAddr with rfl | hne
    · rw [update_self, update_self]
      exact Iff.rfl
    · rw [update_of_ne hne, update_of_ne hne]
      exact h.alloc_row a
  · rcases eq_or_ne a t.nextAddr with rfl | hne
    · exact Nat.lt_succ_self _
    · refine Nat.lt_succ_of_lt (h.fresh a ?_)
      rwa [← show t.links.alloc t.nextAddr data a = t.links a from update_of_ne hne _ _]

theorem Rep.dealloc (h : Rep hash t used free [x]) : Rep hash (t.dealloc x.1) used free [] := by
  obtain ⟨hused, hfree⟩ := h.loose_notMem
  have hne {m : Node κ δ} (hm : m ∈ used) : m.addr ≠ x.1 := fun heq =>
    hused (heq ▸ mem_map_of_mem hm)
  have hlinks {a : ℕ} (ha : a ≠ x.1) : t.links.free x.1 a = t.links a := update_of_ne ha _ _
  refine ⟨h.nrows_pos, (h.rows.frame fun m hm => update_of_ne (hne hm) _ _).of_rows rfl rfl rfl,
    ⟨?_, h.lists.ghead, h.lists.gtail, ?_, h.lists.fhead, h.lists.nodup⟩, h.keys,
    fun _ hy => absurd hy not_mem_nil, ?_, fun a => ?_, fun a => ?_, fun a ha => ?_⟩
  · refine h.lists.used.frame fun a ha => hlinks fun heq => hused ?_
    rwa [ids_map_cell, heq] at ha
  · exact h.lists.free.frame fun a ha => hlinks fun heq => hfree (heq ▸ ha)
  · rw [ids_nil, append_nil]
    exact (nodup_append.mp h.nodup).1
  · rw [ids_nil, append_nil]
    show (update t.links x.1 none a).isSome = true ↔ _
    rcases eq_or_ne a x.1 with rfl | ha
    · rw [update_self]
      exact ⟨nofun, fun hmem => absurd hmem fun hmem => (mem_append.mp hmem).elim hused hfree⟩
    · rw [update_of_ne ha, h.alloc a, mem_append]
      exact ⟨fun hor => hor.resolve_right fun hx => ha (mem_singleton.mp hx), .inl⟩
  · show (update t.rowLinks x.1 none a).isSome = true ↔ (update t.links x.1 none a).isSome = true
    rcases eq_or_ne a x.1 with rfl | ha
    · rw [update_self, update_self]
      exact Iff.rfl
    · rw [update_of_ne ha, update_of_ne ha]
      exact h.alloc_row a
  · rcases eq_or_ne a x.1 with rfl | hne
    · rw [show (t.dealloc x.1).links x.1 = none from update_self _ _ _] at ha
      cases ha
    · exact h.fresh a (by rwa [← hlinks hne])
end Rep

section Find
variable {hash : κ → ℕ} {t : Chained κ δ} {used : List (Node κ δ)} {free loose : List (ℕ × δ)}

theorem Rep.findRow (h : Rep hash t used free loose) (key : κ) :
    t.findRow hash key = some ((used.find? fun m => m.key = key).map Node.addr) :=
  h.rows.findRow h.nrows_pos h.keys (fun _ hm => h.addr_lt hm) key
end Find
end Chained
end DoublyLinked
