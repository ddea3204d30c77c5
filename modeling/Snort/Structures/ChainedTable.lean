import Snort.Structures.HeadedList

/-!
# Chained hash tables

The nodes of a chained table are linked twice: in the list of their row, and in
one list of all nodes in use, or of the free ones. The programs put nodes on these
lists and take them off. A table represents a list of entries in use and a list of
free nodes; the rows are then some lists with the same entries.
-/

namespace DoublyLinked
open Function List Option

/-- What a node has of its row. The key is not set before the node is used. -/
structure RowPart (κ : Type) where
  rindex : ℕ
  key : Option κ

/-- The two links of a node are kept apart: `rowLinks` has those of the rows, with the row and the
key of a node, `links` those of the other lists, with its data. -/
structure Chained (κ δ : Type) where
  nrows : ℕ
  table : ℕ → Option ℕ
  rowLinks : Heap (RowPart κ)
  links : Heap δ
  ghead : Option ℕ
  gtail : Option ℕ
  fhead : Option ℕ
  nextAddr : ℕ

namespace Chained
variable {κ δ : Type} [DecidableEq κ]

/-! ## Programs -/

section Programs

/-- A table without nodes. -/
def empty (nrows : ℕ) : Chained κ δ where
  nrows
  table _ := none
  rowLinks _ := none
  links _ := none
  ghead := none
  gtail := none
  fhead := none
  nextAddr := 0

variable (hash : κ → ℕ) (t : Chained κ δ) (node : ℕ)

/-- A new node, on no list. -/
def alloc (data : δ) : Chained κ δ :=
  { t with
    rowLinks := t.rowLinks.alloc t.nextAddr ⟨0, none⟩
    links := t.links.alloc t.nextAddr data
    nextAddr := t.nextAddr + 1 }

/-- A node on no list is freed. -/
def dealloc : Chained κ δ :=
  { t with rowLinks := t.rowLinks.free node, links := t.links.free node }

/-- `table[i]`, where there is such a row. -/
def rowHead (i : ℕ) : Option (Option ℕ) := if i < t.nrows then some (t.table i) else none

/-- The row of a key. -/
def rowOf (key : κ) : ℕ := hash key &&& (t.nrows - 1)

/-- Searches the row of a key for its node. -/
def findRow (key : κ) : Option (Option ℕ) := do
  let head ← t.rowHead (t.rowOf hash key)
  t.rowLinks.search (fun v => v.key = some key) t.nextAddr head

/-- Gives a node its row and its key. -/
def setKey (row : ℕ) (key : κ) : Option (Chained κ δ) :=
  (t.rowLinks.write (some node) fun c => { c with val := ⟨row, some key⟩ }).map fun rowLinks =>
    { t with rowLinks }

/-- Changes the data of a node. -/
def setData (f : δ → δ) : Option (Chained κ δ) :=
  (t.links.write (some node) fun c => { c with val := f c.val }).map fun links => { t with links }

def linkRow : Option (Chained κ δ) := do
  let c ← t.rowLinks.read (some node)
  let head ← t.rowHead c.val.rindex
  let rowLinks ← t.rowLinks.pushFront head node
  some { t with rowLinks, table := Function.update t.table c.val.rindex (some node) }

def unlinkRow : Option (Chained κ δ) := do
  let c ← t.rowLinks.read (some node)
  let head ← t.rowHead c.val.rindex
  let (head, rowLinks) ← t.rowLinks.unlinkHeaded head node
  some { t with rowLinks, table := Function.update t.table c.val.rindex head }

/-- Moves a node to the front of its row, if it is not there. -/
def rowToFront : Option (Chained κ δ) := do
  let c ← t.rowLinks.read (some node)
  let head ← t.rowHead c.val.rindex
  if head ≠ some node then
    let t ← t.unlinkRow node
    t.linkRow node
  else some t

/-- Puts a node in front of the list of the nodes in use. -/
def linkGlobal : Option (Chained κ δ) := do
  let links ← t.links.pushFront t.ghead node
  some { t with
    links
    ghead := some node
    gtail := if t.ghead = none then some node else t.gtail }

def unlinkGlobal : Option (Chained κ δ) := do
  let (ghead, gtail, links) ← t.links.unlinkCell t.ghead t.gtail node
  some { t with links, ghead, gtail }

/-- Puts a node in front of the list of the free nodes. -/
def pushFree : Option (Chained κ δ) := do
  let links ← t.links.pushFront t.fhead node
  some { t with links, fhead := some node }

/-- Takes the first free node. -/
def popFree : Option (Option ℕ × Chained κ δ) := do
  let (fhead, links) ← t.links.dropFirst t.fhead
  some (t.fhead, { t with links, fhead })
end Programs

/-! ## The lists of nodes in use and of free nodes -/

/-- `g` is the list of the nodes in use and `f` that of the free nodes. -/
structure Lists (t : Chained κ δ) (g f : List (ℕ × δ)) : Prop where
  used : Seg t.links none g none
  ghead : t.ghead = firstOr none g
  gtail : t.gtail = lastOr none g
  free : Seg t.links none f none
  fhead : t.fhead = firstOr none f
  nodup : (ids g ++ ids f).Nodup

section Lists
variable {t : Chained κ δ} {g g₁ g₂ f : List (ℕ × δ)} {x : ℕ × δ} {a : ℕ} {c : Cell δ}
omit [DecidableEq κ]

theorem Lists.nodup_used (h : Lists t g f) : (ids g).Nodup := (nodup_append.mp h.nodup).1

theorem Lists.nodup_free (h : Lists t g f) : (ids f).Nodup := (nodup_append.mp h.nodup).2.1

theorem Lists.disjoint (h : Lists t g f) (ha : a ∈ ids g) : a ∉ ids f := fun hf =>
  (nodup_append.mp h.nodup).2.2 a ha a hf rfl

theorem Lists.linkGlobal (h : Lists t g f) (hc : t.links a = some c) (hg : a ∉ ids g)
    (hf : a ∉ ids f) :
    ∃ links, t.linkGlobal a = some { t with
        links, ghead := some a, gtail := lastOr none ((a, c.val) :: g) } ∧
      Lists { t with links, ghead := some a, gtail := lastOr none ((a, c.val) :: g) }
        ((a, c.val) :: g) f ∧ SameVals t.links links := by
  obtain ⟨links, hpush, hseg, hoff, hvals⟩ := h.used.pushFront h.nodup_used hc hg
  refine ⟨links, ?_, ⟨hseg, rfl, rfl, ?_, h.fhead, ?_⟩, hvals⟩
  · unfold Chained.linkGlobal
    rw [h.ghead, hpush, h.gtail]
    cases g with
    | nil => rfl
    | cons y g => rfl
  · refine h.free.frame fun b hb => hoff b ?_
    rintro (_ | ⟨_, hmem⟩)
    · exact hf hb
    · exact h.disjoint hmem hb
  · refine nodup_cons.mpr ⟨fun hmem => ?_, h.nodup⟩
    rcases mem_append.mp hmem with hmem | hmem
    · exact hg hmem
    · exact hf hmem

theorem Lists.unlinkGlobal (h : Lists t (g₁ ++ x :: g₂) f) :
    ∃ links, t.unlinkGlobal x.1 = some { t with
        links, ghead := firstOr none (g₁ ++ g₂), gtail := lastOr none (g₁ ++ g₂) } ∧
      Lists { t with links, ghead := firstOr none (g₁ ++ g₂), gtail := lastOr none (g₁ ++ g₂) }
        (g₁ ++ g₂) f ∧ SameVals t.links links := by
  obtain ⟨links, hunlink, hseg, hoff, hvals⟩ := h.used.unlinkCell h.nodup_used
  have hsub : (ids (g₁ ++ g₂)).Sublist (ids (g₁ ++ x :: g₂)) := by
    rw [ids_append, ids_append, ids_cons]
    exact (sublist_cons_self _ _).append_left _
  refine ⟨links, ?_, ⟨hseg, rfl, rfl, ?_, h.fhead, ?_⟩, hvals⟩
  · unfold Chained.unlinkGlobal
    rw [h.ghead, h.gtail, hunlink]
    rfl
  · exact h.free.frame fun b hb => hoff b fun hmem => h.disjoint (hsub.subset hmem) hb
  · exact h.nodup.sublist (hsub.append_right _)

theorem Lists.pushFree (h : Lists t g f) (hc : t.links a = some c) (hg : a ∉ ids g)
    (hf : a ∉ ids f) :
    ∃ links, t.pushFree a = some { t with links, fhead := some a } ∧
      Lists { t with links, fhead := some a } g ((a, c.val) :: f) ∧ SameVals t.links links := by
  obtain ⟨links, hpush, hseg, hoff, hvals⟩ := h.free.pushFront h.nodup_free hc hf
  refine ⟨links, ?_, ⟨?_, h.ghead, h.gtail, hseg, rfl, ?_⟩, hvals⟩
  · unfold Chained.pushFree
    rw [h.fhead, hpush]
    rfl
  · refine h.used.frame fun b hb => hoff b ?_
    rintro (_ | ⟨_, hmem⟩)
    · exact hg hb
    · exact h.disjoint hb hmem
  · refine (perm_middle.nodup_iff).mpr (nodup_cons.mpr ⟨fun hmem => ?_, h.nodup⟩)
    rcases mem_append.mp hmem with hmem | hmem
    · exact hg hmem
    · exact hf hmem

theorem Lists.popFree_nil (h : Lists t g []) : t.popFree = some (none, t) := by
  unfold Chained.popFree
  have hfhead := h.fhead
  cases t
  subst hfhead
  rfl

theorem Lists.popFree (h : Lists t g (x :: f)) :
    ∃ links, t.popFree = some (some x.1, { t with links, fhead := firstOr none f }) ∧
      Lists { t with links, fhead := firstOr none f } g f ∧ SameVals t.links links := by
  obtain ⟨links, hdrop, hseg, hoff, hvals⟩ := h.free.dropFirst h.nodup_free
  refine ⟨links, ?_, ⟨?_, h.ghead, h.gtail, hseg, rfl, ?_⟩, hvals⟩
  · unfold Chained.popFree
    rw [h.fhead]
    show Option.bind (t.links.dropFirst (some x.1)) _ = _
    rw [hdrop]
    rfl
  · exact h.used.frame fun b hb => hoff b fun hmem => h.disjoint hb (mem_cons_of_mem _ hmem)
  · exact h.nodup.sublist ((sublist_cons_self _ _).append_left _)
end Lists

/-! ## The rows -/

/-- The rows are lists of nodes, each in the row that it has the number of. -/
structure Rows (t : Chained κ δ) (rows : ℕ → List (ℕ × RowPart κ)) : Prop where
  seg : ∀ i < t.nrows, Seg t.rowLinks none (rows i) none
  head : ∀ i < t.nrows, t.table i = firstOr none (rows i)
  nodup : ∀ i < t.nrows, (ids (rows i)).Nodup
  home : ∀ i < t.nrows, ∀ x ∈ rows i, x.2.rindex = i

section Rows
variable {t : Chained κ δ} {rows : ℕ → List (ℕ × RowPart κ)} {i j a : ℕ}
omit [DecidableEq κ]
variable {x : ℕ × RowPart κ}

theorem Rows.cell (h : Rows t rows) (hi : i < t.nrows) (hx : x ∈ rows i) :
    ∃ c, t.rowLinks x.1 = some c ∧ c.val = x.2 := by
  obtain ⟨l₁, l₂, hrow⟩ := append_of_mem hx
  have hseg := h.seg i hi
  rw [hrow] at hseg
  exact ⟨_, hseg.cell, rfl⟩

theorem Rows.eq_of_mem (h : Rows t rows) (hi : i < t.nrows) (hj : j < t.nrows)
    (hai : a ∈ ids (rows i)) (haj : a ∈ ids (rows j)) : i = j := by
  obtain ⟨x, hx, rfl⟩ := mem_map.mp hai
  obtain ⟨y, hy, hxy⟩ := mem_map.mp haj
  obtain ⟨c, hc, hcx⟩ := h.cell hi hx
  obtain ⟨d, hd, hdy⟩ := h.cell hj hy
  rw [hxy, hc] at hd
  obtain rfl := some.inj hd
  rw [← h.home i hi x hx, ← h.home j hj y hy, ← hcx, ← hdy]

theorem rowHead_of_lt (hi : i < t.nrows) : t.rowHead i = some (t.table i) := if_pos hi

theorem Rows.update (h : Rows t rows) (hi : i < t.nrows) {rowLinks : Heap (RowPart κ)}
    {l : List (ℕ × RowPart κ)} (hseg : Seg rowLinks none l none) (hnodup : (ids l).Nodup)
    (hhome : ∀ x ∈ l, x.2.rindex = i)
    (hothers : ∀ j < t.nrows, j ≠ i → ∀ b ∈ ids (rows j), rowLinks b = t.rowLinks b) :
    Rows { t with rowLinks, table := Function.update t.table i (firstOr none l) }
      (Function.update rows i l) := by
  refine ⟨fun j hj => ?_, fun j hj => ?_, fun j hj => ?_, fun j hj => ?_⟩
  all_goals rcases eq_or_ne j i with rfl | hne
  · rwa [update_self]
  · rw [update_of_ne hne]
    exact (h.seg j hj).frame (hothers j hj hne)
  · simp only [update_self]
  · simp only [update_of_ne hne]
    exact h.head j hj
  · rwa [update_self]
  · rw [update_of_ne hne]
    exact h.nodup j hj
  · rwa [update_self]
  · rw [update_of_ne hne]
    exact h.home j hj

theorem Rows.linkRow (h : Rows t rows) {c : Cell (RowPart κ)} (hc : t.rowLinks a = some c)
    (hi : c.val.rindex < t.nrows) (hout : ∀ j < t.nrows, a ∉ ids (rows j)) :
    ∃ rowLinks,
      t.linkRow a = some { t with
        rowLinks, table := Function.update t.table c.val.rindex (some a) } ∧
      Rows { t with rowLinks, table := Function.update t.table c.val.rindex (some a) }
        (Function.update rows c.val.rindex ((a, c.val) :: rows c.val.rindex)) ∧
      SameVals t.rowLinks rowLinks := by
  obtain ⟨rowLinks, hpush, hseg, hoff, hvals⟩ :=
    (h.seg _ hi).pushFront (h.nodup _ hi) hc (hout _ hi)
  refine ⟨rowLinks, ?_, h.update hi hseg ?_ ?_ ?_, hvals⟩
  · unfold Chained.linkRow
    rw [Heap.read_some, hc]
    simp only [bind_eq_bind, bind_some]
    rw [rowHead_of_lt hi, bind_some, h.head _ hi, hpush, bind_some]
  · exact nodup_cons.mpr ⟨hout _ hi, h.nodup _ hi⟩
  · rintro x (_ | ⟨_, hx⟩)
    · rfl
    · exact h.home _ hi x hx
  · intro j hj hne b hb
    refine hoff b ?_
    rintro (_ | ⟨_, hmem⟩)
    · exact hout j hj hb
    · exact hne (h.eq_of_mem hj hi hb hmem)

theorem Rows.unlinkRow (h : Rows t rows) (hi : i < t.nrows) {l₁ l₂ : List (ℕ × RowPart κ)}
    (hrow : rows i = l₁ ++ x :: l₂) :
    ∃ rowLinks,
      t.unlinkRow x.1 = some { t with
        rowLinks, table := Function.update t.table i (firstOr none (l₁ ++ l₂)) } ∧
      Rows { t with rowLinks, table := Function.update t.table i (firstOr none (l₁ ++ l₂)) }
        (Function.update rows i (l₁ ++ l₂)) ∧
      SameVals t.rowLinks rowLinks := by
  have hseg := h.seg i hi
  have hnodup := h.nodup i hi
  have hhome := h.home i hi
  have hhead := h.head i hi
  rw [hrow] at hseg hnodup hhome hhead
  obtain ⟨rowLinks, hunlink, hseg', hoff, hvals⟩ := hseg.unlinkHeaded hnodup
  have hsub : (l₁ ++ l₂).Sublist (l₁ ++ x :: l₂) := (sublist_cons_self _ _).append_left _
  refine ⟨rowLinks, ?_, h.update hi hseg' (hnodup.sublist (hsub.map _))
    (fun y hy => hhome y (hsub.subset hy)) ?_, hvals⟩
  · have hrindex : x.2.rindex = i := hhome x (by simp)
    unfold Chained.unlinkRow
    rw [Heap.read_some, hseg.cell]
    simp only [bind_eq_bind, bind_some, hrindex]
    rw [rowHead_of_lt hi, bind_some, hhead, hunlink, bind_some]
  · intro j hj hne b hb
    refine hoff b fun hmem => hne (h.eq_of_mem hj hi hb ?_)
    rw [hrow]
    exact (hsub.map Prod.fst).subset hmem
end Rows

/-! ## Entries -/

/-- A node in use. -/
structure Node (κ δ : Type) where
  addr : ℕ
  key : κ
  data : δ

def Node.cell (n : Node κ δ) : ℕ × δ := (n.addr, n.data)

omit [DecidableEq κ] in
@[simp] theorem ids_map_cell (l : List (Node κ δ)) : ids (l.map Node.cell) = l.map Node.addr := by
  rw [ids, List.map_map]
  rfl

/-- The rows have the nodes of a list, each in the row of its key. -/
def RowsOf (hash : κ → ℕ) (t : Chained κ δ) (l : List (Node κ δ)) : Prop :=
  ∃ rows, Rows t rows ∧ ∀ i < t.nrows, ∀ x, x ∈ rows i ↔
    ∃ n ∈ l, x = (n.addr, ⟨i, some n.key⟩) ∧ t.rowOf hash n.key = i

section RowsOf
variable {hash : κ → ℕ} {t : Chained κ δ} {l l' : List (Node κ δ)} {n : Node κ δ} {key : κ}
omit [DecidableEq κ]
variable {t' : Chained κ δ} {c : Cell (RowPart κ)}

theorem rowOf_lt (hpos : 0 < t.nrows) (hash : κ → ℕ) (key : κ) : t.rowOf hash key < t.nrows :=
  Nat.lt_of_le_of_lt Nat.and_le_right (Nat.sub_lt hpos Nat.one_pos)

theorem eq_of_addr_eq (hnodup : (l.map Node.addr).Nodup) {m : Node κ δ} (hm : m ∈ l) (hn : n ∈ l)
    (haddr : m.addr = n.addr) : m = n :=
  inj_on_of_nodup_map hnodup hm hn haddr

theorem RowsOf.split (h : RowsOf hash t l) (hpos : 0 < t.nrows) (hn : n ∈ l) :
    ∃ rows l₁ l₂, Rows t rows ∧
      (∀ i < t.nrows, ∀ x, x ∈ rows i ↔
        ∃ m ∈ l, x = (m.addr, ⟨i, some m.key⟩) ∧ t.rowOf hash m.key = i) ∧
      rows (t.rowOf hash n.key) = l₁ ++ (n.addr, ⟨t.rowOf hash n.key, some n.key⟩) :: l₂ := by
  obtain ⟨rows, hrows, hmem⟩ := h
  obtain ⟨l₁, l₂, hsplit⟩ := append_of_mem
    ((hmem _ (rowOf_lt hpos hash n.key) (n.addr, ⟨t.rowOf hash n.key, some n.key⟩)).mpr
      ⟨n, hn, rfl, rfl⟩)
  exact ⟨rows, l₁, l₂, hrows, hmem, hsplit⟩

theorem RowsOf.congr (h : RowsOf hash t l) (hl : ∀ m, m ∈ l' ↔ m ∈ l) : RowsOf hash t l' := by
  obtain ⟨rows, hrows, hmem⟩ := h
  refine ⟨rows, hrows, fun i hi x => ?_⟩
  rw [hmem i hi x]
  simp only [hl]

theorem mem_append_iff_of_nodup {α : Type} {l₁ l₂ : List α} {x : α} (addr : α → ℕ)
    (hnodup : ((l₁ ++ x :: l₂).map addr).Nodup) (y : α) :
    y ∈ l₁ ++ l₂ ↔ y ∈ l₁ ++ x :: l₂ ∧ addr y ≠ addr x := by
  rw [map_append, map_cons, nodup_append, nodup_cons] at hnodup
  obtain ⟨-, ⟨hx, -⟩, hdisj⟩ := hnodup
  have hl₁ : y ∈ l₁ → addr y ≠ addr x := fun hy =>
    hdisj _ (mem_map_of_mem hy) _ mem_cons_self
  have hl₂ : y ∈ l₂ → addr y ≠ addr x := fun hy heq => hx (heq ▸ mem_map_of_mem hy)
  simp only [mem_append, mem_cons]
  constructor
  · rintro (hy | hy)
    · exact ⟨.inl hy, hl₁ hy⟩
    · exact ⟨.inr (.inr hy), hl₂ hy⟩
  · rintro ⟨hy | rfl | hy, hne⟩
    · exact .inl hy
    · exact absurd rfl hne
    · exact .inr hy

/-- A node that is the first one of its row leaves the row to the next. -/
theorem unlinkRow_first {a : ℕ}
    (hc : t.rowLinks a = some c) (hprev : c.prev = none) (hhead : t.table c.val.rindex = some a)
    (h : t.unlinkRow a = some t') : t'.table c.val.rindex = c.next := by
  unfold Chained.unlinkRow at h
  rw [Heap.read_some, hc] at h
  simp only [bind_eq_bind, bind_some] at h
  obtain ⟨head, hrow, h⟩ := bind_eq_some_iff.mp h
  unfold Chained.rowHead at hrow
  split at hrow
  · obtain rfl := some.inj hrow
    unfold Heap.unlinkHeaded Heap.dropFirst at h
    rw [hhead, Heap.read_some, hc] at h
    simp only [bind_eq_bind, bind_some, hprev] at h
    obtain ⟨⟨head, rowLinks⟩, hdrop, h⟩ := bind_eq_some_iff.mp h
    obtain ⟨c', hc', hdrop⟩ := bind_eq_some_iff.mp hdrop
    obtain rfl : c = c' := some.inj (hc.symm.trans hc')
    obtain ⟨links, -, hdrop⟩ := bind_eq_some_iff.mp hdrop
    obtain ⟨rfl, rfl⟩ := Prod.mk.inj (some.inj hdrop)
    rw [← some.inj h]
    exact update_self _ _ _
  · exact absurd hrow nofun

variable {l₁ l₂ : List (Node κ δ)}

theorem RowsOf.unlinkRow (h : RowsOf hash t (l₁ ++ n :: l₂))
    (hpos : 0 < t.nrows) (hnodup : ((l₁ ++ n :: l₂).map Node.addr).Nodup) :
    ∃ rowLinks table, t.unlinkRow n.addr = some { t with rowLinks, table } ∧
      RowsOf hash { t with rowLinks, table } (l₁ ++ l₂) ∧ SameVals t.rowLinks rowLinks := by
  have hn : n ∈ l₁ ++ n :: l₂ := mem_append_right _ mem_cons_self
  obtain ⟨rows, r₁, r₂, hrows, hmem, hsplit⟩ := h.split hpos hn
  have hi := rowOf_lt hpos hash n.key
  obtain ⟨rowLinks, hunlink, hrows', hvals⟩ := hrows.unlinkRow hi hsplit
  refine ⟨rowLinks, _, hunlink, ⟨_, hrows', fun j hj x => ?_⟩, hvals⟩
  have hrest := mem_append_iff_of_nodup Node.addr hnodup
  rcases eq_or_ne j (t.rowOf hash n.key) with rfl | hne
  · have hids := hrows.nodup _ hi
    rw [hsplit] at hids
    rw [update_self, mem_append_iff_of_nodup Prod.fst hids, ← hsplit, hmem _ hi x]
    constructor
    · rintro ⟨⟨m, hm, rfl, hrow⟩, hm'⟩
      exact ⟨m, (hrest m).mpr ⟨hm, hm'⟩, rfl, hrow⟩
    · rintro ⟨m, hm, rfl, hrow⟩
      obtain ⟨hm, hm'⟩ := (hrest m).mp hm
      exact ⟨⟨m, hm, rfl, hrow⟩, hm'⟩
  · rw [update_of_ne hne, hmem j hj x]
    constructor
    · rintro ⟨m, hm, rfl, hrow⟩
      refine ⟨m, (hrest m).mpr ⟨hm, fun haddr => hne ?_⟩, rfl, hrow⟩
      rw [← hrow, eq_of_addr_eq hnodup hm hn haddr]
    · rintro ⟨m, hm, rfl, hrow⟩
      exact ⟨m, ((hrest m).mp hm).1, rfl, hrow⟩

theorem RowsOf.linkRow (h : RowsOf hash t l) (hpos : 0 < t.nrows)
    (hc : t.rowLinks n.addr = some c) (hval : c.val = ⟨t.rowOf hash n.key, some n.key⟩)
    (hout : n.addr ∉ l.map Node.addr) :
    ∃ rowLinks table, t.linkRow n.addr = some { t with rowLinks, table } ∧
      RowsOf hash { t with rowLinks, table } (n :: l) ∧ SameVals t.rowLinks rowLinks := by
  obtain ⟨rows, hrows, hmem⟩ := h
  have hi := rowOf_lt hpos hash n.key
  have hrindex : c.val.rindex = t.rowOf hash n.key := by rw [hval]
  obtain ⟨rowLinks, hlink, hrows', hvals⟩ := hrows.linkRow hc (hrindex ▸ hi) fun j hj hmem' => by
    obtain ⟨x, hx, hx'⟩ := mem_map.mp hmem'
    obtain ⟨m, hm, rfl, -⟩ := (hmem j hj x).mp hx
    exact hout (hx' ▸ mem_map_of_mem hm)
  refine ⟨rowLinks, _, hlink, ⟨_, hrows', fun j hj x => ?_⟩, hvals⟩
  rw [hrindex, hval]
  rcases eq_or_ne j (t.rowOf hash n.key) with rfl | hne
  · rw [update_self, mem_cons, hmem _ hi x]
    constructor
    · rintro (rfl | ⟨m, hm, hx, hrow⟩)
      · exact ⟨n, mem_cons_self, rfl, rfl⟩
      · exact ⟨m, mem_cons_of_mem _ hm, hx, hrow⟩
    · rintro ⟨m, _ | ⟨_, hm⟩, hx, hrow⟩
      · exact .inl hx
      · exact .inr ⟨m, hm, hx, hrow⟩
  · rw [update_of_ne hne, hmem j hj x]
    constructor
    · rintro ⟨m, hm, hx, hrow⟩
      exact ⟨m, mem_cons_of_mem _ hm, hx, hrow⟩
    · rintro ⟨m, _ | ⟨_, hm⟩, hx, hrow⟩
      · exact absurd hrow.symm hne
      · exact ⟨m, hm, hx, hrow⟩

theorem RowsOf.cell (h : RowsOf hash t l) (hpos : 0 < t.nrows) (hn : n ∈ l) :
    ∃ c, t.rowLinks n.addr = some c ∧ c.val = ⟨t.rowOf hash n.key, some n.key⟩ := by
  obtain ⟨rows, r₁, r₂, hrows, -, hsplit⟩ := h.split hpos hn
  have hx : (n.addr, ⟨t.rowOf hash n.key, some n.key⟩) ∈ rows (t.rowOf hash n.key) := by
    rw [hsplit]
    exact mem_append_right _ mem_cons_self
  exact hrows.cell (rowOf_lt hpos hash n.key) hx

theorem RowsOf.rowToFront (h : RowsOf hash t (l₁ ++ n :: l₂))
    (hpos : 0 < t.nrows) (hnodup : ((l₁ ++ n :: l₂).map Node.addr).Nodup) :
    ∃ rowLinks table, t.rowToFront n.addr = some { t with rowLinks, table } ∧
      RowsOf hash { t with rowLinks, table } (l₁ ++ n :: l₂) ∧ SameVals t.rowLinks rowLinks := by
  have hn : n ∈ l₁ ++ n :: l₂ := mem_append_right _ mem_cons_self
  obtain ⟨c, hc, hval⟩ := h.cell hpos hn
  have hi : c.val.rindex < t.nrows := by
    rw [hval]
    exact rowOf_lt hpos hash n.key
  by_cases hhead : t.table c.val.rindex = some n.addr
  · refine ⟨t.rowLinks, t.table, ?_, h, .refl⟩
    unfold Chained.rowToFront
    rw [Heap.read_some, hc]
    simp only [bind_eq_bind, bind_some]
    rw [rowHead_of_lt hi, bind_some, if_neg (not_not_intro hhead)]
  · obtain ⟨rowLinks₁, table₁, hunlink, hrows₁, hvals₁⟩ := h.unlinkRow hpos hnodup
    obtain ⟨c₁, hc₁, hval₁⟩ := hvals₁.exists_cell hc
    have hout : n.addr ∉ (l₁ ++ l₂).map Node.addr := by
      intro hmem
      obtain ⟨m, hm, haddr⟩ := mem_map.mp hmem
      exact ((mem_append_iff_of_nodup Node.addr hnodup m).mp hm).2 haddr
    obtain ⟨rowLinks, table, hlink, hrows, hvals⟩ :=
      hrows₁.linkRow hpos hc₁ (hval₁.trans hval) hout
    refine ⟨rowLinks, table, ?_, hrows.congr fun m => ?_, hvals₁.trans hvals⟩
    · unfold Chained.rowToFront
      rw [Heap.read_some, hc]
      simp only [bind_eq_bind, bind_some]
      rw [rowHead_of_lt hi, bind_some, if_pos hhead, hunlink, bind_some, hlink]
    · have hperm : (l₁ ++ n :: l₂).Perm (n :: (l₁ ++ l₂)) := perm_middle
      exact hperm.mem_iff

/-- A change to the lists of nodes in use and of free nodes does not change the rows. -/
theorem RowsOf.of_rows (h : RowsOf hash t l) (hnrows : t'.nrows = t.nrows)
    (htable : t'.table = t.table) (hrowLinks : t'.rowLinks = t.rowLinks) : RowsOf hash t' l := by
  obtain ⟨rows, hrows, hmem⟩ := h
  refine ⟨rows, ⟨?_, ?_, ?_, ?_⟩, ?_⟩
  all_goals simp only [hnrows, htable, hrowLinks, rowOf]
  exacts [hrows.seg, hrows.head, hrows.nodup, hrows.home, hmem]

theorem RowsOf.frame (h : RowsOf hash t l) {rowLinks : Heap (RowPart κ)}
    (hsame : ∀ m ∈ l, rowLinks m.addr = t.rowLinks m.addr) : RowsOf hash { t with rowLinks } l := by
  obtain ⟨rows, hrows, hmem⟩ := h
  refine ⟨rows, ⟨fun i hi => ?_, hrows.head, hrows.nodup, hrows.home⟩, hmem⟩
  refine (hrows.seg i hi).frame fun a ha => ?_
  obtain ⟨x, hx, rfl⟩ := mem_map.mp ha
  obtain ⟨m, hm, rfl, -⟩ := (hmem i hi x).mp hx
  exact hsame m hm
end RowsOf

section Find
variable {hash : κ → ℕ} {t : Chained κ δ} {l : List (Node κ δ)} {n : Node κ δ} {key : κ}

/-- The search in the row of a key finds the node of the key. -/
theorem RowsOf.findRow (h : RowsOf hash t l) (hpos : 0 < t.nrows) (hkeys : (l.map Node.key).Nodup)
    (haddr : ∀ m ∈ l, m.addr < t.nextAddr) (key : κ) :
    t.findRow hash key = some ((l.find? fun m => m.key = key).map Node.addr) := by
  obtain ⟨rows, hrows, hmem⟩ := h
  have hi := rowOf_lt hpos hash key
  have hlen : (rows (t.rowOf hash key)).length ≤ t.nextAddr := by
    have hsub : ids (rows (t.rowOf hash key)) ⊆ List.range t.nextAddr := by
      intro a ha
      obtain ⟨x, hx, rfl⟩ := mem_map.mp ha
      obtain ⟨m, hm, rfl, -⟩ := (hmem _ hi x).mp hx
      exact mem_range.mpr (haddr m hm)
    have := (List.Nodup.subperm (hrows.nodup _ hi) hsub).length_le
    rwa [ids, length_map, length_range] at this
  unfold Chained.findRow
  rw [rowHead_of_lt hi, bind_eq_bind, bind_some, hrows.head _ hi, (hrows.seg _ hi).search _ hlen]
  congr 1
  cases hfind : l.find? fun m => m.key = key with
  | none =>
    rw [map_none, map_eq_none_iff, find?_eq_none]
    intro x hx
    obtain ⟨m, hm, rfl, -⟩ := (hmem _ hi x).mp hx
    have hne := find?_eq_none.mp hfind m hm
    simpa using hne
  | some m =>
    have hm : m ∈ l := mem_of_find?_eq_some hfind
    have hkey : m.key = key := by simpa using find?_some hfind
    have hx : (m.addr, ⟨t.rowOf hash key, some key⟩) ∈ rows (t.rowOf hash key) :=
      (hmem _ hi _).mpr ⟨m, hm, by rw [hkey], by rw [hkey]⟩
    obtain ⟨y, hy⟩ := isSome_iff_exists.mp
      (find?_isSome.mpr ⟨_, hx, decide_eq_true rfl⟩ :
        ((rows (t.rowOf hash key)).find? fun y => y.2.key = some key).isSome)
    obtain ⟨m', hm', rfl, -⟩ := (hmem _ hi y).mp (mem_of_find?_eq_some hy)
    have hkey' : m'.key = key := by simpa using find?_some hy
    rw [hy, map_some, map_some, inj_on_of_nodup_map hkeys hm' hm (hkey'.trans hkey.symm)]
end Find
end Chained
end DoublyLinked
