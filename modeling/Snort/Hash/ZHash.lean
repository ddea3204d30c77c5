import Snort.Structures.ChainedRep

/-!
# The hash table of flows

`zhash.cc`: a chained hash table with a list of all its nodes, the latest used
first, a list of free nodes, and a cursor that walks the nodes from the oldest on.
The table that the nodes make up is described by two lists and the cursor, and
each call is compared with a call on these.
-/

namespace Snort.Hash
open List Option DoublyLinked Chained

/-! ## The table -/

structure ZHash (κ δ : Type) where
  nodes : Chained κ δ
  count : ℕ
  cursor : Option ℕ

namespace ZHash
variable {κ δ : Type} [DecidableEq κ]

section Calls
variable (hash : κ → ℕ) (z : ZHash κ δ) (node : ℕ) (key : κ)

/-- A table without nodes. The number of rows is a power of two, or the magnitude of a negative
argument. -/
def new (nrows : ℕ) : ZHash κ δ := ⟨empty nrows, 0, none⟩

/-- `save_free_node` -/
def saveFreeNode : Option (ZHash κ δ) := (z.nodes.pushFree node).map fun nodes => { z with nodes }

/-- `get_free_node` -/
def getFreeNode : Option (Option ℕ × ZHash κ δ) :=
  z.nodes.popFree.map fun r => (r.1, { z with nodes := r.2 })

/-- `glink_node` -/
def glinkNode : Option (ZHash κ δ) := (z.nodes.linkGlobal node).map fun nodes => { z with nodes }

/-- `gunlink_node`. A cursor at the node moves on to the one used next. -/
def gunlinkNode : Option (ZHash κ δ) := do
  let c ← z.nodes.links.read (some node)
  let nodes ← z.nodes.unlinkGlobal node
  some { z with nodes, cursor := if z.cursor = some node then c.prev else z.cursor }

/-- `link_node` -/
def linkNode : Option (ZHash κ δ) := (z.nodes.linkRow node).map fun nodes => { z with nodes }

/-- `unlink_node` -/
def unlinkNode : Option (ZHash κ δ) := (z.nodes.unlinkRow node).map fun nodes => { z with nodes }

/-- `move_to_front` -/
def moveToFront : Option (ZHash κ δ) := do
  let nodes ← z.nodes.rowToFront node
  let z := { z with nodes }
  if some node ≠ z.nodes.ghead then
    let z ← z.gunlinkNode node
    z.glinkNode node
  else some z

/-- `find_node_row`. A node that is found is moved to the front. -/
def findNodeRow : Option (Option ℕ × ZHash κ δ) := do
  match ← z.nodes.findRow hash key with
  | some node => do
    let z ← z.moveToFront node
    some (some node, z)
  | none => some (none, z)

/-- `node->data`, or null. -/
def dataOf (p : Option ℕ) : Option (Option δ) :=
  match p with
  | none => some none
  | some node => (z.nodes.links.read (some node)).map fun c => some c.val

/-- `push`. The result is the node whose key memory is returned. -/
def push (p : δ) : Option (ℕ × ZHash κ δ) := do
  let node := z.nodes.nextAddr
  let z ← { z with nodes := z.nodes.alloc p }.saveFreeNode node
  some (node, z)

/-- `pop` -/
def pop : Option (Option δ × ZHash κ δ) := do
  let (node, z) ← z.getFreeNode
  match node with
  | none => some (none, z)
  | some node => do
    let pv ← z.dataOf (some node)
    some (pv, { z with nodes := z.nodes.dealloc node })

/-- A node gets a key and is put on the lists. -/
def useNode : Option (ZHash κ δ) := do
  let nodes ← z.nodes.setKey node (z.nodes.rowOf hash key) key
  let z ← { z with nodes }.linkNode node
  let z ← z.glinkNode node
  some { z with count := z.count + 1 }

/-- `get`: the data, whether the node is new, and the table. -/
def get : Option (Option δ × Bool × ZHash κ δ) := do
  let (node, z) ← z.findNodeRow hash key
  match node with
  | some node => do
    let data ← z.dataOf (some node)
    some (data, false, z)
  | none => do
    let (node, z) ← z.getFreeNode
    match node with
    | none => some (none, false, z)
    | some node => do
      let z ← z.useNode hash node key
      let data ← z.dataOf (some node)
      some (data, true, z)

/-- `find` -/
def find : Option (Option δ × ZHash κ δ) := do
  let (node, z) ← z.findNodeRow hash key
  let data ← z.dataOf node
  some (data, z)

/-- `first` -/
def first : Option (Option δ × ZHash κ δ) := do
  let z := { z with cursor := z.nodes.gtail }
  let data ← z.dataOf z.cursor
  some (data, z)

/-- `next` -/
def next : Option (Option δ × ZHash κ δ) :=
  match z.cursor with
  | none => some (none, z)
  | some node => do
    let c ← z.nodes.links.read (some node)
    let z := { z with cursor := c.prev }
    let data ← z.dataOf z.cursor
    some (data, z)

/-- `current` -/
def current : Option (Option δ) := z.dataOf z.cursor

/-- `touch` -/
def touch : Option (Bool × ZHash κ δ) :=
  match z.cursor with
  | none => some (false, z)
  | some node => do
    let c ← z.nodes.links.read (some node)
    let z := { z with cursor := c.prev }
    if some node ≠ z.nodes.ghead then
      let z ← z.gunlinkNode node
      let z ← z.glinkNode node
      some (true, z)
    else some (false, z)

/-- `remove` of a node -/
def removeNode (p : Option ℕ) : Option (Bool × ZHash κ δ) :=
  match p with
  | none => some (false, z)
  | some node => do
    let z ← z.unlinkNode node
    let z ← z.gunlinkNode node
    let z ← { z with count := z.count - 1 }.saveFreeNode node
    some (true, z)

/-- `remove` at the cursor -/
def remove : Option (Bool × ZHash κ δ) := { z with cursor := none }.removeNode z.cursor

/-- `remove` of a key -/
def removeKey : Option (Bool × ZHash κ δ) := do
  let (node, z) ← z.findNodeRow hash key
  z.removeNode node
end Calls
end ZHash

/-! ## Lists with a cursor -/

/-- The nodes in use, the latest used first, the free nodes, and the node that a walk is at. -/
structure ZTable (κ δ : Type) where
  used : List (Chained.Node κ δ)
  free : List (ℕ × δ)
  cursor : Option ℕ
  nextAddr : ℕ

namespace ZTable
variable {κ δ : Type} [DecidableEq κ]
open Chained (Node)
variable (l : List (Node κ δ))

/-- The node that was used next after `a`. -/
def prevOf (a : ℕ) : Option ℕ :=
  lastOr none ((l.takeWhile fun n => n.addr ≠ a).map Node.cell)

/-- The other nodes. -/
def without (a : ℕ) : List (Node κ δ) := l.filter fun n => n.addr ≠ a

section Calls
variable (t : ZTable κ δ) (n : Node κ δ) (key : κ)

/-- All nodes, in use and free, with their data. -/
def cells : List (ℕ × δ) := t.used.map Node.cell ++ t.free

def new : ZTable κ δ := ⟨[], [], none, 0⟩

/-- The cursor behind a node that is taken off the list. -/
def cursorPast (a : ℕ) : Option ℕ := if t.cursor = some a then prevOf t.used a else t.cursor

def toFront : ZTable κ δ :=
  if t.used.head?.map Node.addr = some n.addr then t
  else { t with used := n :: without t.used n.addr, cursor := t.cursorPast n.addr }

def lookup : Option (Node κ δ) := t.used.find? fun m => m.key = key

/-- The node at the cursor. -/
def at? : Option (Node κ δ) := t.cursor.bind fun a => t.used.find? fun m => m.addr = a

/-- The node is free. -/
def release : ZTable κ δ :=
  { t with
    used := without t.used n.addr
    free := n.cell :: t.free
    cursor := t.cursorPast n.addr }

def find : Option δ × ZTable κ δ :=
  match t.lookup key with
  | some n => (some n.data, t.toFront n)
  | none => (none, t)

def get : Option δ × Bool × ZTable κ δ :=
  match t.lookup key with
  | some n => (some n.data, false, t.toFront n)
  | none =>
    match t.free with
    | [] => (none, false, t)
    | x :: free => (some x.2, true, { t with used := ⟨x.1, key, x.2⟩ :: t.used, free })

def push (p : δ) : ℕ × ZTable κ δ :=
  (t.nextAddr, { t with free := (t.nextAddr, p) :: t.free, nextAddr := t.nextAddr + 1 })

def pop : Option δ × ZTable κ δ :=
  match t.free with
  | [] => (none, t)
  | x :: free => (some x.2, { t with free })

def current : Option δ := t.at?.map Node.data

def first : Option δ × ZTable κ δ :=
  let t := { t with cursor := lastOr none (t.used.map Node.cell) }
  (t.current, t)

def next : Option δ × ZTable κ δ :=
  let t := { t with cursor := t.cursor.bind (prevOf t.used) }
  (t.current, t)

def touch : Bool × ZTable κ δ :=
  match t.at? with
  | none => (false, t)
  | some n =>
    let t := { t with cursor := prevOf t.used n.addr }
    if t.used.head?.map Node.addr = some n.addr then (false, t)
    else (true, { t with used := n :: without t.used n.addr })

def remove : Bool × ZTable κ δ :=
  match t.at? with
  | none => (false, t)
  | some n => (true, { t with cursor := none }.release n)

def removeKey : Bool × ZTable κ δ :=
  match t.lookup key with
  | none => (false, t)
  | some n => (true, t.release n)
end Calls
end ZTable

open ZTable

/-! ## The table as lists with a cursor -/

open Chained (Node)
variable {κ δ : Type} [DecidableEq κ]

/-- The lists of the table, and its cursor. -/
structure ZHash.Rep (hash : κ → ℕ) (z : ZHash κ δ) (t : ZTable κ δ) : Prop where
  nodes : Chained.Rep hash z.nodes t.used t.free []
  nextAddr : z.nodes.nextAddr = t.nextAddr
  count : z.count = t.used.length
  cursor : z.cursor = t.cursor
  cursor_mem : ∀ a, t.cursor = some a → a ∈ t.used.map Node.addr

namespace ZTable
variable {l l₁ l₂ : List (Node κ δ)} {n : Node κ δ} {a b : ℕ}
omit [DecidableEq κ]

section
variable (hnodup : ((l₁ ++ n :: l₂).map Node.addr).Nodup)
include hnodup

theorem addr_ne_of_nodup {m : Node κ δ} (hm : m ∈ l₁ ++ l₂) : m.addr ≠ n.addr := fun heq =>
  notMem_of_nodup hnodup (heq ▸ mem_map_of_mem hm)

theorem prevOf_split : prevOf (l₁ ++ n :: l₂) n.addr = lastOr none (l₁.map Node.cell) := by
  unfold prevOf
  rw [takeWhile_append_of_pos fun m hm =>
      decide_eq_true (addr_ne_of_nodup hnodup (mem_append_left _ hm)),
    takeWhile_cons_of_neg (by simp), append_nil]

theorem without_split : without (l₁ ++ n :: l₂) n.addr = l₁ ++ l₂ := by
  unfold without
  rw [filter_append, List.filter_cons_of_neg (by simp), ← filter_append]
  exact filter_eq_self.mpr fun m hm => decide_eq_true (addr_ne_of_nodup hnodup hm)
end

/-- The node before another one is a different node of the list. -/
theorem prevOf_mem (h : prevOf l a = some b) : b ∈ (without l a).map Node.addr := by
  have hmem := lastOr_none_mem h
  rw [ids_map_cell] at hmem
  obtain ⟨n, hn, rfl⟩ := mem_map.mp hmem
  have hne := mem_takeWhile_imp hn
  exact mem_map_of_mem (mem_filter.mpr ⟨(takeWhile_sublist _).subset hn, hne⟩)

theorem exists_split (ha : a ∈ l.map Node.addr) : ∃ l₁ n l₂, l = l₁ ++ n :: l₂ ∧ n.addr = a := by
  obtain ⟨n, hn, rfl⟩ := mem_map.mp ha
  obtain ⟨l₁, l₂, h⟩ := append_of_mem hn
  exact ⟨l₁, n, l₂, h, rfl⟩

theorem find?_addr (hnodup : (l.map Node.addr).Nodup) (hn : n ∈ l) :
    (l.find? fun m => m.addr = n.addr) = some n := by
  cases hfind : l.find? fun m => m.addr = n.addr with
  | none => exact absurd (find?_eq_none.mp hfind n hn) (by simp)
  | some m =>
    have hm : m.addr = n.addr := by simpa using find?_some hfind
    rw [eq_of_addr_eq hnodup (mem_of_find?_eq_some hfind) hn hm]
end ZTable

namespace ZHash
variable {hash : κ → ℕ} {z : ZHash κ δ} {t : ZTable κ δ} {l₁ l₂ : List (Node κ δ)} {n : Node κ δ}
  {key : κ}
omit [DecidableEq κ]
variable {a : ℕ}

theorem Rep.new (hash : κ → ℕ) {nrows : ℕ} (hpos : 0 < nrows) :
    Rep hash (ZHash.new nrows : ZHash κ δ) ZTable.new :=
  ⟨Chained.Rep.empty hash hpos, rfl, rfl, rfl, nofun⟩

section
variable (h : Rep hash z t)
include h

theorem Rep.cell (ht : t.used = l₁ ++ n :: l₂) :
    z.nodes.links n.addr =
      some ⟨lastOr none (l₁.map Node.cell), firstOr none (l₂.map Node.cell), n.data⟩ := by
  have hused := h.nodes.lists.used
  rw [ht, map_cell_split] at hused
  exact hused.cell

theorem Rep.dataOf (hn : n ∈ t.used) : z.dataOf (some n.addr) = some (some n.data) := by
  obtain ⟨l₁, l₂, ht⟩ := append_of_mem hn
  unfold ZHash.dataOf
  dsimp only
  rw [Heap.read_some, h.cell ht]
  rfl

theorem Rep.ghead : z.nodes.ghead = t.used.head?.map Node.addr := by
  rw [h.nodes.lists.ghead, firstOr_none, ids_map_cell, head?_map]

theorem Rep.nodup : (t.used.map Node.addr).Nodup := h.nodes.nodup_addr

theorem Rep.cursorPast_mem {b : ℕ} (hb : t.cursorPast a = some b) :
    b ∈ (ZTable.without t.used a).map Node.addr := by
  unfold cursorPast at hb
  split at hb
  · exact prevOf_mem hb
  · rename_i hne
    obtain ⟨m, hm, rfl⟩ := mem_map.mp (h.cursor_mem b hb)
    refine mem_map_of_mem (mem_filter.mpr ⟨hm, decide_eq_true fun heq => hne ?_⟩)
    rw [hb, heq]

/-- Taking a node off the list of nodes in use and putting it in front. -/
theorem Rep.gtoFront (ht : t.used = l₁ ++ n :: l₂) :
    ∃ z', (z.gunlinkNode n.addr).bind (fun z => z.glinkNode n.addr) = some z' ∧
      Rep hash z' { t with
        used := n :: ZTable.without t.used n.addr, cursor := t.cursorPast n.addr } := by
  have hnodes := h.nodes
  have hnodup := h.nodup
  have hcursor {b : ℕ} (hb : t.cursorPast n.addr = some b) := h.cursorPast_mem hb
  have hpast : t.cursorPast n.addr =
      if z.cursor = some n.addr then lastOr none (l₁.map Node.cell) else z.cursor := by
    rw [ht] at hnodup
    unfold cursorPast
    rw [ht, prevOf_split hnodup, h.cursor]
  rw [ht] at hnodes hnodup hcursor
  rw [without_split hnodup] at hcursor
  obtain ⟨nodes₁, links, gtail, hunlink, hlink, hrep⟩ := hnodes.globalToFront
  refine ⟨{ z with
      nodes := { z.nodes with links, ghead := some n.addr, gtail }
      cursor := t.cursorPast n.addr }, ?_, ⟨?_, h.nextAddr, ?_, rfl, ?_⟩⟩
  · unfold gunlinkNode glinkNode
    rw [Heap.read_some, h.cell ht]
    simp only [bind_eq_bind, bind_some, hunlink, hlink, map_some, hpast]
  · rw [ht, without_split hnodup]
    exact hrep
  · rw [h.count, ht, without_split hnodup]
    simp only [length_append, length_cons]
    omega
  · intro b hb
    rw [ht, without_split hnodup]
    exact mem_cons_of_mem _ (hcursor hb)

theorem Rep.moveToFront (ht : t.used = l₁ ++ n :: l₂) :
    ∃ z', z.moveToFront n.addr = some z' ∧ Rep hash z' (t.toFront n) := by
  have hnodes := h.nodes
  rw [ht] at hnodes
  obtain ⟨rowLinks, table, hrow, hnodes₁⟩ := hnodes.rowToFront
  have h₁ : Rep hash { z with nodes := { z.nodes with rowLinks, table } } t :=
    ⟨by rw [ht]; exact hnodes₁, h.nextAddr, h.count, h.cursor, h.cursor_mem⟩
  unfold ZHash.moveToFront
  rw [hrow]
  simp only [bind_eq_bind, bind_some]
  unfold toFront
  rw [← h.ghead]
  by_cases hhead : z.nodes.ghead = some n.addr
  · rw [if_pos hhead, if_neg (not_not_intro hhead.symm)]
    exact ⟨_, rfl, h₁⟩
  · rw [if_neg hhead, if_pos (Ne.symm hhead)]
    exact h₁.gtoFront ht

theorem Rep.withCursor {c : Option ℕ} (hc : ∀ a, c = some a → a ∈ t.used.map Node.addr) :
    Rep hash { z with cursor := c } { t with cursor := c } :=
  ⟨h.nodes, h.nextAddr, h.count, rfl, hc⟩

theorem Rep.at_cursor (ha : t.cursor = some a) :
    ∃ l₁ n l₂, t.used = l₁ ++ n :: l₂ ∧ n.addr = a ∧ t.at? = some n := by
  obtain ⟨l₁, n, l₂, ht, rfl⟩ := exists_split (h.cursor_mem a ha)
  refine ⟨l₁, n, l₂, ht, rfl, ?_⟩
  unfold at?
  rw [ha, bind_some, find?_addr h.nodup (ht ▸ mem_append_right _ mem_cons_self)]
end

theorem Rep.at_none (ht : t.cursor = none) : t.at? = none := by
  unfold at?
  rw [ht, bind_none]

section
variable (h : Rep hash z t)
include h

theorem Rep.current : z.current = some t.current := by
  unfold ZHash.current ZTable.current
  rw [h.cursor]
  cases hcursor : t.cursor with
  | none => rw [Rep.at_none hcursor]; rfl
  | some a =>
    obtain ⟨l₁, n, l₂, ht, rfl, hat⟩ := h.at_cursor hcursor
    rw [hat, h.dataOf (ht ▸ mem_append_right _ mem_cons_self)]
    rfl

theorem Rep.first : ∃ z', z.first = some (t.first.1, z') ∧ Rep hash z' t.first.2 := by
  have hgtail : z.nodes.gtail = lastOr none (t.used.map Node.cell) := h.nodes.lists.gtail
  have h₁ : Rep hash { z with cursor := z.nodes.gtail } t.first.2 := by
    rw [hgtail]
    refine h.withCursor fun a ha => ?_
    have hmem := lastOr_none_mem ha
    rwa [ids_map_cell] at hmem
  refine ⟨_, ?_, h₁⟩
  unfold ZHash.first
  have hcur := h₁.current
  unfold ZHash.current at hcur
  simp only [bind_eq_bind, hcur, bind_some]
  rfl

theorem Rep.next : ∃ z', z.next = some (t.next.1, z') ∧ Rep hash z' t.next.2 := by
  unfold ZHash.next
  rw [h.cursor]
  cases hcursor : t.cursor with
  | none =>
    have hnext : t.next = (none, t) := by
      unfold ZTable.next ZTable.current
      simp only [hcursor, bind_none]
      rw [← hcursor, Rep.at_none hcursor]
      rfl
    rw [hnext]
    exact ⟨z, rfl, h⟩
  | some a =>
    obtain ⟨l₁, n, l₂, ht, rfl, hat⟩ := h.at_cursor hcursor
    have hnodup := h.nodup
    have hprev : prevOf t.used n.addr = lastOr none (l₁.map Node.cell) := by
      rw [ht] at hnodup ⊢
      exact prevOf_split hnodup
    have h₁ : Rep hash { z with cursor := lastOr none (l₁.map Node.cell) } t.next.2 := by
      unfold ZTable.next
      rw [hcursor, bind_some, hprev]
      refine h.withCursor fun b hb => ?_
      rw [← hprev] at hb
      exact (filter_sublist.map _).subset (prevOf_mem hb)
    refine ⟨_, ?_, h₁⟩
    have hcur := h₁.current
    unfold ZHash.current at hcur
    dsimp only
    rw [Heap.read_some, h.cell ht]
    simp only [bind_eq_bind, bind_some, hcur]
    rfl

theorem Rep.touch : ∃ z', z.touch = some (t.touch.1, z') ∧ Rep hash z' t.touch.2 := by
  unfold ZHash.touch ZTable.touch
  rw [h.cursor]
  cases hcursor : t.cursor with
  | none =>
    rw [Rep.at_none hcursor]
    exact ⟨z, rfl, h⟩
  | some a =>
    obtain ⟨l₁, n, l₂, ht, rfl, hat⟩ := h.at_cursor hcursor
    have hnodup := h.nodup
    have hprev : prevOf t.used n.addr = lastOr none (l₁.map Node.cell) := by
      rw [ht] at hnodup ⊢
      exact prevOf_split hnodup
    have h₁ : Rep hash { z with cursor := lastOr none (l₁.map Node.cell) }
        { t with cursor := prevOf t.used n.addr } := by
      rw [hprev]
      refine h.withCursor fun b hb => ?_
      rw [← hprev] at hb
      exact (filter_sublist.map _).subset (prevOf_mem hb)
    rw [hat]
    dsimp only
    rw [Heap.read_some, h.cell ht]
    simp only [bind_eq_bind, bind_some]
    rw [h.ghead]
    by_cases hhead : t.used.head?.map Node.addr = some n.addr
    · rw [if_neg (not_not_intro hhead.symm), if_pos hhead]
      exact ⟨_, rfl, h₁⟩
    · rw [if_pos (Ne.symm hhead), if_neg hhead]
      obtain ⟨z', hz', hrep⟩ := h₁.gtoFront ht
      -- The cursor is already past the node.
      have hpast : cursorPast { t with cursor := prevOf t.used n.addr } n.addr =
          prevOf t.used n.addr := if_neg fun heq => by
        obtain ⟨m, hm, haddr⟩ := mem_map.mp (prevOf_mem heq)
        exact of_decide_eq_true (mem_filter.mp hm).2 haddr
      rw [hpast] at hrep
      obtain ⟨z₁, hz₁, hlink⟩ := bind_eq_some_iff.mp hz'
      refine ⟨z', ?_, hrep⟩
      rw [hz₁, bind_some, hlink]
      rfl

theorem Rep.push (p : δ) : ∃ z', z.push p = some ((t.push p).1, z') ∧ Rep hash z' (t.push p).2 := by
  obtain ⟨links, hpush, hrep⟩ := (h.nodes.new p).pushFree
  refine ⟨{ z with nodes := { z.nodes.alloc p with links, fhead := some z.nodes.nextAddr } }, ?_,
    ?_⟩
  · unfold ZHash.push saveFreeNode
    simp only [hpush, map_some, bind_eq_bind, bind_some]
    rw [h.nextAddr]
    rfl
  · refine ⟨?_, congrArg (· + 1) h.nextAddr, h.count, h.cursor, h.cursor_mem⟩
    unfold ZTable.push
    rw [← h.nextAddr]
    exact hrep

theorem Rep.getFreeNode_nil (ht : t.free = []) : z.getFreeNode = some (none, z) := by
  have hlists := h.nodes.lists
  rw [ht] at hlists
  unfold getFreeNode
  rw [hlists.popFree_nil]
  rfl

theorem Rep.pop : ∃ z', z.pop = some (t.pop.1, z') ∧ Rep hash z' t.pop.2 := by
  unfold ZHash.pop ZTable.pop
  cases hfree : t.free with
  | nil =>
    rw [h.getFreeNode_nil hfree]
    exact ⟨z, rfl, h⟩
  | cons x free =>
    have hnodes := h.nodes
    rw [hfree] at hnodes
    obtain ⟨links, hpop, hrep⟩ := hnodes.popFree
    obtain ⟨c, hc, hval⟩ := hrep.loose_cell x mem_cons_self
    refine ⟨{ z with
        nodes := dealloc { z.nodes with links, fhead := firstOr none free } x.1 }, ?_,
      ⟨hrep.dealloc, h.nextAddr, h.count, h.cursor, h.cursor_mem⟩⟩
    unfold getFreeNode ZHash.dataOf
    simp only [hpop, map_some, bind_eq_bind, bind_some, Heap.read_some]
    rw [show links x.1 = some c from hc, ← hval]
    rfl
end

section Keyed
variable [DecidableEq κ]

theorem mem_of_lookup (hn : t.lookup key = some n) : n ∈ t.used ∧ n.key = key :=
  ⟨mem_of_find?_eq_some hn, by simpa using find?_some hn⟩

variable (h : Rep hash z t)
theorem Rep.findNodeRow_none (h : Rep hash z t) (hkey : t.lookup key = none) :
    z.findNodeRow hash key = some (none, z) := by
  unfold findNodeRow
  rw [h.nodes.findRow key, show t.used.find? _ = none from hkey]
  rfl

theorem Rep.findNodeRow_some (h : Rep hash z t) (hkey : t.lookup key = some n) :
    ∃ z', z.findNodeRow hash key = some (some n.addr, z') ∧ Rep hash z' (t.toFront n) := by
  obtain ⟨l₁, l₂, ht⟩ := append_of_mem (mem_of_lookup hkey).1
  obtain ⟨z', hz', hrep⟩ := h.moveToFront ht
  refine ⟨z', ?_, hrep⟩
  unfold findNodeRow
  rw [h.nodes.findRow key, show t.used.find? _ = some n from hkey]
  simp only [map_some, bind_eq_bind, bind_some]
  rw [hz', bind_some]

omit [DecidableEq κ] in
theorem mem_toFront (hn : n ∈ t.used) : n ∈ (t.toFront n).used := by
  unfold toFront
  split
  · exact hn
  · exact mem_cons_self

section
include h

theorem Rep.find (key : κ) :
    ∃ z', z.find hash key = some ((t.find key).1, z') ∧ Rep hash z' (t.find key).2 := by
  unfold ZHash.find ZTable.find
  cases hkey : t.lookup key with
  | none =>
    rw [h.findNodeRow_none hkey]
    exact ⟨z, rfl, h⟩
  | some n =>
    obtain ⟨z', hz', hrep⟩ := h.findNodeRow_some hkey
    refine ⟨z', ?_, hrep⟩
    rw [hz']
    simp only [bind_eq_bind, bind_some]
    rw [hrep.dataOf (mem_toFront (mem_of_lookup hkey).1), bind_some]

/-- A free node is put to use for a key that is not in the table. -/
theorem Rep.useNode {x : ℕ × δ} {free : List (ℕ × δ)} (hfree : t.free = x :: free)
    (hkey : t.lookup key = none) :
    ∃ z₁ z', z.getFreeNode = some (some x.1, z₁) ∧ z₁.useNode hash x.1 key = some z' ∧
      Rep hash z' { t with used := ⟨x.1, key, x.2⟩ :: t.used, free } := by
  have hnodes := h.nodes
  rw [hfree] at hnodes
  obtain ⟨links, hpop, hrep⟩ := hnodes.popFree
  have hout : key ∉ t.used.map Node.key := fun hmem => by
    obtain ⟨m, hm, rfl⟩ := mem_map.mp hmem
    exact find?_eq_none.mp hkey m hm (decide_eq_true rfl)
  obtain ⟨t₁, t₂, rowLinks, table, links', gtail, hset, hrow, hglobal, hrep'⟩ := hrep.attach hout
  refine ⟨{ z with nodes := { z.nodes with links, fhead := firstOr none free } },
    { z with
      nodes := { z.nodes with
        fhead := firstOr none free, rowLinks, table, links := links', ghead := some x.1, gtail }
      count := z.count + 1 }, ?_, ?_, ⟨hrep', h.nextAddr, congrArg (· + 1) h.count, h.cursor, ?_⟩⟩
  · unfold getFreeNode
    rw [hpop]
    rfl
  · unfold ZHash.useNode linkNode glinkNode
    simp only [hset, hrow, hglobal, map_some, bind_eq_bind, bind_some]
  · exact fun a ha => mem_cons_of_mem _ (h.cursor_mem a ha)

theorem Rep.get (key : κ) :
    ∃ z', z.get hash key = some ((t.get key).1, (t.get key).2.1, z') ∧
      Rep hash z' (t.get key).2.2 := by
  unfold ZHash.get ZTable.get
  cases hkey : t.lookup key with
  | some n =>
    obtain ⟨z', hz', hrep⟩ := h.findNodeRow_some hkey
    refine ⟨z', ?_, hrep⟩
    rw [hz']
    simp only [bind_eq_bind, bind_some]
    rw [hrep.dataOf (mem_toFront (mem_of_lookup hkey).1), bind_some]
  | none =>
    rw [h.findNodeRow_none hkey]
    cases hfree : t.free with
    | nil =>
      simp only [bind_eq_bind, bind_some]
      rw [h.getFreeNode_nil hfree]
      exact ⟨z, rfl, h⟩
    | cons x free =>
      obtain ⟨z₁, z', hpop, huse, hrep⟩ := h.useNode hfree hkey
      refine ⟨z', ?_, hrep⟩
      simp only [bind_eq_bind, bind_some, hpop, huse]
      have hdata := hrep.dataOf (n := ⟨x.1, key, x.2⟩) mem_cons_self
      rw [hdata, bind_some]

omit [DecidableEq κ] in
theorem Rep.removeNode (ht : t.used = l₁ ++ n :: l₂) :
    ∃ z', z.removeNode (some n.addr) = some (true, z') ∧ Rep hash z' (t.release n) := by
  have hnodes := h.nodes
  have hnodup := h.nodup
  have hcursor {b : ℕ} (hb : t.cursorPast n.addr = some b) := h.cursorPast_mem hb
  have hpast : t.cursorPast n.addr =
      if z.cursor = some n.addr then lastOr none (l₁.map Node.cell) else z.cursor := by
    rw [ht] at hnodup
    unfold cursorPast
    rw [ht, prevOf_split hnodup, h.cursor]
  rw [ht] at hnodes hnodup
  obtain ⟨rowLinks, table, links, ghead, gtail, hrow, hglobal, -, -, hrep⟩ := hnodes.detach
  obtain ⟨links', hpush, hrep'⟩ := hrep.pushFree
  refine ⟨⟨{ z.nodes with rowLinks, table, links := links', ghead, gtail, fhead := some n.addr },
    z.count - 1, t.cursorPast n.addr⟩, ?_, ⟨?_, h.nextAddr, ?_, rfl, fun b hb => hcursor hb⟩⟩
  · unfold ZHash.removeNode unlinkNode gunlinkNode saveFreeNode
    simp only [hrow, map_some, bind_eq_bind, bind_some, Heap.read_some, h.cell ht, hglobal]
    rw [show pushFree _ n.addr = _ from hpush]
    rw [hpast]
    rfl
  · unfold release
    rw [ht, without_split hnodup]
    exact hrep'
  · unfold release
    rw [h.count, ht, without_split hnodup]
    simp only [length_append, length_cons]
    omega

omit [DecidableEq κ] in
theorem Rep.remove : ∃ z', z.remove = some (t.remove.1, z') ∧ Rep hash z' t.remove.2 := by
  unfold ZHash.remove ZTable.remove
  rw [h.cursor]
  cases hcursor : t.cursor with
  | none =>
    rw [Rep.at_none hcursor]
    have hnull : { z with cursor := none } = z := by rw [← hcursor, ← h.cursor]
    rw [hnull]
    exact ⟨z, rfl, h⟩
  | some a =>
    obtain ⟨l₁, n, l₂, ht, rfl, hat⟩ := h.at_cursor hcursor
    rw [hat]
    exact (h.withCursor (c := none) nofun).removeNode ht

omit [DecidableEq κ] in
/-- A node that is moved to the front first is released all the same. -/
theorem Rep.release_toFront : (t.toFront n).release n = t.release n := by
  unfold toFront
  split
  · rfl
  · have hpast : t.cursorPast n.addr ≠ some n.addr := fun heq => by
      obtain ⟨m, hm, haddr⟩ := mem_map.mp (h.cursorPast_mem heq)
      exact of_decide_eq_true (mem_filter.mp hm).2 haddr
    unfold release
    simp only [ZTable.mk.injEq, and_true, true_and]
    refine ⟨?_, if_neg hpast⟩
    unfold ZTable.without
    rw [List.filter_cons_of_neg (by simp), List.filter_filter]
    simp only [Bool.and_self]

theorem Rep.removeKey (key : κ) :
    ∃ z', z.removeKey hash key = some ((t.removeKey key).1, z') ∧
      Rep hash z' (t.removeKey key).2 := by
  unfold ZHash.removeKey ZTable.removeKey
  cases hkey : t.lookup key with
  | none =>
    rw [h.findNodeRow_none hkey]
    exact ⟨z, rfl, h⟩
  | some n =>
    obtain ⟨z₁, hz₁, hrep⟩ := h.findNodeRow_some hkey
    obtain ⟨l₁, l₂, ht⟩ := append_of_mem (mem_toFront (mem_of_lookup hkey).1)
    obtain ⟨z', hz', hrep'⟩ := hrep.removeNode ht
    rw [h.release_toFront] at hrep'
    refine ⟨z', ?_, hrep'⟩
    rw [hz₁]
    exact hz'
end
end Keyed
end ZHash
end Snort.Hash
