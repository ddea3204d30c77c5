import Snort.Structures.ChainedRep

/-!
# The general hash table

`xhash.cc`: a chained hash table with a limit on its nodes and on their memory, and a
list of all nodes, the latest used first. If a node is needed and none may be
allocated, the table recovers the oldest one that the user lets go. The table is
described by the list of its nodes in use and that of the free ones.
-/

namespace Snort.Hash
open List Option DoublyLinked Chained

/-- The pointer to the data of a node: null, or to data, which may not have been written yet. -/
abbrev XData (δ : Type) := Option (Option δ)

/-- What a table is made with. Where `datasize` is not zero the data is in the node itself. -/
structure XConfig where
  nodeSize : ℕ
  inlineData : Bool
  memcap : ℕ
  anrFlag : Bool
  anrfree : Bool
  recycleNodes : Bool

/-- The table, with the key that the last call recovered. -/
structure XHash (κ δ : Type) where
  nodes : Chained κ (XData δ)
  count : ℕ
  maxNodes : ℕ
  memused : ℕ
  gnode : Option ℕ
  splay : ℤ
  anrTries : ℕ
  anrCount : ℕ
  recovered : Option κ

inductive XResult where
  | nomem | err | ok | intable
deriving DecidableEq

namespace XHash
variable {κ δ : Type} [DecidableEq κ]

/-! ## Programs -/

section Programs
variable (cfg : XConfig) (hash : κ → ℕ) (x : XHash κ δ) (node : ℕ) (key : κ)

/-- `s_alloc` has the memory. -/
def hasMemory (cfg : XConfig) (memused size : ℕ) : Prop :=
  cfg.memcap = 0 ∨ memused + size ≤ cfg.memcap

instance (cfg : XConfig) (memused size : ℕ) : Decidable (hasMemory cfg memused size) :=
  inferInstanceAs (Decidable (_ ∨ _))

/-- `xhash_new`, or null if there is no memory for the rows. -/
def new (nrows : ℕ) : Option (XHash κ δ) :=
  if hasMemory cfg 0 (8 * nrows + 8) then
    some {
      nodes := empty nrows
      count := 0
      maxNodes := 0
      memused := 8 * nrows + 8
      gnode := none
      splay := 1
      anrTries := 0
      anrCount := 0
      recovered := none }
  else none

/-- `xhash_set_max_nodes` -/
def setMaxNodes (maxNodes : ℕ) : XHash κ δ := { x with maxNodes }

/-- `xhash_save_free_node` -/
def saveFreeNode : Option (XHash κ δ) := (x.nodes.pushFree node).map fun nodes => { x with nodes }

/-- `xhash_get_free_node` -/
def getFreeNode : Option (Option ℕ × XHash κ δ) :=
  x.nodes.popFree.map fun r => (r.1, { x with nodes := r.2 })

/-- `xhash_glink_node` -/
def glinkNode : Option (XHash κ δ) := (x.nodes.linkGlobal node).map fun nodes => { x with nodes }

/-- `xhash_gunlink_node` -/
def gunlinkNode : Option (XHash κ δ) := do
  let c ← x.nodes.links.read (some node)
  let nodes ← x.nodes.unlinkGlobal node
  some { x with nodes, gnode := if x.gnode = some node then c.next else x.gnode }

/-- `xhash_gmovetofront` -/
def gmovetofront : Option (XHash κ δ) :=
  if some node ≠ x.nodes.ghead then do
    let x ← x.gunlinkNode node
    x.glinkNode node
  else some x

/-- `xhash_link_node` -/
def linkNode : Option (XHash κ δ) := (x.nodes.linkRow node).map fun nodes => { x with nodes }

/-- `xhash_unlink_node` -/
def unlinkNode : Option (XHash κ δ) := (x.nodes.unlinkRow node).map fun nodes => { x with nodes }

/-- `movetofront` -/
def movetofront : Option (XHash κ δ) := do
  let nodes ← x.nodes.rowToFront node
  let c ← nodes.links.read (some node)
  let gnode := if some node = x.gnode then c.next else x.gnode
  { x with nodes, gnode }.gmovetofront node

/-- The node that is found comes to the front if the table splays. -/
def splayNode : Option (XHash κ δ) := if 0 < x.splay then x.movetofront node else some x

/-- `xhash_find_node_row` -/
def findNodeRow : Option (Option ℕ × XHash κ δ) := do
  match ← x.nodes.findRow hash key with
  | some node => do
    let x ← x.splayNode node
    some (some node, x)
  | none => some (none, x)

/-- The loop that looks for the oldest node that the user lets go. `refuse` is what `anrfree`
answers. -/
def recover (refuse : κ → XData δ → Bool) : ℕ → Option ℕ → XHash κ δ → Option (Option ℕ × XHash κ δ)
  | _, none, x => some (none, x)
  | 0, some _, _ => none
  | fuel + 1, some node, x => do
    let c ← x.nodes.links.read (some node)
    let row ← x.nodes.rowLinks.read (some node)
    let key ← row.val.key
    let x := { x with anrTries := if cfg.anrfree then x.anrTries + 1 else x.anrTries }
    if cfg.anrfree ∧ refuse key c.val then recover refuse fuel c.prev x
    else do
      let x ← x.gunlinkNode node
      let x ← x.unlinkNode node
      some (some node,
        { x with count := x.count - 1, anrCount := x.anrCount + 1, recovered := some key })

/-- `xhash_newnode` -/
def newnode (refuse : κ → XData δ → Bool) : Option (Option ℕ × XHash κ δ) := do
  let (node, x) ← x.getFreeNode
  match node with
  | some node => some (some node, x)
  | none =>
    if (x.maxNodes = 0 ∨ x.count < x.maxNodes) ∧ hasMemory cfg x.memused cfg.nodeSize then
      some (some x.nodes.nextAddr,
        { x with nodes := x.nodes.alloc none, memused := x.memused + cfg.nodeSize })
    else if cfg.anrFlag ∧ x.nodes.gtail ≠ none then
      recover cfg refuse x.nodes.nextAddr x.nodes.gtail x
    else some (none, x)

variable (data : Option δ)

/-- The data pointer of a node that is put to use: data in the node is copied if there is some, and
otherwise left as it was. -/
def newData (old : XData δ) : XData δ :=
  if cfg.inlineData then
    match data with
    | some d => some (some d)
    | none => some old.join
  else data.map some

/-- A new node is set up and put on the lists: the second half of `xhash_add_ex` and of
`xhash_get_node`. -/
def useNode : Option (XHash κ δ) := do
  let nodes ← x.nodes.setKey node (x.nodes.rowOf hash key) key
  let nodes ← nodes.setData node (newData cfg data)
  let x ← { x with nodes }.linkNode node
  let x ← x.glinkNode node
  some { x with count := x.count + 1 }

/-- A node for a key that is not in the table. -/
def insert (refuse : κ → XData δ → Bool) : Option (Option ℕ × XHash κ δ) := do
  let (node, x) ← x.newnode cfg refuse
  match node with
  | none => some (none, x)
  | some node => do
    let x ← x.useNode cfg hash node key data
    some (some node, x)

/-- `xhash_add` -/
def add (refuse : κ → XData δ → Bool) : Option (XResult × XHash κ δ) := do
  let (node, x) ← x.findNodeRow hash key
  match node with
  | some _ => some (.intable, x)
  | none => do
    let (node, x) ← x.insert cfg hash key data refuse
    match node with
    | none => some (.nomem, x)
    | some _ => some (.ok, x)

/-- `xhash_get_node` -/
def getNode (refuse : κ → XData δ → Bool) : Option (Option ℕ × XHash κ δ) := do
  let (node, x) ← x.findNodeRow hash key
  match node with
  | some node => some (some node, x)
  | none => x.insert cfg hash key none refuse

/-- `xhash_find` -/
def find : Option (XData δ × XHash κ δ) := do
  let (node, x) ← x.findNodeRow hash key
  match node with
  | some node => do
    let c ← x.nodes.links.read (some node)
    some (c.val, x)
  | none => some (none, x)

/-- `xhash_free_node` -/
def freeNode : Option (XHash κ δ) := do
  let x ← x.unlinkNode node
  let x ← x.gunlinkNode node
  let x := { x with count := x.count - 1 }
  if cfg.recycleNodes then x.saveFreeNode node
  else some { x with nodes := x.nodes.dealloc node, memused := x.memused - cfg.nodeSize }

/-- `xhash_remove`, which looks for the key without splaying. -/
def remove : Option (XResult × XHash κ δ) := do
  match ← x.nodes.findRow hash key with
  | some node => do
    let x ← x.freeNode cfg node
    some (.ok, x)
  | none => some (.err, x)
end Programs

section Emptying
variable (cfg : XConfig)

/-- The nodes of a row are freed one after the other. -/
def emptyRow : ℕ → Option ℕ → XHash κ δ → Option (XHash κ δ)
  | _, none, x => some x
  | 0, some _, _ => none
  | fuel + 1, some node, x => do
    let c ← x.nodes.rowLinks.read (some node)
    let x ← x.freeNode cfg node
    emptyRow fuel c.next x

def emptyRows : List ℕ → XHash κ δ → Option (XHash κ δ)
  | [], x => some x
  | i :: rows, x => do
    let head ← x.nodes.rowHead i
    let x ← x.emptyRow cfg x.nodes.nextAddr head
    emptyRows rows x

/-- `xhash_make_empty`. The limit on the nodes goes as well. -/
def makeEmpty (x : XHash κ δ) : Option (XHash κ δ) := do
  let x ← x.emptyRows cfg (range x.nodes.nrows)
  some { x with
    nodes := { x.nodes with ghead := none, gtail := none }
    maxNodes := 0
    count := 0
    anrCount := 0
    anrTries := 0 }
end Emptying

/-! ## The table as lists -/

open Chained (Node)

/-- The nodes in use, the latest first, and the free nodes. -/
structure Rep (hash : κ → ℕ) (x : XHash κ δ) (used : List (Node κ (XData δ)))
    (free : List (ℕ × XData δ)) : Prop where
  nodes : Chained.Rep hash x.nodes used free []
  count : x.count = used.length
  splay : 0 < x.splay

/-- Nodes that `anrfree` does not let go. -/
def Refused (cfg : XConfig) (refuse : κ → XData δ → Bool) (n : Node κ (XData δ)) : Prop :=
  cfg.anrfree = true ∧ refuse n.key n.data = true

instance (cfg : XConfig) (refuse : κ → XData δ → Bool) : DecidablePred (Refused cfg refuse) :=
  fun _ => inferInstanceAs (Decidable (_ ∧ _))

section Rep
variable {cfg : XConfig} {hash : κ → ℕ} {x : XHash κ δ} {used l₁ l₂ : List (Node κ (XData δ))}
  {free : List (ℕ × XData δ)} {n : Node κ (XData δ)} {key : κ} {refuse : κ → XData δ → Bool}
omit [DecidableEq κ]
variable {nodes : Chained κ (XData δ)} {loose free' : List (ℕ × XData δ)} {a fuel : ℕ}
  {x' : XHash κ δ} {used' : List (Node κ (XData δ))} {y : ℕ × XData δ}

theorem links_of_rep (h : Chained.Rep hash nodes (l₁ ++ n :: l₂) free loose) :
    nodes.links n.addr =
      some ⟨lastOr none (l₁.map Node.cell), firstOr none (l₂.map Node.cell), n.data⟩ := by
  have hused := h.lists.used
  rw [map_cell_split] at hused
  exact hused.cell

theorem eq_nil_of_ghead
    (h : Chained.Rep hash nodes (l₁ ++ n :: l₂) free loose) (hhead : nodes.ghead = some n.addr) :
    l₁ = [] := by
  cases l₁ with
  | nil => rfl
  | cons m l₁ =>
    have hm : some m.addr = some n.addr := h.lists.ghead.symm.trans hhead
    have hnodup := h.nodup_addr
    have hne : m.addr ∉ ((l₁ ++ n :: l₂).map Node.addr) := (nodup_cons.mp hnodup).1
    refine absurd ?_ hne
    rw [Option.some.inj hm]
    exact mem_map_of_mem (mem_append_right _ mem_cons_self)

theorem gunlinkNode_eq {c : Cell (XData δ)}
    (hc : x.nodes.links a = some c) (hunlink : x.nodes.unlinkGlobal a = some nodes) :
    x.gunlinkNode a =
      some { x with nodes, gnode := if x.gnode = some a then c.next else x.gnode } := by
  unfold gunlinkNode
  rw [Heap.read_some, hc]
  simp only [bind_eq_bind, bind_some, hunlink]

theorem glinkNode_eq (hlink : x.nodes.linkGlobal a = some nodes) :
    x.glinkNode a = some { x with nodes } := by
  unfold glinkNode
  rw [hlink]
  rfl

theorem unlinkNode_eq (hunlink : x.nodes.unlinkRow a = some nodes) :
    x.unlinkNode a = some { x with nodes } := by
  unfold unlinkNode
  rw [hunlink]
  rfl

theorem Rep.movetofront (h : Rep hash x (l₁ ++ n :: l₂) free) :
    ∃ nodes gnode, x.movetofront n.addr = some { x with nodes, gnode } ∧
      Rep hash { x with nodes, gnode } (n :: (l₁ ++ l₂)) free := by
  obtain ⟨rowLinks, table, hrow, hnodes⟩ := h.nodes.rowToFront
  unfold XHash.movetofront gmovetofront
  rw [hrow]
  simp only [bind_eq_bind, bind_some]
  rw [Heap.read_some, links_of_rep h.nodes, bind_some]
  by_cases hhead : x.nodes.ghead = some n.addr
  · obtain rfl := eq_nil_of_ghead h.nodes hhead
    rw [if_neg (not_not_intro hhead.symm)]
    exact ⟨_, _, rfl, hnodes, h.count, h.splay⟩
  · obtain ⟨nodes₁, links, gtail, hunlink, hlink, hrep⟩ := hnodes.globalToFront
    have hcount : x.count = (n :: (l₁ ++ l₂)).length := by
      rw [h.count]
      exact perm_middle.length_eq
    rw [if_pos (Ne.symm hhead), gunlinkNode_eq (links_of_rep hnodes) hunlink, bind_some]
    exact ⟨_, _, glinkNode_eq hlink, hrep, hcount, h.splay⟩

theorem Rep.detach (h : Rep hash x (l₁ ++ n :: l₂) free) :
    ∃ nodes gnode, (x.gunlinkNode n.addr).bind (fun x => x.unlinkNode n.addr) =
        some { x with nodes, gnode } ∧
      (x.unlinkNode n.addr).bind (fun x => x.gunlinkNode n.addr) = some { x with nodes, gnode } ∧
      nodes.nrows = x.nodes.nrows ∧
      (∃ nodes', x.nodes.unlinkRow n.addr = some nodes' ∧ nodes.table = nodes'.table) ∧
      Chained.Rep hash nodes (l₁ ++ l₂) free [n.cell] := by
  obtain ⟨rowLinks, table, links, ghead, gtail, hrow, hglobal, hglobal', hrow', hrep⟩ :=
    h.nodes.detach
  have hcell := links_of_rep h.nodes
  refine ⟨{ x.nodes with rowLinks, table, links, ghead, gtail },
    if x.gnode = some n.addr then firstOr none (l₂.map Node.cell) else x.gnode, ?_, ?_, rfl,
    ⟨_, hrow, rfl⟩, hrep⟩
  · rw [gunlinkNode_eq hcell hglobal', bind_some]
    exact unlinkNode_eq hrow'
  · rw [unlinkNode_eq hrow, bind_some]
    exact gunlinkNode_eq (x := { x with nodes := { x.nodes with rowLinks, table } }) hcell hglobal

/-! ## Recovery -/

/-- The loop from a node on: all the older ones were refused. -/
theorem Rep.recoverFrom (h : Rep hash x (l₁ ++ l₂) free) (cfg : XConfig)
    (refuse : κ → XData δ → Bool) (hold : ∀ m ∈ l₂, Refused cfg refuse m)
    (hfuel : l₁.length ≤ fuel) :
    (∃ anrTries, recover cfg refuse fuel (lastOr none (l₁.map Node.cell)) x =
        some (none, { x with anrTries }) ∧ ∀ m ∈ l₁, Refused cfg refuse m) ∨
    ∃ l n l' nodes gnode anrTries, l₁ ++ l₂ = l ++ n :: l' ∧ ¬Refused cfg refuse n ∧
      (∀ m ∈ l', Refused cfg refuse m) ∧
      recover cfg refuse fuel (lastOr none (l₁.map Node.cell)) x = some (some n.addr, { x with
        nodes, gnode, anrTries, count := x.count - 1, anrCount := x.anrCount + 1,
        recovered := some n.key }) ∧
      Chained.Rep hash nodes (l ++ l') free [n.cell] := by
  -- The induction is on the nodes not asked for yet, from the oldest of them.
  induction l₁ using List.reverseRecOn generalizing l₂ fuel x with
  | nil =>
    refine .inl ⟨x.anrTries, ?_, nofun⟩
    cases fuel <;> rfl
  | append_singleton l₁ n ih =>
    rw [length_append] at hfuel
    obtain ⟨fuel, rfl⟩ := Nat.exists_eq_succ_of_ne_zero
      (Nat.ne_zero_of_lt (Nat.lt_of_lt_of_le (Nat.lt_add_of_pos_right Nat.one_pos) hfuel))
    rw [append_assoc, singleton_append] at h ⊢
    have hlast : lastOr none ((l₁ ++ [n]).map Node.cell) = some n.addr := by
      rw [map_append]
      exact lastOr_concat _ _ _
    obtain ⟨row, hrow, hval⟩ := h.nodes.rows.cell h.nodes.nrows_pos
      (mem_append_right l₁ mem_cons_self : n ∈ l₁ ++ n :: l₂)
    rw [hlast, recover, Heap.read_some, links_of_rep h.nodes, Heap.read_some, hrow]
    simp only [bind_eq_bind, bind_some, hval]
    generalize (if cfg.anrfree then x.anrTries + 1 else x.anrTries) = anrTries
    have h₁ : Rep hash { x with anrTries } (l₁ ++ n :: l₂) free := ⟨h.nodes, h.count, h.splay⟩
    by_cases hrefused : Refused cfg refuse n
    · rw [if_pos (show cfg.anrfree = true ∧ refuse n.key n.data = true from hrefused)]
      rcases ih h₁ (forall_mem_cons.mpr ⟨hrefused, hold⟩) (Nat.le_of_succ_le_succ hfuel) with
        ⟨anrTries, hloop, hall⟩ | ⟨l, m, l', nodes, gnode, anrTries, hsplit, hm, hl', hloop, hrep⟩
      · refine .inl ⟨anrTries, hloop, fun m hm => ?_⟩
        rcases mem_append.mp hm with hm | hm
        · exact hall m hm
        · rwa [mem_singleton.mp hm]
      · exact .inr ⟨l, m, l', nodes, gnode, anrTries, hsplit, hm, hl', hloop, hrep⟩
    · rw [if_neg (show ¬(cfg.anrfree = true ∧ refuse n.key n.data = true) from hrefused)]
      obtain ⟨nodes, gnode, hdetach, -, -, -, hrep⟩ := h₁.detach
      obtain ⟨x₁, hgunlink, hunlink⟩ := bind_eq_some_iff.mp hdetach
      refine .inr ⟨l₁, n, l₂, nodes, gnode, anrTries, rfl, hrefused, hold, ?_, hrep⟩
      rw [hgunlink, bind_some, hunlink]
      rfl

variable (h : Rep hash x used free)
theorem Rep.length_le (h : Rep hash x used free) : used.length ≤ x.nodes.nextAddr := by
  have hsub : used.map Node.addr ⊆ range x.nodes.nextAddr := fun a ha => by
    obtain ⟨m, hm, rfl⟩ := mem_map.mp ha
    exact mem_range.mpr (h.nodes.addr_lt hm)
  have hle := (List.Nodup.subperm h.nodes.nodup_addr hsub).length_le
  rwa [length_map, length_range] at hle

/-- What `newnode` leaves if it returns a node: the other nodes in use and free ones. If none was
free and none could be allocated, the oldest one that was not refused is gone. -/
structure Made (cfg : XConfig) (hash : κ → ℕ) (refuse : κ → XData δ → Bool) (x x' : XHash κ δ)
    (used used' : List (Node κ (XData δ))) (free free' : List (ℕ × XData δ)) (y : ℕ × XData δ) :
    Prop where
  nodes : Chained.Rep hash x'.nodes used' free' [y]
  count : x'.count = used'.length
  splay : x'.splay = x.splay
  maxNodes : x'.maxNodes = x.maxNodes
  room : x.maxNodes ≠ 0 → used.length + free.length ≤ x.maxNodes →
    used'.length + free'.length < x.maxNodes
  cause : (used' = used ∧ x'.recovered = x.recovered) ∨
    ∃ l₁ n l₂, used = l₁ ++ n :: l₂ ∧ used' = l₁ ++ l₂ ∧ x'.recovered = some n.key ∧
      ¬Refused cfg refuse n ∧ ∀ m ∈ l₂, Refused cfg refuse m

/-- `newnode` returns a node, or null and then changes nothing but a counter. -/
theorem Rep.newnode (h : Rep hash x used free) (cfg : XConfig) (refuse : κ → XData δ → Bool) :
    (∃ anrTries, x.newnode cfg refuse = some (none, { x with anrTries })) ∨
    ∃ x' used' free' y, x.newnode cfg refuse = some (some y.1, x') ∧
      Made cfg hash refuse x x' used used' free free' y := by
  unfold XHash.newnode getFreeNode
  cases free with
  | cons y rest =>
    obtain ⟨links, hpop, hrep⟩ := h.nodes.popFree
    refine .inr ⟨{ x with nodes := _ }, used, rest, y, ?_, hrep, h.count, rfl, rfl, fun _ hle => ?_,
      .inl ⟨rfl, rfl⟩⟩
    · rw [hpop]
      rfl
    · rw [length_cons] at hle
      omega
  | nil =>
    rw [h.nodes.lists.popFree_nil]
    simp only [map_some, bind_eq_bind, bind_some]
    split_ifs with halloc hanr
    · refine .inr ⟨_, used, [], (x.nodes.nextAddr, none), rfl, h.nodes.new none, h.count, rfl, rfl,
        fun hne _ => ?_, .inl ⟨rfl, rfl⟩⟩
      have hlt := halloc.1.resolve_left hne
      rwa [h.count] at hlt
    · have hgtail : x.nodes.gtail = lastOr none (used.map Node.cell) := h.nodes.lists.gtail
      have h₁ : Rep hash x (used ++ []) [] := by rwa [append_nil]
      rw [hgtail]
      rcases h₁.recoverFrom cfg refuse nofun h.length_le with
        ⟨anrTries, hloop, -⟩ | ⟨l, n, l', nodes, gnode, anrTries, hsplit, hn, hl', hloop, hrep⟩
      · exact .inl ⟨anrTries, hloop⟩
      · rw [append_nil] at hsplit
        subst hsplit
        refine .inr ⟨_, l ++ l', [], n.cell, hloop, hrep, ?_, rfl, rfl, fun _ hle => ?_,
          .inr ⟨l, n, l', rfl, rfl, rfl, hn, hl'⟩⟩
        · rw [h.count, length_append, length_append, length_cons]
          rfl
        · simp only [length_append, length_cons, length_nil] at hle ⊢
          omega
    · exact .inl ⟨x.anrTries, rfl⟩

/-- Without a free node, a node is allocated if that is allowed. -/
theorem Rep.newnode_alloc (h : Rep hash x used []) (refuse : κ → XData δ → Bool)
    (halloc : (x.maxNodes = 0 ∨ x.count < x.maxNodes) ∧ hasMemory cfg x.memused cfg.nodeSize) :
    ∃ x', x.newnode cfg refuse = some (some x.nodes.nextAddr, x') ∧
      Made cfg hash refuse x x' used used [] [] (x.nodes.nextAddr, none) := by
  unfold XHash.newnode getFreeNode
  rw [h.nodes.lists.popFree_nil]
  simp only [map_some, bind_eq_bind, bind_some]
  rw [if_pos halloc]
  refine ⟨_, rfl, h.nodes.new none, h.count, rfl, rfl, fun hne _ => ?_, .inl ⟨rfl, rfl⟩⟩
  have hlt := halloc.1.resolve_left hne
  rwa [h.count] at hlt

/-! ## Putting a node to use -/

theorem Made.subset (h : Made cfg hash refuse x x' used used' free free' y) :
    used'.Sublist used := by
  rcases h.cause with ⟨rfl, -⟩ | ⟨l₁, n, l₂, rfl, rfl, -⟩
  · exact .refl _
  · exact (sublist_cons_self _ _).append_left _

theorem Made.useNode (h : Made cfg hash refuse x x' used used' free free' y) (hsplay : 0 < x.splay)
    (hkey : key ∉ used.map Node.key) (data : Option δ) :
    ∃ nodes, x'.useNode cfg hash y.1 key data = some { x' with nodes, count := x'.count + 1 } ∧
      Rep hash { x' with nodes, count := x'.count + 1 } (⟨y.1, key, newData cfg data y.2⟩ :: used')
        free' := by
  have hout : key ∉ used'.map Node.key := fun hmem => hkey ((h.subset.map _).subset hmem)
  obtain ⟨links, hdata, hrep⟩ := h.nodes.setData (newData cfg data)
  obtain ⟨t₁, t₂, rowLinks, table, links', gtail, hset, hrow, hglobal, hrep'⟩ := hrep.attach hout
  obtain ⟨t₀, hkey₀, hdata₀⟩ := setKey_setData hdata hset
  refine ⟨_, ?_, hrep', congrArg (· + 1) h.count, h.splay ▸ hsplay⟩
  unfold XHash.useNode linkNode
  simp only [bind_eq_bind]
  rw [show x'.nodes.setKey y.1 (x'.nodes.rowOf hash key) key = some t₀ from hkey₀, bind_some,
    hdata₀, bind_some, show t₁.linkRow y.1 = some t₂ from hrow, map_some, bind_some,
    glinkNode_eq (x := { x' with nodes := t₂ }) hglobal, bind_some]

/-- A key that is not in the table is put there, unless there is no node for it. -/
theorem Rep.insert (h : Rep hash x used free) (hkey : key ∉ used.map Node.key) (cfg : XConfig)
    (data : Option δ) (refuse : κ → XData δ → Bool) :
    (∃ anrTries, x.insert cfg hash key data refuse = some (none, { x with anrTries })) ∨
    ∃ x₁ x' used' free' y, Made cfg hash refuse x x₁ used used' free free' y ∧
      x.insert cfg hash key data refuse = some (some y.1, x') ∧
      Rep hash x' (⟨y.1, key, newData cfg data y.2⟩ :: used') free' ∧
      x'.maxNodes = x.maxNodes ∧ x'.recovered = x₁.recovered := by
  unfold XHash.insert
  rcases h.newnode cfg refuse with ⟨anrTries, hnew⟩ | ⟨x₁, used', free', y, hnew, hmade⟩
  · rw [hnew]
    exact .inl ⟨anrTries, rfl⟩
  · obtain ⟨nodes, huse, hrep⟩ := hmade.useNode h.splay hkey data
    rw [hnew]
    simp only [bind_eq_bind, bind_some]
    rw [huse]
    exact .inr ⟨x₁, _, used', free', y, hmade, rfl, hrep, hmade.maxNodes, rfl⟩

/-! ## Freeing -/

theorem Rep.freeNode (h : Rep hash x (l₁ ++ n :: l₂) free) (cfg : XConfig) :
    ∃ nodes gnode memused free', x.freeNode cfg n.addr = some { x with
        nodes, gnode, memused, count := x.count - 1 } ∧
      Rep hash { x with nodes, gnode, memused, count := x.count - 1 } (l₁ ++ l₂) free' ∧
      free'.length ≤ free.length + 1 ∧ nodes.nrows = x.nodes.nrows ∧
      ∃ nodes', x.nodes.unlinkRow n.addr = some nodes' ∧ nodes.table = nodes'.table := by
  obtain ⟨nodes, gnode, -, hdetach, hnrows, htable, hrep⟩ := h.detach
  obtain ⟨x₁, hunlink, hgunlink⟩ := bind_eq_some_iff.mp hdetach
  have hcount : x.count - 1 = (l₁ ++ l₂).length := by
    rw [h.count, length_append, length_append, length_cons]
    rfl
  unfold XHash.freeNode saveFreeNode
  simp only [bind_eq_bind]
  rw [hunlink, bind_some, hgunlink, bind_some]
  split_ifs with hrecycle
  · obtain ⟨links, hpush, hrep'⟩ := hrep.pushFree
    refine ⟨_, gnode, x.memused, n.cell :: free, ?_, ⟨hrep', hcount, h.splay⟩,
      Nat.le_refl _, hnrows, htable⟩
    rw [show nodes.pushFree n.addr = _ from hpush]
    rfl
  · exact ⟨_, gnode, _, free, rfl, ⟨hrep.dealloc, hcount, h.splay⟩, Nat.le_succ _, hnrows, htable⟩

section
include h
variable (cfg : XConfig)

theorem Rep.emptyRow {i : ℕ} (hi : i < x.nodes.nrows) (hfuel : used.length ≤ fuel) :
    ∃ nodes gnode memused count used' free',
      x.emptyRow cfg fuel (x.nodes.table i) = some { x with nodes, gnode, memused, count } ∧
      Rep hash { x with nodes, gnode, memused, count } used' free' ∧ used'.Sublist used ∧
      (∀ m ∈ used', x.nodes.rowOf hash m.key ≠ i) ∧ nodes.nrows = x.nodes.nrows := by
  obtain ⟨rows, hrows, hmem⟩ := h.nodes.rows
  have hhead := hrows.head i hi
  have hseg := hrows.seg i hi
  induction fuel generalizing x used free rows with
  | zero =>
    obtain rfl := length_eq_zero_iff.mp (Nat.le_zero.mp hfuel)
    cases hrow : rows i with
    | nil =>
      rw [hhead, hrow]
      exact ⟨_, _, _, _, [], free, rfl, h, .refl _, nofun, rfl⟩
    | cons r rest =>
      obtain ⟨n, hn, -⟩ := (hmem i hi r).mp (hrow ▸ mem_cons_self)
      exact absurd hn not_mem_nil
  | succ fuel ih =>
    cases hrow : rows i with
    | nil =>
      rw [hhead, hrow]
      refine ⟨_, _, _, _, used, free, rfl, h, .refl _, fun m hm hmi => ?_, rfl⟩
      have hin := (hmem i hi (m.addr, ⟨i, some m.key⟩)).mpr ⟨m, hm, rfl, hmi⟩
      rw [hrow] at hin
      exact not_mem_nil hin
    | cons r rest =>
      obtain ⟨n, hn, rfl, -⟩ := (hmem i hi r).mp (hrow ▸ mem_cons_self)
      obtain ⟨l₁, l₂, rfl⟩ := append_of_mem hn
      rw [hrow] at hhead hseg
      have hcell : x.nodes.rowLinks n.addr = some ⟨none, firstOr none rest, ⟨i, some n.key⟩⟩ :=
        hseg.1
      obtain ⟨nodes₁, gnode₁, memused₁, free₁, hfree, h₁, -, hnrows, nodes', hunlink, htable⟩ :=
        h.freeNode cfg
      -- The row goes on with the node that was read before.
      have hnext : nodes₁.table i = firstOr none rest := by
        rw [htable]
        exact unlinkRow_first hcell rfl hhead hunlink
      obtain ⟨rows₁, hrows₁, hmem₁⟩ := h₁.nodes.rows
      have hi₁ : i < nodes₁.nrows := hnrows ▸ hi
      have hlength : (l₁ ++ l₂).length ≤ fuel := by
        rw [length_append, length_cons] at hfuel
        rw [length_append]
        omega
      obtain ⟨nodes, gnode, memused, count, used', free', hempty, hrep, hsub, hout, hnrows'⟩ :=
        ih h₁ hi₁ hlength rows₁ hrows₁ hmem₁ (hrows₁.head i hi₁) (hrows₁.seg i hi₁)
      refine ⟨nodes, gnode, memused, count, used', free', ?_, hrep,
        hsub.trans ((sublist_cons_self _ _).append_left _), fun m hm => ?_,
        hnrows'.trans hnrows⟩
      · rw [hhead]
        show x.emptyRow cfg (fuel + 1) (some n.addr) = _
        rw [XHash.emptyRow, Heap.read_some, hcell]
        simp only [bind_eq_bind, bind_some]
        rw [hfree, bind_some, ← hnext]
        exact hempty
      · have hm' := hout m hm
        unfold rowOf at hm' ⊢
        rwa [show (nodes₁.nrows) = _ from hnrows] at hm'

theorem Rep.emptyRows {rows : List ℕ} (hrows : ∀ i ∈ rows, i < x.nodes.nrows) :
    ∃ nodes gnode memused count used' free',
      x.emptyRows cfg rows = some { x with nodes, gnode, memused, count } ∧
      Rep hash { x with nodes, gnode, memused, count } used' free' ∧ used'.Sublist used ∧
      (∀ i ∈ rows, ∀ m ∈ used', x.nodes.rowOf hash m.key ≠ i) ∧ nodes.nrows = x.nodes.nrows := by
  induction rows generalizing x used free with
  | nil => exact ⟨_, _, _, _, used, free, rfl, h, .refl _, nofun, rfl⟩
  | cons i rows ih =>
    have hi := hrows i mem_cons_self
    obtain ⟨nodes₁, gnode₁, memused₁, count₁, used₁, free₁, hrow, h₁, hsub₁, hout₁, hnrows₁⟩ :=
      h.emptyRow cfg hi h.length_le
    obtain ⟨nodes, gnode, memused, count, used', free', hempty, hrep, hsub, hout, hnrows⟩ :=
      ih h₁ fun j hj => hnrows₁ ▸ hrows j (mem_cons_of_mem _ hj)
    refine ⟨nodes, gnode, memused, count, used', free', ?_, hrep, hsub.trans hsub₁, ?_,
      hnrows.trans hnrows₁⟩
    · rw [XHash.emptyRows, rowHead_of_lt hi]
      simp only [bind_eq_bind, bind_some]
      rw [hrow, bind_some]
      exact hempty
    · rintro j hj m hm
      rcases mem_cons.mp hj with rfl | hj
      · exact hout₁ m (hsub.subset hm)
      · have hm' := hout j hj m hm
        unfold rowOf at hm' ⊢
        rwa [show nodes₁.nrows = _ from hnrows₁] at hm'

theorem Rep.makeEmpty :
    ∃ x' free', x.makeEmpty cfg = some x' ∧ Rep hash x' [] free' ∧ x'.maxNodes = 0 ∧
      x'.recovered = x.recovered := by
  have hrows (i : ℕ) (hi : i ∈ range x.nodes.nrows) : i < x.nodes.nrows := mem_range.mp hi
  obtain ⟨nodes, gnode, memused, count, used', free', hempty, hrep, -, hout, -⟩ :=
    h.emptyRows cfg hrows
  obtain rfl : used' = [] := eq_nil_iff_forall_not_mem.mpr fun m hm =>
    hout _ (mem_range.mpr (rowOf_lt h.nodes.nrows_pos hash m.key)) m hm rfl
  have hlists : Chained.Lists { nodes with ghead := none, gtail := none }
      (List.map Node.cell ([] : List (Node κ (XData δ)))) free' :=
    have hold := hrep.nodes.lists
    ⟨hold.used, rfl, rfl, hold.free, hold.fhead, hold.nodup⟩
  refine ⟨{ x with
    nodes := { nodes with ghead := none, gtail := none }
    gnode
    memused
    maxNodes := 0
    count := 0
    anrCount := 0
    anrTries := 0 }, free', ?_, ⟨?_, rfl, h.splay⟩, rfl, rfl⟩
  · unfold XHash.makeEmpty
    rw [hempty]
    rfl
  · exact hrep.nodes.of_links hlists .refl (fun _ => Iff.rfl) nodup_nil nofun (.refl _)
end
end Rep

section Find
variable {cfg : XConfig} {hash : κ → ℕ} {x : XHash κ δ} {used l₁ l₂ : List (Node κ (XData δ))}
  {free : List (ℕ × XData δ)} {n : Node κ (XData δ)} {key : κ}

/-- The key is not in the table, or the table is left with its node in front. -/
theorem Rep.findNodeRow (h : Rep hash x used free) (key : κ) :
    (key ∉ used.map Node.key ∧ x.findNodeRow hash key = some (none, x)) ∨
    ∃ l₁ n l₂ nodes gnode, used = l₁ ++ n :: l₂ ∧ n.key = key ∧
      x.findNodeRow hash key = some (some n.addr, { x with nodes, gnode }) ∧
      Rep hash { x with nodes, gnode } (n :: (l₁ ++ l₂)) free := by
  unfold XHash.findNodeRow splayNode
  rw [h.nodes.findRow key]
  cases hfind : used.find? fun m => m.key = key with
  | none =>
    refine .inl ⟨fun hmem => ?_, rfl⟩
    obtain ⟨m, hm, rfl⟩ := mem_map.mp hmem
    exact find?_eq_none.mp hfind m hm (decide_eq_true rfl)
  | some n =>
    obtain ⟨l₁, l₂, rfl⟩ := append_of_mem (mem_of_find?_eq_some hfind)
    obtain ⟨nodes, gnode, hmove, hrep⟩ := h.movetofront
    refine .inr ⟨l₁, n, l₂, nodes, gnode, rfl, by simpa using find?_some hfind, ?_, hrep⟩
    simp only [map_some, bind_eq_bind, bind_some]
    rw [if_pos h.splay, hmove, bind_some]
end Find
end XHash
end Snort.Hash
