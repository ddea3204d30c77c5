import Snort.Hash.ZHash
import Snort.Structures.Recency

/-!
# Runs of the hash table of flows

Any sequence of calls keeps the lists of the table. Beside the table a run keeps
what the calls so far amount to: the nodes that were pushed and not popped, and
when each key was last asked for. A walk that takes nodes out by their key and
then goes on with the node at the cursor sees every node once.
-/

namespace Snort.Hash
open List Option DoublyLinked
open Chained (Node)
open ZTable
open ZHash.Rep hiding touch

/-! ## Calls -/

inductive ZOp (κ δ : Type) where
  | push (p : δ)
  | pop
  | get (key : κ)
  | find (key : κ)
  | first
  | next
  | current
  | touch
  | remove
  | removeKey (key : κ)

/-- What a call returns: the node whose key memory is handed out, data, or a flag. -/
inductive ZAnswer (δ : Type) where
  | node (a : ℕ)
  | data (d : Option δ) (isNew : Bool)
  | flag (b : Bool)
  deriving DecidableEq

variable {κ δ : Type} [DecidableEq κ] {t : ZTable κ δ}

def ZHash.step (hash : κ → ℕ) (z : ZHash κ δ) : ZOp κ δ → Option (ZAnswer δ × ZHash κ δ)
  | .push p => (z.push p).map fun r => (.node r.1, r.2)
  | .pop => z.pop.map fun r => (.data r.1 false, r.2)
  | .get key => (z.get hash key).map fun r => (.data r.1 r.2.1, r.2.2)
  | .find key => (z.find hash key).map fun r => (.data r.1 false, r.2)
  | .first => z.first.map fun r => (.data r.1 false, r.2)
  | .next => z.next.map fun r => (.data r.1 false, r.2)
  | .current => z.current.map fun d => (.data d false, z)
  | .touch => z.touch.map fun r => (.flag r.1, r.2)
  | .remove => z.remove.map fun r => (.flag r.1, r.2)
  | .removeKey key => (z.removeKey hash key).map fun r => (.flag r.1, r.2)

def ZTable.step (t : ZTable κ δ) : ZOp κ δ → ZAnswer δ × ZTable κ δ
  | .push p => (.node (t.push p).1, (t.push p).2)
  | .pop => (.data t.pop.1 false, t.pop.2)
  | .get key => (.data (t.get key).1 (t.get key).2.1, (t.get key).2.2)
  | .find key => (.data (t.find key).1 false, (t.find key).2)
  | .first => (.data t.first.1 false, t.first.2)
  | .next => (.data t.next.1 false, t.next.2)
  | .current => (.data t.current false, t)
  | .touch => (.flag t.touch.1, t.touch.2)
  | .remove => (.flag t.remove.1, t.remove.2)
  | .removeKey key => (.flag (t.removeKey key).1, (t.removeKey key).2)

theorem ZHash.Rep.step {hash : κ → ℕ} {z : ZHash κ δ} (h : Rep hash z t) (op : ZOp κ δ) :
    ∃ z', z.step hash op = some ((t.step op).1, z') ∧ Rep hash z' (t.step op).2 := by
  cases op with
  | push p =>
    obtain ⟨z', hz', hrep⟩ := h.push p
    exact ⟨z', congrArg (Option.map _) hz', hrep⟩
  | pop =>
    obtain ⟨z', hz', hrep⟩ := h.pop
    exact ⟨z', congrArg (Option.map _) hz', hrep⟩
  | get key =>
    obtain ⟨z', hz', hrep⟩ := h.get key
    exact ⟨z', congrArg (Option.map _) hz', hrep⟩
  | find key =>
    obtain ⟨z', hz', hrep⟩ := h.find key
    exact ⟨z', congrArg (Option.map _) hz', hrep⟩
  | first =>
    obtain ⟨z', hz', hrep⟩ := h.first
    exact ⟨z', congrArg (Option.map _) hz', hrep⟩
  | next =>
    obtain ⟨z', hz', hrep⟩ := h.next
    exact ⟨z', congrArg (Option.map _) hz', hrep⟩
  | current => exact ⟨z, congrArg (Option.map _) h.current, h⟩
  | touch =>
    obtain ⟨z', hz', hrep⟩ := h.touch
    exact ⟨z', congrArg (Option.map _) hz', hrep⟩
  | remove =>
    obtain ⟨z', hz', hrep⟩ := h.remove
    exact ⟨z', congrArg (Option.map _) hz', hrep⟩
  | removeKey key =>
    obtain ⟨z', hz', hrep⟩ := h.removeKey key
    exact ⟨z', congrArg (Option.map _) hz', hrep⟩

/-! ## Runs -/

/-- The table with the nodes pushed and not popped, and the time of the last use of each key. -/
structure ZHistory (κ δ : Type) where
  table : ZHash κ δ
  live : List ℕ
  stamp : κ → ℕ
  now : ℕ

namespace ZHistory

def new (nrows : ℕ) : ZHistory κ δ := ⟨ZHash.new nrows, [], fun _ => 0, 1⟩

/-- The key of the node at the cursor. -/
def keyAt (z : ZHash κ δ) : Option κ :=
  z.cursor.bind fun a => (z.nodes.rowLinks a).bind fun c => c.val.key

section Steps
variable (r : ZHistory κ δ)

def liveAfter : ZOp κ δ → List ℕ
  | .push _ => r.table.nodes.nextAddr :: r.live
  | .pop =>
    match r.table.nodes.fhead with
    | some a => r.live.erase a
    | none => r.live
  | _ => r.live

def use (key : κ) : κ → ℕ := Function.update r.stamp key r.now

/-- A key is used by asking for it, and by a touch of its node. -/
def stampAfter : ZOp κ δ → κ → ℕ
  | .get key => r.use key
  | .find key => r.use key
  | .touch =>
    match keyAt r.table with
    | some key => r.use key
    | none => r.stamp
  | _ => r.stamp

def step (hash : κ → ℕ) (op : ZOp κ δ) : Option (ZAnswer δ × ZHistory κ δ) :=
  (r.table.step hash op).map fun (answer, table) =>
    (answer, ⟨table, r.liveAfter op, r.stampAfter op, r.now + 1⟩)

def run (hash : κ → ℕ) : ZHistory κ δ → List (ZOp κ δ) → Option (List (ZAnswer δ) × ZHistory κ δ)
  | r, [] => some ([], r)
  | r, op :: ops => do
    let (answer, r) ← r.step hash op
    let (answers, r) ← r.run hash ops
    some (answer :: answers, r)
end Steps

/-- The nodes pushed and not popped are each on one list, once, and those in use are in the order
of their last use. -/
structure Consistent (hash : κ → ℕ) (r : ZHistory κ δ) (t : ZTable κ δ) : Prop where
  rep : r.table.Rep hash t
  live : r.live.Perm (t.used.map Node.addr ++ ids t.free)
  ordered : Recency.Ordered Node.key r.stamp t.used
  stamp_lt : ∀ key, r.stamp key < r.now
end ZHistory

/-! ## What a call does to the lists -/

namespace ZTable
variable {t : ZTable κ δ} {n : Node κ δ} {key : κ}
variable {l : List (Node κ δ)}
omit [DecidableEq κ] in
theorem without_perm (hnodup : (l.map Node.addr).Nodup) (hn : n ∈ l) :
    (n :: without l n.addr).Perm l := by
  obtain ⟨l₁, l₂, rfl⟩ := append_of_mem hn
  rw [without_split hnodup]
  exact perm_middle.symm

omit [DecidableEq κ] in
theorem without_sublist {a : ℕ} : (without l a).Sublist l := filter_sublist

omit [DecidableEq κ] in
theorem without_head (hnodup : (l.map Node.addr).Nodup) (hn : n ∈ l)
    (hhead : l.head?.map Node.addr = some n.addr) : l = n :: without l n.addr := by
  cases l with
  | nil => exact absurd hn not_mem_nil
  | cons m l =>
    have haddr : m.addr = n.addr := Option.some.inj hhead
    obtain rfl := Chained.eq_of_addr_eq hnodup mem_cons_self hn haddr
    have hsplit : without ([] ++ m :: l) m.addr = [] ++ l := without_split hnodup
    exact congrArg (m :: ·) hsplit.symm

omit [DecidableEq κ] in
theorem toFront_used (hnodup : (t.used.map Node.addr).Nodup) (hn : n ∈ t.used) :
    (t.toFront n).used = n :: without t.used n.addr := by
  unfold toFront
  split
  · rename_i hhead
    exact without_head hnodup hn hhead
  · rfl

omit [DecidableEq κ] in
theorem toFront_free : (t.toFront n).free = t.free := by
  unfold toFront
  split <;> rfl

omit [DecidableEq κ] in
theorem mem_cells_of_used (hn : n ∈ t.used) : n.cell ∈ t.cells :=
  mem_append_left _ (mem_map_of_mem hn)

omit [DecidableEq κ] in
theorem cells_toFront (hnodup : (t.used.map Node.addr).Nodup) (hn : n ∈ t.used) :
    (t.toFront n).cells.Perm t.cells := by
  unfold cells
  rw [toFront_free, toFront_used hnodup hn]
  exact ((without_perm hnodup hn).map Node.cell).append_right _

omit [DecidableEq κ] in
theorem cells_release (hnodup : (t.used.map Node.addr).Nodup) (hn : n ∈ t.used) :
    (t.release n).cells.Perm t.cells :=
  perm_middle.trans (((without_perm hnodup hn).map Node.cell).append_right t.free)

omit [DecidableEq κ] in
theorem cells_use {x : ℕ × δ} {free : List (ℕ × δ)} (hfree : t.free = x :: free) (key : κ) :
    (cells { t with used := ⟨x.1, key, x.2⟩ :: t.used, free }).Perm t.cells := by
  unfold cells
  rw [hfree]
  exact perm_middle.symm

omit [DecidableEq κ] in
theorem cells_push (t : ZTable κ δ) (p : δ) :
    (t.push p).2.cells.Perm ((t.nextAddr, p) :: t.cells) := perm_middle

omit [DecidableEq κ] in
theorem first_fst (hnodup : (t.used.map Node.addr).Nodup) :
    t.first.1 = t.used.getLast?.map Node.data := by
  have hfst : t.first.1 = (lastOr none (t.used.map Node.cell)).bind fun a =>
      (t.used.find? fun m => m.addr = a).map Node.data := by
    unfold first current at?
    cases lastOr none (t.used.map Node.cell) <;> rfl
  rw [hfst]
  rcases eq_nil_or_concat t.used with hnil | ⟨l, n, hl⟩
  · rw [hnil]
    rfl
  · rw [concat_eq_append] at hl
    have hn : n ∈ t.used := hl ▸ mem_append_right _ mem_cons_self
    have hlast : lastOr none (t.used.map Node.cell) = some n.addr := by
      rw [hl, map_append]
      exact lastOr_concat _ _ _
    rw [hlast, bind_some, find?_addr hnodup hn, hl, getLast?_concat]

omit [DecidableEq κ] in
theorem touch_used (hnodup : (t.used.map Node.addr).Nodup) (hat : t.at? = some n) :
    t.touch.2.used = n :: without t.used n.addr ∧ t.touch.2.free = t.free := by
  obtain ⟨a, -, hfind⟩ := bind_eq_some_iff.mp hat
  unfold touch
  rw [hat]
  dsimp only
  split
  · rename_i hhead
    exact ⟨without_head hnodup (mem_of_find?_eq_some hfind) hhead, rfl⟩
  · exact ⟨rfl, rfl⟩

omit [DecidableEq κ] in
theorem key_ne_of_mem_without (hkeys : (l.map Node.key).Nodup) (hn : n ∈ l)
    {m : Node κ δ} (hm : m ∈ without l n.addr) : m.key ≠ n.key := fun heq => by
  obtain ⟨hmem, haddr⟩ := mem_filter.mp hm
  have hmn : m = n := inj_on_of_nodup_map hkeys hmem hn heq
  exact of_decide_eq_true haddr (congrArg Node.addr hmn)
end ZTable

namespace ZHash.Rep
variable {hash : κ → ℕ} {z : ZHash κ δ} {t : ZTable κ δ} {n : Node κ δ} {stamp : κ → ℕ} {now : ℕ}
  {key : κ}
omit [DecidableEq κ] in
theorem mem_at (hat : t.at? = some n) : n ∈ t.used := by
  obtain ⟨a, -, hfind⟩ := bind_eq_some_iff.mp hat
  exact mem_of_find?_eq_some hfind

omit [DecidableEq κ] in
theorem keyAt (h : Rep hash z t) : ZHistory.keyAt z = t.at?.map Node.key := by
  unfold ZHistory.keyAt
  rw [h.cursor]
  cases hcursor : t.cursor with
  | none => rw [at_none hcursor]; rfl
  | some a =>
    obtain ⟨l₁, n, l₂, ht, rfl, hat⟩ := h.at_cursor hcursor
    obtain ⟨c, hc, hval⟩ := h.nodes.rows.cell h.nodes.nrows_pos (mem_at hat)
    rw [hat, bind_some, hc, bind_some, hval]
    rfl

theorem ordered_use (h : Rep hash z t) (hn : n ∈ t.used)
    (hord : Recency.Ordered Node.key stamp t.used)
    (hlt : ∀ key, stamp key < now) :
    Recency.Ordered Node.key (Function.update stamp n.key now) (n :: without t.used n.addr) :=
  (hord.sublist without_sublist).use
    (fun _ hm => key_ne_of_mem_without h.nodes.keys hn hm) fun _ _ => hlt _

theorem ordered_miss (hkey : t.lookup key = none) (hord : Recency.Ordered Node.key stamp t.used) :
    Recency.Ordered Node.key (Function.update stamp key now) t.used :=
  hord.congr fun m hm => Function.update_of_ne
    (fun heq => find?_eq_none.mp hkey m hm (decide_eq_true heq)) _ _

theorem lookup_ne (hkey : t.lookup key = none) {m : Node κ δ} (hm : m ∈ t.used) :
    m.key ≠ key := fun heq => find?_eq_none.mp hkey m hm (decide_eq_true heq)
end ZHash.Rep

namespace ZHistory.Consistent
variable {hash : κ → ℕ} {r : ZHistory κ δ} {t : ZTable κ δ}

section
variable (h : Consistent hash r t)
include h
variable (op : ZOp κ δ)

theorem live_step :
    (r.liveAfter op).Perm ((t.step op).2.used.map Node.addr ++ ids (t.step op).2.free) := by
  have hlive := h.live
  have hnodup := h.rep.nodup
  have hfront {n : Node κ δ} (hn : n ∈ t.used) :
      (t.used.map Node.addr ++ ids t.free).Perm
        ((n :: without t.used n.addr).map Node.addr ++ ids t.free) :=
    ((without_perm hnodup hn).symm.map Node.addr).append_right _
  have hrelease {n : Node κ δ} (hn : n ∈ t.used) :
      (t.used.map Node.addr ++ ids t.free).Perm
        ((without t.used n.addr).map Node.addr ++ ids (n.cell :: t.free)) :=
    (hfront hn).trans perm_middle.symm
  cases op with
  | push p =>
    have hnext : r.table.nodes.nextAddr = t.nextAddr := h.rep.nextAddr
    unfold liveAfter
    rw [hnext]
    exact (hlive.cons _).trans perm_middle.symm
  | pop =>
    have hfhead : r.table.nodes.fhead = firstOr none t.free := h.rep.nodes.lists.fhead
    unfold liveAfter ZTable.step ZTable.pop
    rw [hfhead]
    cases hfree : t.free with
    | nil =>
      rw [hfree]
      rwa [hfree] at hlive
    | cons x free =>
      rw [hfree] at hlive
      exact cons_perm_iff_perm_erase.mp ((hlive.trans perm_middle).symm) |>.2.symm
  | get key =>
    unfold liveAfter ZTable.step ZTable.get
    dsimp only
    cases hkey : t.lookup key with
    | some n =>
      have hn := (ZHash.mem_of_lookup hkey).1
      rw [toFront_used hnodup hn, toFront_free]
      exact hlive.trans (hfront hn)
    | none =>
      cases hfree : t.free with
      | nil => simpa only [hfree] using hlive
      | cons x free =>
        rw [hfree] at hlive
        exact hlive.trans perm_middle
  | find key =>
    unfold liveAfter ZTable.step ZTable.find
    dsimp only
    cases hkey : t.lookup key with
    | some n =>
      have hn := (ZHash.mem_of_lookup hkey).1
      rw [toFront_used hnodup hn, toFront_free]
      exact hlive.trans (hfront hn)
    | none => exact hlive
  | first => exact hlive
  | next => exact hlive
  | current => exact hlive
  | touch =>
    unfold liveAfter ZTable.step
    cases hat : t.at? with
    | none => simpa only [touch, hat] using hlive
    | some n =>
      obtain ⟨hused, hfree⟩ := touch_used hnodup hat
      rw [hused, hfree]
      exact hlive.trans (hfront (mem_at hat))
  | remove =>
    unfold liveAfter ZTable.step ZTable.remove
    cases hat : t.at? with
    | none => exact hlive
    | some n => exact hlive.trans (hrelease (mem_at hat))
  | removeKey key =>
    unfold liveAfter ZTable.step ZTable.removeKey
    dsimp only
    cases hkey : t.lookup key with
    | none => exact hlive
    | some n => exact hlive.trans (hrelease (ZHash.mem_of_lookup hkey).1)

theorem ordered_step : Recency.Ordered Node.key (r.stampAfter op) (t.step op).2.used := by
  have hord := h.ordered
  have hnodup := h.rep.nodup
  cases op with
  | push p => exact hord
  | pop =>
    unfold stampAfter ZTable.step ZTable.pop
    cases t.free <;> exact hord
  | get key =>
    unfold stampAfter ZTable.step ZTable.get use
    dsimp only
    cases hkey : t.lookup key with
    | some n =>
      obtain ⟨hn, rfl⟩ := ZHash.mem_of_lookup hkey
      rw [toFront_used hnodup hn]
      exact h.rep.ordered_use hn hord h.stamp_lt
    | none =>
      cases hfree : t.free with
      | nil => exact ordered_miss hkey hord
      | cons x free =>
        exact hord.use (a := ⟨x.1, key, x.2⟩) (fun _ hm => lookup_ne hkey hm)
          fun _ _ => h.stamp_lt _
  | find key =>
    unfold stampAfter ZTable.step ZTable.find use
    dsimp only
    cases hkey : t.lookup key with
    | some n =>
      obtain ⟨hn, rfl⟩ := ZHash.mem_of_lookup hkey
      rw [toFront_used hnodup hn]
      exact h.rep.ordered_use hn hord h.stamp_lt
    | none => exact ordered_miss hkey hord
  | first => exact hord
  | next => exact hord
  | current => exact hord
  | touch =>
    unfold stampAfter ZTable.step use
    rw [h.rep.keyAt]
    cases hat : t.at? with
    | none => simpa only [touch, hat, map_none] using hord
    | some n =>
      rw [(touch_used hnodup hat).1]
      exact h.rep.ordered_use (mem_at hat) hord h.stamp_lt
  | remove =>
    unfold stampAfter ZTable.step ZTable.remove
    cases hat : t.at? with
    | none => exact hord
    | some n => exact hord.sublist without_sublist
  | removeKey key =>
    unfold stampAfter ZTable.step ZTable.removeKey
    dsimp only
    cases hkey : t.lookup key with
    | none => exact hord
    | some n => exact hord.sublist without_sublist

theorem use_lt (key k : κ) : r.use key k < r.now + 1 := by
  unfold use
  rcases eq_or_ne k key with rfl | hne
  · rw [Function.update_self]
    exact Nat.lt_succ_self _
  · rw [Function.update_of_ne hne]
    exact Nat.lt_succ_of_lt (h.stamp_lt k)

theorem stamp_step (k : κ) : r.stampAfter op k < r.now + 1 := by
  unfold stampAfter
  split
  · exact h.use_lt _ k
  · exact h.use_lt _ k
  · cases keyAt r.table with
    | some key => exact h.use_lt key k
    | none => exact Nat.lt_succ_of_lt (h.stamp_lt k)
  · exact Nat.lt_succ_of_lt (h.stamp_lt k)

theorem step :
    ∃ r', r.step hash op = some ((t.step op).1, r') ∧ Consistent hash r' (t.step op).2 := by
  obtain ⟨z', hz', hrep⟩ := h.rep.step op
  refine ⟨⟨z', r.liveAfter op, r.stampAfter op, r.now + 1⟩, ?_,
    ⟨hrep, h.live_step op, h.ordered_step op, h.stamp_step op⟩⟩
  unfold ZHistory.step
  rw [hz']
  rfl

theorem run (ops : List (ZOp κ δ)) :
    ∃ answers r' t', r.run hash ops = some (answers, r') ∧ Consistent hash r' t' := by
  induction ops generalizing r t with
  | nil => exact ⟨[], r, t, rfl, h⟩
  | cons op ops ih =>
    obtain ⟨r₁, hr₁, h₁⟩ := h.step op
    obtain ⟨answers, r', t', hrun, h'⟩ := ih h₁
    refine ⟨(t.step op).1 :: answers, r', t', ?_, h'⟩
    unfold ZHistory.run
    rw [hr₁]
    simp only [bind_eq_bind, bind_some, hrun]
end
end ZHistory.Consistent

/-! ## Walks -/

namespace ZHash
section Walks
variable (hash : κ → ℕ)

/-- The next node of a walk. Behind a node that is taken out by its key it is the node at the cursor
already. -/
def advance (drop : Bool) (key : κ) (z : ZHash κ δ) : Option (Option δ × ZHash κ δ) :=
  if drop then do
    let (_, z) ← z.removeKey hash key
    let data ← z.current
    some (data, z)
  else z.next

/-- A walk from the node at the cursor on, with the keys and data it sees. -/
def walkOn (drop : κ → δ → Bool) :
    ℕ → Option δ → ZHash κ δ → Option (List (κ × δ) × ZHash κ δ)
  | 0, _, _ => none
  | _ + 1, none, z => some ([], z)
  | fuel + 1, some data, z => do
    let key ← ZHistory.keyAt z
    let (data', z) ← z.advance hash (drop key data) key
    let (seen, z) ← walkOn drop fuel data' z
    some ((key, data) :: seen, z)

def walk (drop : κ → δ → Bool) (z : ZHash κ δ) : Option (List (κ × δ) × ZHash κ δ) := do
  let (data, z) ← z.first
  z.walkOn hash drop (z.count + 1) data
end Walks

variable {hash : κ → ℕ} {z : ZHash κ δ} {t : ZTable κ δ} {n : Node κ δ} {l₁ l₂ : List (Node κ δ)}

theorem Rep.lookup_key (h : Rep hash z t) (hn : n ∈ t.used) : t.lookup n.key = some n := by
  cases hkey : t.lookup n.key with
  | none => exact absurd rfl (Rep.lookup_ne hkey hn)
  | some m =>
    obtain ⟨hm, hkeys⟩ := mem_of_lookup hkey
    rw [inj_on_of_nodup_map h.nodes.keys hm hn hkeys]

theorem Rep.advance (h : Rep hash z t) (ht : t.used = l₁ ++ n :: l₂)
    (hcursor : t.cursor = some n.addr) (drop : Bool) :
    ∃ z' t', z.advance hash drop n.key = some (t'.current, z') ∧ Rep hash z' t' ∧
      t' = { t with
        used := l₁ ++ (if drop then l₂ else n :: l₂)
        free := if drop then n.cell :: t.free else t.free
        cursor := lastOr none (l₁.map Node.cell) } := by
  have hnodup := h.nodup
  have hprev : prevOf t.used n.addr = lastOr none (l₁.map Node.cell) := by
    rw [ht] at hnodup ⊢
    exact prevOf_split hnodup
  have hn : n ∈ t.used := ht ▸ mem_append_right _ mem_cons_self
  unfold ZHash.advance
  cases drop with
  | true =>
    obtain ⟨z', hz', hrep⟩ := h.removeKey n.key
    refine ⟨z', _, ?_, hrep, ?_⟩
    · simp only [if_true, hz', bind_eq_bind, bind_some, hrep.current]
    · unfold ZTable.removeKey ZTable.release ZTable.cursorPast
      rw [h.lookup_key hn]
      dsimp only
      rw [if_pos hcursor, hprev]
      rw [ht] at hnodup
      simp only [ht, without_split hnodup, if_true]
  | false =>
    obtain ⟨z', hz', hrep⟩ := h.next
    refine ⟨z', _, hz', hrep, ?_⟩
    simp only [hcursor, bind_some, hprev, Bool.false_eq_true, if_false, ← ht]

/-- A walk from the cursor on sees the nodes up to the front, and leaves those not dropped. -/
theorem Rep.walkOn (h : Rep hash z t) (drop : κ → δ → Bool) (ht : t.used = l₁ ++ l₂)
    (hcursor : t.cursor = lastOr none (l₁.map Node.cell)) {fuel : ℕ} (hfuel : l₁.length < fuel) :
    ∃ z', z.walkOn hash drop fuel t.current = some (l₁.reverse.map fun n => (n.key, n.data), z') ∧
      Rep hash z' { t with
        used := (l₁.filter fun n => !drop n.key n.data) ++ l₂
        free := (l₁.filter fun n => drop n.key n.data).map Node.cell ++ t.free
        cursor := none } := by
  obtain ⟨fuel, rfl⟩ : ∃ m, fuel = m + 1 := ⟨fuel - 1, by omega⟩
  -- The induction is on the nodes not seen yet; the walk is at the last of them.
  induction l₁ using List.reverseRecOn generalizing z t l₂ fuel with
  | nil =>
    have hnone : t.cursor = none := hcursor
    have hcurrent : t.current = none := by
      unfold ZTable.current
      rw [Rep.at_none hnone]
      rfl
    rw [hcurrent]
    exact ⟨z, rfl, ⟨ht ▸ h.nodes, h.nextAddr, ht ▸ h.count, h.cursor.trans hnone, nofun⟩⟩
  | append_singleton l₁ n ih =>
    have hsome : t.cursor = some n.addr := by
      rw [hcursor, map_append]
      exact lastOr_concat _ _ _
    rw [append_assoc, singleton_append] at ht
    obtain ⟨k, rfl⟩ : ∃ k, fuel = k + 1 :=
      ⟨fuel - 1, by simp only [length_append, length_singleton] at hfuel; omega⟩
    obtain ⟨-, m, -, -, haddr, hat⟩ := h.at_cursor hsome
    obtain rfl : m = n := Chained.eq_of_addr_eq h.nodup (Rep.mem_at hat)
      (ht ▸ mem_append_right _ mem_cons_self) haddr
    obtain ⟨z₁, t₁, hstep, h₁, rfl⟩ := h.advance ht hsome (drop m.key m.data)
    obtain ⟨z', hwalk, hrep⟩ := ih h₁ rfl rfl k
      (by simp only [length_append, length_singleton] at hfuel; omega)
    refine ⟨z', ?_, ?_⟩
    · have hcurrent : t.current = some m.data := by
        unfold ZTable.current
        rw [hat]
        rfl
      rw [hcurrent, reverse_append]
      unfold ZHash.walkOn
      rw [h.keyAt, hat]
      simp only [map_some, bind_eq_bind, bind_some, hstep, hwalk]
      rfl
    · cases hdrop : drop m.key m.data <;>
        simpa [hdrop, append_assoc] using hrep

theorem Rep.walk (h : Rep hash z t) (drop : κ → δ → Bool) :
    ∃ z', z.walk hash drop = some (t.used.reverse.map fun n => (n.key, n.data), z') ∧
      Rep hash z' { t with
        used := t.used.filter fun n => !drop n.key n.data
        free := (t.used.filter fun n => drop n.key n.data).map Node.cell ++ t.free
        cursor := none } := by
  obtain ⟨z₁, hz₁, h₁⟩ := h.first
  have hfuel : t.used.length < z₁.count + 1 := by
    rw [h₁.count]
    exact Nat.lt_succ_self _
  obtain ⟨z', hwalk, hrep⟩ := h₁.walkOn drop (append_nil t.used).symm rfl hfuel
  refine ⟨z', ?_, by rwa [append_nil] at hrep⟩
  unfold ZHash.walk
  rw [hz₁]
  exact hwalk
end ZHash

/-! ## The table over any run -/

omit [DecidableEq κ] in
theorem ZTable.mem_of_current {x : δ} (hx : t.current = some x) : ∃ n ∈ t.used, n.data = x := by
  obtain ⟨n, hat, rfl⟩ := map_eq_some_iff.mp hx
  exact ⟨n, mem_at hat, rfl⟩

omit [DecidableEq κ] in
theorem ZHistory.Consistent.new (hash : κ → ℕ) {nrows : ℕ} (hpos : 0 < nrows) :
    Consistent hash (ZHistory.new nrows : ZHistory κ δ) ZTable.new :=
  ⟨ZHash.Rep.new hash hpos, List.Perm.nil, Recency.Ordered.nil, fun _ => Nat.one_pos⟩

/-- The lists are kept by every run. The calls of a walk return data of nodes in use, and a walk
that goes on at the cursor behind a node it takes out sees every node, from the one used least
recently on. -/
theorem zHash_run_consistent (hash : κ → ℕ) (nrows : ℕ) (hpos : 0 < nrows) (ops : List (ZOp κ δ)) :
    ∃ answers r t, (ZHistory.new nrows).run hash ops = some (answers, r) ∧ r.Consistent hash t ∧
      (∀ op, op = .first ∨ op = .next ∨ op = .current →
        ∃ d z', r.table.step hash op = some (.data d false, z') ∧
          ∀ x, d = some x → ∃ n ∈ t.used, n.data = x) ∧
      ∀ drop : κ → δ → Bool,
        ∃ z', r.table.walk hash drop = some (t.used.reverse.map fun n => (n.key, n.data), z') ∧
          z'.Rep hash { t with
            used := t.used.filter fun n => !drop n.key n.data
            free := (t.used.filter fun n => drop n.key n.data).map Node.cell ++ t.free
            cursor := none } := by
  obtain ⟨answers, r, t, hrun, h⟩ := (ZHistory.Consistent.new hash hpos).run ops
  refine ⟨answers, r, t, hrun, h, ?_, fun drop => h.rep.walk drop⟩
  intro op hop
  obtain ⟨z', hz', -⟩ := h.rep.step op
  rcases hop with rfl | rfl | rfl
  · exact ⟨_, z', hz', fun x hx => mem_of_current (t := t.first.2) hx⟩
  · exact ⟨_, z', hz', fun x hx => mem_of_current (t := t.next.2) hx⟩
  · exact ⟨_, z', hz', fun x hx => mem_of_current hx⟩

/-- A table of four rows. -/
theorem zHash_run_consistent_four :
    0 < 4 ∧ ∃ answers r t, (ZHistory.new 4).run id
        [.push "a", .push "b", .get 1, .get 5, .first, .touch, .next, .removeKey 1, .pop] =
        some (answers, r) ∧ r.Consistent id t := by
  obtain ⟨answers, r, t, hrun, h, -⟩ := zHash_run_consistent id 4 (by decide)
    [.push "a", .push "b", .get 1, .get 5, .first, .touch, .next, .removeKey 1, .pop]
  exact ⟨by decide, answers, r, t, hrun, h⟩

/-- With `next` behind a node that was taken out, a walk misses a node: the second of three nodes is
still in the table and was not seen. With `remove` at the cursor the walk is over at once. -/
theorem zHash_walk_next_misses :
    ((ZHistory.new 4).run id [.push 10, .push 20, .push 30, .get 1, .get 2, .get 3,
        .first, .removeKey 1, .next, .next, .find 2]).map Prod.fst =
      some [.node 0, .node 1, .node 2, .data (some 30) true, .data (some 20) true,
        .data (some 10) true, .data (some 30) false, .flag true, .data (some 10) false,
        .data none false, .data (some 20) false] ∧
    ((ZHistory.new 4).run id [.push 10, .push 20, .push 30, .get 1, .get 2, .get 3,
        .first, .remove, .next, .find 2, .find 3]).map Prod.fst =
      some [.node 0, .node 1, .node 2, .data (some 30) true, .data (some 20) true,
        .data (some 10) true, .data (some 30) false, .flag true, .data none false,
        .data (some 20) false, .data (some 10) false] := by
  decide +kernel
end Snort.Hash
