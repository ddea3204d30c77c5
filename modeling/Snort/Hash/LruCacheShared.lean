import Snort.Structures.ListProgram

/-!
# The shared LRU cache

`LruCacheShared` of `lru_cache_shared.h`: a list of entries in the order of their
use, an unordered map from the keys to list iterators, and a size that is counted
by hand. An iterator is the address of a node, or the end of the list; it cannot be
used once its node is erased.
-/

namespace Snort.Hash
open DoublyLinked ListProgram

/-! ## Containers -/

/-- The order in which an unordered container is walked. -/
structure WalkOrder (α : Type) where
  order : List α → List α
  perm : ∀ l, (order l).Perm l

section Containers
variable {ν : Type}

/-- `--it`, where the end of the list is `none`. It fails at the begin of the list, and where the
node has been erased. -/
def decrement (list : Nodes ν) : Option ℕ → Option ℕ
  | none => lastOr none list.list
  | some p => (listMachine.prev list p).bind id

/-- `list.splice(list.begin(), list, it)` -/
def spliceFront (list : Nodes ν) (p : ℕ) : Option (Nodes ν) :=
  (splitAddr p list.list).map fun (before, v, behind) =>
    { list with list := (p, v) :: (before ++ behind) }

/-- The node is moved to the front if it counts as used. -/
def spliceIf (update : Bool) (list : Nodes ν) (p : ℕ) : Option (Nodes ν) :=
  if update then spliceFront list p else some list
end Containers

/-! ## The cache -/

structure LruCacheSharedStats where
  adds : ℕ
  replaces : ℕ
  prunes : ℕ
  findHits : ℕ
  findMisses : ℕ
  removes : ℕ
  clears : ℕ
deriving DecidableEq

structure LruCacheShared (Key Data : Type) where
  maxSize : ℕ
  currentSize : ℕ
  list : Nodes (Key × Data)
  map : List (Key × ℕ)
  stats : LruCacheSharedStats

namespace LruCacheShared
variable {Key Data : Type} [DecidableEq Key]

def new (initialSize : ℕ) : LruCacheShared Key Data :=
  ⟨initialSize, 0, ⟨[], 0⟩, [], ⟨0, 0, 0, 0, 0, 0, 0⟩⟩

section Operations
variable (c : LruCacheShared Key Data) (key : Key)

/-- `map.find(key)` -/
def mapFind : Option ℕ := (c.map.find? fun e => e.1 = key).map Prod.snd

/-- `map.erase(key)` -/
def mapErase : LruCacheShared Key Data := { c with map := c.map.filter fun e => e.1 ≠ key }

/-- The loop of `set_max_size` -/
def shrink (newSize : ℕ) : ℕ → Option ℕ → LruCacheShared Key Data → Option (LruCacheShared Key Data)
  | 0, _, c => if newSize < c.currentSize then none else some c
  | fuel + 1, it, c =>
    if newSize < c.currentSize then do
      let p ← decrement c.list it
      let entry ← listMachine.load c.list p
      let list ← listMachine.unlink c.list p
      shrink newSize fuel (some p)
        { c.mapErase entry.1 with currentSize := c.currentSize - 1, list }
    else some c

/-- `LruCacheShared::set_max_size` -/
def setMaxSize (newSize : ℕ) : Option (Bool × LruCacheShared Key Data) :=
  if newSize = 0 then some (false, c)
  else do
    let c ← shrink newSize c.currentSize none c
    some (true, { c with maxSize := newSize })

/-- The entry of the key, if there is one, is erased. -/
def eraseOld : Option (LruCacheShared Key Data) :=
  match c.mapFind key with
  | none => some { c with stats := { c.stats with adds := c.stats.adds + 1 } }
  | some p => do
    let list ← listMachine.unlink c.list p
    some { c.mapErase key with
      currentSize := c.currentSize - 1
      list
      stats := { c.stats with replaces := c.stats.replaces + 1 } }

/-- The oldest entry is erased if the size is exceeded. -/
def eraseOldest : Option (LruCacheShared Key Data) :=
  if c.maxSize ≤ c.currentSize then do
    let p ← decrement c.list none
    let entry ← listMachine.load c.list p
    let list ← listMachine.unlink c.list p
    some { c.mapErase entry.1 with
      list, stats := { c.stats with prunes := c.stats.prunes + 1 } }
  else some { c with currentSize := c.currentSize + 1 }

/-- `LruCacheShared::insert` -/
def insert (data : Data) : Option (LruCacheShared Key Data) := do
  let c ← c.eraseOld key
  let (p, list) ← listMachine.link c.list none (key, data)
  eraseOldest { c.mapErase key with list, map := (key, p) :: (c.mapErase key).map }

/-- `LruCacheShared::find` -/
def find (update : Bool) : Option (Option Data × LruCacheShared Key Data) :=
  match c.mapFind key with
  | none => some (none, { c with stats := { c.stats with findMisses := c.stats.findMisses + 1 } })
  | some p => do
    let entry ← listMachine.load c.list p
    let list ← spliceIf update c.list p
    some (some entry.2, { c with list, stats := { c.stats with findHits := c.stats.findHits + 1 } })

/-- `LruCacheShared::remove` with the data of the entry -/
def removeData : Option (Option Data × LruCacheShared Key Data) :=
  match c.mapFind key with
  | none => some (none, c)
  | some p => do
    let entry ← listMachine.load c.list p
    let list ← listMachine.unlink c.list p
    some (some entry.2, { c.mapErase key with
      currentSize := c.currentSize - 1
      list
      stats := { c.stats with removes := c.stats.removes + 1 } })

/-- `LruCacheShared::remove` -/
def remove : Option (Bool × LruCacheShared Key Data) :=
  match c.mapFind key with
  | none => some (false, c)
  | some p => do
    let list ← listMachine.unlink c.list p
    some (true, { c.mapErase key with
      currentSize := c.currentSize - 1
      list
      stats := { c.stats with removes := c.stats.removes + 1 } })

/-- `LruCacheShared::clear` -/
def clear (walk : WalkOrder (Key × ℕ)) : Option (LruCacheShared Key Data) := do
  let list ← (walk.order c.map).foldlM (fun list e => listMachine.unlink list e.2) c.list
  some { c with
    currentSize := 0
    list
    map := []
    stats := { c.stats with clears := c.stats.clears + 1 } }

/-- `LruCacheShared::get_all_data` -/
def getAllData : List (Key × Data) := c.list.list.map Prod.snd
end Operations
end LruCacheShared
end Snort.Hash
