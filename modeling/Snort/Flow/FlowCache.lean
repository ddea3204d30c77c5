import Snort.Hash.ZHash
import Snort.Structures.SentinelList

/-!
# The cache of flows

`flow_cache.cc`: the flows of a protocol are kept in a hash table. A flow that gets
its memory by pruning another one is also put on a list of flows seen in one
direction only, which stands between two sentinels. When no memory is left a flow
is pruned: one not used for a while, else one of the list, else any.
-/

namespace Snort.Flow
open DoublyLinked
open Snort.Hash (ZHash)

/-! ## Flows -/

/-- `FlowConfig`. The module takes no fewer than two sessions. -/
structure FlowConfig where
  maxSessions : ℕ
  pruningTimeout : ℕ
  nominalTimeout : ℕ
  two_le : 2 ≤ maxSessions

inductive PruneReason where
  | idle
  | excess
  | uni
  | preemptive
  | memcap
  | ha
  | none
  deriving DecidableEq

def ssnflagTimedout : BitVec 32 := 0x00001000
def ssnflagPruned : BitVec 32 := 0x00002000
def ssnflagDropClient : BitVec 32 := 0x00010000
def ssnflagDropServer : BitVec 32 := 0x00020000
def ssnflagBlock : BitVec 32 := ssnflagDropClient ||| ssnflagDropServer

/-- The fields of a flow that the cache reads or writes, its links apart. The key is the memory of
a node of the table. -/
structure CachedFlow where
  key : Option ℕ
  lastDataSeen : ℕ
  sessionFlags : BitVec 32
  offloadsPending : ℕ
  deriving DecidableEq

namespace CachedFlow

/-- The memory of a new flow is zeroed. -/
def zero : CachedFlow := ⟨none, 0, 0, 0⟩

variable (f : CachedFlow)

def wasBlocked : Bool := f.sessionFlags &&& ssnflagBlock != 0

def isOffloaded : Bool := f.offloadsPending != 0

/-- `Flow::reset` zeroes the end of the structure, which has the flags and the count of offloads. -/
def reset : CachedFlow := { f with sessionFlags := 0, offloadsPending := 0 }

def setFlag (flag : BitVec 32) : CachedFlow := { f with sessionFlags := f.sessionFlags ||| flag }
end CachedFlow

/-! ## The cache -/

/-- The cache. The links of the flows are kept apart from their other fields; `released` logs the
calls of `release`, of which `prune_stats` has the numbers. -/
structure FlowCache (κ : Type) where
  config : FlowConfig
  table : ZHash κ ℕ
  links : Heap Unit
  flows : ℕ → Option CachedFlow
  uniHead : ℕ
  uniTail : ℕ
  uniCount : ℕ
  released : List (ℕ × PruneReason)

namespace FlowCache
variable {κ : Type} [DecidableEq κ]

/-- `cleanup_flows` -/
def cleanupFlows : ℕ := 1

section Calls
variable (hash : κ → ℕ) (c : FlowCache κ)

/-- `(config.max_sessions >> 2) + 1` -/
def maxUni : ℕ := (c.config.maxSessions >>> 2) + 1

/-- `config.max_sessions - cleanup_flows` -/
def maxCap : ℕ := c.config.maxSessions - cleanupFlows

variable (a : ℕ)

def setFlow (f : CachedFlow) : FlowCache κ :=
  { c with flows := Function.update c.flows a (some f) }

variable (reason : PruneReason)

/-- `push` -/
def push : Option (FlowCache κ) := do
  let (node, table) ← c.table.push a
  let f ← c.flows a
  some ({ c with table }.setFlow a { f with key := some node })

/-- `find` -/
def find (key : κ) (now : ℕ) : Option (Option ℕ × FlowCache κ) := do
  let (flow, table) ← c.table.find hash key
  let c := { c with table }
  match flow with
  | none => some (none, c)
  | some a => do
    let f ← c.flows a
    if f.lastDataSeen < now then some (some a, c.setFlow a { f with lastDataSeen := now })
    else some (some a, c)

/-- `link_uni` -/
def linkUni : Option (FlowCache κ) := do
  let links ← c.links.linkAfter c.uniHead a
  some { c with links, uniCount := c.uniCount + 1 }

/-- `unlink_uni` -/
def unlinkUni : Option (FlowCache κ) := do
  let x ← c.links.read (some a)
  if x.next = none then some c
  else do
    let links ← c.links.unlinkSelf a
    some { c with links, uniCount := c.uniCount - 1 }

/-- The key in the memory of a node. -/
def keyIn (node : Option ℕ) : Option κ :=
  (c.table.nodes.rowLinks.read node).bind fun r => r.val.key

/-- `remove` -/
def remove : Option (Bool × FlowCache κ) := do
  let c ← c.unlinkUni a
  let f ← c.flows a
  let key ← c.keyIn f.key
  let (removed, table) ← c.table.removeKey hash key
  some (removed, { c with table })

/-- `release` -/
def release : Option (Bool × FlowCache κ) := do
  let f ← c.flows a
  let c := c.setFlow a f.reset
  { c with released := c.released ++ [(a, reason)] }.remove hash a

/-- `hash_table->first()` -/
def first : Option (Option ℕ × FlowCache κ) :=
  c.table.first.map fun r => (r.1, { c with table := r.2 })

/-- A flow is marked and released. -/
def markRelease (flag : BitVec 32) (reason : PruneReason) : Option (FlowCache κ) := do
  let f ← c.flows a
  let (_, c) ← (c.setFlow a (f.setFlag flag)).release hash a reason
  some c
end Calls

section Pruning
variable (hash : κ → ℕ)

/-- The loop of `prune_stale`, at a flow. -/
def pruneStaleLoop (thetime : ℕ) (saveMe : Option ℕ) :
    ℕ → ℕ → Option ℕ → FlowCache κ → Option (ℕ × FlowCache κ)
  | _, pruned, none, c => some (pruned, c)
  | 0, _, some _, _ => none
  | fuel + 1, pruned, some a, c =>
    if cleanupFlows < pruned then some (pruned, c)
    else if some a = saveMe then some (pruned, c)
    else do
      let f ← c.flows a
      if f.isOffloaded then some (pruned, c)
      else if thetime ≤ f.lastDataSeen + c.config.pruningTimeout then some (pruned, c)
      else do
        let c ← c.markRelease hash a ssnflagTimedout .idle
        let (flow, c) ← c.first
        pruneStaleLoop thetime saveMe fuel (pruned + 1) flow c

/-- `prune_stale` -/
def pruneStale (thetime : ℕ) (saveMe : Option ℕ) (c : FlowCache κ) : Option (ℕ × FlowCache κ) := do
  let (flow, c) ← c.first
  c.pruneStaleLoop hash thetime saveMe (cleanupFlows + 2) 0 flow

/-- The loop of `prune_unis`, at a flow of the list or a sentinel. -/
def pruneUnisLoop : ℕ → ℕ → Option ℕ → FlowCache κ → Option (ℕ × FlowCache κ)
  | 0, _, _, _ => none
  | _ + 1, pruned, none, c => some (pruned, c)
  | fuel + 1, pruned, some a, c =>
    if c.maxUni < c.uniCount ∧ pruned < cleanupFlows then do
      let x ← c.links.read (some a)
      let f ← c.flows a
      if f.wasBlocked then pruneUnisLoop fuel pruned x.prev c
      else do
        let (_, c) ← c.release hash a .uni
        pruneUnisLoop fuel (pruned + 1) x.prev c
    else some (pruned, c)

variable (c : FlowCache κ)

/-- `prune_unis` -/
def pruneUnis : Option (ℕ × FlowCache κ) := do
  let tail ← c.links.read (some c.uniTail)
  c.pruneUnisLoop hash (c.uniCount + 3) 0 tail.prev

/-- The loop of `prune_excess`. -/
def pruneExcessLoop (saveMe : Option ℕ) :
    ℕ → ℕ → ℕ → ℕ → FlowCache κ → Option (ℕ × FlowCache κ)
  | 0, _, _, _, _ => none
  | fuel + 1, pruned, blocks, ignoreOffloads, c =>
    if c.maxCap < c.table.count ∧ blocks < c.table.count then do
      let (flow, c) ← c.first
      -- `assert(flow)`
      let a ← flow
      let f ← c.flows a
      if saveMe = some a ∨ f.wasBlocked ∨ (f.isOffloaded ∧ ignoreOffloads ≠ 0) then do
        let (touched, table) ← c.table.touch
        let blocks := if f.wasBlocked then blocks + 1 else blocks
        if touched then
          pruneExcessLoop saveMe fuel pruned blocks (ignoreOffloads - 1) { c with table }
        else some (pruned, { c with table })
      else do
        let c ← c.markRelease hash a ssnflagPruned .excess
        pruneExcessLoop saveMe fuel (pruned + 1) blocks (ignoreOffloads - 1) c
    else some (pruned, c)

/-- `prune_excess`. The offloaded flows are passed over as often as there are flows. -/
def pruneExcess (saveMe : Option ℕ) (c : FlowCache κ) : Option (ℕ × FlowCache κ) :=
  c.pruneExcessLoop hash saveMe (6 * c.table.count + 2) 0 0 c.table.count

/-- `prune_one` -/
def pruneOne (reason : PruneReason) (c : FlowCache κ) : Option (Bool × FlowCache κ) :=
  if c.table.count ≤ 1 then some (false, c)
  else do
    let (flow, c) ← c.first
    let a ← flow
    let c ← c.markRelease hash a ssnflagPruned reason
    some (true, c)

/-- The loop of `timeout`, at a flow. Whether a flow is in standby is up to the high availability
manager. -/
def timeoutLoop (standby : ℕ → Bool) (numFlows thetime : ℕ) :
    ℕ → ℕ → Option ℕ → FlowCache κ → Option (ℕ × FlowCache κ)
  | 0, _, _, _ => none
  | _ + 1, retired, none, c => some (retired, c)
  | fuel + 1, retired, some a, c =>
    if retired < numFlows then do
      let f ← c.flows a
      if thetime < f.lastDataSeen + c.config.nominalTimeout then some (retired, c)
      else if standby a ∨ f.isOffloaded then do
        let (flow, table) ← c.table.next
        timeoutLoop standby numFlows thetime fuel retired flow { c with table }
      else do
        let c ← c.markRelease hash a ssnflagTimedout .idle
        let flow ← c.table.current
        timeoutLoop standby numFlows thetime fuel (retired + 1) flow c
    else some (retired, c)

/-- The flow a timeout starts with. -/
def timeoutStart : Option (Option ℕ × FlowCache κ) := do
  let flow ← c.table.current
  match flow with
  | some a => some (some a, c)
  | none => c.first

/-- `timeout` -/
def timeout (standby : ℕ → Bool) (numFlows thetime : ℕ) (c : FlowCache κ) :
    Option (ℕ × FlowCache κ) := do
  let (flow, c) ← c.timeoutStart
  c.timeoutLoop hash standby numFlows thetime (c.table.count + 1) 0 flow

/-- The loop of `purge`. -/
def purgeLoop : ℕ → ℕ → FlowCache κ → Option (ℕ × FlowCache κ)
  | 0, _, _ => none
  | fuel + 1, retired, c => do
    let (flow, c) ← c.first
    match flow with
    | none => some (retired, c)
    | some a => do
      let (_, c) ← c.release hash a .none
      purgeLoop fuel (retired + 1) c

/-- `purge` -/
def purge : Option (ℕ × FlowCache κ) := c.purgeLoop hash (c.table.count + 1) 0

/-- What `get` does to have a free node. The time is passed on in 32 bits. -/
def makeRoom (now : ℕ) (c : FlowCache κ) : Option (FlowCache κ) := do
  let (stale, c) ← c.pruneStale hash (now % 2 ^ 32) none
  if stale ≠ 0 then some c
  else do
    let (unis, c) ← c.pruneUnis hash
    if unis ≠ 0 then some c
    else do
      let (_, c) ← c.pruneExcess hash none
      some c

/-- The second half of `get`. There is no flow in the result where `assert(flow)` fails. -/
def getAgain (key : κ) (now : ℕ) (c : FlowCache κ) : Option (Option ℕ × FlowCache κ) := do
  let (flow, _, table) ← c.table.get hash key
  match flow with
  | none => some (none, { c with table })
  | some a => do
    let f ← c.flows a
    let c ← ({ c with table }.setFlow a f.reset).linkUni a
    let f ← c.flows a
    some (some a, c.setFlow a { f with lastDataSeen := now })

/-- `get` -/
def get (key : κ) (now : ℕ) (c : FlowCache κ) : Option (Option ℕ × FlowCache κ) := do
  let (flow, _, table) ← c.table.get hash key
  match flow with
  | some a => do
    let f ← c.flows a
    some (some a, { c with table }.setFlow a { f with lastDataSeen := now })
  | none => do
    let c ← { c with table }.makeRoom hash now
    c.getAgain hash key now
end Pruning

/-! ## The cache of a protocol -/

/-- `ZHash::nearest_powerof2` -/
def nearestPowerof2 (rows : ℕ) : ℕ :=
  [1, 2, 4, 8, 16].foldl (fun r i => r ||| (r >>> i)) (rows - 1) + 1

/-- The constructor: a table without nodes, and the two sentinels. The memory of the flows to come
stands behind them. -/
def new (config : FlowConfig) : FlowCache κ where
  config := config
  table := ZHash.new (nearestPowerof2 config.maxSessions)
  links := fun a =>
    if a = 0 then some ⟨none, some 1, ()⟩
    else if a = 1 then some ⟨some 0, none, ()⟩
    else if a < config.maxSessions + 2 then some ⟨none, none, ()⟩
    else none
  flows := fun a => if a < config.maxSessions + 2 then some .zero else none
  uniHead := 0
  uniTail := 1
  uniCount := 0
  released := []

/-- Flows are pushed. -/
def pushAll : List ℕ → FlowCache κ → Option (FlowCache κ)
  | [], c => some c
  | a :: l, c => do
    let c ← c.push a
    pushAll l c

/-- `FlowControl::init_proto` -/
def initProto (config : FlowConfig) : Option (FlowCache κ) :=
  (new config).pushAll ((List.range config.maxSessions).map (· + 2))
end FlowCache
end Snort.Flow
