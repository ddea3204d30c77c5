import Snort.Filters.Sfthd
import Snort.Hash.XHash

/-!
# Rate filters

`sfrf.cc`: the filters that change the action of a rule once its events come too
often. The events of each address are counted in a node of an `XHash`, which is
recycled when the table is emptied or full. Statistics and the code that adds
the configuration are left out.
-/

namespace Snort.Filters
open Sfip (SfIp SfipVar sfvarIpIn)
open Hash (XHash XConfig XData)

inductive FilterState where
  | new
  | off
  | on
deriving DecidableEq

inductive Action where
  | none
  | log
  | pass
  | alert
  | drop
  | block
  | reset
deriving DecidableEq

def Action.toInt : Action → ℤ
  | none => 0
  | log => 1
  | pass => 2
  | alert => 3
  | drop => 4
  | block => 5
  | reset => 6

/-- `Actions::MAX` -/
def actionsMax : ℤ := 7

inductive SfrfTrack where
  | bySrc
  | byDst
  | byRule
deriving DecidableEq

inductive CountOperation where
  | nop
  | reset
  | increment
  | decrement

structure SfrfConfigNode where
  tid : ℤ
  tracking : SfrfTrack
  count : BitVec 32
  seconds : BitVec 32
  newAction : Action
  timeout : BitVec 32
  applyTo : Option SfipVar

structure SfrfTrackingNode where
  filterState : FilterState
  overRate : Bool
  tlast : ℤ
  count : BitVec 32
  tstart : ℤ
  revertTime : ℤ
deriving DecidableEq

/-- A node in memory that was allocated and not written yet -/
def SfrfTrackingNode.zero : SfrfTrackingNode := ⟨.new, false, 0, 0, 0, 0⟩

structure SfrfKey where
  policyId : ℕ
  tid : ℤ
  ip : SfIp
deriving DecidableEq

/-- An event of a tracked address -/
structure Touch where
  cfgNode : SfrfConfigNode
  curTime : ℤ
  op : CountOperation

/-! ## One node -/

namespace Touch
variable (t : Touch) (node : SfrfTrackingNode)

/-- The end of `_getSFRFTrackingNode` -/
def firstTime : SfrfTrackingNode :=
  if node.filterState = .new then
    { node with tstart := t.curTime, tlast := t.curTime, filterState := .off }
  else node

def checkSamplingPeriod : SfrfTrackingNode :=
  let exceeds := decide (t.cfgNode.count < node.count)
  if t.cfgNode.seconds ≠ 0 then
    if t.cfgNode.seconds ≤ elapsed t.curTime node.tstart then
      { node with
        tstart := t.curTime
        overRate := if t.cfgNode.seconds < elapsed t.curTime node.tlast then false else exceeds
        tlast := t.curTime
        count := 0 }
    else { node with tlast := t.curTime }
  else { node with overRate := exceeds, tlast := t.curTime }

def countEvent : SfrfTrackingNode :=
  match t.op with
  | .increment => if node.count + 1 ≠ 0 then { node with count := node.count + 1 } else node
  | .decrement =>
    if t.cfgNode.seconds = 0 ∧ node.count ≠ 0 then { node with count := node.count - 1 } else node
  | .reset => { node with count := 0 }
  | .nop => node

/-- The test of `_checkThreshold` where the filter is not on -/
def checkLimit : ℤ × SfrfTrackingNode :=
  if node.count ≤ t.cfgNode.count ∧ node.overRate = false then (-1, node)
  else (actionsMax + t.cfgNode.newAction.toInt,
    { node with revertTime := t.curTime, filterState := .on, overRate := true })

def checkThreshold : ℤ × SfrfTrackingNode :=
  if node.filterState = .on then
    if t.cfgNode.timeout ≠ 0 ∧ t.cfgNode.timeout ≤ elapsed t.curTime node.revertTime then
      if t.cfgNode.count < node.count ∨ node.overRate = true then
        (t.cfgNode.newAction.toInt, { node with revertTime := t.curTime })
      else t.checkLimit { node with filterState := .off }
    else (t.cfgNode.newAction.toInt, node)
  else t.checkLimit node

/-- What `SFRF_TestObject` does with a node -/
def track : ℤ × SfrfTrackingNode :=
  let r := t.checkThreshold (t.countEvent (t.checkSamplingPeriod (t.firstTime node)))
  (r.1, if t.cfgNode.seconds = 0 ∧ t.cfgNode.count < r.2.count ∧ t.cfgNode.newAction = .drop then
    { r.2 with count := r.2.count - 1 } else r.2)
end Touch

/-! ## Events -/

structure RateEvent where
  policyId : ℕ
  gid : ℕ
  sid : ℕ
  sip : SfIp
  dip : SfIp
  curTime : ℤ
  op : CountOperation

inductive FilterOp where
  | test (e : RateEvent)
  | flush

/-- The objects by generator, rule and policy -/
abbrev RateFilterConfig := ℕ → ℕ → ℕ → List SfrfConfigNode

def sfrfMaxGenid : ℕ := 8129
def gidSession : ℕ := 135
def sessionEventSetup : ℕ := 2
def sessionEventClear : ℕ := 3

variable (cfgNode : SfrfConfigNode)

def SfrfConfigNode.appliesTo (ip : SfIp) : Bool :=
  cfgNode.applyTo.all fun var => sfvarIpIn var ip

/-- The address that an object tracks, if it applies to the event. Where it tracks by rule, the
address is cleared. -/
def SfrfConfigNode.address (e : RateEvent) : Option SfIp :=
  match cfgNode.tracking with
  | .bySrc => if cfgNode.appliesTo e.sip then some e.sip else none
  | .byDst => if cfgNode.appliesTo e.dip then some e.dip else none
  | .byRule => some ⟨fun _ => 0, .unspec, nofun⟩

section Store
variable {σ : Type} (touch : SfrfKey → Touch → σ → Option (ℤ × σ)) (flush : σ → Option σ)
  (config : RateFilterConfig) (e : RateEvent)

/-- The `switch` of the loop: `touch` is `SFRF_TestObject`. -/
def testTracked (op : CountOperation) (cfgNode : SfrfConfigNode) (newStatus : ℤ) (s : σ) :
    Option (ℤ × σ) :=
  match cfgNode.address e with
  | some ip => touch ⟨e.policyId, cfgNode.tid, ip⟩ ⟨cfgNode, e.curTime, op⟩ s
  | none => some (newStatus, s)

/-- The loop over the objects of a rule -/
def testObjects (e : RateEvent) (op : CountOperation) :
    List SfrfConfigNode → ℤ → ℤ → σ → Option (ℤ × σ)
  | [], _, status, s => some (status, s)
  | cfgNode :: nodes, newStatus, status, s => do
    let (newStatus, s) ← testTracked touch e op cfgNode newStatus s
    let status := if 0 ≤ newStatus ∧ status = -1 then newStatus else status
    testObjects e op nodes newStatus status s

def testRule (sid : ℕ) (op : CountOperation) (s : σ) : Option (ℤ × σ) :=
  testObjects touch e op (config e.gid sid e.policyId) (-1) (-1) s

/-- `SFRF_TestThreshold`. The end of a session also counts down the sessions. -/
def testThreshold (s : σ) : Option (ℤ × σ) :=
  if sfrfMaxGenid ≤ e.gid then some (-1, s)
  else if e.gid = gidSession ∧ e.sid = sessionEventClear then do
    let (_, s) ← testRule touch config e sessionEventSetup .decrement s
    testRule touch config e e.sid e.op s
  else testRule touch config e e.sid e.op s

/-- The decisions of a sequence of calls -/
def decisions : List FilterOp → σ → Option (List ℤ)
  | [], _ => some []
  | .test e :: ops, s => do
    let (status, s) ← testThreshold touch config e s
    (decisions ops s).map (status :: ·)
  | .flush :: ops, s => do
    let s ← flush s
    decisions ops s
end Store

/-! ## The table -/

section Table
variable (cfg : XConfig) (hash : SfrfKey → ℕ)

abbrev RfHash := XHash SfrfKey SfrfTrackingNode

/-- `SFRF_New` -/
def rfConfig (nodeSize memcap : ℕ) : XConfig := ⟨nodeSize, true, memcap, true, false, true⟩

variable (key : SfrfKey)

/-- `SFRF_TestObject` -/
def sfrfTestObject (t : Touch) (x : RfHash) : Option (ℤ × RfHash) := do
  let (node, x) ← x.getNode cfg hash key fun _ _ => false
  match node with
  | none => some (-1, x)
  | some a => do
    let c ← x.nodes.links.read (some a)
    match c.val with
    | none => some (-1, x)
    | some data => do
      let r := t.track (data.getD .zero)
      let nodes ← x.nodes.setData a fun _ => some (some r.2)
      some (r.1, { x with nodes })

/-- The memory of a node for the key was not used before: the key has a node already, or there is
no free node and a new one may be allocated. -/
def Unused (x : RfHash) : Prop :=
  x.nodes.findRow hash key ≠ some none ∨
    x.nodes.fhead = none ∧ (x.maxNodes = 0 ∨ x.count < x.maxNodes) ∧
      XHash.hasMemory cfg x.memused cfg.nodeSize

instance (key : SfrfKey) (x : RfHash) : Decidable (Unused cfg hash key x) :=
  inferInstanceAs (Decidable (_ ∨ _))

/-- A call of `SFRF_TestObject` that does not reuse memory. -/
def testUnused (t : Touch) (x : RfHash) : Option (ℤ × RfHash) :=
  if Unused cfg hash key x then sfrfTestObject cfg hash key t x else none
end Table

/-! ## Own events -/

/-- The events of each address since its node was created -/
abbrev Histories := SfrfKey → List Touch

def replay (history : List Touch) : SfrfTrackingNode :=
  history.foldl (fun node t => (t.track node).2) .zero

/-- The decision from the own events of the address -/
def testOwn (key : SfrfKey) (t : Touch) (own : Histories) : Option (ℤ × Histories) :=
  some ((t.track (replay (own key))).1, Function.update own key (own key ++ [t]))

def ownDecisions (config : RateFilterConfig) (ops : List FilterOp) : Option (List ℤ) :=
  decisions testOwn (fun _ => some fun _ => []) config ops fun _ => []
end Snort.Filters
