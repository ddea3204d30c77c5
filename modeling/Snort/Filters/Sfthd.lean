import Snort.Sfip.IpVar

/-!
# Event thresholds

`sfthd.cc`: the objects that thin out the events of a rule. An object counts the
events of each address in the nodes of a hash table. The table is a map, so a
node is never recovered, and the statistics are left out.
-/

namespace Snort.Filters
open Sfip (SfIp SfipVar sfvarIpIn)

inductive ThdType where
  | limit
  | threshold
  | both
  | suppress
  | detect
deriving DecidableEq

inductive ThdTracking where
  | none
  | src
  | dst
deriving DecidableEq

/-- A thresholding object -/
structure ThdNode where
  thdId : ℤ
  genId : ℕ
  tracking : ThdTracking
  type : ThdType
  count : ℤ
  seconds : BitVec 32
  ipAddress : Option SfipVar

/-- What is kept of an address -/
structure ThdIpNode where
  count : BitVec 32
  prev : BitVec 32
  tstart : ℤ
  tlast : ℤ

structure ThdIpNodeKey where
  thdId : ℤ
  policyId : ℕ
  ip : SfIp
deriving DecidableEq

structure ThdIpGnodeKey where
  genId : ℕ
  sigId : ℕ
  policyId : ℕ
  ip : SfIp
deriving DecidableEq

structure ThdStruct where
  ipNodes : ThdIpNodeKey → Option ThdIpNode
  ipGnodes : ThdIpGnodeKey → Option ThdIpNode

/-- The objects of a rule, in their order, and those of a generator -/
structure ThresholdObjects where
  sfthdArray (genId sigId policyId : ℕ) : List ThdNode
  sfthdGarray (policyId genId : ℕ) : Option ThdNode

def thdMaxGenid : ℕ := 8129

/-- `(unsigned)(curtime - tstart)` -/
def elapsed (curtime tstart : ℤ) : BitVec 32 := BitVec.ofInt 32 (curtime - tstart)

variable (node : ThdNode)

def sfthdTestSuppress (ip : SfIp) : ℤ :=
  if node.ipAddress.all fun var => sfvarIpIn var ip then -1 else 1

/-- A window that is over starts again. -/
def restart (ip : ThdIpNode) (curtime : ℤ) : ThdIpNode :=
  if node.seconds ≤ elapsed curtime ip.tstart then { ip with tstart := curtime, count := 1 } else ip

def sfthdTestNonSuppress (ip : ThdIpNode) (curtime : ℤ) : ℤ × ThdIpNode :=
  match node.type with
  | .detect =>
    let prev := if node.seconds < elapsed curtime ip.tlast then 0 else ip.count - 1
    let ip := if node.seconds ≤ elapsed curtime ip.tstart then
      { ip with tstart := curtime, prev, count := 1 } else ip
    let ip := { ip with tlast := curtime }
    if node.count < ip.count.toInt ∨ node.count < ip.prev.toInt then (0, ip) else (-2, ip)
  | .limit =>
    let ip := restart node ip curtime
    if ip.count.toInt ≤ node.count then (0, ip) else (-2, ip)
  | .threshold =>
    let ip := restart node ip curtime
    if node.count ≤ ip.count.toInt then (0, { ip with count := 0, tstart := curtime }) else (-2, ip)
  | .both =>
    -- the first event of a later window is not logged, whatever the count
    if node.seconds ≤ elapsed curtime ip.tstart then (-2, restart node ip curtime)
    else if node.count ≤ ip.count.toInt then
      if node.count < ip.count.toInt then (-2, ip) else (0, ip)
    else (-2, ip)
  | .suppress => (0, ip)

/-- An event of an address: the count of its node goes up. The node of a new address is put in the
table as it is, and a copy of it is tested. -/
def countEvent (curtime : ℤ) : Option ThdIpNode → ℤ × ThdIpNode
  | some ip => sfthdTestNonSuppress node { ip with count := ip.count + 1 } curtime
  | none =>
    let data : ThdIpNode := ⟨1, 0, curtime, curtime⟩
    ((sfthdTestNonSuppress node data curtime).1, data)

structure Event where
  sip : SfIp
  dip : SfIp
  curtime : ℤ

/-- The address that the object tracks -/
def ThdNode.tracked (e : Event) : SfIp :=
  if node.tracking = .src then e.sip else e.dip

section Test
variable {κ : Type} [DecidableEq κ]

/-- An event against an object, whose nodes are in `table`. -/
def testObject (node : ThdNode) (key : SfIp → κ) (table : κ → Option ThdIpNode) (e : Event) :
    ℤ × (κ → Option ThdIpNode) :=
  let ip := node.tracked e
  if node.count = -1 then (0, table)
  else if node.type = .suppress then (sfthdTestSuppress node ip, table)
  else
    let r := countEvent node e.curtime (table (key ip))
    (r.1, Function.update table (key ip) (some r.2))
end Test

section Threshold
variable (policyId : ℕ) (objs : ThresholdObjects) (genId sigId : ℕ) (node : ThdNode)

def localKey (ip : SfIp) : ThdIpNodeKey := ⟨node.thdId, policyId, ip⟩

def globalKey (ip : SfIp) : ThdIpGnodeKey := ⟨node.genId, sigId, policyId, ip⟩

variable (thd : ThdStruct) (e : Event)

def sfthdTestLocal : ℤ × ThdStruct :=
  let r := testObject node (localKey policyId node) thd.ipNodes e
  (r.1, { thd with ipNodes := r.2 })

def sfthdTestGlobal : ℤ × ThdStruct :=
  let r := testObject node (globalKey policyId sigId node) thd.ipGnodes e
  (r.1, { thd with ipGnodes := r.2 })

/-- The loop over the objects of a rule, up to the first that decides. -/
def testLocals (e : Event) : List ThdNode → ThdStruct → Option ℤ × ThdStruct
  | [], thd => (none, thd)
  | node :: nodes, thd =>
    let (status, thd) := sfthdTestLocal policyId node thd e
    if status < 0 then (some (if status < -1 then 1 else -1), thd)
    else if status = 0 then (some 0, thd)
    else testLocals e nodes thd

/-- The event is logged if the result is zero. -/
def sfthdTestThreshold : ℤ × ThdStruct :=
  if thdMaxGenid ≤ genId then (0, thd)
  else
    match testLocals policyId e (objs.sfthdArray genId sigId policyId) thd with
    | (some status, thd) => (status, thd)
    | (none, thd) =>
      match objs.sfthdGarray policyId genId with
      | some node =>
        let (status, thd) := sfthdTestGlobal policyId sigId node thd e
        (if status < 0 then if status < -1 then 1 else -1 else 0, thd)
      | none => (0, thd)

/-- Which of the events are logged -/
def logged : ThdStruct → List Event → List Bool
  | _, [] => []
  | thd, e :: events =>
    let (status, thd) := sfthdTestThreshold policyId objs genId sigId thd e
    decide (status = 0) :: logged thd events

/-- A suppressor that does not cover the address leaves the event to the next object. -/
def ThdNode.PassesOn (e : Event) : Prop :=
  node.count ≠ -1 ∧ node.type = .suppress ∧ sfthdTestSuppress node (node.tracked e) = 1

instance : Decidable (node.PassesOn e) := inferInstanceAs (Decidable (_ ∧ _))

/-- The event is decided by the object: those in front of it pass it on. -/
def Governs : Prop :=
  (∃ before nodes, objs.sfthdArray genId sigId policyId = before ++ node :: nodes ∧
      ∀ s ∈ before, s.PassesOn e) ∨
    (∀ s ∈ objs.sfthdArray genId sigId policyId, s.PassesOn e) ∧
      objs.sfthdGarray policyId genId = some node

/-- The object has no node for the address. -/
def Untracked (ip : SfIp) : Prop :=
  thd.ipNodes (localKey policyId node ip) = none ∧
    thd.ipGnodes (globalKey policyId sigId node ip) = none
end Threshold

/-! ## One address -/

section Entry
variable {policyId : ℕ} {objs : ThresholdObjects} {genId sigId : ℕ} {node : ThdNode} {ip : SfIp}

/-- Which of the events of an address are logged, by the node of the address. -/
def entryLogged (node : ThdNode) : Option ThdIpNode → List ℤ → List Bool
  | _, [] => []
  | entry, t :: ts =>
    decide ((countEvent node t entry).1 = 0) ::
      entryLogged node (some (countEvent node t entry).2) ts

theorem countEvent_cases (node : ThdNode) (t : ℤ) (entry : Option ThdIpNode) :
    (countEvent node t entry).1 = 0 ∨ (countEvent node t entry).1 = -2 := by
  have htest (ip : ThdIpNode) : (sfthdTestNonSuppress node ip t).1 = 0 ∨
      (sfthdTestNonSuppress node ip t).1 = -2 := by
    unfold sfthdTestNonSuppress
    cases node.type <;> dsimp only
    case suppress => exact .inl rfl
    all_goals split_ifs <;> simp
  cases entry with
  | none => exact htest _
  | some ip => exact htest _

theorem testObject_eq {κ : Type} [DecidableEq κ] (key : SfIp → κ) (table : κ → Option ThdIpNode)
    {e : Event} (hcount : 1 ≤ node.count) (htype : node.type ≠ .suppress)
    (hip : node.tracked e = ip) :
    testObject node key table e = ((countEvent node e.curtime (table (key ip))).1,
      Function.update table (key ip) (some (countEvent node e.curtime (table (key ip))).2)) := by
  unfold testObject
  rw [if_neg (by omega), if_neg htype, hip]

/-- The node of the address in the table of the object: that of the rule's objects, unless all of
them are suppressors. -/
def entryOf (policyId : ℕ) (objs : ThresholdObjects) (genId sigId : ℕ) (node : ThdNode) (ip : SfIp)
    (thd : ThdStruct) : Option ThdIpNode :=
  if ∀ s ∈ objs.sfthdArray genId sigId policyId, s.type = .suppress then
    thd.ipGnodes (globalKey policyId sigId node ip)
  else thd.ipNodes (localKey policyId node ip)

theorem testLocals_passed {e : Event} {before : List ThdNode}
    (hpass : ∀ s ∈ before, s.PassesOn e) (nodes : List ThdNode) (thd : ThdStruct) :
    testLocals policyId e (before ++ nodes) thd = testLocals policyId e nodes thd := by
  induction before with
  | nil => rfl
  | cons s before ih =>
    obtain ⟨⟨hcount, htype, hstatus⟩, hpass⟩ := List.forall_mem_cons.mp hpass
    have htest : sfthdTestLocal policyId s thd e = (1, thd) := by
      unfold sfthdTestLocal testObject
      rw [if_neg hcount, if_pos htype, hstatus]
    rw [List.cons_append, testLocals, htest]
    exact ih hpass

section
variable (hgen : genId < thdMaxGenid) (hcount : 1 ≤ node.count) (htype : node.type ≠ .suppress)
include hgen hcount htype

/-- An event is decided by the node of its address, and the test leaves the node as it counted
it. -/
theorem testThreshold_entry {e : Event} (hobj : Governs policyId objs genId sigId node e)
    (hip : node.tracked e = ip) (thd : ThdStruct) :
    let r := countEvent node e.curtime (entryOf policyId objs genId sigId node ip thd)
    let r' := sfthdTestThreshold policyId objs genId sigId thd e
    (r'.1 = 0 ↔ r.1 = 0) ∧ entryOf policyId objs genId sigId node ip r'.2 = some r.2 := by
  unfold sfthdTestThreshold entryOf
  rw [if_neg (Nat.not_le.mpr hgen)]
  rcases hobj with ⟨before, nodes, hlocal, hpass⟩ | ⟨hpass, hglobal⟩
  · have htest : sfthdTestLocal policyId node thd e = (_, { thd with ipNodes := _ }) :=
      congrArg (fun r => (r.1, { thd with ipNodes := r.2 })) (testObject_eq _ _ hcount htype hip)
    have hmixed : ¬∀ s ∈ before ++ node :: nodes, s.type = .suppress := fun h =>
      htype (h node (List.mem_append_right _ List.mem_cons_self))
    simp only [hlocal, testLocals_passed hpass, testLocals, htest, if_neg hmixed]
    rcases countEvent_cases node e.curtime (thd.ipNodes (localKey policyId node ip)) with h | h
    all_goals simp [h]
  · have htest : sfthdTestGlobal policyId sigId node thd e = (_, { thd with ipGnodes := _ }) :=
      congrArg (fun r => (r.1, { thd with ipGnodes := r.2 })) (testObject_eq _ _ hcount htype hip)
    have hlocals : testLocals policyId e (objs.sfthdArray genId sigId policyId) thd =
        (none, thd) := by
      rw [← List.append_nil (objs.sfthdArray genId sigId policyId), testLocals_passed hpass]
      rfl
    have hall : ∀ s ∈ objs.sfthdArray genId sigId policyId, s.type = .suppress :=
      fun s hs => (hpass s hs).2.1
    simp only [hlocals, hglobal, htest, if_pos hall]
    rcases countEvent_cases node e.curtime (thd.ipGnodes (globalKey policyId sigId node ip)) with
      h | h
    all_goals simp [h]

theorem logged_eq {events : List Event}
    (hobj : ∀ e ∈ events, Governs policyId objs genId sigId node e)
    (hip : ∀ e ∈ events, node.tracked e = ip) (thd : ThdStruct) :
    logged policyId objs genId sigId thd events =
      entryLogged node (entryOf policyId objs genId sigId node ip thd)
        (events.map Event.curtime) := by
  induction events generalizing thd with
  | nil => rfl
  | cons e events ih =>
    obtain ⟨he, hip⟩ := List.forall_mem_cons.mp hip
    obtain ⟨hgoverns, hobj⟩ := List.forall_mem_cons.mp hobj
    obtain ⟨hstatus, hentry⟩ := testThreshold_entry hgen hcount htype hgoverns he thd
    rw [logged, List.map_cons, entryLogged, ← hentry]
    exact congrArg₂ List.cons (decide_eq_decide.mpr hstatus) (ih hobj hip _)
end
end Entry
end Snort.Filters
