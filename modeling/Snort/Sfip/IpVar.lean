import Snort.Sfip.SfCidr

/-!
# Address variables

The variables of `sf_ipvar.cc`: a list of blocks that are in the variable and a
list of blocks that are not, each of them kept in order. Memory is not modelled,
so a list of nodes is a list and a deep copy is the list itself.
-/

namespace Snort.Sfip

theorem zeroAddr_isIp : (SfIp.set4 0).family ≠ .unspec := nofun

/-- The block of an `any`, which is read from the text `0.0.0.0`. -/
def anyCidr : SfCidr where
  addr := .set4 0
  bits := 128
  isIp := zeroAddr_isIp
  bits_le := le_rfl
  le_bits _ := by decide
  masked k hk hle := absurd hk (not_lt.mpr hle)

structure SfipNode where
  ip : SfCidr
  /-- `SFIP_ANY` of `flags` -/
  any : Bool
  /-- `SFIP_NEGATED` of `flags` -/
  negated : Bool
  /-- `SFIP_NEGATED` of `addr_flags` -/
  addrNegated : Bool
  any_ip : any = true → ip = anyCidr
deriving DecidableEq

theorem notAny_ip (ip : SfCidr) : false = true → ip = anyCidr := nofun

structure SfipVar where
  head : List SfipNode
  negHead : List SfipNode
  headCount : BitVec 32
  negHeadCount : BitVec 32
deriving DecidableEq

/-- `_alloc_var` -/
def SfipVar.alloc : SfipVar := ⟨[], [], 0, 0⟩

/-! ## Insertion -/

/-- The insertion sort of `sfvar_add_node`, on the nodes behind the first one. There is no new
list if the block is already there. -/
def insertNode (node : SfipNode) : List SfipNode → Option (List SfipNode)
  | [] => some [node]
  | q :: rest =>
    match node.ip.compare q.ip with
    | .equal => none
    | .lesser => some (node :: q :: rest)
    | _ => (insertNode node rest).map (q :: ·)

/-- `sfvar_add_node` on one of the lists and its count. -/
def addToList (list : List SfipNode) (count : BitVec 32) (node : SfipNode) :
    List SfipNode × BitVec 32 :=
  match list with
  | [] => ([node], count + 1)
  | head :: rest =>
    if head.any then (list, count)
    else if node.any then ([node], 1)
    else
      match node.ip.compare head.ip with
      | .equal => (list, count)
      | .lesser => (node :: list, count + 1)
      | _ =>
        -- this is not counted, but it cannot happen here either
        if node.any ∨ node.ip.addr.compare head.ip.addr = .lesser then (node :: list, count)
        else
          match insertNode node rest with
          | some rest => (head :: rest, count + 1)
          | none => (list, count)

/-- `sfvar_add_node` -/
def sfvarAddNode (var : SfipVar) (node : SfipNode) (negated : Bool) : SfipVar :=
  if negated then
    let (list, count) := addToList var.negHead var.negHeadCount node
    { var with negHead := list, negHeadCount := count }
  else
    let (list, count) := addToList var.head var.headCount node
    { var with head := list, headCount := count }

/-! ## Merging -/

/-- The loop of `merge_lists`: the merged nodes and their number. -/
def mergeLoop (list1 list2 : List SfipNode) (len1 len2 numNodes : BitVec 16) :
    List SfipNode × BitVec 16 :=
  match list1, list2 with
  | [], [] => ([], numNodes)
  | list1, [] => (list1, numNodes + len1)
  | [], list2 => (list2, numNodes + len2)
  | a :: rest1, b :: rest2 =>
    match a.ip.compare b.ip with
    | .lesser =>
      let (merged, n) := mergeLoop rest1 (b :: rest2) (len1 - 1) len2 (numNodes + 1)
      (a :: merged, n)
    | .greater =>
      let (merged, n) := mergeLoop (a :: rest1) rest2 len1 (len2 - 1) (numNodes + 1)
      (b :: merged, n)
    | _ =>
      let (merged, n) := mergeLoop rest1 rest2 (len1 - 1) (len2 - 1) (numNodes + 1)
      (a :: merged, n)
termination_by list1.length + list2.length

/-- `merge_lists`. The lengths are passed as 16 bits. -/
def mergeLists (list1 list2 : List SfipNode) (len1 len2 : BitVec 16) : List SfipNode × BitVec 32 :=
  match list1, list2 with
  | [], [] => ([], 0)
  | [], _ :: _ => (list2, len2.setWidth 32)
  | _ :: _, [] => (list1, len1.setWidth 32)
  | a :: _, b :: _ =>
    if a.any then (list1, len1.setWidth 32)
    else if b.any then (list2, len2.setWidth 32)
    else
      let (merged, n) := mergeLoop list1 list2 len1 len2 0
      (merged, n.setWidth 32)

/-- `sfvar_add` -/
def sfvarAdd (dst src : SfipVar) : SfipVar :=
  let (head, headCount) := mergeLists dst.head src.head (dst.headCount.setWidth 16)
    (src.headCount.setWidth 16)
  let (negHead, negHeadCount) := mergeLists dst.negHead src.negHead (dst.negHeadCount.setWidth 16)
    (src.negHeadCount.setWidth 16)
  ⟨head, negHead, headCount, negHeadCount⟩

/-! ## Membership -/

/-- What `sfvar_ip_in4` and `sfvar_ip_in6` differ in: the family, and how a block is asked for
an address of it. -/
structure Lookup where
  family : Family
  cont : SfCidr → SfIp → Bool

namespace Lookup
variable (l : Lookup) (ip : SfIp)

/-- The node excludes the address. -/
def excludes (node : SfipNode) : Bool := node.ip.addr.family = l.family && l.cont node.ip ip

/-- The node matches the address. One that is not set matches any address. -/
def matched (node : SfipNode) : Bool :=
  !node.ip.isSet || (node.ip.addr.family = l.family && l.cont node.ip ip)

/-- The loop when there are no more negations. -/
def ipInRest : List SfipNode → Bool → Bool
  | [], _ => false
  | pos :: rest, found =>
    if found then true
    -- the next round returns
    else if l.matched ip pos then true
    else ipInRest rest false

/-- The loop over both lists. The position stays where the first match was found. -/
def ipInLoop : List SfipNode → List SfipNode → Bool → Bool
  | [], pos, found => l.ipInRest ip pos found
  | _ :: _, [], _ => false
  | neg :: negs, pos :: rest, found =>
    if l.excludes ip neg then false
    else if found then ipInLoop negs (pos :: rest) true
    else if l.matched ip pos then ipInLoop negs (pos :: rest) true
    else ipInLoop negs rest false

def ipIn (var : SfipVar) : Bool :=
  match var.head with
  | [] => !var.negHead.any (l.excludes ip)
  | head => l.ipInLoop ip var.negHead head false
end Lookup

/-- `sfvar_ip_in4` -/
def sfvarIpIn4 (var : SfipVar) (ip : SfIp) : Bool := Lookup.ipIn ⟨.inet, SfCidr.fastCont4⟩ ip var

/-- `sfvar_ip_in6` -/
def sfvarIpIn6 (var : SfipVar) (ip : SfIp) : Bool := Lookup.ipIn ⟨.inet6, SfCidr.fastCont6⟩ ip var

/-- `sfvar_ip_in` -/
def sfvarIpIn (var : SfipVar) (ip : SfIp) : Bool :=
  if ip.family = .inet then sfvarIpIn4 var ip else sfvarIpIn6 var ip
end Snort.Sfip
