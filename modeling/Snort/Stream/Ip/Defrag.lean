import Snort.Structures.ListProgram
import Snort.Stream.Ip.FragTracker

/-!
# IP defragmentation

`Defrag` of `ip_defrag.cc`. What it does to the list of fragments is written as a
program on linked lists; the pointers and counters of the list are those of
`add_node` and `delete_node`. The loops have fuel, far more than a datagram has
bytes.
-/

namespace Snort.Ip
open DoublyLinked ListProgram

/-! ## The list -/

/-- The list of a tracker: the fragments in memory, and the fields that belong to the list. -/
structure Fraglist where
  heap : Heap Fragment
  fraglist : Option ℕ
  fraglistTail : Option ℕ
  fraglistCount : ℤ
  /-- the next address that is free -/
  fresh : ℕ

namespace Fraglist
variable (fl : Fraglist)

/-- The fragment that a new one behind `prev` is put in front of. -/
def nextOf : Option ℕ → Option (Option ℕ)
  | some p => (fl.heap p).map Cell.next
  | none => some fl.fraglist

/-- `add_node`, for a fragment that is allocated at `a` -/
def addNode (prev : Option ℕ) (a : ℕ) (frag : Fragment) : Option Fraglist := do
  let next ← fl.nextOf prev
  -- a null `next` has no `prev` to be set, but makes the fragment the tail
  some { fl with
    heap := fl.heap.link prev next a frag
    fraglist := if prev.isSome then fl.fraglist else some a
    fraglistTail := if next.isSome then fl.fraglistTail else some a
    fraglistCount := fl.fraglistCount + 1 }

/-- `delete_node` -/
def deleteNode (a : ℕ) : Option Fraglist := do
  let node ← fl.heap a
  some { fl with
    heap := (fl.heap.unlink node.prev node.next).free a
    fraglist := if node.prev.isSome then fl.fraglist else node.next
    fraglistTail := if node.next.isSome then fl.fraglistTail else node.prev
    fraglistCount := fl.fraglistCount - 1 }
end Fraglist

/-- The commands on the list of a tracker. -/
def fragMachine : Machine Fragment Fraglist where
  first fl := fl.fraglist
  next fl p := (fl.heap p).map Cell.next
  prev fl p := (fl.heap p).map Cell.prev
  load fl p := (fl.heap p).map Cell.val
  store fl p frag := do
    let heap ← fl.heap.write (some p) fun c => { c with val := frag }
    some { fl with heap }
  link fl left frag := do
    let fl' ← fl.addNode left fl.fresh frag
    some (fl.fresh, { fl' with fresh := fl.fresh + 1 })
  unlink fl p := fl.deleteNode p

/-- `p->next` of a fragment -/
abbrev nextFrag (p : ℕ) : Prog Fragment (Option ℕ) := next p

/-- `p->prev` of a fragment -/
abbrev prevFrag (p : ℕ) : Prog Fragment (Option ℕ) := prev p

/-- The fields of a fragment. -/
abbrev loadFrag (p : ℕ) : Prog Fragment Fragment := load p

/-! ## Insertion -/

/-- A part of `insert`, which may return from it. -/
abbrev Insert := ExceptT (InsertRet × FragTracker) (Prog Fragment)

def loopFuel : ℕ := 2 ^ 18

/-- The variables of `insert` that change while it edits the list. -/
structure Edit where
  ft : FragTracker
  fragOffset : ℕ
  slide : ℤ
  trunc : ℤ
  left : Option ℕ
  right : Option ℕ
  done : Bool
  addthis : Bool
  alertedOverlap : Bool

section Insertion
variable (fe : FragEngine) (p : Packet) (new : NewFrag) (ft : FragTracker)

/-- `add_frag_node` -/
def addFragNode (lastfrag : Bool) (len : ℤ) (slide trunc fragOffset : ℕ) (left : Option ℕ) :
    Insert (FragTracker × Fragment) :=
  let newSize := i16 (len - slide - trunc)
  if newSize ≤ 0 then throw (.anomaly, ft)
  else do
    let newfrag : Fragment := ⟨p.data, slide, newSize.toNat, fragOffset, ft.ordinal, lastfrag⟩
    let _ ← link left newfrag
    pure ({ ft with ordinal := ft.ordinal + 1 }.addBytes newfrag.size, newfrag)

/-- `dup_frag_node` -/
def dupFragNode (left : ℕ) : Prog Fragment (FragTracker × ℕ) := do
  let frag ← loadFrag left
  let newfrag := { frag with ord := ft.ordinal }
  let right ← link (some left) newfrag
  pure ({ ft with ordinal := ft.ordinal + 1 }.addBytes newfrag.size, right)

/-- The walk over the list: the last fragment before the offset, and the one behind it. -/
def findNeighbours (fragOffset : ℕ) : ℕ → Option ℕ → Option ℕ → Prog Fragment (Option ℕ × Option ℕ)
  | 0, _, _ => .fail
  | _, left, none => pure (left, none)
  | fuel + 1, left, some idx => do
    let right ← loadFrag idx
    if fragOffset ≤ right.offset then pure (left, some idx)
    else
      let next ← nextFrag idx
      findNeighbours fragOffset fuel (some idx) next

/-- A last fragment that does not end where the datagram does. -/
def isTeardrop : Bool :=
  (new.fragEnd < ft.calculatedSize || (ft.gotLast && new.fragEnd ≠ ft.calculatedSize)) && !p.mf

def teardrop : InsertRet × FragTracker :=
  (.attack, { ft with bad := true }.alert .teardrop)

/-! ### Overlaps on the left -/

variable (ed : Edit)

/-- The new fragment is moved behind the left one. -/
def slideLeft (overlap : ℤ) : Edit :=
  { ed with fragOffset := u16 (ed.fragOffset + i16 overlap), slide := i16 overlap }

/-- `left_overlap_last` -/
def dumpLeft (l : ℕ) : Prog Fragment Edit := do
  let left ← loadFrag l
  if left.size = 0 then
    let prev ← prevFrag l
    unlink l
    pure { ed with left := prev }
  else pure ed

/-- The left fragment is truncated. If it ends behind the new one, it is split. -/
def truncateLeft (l : ℕ) (left : Fragment) (overlap : ℤ) : Prog Fragment Edit := do
  let newEnd : ℤ := ed.fragOffset + new.len
  let left' := { left with size := u16 (left.size - i16 overlap) }
  if left.offset < ed.fragOffset ∧ newEnd < left.fin then
    let (ft, r) ← dupFragNode ed.ft l
    store l left'
    let right ← loadFrag r
    let delta := newEnd - left.offset
    store r { right with
      offset := u16 newEnd
      size := u16 (right.size - delta)
      data := right.data + delta }
    dumpLeft { ed with ft := (ft.addBytes (-i16 overlap)).addBytes (-delta), right := some r } l
  else
    store l left'
    dumpLeft { ed with ft := ed.ft.addBytes (-i16 overlap) } l

/-- The policies for an overlap on the left. -/
def resolveLeft (l : ℕ) (left : Fragment) (overlap : ℤ) : Insert Edit :=
  match ed.ft.fragPolicy with
  | .linux | .first | .windows | .solaris | .bsd =>
    let ed := slideLeft ed overlap
    if new.fragEnd ≤ ed.fragOffset then throw (.anomaly, ed.ft.alert .anomalyZero) else pure ed
  | .bsdRight =>
    -- new fragments are favored, except when the existing one ends at a higher or equal offset
    if ed.fragOffset + new.len ≤ left.fin then dumpLeft (slideLeft ed overlap) l
    else truncateLeft new ed l left overlap
  | .last => truncateLeft new ed l left overlap

/-- The handling of overlaps on the left. -/
def leftOverlap : Insert Edit :=
  match ed.left with
  | none => pure ed
  | some l => do
    let left ← loadFrag l
    let overlap : ℤ := left.fin - ed.fragOffset
    if overlap ≤ 0 then pure ed
    else
      let ed := { ed with ft := ed.ft.countOverlap }
      if isTeardrop p new ed.ft then throw (teardrop ed.ft)
      else
        let ed ← resolveLeft new ed l left overlap
        -- a fragment cannot end before it begins
        if new.fragEnd < ed.fragOffset then throw (.anomaly, ed.ft.alert .anomalyBadsizeSm)
        else pure ed

/-! ### Overlaps on the right -/

variable (r : ℕ) (right : Fragment)

/-- The right fragment is deleted. -/
def dumpRight : Prog Fragment Edit := do
  let next ← nextFrag r
  unlink r
  pure { ed with ft := ed.ft.addBytes (-right.size), right := next }

/-- The right fragment is deleted if nothing is left of it. -/
def dumpEmpty : Prog Fragment Edit := do
  if right.size = 0 then
    let next ← nextFrag r
    unlink r
    pure { ed with right := next }
  else pure ed

/-- The right fragment is truncated. -/
def truncateRight (overlap : ℤ) : Prog Fragment Edit := do
  let right := { right with
    offset := u16 (right.offset + i16 overlap)
    data := right.data + i16 overlap
    size := u16 (right.size - i16 overlap) }
  store r right
  dumpEmpty { ed with ft := ed.ft.addBytes (-i16 overlap) } r right

/-- The right fragment ends behind the new one. -/
def partialRight (overlap : ℤ) : Prog Fragment Edit :=
  let ed := { ed with ft := ed.ft.countOverlap, done := true }
  match ed.ft.fragPolicy with
  | .last | .linux => truncateRight ed r right overlap
  | .bsd =>
    if right.offset = ed.fragOffset then
      let slide := i16 (right.fin - ed.fragOffset)
      dumpEmpty { ed with slide, fragOffset := u16 (ed.fragOffset + slide) } r right
    else truncateRight ed r right overlap
  | .first | .windows | .solaris | .bsdRight => pure { ed with trunc := i16 overlap }

/-- The loop that looks for the next gap that the new fragment might fill. -/
def findGap : ℕ → ℕ → Option ℕ → Option ℕ → Prog Fragment (ℕ × Option ℕ × Option ℕ)
  | 0, _, _, _ => .fail
  | _, currEnd, left, none => pure (currEnd, left, none)
  | fuel + 1, currEnd, left, some r => do
    let right ← loadFrag r
    if currEnd = right.offset ∧ right.offset < new.fragEnd then
      let next ← nextFrag r
      findGap fuel (u16 right.fin) (some r) next
    else pure (currEnd, left, some r)

/-- Where the chunk of the new fragment goes that does not overlap the right fragment: behind it
if both begin at the same offset, or else in front of it. -/
def chunkPlace (overlap : ℤ) : Prog Fragment Edit := do
  -- fix for bug 17823
  if right.offset = ed.fragOffset then
    let next ← nextFrag r
    let slide := i16 (right.fin - ed.fragOffset)
    pure { ed with
      slide, fragOffset := u16 (ed.fragOffset + slide), left := some r, right := next }
  else pure { ed with trunc := i16 overlap }

/-- What is left of the new fragment behind a chunk. -/
def nextChunk (currEnd : ℕ) : Prog Fragment Edit := do
  if ← startsBefore ed.right then
    -- the next chunk begins at the end of the left fragment
    let fragOffset ← leftEnd ed.left
    pure { ed with fragOffset, slide := i16 (fragOffset - new.origOffset), trunc := 0 }
  else if currEnd < new.fragEnd then
    match ed.left with
    | none => .fail
    | some l =>
      let left ← loadFrag l
      pure { ed with slide := i16 (left.fin - ed.fragOffset), fragOffset := currEnd, trunc := 0 }
  else pure { ed with addthis := false }
where
  startsBefore (right : Option ℕ) : Prog Fragment Bool := do
    match right with
    | none => pure false
    | some r =>
      let right ← loadFrag r
      pure (right.offset < new.fragEnd)
  leftEnd (left : Option ℕ) : Prog Fragment ℕ := do
    match left with
    | none => pure new.origOffset
    | some l =>
      let left ← loadFrag l
      pure (u16 left.fin)

/-- The right fragment is kept, and the new one is inserted in chunks. -/
def rejectRight (overlap : ℤ) : Insert Edit := do
  let ed ← chunkPlace ed r right overlap
  if (new.fragEnd : ℤ) - ed.trunc ≤ ed.fragOffset then throw (.anomaly, ed.ft)
  else
    let ft := checkTinyFragments fe p ed.ft (new.len - ed.slide - ed.trunc)
    let (ft, newfrag) ←
      addFragNode p ft false new.len (u16 ed.slide) (u16 ed.trunc) ed.fragOffset ed.left
    let (currEnd, left, right) ← findGap new loopFuel (u16 newfrag.fin) ed.left ed.right
    nextChunk new { ed with ft, left, right } currEnd

/-- The right fragment ends where the new one ends, or before. -/
def fullRight (overlap : ℤ) : Insert Edit := do
  let ed :=
    if ed.alertedOverlap then ed
    else { ed with ft := (ed.ft.alert .anomalyOvlp).countOverlap, alertedOverlap := true }
  match ed.ft.fragPolicy with
  | .windows =>
    if right.fin < new.fragEnd ∧ ed.fragOffset < right.offset then dumpRight ed r right
    else rejectRight fe p new ed r right overlap
  | .solaris | .bsd =>
    if right.fin < new.fragEnd ∧ ed.fragOffset < right.offset then dumpRight ed r right
    else if right.fin = new.fragEnd ∧ ed.fragOffset < right.offset then dumpRight ed r right
    else rejectRight fe p new ed r right overlap
  | .first => rejectRight fe p new ed r right overlap
  | .bsdRight | .last | .linux => dumpRight ed r right

/-- The loop over the fragments on the right. -/
def rightOverlaps : ℕ → Edit → Insert Edit
  | 0, _ => ExceptT.lift .fail
  | fuel + 1, ed =>
    match ed.right with
    | none => pure ed
    | some r => do
      let right ← loadFrag r
      if right.offset < new.fragEnd ∧ ed.done = false then
        let ed := { ed with trunc := 0 }
        let overlap : ℤ := new.fragEnd - right.offset
        if isTeardrop p new ed.ft then throw (teardrop ed.ft)
        else
          let ed ←
            if overlap < right.size then partialRight ed r right overlap
            else fullRight fe p new ed r right overlap
          rightOverlaps fuel ed
      else pure ed

/-- The end of `insert`. -/
def finishInsert : Insert (InsertRet × FragTracker) := do
  let ft := checkTinyFragments fe p ed.ft (new.len - ed.slide - ed.trunc)
  if fe.maxOverlaps ≠ 0 ∧ fe.maxOverlaps ≤ ft.overlapCount then
    throw (.overlapLimit, ft.alert .excessiveOverlap)
  else if ed.addthis then
    let (ft, _) ← addFragNode p ft new.lastfrag new.len (u16 ed.slide) (u16 ed.trunc)
      ed.fragOffset ed.left
    pure (.ok, ft)
  else pure (.ok, ft)

/-- The part of `insert` that edits the list. -/
def editList : Insert (InsertRet × FragTracker) := do
  let head ← (first : Prog Fragment _)
  let (left, right) ← findNeighbours new.fragOffset loopFuel none head
  let ed ← leftOverlap p new ⟨ft, new.fragOffset, 0, 0, left, right, false, true, false⟩
  if fe.snapLen < p.dsize then throw (.failed, ed.ft)
  else
    let ed ← rightOverlaps fe p new loopFuel ed
    finishInsert fe p new ed
end Insertion

variable (fe : FragEngine) (p : Packet)

/-- `insert` behind its begin, unless that has returned. -/
def insertFrag :
    Except (InsertRet × FragTracker) (FragTracker × NewFrag) →
      Prog Fragment (InsertRet × FragTracker)
  | .error ret => pure ret
  | .ok (ft, new) => do
    match ← (editList fe p new ft).run with
    | .error ret => pure ret
    | .ok ret => pure ret

/-- `Defrag::insert` -/
def insert (ft : FragTracker) : Prog Fragment (InsertRet × FragTracker) :=
  insertFrag fe p (startInsert p ft)

/-! ## Rebuilding -/

/-- The pseudo packet: the IP options, and what is written to the payload behind them. -/
structure Rebuilt where
  options : List Byte
  payload : ℕ → Option Byte
  dsize : ℕ

/-- A `memcpy` of the fragment to its place. -/
def Fragment.copyTo (frag : Fragment) (payload : ℕ → Option Byte) (i : ℕ) : Option Byte :=
  if frag.offset ≤ i ∧ i < frag.fin then frag.byteAt i else payload i

/-- The walk of `FragRebuild` over the list; without a result if it gives up. -/
def copyFrags (calculatedSize offset : ℕ) : ℕ → Option ℕ → (ℕ → Option Byte) →
    Prog Fragment (Option (ℕ → Option Byte))
  | 0, _, _ => .fail
  | _, none, payload => pure (some payload)
  | fuel + 1, some f, payload => do
    let frag ← loadFrag f
    let next ← nextFrag f
    if calculatedSize < frag.fin then copyFrags calculatedSize offset fuel next payload
    else if frag.size ≠ 0 then
      if u64 (IP_MAXPACKET - frag.offset - offset) < frag.size then pure none
      else copyFrags calculatedSize offset fuel next (frag.copyTo payload)
    else copyFrags calculatedSize offset fuel next payload

/-- `FragRebuild`, up to the processing of the packet -/
def fragRebuild (ft : FragTracker) : Prog Fragment (Option Rebuilt) := do
  let offset := if p.isIp4 && ft.ipOptionsData.isSome then ft.ipOptionsLen else 0
  let options := (ft.ipOptionsData.getD []).take offset
  let head ← (first : Prog Fragment _)
  let payload ← copyFrags (u16 ft.calculatedSize) offset loopFuel head fun _ => none
  pure (payload.map fun payload => ⟨options, payload, u16 ft.calculatedSize⟩)

/-! ## Trackers -/

/-- A tracker with its list. -/
structure Tracker where
  ft : FragTracker
  fl : Fraglist

/-- The fragment of `new_tracker` -/
def firstFragment : Fragment :=
  let fragEnd := u16 (p.off + p.dsize)
  let size := if p.mf then u16 ((fragEnd - fragEnd % 8 : ℕ) - p.off) else p.dsize
  ⟨p.data, 0, size, p.off, 0, !p.mf⟩

/-- The fields that `new_tracker` resets; the events stay with the detection engine. -/
def resetTracker (events : List Event) : FragTracker where
  ipProto := if p.isIp4 || p.off = 0 then p.proto else 0
  ttl := p.ttl
  gotFirst := false
  gotLast := false
  rebuilt := false
  bad := false
  noBsdVuln := false
  dropFragments := false
  fragBytes := 0
  calculatedSize := 0
  fragPkts := 1
  fragTime := p.ts
  ipOptionsLen := 0
  ipOptionsData := none
  copiedIpOptionsLen := 0
  engine := true
  ordinal := 1
  fragPolicy := p.ssnPolicy.getD fe.fragPolicy
  overlapCount := 0
  events := events

/-- The fields behind `new_tracker` -/
def firstTracker (events : List Event) : FragTracker :=
  let ft := resetTracker fe p events
  let ft := if p.mf && u16 (p.off + p.dsize) % 8 ≠ 0 then ft.alert .shortFrag else ft
  let ft := (fragCheckFirstLast p ft p.off).2.addBytes p.dsize
  if p.isIp4 then fragHandleIPOptions ft p p.off else ft

variable (tr : Tracker)

/-- `Defrag::new_tracker`. The fragments of a list from before are not freed. -/
def newTracker : Tracker :=
  if p.dsize = 0 || fe.snapLen < p.dsize then tr
  else
    { ft := firstTracker fe p tr.ft.events
      fl :=
        { heap := tr.fl.heap.alloc tr.fl.fresh (firstFragment p)
          fraglist := some tr.fl.fresh
          fraglistTail := some tr.fl.fresh
          fraglistCount := 1
          fresh := tr.fl.fresh + 1 } }

/-- `delete_tracker` -/
def deleteTracker : Tracker :=
  { ft := { tr.ft with ipOptionsData := none }, fl := { tr.fl with fraglist := none } }

/-- `release_tracker` -/
def releaseTracker : Tracker :=
  let tr := deleteTracker tr
  { tr with ft := { tr.ft with engine := false } }

/-- `Defrag::insert` on a tracker; without a result if it uses a null pointer. -/
def insertPacket : Option (InsertRet × Tracker) := do
  let ((ret, ft), fl) ← (insert fe p tr.ft).run fragMachine tr.fl
  some (ret, ⟨ft, fl⟩)

/-! ## Packets -/

/-- What `process` decides about a packet. -/
structure Decision where
  /-- dropped with an earlier fragment -/
  drop : Bool
  ret : Option InsertRet
  complete : Bool
  rebuilt : Option Rebuilt

/-- A packet for the tracker, and whether the detection engine drops it or the packet that is
rebuilt from it. -/
structure Arrival where
  packet : Packet
  dropped : Bool

section Process
variable (fe : FragEngine) (a : Arrival) (tr : Tracker)

/-- `Defrag::process` on a tracker in use, up to `insert`: the timeout, and the time of the
packet. -/
def prepare : Tracker :=
  let p := a.packet
  let tr :=
    if fragTimedOut p.ts tr.ft.fragTime fe then
      let tr := deleteTracker tr
      { tr with ft := { tr.ft with ttl := p.ttl } }
    else tr
  { tr with ft := { tr.ft with fragTime := p.ts } }

/-- `Defrag::process` behind `insert` -/
def complete (drop : Bool) : Option (Decision × Tracker) :=
  if fragIsComplete tr.ft then do
    let (rebuilt, tr) ←
      if tr.ft.bad then some (none, tr)
      else do
        let (rebuilt, fl) ← (fragRebuild a.packet tr.ft).run fragMachine tr.fl
        some (rebuilt, { ft := { tr.ft with rebuilt := true }, fl })
    let tr :=
      if a.dropped || drop then
        deleteTracker { tr with ft := { tr.ft with dropFragments := true } }
      else releaseTracker tr
    some (⟨drop, some .ok, true, rebuilt⟩, tr)
  else some (⟨drop, some .ok, false, none⟩, tr)

/-- `Defrag::process` -/
def process : Option (Decision × Tracker) :=
  if a.packet.ttl < fe.minTtl then
    some (⟨false, none, false, none⟩, { tr with ft := tr.ft.alert .minTtlEvasion })
  else if !tr.ft.engine then some (⟨false, none, false, none⟩, newTracker fe a.packet tr)
  else do
    let tr := prepare fe a tr
    let drop := tr.ft.dropFragments
    let (ret, tr) ← insertPacket fe a.packet tr
    if ret = .ok then complete a tr drop else some (⟨drop, some ret, false, none⟩, tr)
end Process
end Snort.Ip
