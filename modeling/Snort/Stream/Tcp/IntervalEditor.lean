import Snort.Stream.Tcp.SegmentWindow

/-!
# The overlap editor on intervals

What insertion does to the list, said in positions: a segment arrives that covers
`[start, start + len)`, and the editor moves along the nodes, each an interval,
skipping, dropping, cutting and splitting them and storing parts of the arrival
in the gaps. `LeftStep`, `RightStep` and `RightStop` say everything a step of
the editor can do; what holds of an insertion is proved from them.
-/

namespace Snort.Tcp
open Serial
variable {w : BitVec 32} {after : List Node} {v v' : EditView} {arr : Arrival}

/-- A segment to insert. A SYN makes the source believe that the segment ends one
position later than its data does. -/
structure Arrival where
  start : ℕ
  payload : List UInt8
  syn : ℕ
  /-- the normalization `trim_win` is on -/
  trims : Bool
  policy : StreamPolicy
  length_lt : payload.length < 2 ^ 16
  syn_le : syn ≤ 1
  end_lt : start + payload.length + syn < 2 ^ 31

namespace Arrival
section
variable (arr : Arrival)

def len : ℕ := arr.payload.length

/-- The position behind the data. -/
def dataEnd : ℕ := arr.start + arr.len

/-- The position `seq_end` at which the editor stops. -/
def stop : ℕ := arr.start + arr.len + arr.syn

/-- The byte that the segment carries for a position. -/
def byte (p : ℕ) : Option UInt8 := arr.payload[p - arr.start]?

/-- The node is taken for one that the segment repeats, as far as the two overlap. -/
def Repeats (w : BitVec 32) (tsn : TcpSegment) : Prop :=
  ∀ p, tsn.start w ≤ p → p < tsn.fin w → p < arr.dataEnd → tsn.rawByte w p = arr.byte p

theorem dataEnd_eq : arr.dataEnd = arr.start + arr.len := rfl

theorem stop_eq : arr.stop = arr.start + arr.len + arr.syn := rfl

theorem dataEnd_le : arr.dataEnd ≤ arr.stop := Nat.le_add_right _ _

theorem stop_le : arr.stop ≤ arr.dataEnd + 1 := Nat.add_le_add_left arr.syn_le _

theorem stop_lt : arr.start + arr.len + arr.syn < 2 ^ 31 := arr.end_lt

theorem stop_bound : arr.stop < 2 ^ 31 := arr.end_lt

theorem bounds : arr.dataEnd = arr.start + arr.len ∧ arr.stop = arr.start + arr.len + arr.syn ∧
    arr.len < 2 ^ 16 ∧ arr.syn ≤ 1 ∧ arr.start + arr.len + arr.syn < 2 ^ 31 :=
  ⟨rfl, rfl, arr.length_lt, arr.syn_le, arr.end_lt⟩
end
end Arrival

/-- The editor in positions: the nodes before and after it, the start of the data still
to be inserted, the start of the data not yet known to be repeated, the length cut off at
the end, whether the segment is inserted at all, and the length of the packet. -/
structure EditView where
  before : List Node
  after : List Node
  seq : ℕ
  rseq : ℕ
  trunc : ℕ
  keep : Bool
  dsize : ℕ

def ListEditor.view (w : BitVec 32) (ed : ListEditor) (after : List Node) : EditView where
  before := ed.before
  after := after
  seq := pos w ed.sos.seq
  rseq := pos w ed.sos.rseq
  trunc := ed.sos.truncLen.toNat
  keep := ed.sos.keepSegment
  dsize := ed.sos.tsd.pkt.dsize.toNat

theorem ListEditor.view_eq {ed : ListEditor}
    (hbefore : ed.before = v.before) (hafter : after = v.after) (hseq : pos w ed.sos.seq = v.seq)
    (hrseq : pos w ed.sos.rseq = v.rseq) (htrunc : ed.sos.truncLen.toNat = v.trunc)
    (hkeep : ed.sos.keepSegment = v.keep) (hdsize : ed.sos.tsd.pkt.dsize.toNat = v.dsize) :
    ed.view w after = v := by
  unfold ListEditor.view
  rw [hbefore, hafter, hseq, hrseq, htrunc, hkeep, hdsize]

/-! ## Steps -/

section Steps
variable (w : BitVec 32) (arr : Arrival)

/-- The data from `seq` to `hi` is stored behind the nodes before the editor, unless there
is none or the length of the segment does not fit the signed 16 bits it is passed in. -/
inductive Insert (v : EditView) (hi : ℕ) (v' : EditView) : Prop
  | store (node : Node) (hshort : arr.len < 2 ^ 15) (hlt : v.seq < hi)
      (hstart : node.2.start w = v.seq) (hfin : node.2.fin w = hi) (hsound : node.2.Sound w)
      (hstored : node.2.Stored ↔ hi - arr.start ≤ v.dsize)
      (hbyte : hi - arr.start ≤ v.dsize → ∀ p, v.seq ≤ p → p < hi → node.2.byte w p = arr.byte p)
      (heq : v' = { v with before := node :: v.before })
  | discard (hnone : ¬ (arr.len < 2 ^ 15 ∧ v.seq < hi))
      (heq : v' = { v with dsize := if arr.trims then 0 else v.dsize })

/-- What the handlers do about the node before the editor. -/
inductive LeftStep (left : LeftOverlap) (v v' : EditView) : Prop
  | pass (hfin : ∀ x ∈ v.before.head?, x.2.fin w ≤ v.seq) (heq : v' = v)
  | keepOld (x : Node) (before : List Node) (hbefore : v.before = x :: before)
      (hlt : v.seq < x.2.fin w) (hleft : left ≠ .keepLast)
      (htrim : left = .trimFirst → arr.dataEnd ≤ x.2.fin w)
      (heq : v' = { v with seq := min (x.2.fin w) arr.dataEnd })
  | cutOld (a : ℕ) (tsn : TcpSegment) (before : List Node) (overlap : BitVec 32)
      (hbefore : v.before = (a, tsn) :: before) (hlt : v.seq < tsn.fin w)
      (hfin : tsn.fin w ≤ arr.dataEnd) (hleft : left ≠ .keepFirst)
      (hoverlap : overlap.toNat = tsn.fin w - v.seq)
      (heq : v' = { v with before := (a, tsn.cutTail overlap) :: before })
  | splitOld (a b : ℕ) (tsn : TcpSegment) (before : List Node) (overlap seq : BitVec 32)
      (delta : BitVec 16) (hbefore : v.before = (a, tsn) :: before) (hlt : v.seq < tsn.fin w)
      (hfin : arr.dataEnd < tsn.fin w) (hleft : left = .keepLast)
      (hoverlap : overlap.toNat = tsn.fin w - v.seq) (hseq : pos w seq = arr.dataEnd)
      (hdelta : delta.toNat = arr.dataEnd - tsn.start w)
      (heq : v' = { v with
        before := (a, tsn.cutTail overlap) :: before
        after := (b, (TcpReassemblerState.dupNode tsn).cutHead seq delta) :: v.after })

/-- A round of the loop in which the arrival reaches to the end of the next node. -/
inductive RightStep (full : FullOverlap) (v v' : EditView) : Prop
  | resent (x : Node) (after : List Node) (hafter : v.after = x :: after)
      (hstart : x.2.start w = v.seq) (hrseq : v.rseq = v.seq) (hfin : x.2.fin w ≤ arr.stop)
      (hrepeats : arr.Repeats w x.2) (keep : Bool)
      (hkeep : keep = v.keep ∨ keep = false ∧ x.2.fin w = arr.dataEnd)
      (heq : v' = { v with
        before := x :: v.before, after := after, seq := x.2.fin w, rseq := x.2.fin w
        trunc := 0, keep := keep })
  | skip (x : Node) (after : List Node) (hafter : v.after = x :: after)
      (hstart : x.2.start w = v.seq) (hfin : x.2.fin w ≤ arr.stop) (hfull : full ≠ .os4)
      (trunc rseq : ℕ)
      (htrunc : trunc = 0 ∨ full = .os3 ∧ trunc = arr.stop - v.seq ∧ x.2.fin w = v.seq + arr.len)
      (hdiffers : x.2.start w = v.rseq → ¬ arr.Repeats w x.2)
      (heq : v' = { v with
        before := x :: v.before, after := after, seq := x.2.fin w, rseq := rseq
        trunc := trunc })
  | drop (x : Node) (after : List Node) (hafter : v.after = x :: after)
      (hstart : v.seq ≤ x.2.start w) (hfin : x.2.fin w ≤ arr.stop) (hfull : full ≠ .os5)
      (hdiffers : x.2.start w = v.rseq → ¬ arr.Repeats w x.2)
      (heq : v' = { v with after := after, trunc := 0 })
  | chunk (x : Node) (after : List Node) (hafter : v.after = x :: after)
      (hstart : v.seq < x.2.start w) (hfin : x.2.fin w ≤ arr.stop) (hfull : full = .os5)
      (v₁ : EditView) (hins : Insert w arr v (x.2.start w - arr.syn) v₁)
      (heq : v' = { v₁ with
        before := x :: v₁.before, after := after, seq := x.2.fin w, trunc := 0 })

/-- The round of the loop in which the next node reaches behind the arrival. -/
inductive RightStop (right : RightOverlap) (v v' : EditView) : Prop
  | resent (x : Node) (after : List Node) (hafter : v.after = x :: after)
      (hstart : x.2.start w = v.seq) (hrseq : v.rseq = v.seq) (hfin : arr.stop < x.2.fin w)
      (hrepeats : arr.Repeats w x.2) (heq : v' = { v with trunc := 0, keep := false })
  | truncNew (x : Node) (after : List Node) (hafter : v.after = x :: after)
      (hstart : v.seq ≤ x.2.start w) (hlt : x.2.start w < arr.stop)
      (hfin : arr.stop < x.2.fin w) (hright : right = .truncateNew)
      (heq : v' = { v with trunc := arr.stop - x.2.start w })
  | passOver (x : Node) (after : List Node) (hafter : v.after = x :: after)
      (hstart : x.2.start w = v.seq) (hfin : arr.stop < x.2.fin w)
      (hright : right = .truncateExisting) (hpol : arr.policy ≠ .osLast)
      (heq : v' = { v with seq := x.2.fin w, trunc := 0 })
  | cutOld (a : ℕ) (tsn : TcpSegment) (after : List Node) (seq : BitVec 32) (delta : BitVec 16)
      (hafter : v.after = (a, tsn) :: after) (hstart : v.seq ≤ tsn.start w)
      (hlt : tsn.start w < arr.stop) (hfin : arr.stop < tsn.fin w)
      (hright : right = .truncateExisting) (hpol : arr.policy = .osLast ∨ v.seq < tsn.start w)
      (hdiffers : tsn.start w = v.rseq → ¬ arr.Repeats w tsn)
      (hseq : pos w seq = arr.stop) (hdelta : delta.toNat = arr.stop - tsn.start w)
      (heq : v' = { v with after := (a, tsn.cutHead seq delta) :: after, trunc := 0 })

/-- A run of the loop. -/
inductive RightRun (r : TcpReassembler) : EditView → EditView → Prop
  | done {v : EditView} (hstop : ∀ x ∈ v.after.head?, arr.stop ≤ x.2.start w) : RightRun r v v
  | stop {v v' : EditView} (hstop : RightStop w arr r.right v v') : RightRun r v v'
  | next {v v' v'' : EditView} (hstep : RightStep w arr r.full v v') (hrun : RightRun r v' v'') :
      RightRun r v v''
end Steps

section Trunc
variable {w : BitVec 32} {arr : Arrival} {v v' : EditView} {t : ℕ}

theorem Insert.setTrunc {hi : ℕ} (h : Insert w arr { v with trunc := t } hi v') :
    Insert w arr v hi { v' with trunc := v.trunc } := by
  rcases h with ⟨node, hshort, hlt, hstart, hfin, hsound, hstored, hbyte, rfl⟩ | ⟨hnone, rfl⟩
  · exact .store node hshort hlt hstart hfin hsound hstored hbyte rfl
  · exact .discard hnone rfl

/-- What a round does, it does whatever was to be cut off before it. -/
theorem RightStop.setTrunc {ro : RightOverlap} (h : RightStop w arr ro { v with trunc := t } v') :
    RightStop w arr ro v v' := by
  cases h with
  | resent x after hafter hstart hrseq hfin hrepeats heq =>
    exact .resent x after hafter hstart hrseq hfin hrepeats heq
  | truncNew x after hafter hstart hlt hfin hright heq =>
    exact .truncNew x after hafter hstart hlt hfin hright heq
  | passOver x after hafter hstart hfin hright hpol heq =>
    exact .passOver x after hafter hstart hfin hright hpol heq
  | cutOld a tsn after seq delta hafter hstart hlt hfin hright hpol hdiffers hseq hdelta heq =>
    exact .cutOld a tsn after seq delta hafter hstart hlt hfin hright hpol hdiffers hseq hdelta heq

theorem RightStep.setTrunc {full : FullOverlap}
    (h : RightStep w arr full { v with trunc := t } v') : RightStep w arr full v v' := by
  cases h with
  | resent x after hafter hstart hrseq hfin hrepeats keep hkeep heq =>
    exact .resent x after hafter hstart hrseq hfin hrepeats keep hkeep heq
  | skip x after hafter hstart hfin hfull trunc rseq htrunc hdiffers heq =>
    exact .skip x after hafter hstart hfin hfull trunc rseq htrunc hdiffers heq
  | drop x after hafter hstart hfin hfull hdiffers heq =>
    exact .drop x after hafter hstart hfin hfull hdiffers heq
  | chunk x after hafter hstart hfin hfull v₁ hins heq =>
    exact .chunk x after hafter hstart hfin hfull _ hins.setTrunc heq
end Trunc

/-- A round of the loop moves `seq` at most to the end of the node. -/
theorem RightStep.seq_le {full : FullOverlap}
    {x : Node} (h : RightStep w arr full v v') (hafter : v.after = x :: after)
    (hlt : x.2.start w < x.2.fin w) : v'.seq ≤ x.2.fin w := by
  cases h with
  | resent y after' hafter' _ _ _ _ _ _ heq
  | skip y after' hafter' _ _ _ _ _ _ _ heq
  | chunk y after' hafter' _ _ _ _ _ heq =>
    obtain ⟨rfl, -⟩ := List.cons.inj (hafter.symm.trans hafter')
    rw [heq]
  | drop y after' hafter' hstart _ _ _ heq =>
    obtain ⟨rfl, -⟩ := List.cons.inj (hafter.symm.trans hafter')
    rw [heq]
    exact (hstart.trans_lt hlt).le

/-- The fields that the left step does not touch. -/
structure LeftFrame (v v' : EditView) : Prop where
  trunc : v'.trunc = v.trunc
  keep : v'.keep = v.keep
  dsize : v'.dsize = v.dsize

theorem LeftStep.frame {left : LeftOverlap} (h : LeftStep w arr left v v') : LeftFrame v v' := by
  cases h with
  | pass _ heq => exact heq ▸ ⟨rfl, rfl, rfl⟩
  | keepOld _ _ _ _ _ _ heq => exact heq ▸ ⟨rfl, rfl, rfl⟩
  | cutOld _ _ _ _ _ _ _ _ _ heq => exact heq ▸ ⟨rfl, rfl, rfl⟩
  | splitOld _ _ _ _ _ _ _ _ _ _ _ _ _ _ heq => exact heq ▸ ⟨rfl, rfl, rfl⟩
end Snort.Tcp
