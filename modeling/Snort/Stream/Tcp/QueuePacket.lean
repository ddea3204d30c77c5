import Snort.Stream.Tcp.Insertion

/-!
# Calls of `queue_packet_for_reassembly`

A call hands over a segment, at a moment when the receive window has some base.
On a list of disjoint nodes in one window it returns, and what it does to the
list is one of three things: nothing, as all the data lies before the window;
storing the data in the empty list; or an edit.
-/

namespace Snort.Tcp
open BitVec Nat Serial

/-- The arguments of a call. -/
structure Call where
  /-- `r_win_base` of the tracker when the call is made -/
  rWinBase : BitVec 32
  segSeq : BitVec 32
  syn : Bool
  payload : List UInt8
deriving DecidableEq, Repr

namespace Call
variable (c : Call)

def tsd : TcpSegmentDescriptor := .new c.segSeq c.syn c.payload

/-- The sequence numbers that a SYN takes. -/
def synLen : ℕ := if c.syn then 1 else 0

/-- A segment that carries data and lies in the window. -/
structure InWindow (w : BitVec 32) (c : Call) : Prop where
  nonempty : 0 < c.payload.length
  lt : c.payload.length < 2 ^ 16
  stop : pos w c.segSeq + c.payload.length + c.synLen < 2 ^ 31

/-- The bytes that lie before the receive window, as they are cut off when the list is not
empty. -/
def offset : ℕ :=
  if seqGt c.rWinBase c.segSeq then (c.rWinBase - c.segSeq).toNat else 0

/-- The bytes that are cut off when the list is empty. -/
def emptyOffset : ℕ :=
  if seqGt c.rWinBase c.tsd.firstSeq then (c.rWinBase - c.segSeq).toNat else 0
end Call

/-- The state when the call is made. -/
def TcpReassemblerState.atWinBase (trs : TcpReassemblerState) (rWinBase : BitVec 32) :
    TcpReassemblerState :=
  { trs with sos := { trs.sos with rWinBase := rWinBase } }

variable (r : TcpReassembler)

def TcpReassembler.call (trs : TcpReassemblerState) (c : Call) : Option TcpReassemblerState :=
  r.queuePacketForReassembly (trs.atWinBase c.rWinBase) c.tsd

def SegQueue.atWinBase (q : SegQueue) (rWinBase : BitVec 32) : SegQueue :=
  { q with sos := { q.sos with rWinBase := rWinBase } }

def SegQueue.call (q : SegQueue) (c : Call) : Option SegQueue :=
  (q.atWinBase c.rWinBase).queuePacket r c.tsd

/-- The heap program and the list program make the same calls. -/
theorem call_refines {trs : TcpReassemblerState} {q q' : SegQueue} (h : QueueRefines trs q)
    {c : Call} (hcall : q.call r c = some q') :
    ∃ trs', r.call trs c = some trs' ∧ QueueRefines trs' q' := by
  have hset : QueueRefines (trs.atWinBase c.rWinBase) (q.atWinBase c.rWinBase) := by
    unfold TcpReassemblerState.atWinBase SegQueue.atWinBase
    rw [h.sos]
    exact ⟨rfl, h.curRseg, h.fresh, h.holds⟩
  exact queuePacket_refines r hset c.tsd hcall

/-! ## What a call does -/

/-- The arrival that a call brings: where its data starts, the data, and whether the end is
moved by a SYN. -/
structure Carries (sos : SegmentOverlapState) (arr : Arrival) (start : ℕ)
    (payload : List UInt8) (syn : ℕ) : Prop where
  start : arr.start = start
  payload : arr.payload = payload
  syn : arr.syn = syn
  trims : sos.trimWin = .on ↔ arr.trims
  policy : sos.reassemblyPolicy = arr.policy

inductive Outcome (w : BitVec 32) (r : TcpReassembler) (sos : SegmentOverlapState) (c : Call)
    (nodes nodes' : List Node) : Prop
  | old (hold : nodes = [] ∧ c.payload.length ≤ c.emptyOffset ∨
      nodes ≠ [] ∧ c.payload.length ≤ c.offset) (heq : nodes' = nodes)
  | empty (hnil : nodes = []) (hlt : c.emptyOffset < c.payload.length) (arr : Arrival)
      (harr : Carries sos arr (pos w c.segSeq + c.synLen) c.payload 0) (v' : EditView)
      (hins : Insert w arr ⟨[], [], arr.start + c.emptyOffset, arr.start, 0, true, arr.len⟩
        arr.dataEnd v') (heq : nodes' = v'.nodes)
  | edit (hne : nodes ≠ []) (hlt : c.offset < c.payload.length) (arr : Arrival)
      (harr : Carries sos arr (pos w c.segSeq + c.offset) (c.payload.drop c.offset) c.synLen)
      (hedit : Edit w arr r nodes nodes')

variable {w : BitVec 32} {c : Call} {q : SegQueue}
  {sos sos' : SegmentOverlapState} {r : TcpReassembler} {nodes nodes' : List Node}

theorem Carries.congr {arr : Arrival} {start syn : ℕ}
    {payload : List UInt8} (h : Carries sos arr start payload syn) (hconfig : SameConfig sos sos') :
    Carries sos' arr start payload syn :=
  ⟨h.start, h.payload, h.syn, hconfig.trimWin ▸ h.trims, hconfig.policy.trans h.policy⟩

theorem Outcome.congr (h : Outcome w r sos c nodes nodes')
    (hconfig : SameConfig sos sos') : Outcome w r sos' c nodes nodes' := by
  cases h with
  | old hold heq => exact .old hold heq
  | empty hnil hlt arr harr v' hins heq =>
    exact .empty hnil hlt arr (harr.congr hconfig) v' hins heq
  | edit hne hlt arr harr hedit => exact .edit hne hlt arr (harr.congr hconfig) hedit

namespace Call.InWindow
variable (h : c.InWindow w)
include h

theorem dsize : c.tsd.pkt.dsize.toNat = c.payload.length := by
  show (BitVec.ofNat 16 c.payload.length).toNat = _
  rw [toNat_ofNat, mod_eq_of_lt h.lt]

theorem segLen : c.tsd.segLen.toNat = c.payload.length := h.dsize

theorem pos_endSeq : pos w c.tsd.endSeq = pos w c.segSeq + c.payload.length + c.synLen := by
  have hlt := h.lt
  have hstop := h.stop
  have hlen : ((BitVec.ofNat 16 c.payload.length).setWidth 32).toNat = c.payload.length := by
    rw [toNat_setWidth, toNat_ofNat]
    omega
  have hend : pos w (c.segSeq + (BitVec.ofNat 16 c.payload.length).setWidth 32) =
      pos w c.segSeq + c.payload.length := by
    rw [pos_add (by omega), hlen]
  show pos w (if c.syn then
    c.segSeq + (BitVec.ofNat 16 c.payload.length).setWidth 32 + 1
    else c.segSeq + (BitVec.ofNat 16 c.payload.length).setWidth 32) = _
  unfold synLen at *
  split
  · have hone : (1 : BitVec 32).toNat = 1 := rfl
    rw [pos_add (by omega), hend, hone]
  · rw [hend]
    rfl

theorem pos_firstSeq : pos w c.tsd.firstSeq = pos w c.segSeq + c.synLen := by
  have hstop := h.stop
  show pos w (if c.syn then c.segSeq + 1 else c.segSeq) = _
  unfold synLen at *
  split
  · have hone : (1 : BitVec 32).toNat = 1 := rfl
    rw [pos_add (by omega), hone]
  · rfl
end Call.InWindow

theorem toNat_of_seqGt {a b : BitVec 32} (h : seqGt a b) : (a - b).toInt = ((a - b).toNat : ℤ) := by
  have hpos : 0 < (a - b).toInt := by
    simpa [seqGt] using h
  have hcond := toInt_eq_toNat_cond (a - b)
  have hlt := (a - b).isLt
  split at hcond <;> omega

/-- The arrival of the data of a call from its `o`-th byte on. -/
def Call.InWindow.arrival (h : c.InWindow w) (sos : SegmentOverlapState) (o : ℕ)
    (ho : o < c.payload.length) : Arrival where
  start := pos w c.segSeq + o
  payload := c.payload.drop o
  syn := c.synLen
  trims := sos.trimWin = .on
  policy := sos.reassemblyPolicy
  length_lt := by
    have hlt := h.lt
    rw [List.length_drop]
    omega
  syn_le := by
    unfold Call.synLen
    split <;> decide
  end_lt := by
    have hstop := h.stop
    rw [List.length_drop]
    omega

/-- The arrival of the data of a call as the empty list sees it. -/
def Call.InWindow.emptyArrival (h : c.InWindow w) (sos : SegmentOverlapState) : Arrival where
  start := pos w c.segSeq + c.synLen
  payload := c.payload
  syn := 0
  trims := sos.trimWin = .on
  policy := sos.reassemblyPolicy
  length_lt := h.lt
  syn_le := zero_le _
  end_lt := by
    have hstop := h.stop
    omega

section
variable (h : c.InWindow w)
include h

theorem carries_arrival (sos : SegmentOverlapState) (o : ℕ) (ho : o < c.payload.length) :
    Carries sos (h.arrival sos o ho) (pos w c.segSeq + o) (c.payload.drop o) c.synLen :=
  ⟨rfl, rfl, rfl, decide_eq_true_iff.symm, rfl⟩

theorem carries_emptyArrival (sos : SegmentOverlapState) :
    Carries sos (h.emptyArrival sos) (pos w c.segSeq + c.synLen) c.payload 0 :=
  ⟨rfl, rfl, rfl, decide_eq_true_iff.symm, rfl⟩

theorem seqGt_offset (hgt : seqGt c.rWinBase c.segSeq) :
    ((c.rWinBase - c.segSeq).toInt < (c.tsd.segLen.toNat : ℤ)) ↔ c.offset < c.payload.length := by
  unfold Call.offset
  rw [if_pos hgt, toNat_of_seqGt hgt, h.segLen]
  omega

theorem arrives_slide (hlt : c.offset < c.payload.length) (hgt : seqGt c.rWinBase c.segSeq)
    (htsd : sos.tsd = c.tsd.slideSegmentInRcvWindow (c.rWinBase - c.segSeq)) :
    Arrives w (h.arrival sos c.offset hlt) sos := by
  have hstop := h.stop
  have hlen := h.lt
  have hint := toNat_of_seqGt hgt
  have hoffset : (c.rWinBase - c.segSeq).toNat = c.offset := by
    unfold Call.offset
    rw [if_pos hgt]
  have hdata : sos.tsd.pkt.data = c.offset := by
    rw [htsd]
    show ((0 : ℕ) + (c.rWinBase - c.segSeq).toInt).toNat = c.offset
    omega
  have hbuffer : sos.tsd.pkt.buffer = c.payload := by
    rw [htsd]
    rfl
  have hlen' : (h.arrival sos c.offset hlt).len = c.payload.length - c.offset :=
    List.length_drop
  refine ⟨?_, ?_, ?_, ?_, ?_, decide_eq_true_iff.symm, rfl⟩
  · rw [htsd]
    show pos w (c.segSeq + (c.rWinBase - c.segSeq)) = pos w c.segSeq + c.offset
    rw [pos_add (by omega), hoffset]
  · rw [htsd]
    show pos w c.tsd.endSeq = pos w c.segSeq + c.offset + (h.arrival sos c.offset hlt).len +
      c.synLen
    rw [h.pos_endSeq]
    omega
  · rw [htsd]
    show (c.tsd.pkt.dsize - (c.rWinBase - c.segSeq).setWidth 16).toNat = _
    have hcut : ((c.rWinBase - c.segSeq).setWidth 16).toNat = c.offset := by
      rw [toNat_setWidth, hoffset, mod_eq_of_lt (by omega)]
    rw [toNat_sub_of_le (le_def.mpr (by rw [hcut, h.dsize]; omega)), hcut, h.dsize, hlen']
  · rw [hdata, hbuffer, hlen']
    omega
  · intro i hi
    rw [hdata, hbuffer]
    exact List.getElem?_drop.symm

theorem arrives_new (hlt : c.offset < c.payload.length) (hgt : ¬ seqGt c.rWinBase c.segSeq)
    (htsd : sos.tsd = c.tsd) : Arrives w (h.arrival sos c.offset hlt) sos := by
  have hoffset : c.offset = 0 := if_neg hgt
  have hlen' : (h.arrival sos c.offset hlt).len = c.payload.length := by
    show (c.payload.drop c.offset).length = _
    rw [hoffset]
    rfl
  have hpayload : (h.arrival sos c.offset hlt).payload = c.payload := by
    show c.payload.drop c.offset = _
    rw [hoffset]
    rfl
  refine ⟨?_, ?_, ?_, ?_, ?_, decide_eq_true_iff.symm, rfl⟩
  · rw [htsd]
    show pos w c.segSeq = pos w c.segSeq + c.offset
    rw [hoffset, add_zero]
  · rw [htsd]
    show pos w c.tsd.endSeq = pos w c.segSeq + c.offset + (h.arrival sos c.offset hlt).len +
      c.synLen
    rw [h.pos_endSeq, hlen', hoffset, add_zero]
  · rw [htsd, hlen', h.dsize]
  · rw [htsd, hlen']
    show 0 + c.payload.length ≤ c.payload.length
    omega
  · intro i _
    rw [htsd, hpayload]
    show c.payload[0 + i]? = _
    rw [zero_add]
end

theorem insertInEmpty_outcome (r : TcpReassembler) (h : c.InWindow w) (hnil : q.nodes = [])
    (htsd : q.sos.tsd = c.tsd) (hbase : q.sos.rWinBase = c.rWinBase) :
    Outcome w r q.sos c q.nodes q.insertInEmpty.nodes ∧ SameConfig q.sos q.insertInEmpty.sos := by
  have hstop := h.stop
  have hlen := h.lt
  have hfirst := h.pos_firstSeq
  have hbytes : (q.edit []).sos.tsd.pkt.data + (q.edit []).sos.tsd.pkt.dsize.toNat ≤
      (q.edit []).sos.tsd.pkt.buffer.length := by
    show q.sos.tsd.pkt.data + q.sos.tsd.pkt.dsize.toNat ≤ q.sos.tsd.pkt.buffer.length
    rw [htsd, h.dsize]
    show 0 + c.payload.length ≤ c.payload.length
    omega
  -- both branches store the data from the offset on
  have hadd : c.emptyOffset < c.payload.length → ∀ overlap : BitVec 32,
      overlap.toNat = c.emptyOffset →
      Outcome w r q.sos c q.nodes (SegQueue.ofEditor ((q.edit []).add c.tsd.segLen overlap 0
        (c.tsd.firstSeq + overlap)) q.nodes).nodes ∧
      SameConfig q.sos ((q.edit []).add c.tsd.segLen overlap 0 (c.tsd.firstSeq + overlap)).sos := by
    intro hlt overlap hoverlap
    have hadded : ListEditor.Added w (q.edit []) (h.emptyArrival q.sos).start c.payload.length
        ((h.emptyArrival q.sos).start + c.emptyOffset)
        ((h.emptyArrival q.sos).start + c.payload.length - (0 : BitVec 32).toNat)
        ((q.edit []).add c.tsd.segLen overlap 0 (c.tsd.firstSeq + overlap)) := by
      have hstart : (h.emptyArrival q.sos).start = pos w c.segSeq + c.synLen := rfl
      have hzero : (0 : BitVec 32).toNat = 0 := rfl
      refine ListEditor.add_spec _ h.segLen (by omega) ?_ (by omega) (by omega) (by omega) hbytes
      rw [pos_add (by omega), hfirst, hoverlap, hstart]
    let v : EditView := ⟨[], [], (h.emptyArrival q.sos).start + c.emptyOffset,
      (h.emptyArrival q.sos).start, 0, true, (h.emptyArrival q.sos).len⟩
    obtain ⟨v', hins, hbefore, hafter⟩ := ListEditor.Added.insert (v := v) hadded rfl
      (show c.payload.length = q.sos.tsd.pkt.dsize.toNat by rw [htsd, h.dsize])
      (le_add_right _ _) le_rfl (by
        intro i _
        show q.sos.tsd.pkt.buffer[q.sos.tsd.pkt.data + i]? = c.payload[i]?
        rw [htsd]
        show c.payload[0 + i]? = _
        rw [zero_add])
    refine ⟨.empty hnil hlt _ (carries_emptyArrival h q.sos) v' hins ?_, hadded.sameConfig⟩
    unfold SegQueue.ofEditor EditView.nodes
    rw [hbefore, hafter, hnil]
  unfold SegQueue.insertInEmpty
  rw [htsd, hbase]
  by_cases hgt : seqGt c.rWinBase c.tsd.firstSeq
  · simp only [if_pos hgt]
    have hoffset : (c.rWinBase - c.tsd.segSeq).toNat = c.emptyOffset := by
      unfold Call.emptyOffset
      rw [if_pos hgt]
      rfl
    by_cases hle : c.tsd.segLen.toNat ≤ (c.rWinBase - c.tsd.segSeq).toNat
    · rw [if_pos hle]
      rw [h.segLen, hoffset] at hle
      exact ⟨.old (.inl ⟨hnil, hle⟩) rfl, rfl, rfl⟩
    · rw [if_neg hle]
      rw [h.segLen, hoffset] at hle
      exact hadd (not_le.mp hle) _ hoffset
  · simp only [if_neg hgt]
    have hoffset : c.emptyOffset = 0 := if_neg hgt
    have hlt : c.emptyOffset < c.payload.length := hoffset ▸ h.nonempty
    have hres := hadd hlt 0 hoffset.symm
    rwa [show c.tsd.firstSeq + 0 = c.tsd.firstSeq by simp] at hres

theorem call_outcome (r : TcpReassembler) (hplaced : Placed w q.nodes) (hcounts : q.Counts)
    (h : c.InWindow w) :
    ∃ q', q.call r c = some q' ∧ Outcome w r q.sos c q.nodes q'.nodes ∧
      SameConfig q.sos q'.sos ∧ q'.Counts := by
  have hzero : q.sos.segCount = 0 ↔ q.nodes = [] := by
    rw [hcounts.count]
    have hlt := hplaced.length_lt
    constructor
    · intro heq
      have hnat := congrArg BitVec.toNat heq
      rw [toNat_ofNat, mod_eq_of_lt (by omega)] at hnat
      exact List.length_eq_zero_iff.mp hnat
    · intro heq
      rw [heq]
      rfl
  have hcounts' : (q.atWinBase c.rWinBase).Counts := Counted.congr hcounts rfl
  suffices hcases : ∃ q', q.call r c = some q' ∧ Outcome w r q.sos c q.nodes q'.nodes ∧
      SameConfig q.sos q'.sos by
    obtain ⟨q', hcall, hout, hconfig⟩ := hcases
    exact ⟨q', hcall, hout, hconfig, hcounts'.queuePacket r hcall⟩
  unfold SegQueue.call
  rw [SegQueue.queuePacket_eq]
  by_cases hnil : q.nodes = []
  · have hcount : (q.atWinBase c.rWinBase).sos.segCount = 0 := hzero.mpr hnil
    rw [if_pos hcount]
    obtain ⟨hout, hconfig⟩ :=
      insertInEmpty_outcome (q := (q.atWinBase c.rWinBase).load c.tsd) r h hnil rfl rfl
    exact ⟨_, rfl, hout.congr ⟨rfl, rfl⟩, hconfig.trimWin, hconfig.policy⟩
  · have hcount : ¬ (q.atWinBase c.rWinBase).sos.segCount = 0 := fun heq => hnil (hzero.mp heq)
    rw [if_neg hcount]
    by_cases hgt : seqGt c.rWinBase c.segSeq
    · have hgt' : seqGt (q.atWinBase c.rWinBase).sos.rWinBase c.tsd.segSeq := hgt
      rw [if_pos hgt']
      by_cases hlt : c.offset < c.payload.length
      · have hlt' : ((q.atWinBase c.rWinBase).sos.rWinBase - c.tsd.segSeq).toInt <
            (c.tsd.segLen.toNat : ℤ) := (seqGt_offset h hgt).mpr hlt
        rw [if_pos hlt']
        obtain ⟨q', hres, hedit, hconfig⟩ := insertInSeglist_edit
          (q := ((q.atWinBase c.rWinBase).load c.tsd).slideSegment (c.rWinBase - c.segSeq)) r
          hplaced (Counted.congr hcounts' rfl) (arrives_slide h hlt hgt rfl)
        refine ⟨q'.slideSegment (-(c.rWinBase - c.segSeq)), ?_,
          .edit hnil hlt _ (carries_arrival h q.sos c.offset hlt) hedit,
          hconfig.trimWin, hconfig.policy⟩
        · rw [show (((q.atWinBase c.rWinBase).load c.tsd).slideSegment
            ((q.atWinBase c.rWinBase).sos.rWinBase - c.tsd.segSeq)).insertInSeglist r = some q'
            from hres]
          rfl
      · have hlt' : ¬ ((q.atWinBase c.rWinBase).sos.rWinBase - c.tsd.segSeq).toInt <
            (c.tsd.segLen.toNat : ℤ) := fun hlt' => hlt ((seqGt_offset h hgt).mp hlt')
        rw [if_neg hlt']
        exact ⟨_, rfl, .old (.inr ⟨hnil, not_lt.mp hlt⟩) rfl, rfl, rfl⟩
    · have hgt' : ¬ seqGt (q.atWinBase c.rWinBase).sos.rWinBase c.tsd.segSeq := hgt
      rw [if_neg hgt']
      have hlt : c.offset < c.payload.length := by
        unfold Call.offset
        rw [if_neg hgt]
        exact h.nonempty
      obtain ⟨q', hres, hedit, hconfig⟩ := insertInSeglist_edit
        (q := (q.atWinBase c.rWinBase).load c.tsd) r hplaced (Counted.congr hcounts' rfl)
        (arrives_new h hlt hgt rfl)
      exact ⟨q', hres, .edit hnil hlt _ (carries_arrival h q.sos c.offset hlt) hedit,
        hconfig.trimWin, hconfig.policy⟩

theorem Outcome.placed
    (h : Outcome w r sos c nodes nodes') (hplaced : Placed w nodes) : Placed w nodes' := by
  cases h with
  | old _ heq => exact heq ▸ hplaced
  | empty _ _ arr _ v' hins heq =>
    have hnil : ∀ x ∈ ([] : List Node), False := fun x hx => List.not_mem_nil hx
    rw [heq]
    exact hins.placed ⟨fun x hx => (hnil x hx).elim, .nil⟩ (fun x hx => (hnil x hx).elim) le_rfl
      fun x hx => (hnil x hx).elim
  | edit _ _ arr _ hedit => exact hedit.placed hplaced
end Snort.Tcp
