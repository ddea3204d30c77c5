import Snort.Stream.Tcp.StoredData
import Snort.Structures.WriteHistory

/-!
# The bytes that are queued

A run of calls is a history of writes to the sequence space. The list holds at
most one byte for every sequence number; which of the bytes that were sent it
is depends on the policy.
-/

namespace Snort.Tcp
open List Serial

/-- The byte that a node holds for a sequence number. -/
def TcpSegment.byteAt (tsn : TcpSegment) (s : BitVec 32) : Option UInt8 :=
  tsn.data[tsn.offset.toNat + (s - tsn.cSeq).toNat]?

namespace Call

/-- The byte that a segment carries for a sequence number. -/
def byteAt (c : Call) (s : BitVec 32) : Option UInt8 :=
  c.payload[(s - c.tsd.firstSeq).toNat]?

/-- `process_tcp_data` hands the data of a SYN on only under the policy `OS_MACOS`. -/
def Accepted (c : Call) (osPolicy : StreamPolicy) : Prop := c.syn = true → osPolicy = .osMacos

instance (c : Call) (osPolicy : StreamPolicy) : Decidable (c.Accepted osPolicy) := by
  unfold Accepted
  infer_instance

/-- The byte that a segment carries for a position. -/
def byteOn (w : BitVec 32) (c : Call) (p : ℕ) : Option UInt8 :=
  c.payload[p - (pos w c.segSeq + c.synLen)]?
end Call

/-- A run of calls. -/
def TcpReassembler.calls (r : TcpReassembler) (trs : TcpReassemblerState) (calls : List Call) :
    Option TcpReassemblerState :=
  calls.foldlM r.call trs

/-- What the calls sent first. -/
def firstSent (calls : List Call) (s : BitVec 32) : Option (Option UInt8) :=
  WriteHistory.first Call.Sends Call.byteAt calls s

/-- What the calls sent last. -/
def lastSent (calls : List Call) (s : BitVec 32) : Option (Option UInt8) :=
  WriteHistory.last Call.Sends Call.byteAt calls s

/-! ## New nodes -/

section New
variable {w : BitVec 32} {arr : Arrival} {v v' : EditView} {nodes nodes' : List Node}

/-- The node holds the bytes of the segment. -/
def Arrival.Agrees (arr : Arrival) (w : BitVec 32) (tsn : TcpSegment) : Prop :=
  ∀ p, tsn.start w ≤ p → p < tsn.fin w → tsn.byte w p = arr.byte p

/-- A node made of bytes of the segment. -/
structure Arrival.New (arr : Arrival) (w : BitVec 32) (tsn : TcpSegment) : Prop where
  start : arr.start ≤ tsn.start w
  fin : tsn.fin w ≤ arr.dataEnd
  agrees : arr.Agrees w tsn

/-- All nodes are still there, and the new ones hold bytes of the segment. -/
structure Kept (w : BitVec 32) (arr : Arrival) (nodes nodes' : List Node) : Prop where
  old : ∀ x ∈ nodes, x ∈ nodes'
  new : ∀ x ∈ nodes', x ∈ nodes ∨ arr.New w x.2

theorem Kept.congr {l : List Node} (h : Kept w arr nodes l) (hl : ∀ x, x ∈ nodes' ↔ x ∈ l) :
    Kept w arr nodes nodes' :=
  ⟨fun x hx => (hl x).mpr (h.old x hx), fun x hx => h.new x ((hl x).mp hx)⟩

theorem Insert.kept {hi : ℕ} (h : Insert w arr v hi v') (hkept : Kept w arr nodes v.nodes)
    (hseq : arr.start ≤ v.seq) (hdsize : arr.len < 2 ^ 15 → v.dsize = arr.len)
    (hhi : hi ≤ arr.dataEnd) : Kept w arr nodes v'.nodes := by
  have hend := arr.dataEnd_eq
  cases h with
  | store node hshort hlt hstart hfin _ _ hbyte heq =>
    subst heq
    have hagrees : arr.Agrees w node.2 := by
      have hdsize := hdsize hshort
      intro p hlo hlt
      exact hbyte (by omega) p (hstart ▸ hlo) (hfin ▸ hlt)
    have hmem : ∀ x, x ∈ ({ v with before := node :: v.before } : EditView).nodes ↔
        x = node ∨ x ∈ v.nodes := by
      intro x
      rw [EditView.mem_nodes, EditView.mem_nodes, mem_cons, or_assoc]
    refine ⟨fun x hx => (hmem x).mpr (.inr (hkept.old x hx)), fun x hx => ?_⟩
    rcases (hmem x).mp hx with rfl | hx
    · exact .inr ⟨hstart ▸ hseq, hfin ▸ hhi, hagrees⟩
    · exact hkept.new x hx
  | discard _ heq =>
    rw [heq]
    exact hkept

theorem Finish.kept (h : Finish w arr v v') (hkept : Kept w arr nodes v.nodes)
    (hseq : arr.start ≤ v.seq) (hdsize : arr.len < 2 ^ 15 → v.dsize = arr.len) :
    Kept w arr nodes v'.nodes := by
  cases h with
  | insert _ hins => exact hins.kept hkept hseq hdsize (Nat.sub_le _ _)
  | leave _ heq => exact heq ▸ hkept
end New

/-! ## Calls -/

variable {w : BitVec 32} {c : Call} {p : ℕ} {r : TcpReassembler} {sos : SegmentOverlapState}
  {nodes nodes' : List Node} {s : BitVec 32} {arr : Arrival}

theorem TcpReassembler.calls_concat {trs trs' : TcpReassemblerState} {calls : List Call}
    (h : r.calls trs calls = some trs') : r.calls trs (calls ++ [c]) = r.call trs' c := by
  unfold TcpReassembler.calls at *
  rw [foldlM_append, h]
  exact bind_pure (r.call trs' c)

/-! ## Positions -/

theorem TcpSegment.Sound.byteAt_eq {tsn : TcpSegment} (h : tsn.Sound w)
    (hs : tsn.Has s) : tsn.byteAt s = tsn.byte w (pos w s) := by
  unfold byteAt byte
  rw [h.cSeq, toNat_sub ((has_iff h.fin_lt).mp hs).1]
  rfl

theorem Call.InWindow.byteAt_eq (h : c.InWindow w) (hs : c.Sends s) :
    c.byteAt s = c.byteOn w (pos w s) := by
  have hs' := h.sends_iff.mp hs
  have hfirst := h.pos_firstSeq
  unfold byteAt byteOn
  rw [toNat_sub (o := w) (by omega), hfirst]

/-- The arrival that a call brings has the bytes of the call. -/
theorem Carries.byte_eq {o : ℕ}
    (h : Carries sos arr (pos w c.segSeq + o) (c.payload.drop o) c.synLen) (hsyn : c.syn = false)
    (hp : arr.start ≤ p) : arr.byte p = c.byteOn w p := by
  have hstart := h.start
  have hzero : c.synLen = 0 := by
    unfold Call.synLen
    rw [hsyn]
    rfl
  unfold Arrival.byte Call.byteOn
  rw [h.payload, getElem?_drop, hzero, show o + (p - arr.start) = p - (pos w c.segSeq + 0) by
    omega]

theorem Carries.byte_eq_of_empty
    (h : Carries sos arr (pos w c.segSeq + c.synLen) c.payload 0) : arr.byte p = c.byteOn w p := by
  unfold Arrival.byte Call.byteOn
  rw [h.payload, h.start]

theorem offsets_of_not_syn (hsyn : c.syn = false) :
    c.synLen = 0 ∧ c.offset = c.skipped ∧ c.emptyOffset = c.skipped := by
  have hfirst : c.tsd.firstSeq = c.segSeq := by
    show (if c.syn then c.segSeq + 1 else c.segSeq) = c.segSeq
    rw [hsyn]
    rfl
  unfold Call.synLen Call.offset Call.emptyOffset Call.skipped
  rw [hfirst, hsyn]
  exact ⟨rfl, rfl, rfl⟩

/-- A segment without SYN adds its data to what is covered. -/
theorem Outcome.covers_of_not_syn (h : Outcome w r sos c nodes nodes') (hplaced : Placed w nodes)
    (hsyn : c.syn = false) (hshort : c.payload.length < 2 ^ 15) :
    CoversAt w nodes' p ↔ CoversAt w nodes p ∨ SendsAt w c p := by
  obtain ⟨hzero, hoffset, hempty⟩ := offsets_of_not_syn hsyn
  unfold SendsAt
  cases h with
  | old hold heq =>
    have hnone : c.payload.length ≤ c.skipped := by omega
    rw [heq, or_iff_left]
    omega
  | empty hnil hlt arr harr v' hins heq =>
    have hlen : arr.len = c.payload.length := by rw [Arrival.len, harr.payload]
    have hend := arr.dataEnd_eq
    have hstart := harr.start
    rw [heq, coversAt_empty hins, hnil, or_iff_right IntervalList.covers_nil]
    omega
  | edit hne hlt arr harr hedit =>
    have hlen : arr.len = c.payload.length - c.offset := by
      rw [Arrival.len, harr.payload, length_drop]
    have hend := arr.dataEnd_eq
    have hstart := harr.start
    rw [hedit.fills hplaced (harr.syn.trans hzero) (by omega)]
    refine or_congr Iff.rfl ?_
    omega

/-! ## Runs -/

/-- Segments of the window without SYN whose length fits the signed 16 bits. -/
structure Call.Plain (w : BitVec 32) (c : Call) : Prop extends c.InWindow w where
  syn : c.syn = false
  short : c.payload.length < 2 ^ 15

/-- The state and the nodes after a run of calls on an empty list. -/
structure Ran (w : BitVec 32) (r : TcpReassembler) (trs₀ : TcpReassemblerState) (calls : List Call)
    (trs : TcpReassemblerState) (nodes : List Node) : Prop where
  run : r.calls trs₀ calls = some trs
  holds : trs.seglist.Holds nodes
  count : trs.sos.segCount = BitVec.ofNat 32 nodes.length
  config : SameConfig trs₀.sos trs.sos
  placed : Placed w nodes
  stored : AllStored nodes
  covers : ∀ p, CoversAt w nodes p ↔ ∃ c ∈ calls, SendsAt w c p

namespace Ran
variable {pol : StreamPolicy} {tcpIpsData trimWin : NormMode} {trs₀ trs : TcpReassemblerState}
  {calls : List Call}
theorem wellFormed (h : Ran w r trs₀ calls trs nodes) : WellFormed trs nodes :=
  ⟨h.holds, h.count, h.placed.wellFormed h.stored⟩

theorem init : Ran w r (.init pol tcpIpsData trimWin) [] (.init pol tcpIpsData trimWin) [] where
  run := rfl
  holds := TcpSegmentList.holds_empty
  count := rfl
  config := ⟨rfl, rfl⟩
  placed := ⟨fun _ hx => absurd hx not_mem_nil, .nil⟩
  stored _ hx := absurd hx not_mem_nil
  covers p := by simp

theorem unique (h : Ran w r trs₀ calls trs nodes) {trs' : TcpReassemblerState}
    (h' : Ran w r trs₀ calls trs' nodes') : trs = trs' ∧ nodes = nodes' := by
  obtain rfl : trs = trs' := Option.some.inj (h.run.symm.trans h'.run)
  exact ⟨rfl, h.holds.unique h'.holds⟩

theorem call (h : Ran w r trs₀ calls trs nodes) (hc : c.Plain w) :
    ∃ trs' nodes', Ran w r trs₀ (calls ++ [c]) trs' nodes' ∧
      Outcome w r trs₀.sos c nodes nodes' := by
  obtain ⟨trs', nodes', hcall, hholds, hcount, hconfig, hout⟩ :=
    call_spec r h.placed h.holds h.count hc.toInWindow
  have hcovers := fun p => hout.covers_of_not_syn (p := p) h.placed hc.syn hc.short
  refine ⟨trs', nodes', ⟨(TcpReassembler.calls_concat h.run).trans hcall, hholds, hcount,
    h.config.trans hconfig, hout.placed h.placed, hout.allStored h.placed h.stored hc.syn, ?_⟩,
    hout.congr h.config.symm⟩
  intro p
  rw [hcovers, h.covers]
  simp only [mem_append, mem_singleton, or_and_right, exists_or, exists_eq_left]
end Ran
end Snort.Tcp
