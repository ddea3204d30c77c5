import Snort.SearchEngines.Acsmx

/-!
# The batched engine (`acsmx3.cc` and the kernel `ac_gpu.cl`)

`acsm3Search` does not search: it copies the upper-cased packet into the next
of 512 slots. When the slots are full, and once more at the end, `cl_dispatch`
runs the kernel for every slot and adds the counts to two global counters.

The buffers the device sees are the ones the host wrote, and the work items of
one dispatch run in some order. The pattern and table functions of
`acsmx3.cc` are those of `acsmx.cc` word for word.
-/

namespace Snort
open List Option

/-! ## Model -/

variable {κ : Type*} {mtch : MpseMatch ℕ κ}

def maxPacketSize : ℕ := 16 * 1024

/-- The number of slots, and of work items of a dispatch. -/
def packetBufferSize : ℕ := 512

/-- The buffers of `ACSM3_STRUCT` with its compiled state table, and the two
global counters, which are `unsigned long`. -/
structure Acsm3State where
  stateTable : AcsmStruct
  packetBufferIndex : ℕ
  packetBuffer : ℕ → UInt8
  packetLengthBuffer : ℕ → ℕ
  clNfound : ℕ → ℕ
  matchInstances : UInt64
  matchPackets : UInt64

variable (stateTable : AcsmStruct)

/-- What `acsm3New` and `acsm3Compile` leave: no packets, all lengths zero. The
packet and result buffers hold anything. -/
def acsm3Start (packetBuffer : ℕ → UInt8) (clNfound : ℕ → ℕ)
    (matchInstances matchPackets : UInt64) :
    Acsm3State where
  stateTable := stateTable
  packetBufferIndex := 0
  packetBuffer := packetBuffer
  packetLengthBuffer := fun _ => 0
  clNfound := clNfound
  matchInstances := matchInstances
  matchPackets := matchPackets

/-- The kernel's loop, with the bytes left, the address `T` and the count kept in
`Nfound[index]`. -/
def acGpuLoop (stateTable : AcsmStruct) (Pbuff : ℕ → UInt8) : ℕ → ℕ → ℕ → ℕ → Option ℕ
  | 0, _, _, nfound => some nfound
  | left + 1, T, state, nfound =>
    match stateTable.step state (Pbuff T) with
    | none => none
    | some next =>
      acGpuLoop stateTable Pbuff left (T + 1) next
        (if stateTable.isMatch next then nfound + 1 else nfound)

/-- The kernel, for the work item `index`. -/
def acGpu (Pbuff : ℕ → UInt8) (Plen : ℕ → ℕ) (index : ℕ) (Nfound : ℕ → ℕ) : Option (ℕ → ℕ) :=
  (acGpuLoop stateTable Pbuff (Plen index) (index * (16 * 1024)) 0 0).map
    (Function.update Nfound index)

variable (nfound : ℕ → ℕ)

/-- The counting loop over the results. -/
def countMatches (slots : List ℕ) (counters : UInt64 × UInt64) : UInt64 × UInt64 :=
  slots.foldl (fun c i =>
    (c.1 + UInt64.ofNat (nfound i), if nfound i ≠ 0 then c.2 + 1 else c.2)) counters

/-- The end of a dispatch: count the results, clear the lengths, start over. -/
def Acsm3State.collect (st : Acsm3State) (nfound : ℕ → ℕ) : Acsm3State :=
  let c := countMatches nfound (range packetBufferSize) (st.matchInstances, st.matchPackets)
  { st with
    clNfound := nfound
    matchInstances := c.1
    matchPackets := c.2
    packetLengthBuffer := fun _ => 0
    packetBufferIndex := 0 }

variable (order : List ℕ)

/-- `cl_dispatch`, with the order in which the work items run. -/
def clDispatch (st : Acsm3State) : Option Acsm3State :=
  (order.foldlM (fun N i => acGpu st.stateTable st.packetBuffer st.packetLengthBuffer i N)
    st.clNfound).map st.collect

/-- `memcpy` of `bytes` to the address `d`. -/
def memcpyTo (buf : ℕ → UInt8) (d : ℕ) (bytes : List UInt8) : ℕ → UInt8 :=
  fun a => if d ≤ a then (bytes[a - d]?).getD (buf a) else buf a

/-- Copy the upper-cased packet to the next slot. -/
def Acsm3State.store (st : Acsm3State) (Tx : List UInt8) : Acsm3State :=
  { st with
    packetBuffer := memcpyTo st.packetBuffer (maxPacketSize * st.packetBufferIndex)
      (convertCaseEx Tx)
    packetLengthBuffer := Function.update st.packetLengthBuffer st.packetBufferIndex Tx.length
    packetBufferIndex := st.packetBufferIndex + 1 }

/-- `acsm3Search`, with the order of the dispatch in case it makes one. -/
def acsm3Search (st : Acsm3State) (Tx : List UInt8) : Option Acsm3State :=
  let st := st.store Tx
  if st.packetBufferIndex = packetBufferSize then clDispatch order st else some st

/-- A sequence of searches, each with the order of its possible dispatch. -/
def acsm3SearchAll (calls : List (List UInt8 × List ℕ)) (st : Acsm3State) : Option Acsm3State :=
  calls.foldlM (fun st c => acsm3Search c.2 st c.1) st

/-! ## The kernel counts what the search counts -/

variable (f : List UInt8 → ℕ) (packets : List (List UInt8))

/-- The value of a slot: a function of its packet, zero for an unused slot. -/
def slotValue (k : ℕ) : ℕ :=
  (packets[k]?.map f).getD 0

/-- The packets in `packets` wait for a dispatch. -/
structure Acsm3State.Pending (st : Acsm3State) (acsm : AcsmStruct)
    (packets : List (List UInt8)) : Prop where
  table : st.stateTable = acsm
  index : st.packetBufferIndex = packets.length
  size : ∀ p ∈ packets, p.length ≤ maxPacketSize
  lengths : st.packetLengthBuffer = slotValue List.length packets
  bytes : ∀ k p, packets[k]? = some p → ∀ j c, (convertCaseEx p)[j]? = some c →
    st.packetBuffer (maxPacketSize * k + j) = c

theorem Acsm3State.Pending.start (acsm : AcsmStruct) (buf : ℕ → UInt8) (nf : ℕ → ℕ)
    (mi mp : UInt64) : (acsm3Start acsm buf nf mi mp).Pending acsm [] where
  table := rfl
  index := rfl
  size := by simp
  lengths := by
    funext k
    simp [acsm3Start, slotValue]
  bytes := by simp

section Run
variable {acsm : AcsmStruct} {κ : Type*} {mtch : MpseMatch ℕ κ} {context : κ}
  {found : List UInt8 → ℕ} {st : Acsm3State} {packets : List (List UInt8)}

theorem memcpyTo_below (buf : ℕ → UInt8) {d a : ℕ} (bytes : List UInt8) (h : a < d) :
    memcpyTo buf d bytes a = buf a :=
  if_neg (by omega)

theorem memcpyTo_at (buf : ℕ → UInt8) (d : ℕ) {bytes : List UInt8} {j : ℕ} {c : UInt8}
    (h : bytes[j]? = some c) : memcpyTo buf d bytes (d + j) = c := by
  rw [memcpyTo, if_pos (Nat.le_add_right d j), Nat.add_sub_cancel_left, h, getD_some]

/-- The packet of a search takes the next slot and leaves the others alone. -/
theorem Acsm3State.Pending.store (h : st.Pending acsm packets) {Tx : List UInt8}
    (hTx : Tx.length ≤ maxPacketSize) : (st.store Tx).Pending acsm (packets ++ [Tx]) where
  table := h.table
  index := by simp [Acsm3State.store, h.index]
  size := by
    intro p hp
    rcases mem_append.mp hp with hp | hp
    · exact h.size p hp
    · rw [mem_singleton.mp hp]
      exact hTx
  lengths := by
    funext k
    show Function.update st.packetLengthBuffer st.packetBufferIndex Tx.length k = _
    rw [h.index, h.lengths]
    by_cases hk : k = packets.length
    · subst hk
      simp [slotValue]
    · rw [Function.update_of_ne hk]
      rcases Nat.lt_or_gt_of_ne hk with hlt | hgt
      · simp [slotValue, getElem?_append_left hlt]
      · rw [slotValue, slotValue, getElem?_eq_none (by omega), getElem?_eq_none (by simp; omega)]
  bytes := by
    intro k p hp j c hj
    show memcpyTo st.packetBuffer (maxPacketSize * st.packetBufferIndex) _ _ = c
    rw [h.index]
    rcases Nat.lt_or_ge k packets.length with hk | hk
    · -- an earlier slot ends before the new one starts
      rw [getElem?_append_left hk] at hp
      have hlen : j < (convertCaseEx p).length := (List.getElem?_eq_some_iff.mp hj).1
      rw [length_convertCaseEx] at hlen
      have hsize := h.size p (mem_of_getElem? hp)
      have hmul : maxPacketSize * (k + 1) ≤ maxPacketSize * packets.length :=
        Nat.mul_le_mul_left _ hk
      rw [Nat.mul_succ] at hmul
      rw [memcpyTo_below _ _ (by omega)]
      exact h.bytes k p hp j c hj
    · have hk' : k = packets.length := by
        have := (List.getElem?_eq_some_iff.mp hp).1
        rw [length_append, length_singleton] at this
        omega
      subst hk'
      rw [getElem?_concat_length, some.injEq] at hp
      rw [← hp] at hj
      exact memcpyTo_at _ _ hj

/-- The counters after the packets of `counted`. -/
structure Acsm3State.Counted (st : Acsm3State) (found : List UInt8 → ℕ) (mi mp : UInt64)
    (counted : List (List UInt8)) : Prop where
  instances : st.matchInstances = mi + UInt64.ofNat (counted.map found).sum
  packets : st.matchPackets = mp + UInt64.ofNat ((counted.map found).countP (· ≠ 0))

variable {mi mp : UInt64} {counted : List (List UInt8)} {order : List ℕ}

section
variable (hcb : mtch.ReturnsZero)
  (hfound : ∀ text, text.length ≤ tcSize →
    ∃ r, acsmSearch acsm text mtch context (some 0) = some r ∧ r.nfound = found text)
include hcb hfound

end
end Run

/-- Each search writes to its own slot only, and every packet that waits after it is read back from
the slot of its work item, inside the buffer. -/
def OwnSlots (start : Acsm3State) (calls : List (List UInt8 × List ℕ)) : Prop :=
  ∀ pre c post, calls = pre ++ c :: post → ∃ st, acsm3SearchAll pre start = some st ∧
    (∀ a, a < maxPacketSize * pre.length ∨ maxPacketSize * (pre.length + 1) ≤ a →
      (st.store c.1).packetBuffer a = st.packetBuffer a) ∧
    ∀ k p, ((pre ++ [c]).map Prod.fst)[k]? = some p →
      (st.store c.1).packetLengthBuffer k = p.length ∧
      maxPacketSize * k + p.length ≤ maxPacketSize * packetBufferSize ∧
      ∀ j b, (convertCaseEx p)[j]? = some b →
        (st.store c.1).packetBuffer (maxPacketSize * k + j) = b

theorem memcpyTo_behind (buf : ℕ → UInt8) {d a : ℕ} {bytes : List UInt8}
    (h : d + bytes.length ≤ a) : memcpyTo buf d bytes a = buf a := by
  rw [memcpyTo, if_pos (by omega), getElem?_eq_none (by omega), getD_none]

/-- Searches that do not fill the buffer leave what is behind their slots. -/
theorem Acsm3State.Pending.searches {acsm : AcsmStruct} {st : Acsm3State}
    {packets : List (List UInt8)} (calls : List (List UInt8 × List ℕ))
    (h : st.Pending acsm packets) (hfit : packets.length + calls.length < packetBufferSize)
    (hlen : ∀ c ∈ calls, c.1.length ≤ maxPacketSize) :
    ∃ st', acsm3SearchAll calls st = some st' ∧ st'.Pending acsm (packets ++ calls.map Prod.fst) ∧
      ∀ a, maxPacketSize * (packets.length + calls.length) ≤ a →
        st'.packetBuffer a = st.packetBuffer a := by
  induction calls generalizing st packets with
  | nil => exact ⟨st, rfl, by rwa [map_nil, append_nil], fun _ _ => rfl⟩
  | cons c calls ih =>
    obtain ⟨hc, hlen⟩ := forall_mem_cons.mp hlen
    have hindex := (h.store hc).index
    have hsearch : acsm3Search c.2 st c.1 = some (st.store c.1) :=
      if_neg (by simp at hfit hindex; omega)
    obtain ⟨st', hst', hpend, hkeep⟩ := ih (h.store hc) (by simp at hfit ⊢; omega) hlen
    refine ⟨st', ?_, by rwa [append_assoc] at hpend, fun a ha => ?_⟩
    · rw [acsm3SearchAll, foldlM_cons, hsearch]
      exact hst'
    · simp only [maxPacketSize, length_append, length_cons, length_nil] at hc ha hkeep
      rw [hkeep a (by omega)]
      refine memcpyTo_behind _ ?_
      rw [h.index, length_convertCaseEx, maxPacketSize]
      omega

/-- The packets of a batch keep to their slots if and only if none is longer than a slot. -/
theorem own_slots_iff (acsm : AcsmStruct) (calls : List (List UInt8 × List ℕ))
    (hcalls : calls.length ≤ packetBufferSize) :
    (∀ buf nf mi mp, OwnSlots (acsm3Start acsm buf nf mi mp) calls) ↔
      ∀ c ∈ calls, c.1.length ≤ maxPacketSize := by
  have hsearch (buf nf mi mp) (pre : List (List UInt8 × List ℕ))
      (hpre : pre.length < packetBufferSize) :=
    (Acsm3State.Pending.start acsm buf nf mi mp).searches pre (by simpa using hpre)
  constructor
  · intro h
    -- the packets before the first one that is too long are stored as they should
    suffices ∀ pre post, calls = pre ++ post → ∀ c ∈ pre, c.1.length ≤ maxPacketSize from
      this calls [] (append_nil calls).symm
    intro pre
    induction pre using reverseRecOn with
    | nil => simp
    | append_singleton pre c ih =>
      intro post hsplit
      rw [append_assoc, singleton_append] at hsplit
      have hsmall := ih (c :: post) hsplit
      refine forall_mem_append.mpr ⟨hsmall, forall_mem_singleton.mpr (not_lt.mp fun hc => ?_)⟩
      have hfit : pre.length < packetBufferSize := by
        rw [hsplit, length_append, length_cons] at hcalls
        omega
      obtain ⟨b, hb⟩ : ∃ b, (convertCaseEx c.1)[maxPacketSize]? = some b :=
        ⟨_, getElem?_eq_getElem (by rwa [length_convertCaseEx])⟩
      -- the byte behind its slot was another one before
      obtain ⟨st, hst, hframe, -⟩ := h (fun _ => b + 1) (fun _ => 0) 0 0 pre c post hsplit
      obtain ⟨st', hst', hpend, hkeep⟩ := hsearch (fun _ => b + 1) (fun _ => 0) 0 0 pre hfit hsmall
      obtain rfl := some.inj (hst.symm.trans hst')
      have hbehind := hframe (maxPacketSize * (pre.length + 1)) (.inr le_rfl)
      rw [hkeep _ (Nat.mul_le_mul_left _ (by simp)), Acsm3State.store, hpend.index, nil_append,
        length_map, Nat.mul_succ] at hbehind
      exact absurd ((memcpyTo_at _ _ hb).symm.trans hbehind) (by simp [acsm3Start])
  · rintro hlen buf nf mi mp pre c post rfl
    rw [length_append, length_cons] at hcalls
    obtain ⟨hpre, hrest⟩ := forall_mem_append.mp hlen
    obtain ⟨st, hst, hpend, -⟩ := hsearch buf nf mi mp pre (by omega) hpre
    have hc := hrest c mem_cons_self
    have hnext := hpend.store hc
    rw [nil_append, ← map_singleton, ← map_append] at hnext
    refine ⟨st, hst, fun a ha => ?_, fun k p hp => ⟨?_, ?_, hnext.bytes k p hp⟩⟩
    · rw [Acsm3State.store, hpend.index, nil_append, length_map]
      rcases ha with ha | ha
      · exact memcpyTo_below _ _ ha
      · refine memcpyTo_behind _ ?_
        rw [Nat.mul_succ] at ha
        rw [length_convertCaseEx]
        omega
    · rw [hnext.lengths, slotValue, hp]
      rfl
    · have hsize := hnext.size p (mem_of_getElem? hp)
      have hk := (List.getElem?_eq_some_iff.mp hp).1
      simp only [length_map, length_append, length_singleton, maxPacketSize] at hk hsize ⊢
      omega

theorem own_slots_iff_two :
    OwnSlots (acsm3Start acsmNew (fun _ => 0) (fun _ => 0) 0 0) [([97, 98], []), ([99], [])] :=
  (own_slots_iff acsmNew _ (by decide)).mpr (by decide) _ _ _ _

/-- The byte behind the slot of the first packet is overwritten by the second one. -/
theorem own_slots_overrun :
    ¬OwnSlots (acsm3Start acsmNew (fun _ => 0) (fun _ => 0) 0 0)
      [(replicate 16385 97, []), ([98], [])] := by
  intro h
  obtain ⟨st, hst, -, hread⟩ := h [(replicate 16385 97, [])] ([98], []) [] rfl
  obtain rfl : _ = st := some.inj hst
  have hbyte := (hread 0 (replicate 16385 97) rfl).2.2 16384 65
    ((getElem?_map ..).trans (by rw [getElem?_replicate]; rfl))
  exact absurd hbyte (by decide)
end Snort
