import Snort.Filters.Sfthd
import Snort.Sfip.IpVarMembership

/-!
# The windows of a threshold

Which events an object logs, by the place of each event in its window. A window
opens at its first event and lasts for the seconds of the object. The windows of
a threshold are different: the one behind a logged event opens at that event.
-/

namespace Snort.Filters
open Nat List

/-! ## Windows -/

section Windows
variable (seconds : ℕ)

/-- The window of an event, with its start and its number of events. -/
def next (t : ℤ) : Option (ℤ × ℕ) → ℤ × ℕ
  | none => (t, 1)
  | some w => if t < w.1 + seconds then (w.1, w.2 + 1) else (t, 1)

/-- The places of the events in their windows. `settle` is what is left of a window behind an
event. -/
def places (settle : ℤ × ℕ → ℤ → Option (ℤ × ℕ)) : Option (ℤ × ℕ) → List ℤ → List ℕ
  | _, [] => []
  | w, t :: ts => (next seconds t w).2 :: places settle (settle (next seconds t w) t) ts

def lasting (w : ℤ × ℕ) (_t : ℤ) : Option (ℤ × ℕ) := some w

/-- A window ends at its `count`th event. -/
def ending (count : ℕ) (w : ℤ × ℕ) (_t : ℤ) : Option (ℤ × ℕ) := if w.2 = count then none else some w

/-- A window ends at its `count`th event, and the next one opens there. -/
def reopening (count : ℕ) (w : ℤ × ℕ) (t : ℤ) : Option (ℤ × ℕ) :=
  some (if w.2 = count then (t, 0) else w)

/-- The events that the type promises to log -/
def promised (type : ThdType) (count : ℕ) (times : List ℤ) : List Bool :=
  match type with
  | .limit => (places seconds lasting none times).map fun n => decide (n ≤ count)
  | .threshold => (places seconds (ending count) none times).map fun n => decide (n = count)
  | _ => (places seconds lasting none times).map fun n => decide (n = count)

/-- The events that are logged. Where the count is one, `both` logs the very first event only. -/
def expected (type : ThdType) (count : ℕ) (times : List ℤ) : List Bool :=
  match type, times with
  | _, [] => []
  | .limit, times => (places seconds lasting none times).map fun n => decide (n ≤ count)
  | .threshold, times => (places seconds (reopening count) none times).map fun n =>
      decide (n = count)
  | _, t :: ts =>
    if count = 1 then true :: ts.map fun _ => false
    else (places seconds lasting none (t :: ts)).map fun n => decide (n = count)
end Windows

/-! ## The node of an address -/

section Node
variable {node : ThdNode} {ip : ThdIpNode} {lo t : ℤ} {w : ℤ × ℕ} {ts : List ℤ}

theorem seconds_le_elapsed {seconds : BitVec 32} {start : ℤ} (hlo : start ≤ t)
    (hhi : t < start + 2 ^ 32) : seconds ≤ elapsed t start ↔ ¬ t < start + seconds.toNat := by
  unfold elapsed
  rw [BitVec.le_def, BitVec.toNat_ofInt]
  omega

/-- The events behind a window: not before it, not too many and not too far away. -/
structure Coming (lo : ℤ) (w : ℤ × ℕ) (ts : List ℤ) : Prop where
  lo_le : lo ≤ w.1
  le : ∀ t ∈ ts, w.1 ≤ t
  lt : ∀ t ∈ ts, t < lo + 2 ^ 32
  sorted : ts.Pairwise (· ≤ ·)
  short : w.2 + ts.length < 2 ^ 31

theorem Coming.opens (h : Coming lo w (t :: ts)) {m : ℕ} (hm : m ≤ w.2 + 1) :
    Coming lo (t, m) ts where
  lo_le := h.lo_le.trans (h.le t mem_cons_self)
  le := (pairwise_cons.mp h.sorted).1
  lt t ht := h.lt t (mem_cons_of_mem _ ht)
  sorted := h.sorted.of_cons
  short := by
    have := h.short
    rw [length_cons] at this
    show m + ts.length < 2 ^ 31
    omega

theorem Coming.next (h : Coming lo w (t :: ts))
    (seconds : ℕ) : Coming lo (next seconds t (some w)) ts := by
  unfold Filters.next
  dsimp only
  split_ifs
  · have hopen := h.opens (le_refl (w.2 + 1))
    exact ⟨h.lo_le, fun t ht => h.le t (mem_cons_of_mem _ ht), hopen.lt, hopen.sorted, hopen.short⟩
  · exact h.opens (le_add_left 1 w.2)

/-- The node stands for the window. -/
structure Counts (ip : ThdIpNode) (w : ℤ × ℕ) : Prop where
  tstart : ip.tstart = w.1
  count : ip.count.toNat = w.2

theorem Counts.toInt (h : Counts ip w) (hs : Coming lo w ts) : ip.count.toInt = w.2 := by
  have hshort := hs.short
  rw [BitVec.toInt_eq_toNat_of_lt (by rw [h.count]; omega), h.count]

theorem Coming.seconds_le (h : Coming lo w (t :: ts)) (node : ThdNode) (hip : ip.tstart = w.1) :
    node.seconds ≤ elapsed t ip.tstart ↔ ¬ t < w.1 + node.seconds.toNat := by
  have hlt := h.lt t mem_cons_self
  have hlo := h.lo_le
  rw [hip]
  exact seconds_le_elapsed (h.le t mem_cons_self) (by omega)

/-- An event is counted, in its window or as the first of a new one. -/
theorem Coming.restart (h : Coming lo w (t :: ts)) (node : ThdNode) (hip : Counts ip w) :
    Counts (restart node { ip with count := ip.count + 1 } t)
      (Filters.next node.seconds.toNat t (some w)) := by
  have hshort := h.short
  unfold Filters.restart Filters.next
  dsimp only
  by_cases hin : t < w.1 + node.seconds.toNat
  · rw [if_neg fun hle => (h.seconds_le node hip.tstart).mp hle hin, if_pos hin]
    refine ⟨hip.tstart, ?_⟩
    rw [BitVec.toNat_add, hip.count]
    exact mod_eq_of_lt (show w.2 + 1 < 2 ^ 32 by omega)
  · rw [if_pos ((h.seconds_le node hip.tstart).mpr hin), if_neg hin]
    exact ⟨rfl, rfl⟩

theorem restart_new (hseconds : 0 < node.seconds) : restart node ⟨1, 0, t, t⟩ t = ⟨1, 0, t, t⟩ := by
  have : 0 < node.seconds.toNat := hseconds
  unfold restart
  rw [if_neg]
  rw [seconds_le_elapsed le_rfl (by omega)]
  omega

/-! ## Whole sequences -/

/-- An event is logged by its place in the window, and keeps a relation between the node and the
window. -/
def Keeps (lo : ℤ) (node : ThdNode) (settle : ℤ × ℕ → ℤ → Option (ℤ × ℕ)) (log : ℕ → Bool)
    (R : ThdIpNode → ℤ × ℕ → Prop) : Prop :=
  ∀ ip w t ts, Coming lo w (t :: ts) → R ip w →
    let w' := next node.seconds.toNat t (some w)
    let r := countEvent node t (some ip)
    decide (r.1 = 0) = log w'.2 ∧ ∃ w'', settle w' t = some w'' ∧ Coming lo w'' ts ∧ R r.2 w''

theorem Keeps.run {settle : ℤ × ℕ → ℤ → Option (ℤ × ℕ)} {log : ℕ → Bool}
    {R : ThdIpNode → ℤ × ℕ → Prop} (hkeeps : Keeps lo node settle log R) (h : Coming lo w ts)
    (hip : R ip w) :
    entryLogged node (some ip) ts = (places node.seconds.toNat settle (some w) ts).map log := by
  induction ts generalizing ip w with
  | nil => rfl
  | cons t ts ih =>
    obtain ⟨hlog, w', hsettle, h', hip'⟩ := hkeeps ip w t ts h hip
    rw [entryLogged, places, map_cons, hlog, hsettle, ih h' hip']

/-- The node of a threshold: where the count is one, that of a new address is one event ahead. -/
structure Awaits (count : ℕ) (ip : ThdIpNode) (w : ℤ × ℕ) : Prop where
  tstart : ip.tstart = w.1
  lt : w.2 < count
  ahead : ip.count.toNat = w.2 ∨ count = 1 ∧ ip.count.toNat = 1

theorem length_places (seconds : ℕ) (settle : ℤ × ℕ → ℤ → Option (ℤ × ℕ)) (w : Option (ℤ × ℕ)) :
    (places seconds settle w ts).length = ts.length := by
  induction ts generalizing w with
  | nil => rfl
  | cons t ts ih => exact congrArg (· + 1) (ih _)

variable {count : ℕ} (hcount : node.count = count)
include hcount

theorem limit_keeps (htype : node.type = .limit) :
    Keeps lo node lasting (fun n => decide (n ≤ count)) Counts := by
  intro ip w t ts h hip
  have hip' := h.restart node hip
  have h' := h.next node.seconds.toNat
  have hint := hip'.toInt h'
  simp only [countEvent, sfthdTestNonSuppress, htype, hint, hcount, Int.ofNat_le]
  split_ifs with hle
  · exact ⟨by simp [hle], _, rfl, h', hip'⟩
  · exact ⟨by simp [hle], _, rfl, h', hip'⟩

theorem threshold_keeps (htype : node.type = .threshold) :
    Keeps lo node (reopening count) (fun n => decide (n = count)) (Awaits count) := by
  intro ip w t ts h hip
  have hlt := hip.lt
  have h' := h.next node.seconds.toNat
  have hle : (next node.seconds.toNat t (some w)).2 ≤ count := by
    unfold next
    dsimp only
    split_ifs <;> dsimp only <;> omega
  simp only [countEvent, sfthdTestNonSuppress, htype, hcount, reopening]
  rcases hip.ahead with hn | ⟨rfl, hn⟩
  · have hip' := h.restart node ⟨hip.tstart, hn⟩
    simp only [hip'.toInt h', Int.ofNat_le]
    by_cases hfull : (next node.seconds.toNat t (some w)).2 = count
    · rw [if_pos hfull.ge, if_pos hfull]
      exact ⟨by simp [hfull], _, rfl, h.opens (zero_le _), rfl, zero_lt_of_lt hlt, Or.inl rfl⟩
    · rw [if_neg (by omega), if_neg hfull]
      exact ⟨by simp [hfull], _, rfl, h', hip'.tstart, by omega, Or.inl hip'.count⟩
  · -- the count of the node is two in its window, and one in a new one
    have hone : 1 ≤ (restart node { ip with count := ip.count + 1 } t).count.toInt := by
      unfold restart
      split_ifs
      · exact (by decide : (1 : ℤ) ≤ (1 : BitVec 32).toInt)
      · rw [show ip.count = 1 from BitVec.eq_of_toNat_eq hn]
        exact (by decide : (1 : ℤ) ≤ (1 + 1 : BitVec 32).toInt)
    have hfull : (next node.seconds.toNat t (some w)).2 = 1 := by
      unfold next
      dsimp only
      split_ifs <;> dsimp only; omega
    rw [if_pos (by exact_mod_cast hone), if_pos hfull]
    exact ⟨by simp [hfull], _, rfl, h.opens (zero_le _), rfl, one_pos, Or.inl rfl⟩

theorem both_keeps (htype : node.type = .both) :
    Keeps lo node lasting (fun n => decide (n = count ∧ count ≠ 1))
      fun ip w => Counts ip w ∧ 1 ≤ w.2 := by
  rintro ip w t ts h ⟨hip, hw⟩
  have hip' := h.restart node hip
  have h' := h.next node.seconds.toNat
  have hint := hip'.toInt h'
  simp only [countEvent, sfthdTestNonSuppress, htype, hcount]
  unfold restart next at *
  dsimp only at *
  by_cases hin : t < w.1 + node.seconds.toNat
  · have hno := fun hle => (h.seconds_le node hip.tstart).mp hle hin
    rw [if_neg hno, if_pos hin] at hip' hint
    rw [if_pos hin] at h'
    simp only [if_neg hno, hint, Int.ofNat_le, Int.ofNat_lt, if_pos hin]
    split_ifs
    all_goals exact ⟨by simp; omega, _, rfl, h', hip', by omega⟩
  · have hout := (h.seconds_le node hip.tstart).mpr hin
    rw [if_pos hout, if_neg hin] at hip'
    rw [if_neg hin] at h'
    simp only [if_pos hout, if_neg hin]
    exact ⟨by simp; omega, _, rfl, h', hip', le_refl 1⟩

theorem entryLogged_new (hpos : 1 ≤ count) (hseconds : 0 < node.seconds)
    (htype : node.type = .limit ∨ node.type = .threshold ∨ node.type = .both)
    (h : Coming t (t, 1) ts) :
    entryLogged node none (t :: ts) = expected node.seconds.toNat node.type count (t :: ts) := by
  have hnew : Counts ⟨1, 0, t, t⟩ (t, 1) := ⟨rfl, rfl⟩
  have hone : (1 : BitVec 32).toInt = 1 := by decide
  have hopen := restart_new (t := t) hseconds
  rw [entryLogged, countEvent]
  rcases htype with htype | htype | htype
  · have hfirst : (sfthdTestNonSuppress node ⟨1, 0, t, t⟩ t).1 = 0 := by
      simp only [sfthdTestNonSuppress, htype, hopen, hone, hcount]
      rw [if_pos (by exact_mod_cast hpos)]
    rw [htype, hfirst, (limit_keeps hcount htype).run h hnew]
    simp [expected, places, next, lasting, hpos]
  · have hkeeps : Keeps t node _ _ _ := threshold_keeps hcount htype
    simp only [sfthdTestNonSuppress, htype, hopen, hone, hcount]
    by_cases hcount1 : count = 1
    · subst hcount1
      rw [hkeeps.run (w := (t, 0)) ⟨le_rfl, h.le, h.lt, h.sorted,
        lt_of_succ_lt (succ_add 0 _ ▸ h.short)⟩
        ⟨rfl, one_pos, .inr ⟨rfl, rfl⟩⟩]
      simp [expected, places, next, reopening]
    · have hlt : 1 < count := by omega
      rw [hkeeps.run h ⟨rfl, hlt, .inl rfl⟩, if_neg (by omega)]
      simp [expected, places, next, reopening, Ne.symm hcount1]
  · have hin : ¬ node.seconds ≤ elapsed t t := by
      have : 0 < node.seconds.toNat := hseconds
      rw [seconds_le_elapsed le_rfl (by omega)]
      omega
    have hrun := (both_keeps hcount htype).run h ⟨hnew, le_refl 1⟩
    simp only [sfthdTestNonSuppress, htype, if_neg hin, hone, hcount, hrun]
    by_cases hcount1 : count = 1
    · subst hcount1
      simp [expected, length_places]
    · have : ¬ (count : ℤ) ≤ 1 := by omega
      simp [expected, places, next, lasting, hcount1, Ne.symm hcount1, this]
end Node

/-- What is logged of the events of an address that has no node yet. -/
theorem logged_eq_expected (policyId : ℕ) (objs : ThresholdObjects) (genId sigId : ℕ)
    (node : ThdNode) (ip : Sfip.SfIp) (thd : ThdStruct) (events : List Event)
    (hgen : genId < thdMaxGenid) (hobj : ∀ e ∈ events, Governs policyId objs genId sigId node e)
    (htype : node.type = .limit ∨ node.type = .threshold ∨ node.type = .both)
    (hcount : 1 ≤ node.count) (hseconds : 0 < node.seconds)
    (hnew : Untracked policyId sigId node thd ip) (hip : ∀ e ∈ events, node.tracked e = ip)
    (hsorted : (events.map Event.curtime).Pairwise (· ≤ ·))
    (hspan : ∀ e ∈ events, ∀ e' ∈ events, e'.curtime < e.curtime + 2 ^ 32)
    (hshort : events.length < 2 ^ 31) :
    logged policyId objs genId sigId thd events =
      expected node.seconds.toNat node.type node.count.toNat (events.map Event.curtime) := by
  have hentry : entryOf policyId objs genId sigId node ip thd = none := by
    unfold entryOf
    split_ifs
    · exact hnew.2
    · exact hnew.1
  have hsup : node.type ≠ .suppress := by rcases htype with h | h | h <;> rw [h] <;> decide
  rw [logged_eq hgen hcount hsup hobj hip, hentry]
  cases events with
  | nil => cases node.type <;> rfl
  | cons e events =>
    obtain ⟨hle, hsorted⟩ := pairwise_cons.mp hsorted
    refine entryLogged_new (by omega) (by omega) hseconds htype ⟨le_rfl, hle, ?_, hsorted, ?_⟩
    · intro t ht
      obtain ⟨e', he', rfl⟩ := mem_map.mp ht
      exact hspan e mem_cons_self e' (mem_cons_of_mem _ he')
    · rw [length_map, add_comm]
      exact hshort

/-! ## Objects of one rule -/

def sampleNode (type : ThdType) (count : ℤ) : ThdNode := ⟨1, 1, .src, type, count, 10, none⟩

def sampleObjects (node : ThdNode) : ThresholdObjects := ⟨fun _ _ _ => [node], fun _ _ => none⟩

/-- A suppressor of a block in front of the object. -/
def behindSuppressor (node : ThdNode) : ThresholdObjects :=
  ⟨fun _ _ _ => [⟨2, 1, .src, .suppress, 0, 0, some Sfip.lowerTen⟩, node], fun _ _ => none⟩

def noNodes : ThdStruct := ⟨fun _ => none, fun _ => none⟩

def eventsAt (times : List ℤ) : List Event := times.map fun t => ⟨.set4 1, .set4 2, t⟩

theorem logged_eq_expected_threshold :
    logged 0 (behindSuppressor (sampleNode .threshold 2)) 1 1 noNodes (eventsAt [0, 1, 9, 12]) =
      expected 10 .threshold 2 [0, 1, 9, 12] := by
  have hobj : ∀ e ∈ eventsAt [0, 1, 9, 12], Governs 0
      (behindSuppressor (sampleNode .threshold 2)) 1 1 (sampleNode .threshold 2) e := by
    intro e he
    refine .inl ⟨[_], [], rfl, fun s hs => ?_⟩
    obtain ⟨t, -, rfl⟩ := mem_map.mp he
    rw [mem_singleton.mp hs]
    refine ⟨by decide, rfl, ?_⟩
    show sfthdTestSuppress _ (.set4 1) = 1
    decide
  exact logged_eq_expected 0 _ 1 1 (sampleNode .threshold 2) (.set4 1) noNodes
    (eventsAt [0, 1, 9, 12]) (by decide) hobj (.inr (.inl rfl)) (by decide) (by decide) ⟨rfl, rfl⟩
    (by intro e he; obtain ⟨t, -, rfl⟩ := mem_map.mp he; rfl) (by decide) (by decide) (by decide)

/-- A later window of one event is not logged by `both`, and the events of a threshold behind a
logged one are counted from that one on. -/
theorem logged_not_promised :
    (logged 0 (sampleObjects (sampleNode .both 1)) 1 1 noNodes (eventsAt [0, 10]) = [true, false] ∧
      promised 10 .both 1 [0, 10] = [true, true]) ∧
    logged 0 (sampleObjects (sampleNode .threshold 2)) 1 1 noNodes (eventsAt [0, 1, 9, 12]) =
        [false, true, false, false] ∧
      promised 10 .threshold 2 [0, 1, 9, 12] = [false, true, false, true] := by
  decide +kernel
end Snort.Filters
