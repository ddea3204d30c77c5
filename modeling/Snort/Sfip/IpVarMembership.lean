import Snort.Sfip.IpVar

/-!
# What an address variable contains

An address is in a variable if some block contains it, or there is none, and no
negated block does. The blocks with a zero address are an exception: they are
taken for wildcards.
-/

namespace Snort.Sfip
namespace Lookup
variable {l : Lookup} {ip : SfIp} {pos : List SfipNode} {found : Bool}

theorem ipInRest_iff :
    l.ipInRest ip pos found = true ↔
      pos ≠ [] ∧ found = true ∨ ∃ p ∈ pos, l.matched ip p = true := by
  induction pos generalizing found with
  | nil => simp [ipInRest]
  | cons p rest ih =>
    cases found with
    | true => simp [ipInRest]
    | false =>
      by_cases hp : l.matched ip p = true
      · simp [ipInRest, hp]
      · simp [ipInRest, hp, ih]

theorem ipInLoop_iff {negs : List SfipNode} :
    l.ipInLoop ip negs pos found = true ↔
      (pos ≠ [] ∧ found = true ∨ ∃ p ∈ pos, l.matched ip p = true) ∧
        ∀ n ∈ negs, l.excludes ip n = false := by
  induction negs generalizing pos found with
  | nil => simp [ipInLoop, ipInRest_iff]
  | cons n negs ih =>
    cases pos with
    | nil => simp [ipInLoop]
    | cons p rest =>
      by_cases hn : l.excludes ip n = true
      · simp [ipInLoop, hn]
      · rw [ipInLoop, if_neg hn]
        cases found with
        | true => simp [ih, hn]
        | false =>
          by_cases hp : l.matched ip p = true
          · simp [hp, hn, ih]
          · simp [hp, hn, ih]

theorem ipIn_iff {var : SfipVar} :
    l.ipIn ip var = true ↔ (var.head = [] ∨ ∃ p ∈ var.head, l.matched ip p = true) ∧
        ∀ n ∈ var.negHead, l.excludes ip n = false := by
  unfold ipIn
  cases hhead : var.head with
  | nil => simp [List.any_eq_false]
  | cons p rest => simp [ipInLoop_iff]
end Lookup

namespace SfipNode

/-- The block is of the family of the address and has its prefix. -/
def Covers (node : SfipNode) (ip : SfIp) : Prop :=
  node.ip.addr.family = ip.family ∧ node.ip.Agrees ip

/-- A block of IPv4 addresses whose address is 0. -/
def ZeroFor (node : SfipNode) (ip : SfIp) : Prop :=
  ip.family = .inet ∧ node.ip.addr.family = .inet ∧ node.ip.addr.getIp4Value = 0

instance (node : SfipNode) (ip : SfIp) : Decidable (node.Covers ip) :=
  inferInstanceAs (Decidable (_ ∧ _))

instance (node : SfipNode) (ip : SfIp) : Decidable (node.ZeroFor ip) :=
  inferInstanceAs (Decidable (_ ∧ _))
end SfipNode

namespace SfipVar
variable (var : SfipVar) (ip : SfIp)

/-- Some block, or `any`, or the lack of blocks lets the address in. -/
def LetsIn : Prop := var.head = [] ∨ ∃ p ∈ var.head, p.any = true ∨ p.Covers ip

/-- A negated block keeps the address out. -/
def KeepsOut : Prop := ∃ n ∈ var.negHead, n.Covers ip

/-- What the variable says about an address. -/
def Contains : Prop := var.LetsIn ip ∧ ¬var.KeepsOut ip

/-- A zero block, or a block that is not set, that is taken for a wildcard. -/
def WildIn : Prop := ∃ p ∈ var.head, p.ZeroFor ip ∨ p.ip.isSet = false

def WildOut : Prop := ∃ n ∈ var.negHead, n.ZeroFor ip

instance : Decidable (var.LetsIn ip) := inferInstanceAs (Decidable (_ ∨ _))

instance : Decidable (var.KeepsOut ip) := inferInstanceAs (Decidable (∃ n ∈ var.negHead, _))

instance : Decidable (var.Contains ip) := inferInstanceAs (Decidable (_ ∧ _))

/-- Only a wildcard lets the address in, or only a wildcard keeps it out. -/
def Misled : Prop :=
  (var.WildIn ip ∧ ¬var.LetsIn ip ∧ ¬var.KeepsOut ip ∧ ¬var.WildOut ip) ∨
    (var.WildOut ip ∧ var.LetsIn ip ∧ ¬var.KeepsOut ip)

variable {var ip} {l : Lookup}

theorem isSet_of_any {node : SfipNode} (h : node.any = true) : node.ip.isSet = false := by
  rw [node.any_ip h]
  decide

section
variable
  (hcont : ∀ c : SfCidr, c.addr.family = l.family →
    (l.cont c ip = true ↔ (ip.family = .inet ∧ c.addr.getIp4Value = 0) ∨ c.Agrees ip))
  (hfamily : l.family = ip.family)
include hcont hfamily

theorem matched_iff (node : SfipNode) :
    l.excludes ip node = true ↔ node.Covers ip ∨ node.ZeroFor ip := by
  unfold Lookup.excludes SfipNode.Covers SfipNode.ZeroFor
  rw [Bool.and_eq_true, decide_eq_true_eq]
  constructor
  · rintro ⟨hnode, hc⟩
    rcases (hcont _ hnode).mp hc with ⟨h4, hzero⟩ | hagrees
    · exact .inr ⟨h4, by rw [hnode, hfamily, h4], hzero⟩
    · exact .inl ⟨hnode.trans hfamily, hagrees⟩
  · rintro (⟨hnode, hagrees⟩ | ⟨h4, hnode, hzero⟩)
    · have hnode : node.ip.addr.family = l.family := hnode.trans hfamily.symm
      exact ⟨hnode, (hcont _ hnode).mpr (.inr hagrees)⟩
    · have hnode : node.ip.addr.family = l.family := by rw [hnode, hfamily, h4]
      exact ⟨hnode, (hcont _ hnode).mpr (.inl ⟨h4, hzero⟩)⟩

/-- The code takes wildcards for blocks that contain the address. -/
theorem ipIn_iff_wild :
    l.ipIn ip var = true ↔
      (var.LetsIn ip ∨ var.WildIn ip) ∧ ¬(var.KeepsOut ip ∨ var.WildOut ip) := by
  have hex := matched_iff hcont hfamily
  have hmatched (p : SfipNode) : l.matched ip p = true ↔
      (p.any = true ∨ p.Covers ip) ∨ (p.ZeroFor ip ∨ p.ip.isSet = false) := by
    have : l.matched ip p = (!p.ip.isSet || l.excludes ip p) := rfl
    rw [this, Bool.or_eq_true, hex, Bool.not_eq_true']
    have hany : p.any = true → p.ip.isSet = false := isSet_of_any
    tauto
  rw [Lookup.ipIn_iff]
  refine and_congr ?_ ?_
  · simp only [hmatched]
    constructor
    · rintro (h | ⟨p, hp, h | h⟩)
      · exact .inl (.inl h)
      · exact .inl (.inr ⟨p, hp, h⟩)
      · exact .inr ⟨p, hp, h⟩
    · rintro ((h | ⟨p, hp, h⟩) | ⟨p, hp, h⟩)
      · exact .inl h
      · exact .inr ⟨p, hp, .inl h⟩
      · exact .inr ⟨p, hp, .inr h⟩
  · simp only [← Bool.not_eq_true, hex]
    constructor
    · rintro h (⟨n, hn, hc⟩ | ⟨n, hn, hz⟩)
      · exact h n hn (.inl hc)
      · exact h n hn (.inr hz)
    · rintro h n hn (hc | hz)
      · exact h (.inl ⟨n, hn, hc⟩)
      · exact h (.inr ⟨n, hn, hz⟩)
end

theorem sfvarIpIn_iff_wild (hip : ip.family ≠ .unspec) :
    sfvarIpIn var ip = true ↔
      (var.LetsIn ip ∨ var.WildIn ip) ∧ ¬(var.KeepsOut ip ∨ var.WildOut ip) := by
  unfold sfvarIpIn
  by_cases h4 : ip.family = .inet
  · rw [if_pos h4]
    refine ipIn_iff_wild (fun c hc => ?_) h4.symm
    rw [SfCidr.fastCont4_iff hc h4]
    simp only [h4, true_and]
  · rw [if_neg h4]
    have h6 : ip.family = .inet6 := by
      cases h : ip.family <;> simp_all
    refine ipIn_iff_wild (fun c _ => ?_) h6.symm
    rw [SfCidr.fastCont6_iff]
    simp only [h4, false_and, false_or]
end SfipVar

/-- For every variable and every address, `sfvar_ip_in` says what the lists say exactly if no
wildcard decides alone. -/
theorem sfvarIpIn_contains_iff (var : SfipVar) (ip : SfIp) (hip : ip.family ≠ .unspec) :
    (sfvarIpIn var ip = true ↔ var.Contains ip) ↔ ¬var.Misled ip := by
  rw [SfipVar.sfvarIpIn_iff_wild hip]
  unfold SfipVar.Contains SfipVar.Misled
  by_cases hin : var.LetsIn ip <;> by_cases hout : var.KeepsOut ip <;>
    by_cases hwild : var.WildOut ip <;> simp [hin, hout, hwild]

/-- The block `10.0.0.0/8`. -/
def tenBlock : SfCidr where
  addr := .set4 0x0000000A
  bits := 104
  isIp := nofun
  bits_le := by decide
  le_bits _ := by decide
  masked := by decide

/-- The block `10.128.0.0/9`. -/
def upperTenBlock : SfCidr where
  addr := .set4 0x0000800A
  bits := 105
  isIp := nofun
  bits_le := by decide
  le_bits _ := by decide
  masked := by decide

/-- The list `[10.0.0.0/8, !10.128.0.0/9]`. -/
def lowerTen : SfipVar :=
  sfvarAddNode (sfvarAddNode .alloc ⟨tenBlock, false, false, false, nofun⟩ false)
    ⟨upperTenBlock, false, true, true, nofun⟩ true

/-- An address in the block, and one that is kept out. -/
theorem sfvarIpIn_contains_ten :
    (sfvarIpIn lowerTen (.set4 0x0100020A) = true ↔ lowerTen.Contains (.set4 0x0100020A)) ∧
      (sfvarIpIn lowerTen (.set4 0x0100810A) = true ↔ lowerTen.Contains (.set4 0x0100810A)) := by
  refine ⟨(sfvarIpIn_contains_iff _ (.set4 0x0100020A) (by decide)).mpr ?_,
    (sfvarIpIn_contains_iff _ (.set4 0x0100810A) (by decide)).mpr ?_⟩
  all_goals
    unfold SfipVar.Misled SfipVar.WildIn SfipVar.WildOut
    decide

/-- The block `0.0.0.0/8`. -/
def zeroBlock : SfCidr where
  addr := .set4 0
  bits := 104
  isIp := zeroAddr_isIp
  bits_le := by decide
  le_bits _ := by decide
  masked := by decide

/-- The address 10.0.0.1 is in the block `0.0.0.0/8`. -/
theorem zero_block_contains_ten :
    let var := sfvarAddNode .alloc ⟨zeroBlock, false, false, false, nofun⟩ false
    sfvarIpIn var (.set4 0x0100000A) = true ∧ ¬var.Contains (.set4 0x0100000A) := by
  decide
end Snort.Sfip
