import Snort.Sfip.SfIp

/-!
# Blocks of addresses

The blocks of `sf_cidr.h`: an address and the number of its leading bits that
count. All bits behind them are zero. The bits of an IPv4 block are counted from
the first word, so they are at least 96.
-/

namespace Snort.Sfip
open Nat

/-- The bit `k` of an address, counted from the left. -/
def SfIp.bit (ip : SfIp) (k : ℕ) : Bool := (ntohl (ip.word (k / 32))).getMsbD (k % 32)

@[ext]
structure SfCidr where
  addr : SfIp
  bits : ℕ
  isIp : addr.family ≠ .unspec
  bits_le : bits ≤ 128
  le_bits : addr.family = .inet → 96 ≤ bits
  masked : ∀ k < 128, bits ≤ k → addr.bit k = false

instance : DecidableEq SfCidr := fun c d =>
  decidable_of_iff (c.addr = d.addr ∧ c.bits = d.bits) SfCidr.ext_iff.symm

namespace SfCidr
variable (c : SfCidr)

def isSet : Bool :=
  c.addr.isSet || ((c.addr.family = .inet || c.addr.family = .inet6) && c.bits ≠ 128)

/-- `SfCidr::fast_cont4` -/
def fastCont4 (ip : SfIp) : Bool :=
  let shift := 128 - c.bits
  let needle := ntohl ip.getIp4Value
  let haystack := ntohl c.addr.getIp4Value
  if haystack = 0 then true
  else haystack = (needle >>> shift) <<< shift

/-- `SfCidr::fast_cont6` -/
def fastCont6 (ip : SfIp) : Bool :=
  let words := c.bits / 32
  if (List.range words).any fun i => c.addr.word i ≠ ip.word i then false
  else
    let shift := 32 - c.bits % 32
    if shift = 32 then true
    else
      let needle := ntohl (ip.word words)
      ntohl (c.addr.word words) = (needle >>> shift) <<< shift

/-- `SfCidr::compare` -/
def compare (cidr2 : SfCidr) : SfIpRet :=
  if c.addr.compare cidr2.addr = .equal then
    if c.bits < cidr2.bits then .lesser
    else if cidr2.bits < c.bits then .greater
    else .equal
  else c.addr.compare cidr2.addr

/-! ## Containment -/

/-- The address has the prefix of the block. -/
def Agrees (ip : SfIp) : Prop := ∀ k < c.bits, c.addr.bit k = ip.bit k

instance (ip : SfIp) : Decidable (c.Agrees ip) := inferInstanceAs (Decidable (∀ k < c.bits, _))
end SfCidr

theorem eq_shifted_iff {s : ℕ} (hs : s ≤ 32) {h n : BitVec 32}
    (hmask : ∀ k < 32, 32 - s ≤ k → h.getMsbD k = false) :
    h = (n >>> s) <<< s ↔ ∀ k < 32 - s, h.getMsbD k = n.getMsbD k := by
  have hbit (k : ℕ) (hk : k < 32) : ((n >>> s) <<< s).getMsbD k =
      if k < 32 - s then n.getMsbD k else false := by
    rw [BitVec.getMsbD_shiftLeft, BitVec.getMsbD_ushiftRight]
    by_cases h : k < 32 - s
    · rw [if_pos h, decide_eq_true (by omega), decide_eq_false (by omega), Nat.add_sub_cancel]
      rfl
    · rw [if_neg h, decide_eq_false (by omega), Bool.false_and]
  constructor
  · rintro rfl k hk
    rw [hbit k (by omega), if_pos hk]
  · intro hagree
    apply BitVec.eq_of_getMsbD_eq
    intro k hk
    rw [hbit k hk]
    split
    · exact hagree k ‹_›
    · exact hmask k hk (by omega)

theorem eq_iff_getMsbD {x y : BitVec 32} : x = y ↔ ∀ k < 32, x.getMsbD k = y.getMsbD k :=
  ⟨fun h _ _ => h ▸ rfl, fun h => BitVec.eq_of_getMsbD_eq fun k hk => h k hk⟩

theorem SfIp.bit_word (ip : SfIp) (i : ℕ) {j : ℕ} (hj : j < 32) :
    ip.bit (32 * i + j) = (ntohl (ip.word i)).getMsbD j := by
  unfold SfIp.bit
  rw [mul_add_div (by decide), div_eq_of_lt hj, add_zero, mul_add_mod, mod_eq_of_lt hj]

theorem SfIp.word_eq_iff {a b : SfIp} {i : ℕ} :
    a.word i = b.word i ↔ ∀ j < 32, a.bit (32 * i + j) = b.bit (32 * i + j) := by
  rw [← ntohl_inj, eq_iff_getMsbD]
  refine forall₂_congr fun j hj => ?_
  rw [a.bit_word i hj, b.bit_word i hj]

namespace SfCidr
variable {c : SfCidr} {ip : SfIp} {i : ℕ}

theorem agrees_iff_words :
    c.Agrees ip ↔ (∀ i < c.bits / 32, c.addr.word i = ip.word i) ∧
      ∀ j < c.bits % 32, c.addr.bit (32 * (c.bits / 32) + j) = ip.bit (32 * (c.bits / 32) + j) := by
  constructor
  · intro h
    refine ⟨fun i hi => SfIp.word_eq_iff.mpr fun j hj => h _ ?_, fun j hj => h _ (by omega)⟩
    have : 32 * (i + 1) ≤ 32 * (c.bits / 32) := mul_le_mul_left 32 hi
    omega
  · rintro ⟨hwords, hlast⟩ k hk
    by_cases hlt : k / 32 < c.bits / 32
    · have := SfIp.word_eq_iff.mp (hwords _ hlt) (k % 32) (mod_lt _ (by decide))
      rwa [div_add_mod] at this
    · have heq : k / 32 = c.bits / 32 := le_antisymm (Nat.div_le_div_right hk.le) (not_lt.mp hlt)
      have := hlast (k % 32) (by omega)
      rwa [← heq, div_add_mod] at this

theorem masked_word (c : SfCidr) (hi : i < 4) {j : ℕ} (hj : j < 32)
    (hle : c.bits ≤ 32 * i + j) : (ntohl (c.addr.word i)).getMsbD j = false := by
  rw [← SfIp.bit_word _ _ hj]
  exact c.masked _ (by omega) hle

theorem last_word_iff (c : SfCidr) (ip : SfIp) (hi : i < 4) (hlow : 32 * i ≤ c.bits)
    (hhigh : c.bits ≤ 32 * i + 32) :
    ntohl (c.addr.word i) =
        (ntohl (ip.word i) >>> (32 * i + 32 - c.bits)) <<< (32 * i + 32 - c.bits) ↔
      ∀ j < c.bits - 32 * i, c.addr.bit (32 * i + j) = ip.bit (32 * i + j) := by
  rw [eq_shifted_iff (by omega) fun j hj hle => c.masked_word hi hj (by omega)]
  have hshift : 32 - (32 * i + 32 - c.bits) = c.bits - 32 * i := by omega
  rw [hshift]
  refine forall₂_congr fun j hj => ?_
  rw [SfIp.bit_word _ _ (by omega), SfIp.bit_word _ _ (by omega)]

theorem fastCont6_iff : c.fastCont6 ip = true ↔ c.Agrees ip := by
  have hbits := c.bits_le
  rw [agrees_iff_words]
  unfold fastCont6
  simp only [List.any_eq_true, List.mem_range, decide_eq_true_eq]
  by_cases hwords : ∃ i < c.bits / 32, c.addr.word i ≠ ip.word i
  · rw [if_pos hwords]
    obtain ⟨i, hi, hne⟩ := hwords
    exact iff_of_false Bool.false_ne_true fun h => hne (h.1 i hi)
  · rw [if_neg hwords]
    simp only [not_exists, not_and, not_not] at hwords
    by_cases hshift : 32 - c.bits % 32 = 32
    · rw [if_pos hshift]
      exact iff_of_true rfl ⟨hwords, fun j hj => by omega⟩
    · have hlast := c.last_word_iff ip (i := c.bits / 32) (by omega) (by omega) (by omega)
      have hs : 32 * (c.bits / 32) + 32 - c.bits = 32 - c.bits % 32 := by omega
      have hr : c.bits - 32 * (c.bits / 32) = c.bits % 32 := by omega
      rw [hs, hr] at hlast
      rw [if_neg hshift, decide_eq_true_eq, hlast]
      exact (and_iff_right hwords).symm

theorem agrees_iff_of_inet (hc : c.addr.family = .inet) (hip : ip.family = .inet) :
    c.Agrees ip ↔ ∀ j < c.bits - 96, c.addr.bit (96 + j) = ip.bit (96 + j) := by
  have hlow := c.le_bits hc
  constructor
  · exact fun h j hj => h _ (by omega)
  · intro h k hk
    by_cases hlt : k < 96
    · obtain ⟨hc0, hc1, hc2⟩ := c.addr.mapped hc
      obtain ⟨hi0, hi1, hi2⟩ := ip.mapped hip
      have hword : c.addr.word (k / 32) = ip.word (k / 32) := by
        have : k / 32 = 0 ∨ k / 32 = 1 ∨ k / 32 = 2 := by omega
        rcases this with h | h | h <;> rw [h]
        · exact hc0.trans hi0.symm
        · exact hc1.trans hi1.symm
        · exact hc2.trans hi2.symm
      unfold SfIp.bit
      rw [hword]
    · have := h (k - 96) (by omega)
      rwa [Nat.add_sub_cancel' (by omega)] at this

theorem fastCont4_iff (hc : c.addr.family = .inet) (hip : ip.family = .inet) :
    c.fastCont4 ip = true ↔ c.addr.getIp4Value = 0 ∨ c.Agrees ip := by
  have hlow := c.le_bits hc
  have hhigh := c.bits_le
  have hlast := c.last_word_iff ip (i := 3) (by omega) (by omega) (by omega)
  rw [← ntohl_eq_zero_iff, agrees_iff_of_inet hc hip]
  unfold fastCont4
  by_cases hzero : ntohl c.addr.getIp4Value = 0
  · simp only [if_pos hzero]
    exact iff_of_true trivial (.inl hzero)
  · simp only [if_neg hzero, decide_eq_true_eq]
    rw [or_iff_right hzero]
    exact hlast
end SfCidr
end Snort.Sfip
