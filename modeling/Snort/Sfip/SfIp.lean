import Snort.Structures.Codec

/-!
# Addresses

The addresses of `sf_ip.h`: four words in network byte order and a family. An
IPv4 address is kept in the last word, behind the prefix of a mapped address. The
words are those that a little-endian host reads.
-/

namespace Snort.Sfip
variable {x : BitVec 32}

inductive Family where
  | unspec
  | inet
  | inet6
deriving DecidableEq, Repr

inductive SfIpRet where
  | success
  | failure
  | lesser
  | greater
  | equal
  | argErr
  | cidrErr
  | inetParseErr
  | invalidMask
  | allocErr
  | contains
  | notContains
  | duplicate
  | lookupFailure
  | unmatchedBracket
  | notAny
  | conflict
  | lookupUnavailable
deriving DecidableEq, Repr

/-! ## Byte order -/

def ntohl (x : BitVec 32) : BitVec 32 :=
  x.extractLsb' 0 8 ++ x.extractLsb' 8 8 ++ x.extractLsb' 16 8 ++ x.extractLsb' 24 8

def htonl (x : BitVec 32) : BitVec 32 := ntohl x

/-- The bytes are reversed, the bits of a byte stay in their order. -/
theorem getLsbD_ntohl (x : BitVec 32) {i : ℕ} (hi : i < 32) :
    (ntohl x).getLsbD i = x.getLsbD (24 - i / 8 * 8 + i % 8) := by
  unfold ntohl
  simp only [BitVec.getLsbD_append, BitVec.getLsbD_extractLsb']
  split_ifs with h₁ h₂ h₃
  all_goals
    rw [decide_eq_true (by omega), Bool.true_and]
    congr 1
    omega

@[simp] theorem ntohl_ntohl (x : BitVec 32) : ntohl (ntohl x) = x := by
  apply BitVec.eq_of_getLsbD_eq
  intro i hi
  rw [getLsbD_ntohl _ hi, getLsbD_ntohl _ (by omega)]
  congr 1
  omega

theorem ntohl_inj {y : BitVec 32} : ntohl x = ntohl y ↔ x = y := by
  constructor
  · intro h
    rw [← ntohl_ntohl x, h, ntohl_ntohl]
  · rintro rfl
    rfl

@[simp] theorem ntohl_zero : ntohl 0 = 0 := by decide

theorem ntohl_eq_zero_iff : ntohl x = 0 ↔ x = 0 := by
  rw [← ntohl_zero, ntohl_inj, ntohl_zero]

/-! ## Addresses -/

/-- The word in front of an IPv4 address, `ip16[4] = 0` and `ip16[5] = 0xffff`. -/
def mappedWord : BitVec 32 := 0xffff0000

structure SfIp where
  ip32 : Fin 4 → BitVec 32
  family : Family
  mapped : family = .inet → ip32 0 = 0 ∧ ip32 1 = 0 ∧ ip32 2 = mappedWord
deriving DecidableEq

namespace SfIp

/-- `SfIp::set` from the raw bytes of an IPv4 address -/
def set4 (src : BitVec 32) : SfIp := ⟨![0, 0, mappedWord, src], .inet, fun _ => ⟨rfl, rfl, rfl⟩⟩

/-- `SfIp::set` from the raw bytes of an IPv6 address -/
def set6 (src : Fin 4 → BitVec 32) : SfIp := ⟨src, .inet6, nofun⟩

variable (ip : SfIp)

def getIp4Value : BitVec 32 := ip.ip32 3

/-- `get_ip6_ptr()[i]` -/
def word (i : ℕ) : BitVec 32 := if h : i < 4 then ip.ip32 ⟨i, h⟩ else 0

def isIp4 : Bool := ip.family = .inet

def isIp6 : Bool := ip.family = .inet6

/-- `ip16[4]` -/
def half4 : BitVec 16 := (ip.ip32 2).extractLsb' 0 16

/-- `ip16[5]` -/
def half5 : BitVec 16 := (ip.ip32 2).extractLsb' 16 16

def isSet : Bool :=
  ip.family = .inet && ip.ip32 3 ≠ 0 ||
    ip.family = .inet6 && (ip.ip32 0 ≠ 0 || ip.ip32 1 ≠ 0 || ip.ip32 3 ≠ 0 || ip.half4 ≠ 0 ||
      (ip.half5 ≠ 0 && ip.half5 ≠ 0xffff))

/-! ## Comparisons -/

/-- `_ip4_cmp` -/
def ip4Cmp (ip1 ip2 : BitVec 32) : SfIpRet :=
  if htonl ip1 < htonl ip2 then .lesser
  else if htonl ip2 < htonl ip1 then .greater
  else .equal

/-- `SfIp::_ip6_cmp` -/
def ip6Cmp (ip2 : SfIp) : SfIpRet :=
  if ip4Cmp (ip.ip32 0) (ip2.ip32 0) ≠ .equal then ip4Cmp (ip.ip32 0) (ip2.ip32 0)
  else if ip4Cmp (ip.ip32 1) (ip2.ip32 1) ≠ .equal then ip4Cmp (ip.ip32 1) (ip2.ip32 1)
  else if ip4Cmp (ip.ip32 2) (ip2.ip32 2) ≠ .equal then ip4Cmp (ip.ip32 2) (ip2.ip32 2)
  else ip4Cmp (ip.ip32 3) (ip2.ip32 3)

/-- `SfIp::compare`, where unset addresses match anything. -/
def compare (ip2 : SfIp) : SfIpRet :=
  if !ip.isSet || !ip2.isSet then .equal
  else if ip.isIp4 && ip2.isIp4 then ip4Cmp ip.getIp4Value ip2.getIp4Value
  else ip.ip6Cmp ip2

def fastLt6 (ip2 : SfIp) : Bool :=
  if ip.ip32 0 < ip2.ip32 0 then true
  else if ip2.ip32 0 < ip.ip32 0 then false
  else if ip.ip32 1 < ip2.ip32 1 then true
  else if ip2.ip32 1 < ip.ip32 1 then false
  else if ip.ip32 2 < ip2.ip32 2 then true
  else if ip2.ip32 2 < ip.ip32 2 then false
  else if ip.ip32 3 < ip2.ip32 3 then true
  else false

def fastEq6 (ip2 : SfIp) : Bool :=
  if ip.ip32 0 ≠ ip2.ip32 0 then false
  else if ip.ip32 1 ≠ ip2.ip32 1 then false
  else if ip.ip32 2 ≠ ip2.ip32 2 then false
  else if ip.ip32 3 ≠ ip2.ip32 3 then false
  else true

/-! ## Masks -/

/-- `mask >>= bits; mask <<= bits` on a word of ones -/
def netmask (bits : ℕ) : BitVec 32 := (BitVec.allOnes 32 >>> bits) <<< bits

/-- `SfIp::cidr_mask`. The index of the word that is masked is `ceil(val / 32.0) - 1`. -/
def cidrMask (ip32 : Fin 4 → BitVec 32) (val : ℤ) : Option (Fin 4 → BitVec 32) :=
  if val < 0 ∨ 128 < val then none
  else if val = 128 then some ip32
  else
    let index := (val + 31) / 32 - 1
    let bits := (32 - (val - index * 32)).toNat
    some fun i =>
      if (i : ℤ) < index then ip32 i
      else if i = index then if bits ≠ 0 then ip32 i &&& htonl (netmask bits) else ip32 i
      else 0
end SfIp
end Snort.Sfip
