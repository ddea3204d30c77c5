import Snort.Sfip.SfCidr

/-!
# Blocks of addresses as text

`SfIp::set` of `sf_ip.cc`, which reads an address with an optional length or
netmask. The library function `inet_pton` is a parameter; of its texts only the
characters are known.
-/

namespace Snort.Sfip
open BitVec Bool List SfIp SfCidr

/-- A text, without its terminating zero. -/
abbrev Str := List Char

variable (c : Char)

def isspace : Bool := c = ' ' || ('\t' ≤ c && c ≤ '\r')

def isdigit : Bool := '0' ≤ c && c ≤ '9'

def isxdigit : Bool := isdigit c || ('a' ≤ c && c ≤ 'f') || ('A' ≤ c && c ≤ 'F')

/-- The first character is there and satisfies the test. -/
def headIs (test : Char → Bool) (str : Str) : Bool := str.head?.any test

variable (str : Str)

/-- `strchr`: the texts before and behind the first place of the character. -/
def strchr (c : Char) : Option (Str × Str) :=
  match str.dropWhile (· ≠ c) with
  | [] => none
  | _ :: behind => some (str.takeWhile (· ≠ c), behind)

/-- `inet_pton` for the two families, with the results in network order. -/
structure InetPton where
  v4 : Str → Option (BitVec 32)
  v6 : Str → Option (Fin 4 → BitVec 32)
  /-- dotted decimal -/
  v4_chars : ∀ {str a}, v4 str = some a → (∀ c ∈ str, isdigit c ∨ c = '.') ∧ '.' ∈ str
  /-- hexadecimal numbers between colons, where a dotted decimal may follow -/
  v6_chars : ∀ {str a}, v6 str = some a →
    (∀ c ∈ str, isxdigit c ∨ c = ':' ∨ c = '.') ∧ 2 ≤ str.count ':'
  v4_zero : v4 "0.0.0.0".toList = some 0

/-- `sfip_str_to_fam` -/
def sfipStrToFam : Family :=
  let dotted := if (strchr str '.').isSome then Family.inet else .unspec
  match strchr str ':' with
  | some (_, s) => if (strchr s ':').isSome then .inet6 else dotted
  | none => dotted

/-! ## Numbers and masks -/

def decimal (digits : Str) : ℕ := digits.foldl (fun n c => 10 * n + (c.toNat - '0'.toNat)) 0

/-- `atoi`, that is `strtol` and a cast to `int`. -/
def atoi : ℤ :=
  let value (str : Str) : ℤ := decimal (str.takeWhile isdigit)
  let n :=
    match str.dropWhile isspace with
    | '-' :: str => -value str
    | '+' :: str => value str
    | str => value str
  (max (-2 ^ 63) (min (2 ^ 63 - 1) n)).bmod (2 ^ 32)

/-- `_count_bits` -/
def countBits (val : BitVec 32) : ℕ :=
  if h : val = 0 then 0 else countBits (val &&& (val - 1)) + 1
termination_by val.toNat
decreasing_by
  have hpos : 0 < val.toNat := Nat.pos_of_ne_zero fun h0 => h (eq_of_toNat_eq h0)
  have hle : (val &&& (val - 1)).toNat ≤ (val - 1).toNat := by
    exact Nat.and_le_right
  have hsub : (val - 1).toNat = val.toNat - 1 := by
    apply toNat_sub_of_le
    exact le_def.mpr hpos
  omega

/-- The check of `_netmask_str_to_bit_count`: only the most significant bits are set. -/
def leadingBits : ℕ → List (BitVec 8) → Bool
  | _, [] => true
  | nBits, byte :: bytes =>
    if 8 ≤ nBits then byte = 0xff && leadingBits (nBits - 8) bytes
    else if nBits = 0 then byte = 0 && leadingBits 0 bytes
    else byte = (0xff00 : BitVec 16).extractLsb' nBits 8 && leadingBits 0 bytes

/-- The bytes of a word in memory. -/
def wordBytes (word : BitVec 32) : List (BitVec 8) :=
  [word.extractLsb' 0 8, word.extractLsb' 8 8, word.extractLsb' 16 8, word.extractLsb' 24 8]

section Pton
variable (p : InetPton)

/-- `_netmask_str_to_bit_count` -/
def netmaskStrToBitCount (mask : Str) (family : Family) : ℤ :=
  let buf : Option (List (BitVec 32)) :=
    match family with
    | .inet => (p.v4 mask).map fun word => [word]
    | .inet6 => (p.v6 mask).map List.ofFn
    | .unspec => none
  match buf with
  | none => -1
  | some words =>
    let bits := (words.map countBits).sum
    if leadingBits bits (words.flatMap wordBytes) then bits else -1

/-! ## Addresses and blocks -/

/-- An octet has a zero in front of another digit. -/
def leadingZero : Bool → Str → Bool
  | _, [] => false
  | newOctet, chr :: rest =>
    (newOctet && chr = '0' && headIs isdigit rest) || leadingZero (chr = '.') rest

variable (family : Family)

/-- `SfIp::pton` -/
def SfIp.pton (ip : Str) : Option SfIp :=
  match family with
  | .inet => if leadingZero true ip then none else (p.v4 ip).map set4
  | .inet6 => (p.v6 ip).map set6
  | .unspec => none

/-- The length of a single address. -/
def fullBits : ℤ := if family = .inet then 32 else 128

/-- The part of `SfIp::set` that looks for a length or a netmask: the text of the address, and
the number of bits. -/
def splitMask (ip : Str) : Except SfIpRet (Str × ℤ) :=
  match strchr ip '/' with
  | some (ip, mask) =>
    let ip := ip.rdropWhile isspace
    let mask := mask.dropWhile isspace
    if (family = .inet6 && !headIs isxdigit mask) || (family = .inet && !headIs isdigit mask) then
      .error .cidrErr
    else if (strchr mask '.').isSome || (strchr mask ':').isSome then
      .ok (ip, netmaskStrToBitCount p mask (sfipStrToFam mask))
    else .ok (ip, atoi mask)
  | none =>
    match (if family = .inet then strchr ip ':' else none) <|> strchr ip ' ' with
    | some (ip, mask) =>
      let ip := ip.rdropWhile isspace
      let mask := mask.dropWhile isspace
      if (family = .inet && headIs isdigit mask) ||
          (family = .inet6 && (headIs isxdigit mask || headIs (· = ':') mask)) then
        .ok (ip, netmaskStrToBitCount p mask (sfipStrToFam mask))
      else .ok (ip, fullBits family)
    | none => .ok (ip, fullBits family)
end Pton

theorem ntohl_and (x y : BitVec 32) : ntohl (x &&& y) = ntohl x &&& ntohl y := by
  apply eq_of_getLsbD_eq
  intro i hi
  rw [getLsbD_and, getLsbD_ntohl _ hi, getLsbD_ntohl _ hi, getLsbD_ntohl _ hi, getLsbD_and]

theorem getMsbD_netmask {bits j : ℕ} (hj : j < 32) :
    (netmask bits).getMsbD j = decide (j < 32 - bits) := by
  unfold netmask
  rw [getMsbD_shiftLeft, getMsbD_ushiftRight, getMsbD_allOnes]
  by_cases h : j < 32 - bits
  · rw [decide_eq_true h, decide_eq_true (by omega), decide_eq_false (by omega),
      decide_eq_true (by omega)]
    rfl
  · rw [decide_eq_false h, decide_eq_false (by omega), Bool.false_and]

section Mask
variable {ip32 w : Fin 4 → BitVec 32} {val : ℤ}

section
variable (h : cidrMask ip32 val = some w)
include h

theorem cidrMask_range : 0 ≤ val ∧ val ≤ 128 := by
  unfold cidrMask at h
  by_contra hval
  rw [if_pos (by omega)] at h
  exact absurd h nofun

/-- The mask keeps the leading bits, and clears the others. -/
theorem cidrMask_bit (i : Fin 4) {j : ℕ} (hj : j < 32) :
    (ntohl (w i)).getMsbD j =
      if ((32 * i.val + j : ℕ) : ℤ) < val then (ntohl (ip32 i)).getMsbD j else false := by
  obtain ⟨hlo, hhi⟩ := cidrMask_range h
  have hi := i.isLt
  unfold cidrMask at h
  rw [if_neg (by omega)] at h
  split at h
  case isTrue hfull =>
    obtain rfl := Option.some.inj h
    rw [if_pos (by omega)]
  case isFalse hfull =>
    obtain rfl := Option.some.inj h
    dsimp only
    split_ifs with hbefore hat hbits hval hval hval hval
    all_goals try omega
    · rfl
    · rw [ntohl_and, getMsbD_and, htonl, ntohl_ntohl, getMsbD_netmask hj,
        decide_eq_true (by omega), Bool.and_true]
    · rw [ntohl_and, getMsbD_and, htonl, ntohl_ntohl, getMsbD_netmask hj,
        decide_eq_false (by omega), Bool.and_false]
    · rfl
    · exact getMsbD_zero

theorem cidrMask_word (i : Fin 4) (hi : 32 * (i.val : ℤ) + 32 ≤ val) : w i = ip32 i := by
  rw [← ntohl_inj, eq_iff_getMsbD]
  intro j hj
  rw [cidrMask_bit h i hj, if_pos (by omega)]
end
end Mask

section OfBits
variable {addr : SfIp} {bits : ℤ} {ip32 : Fin 4 → BitVec 32}
theorem cidrMask_mapped (h : cidrMask addr.ip32 bits = some ip32)
    (hbits : addr.family = .inet → 96 ≤ bits) (hinet : addr.family = .inet) :
    ip32 0 = 0 ∧ ip32 1 = 0 ∧ ip32 2 = mappedWord := by
  have hbits := hbits hinet
  obtain ⟨h0, h1, h2⟩ := addr.mapped hinet
  rw [cidrMask_word h 0 (by simp; omega), cidrMask_word h 1 (by simp; omega),
    cidrMask_word h 2 (by simp; omega)]
  exact ⟨h0, h1, h2⟩

theorem cidrMask_bits_le (h : cidrMask addr.ip32 bits = some ip32) : bits.toNat ≤ 128 := by
  have := cidrMask_range h
  omega

theorem le_toNat_of_inet (hbits : addr.family = .inet → 96 ≤ bits) (hinet : addr.family = .inet) :
    96 ≤ bits.toNat := by
  have := hbits hinet
  omega

theorem cidrMask_masked (h : cidrMask addr.ip32 bits = some ip32) {family : Family}
    {hmapped : family = .inet → ip32 0 = 0 ∧ ip32 1 = 0 ∧ ip32 2 = mappedWord} (k : ℕ)
    (hk : k < 128) (hle : bits.toNat ≤ k) : (mk ip32 family hmapped).bit k = false := by
  have := cidrMask_range h
  unfold bit word
  rw [dif_pos (by omega), cidrMask_bit h _ (Nat.mod_lt k (by decide)), if_neg]
  dsimp only
  omega
end OfBits

/-- The end of `SfIp::set`: the mask is applied. The bits of an IPv4 address are those of the
text and 96. -/
def SfCidr.ofBits (addr : SfIp) (bits : ℤ) : Option SfCidr :=
  if hfamily : addr.family ≠ .unspec ∧ (addr.family = .inet → 96 ≤ bits) then
    match h : cidrMask addr.ip32 bits with
    | none => none
    | some ip32 => some {
        addr := ⟨ip32, addr.family, cidrMask_mapped h hfamily.2⟩
        bits := bits.toNat
        isIp := hfamily.1
        bits_le := cidrMask_bits_le h
        le_bits := le_toNat_of_inet hfamily.2
        masked := cidrMask_masked h }
  else none

/-- Every length gives a block, and its prefix is that of the address. -/
theorem SfCidr.exists_ofBits {addr : SfIp} {n : ℕ} (hfamily : addr.family ≠ .unspec)
    (hinet : addr.family = .inet → 96 ≤ n) (hn : n ≤ 128) :
    ∃ c, ofBits addr n = some c ∧ c.addr.family = addr.family ∧ c.bits = n ∧ c.Agrees addr := by
  have hsome : (cidrMask addr.ip32 n).isSome := by
    unfold cidrMask
    rw [if_neg (by omega)]
    split <;> rfl
  unfold ofBits
  rw [dif_pos ⟨hfamily, fun h => by exact_mod_cast hinet h⟩]
  split
  case h_1 hnone =>
    rw [hnone] at hsome
    exact absurd hsome (by decide)
  case h_2 ip32 hmask =>
    refine ⟨_, rfl, rfl, Int.toNat_natCast n, fun k hk => ?_⟩
    have hk : k < (n : ℤ).toNat := hk
    unfold bit word
    rw [dif_pos (by omega), dif_pos (by omega), cidrMask_bit hmask _ (Nat.mod_lt k (by decide)),
      if_pos]
    dsimp only
    omega

theorem SfCidr.ofBits_self (c : SfCidr) : ofBits c.addr c.bits = some c := by
  obtain ⟨d, hd, hfamily, hbits, hagrees⟩ := exists_ofBits c.isIp c.le_bits c.bits_le
  have hbit (k : ℕ) (hk : k < 128) : d.addr.bit k = c.addr.bit k := by
    by_cases hlt : k < d.bits
    · exact hagrees k hlt
    · rw [d.masked k hk (not_lt.mp hlt), c.masked k hk (hbits ▸ not_lt.mp hlt)]
  have hwords : d.addr.ip32 = c.addr.ip32 := by
    funext i
    have hi := i.isLt
    have hword : d.addr.word i = c.addr.word i :=
      word_eq_iff.mpr fun j hj => hbit _ (by omega)
    simpa [word, hi] using hword
  have haddr : d.addr = c.addr := by
    obtain ⟨⟨_, _, _⟩, _, _, _, _, _⟩ := d
    simp_all
  obtain ⟨_, _, _, _, _, _⟩ := d
  simp_all

/-- `SfIp::set` from a text, with the length of the block. -/
def SfCidr.set (p : InetPton) (src : Str) : Except SfIpRet SfCidr :=
  let family := sfipStrToFam src
  match splitMask p family (src.dropWhile fun c => isspace c || c = '[') with
  | .error ret => .error ret
  | .ok (ip, bits) =>
    match pton p family ip with
    | none => .error .inetParseErr
    | some addr =>
      match ofBits addr (bits + if family = .inet && 0 ≤ bits then 96 else 0) with
      | none => .error .invalidMask
      | some cidr => .ok cidr

/-! ## Literals -/

/-- The texts of a length: nothing for a single address, or a number behind a slash. -/
inductive LengthText (full : ℕ) : Str → ℕ → Prop
  | none : LengthText full [] full
  | slash {digits : Str} (hne : digits ≠ []) (hdigits : ∀ c ∈ digits, isdigit c)
      (hle : decimal digits ≤ full) : LengthText full ('/' :: digits) (decimal digits)

/-- The literals of a block. -/
inductive CidrLiteral (p : InetPton) : Str → SfCidr → Prop
  | v4 {ip len : Str} {a : BitVec 32} {n : ℕ} {c : SfCidr} (hip : p.v4 ip = some a)
      (hzero : leadingZero true ip = false) (hlen : LengthText 32 len n)
      (hc : ofBits (.set4 a) (n + 96) = some c) : CidrLiteral p (ip ++ len) c
  | v6 {ip len : Str} {a : Fin 4 → BitVec 32} {n : ℕ} {c : SfCidr} (hip : p.v6 ip = some a)
      (hlen : LengthText 128 len n) (hc : ofBits (.set6 a) n = some c) :
      CidrLiteral p (ip ++ len) c

/-- The characters of literals. -/
def literalChar : Bool := isxdigit c || c = ':' || c = '.' || c = '/'

section Strchr
variable {str before behind : Str} {c : Char}

theorem strchr_of_notMem (h : c ∉ str) : strchr str c = none := by
  have hdrop : str.dropWhile (· ≠ c) = [] := by
    rw [dropWhile_eq_nil_iff]
    intro x hx
    exact decide_eq_true fun heq => h (heq ▸ hx)
  unfold strchr
  rw [hdrop]

theorem strchr_append (h : c ∉ before) :
    strchr (before ++ c :: behind) c = some (before, behind) := by
  have hbefore : ∀ x ∈ before, decide (x ≠ c) = true := fun x hx =>
    decide_eq_true fun heq => h (heq ▸ hx)
  unfold strchr
  rw [dropWhile_append_of_pos hbefore, takeWhile_append_of_pos hbefore,
    dropWhile_cons_of_neg (by simp), takeWhile_cons_of_neg (by simp), append_nil]

theorem strchr_isSome_iff : (strchr str c).isSome ↔ c ∈ str := by
  by_cases h : c ∈ str
  · obtain ⟨before, behind, rfl, hbefore⟩ := eq_append_cons_of_mem h
    rw [strchr_append hbefore]
    simp
  · rw [strchr_of_notMem h]
    simp [h]
end Strchr

section Literals
variable {p : InetPton} {text ip len : Str} {full n : ℕ} {c : SfCidr} {x : Char}

theorem isdigit_literalChar (h : isdigit x) : literalChar x := by
  unfold literalChar isxdigit
  simp [h]

/-- A literal has no character that ends or begins something else. -/
theorem literalChar_ne {y : Char} (hx : literalChar x) (hy : literalChar y = false) : x ≠ y := by
  rintro rfl
  exact absurd hx (by rw [hy]; decide)

theorem dot_le_literalChar (hx : literalChar x) : '.' ≤ x := by
  unfold literalChar isxdigit isdigit at hx
  simp only [or_eq_true, and_eq_true, decide_eq_true_eq] at hx
  rcases hx with ((((hx | hx) | hx) | rfl) | rfl) | rfl
  · exact Char.le_trans (by decide) hx.1
  · exact Char.le_trans (by decide) hx.1
  · exact Char.le_trans (by decide) hx.1
  all_goals decide

theorem literalChar_not_space (hx : literalChar x) : isspace x = false := by
  have hdot := dot_le_literalChar hx
  unfold isspace
  rw [decide_eq_false (literalChar_ne hx (by decide)), Bool.false_or, Bool.and_eq_false_iff]
  right
  exact decide_eq_false fun hle => absurd (Char.le_trans hdot hle) (by decide)

theorem dropWhile_eq_self {test : Char → Bool} (h : ∀ x ∈ text, test x = false) :
    text.dropWhile test = text := by
  cases text with
  | nil => rfl
  | cons x rest => exact dropWhile_cons_of_neg (by rw [h x mem_cons_self]; decide)

theorem LengthText.chars (h : LengthText full len n) : ∀ x ∈ len, isdigit x ∨ x = '/' := by
  cases h with
  | none => simp
  | slash _ hdigits _ =>
    intro x hx
    rcases mem_cons.mp hx with rfl | hx
    · exact .inr rfl
    · exact .inl (hdigits x hx)

theorem atoi_digits {digits : Str} (hdigits : ∀ x ∈ digits, isdigit x)
    (hle : decimal digits ≤ 128) :
    atoi digits = decimal digits := by
  unfold atoi
  rw [dropWhile_eq_self fun x hx => literalChar_not_space (isdigit_literalChar (hdigits x hx))]
  have htake : digits.takeWhile isdigit = digits := takeWhile_eq_self_iff.mpr hdigits
  dsimp only
  split
  · exact absurd (hdigits '-' mem_cons_self) (by decide)
  · exact absurd (hdigits '+' mem_cons_self) (by decide)
  · rw [htake, min_eq_right (by omega), max_eq_right (by omega)]
    apply Int.bmod_eq_of_le <;> omega

theorem splitMask_lengthText (p : InetPton) (family : Family) (hfull : (full : ℤ) = fullBits family)
    (hchars : ∀ x ∈ ip, literalChar x ∧ x ≠ '/') (hcolon : family = .inet → ':' ∉ ip)
    (hlen : LengthText full len n) : splitMask p family (ip ++ len) = .ok (ip, (n : ℤ)) := by
  have hslash : '/' ∉ ip := fun h => (hchars _ h).2 rfl
  have hspace : ' ' ∉ ip := fun h => absurd (hchars _ h).1 (by decide)
  have hle : full ≤ 128 := by
    unfold fullBits at hfull
    split at hfull <;> omega
  unfold splitMask
  cases hlen with
  | none =>
    rw [append_nil, strchr_of_notMem hslash, strchr_of_notMem hspace]
    rw [hfull]
    split_ifs with hinet
    · rw [strchr_of_notMem (hcolon hinet)]
      rfl
    · rfl
  | @slash digits hne hdigits hdec =>
    have hlit (x : Char) (hx : x ∈ digits) : literalChar x := isdigit_literalChar (hdigits x hx)
    have hnodot : '.' ∉ digits := fun h => absurd (hdigits _ h) (by decide)
    have hnocolon : ':' ∉ digits := fun h => absurd (hdigits _ h) (by decide)
    have htrim : ip.rdropWhile isspace = ip := by
      refine rdropWhile_eq_self_iff.mpr fun hnil => ?_
      rw [literalChar_not_space (hchars _ (getLast_mem hnil)).1]
      decide
    have hdrop := dropWhile_eq_self fun x hx => literalChar_not_space (hlit x hx)
    have hhead : headIs isdigit digits = true ∧ headIs isxdigit digits = true := by
      obtain ⟨x, rest, rfl⟩ := exists_cons_of_ne_nil hne
      have hx := hdigits x mem_cons_self
      exact ⟨hx, by simp [headIs, isxdigit, hx]⟩
    rw [strchr_append hslash]
    dsimp only
    rw [htrim, hdrop, hhead.1, hhead.2, strchr_of_notMem hnodot, strchr_of_notMem hnocolon,
      atoi_digits hdigits (hdec.trans hle)]
    simp

theorem LengthText.literal (h : LengthText full len n) (x : Char) (hx : x ∈ len) :
    literalChar x ∧ x ≠ ':' := by
  rcases h.chars x hx with h | rfl
  · refine ⟨isdigit_literalChar h, ?_⟩
    rintro rfl
    exact absurd h (by decide)
  · decide

theorem v4_literal {a : BitVec 32} (hip : p.v4 ip = some a) (x : Char) (hx : x ∈ ip) :
    literalChar x ∧ x ≠ ':' ∧ x ≠ '/' := by
  rcases (p.v4_chars hip).1 x hx with h | rfl
  · refine ⟨isdigit_literalChar h, ?_, ?_⟩ <;> rintro rfl <;> exact absurd h (by decide)
  · decide

variable {a : Fin 4 → BitVec 32}

theorem v6_literal (hip : p.v6 ip = some a) (x : Char) (hx : x ∈ ip) : literalChar x ∧ x ≠ '/' := by
  rcases (p.v6_chars hip).1 x hx with h | rfl | rfl
  · refine ⟨by simp [literalChar, h], ?_⟩
    rintro rfl
    exact absurd h (by decide)
  · decide
  · decide

theorem CidrLiteral.chars (h : CidrLiteral p text c) (x : Char) (hx : x ∈ text) :
    literalChar x := by
  cases h with
  | v4 hip _ hlen _ =>
    rcases mem_append.mp hx with hx | hx
    · exact (v4_literal hip x hx).1
    · exact (hlen.literal x hx).1
  | v6 hip hlen _ =>
    rcases mem_append.mp hx with hx | hx
    · exact (v6_literal hip x hx).1
    · exact (hlen.literal x hx).1

theorem CidrLiteral.ne_nil (h : CidrLiteral p text c) : text ≠ [] := by
  rintro rfl
  generalize hnil : ([] : Str) = text at h
  cases h with
  | v4 hip _ _ _ =>
    obtain ⟨rfl, -⟩ := append_eq_nil_iff.mp hnil.symm
    exact absurd (p.v4_chars hip).2 (by simp)
  | v6 hip _ _ =>
    obtain ⟨rfl, -⟩ := append_eq_nil_iff.mp hnil.symm
    exact absurd (p.v6_chars hip).2 (by simp)

theorem sfipStrToFam_v4 {a : BitVec 32} (hip : p.v4 ip = some a) (hlen : ':' ∉ len) :
    sfipStrToFam (ip ++ len) = .inet := by
  have hcolon : ':' ∉ ip ++ len := by
    rw [mem_append]
    rintro (h | h)
    · exact (v4_literal hip _ h).2.1 rfl
    · exact hlen h
  have hdot : '.' ∈ ip ++ len := mem_append_left len (p.v4_chars hip).2
  unfold sfipStrToFam
  rw [strchr_of_notMem hcolon, if_pos (strchr_isSome_iff.mpr hdot)]

theorem sfipStrToFam_v6 (hip : p.v6 ip = some a) : sfipStrToFam (ip ++ len) = .inet6 := by
  have hcount : 2 ≤ (ip ++ len).count ':' := by
    rw [count_append]
    exact (p.v6_chars hip).2.trans (Nat.le_add_right _ _)
  obtain ⟨before, behind, htext, hbefore⟩ :=
    eq_append_cons_of_mem (count_pos_iff.mp (by omega : 0 < (ip ++ len).count ':'))
  rw [htext, count_append, count_eq_zero.mpr hbefore, count_cons_self] at hcount
  unfold sfipStrToFam
  rw [htext, strchr_append hbefore]
  dsimp only
  rw [if_pos (strchr_isSome_iff.mpr (count_pos_iff.mp (by omega)))]

theorem CidrLiteral.set_eq (h : CidrLiteral p text c) : SfCidr.set p text = .ok c := by
  have hstart : text.dropWhile (fun x => isspace x || x = '[') = text := by
    refine dropWhile_eq_self fun x hx => ?_
    rw [literalChar_not_space (h.chars x hx), decide_eq_false (literalChar_ne (h.chars x hx) rfl)]
    rfl
  unfold SfCidr.set
  rw [hstart]
  cases h with
  | v4 hip hzero hlen hc =>
    have hfamily := sfipStrToFam_v4 hip fun h => (hlen.literal _ h).2 rfl
    have hsplit := splitMask_lengthText p .inet rfl
      (fun x hx => ⟨(v4_literal hip x hx).1, (v4_literal hip x hx).2.2⟩)
      (fun _ h => (v4_literal hip _ h).2.1 rfl) hlen
    rw [hfamily]
    dsimp only [pton]
    rw [hsplit]
    dsimp only
    rw [hzero, hip, if_neg (by decide)]
    dsimp only [Option.map_some]
    rw [decide_eq_true rfl, decide_eq_true (Int.natCast_nonneg _), Bool.and_self, if_pos rfl, hc]
  | v6 hip hlen hc =>
    have hsplit := splitMask_lengthText p .inet6 rfl (v6_literal hip)
      (fun h => absurd h (by decide)) hlen
    rw [sfipStrToFam_v6 hip]
    dsimp only [pton]
    rw [hsplit]
    dsimp only
    rw [hip]
    dsimp only [Option.map_some]
    rw [decide_eq_false (by decide), Bool.false_and, if_neg Bool.false_ne_true, Int.add_zero, hc]
end Literals
end Snort.Sfip
