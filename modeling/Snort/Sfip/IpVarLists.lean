import Snort.Structures.RankedList
import Snort.Sfip.IpVarMembership

/-!
# The lists of an address variable

The lists are kept in the order of the blocks, and a block that is already there
is dropped. The comparison is an order only as long as no address is zero: an
address that is not set compares equal to any other. Then the lists are the sets
of the blocks that were added, whatever their order.
-/

namespace Snort.Sfip
open List RankedList SfipNode
open BitVec (ofNat)

/-! ## The order of blocks -/

variable {a b : SfIp} {c d : SfCidr}

/-- A number, followed by one more word. -/
def addWord (n : ℕ) (w : BitVec 32) : ℕ := 2 ^ 32 * n + (ntohl w).toNat

/-- The address as a number. -/
def SfIp.rank (ip : SfIp) : ℕ :=
  addWord (addWord (addWord (ntohl (ip.ip32 0)).toNat (ip.ip32 1)) (ip.ip32 2)) (ip.ip32 3)

def SfCidr.rank (c : SfCidr) : ℕ := 256 * c.addr.rank + c.bits

def SfipNode.rank (node : SfipNode) : ℕ := node.ip.rank

/-- The answer of a comparison by numbers. -/
def cmpNat (x y : ℕ) : SfIpRet := if x < y then .lesser else if y < x then .greater else .equal

theorem ip4Cmp_eq (x y : BitVec 32) :
    SfIp.ip4Cmp x y = cmpNat (ntohl x).toNat (ntohl y).toNat := rfl

theorem cmpNat_eq_equal_iff {x y : ℕ} : cmpNat x y = .equal ↔ x = y := by
  unfold cmpNat
  split_ifs <;> simp <;> omega

theorem cmpNat_addWord (m n : ℕ) (x y : BitVec 32) :
    cmpNat (addWord m x) (addWord n y) =
      if cmpNat m n ≠ .equal then cmpNat m n else SfIp.ip4Cmp x y := by
  have hx := (ntohl x).isLt
  have hy := (ntohl y).isLt
  rw [ip4Cmp_eq]
  simp only [ne_eq, cmpNat_eq_equal_iff]
  unfold cmpNat addWord
  split_ifs <;> first | rfl | omega

theorem addWord_inj {m n : ℕ} {x y : BitVec 32} (h : addWord m x = addWord n y) :
    m = n ∧ x = y := by
  unfold addWord at h
  refine ⟨by omega, ntohl_inj.mp (BitVec.eq_of_toNat_eq (by omega))⟩

theorem SfIp.ip6Cmp_eq (a b : SfIp) : a.ip6Cmp b = cmpNat a.rank b.rank := by
  unfold SfIp.rank SfIp.ip6Cmp
  rw [cmpNat_addWord, cmpNat_addWord, cmpNat_addWord, ← ip4Cmp_eq]
  generalize SfIp.ip4Cmp (a.ip32 0) (b.ip32 0) = c₀
  generalize SfIp.ip4Cmp (a.ip32 1) (b.ip32 1) = c₁
  by_cases h₀ : c₀ = .equal <;> by_cases h₁ : c₁ = .equal <;> simp [h₀, h₁]

theorem SfIp.compare_eq (ha : a.isSet = true) (hb : b.isSet = true) :
    a.compare b = cmpNat a.rank b.rank := by
  unfold SfIp.compare
  rw [ha, hb, if_neg (by decide)]
  split
  case isFalse => exact SfIp.ip6Cmp_eq a b
  case isTrue h =>
    -- the words in front are the same, so they do not matter
    rw [Bool.and_eq_true] at h
    obtain ⟨ha0, ha1, ha2⟩ := a.mapped (of_decide_eq_true h.1)
    obtain ⟨hb0, hb1, hb2⟩ := b.mapped (of_decide_eq_true h.2)
    unfold SfIp.rank SfIp.getIp4Value
    rw [ha0, ha1, ha2, hb0, hb1, hb2, cmpNat_addWord, if_neg]
    exact not_not.mpr (cmpNat_eq_equal_iff.mpr rfl)

theorem SfCidr.compare_eq (hc : c.addr.isSet = true) (hd : d.addr.isSet = true) :
    c.compare d = cmpNat c.rank d.rank := by
  have hbc := c.bits_le
  have hbd := d.bits_le
  unfold SfCidr.compare SfCidr.rank
  rw [SfIp.compare_eq hc hd]
  simp only [cmpNat_eq_equal_iff]
  unfold cmpNat
  split_ifs <;> first | rfl | omega

theorem SfIp.ip32_eq_of_rank (h : a.rank = b.rank) : a.ip32 = b.ip32 := by
  obtain ⟨h, h3⟩ := addWord_inj h
  obtain ⟨h, h2⟩ := addWord_inj h
  obtain ⟨h, h1⟩ := addWord_inj h
  have h0 := ntohl_inj.mp (BitVec.eq_of_toNat_eq h)
  funext i
  fin_cases i
  · exact h0
  · exact h1
  · exact h2
  · exact h3

/-! ## Insertion and merging -/

/-- Nodes whose blocks can be told apart: they have the same block, or both addresses are set. -/
structure SfipNode.Comparable (a b : SfipNode) : Prop where
  left : a.any = false
  right : b.any = false
  blocks : a.ip = b.ip ∨ a.ip.addr.isSet = true ∧ b.ip.addr.isSet = true

theorem SfCidr.compare_self (c : SfCidr) : c.compare c = .equal := by
  have hcmp (w : BitVec 32) : SfIp.ip4Cmp w w = .equal := by
    rw [ip4Cmp_eq, cmpNat_eq_equal_iff]
  have haddr : c.addr.compare c.addr = .equal := by
    unfold SfIp.compare
    rw [hcmp, SfIp.ip6Cmp_eq, cmpNat_eq_equal_iff.mpr rfl]
    simp
  unfold SfCidr.compare
  simp [haddr]

section Lists
variable {node : SfipNode} {list list1 list2 : List SfipNode} {a b : SfipNode}

theorem SfipNode.Comparable.compare_eq (h : a.Comparable b) :
    a.ip.compare b.ip = cmpNat a.rank b.rank := by
  rcases h.blocks with hsame | ⟨ha, hb⟩
  · unfold rank
    rw [hsame, SfCidr.compare_self, cmpNat_eq_equal_iff.mpr rfl]
  · exact SfCidr.compare_eq ha hb

theorem insertNode_cases (h : ∀ q ∈ list, node.Comparable q) :
    (insertNode node list = none ∧ RankedList.insert rank node list = list) ∨
      (insertNode node list = some (RankedList.insert rank node list) ∧
        (RankedList.insert rank node list).length = list.length + 1) := by
  induction list with
  | nil => exact .inr ⟨rfl, rfl⟩
  | cons q rest ih =>
    have ih := ih fun q hq => h q (mem_cons_of_mem _ hq)
    unfold insertNode RankedList.insert
    rw [(h q mem_cons_self).compare_eq]
    unfold cmpNat
    by_cases hlt : node.rank < q.rank
    · simp only [if_pos hlt]
      exact .inr ⟨trivial, rfl⟩
    · by_cases hgt : q.rank < node.rank
      · simp only [if_neg hlt, if_pos hgt]
        rcases ih with ⟨hnone, heq⟩ | ⟨hsome, hlen⟩
        · exact .inl ⟨by rw [hnone]; rfl, by rw [heq]⟩
        · exact .inr ⟨by rw [hsome]; rfl, by rw [length_cons, hlen, length_cons]⟩
      · simp only [if_neg hlt, if_neg hgt]
        exact .inl ⟨trivial, trivial⟩

/-- Where the block comes later, the address does not come first. -/
theorem SfipNode.Comparable.addr_not_lesser (h : a.Comparable b)
    (hgt : b.rank < a.rank) : ¬a.ip.addr.compare b.ip.addr = .lesser := by
  rcases h.blocks with hsame | ⟨ha, hb⟩
  · unfold rank at hgt
    rw [hsame] at hgt
    exact absurd hgt (Nat.lt_irrefl _)
  · rw [SfIp.compare_eq ha hb]
    unfold rank SfCidr.rank at hgt
    have hbits := a.ip.bits_le
    have hbits' := b.ip.bits_le
    unfold cmpNat
    split_ifs <;> first | omega | exact nofun

theorem addToList_cases (count : BitVec 32) (h : ∀ q ∈ list, node.Comparable q) :
    (addToList list count node = (list, count) ∧ RankedList.insert rank node list = list) ∨
      (addToList list count node = (RankedList.insert rank node list, count + 1) ∧
        (RankedList.insert rank node list).length = list.length + 1) := by
  cases list with
  | nil => exact .inr ⟨rfl, rfl⟩
  | cons head rest =>
    have hhead := h head mem_cons_self
    unfold addToList RankedList.insert
    simp only [hhead.left, hhead.right, Bool.false_eq_true, if_false, false_or, hhead.compare_eq]
    unfold cmpNat
    by_cases hlt : node.rank < head.rank
    · simp only [if_pos hlt]
      exact .inr ⟨trivial, rfl⟩
    · by_cases hgt : head.rank < node.rank
      · simp only [if_neg hlt, if_pos hgt, if_neg (hhead.addr_not_lesser hgt)]
        rcases insertNode_cases fun q hq => h q (mem_cons_of_mem _ hq) with
          ⟨hnone, heq⟩ | ⟨hsome, hlen⟩
        · exact .inl ⟨by rw [hnone], by rw [heq]⟩
        · exact .inr ⟨by rw [hsome], by rw [length_cons, hlen, length_cons]⟩
      · simp only [if_neg hlt, if_neg hgt]
        exact .inl ⟨trivial, trivial⟩

/-- The loop is the union of ranked lists, and counts its nodes modulo 2^16. -/
theorem mergeLoop_eq (h : ∀ p ∈ list1, ∀ q ∈ list2, p.Comparable q) (n : BitVec 16) :
    mergeLoop list1 list2 (ofNat 16 list1.length) (ofNat 16 list2.length) n =
      (RankedList.union rank list1 list2,
        n + ofNat 16 (RankedList.union rank list1 list2).length) := by
  have hpred (k : ℕ) : ofNat 16 (k + 1) - 1 = ofNat 16 k := by
    rw [BitVec.ofNat_add]
    exact BitVec.add_sub_cancel _ _
  have hsucc (k : ℕ) (n : BitVec 16) : n + 1 + ofNat 16 k = n + ofNat 16 (k + 1) := by
    rw [BitVec.ofNat_add, BitVec.add_assoc, BitVec.add_comm 1]
    rfl
  fun_induction RankedList.union rank list1 list2 generalizing n with
  | case1 list2 =>
    cases list2 with
    | nil => simp [mergeLoop]
    | cons b rest => simp [mergeLoop]
  | case2 list1 hne =>
    cases list1 with
    | nil => exact absurd rfl hne
    | cons a rest => simp [mergeLoop]
  | case3 a rest1 b rest2 hlt ih =>
    rw [mergeLoop, (h a mem_cons_self b mem_cons_self).compare_eq]
    simp only [cmpNat, if_pos hlt, length_cons, hpred]
    rw [← length_cons (a := b), ih fun p hp => h p (mem_cons_of_mem a hp)]
    simp only [hsucc]
  | case4 a rest1 b rest2 hlt hgt ih =>
    rw [mergeLoop, (h a mem_cons_self b mem_cons_self).compare_eq]
    simp only [cmpNat, if_neg hlt, if_pos hgt, length_cons, hpred]
    rw [← length_cons (a := a), ih fun p hp q hq => h p hp q (mem_cons_of_mem b hq)]
    simp only [hsucc]
  | case5 a rest1 b rest2 hlt hgt ih =>
    rw [mergeLoop, (h a mem_cons_self b mem_cons_self).compare_eq]
    simp only [cmpNat, if_neg hlt, if_neg hgt, length_cons, hpred]
    rw [ih fun p hp q hq => h p (mem_cons_of_mem a hp) q (mem_cons_of_mem b hq)]
    simp only [hsucc]

theorem mergeLists_eq (h : ∀ p ∈ list1, ∀ q ∈ list2, p.Comparable q) :
    mergeLists list1 list2 (ofNat 16 list1.length) (ofNat 16 list2.length) =
      (RankedList.union rank list1 list2,
        (ofNat 16 (RankedList.union rank list1 list2).length).setWidth 32) := by
  unfold mergeLists
  cases list1 with
  | nil =>
    cases list2 with
    | nil => simp [RankedList.union]
    | cons b rest => simp [RankedList.union]
  | cons a rest1 =>
    cases list2 with
    | nil => simp [RankedList.union]
    | cons b rest2 =>
      have hab := h a mem_cons_self b mem_cons_self
      simp only [hab.left, hab.right, Bool.false_eq_true, if_false]
      rw [mergeLoop_eq h]
      simp only [BitVec.ofNat_eq_ofNat, BitVec.zero_add]
end Lists

/-! ## Variables -/

/-- The node of a block, as the parser makes it. -/
def blockNode (block : SfCidr) (negated : Bool) : SfipNode :=
  ⟨block, false, negated, negated, notAny_ip block⟩

/-- Different blocks can be told apart: their addresses are set, and they differ in the address
or the length and not in the family alone. -/
def Distinguished (blocks : List SfCidr) : Prop :=
  ∀ c ∈ blocks, ∀ d ∈ blocks, c ≠ d →
    (c.addr.isSet = true ∧ d.addr.isSet = true) ∧ ¬(c.addr.ip32 = d.addr.ip32 ∧ c.bits = d.bits)

/-- The node is one of the blocks. -/
def SfipNode.IsBlock (node : SfipNode) (negated : Bool) (blocks : List SfCidr) : Prop :=
  node = blockNode node.ip negated ∧ node.ip ∈ blocks

section Distinguished
variable {blocks sub : List SfCidr} {negated : Bool} {a b : SfipNode}

theorem Distinguished.mono (h : Distinguished blocks) (hsub : sub ⊆ blocks) : Distinguished sub :=
  fun c hc d hd => h c (hsub hc) d (hsub hd)

theorem SfipNode.IsBlock.mono (h : a.IsBlock negated sub) (hsub : sub ⊆ blocks) :
    a.IsBlock negated blocks := ⟨h.1, hsub h.2⟩

section
variable (h : Distinguished blocks) (ha : a.IsBlock negated blocks) (hb : b.IsBlock negated blocks)
include h ha hb

theorem Distinguished.comparable : a.Comparable b := by
  refine ⟨by rw [ha.1]; rfl, by rw [hb.1]; rfl, ?_⟩
  by_cases hab : a.ip = b.ip
  · exact .inl hab
  · exact .inr (h _ ha.2 _ hb.2 hab).1

theorem Distinguished.eq_of_rank (hrank : a.rank = b.rank) : a = b := by
  have hip : a.ip = b.ip := by
    by_contra hab
    have hbits := a.ip.bits_le
    have hbits' := b.ip.bits_le
    unfold rank SfCidr.rank at hrank
    exact (h _ ha.2 _ hb.2 hab).2
      ⟨SfIp.ip32_eq_of_rank (show a.ip.addr.rank = b.ip.addr.rank by omega), by omega⟩
  rw [ha.1, hb.1, hip]
end
end Distinguished

/-- The list is the set of the blocks. -/
structure Represents (list : List SfipNode) (negated : Bool) (blocks : List SfCidr) : Prop where
  mem_iff : ∀ n, n ∈ list ↔ n.IsBlock negated blocks
  sorted : RankedList.Sorted rank list

namespace Represents
variable {list list' : List SfipNode} {negated : Bool} {blocks blocks' : List SfCidr}
  {block : SfCidr} {count : BitVec 32}

theorem nil : Represents [] negated [] := ⟨fun n => by simp [SfipNode.IsBlock], List.Pairwise.nil⟩

section
variable (h : Represents list negated blocks)
include h

theorem ip_perm_dedup : (list.map ip).Perm blocks.dedup := by
  refine (perm_ext_iff_of_nodup ?_ blocks.nodup_dedup).mpr fun c => ?_
  · refine List.Nodup.map_on (fun a ha b hb hab => ?_) h.sorted.nodup
    rw [((h.mem_iff a).mp ha).1, ((h.mem_iff b).mp hb).1, hab]
  · rw [mem_dedup, mem_map]
    constructor
    · rintro ⟨n, hn, rfl⟩
      exact ((h.mem_iff n).mp hn).2
    · exact fun hc => ⟨blockNode c negated, (h.mem_iff _).mpr ⟨rfl, hc⟩, rfl⟩

theorem length_eq : list.length = blocks.dedup.length := by
  rw [← h.ip_perm_dedup.length_eq, length_map]

theorem list_eq (h' : Represents list' negated blocks')
    (hmem : ∀ c, c ∈ blocks ↔ c ∈ blocks') : list = list' := by
  refine h.sorted.eq_of_mem_iff h'.sorted fun n => ?_
  rw [h.mem_iff, h'.mem_iff, SfipNode.IsBlock, SfipNode.IsBlock, hmem]

theorem insert (hdist : Distinguished (block :: blocks)) :
    Represents (RankedList.insert rank (blockNode block negated) list) negated
      (block :: blocks) := by
  refine ⟨fun n => ?_, h.sorted.insert _⟩
  have hnew : (blockNode block negated).IsBlock negated (block :: blocks) :=
    ⟨rfl, mem_cons_self⟩
  rw [mem_insert_iff fun q hq => hdist.eq_of_rank
    (((h.mem_iff q).mp hq).mono (subset_cons_self ..)) hnew, h.mem_iff]
  constructor
  · rintro (rfl | hn)
    · exact hnew
    · exact hn.mono (subset_cons_self ..)
  · rintro ⟨hn, hip⟩
    rcases mem_cons.mp hip with hip | hip
    · exact .inl (hip ▸ hn)
    · exact .inr ⟨hn, hip⟩

theorem union (h' : Represents list' negated blocks') (hdist : Distinguished (blocks ++ blocks')) :
    Represents (RankedList.union rank list list') negated (blocks ++ blocks') := by
  refine ⟨fun n => ?_, h.sorted.union h'.sorted⟩
  rw [mem_union_iff fun a ha b hb => hdist.eq_of_rank
    (((h.mem_iff a).mp ha).mono (subset_append_left ..))
    (((h'.mem_iff b).mp hb).mono (subset_append_right ..)), h.mem_iff, h'.mem_iff]
  unfold SfipNode.IsBlock
  rw [mem_append, and_or_left]

theorem addToList_eq (hdist : Distinguished (block :: blocks)) (hcount : count.toNat = list.length)
    (hfits : (block :: blocks).dedup.length < 2 ^ 32) :
    ∃ count', addToList list count (blockNode block negated) =
        (RankedList.insert rank (blockNode block negated) list, count') ∧
      count'.toNat = (RankedList.insert rank (blockNode block negated) list).length := by
  have hlen := (h.insert hdist).length_eq
  have hnew : (blockNode block negated).IsBlock negated (block :: blocks) :=
    ⟨rfl, mem_cons_self⟩
  rcases addToList_cases count fun q hq => hdist.comparable hnew
    (((h.mem_iff q).mp hq).mono (subset_cons_self ..)) with ⟨hadd, hins⟩ | ⟨hadd, hins⟩
  · exact ⟨count, by rw [hadd, hins], by rw [hins, hcount]⟩
  · refine ⟨count + 1, hadd, ?_⟩
    rw [BitVec.toNat_add, hcount, hins]
    exact Nat.mod_eq_of_lt (show list.length + 1 < 2 ^ 32 by omega)

theorem mergeLists_eq (h' : Represents list' negated blocks')
    (hdist : Distinguished (blocks ++ blocks'))
    {count' : BitVec 32} (hcount : count.toNat = list.length)
    (hcount' : count'.toNat = list'.length) (hfits : (blocks ++ blocks').dedup.length < 2 ^ 16) :
    ∃ n, mergeLists list list' (count.setWidth 16) (count'.setWidth 16) =
        (RankedList.union rank list list', n) ∧
      n.toNat = (RankedList.union rank list list').length := by
  have hlen := (h.union h' hdist).length_eq
  have hwidth {c : BitVec 32} {k : ℕ} (hc : c.toNat = k) : c.setWidth 16 = ofNat 16 k := by
    apply BitVec.eq_of_toNat_eq
    rw [BitVec.toNat_setWidth, BitVec.toNat_ofNat, hc]
  rw [hwidth hcount, hwidth hcount', Sfip.mergeLists_eq fun p hp q hq => hdist.comparable
    (((h.mem_iff p).mp hp).mono (subset_append_left ..))
    (((h'.mem_iff q).mp hq).mono (subset_append_right ..))]
  refine ⟨_, rfl, ?_⟩
  rw [BitVec.toNat_setWidth, BitVec.toNat_ofNat]
  omega
end
end Represents

/-! ## Variables -/

namespace SfipVar
variable (var : SfipVar) (negated : Bool)

def nodes : List SfipNode :=
  if negated then var.negHead else var.head

def count : BitVec 32 :=
  if negated then var.negHeadCount else var.headCount

/-- The blocks of a list. -/
def blocks : List SfCidr := (var.nodes negated).map ip

section Calls
variable (var dst src : SfipVar) (node : SfipNode) {negated other : Bool}

theorem nodes_sfvarAddNode : (sfvarAddNode var node negated).nodes negated =
    (addToList (var.nodes negated) (var.count negated) node).1 := by
  cases negated <;> rfl

theorem count_sfvarAddNode : (sfvarAddNode var node negated).count negated =
    (addToList (var.nodes negated) (var.count negated) node).2 := by
  cases negated <;> rfl

theorem nodes_sfvarAddNode_of_ne (h : negated ≠ other) :
    (sfvarAddNode var node negated).nodes other = var.nodes other := by
  cases negated <;> cases other <;> first | rfl | exact absurd rfl h

theorem count_sfvarAddNode_of_ne (h : negated ≠ other) :
    (sfvarAddNode var node negated).count other = var.count other := by
  cases negated <;> cases other <;> first | rfl | exact absurd rfl h

theorem nodes_sfvarAdd : (sfvarAdd dst src).nodes negated =
    (mergeLists (dst.nodes negated) (src.nodes negated) ((dst.count negated).setWidth 16)
      ((src.count negated).setWidth 16)).1 := by
  cases negated <;> rfl

theorem count_sfvarAdd : (sfvarAdd dst src).count negated =
    (mergeLists (dst.nodes negated) (src.nodes negated) ((dst.count negated).setWidth 16)
      ((src.count negated).setWidth 16)).2 := by
  cases negated <;> rfl
end Calls

/-- Each list is a set of blocks, and is counted. -/
def Holds (blocks : Bool → List SfCidr) : Prop :=
  ∀ negated, Represents (var.nodes negated) negated (blocks negated) ∧
    (var.count negated).toNat = (var.nodes negated).length

theorem Holds.eq {var var' : SfipVar} {blocks blocks' : Bool → List SfCidr} (h : var.Holds blocks)
    (h' : var'.Holds blocks') (hmem : ∀ negated c, c ∈ blocks negated ↔ c ∈ blocks' negated) :
    var = var' := by
  have hnodes (negated : Bool) : var.nodes negated = var'.nodes negated :=
    (h negated).1.list_eq (h' negated).1 (hmem negated)
  have hcount (negated : Bool) : var.count negated = var'.count negated := by
    apply BitVec.eq_of_toNat_eq
    rw [(h negated).2, (h' negated).2, hnodes]
  obtain ⟨_, _, _, _⟩ := var
  congr
  · exact hnodes false
  · exact hnodes true
  · exact hcount false
  · exact hcount true
end SfipVar

/-- How a variable is put together from blocks: by adding one, or by merging in another
variable. -/
inductive Build where
  | alloc
  | addNode (var : Build) (block : SfCidr) (negated : Bool)
  | add (dst src : Build)

namespace Build

def run : Build → SfipVar
  | alloc => .alloc
  | addNode var block negated => sfvarAddNode var.run (blockNode block negated) negated
  | add dst src => sfvarAdd dst.run src.run

/-- The blocks that were added with or without negation. -/
def blocks : Build → Bool → List SfCidr
  | alloc, _ => []
  | addNode var block negated, neg =>
    if negated = neg then block :: var.blocks neg else var.blocks neg
  | add dst src, neg => dst.blocks neg ++ src.blocks neg

/-- The lists can be counted: in 32 bits, and in 16 bits where they are merged. -/
def Fits : Build → Prop
  | alloc => True
  | addNode var block negated =>
    var.Fits ∧ ∀ neg, ((addNode var block negated).blocks neg).dedup.length < 2 ^ 32
  | add dst src =>
    dst.Fits ∧ src.Fits ∧ ∀ neg, ((add dst src).blocks neg).dedup.length < 2 ^ 16

theorem holds (b : Build) (hdist : ∀ neg, Distinguished (b.blocks neg)) (hfits : b.Fits) :
    b.run.Holds b.blocks := by
  induction b with
  | alloc =>
    intro neg
    cases neg <;> exact ⟨.nil, rfl⟩
  | addNode var block negated ih =>
    have hsub (neg : Bool) : var.blocks neg ⊆ (addNode var block negated).blocks neg := by
      rw [blocks]
      split
      · exact subset_cons_self ..
      · exact List.Subset.refl _
    have ih := ih (fun neg => (hdist neg).mono (hsub neg)) hfits.1
    intro neg
    by_cases hneg : negated = neg
    · subst hneg
      have hblocks : (addNode var block negated).blocks negated = block :: var.blocks negated :=
        if_pos rfl
      have hd := hdist negated
      have hf := hfits.2 negated
      rw [hblocks] at hd hf ⊢
      obtain ⟨count, hadd, hcount⟩ := (ih negated).1.addToList_eq hd (ih negated).2 hf
      rw [run, SfipVar.nodes_sfvarAddNode, SfipVar.count_sfvarAddNode, hadd]
      exact ⟨(ih negated).1.insert hd, hcount⟩
    · rw [run, SfipVar.nodes_sfvarAddNode_of_ne _ _ hneg, SfipVar.count_sfvarAddNode_of_ne _ _ hneg,
        blocks, if_neg hneg]
      exact ih neg
  | add dst src ihd ihs =>
    have ihd := ihd (fun neg => (hdist neg).mono (subset_append_left ..)) hfits.1
    have ihs := ihs (fun neg => (hdist neg).mono (subset_append_right ..)) hfits.2.1
    intro neg
    obtain ⟨n, hmerge, hn⟩ := (ihd neg).1.mergeLists_eq (ihs neg).1 (hdist neg) (ihd neg).2
      (ihs neg).2 (hfits.2.2 neg)
    rw [run, SfipVar.nodes_sfvarAdd, SfipVar.count_sfvarAdd, hmerge]
    exact ⟨(ihd neg).1.union (ihs neg).1 (hdist neg), hn⟩
end Build

/-- Where different blocks can be told apart and the lists can be counted, a variable is the set
of the blocks that were added to it: each of them is there once, under its negation, and the order
and the grouping do not matter. -/
theorem build_blocks (b : Build) (hdist : ∀ neg, Distinguished (b.blocks neg)) (hfits : b.Fits) :
    (∀ neg, (b.run.blocks neg).Nodup ∧ (∀ c, c ∈ b.run.blocks neg ↔ c ∈ b.blocks neg) ∧
      (b.run.count neg).toNat = (b.run.blocks neg).length) ∧
    ∀ b' : Build, (∀ neg c, c ∈ b'.blocks neg ↔ c ∈ b.blocks neg) → b'.Fits → b'.run = b.run := by
  have h := b.holds hdist hfits
  refine ⟨fun neg => ?_, fun b' hmem hfits' => ?_⟩
  · have hperm := (h neg).1.ip_perm_dedup
    refine ⟨hperm.nodup_iff.mpr (b.blocks neg).nodup_dedup, fun c => ?_, ?_⟩
    · exact hperm.mem_iff.trans mem_dedup
    · rw [(h neg).2, SfipVar.blocks, length_map]
  · have hdist' (neg : Bool) : Distinguished (b'.blocks neg) :=
      (hdist neg).mono fun c => (hmem neg c).mp
    exact (b'.holds hdist' hfits').eq h hmem

/-- The block `192.168.0.0/16`. -/
def privateBlock : SfCidr where
  addr := .set4 0x0000A8C0
  bits := 112
  isIp := nofun
  bits_le := by decide
  le_bits _ := by decide
  masked := by decide

theorem build_blocks_grouped :
    (Build.add (.addNode .alloc privateBlock false) (.addNode .alloc tenBlock false)).run =
      (Build.addNode (.addNode .alloc tenBlock false) privateBlock false).run :=
  (build_blocks (.addNode (.addNode .alloc tenBlock false) privateBlock false)
    (by unfold Distinguished; decide) (by simp only [Build.Fits]; decide)).2
    (.add (.addNode .alloc privateBlock false) (.addNode .alloc tenBlock false))
    (fun neg _ => by cases neg <;> simp [Build.blocks, or_comm])
    (by simp only [Build.Fits]; decide)

/-- Of `10.0.0.0/8` and `0.0.0.0/8` the one that comes first is kept. -/
theorem zero_block_dropped :
    let ten := Build.addNode .alloc tenBlock false
    let zero := Build.addNode .alloc zeroBlock false
    (Build.addNode ten zeroBlock false).run.blocks false = [tenBlock] ∧
      (Build.addNode zero tenBlock false).run.blocks false = [zeroBlock] := by
  decide
end Snort.Sfip
