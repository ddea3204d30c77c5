import Snort.Flow.FlowKey

/-!
# What a flow key identifies

The key of a session stands for an unordered pair of endpoints. The key of a
fragment stands for a datagram, as long as the protocol is not ICMP: then the
fragment id is taken for a message type, and parts of the key are overwritten.
-/

namespace Snort.Flow
open Sfip FlowKey SfIp

/-! ## Comparison of keys -/

theorem append_eq_append_iff {v w : ℕ} {a c : BitVec v} {b d : BitVec w} :
    a ++ b = c ++ d ↔ a = c ∧ b = d := by
  constructor
  · intro h
    have hlow : b = d := by
      have := congrArg (BitVec.setWidth w) h
      rwa [BitVec.setWidth_append, BitVec.setWidth_append, dif_pos le_rfl, dif_pos le_rfl,
        BitVec.setWidth_eq, BitVec.setWidth_eq] at this
    subst hlow
    exact ⟨(BitVec.append_left_inj b).mp h, rfl⟩
  · rintro ⟨rfl, rfl⟩
    rfl

theorem PktType.code_inj {a b : PktType} (h : a.code = b.code) : a = b := by
  cases a <;> cases b <;> first | rfl | exact absurd h (by decide)

theorem words_ext {a b : Fin 4 → BitVec 32} :
    a = b ↔ a 0 = b 0 ∧ a 1 = b 1 ∧ a 2 = b 2 ∧ a 3 = b 3 := by
  rw [funext_iff, Fin.forall_fin_succ, Fin.forall_fin_succ, Fin.forall_fin_succ,
    Fin.forall_fin_succ]
  simp

/-- The words of two lists are compared by their differences. -/
theorem any_differs_iff {as bs : List (BitVec 64)} (hlen : as.length = bs.length) :
    ((as.zip bs).any fun (x, y) => x - y ≠ 0) = false ↔ as = bs := by
  induction as generalizing bs with
  | nil =>
    obtain rfl := List.length_eq_zero_iff.mp hlen.symm
    simp
  | cons a as ih =>
    cases bs with
    | nil => exact absurd hlen (by simp)
    | cons b bs =>
      have hsub : decide (a - b ≠ 0) = false ↔ a = b := by
        rw [decide_eq_false_iff_not, not_not, sub_eq_zero]
      rw [List.zip_cons_cons, List.any_cons, Bool.or_eq_false_iff, hsub, List.cons.injEq,
        ih (Nat.succ.inj hlen)]

theorem FlowKey.length_words (k : FlowKey) : k.words.length = 6 := rfl

theorem FlowKey.words_injective : Function.Injective words := by
  rintro ⟨⟩ ⟨⟩ h
  simp only [words, List.cons.injEq, and_true] at h
  obtain ⟨h01, h23, h45, h67, h8, h9⟩ := h
  obtain ⟨hl1, hl0⟩ := append_eq_append_iff.mp h01
  obtain ⟨hl3, hl2⟩ := append_eq_append_iff.mp h23
  obtain ⟨hh1, hh0⟩ := append_eq_append_iff.mp h45
  obtain ⟨hh3, hh2⟩ := append_eq_append_iff.mp h67
  obtain ⟨h8, hmpls⟩ := append_eq_append_iff.mp h8
  obtain ⟨hportH, hportL⟩ := append_eq_append_iff.mp h8
  obtain ⟨h9, hvlan⟩ := append_eq_append_iff.mp h9
  obtain ⟨h9, hspace⟩ := append_eq_append_iff.mp h9
  obtain ⟨h9, hproto⟩ := append_eq_append_iff.mp h9
  obtain ⟨h9, htype⟩ := append_eq_append_iff.mp h9
  obtain ⟨hpad, hversion⟩ := append_eq_append_iff.mp h9
  rw [FlowKey.mk.injEq]
  exact ⟨words_ext.mpr ⟨hl0, hl1, hl2, hl3⟩, words_ext.mpr ⟨hh0, hh1, hh2, hh3⟩, hmpls, hportL,
    hportH, hvlan, hspace, hproto, PktType.code_inj htype, hversion, hpad⟩

theorem FlowKey.compare_eq_zero_iff {a b : FlowKey} : a.compare b = 0 ↔ a = b := by
  have hlen : a.words.length = b.words.length := by
    rw [length_words, length_words]
  rw [← words_injective.eq_iff, ← any_differs_iff hlen]
  unfold compare
  split <;> simp_all

/-! ## Sessions -/

/-- The protocols whose endpoints are rewritten before they are placed. -/
def Rewritten (family : Family) (ipProto : IpProtocol) : Prop :=
  ipProto = .icmpv4 ∨ family ≠ .inet ∧ ipProto = .icmpv6

instance (family : Family) (ipProto : IpProtocol) : Decidable (Rewritten family ipProto) :=
  inferInstanceAs (Decidable (_ ∨ _))

structure Endpoint where
  ip : SfIp
  port : BitVec 16
  isIp : ip.family ≠ .unspec

instance : DecidableEq Endpoint := fun x y =>
  decidable_of_iff (x.ip = y.ip ∧ x.port = y.port) <| by
    rw [Endpoint.mk.injEq]

/-- The order in which addresses of one family are placed. -/
def AddrLt (a b : SfIp) : Prop :=
  if a.isIp4 then a.getIp4Value < b.getIp4Value else a.fastLt6 b

instance (a b : SfIp) : Decidable (AddrLt a b) := inferInstanceAs (Decidable (ite _ _ _))

variable {a b : SfIp}

theorem fastEq6_iff : a.fastEq6 b ↔ a.ip32 = b.ip32 := by
  rw [words_ext]
  unfold fastEq6
  split_ifs <;> simp_all

theorem ip32_eq_iff (ha : a.family = .inet) (hb : b.family = .inet) :
    a.ip32 = b.ip32 ↔ a.getIp4Value = b.getIp4Value := by
  obtain ⟨ha0, ha1, ha2⟩ := a.mapped ha
  obtain ⟨hb0, hb1, hb2⟩ := b.mapped hb
  rw [words_ext, ha0, ha1, ha2, hb0, hb1, hb2]
  simp [getIp4Value]

theorem fastLt6_asymm (h : a.fastLt6 b) : ¬b.fastLt6 a := by
  unfold fastLt6 at h ⊢
  simp only [BitVec.lt_def] at h ⊢
  split_ifs at h ⊢ <;> first | omega | simp_all

theorem eq_of_not_fastLt6 (hab : ¬a.fastLt6 b) (hba : ¬b.fastLt6 a) : a.ip32 = b.ip32 := by
  rw [words_ext]
  unfold fastLt6 at hab hba
  simp only [BitVec.lt_def, BitVec.toNat_eq] at hab hba ⊢
  split_ifs at hab hba <;> first | omega | simp_all

theorem AddrLt.asymm (hfamily : a.family = b.family) (h : AddrLt a b) : ¬AddrLt b a := by
  unfold AddrLt isIp4 at *
  rw [← hfamily]
  split_ifs at h ⊢
  · rw [BitVec.lt_def] at h ⊢
    omega
  · exact fastLt6_asymm h

theorem eq_of_not_addrLt (hfamily : a.family = b.family) (hab : ¬AddrLt a b) (hba : ¬AddrLt b a) :
    a.ip32 = b.ip32 := by
  unfold AddrLt isIp4 at *
  rw [← hfamily] at hba
  split_ifs at hab hba with h4
  · rw [decide_eq_true_eq] at h4
    rw [ip32_eq_iff h4 (hfamily ▸ h4), BitVec.toNat_eq]
    rw [BitVec.lt_def] at hab hba
    omega
  · exact eq_of_not_fastLt6 hab hba

/-- The first endpoint is placed before the second. -/
def Endpoint.Before (a b : Endpoint) : Prop :=
  AddrLt a.ip b.ip ∨ a.ip.ip32 = b.ip.ip32 ∧ a.port < b.port

instance (a b : Endpoint) : Decidable (a.Before b) := inferInstanceAs (Decidable (_ ∨ _))

theorem not_addrLt_of_eq (hfamily : a.family = b.family) (h : a.ip32 = b.ip32) : ¬AddrLt a b := by
  obtain rfl : a = b := by
    cases a
    simp_all
  exact fun hlt => hlt.asymm rfl hlt

namespace Endpoint
variable {a b c d : Endpoint}

@[ext] theorem ext (hfamily : a.ip.family = b.ip.family) (hip : a.ip.ip32 = b.ip.ip32)
    (hport : a.port = b.port) : a = b := by
  obtain ⟨⟨_, _, _⟩, _, _⟩ := a
  simp_all

theorem Before.asymm (hfamily : a.ip.family = b.ip.family) (h : a.Before b) : ¬b.Before a := by
  rintro (hlt | ⟨heq, hlt⟩) <;> rcases h with h | ⟨heq', h⟩
  · exact h.asymm hfamily hlt
  · exact not_addrLt_of_eq hfamily.symm heq'.symm hlt
  · exact not_addrLt_of_eq hfamily heq.symm h
  · rw [BitVec.lt_def] at h hlt
    omega

theorem eq_of_not_before (hfamily : a.ip.family = b.ip.family) (hab : ¬a.Before b)
    (hba : ¬b.Before a) : a = b := by
  obtain ⟨hlt, hport⟩ := not_or.mp hab
  obtain ⟨hlt', hport'⟩ := not_or.mp hba
  have hip := eq_of_not_addrLt hfamily hlt hlt'
  refine ext hfamily hip (BitVec.toNat_eq.mpr ?_)
  have h : ¬a.port < b.port := fun h => hport ⟨hip, h⟩
  have h' : ¬b.port < a.port := fun h => hport' ⟨hip.symm, h⟩
  rw [BitVec.lt_def] at h h'
  omega

/-- What both endpoints tell about the MPLS label. -/
def mplsLabel (cfg : SnortConfig) (mplsId : BitVec 32) (a b : Endpoint) : BitVec 32 :=
  if a.ip.isIp4 then
    if cfg.mplsOverlappingIp && isPrivateIP a.ip.getIp4Value && isPrivateIP b.ip.getIp4Value then
      mplsId
    else 0
  else if cfg.mplsOverlappingIp then mplsId
  else 0

theorem mplsLabel_comm (cfg : SnortConfig) (mplsId : BitVec 32)
    (hfamily : a.ip.family = b.ip.family) :
    mplsLabel cfg mplsId a b = mplsLabel cfg mplsId b a := by
  unfold mplsLabel isIp4
  rw [hfamily, Bool.and_assoc, Bool.and_comm (isPrivateIP _), ← Bool.and_assoc]
end Endpoint

open Endpoint

/-- The key of two endpoints that are in order. -/
def sessionKey (cfg : SnortConfig) (type : PktType) (ipProto : IpProtocol) (space : Space)
    (a b : Endpoint) : FlowKey where
  ipL := a.ip.ip32
  ipH := b.ip.ip32
  mplsLabel := a.mplsLabel cfg space.mplsId b
  portL := a.port
  portH := b.port
  vlanTag := initVlan cfg space.vlanId
  addressSpaceId := initAddressSpace cfg space.addrSpaceId
  ipProtocol := ipProto
  pktType := type
  version := if a.ip.isIp4 then 4 else 6
  padding := 0

/-- `FlowKey::init` on the endpoints of a packet that goes from `a` to `b`. -/
def initSession (cfg : SnortConfig) (type : PktType) (ipProto : IpProtocol) (space : Space)
    (a b : Endpoint) : FlowKey × Bool :=
  init cfg type ipProto ⟨a.ip, a.port, b.ip, b.port⟩ space

section Sessions
variable {cfg : SnortConfig} {type : PktType} {ipProto : IpProtocol} {space : Space}
  {a b c d : Endpoint}

/-- How the endpoints are placed. -/
def Endpoint.placed (a b : Endpoint) : Placed :=
  if a.Before b then ⟨a.ip.ip32, b.ip.ip32, a.port, b.port, false⟩
  else ⟨b.ip.ip32, a.ip.ip32, b.port, a.port, true⟩

theorem place_eq {lt eq : Bool} (hlt : lt = true ↔ AddrLt a.ip b.ip)
    (heq : eq = true ↔ a.ip.ip32 = b.ip.ip32) :
    place true lt eq ⟨a.ip, a.port, b.ip, b.port⟩ = a.placed b := by
  unfold place placed
  simp only [Bool.not_true, Bool.false_or, hlt, heq]
  by_cases hl : AddrLt a.ip b.ip
  · have hbefore : a.Before b := .inl hl
    rw [if_pos hl, if_pos hbefore]
  · rw [if_neg hl]
    by_cases he : a.ip.ip32 = b.ip.ip32
    · rw [if_pos he]
      by_cases hp : a.port < b.port
      · have hbefore : a.Before b := .inr ⟨he, hp⟩
        rw [if_pos hp, if_pos hbefore]
      · have hbefore : ¬a.Before b := not_or.mpr ⟨hl, fun h => hp h.2⟩
        rw [if_neg hp, if_neg hbefore, he]
    · have hbefore : ¬a.Before b := not_or.mpr ⟨hl, fun h => he h.1⟩
      rw [if_neg he, if_neg hbefore]

theorem key_placed (hfamily : a.ip.family = b.ip.family) :
    ((a.placed b).key cfg (a.mplsLabel cfg space.mplsId b) type ipProto
      (if a.ip.isIp4 then 4 else 6) space, (a.placed b).reversed) =
      if a.Before b then (sessionKey cfg type ipProto space a b, false)
      else (sessionKey cfg type ipProto space b a, true) := by
  unfold placed
  split
  · rfl
  · unfold Placed.key sessionKey isIp4
    rw [mplsLabel_comm cfg space.mplsId hfamily, hfamily]

theorem initSession_eq (hfamily : a.ip.family = b.ip.family)
    (hproto : ¬Rewritten a.ip.family ipProto) :
    initSession cfg type ipProto space a b =
      if a.Before b then (sessionKey cfg type ipProto space a b, false)
      else (sessionKey cfg type ipProto space b a, true) := by
  obtain ⟨hicmp4, hicmp6⟩ := not_or.mp hproto
  rw [← key_placed hfamily]
  unfold initSession init
  by_cases h4 : a.ip.family = .inet
  · have hlt : decide (a.ip.getIp4Value < b.ip.getIp4Value) = true ↔ AddrLt a.ip b.ip := by
      simp [AddrLt, isIp4, h4]
    have heq : decide (a.ip.getIp4Value = b.ip.getIp4Value) = true ↔ a.ip.ip32 = b.ip.ip32 := by
      rw [ip32_eq_iff h4 (hfamily ▸ h4), decide_eq_true_eq]
    simp only [init4, if_neg hicmp4, place_eq hlt heq, isIp4, h4, Endpoint.mplsLabel,
      decide_true, if_true]
  · have hlt : a.ip.fastLt6 b.ip = true ↔ AddrLt a.ip b.ip := by
      simp [AddrLt, isIp4, h4]
    simp only [init6, if_neg hicmp4, if_neg fun h => hicmp6 ⟨h4, h⟩, place_eq hlt fastEq6_iff,
      isIp4, h4, Endpoint.mplsLabel, decide_false, Bool.false_eq_true, if_false]

theorem sessionKey_inj {type' : PktType} {ipProto' : IpProtocol} {space' : Space}
    (hab : a.ip.family = b.ip.family) (hcd : c.ip.family = d.ip.family)
    (h : sessionKey cfg type ipProto space a b = sessionKey cfg type' ipProto' space' c d) :
    a = c ∧ b = d := by
  unfold sessionKey at h
  rw [FlowKey.mk.injEq] at h
  obtain ⟨hipL, hipH, -, hportL, hportH, -, -, -, -, hversion, -⟩ := h
  have hfamily : a.ip.family = c.ip.family := by
    have ha := a.isIp
    have hc := c.isIp
    revert hversion
    unfold isIp4
    cases ha' : a.ip.family <;> cases hc' : c.ip.family <;> simp_all
  exact ⟨ext hfamily hipL hportL,
    ext (by rw [← hab, hfamily, hcd]) hipH hportH⟩

section
variable (hfamily : a.ip.family = b.ip.family) (hproto : ¬Rewritten a.ip.family ipProto)
include hfamily hproto

theorem initSession_key_comm :
    (initSession cfg type ipProto space a b).1 = (initSession cfg type ipProto space b a).1 := by
  rw [initSession_eq hfamily hproto, initSession_eq hfamily.symm (hfamily ▸ hproto)]
  by_cases hab : a.Before b
  · rw [if_pos hab, if_neg (hab.asymm hfamily)]
  · rw [if_neg hab]
    by_cases hba : b.Before a
    · rw [if_pos hba]
    · rw [if_neg hba, eq_of_not_before hfamily hab hba]

theorem initSession_reversed_ne (hne : a ≠ b) :
    (initSession cfg type ipProto space a b).2 ≠ (initSession cfg type ipProto space b a).2 := by
  rw [initSession_eq hfamily hproto, initSession_eq hfamily.symm (hfamily ▸ hproto)]
  by_cases hab : a.Before b
  · rw [if_pos hab, if_neg (hab.asymm hfamily)]
    exact Bool.false_ne_true
  · have hba : b.Before a := by
      by_contra hba
      exact hne (eq_of_not_before hfamily hab hba)
    rw [if_neg hab, if_pos hba]
    exact Bool.false_ne_true.symm

/-- The key is that of the endpoints in one of the two orders. -/
theorem initSession_key :
    ∃ x y : Endpoint, s(x, y) = s(a, b) ∧ x.ip.family = y.ip.family ∧
      (initSession cfg type ipProto space a b).1 = sessionKey cfg type ipProto space x y := by
  rw [initSession_eq hfamily hproto]
  split
  · exact ⟨a, b, rfl, hfamily, rfl⟩
  · exact ⟨b, a, Sym2.eq_swap, hfamily.symm, rfl⟩
end

/-- Both directions of a session have the same key, and tell which of them is reversed. The key
determines the endpoints: no two pairs of them have keys that compare equal. -/
theorem session_key_identifies (cfg : SnortConfig) (type : PktType) (ipProto : IpProtocol)
    (space : Space) (a b : Endpoint) (hfamily : a.ip.family = b.ip.family)
    (hproto : ¬Rewritten a.ip.family ipProto) :
    (initSession cfg type ipProto space a b).1 = (initSession cfg type ipProto space b a).1 ∧
      (a ≠ b →
        (initSession cfg type ipProto space a b).2 ≠ (initSession cfg type ipProto space b a).2) ∧
      ∀ (type' : PktType) (ipProto' : IpProtocol) (space' : Space) (c d : Endpoint),
        c.ip.family = d.ip.family → ¬Rewritten c.ip.family ipProto' → s(a, b) ≠ s(c, d) →
        (initSession cfg type ipProto space a b).1.compare
          (initSession cfg type' ipProto' space' c d).1 ≠ 0 := by
  refine ⟨initSession_key_comm hfamily hproto, initSession_reversed_ne hfamily hproto, ?_⟩
  intro type' ipProto' space' c d hfamily' hproto' hne hzero
  obtain ⟨x, y, hxy, hx, hkey⟩ := initSession_key hfamily hproto
  obtain ⟨z, w, hzw, hz, hkey'⟩ := initSession_key hfamily' hproto'
  rw [compare_eq_zero_iff, hkey, hkey'] at hzero
  obtain ⟨rfl, rfl⟩ := sessionKey_inj hx hz hzero
  exact hne (hxy.symm.trans hzw)

theorem session_key_identifies_tcp :
    let a : Endpoint := ⟨.set4 0x0100000A, 1025, by decide⟩
    let b : Endpoint := ⟨.set4 0x0200000A, 80, by decide⟩
    let cfg : SnortConfig := ⟨false, false, false⟩
    (initSession cfg .tcp 6 ⟨0, 0, 0⟩ a b).1 = (initSession cfg .tcp 6 ⟨0, 0, 0⟩ b a).1 ∧
      (initSession cfg .tcp 6 ⟨0, 0, 0⟩ a b).2 ≠ (initSession cfg .tcp 6 ⟨0, 0, 0⟩ b a).2 :=
  have h := session_key_identifies ⟨false, false, false⟩ .tcp 6 ⟨0, 0, 0⟩
    ⟨.set4 0x0100000A, 1025, by decide⟩ ⟨.set4 0x0200000A, 80, by decide⟩ (by decide) (by decide)
  ⟨h.1, h.2.1 (by decide)⟩

/-- The packet type does not say whether the endpoints are rewritten: a packet of type `ip` whose
protocol is ICMP, as a truncated one is, has the port 0 of its source for the type of a message. -/
theorem icmp_in_ip_keys_differ :
    let a : Endpoint := ⟨.set4 0x0100000A, 0, by decide⟩
    let b : Endpoint := ⟨.set4 0x0200000A, 0, by decide⟩
    let key := fun a b => (initSession ⟨false, false, false⟩ .ip .icmpv4 ⟨0, 0, 0⟩ a b).1
    ((key a b).portL, (key a b).portH) = (0, 8) ∧ ((key b a).portL, (key b a).portH) = (8, 0) ∧
      (key a b).compare (key b a) ≠ 0 := by
  decide
end Sessions

/-! ## Fragments -/

structure Fragment extends Packet where
  isFrag : frag = true
deriving DecidableEq

namespace Fragment
variable {cfg : SnortConfig} {f g : Fragment}

structure SameDatagram (f g : Fragment) : Prop where
  src : f.ipApi.src = g.ipApi.src
  dst : f.ipApi.dst = g.ipApi.dst
  id : f.ipApi.id = g.ipApi.id
  proto : f.ipApi.src.family = .inet → f.ipProtoNext = g.ipProtoNext

/-- The family and the protocol of a fragment. -/
def kind (f : Fragment) : Family × IpProtocol := (f.ipApi.src.family, f.ipProtoNext)

/-- Some part of the key is overwritten: in IPv6 one half of the id for all messages of ICMP,
in IPv4 an address if the id of the fragment is the type of a router message. -/
def Overwritten (f : Fragment) : Prop :=
  Rewritten f.ipApi.src.family f.ipProtoNext ∧
    (f.ipApi.src.family = .inet → f.ipApi.ip4Id = 9 ∨ f.ipApi.ip4Id = 10)

instance : Decidable f.Overwritten := inferInstanceAs (Decidable (_ ∧ _))

/-- The endpoints of a fragment before they are rewritten. -/
def ends (f : Fragment) : Ends :=
  ⟨f.ipApi.src, f.ipApi.id.extractLsb' 0 16, f.ipApi.dst, f.ipApi.id.extractLsb' 16 16⟩

/-- The endpoints that are stored in the key. -/
def stored (f : Fragment) : Ends :=
  if f.ipApi.src.family = .inet then
    if f.ipProtoNext = .icmpv4 then updateIcmp4 f.ends else f.ends
  else if f.ipProtoNext = .icmpv6 then updateIcmp6 f.ends
  else if f.ipProtoNext = .icmpv4 then updateIcmp4 f.ends
  else f.ends

theorem setKey_eq (cfg : SnortConfig) (f : Fragment) :
    setKey cfg f.toPacket =
      { ipL := f.stored.srcIP.ip32
        ipH := f.stored.dstIP.ip32
        mplsLabel :=
          if f.ipApi.src.family = .inet then
            if cfg.mplsOverlappingIp && isPrivateIP f.stored.srcIP.getIp4Value &&
              isPrivateIP f.stored.dstIP.getIp4Value then f.space.mplsId else 0
          else if cfg.mplsOverlappingIp then f.space.mplsId
          else 0
        portL := f.stored.srcPort
        portH := f.stored.dstPort
        vlanTag := initVlan cfg f.space.vlanId
        addressSpaceId := initAddressSpace cfg f.space.addrSpaceId
        ipProtocol := if f.ipApi.src.family = .inet then f.ipProtoNext else 0
        pktType := f.type
        version := if f.ipApi.src.family = .inet then 4 else 6
        padding := 0 } := by
  unfold setKey
  simp only [f.isFrag, if_true]
  unfold initId isIp4
  by_cases h4 : f.ipApi.src.family = .inet
  · simp only [h4, decide_true, if_true]
    unfold init4 stored ends
    rw [if_pos h4]
    rfl
  · simp only [h4, decide_false, Bool.false_eq_true, if_false]
    unfold init6 stored ends
    rw [if_neg h4]
    rfl

theorem updateIcmp_congr (t : IcmpTypes) (empty : SfIp) {e e' : Ends} (hsrc : e.srcIP = e'.srcIP)
    (hport : e.srcPort = e'.srcPort) (hdst : e.dstIP = e'.dstIP) :
    updateIcmp t empty e = updateIcmp t empty e' := by
  unfold updateIcmp
  rw [hsrc, hport, hdst]

theorem id_eq_of_halves {x y : BitVec 32} (hlow : x.extractLsb' 0 16 = y.extractLsb' 0 16)
    (hhigh : x.extractLsb' 16 16 = y.extractLsb' 16 16) : x = y := by
  have hx : x.extractLsb' 16 16 ++ x.extractLsb' 0 16 = x := BitVec.extractLsb'_append_extractLsb'
  have hy : y.extractLsb' 16 16 ++ y.extractLsb' 0 16 = y := BitVec.extractLsb'_append_extractLsb'
  rw [← hx, ← hy, hlow, hhigh]

theorem sfIp_ext {x y : SfIp} (hfamily : x.family = y.family) (hwords : x.ip32 = y.ip32) :
    x = y := by
  cases x
  simp_all

theorem id_of_inet (h4 : f.ipApi.src.family = .inet) : f.ipApi.id = f.ipApi.ip4Id.setWidth 32 := by
  simp [IpApi.id, isIp4, h4]

/-- What the keys of two fragments agree on when they are equal. -/
structure SameStored (f g : Fragment) : Prop where
  family : f.ipApi.src.family = g.ipApi.src.family
  proto : f.ipApi.src.family = .inet → f.ipProtoNext = g.ipProtoNext
  srcIP : f.stored.srcIP.ip32 = g.stored.srcIP.ip32
  dstIP : f.stored.dstIP.ip32 = g.stored.dstIP.ip32
  srcPort : f.stored.srcPort = g.stored.srcPort
  dstPort : f.stored.dstPort = g.stored.dstPort

theorem sameStored_of_key (h : setKey cfg f.toPacket = setKey cfg g.toPacket) : f.SameStored g := by
  rw [setKey_eq, setKey_eq, FlowKey.mk.injEq] at h
  obtain ⟨hipL, hipH, -, hportL, hportH, -, -, hproto, -, hversion, -⟩ := h
  have hfamily : f.ipApi.src.family = g.ipApi.src.family := by
    have hf := f.ipApi.isIp
    have hg := g.ipApi.isIp
    cases hf' : f.ipApi.src.family <;> cases hg' : g.ipApi.src.family <;> simp_all
  refine ⟨hfamily, fun h4 => ?_, hipL, hipH, hportL, hportH⟩
  rwa [if_pos h4, if_pos (hfamily ▸ h4)] at hproto

theorem SameStored.sameDatagram (h : f.SameStored g) (hf : f.stored = f.ends)
    (hg : g.stored = g.ends) : f.SameDatagram g := by
  have hsrc := h.srcIP
  have hdst := h.dstIP
  have hlow := h.srcPort
  have hhigh := h.dstPort
  rw [hf, hg] at hsrc hdst hlow hhigh
  refine ⟨sfIp_ext h.family hsrc, sfIp_ext ?_ hdst, id_eq_of_halves hlow hhigh, h.proto⟩
  rw [f.ipApi.sameFamily, g.ipApi.sameFamily, h.family]

theorem extractLsb'_setWidth (x : BitVec 16) : (x.setWidth 32).extractLsb' 0 16 = x := by
  apply BitVec.eq_of_toNat_eq
  have := x.isLt
  simp
  omega

/-- The id of an IPv4 fragment is taken for the type of a message. -/
theorem stored_icmp4 (h4 : f.ipApi.src.family = .inet) (hproto : f.ipProtoNext = .icmpv4) :
    f.stored =
      if f.ipApi.ip4Id = 0 then ⟨f.ipApi.src, 0, f.ipApi.dst, 8⟩
      else if f.ipApi.ip4Id = 9 then ⟨emptyIp4, 0, f.ipApi.dst, 10⟩
      else if f.ipApi.ip4Id = 10 then ⟨f.ipApi.src, f.ipApi.ip4Id, emptyIp4, 0⟩
      else ⟨f.ipApi.src, f.ipApi.ip4Id, f.ipApi.dst, 0⟩ := by
  unfold stored
  rw [if_pos h4, if_pos hproto]
  unfold updateIcmp4 updateIcmp ends
  rw [id_of_inet h4]
  simp only [extractLsb'_setWidth]
  rfl

theorem SameStored.ip4Id_eq (h : f.SameStored g) (h4 : f.ipApi.src.family = .inet)
    (hproto : f.ipProtoNext = .icmpv4) (hid : f.ipApi.ip4Id ≠ 9 ∧ f.ipApi.ip4Id ≠ 10) :
    f.ipApi.ip4Id = g.ipApi.ip4Id ∧ f.ipApi.src.ip32 = g.ipApi.src.ip32 ∧
      f.ipApi.dst.ip32 = g.ipApi.dst.ip32 := by
  have hsrc := h.srcIP
  have hdst := h.dstIP
  have hlow := h.srcPort
  have hhigh := h.dstPort
  rw [stored_icmp4 h4 hproto,
    stored_icmp4 (h.family ▸ h4) (h.proto h4 ▸ hproto)] at hsrc hdst hlow hhigh
  split_ifs at hsrc hdst hlow hhigh <;> simp_all

/-- Only the fragment that is looked up has to be stored faithfully, as long as the other one
is of the same kind. -/
theorem SameStored.sameDatagram_of_not_overwritten (h : f.SameStored g) (hf : ¬f.Overwritten)
    (hg : ¬g.Overwritten ∨ f.kind = g.kind) : f.SameDatagram g := by
  by_cases h4 : f.ipApi.src.family = .inet
  · have h4' : g.ipApi.src.family = .inet := h.family ▸ h4
    by_cases hproto : f.ipProtoNext = .icmpv4
    · have hid : f.ipApi.ip4Id ≠ 9 ∧ f.ipApi.ip4Id ≠ 10 := by
        rw [← not_or]
        exact fun hid => hf ⟨.inl hproto, fun _ => hid⟩
      obtain ⟨hid, hsrc, hdst⟩ := h.ip4Id_eq h4 hproto hid
      refine ⟨sfIp_ext h.family hsrc, sfIp_ext ?_ hdst, ?_, h.proto⟩
      · rw [f.ipApi.sameFamily, g.ipApi.sameFamily, h.family]
      · rw [id_of_inet h4, id_of_inet h4', hid]
    · refine h.sameDatagram ?_ ?_
      · rw [stored, if_pos h4, if_neg hproto]
      · rw [stored, if_pos h4', if_neg fun hp => hproto ((h.proto h4).trans hp)]
  · have h4' : g.ipApi.src.family ≠ .inet := h.family ▸ h4
    -- in IPv6 a message that is rewritten always loses one half of its id
    have hstored (k : Fragment) (h4 : k.ipApi.src.family ≠ .inet)
        (hk : ¬Rewritten k.ipApi.src.family k.ipProtoNext) : k.stored = k.ends := by
      obtain ⟨hicmp4, hicmp6⟩ := not_or.mp hk
      rw [stored, if_neg h4, if_neg fun h => hicmp6 ⟨h4, h⟩, if_neg hicmp4]
    have hf' : ¬Rewritten f.ipApi.src.family f.ipProtoNext := fun hr =>
      hf ⟨hr, fun h => absurd h h4⟩
    refine h.sameDatagram (hstored f h4 hf') (hstored g h4' ?_)
    rcases hg with hg | hkind
    · exact fun hr => hg ⟨hr, fun h => absurd h h4'⟩
    · obtain ⟨hfamily, hproto⟩ := Prod.mk.inj hkind
      rwa [← hfamily, ← hproto]

/-- Another source for an IPv4 fragment. -/
def withSrc (f : Fragment) (h4 : f.ipApi.src.family = .inet) (src : BitVec 32) : Fragment :=
  { f with ipApi := { f.ipApi with
      src := .set4 src
      isIp := nofun
      sameFamily := f.ipApi.sameFamily.trans h4 } }

/-- Another destination for an IPv4 fragment. -/
def withDst (f : Fragment) (h4 : f.ipApi.src.family = .inet) (dst : BitVec 32) : Fragment :=
  { f with ipApi := { f.ipApi with dst := .set4 dst, sameFamily := h4.symm } }

/-- Another id for an IPv6 fragment. -/
def withId (f : Fragment) (id : BitVec 32) : Fragment :=
  { f with ipApi := { f.ipApi with ip6Frag := some id } }

/-- Another datagram has the key of this one. -/
abbrev Clashes (cfg : SnortConfig) (f : Fragment) : Prop :=
  ∃ g : Fragment, f.kind = g.kind ∧ f.space = g.space ∧
    setKey cfg f.toPacket = setKey cfg g.toPacket ∧ ¬f.SameDatagram g

theorem setKey_congr (htype : f.type = g.type) (hkind : f.kind = g.kind)
    (hspace : f.space = g.space)
    (hstored : f.stored = g.stored) : setKey cfg f.toPacket = setKey cfg g.toPacket := by
  obtain ⟨hfamily, hproto⟩ := Prod.mk.inj hkind
  rw [setKey_eq, setKey_eq, hstored, hspace, htype, hfamily, hproto]

theorem ne_add_one (x : BitVec 32) : x ≠ x + 1 := by
  intro h
  have hone : x - x = x + 1 - x := congrArg (· - x) h
  rw [BitVec.sub_self, BitVec.add_comm, BitVec.add_sub_cancel] at hone
  exact absurd hone (by decide)

theorem clash_src (h4 : f.ipApi.src.family = .inet) (hproto : f.ipProtoNext = .icmpv4)
    (hid : f.ipApi.ip4Id = 9) : f.Clashes cfg := by
  let g := f.withSrc h4 (f.ipApi.src.getIp4Value + 1)
  have hkind : f.kind = g.kind := Prod.ext h4 rfl
  have hid' : g.ipApi.ip4Id = 9 := hid
  refine ⟨g, hkind, rfl, setKey_congr rfl hkind rfl ?_, fun h => ?_⟩
  · rw [stored_icmp4 h4 hproto, stored_icmp4 (f := g) rfl hproto, hid, hid']
    rfl
  · exact ne_add_one _ (congrArg getIp4Value h.src)

theorem clash_dst (h4 : f.ipApi.src.family = .inet) (hproto : f.ipProtoNext = .icmpv4)
    (hid : f.ipApi.ip4Id = 10) : f.Clashes cfg := by
  let g := f.withDst h4 (f.ipApi.dst.getIp4Value + 1)
  have hid' : g.ipApi.ip4Id = 10 := hid
  refine ⟨g, rfl, rfl, setKey_congr rfl rfl rfl ?_, fun h => ?_⟩
  · rw [stored_icmp4 h4 hproto, stored_icmp4 (f := g) h4 hproto, hid, hid']
    rfl
  · exact ne_add_one _ (congrArg getIp4Value h.dst)

/-- In IPv6 no message of ICMP keeps the upper half of the id. -/
theorem clash_id (h4 : f.ipApi.src.family ≠ .inet)
    (hr : Rewritten f.ipApi.src.family f.ipProtoNext) :
    f.Clashes cfg := by
  let g := f.withId (f.ipApi.id ^^^ 0x10000)
  have hid : g.ipApi.id = f.ipApi.id ^^^ 0x10000 := by
    simp [g, withId, IpApi.id, isIp4, h4]
  have hlow : f.ends.srcPort = g.ends.srcPort := by
    show f.ipApi.id.extractLsb' 0 16 = g.ipApi.id.extractLsb' 0 16
    rw [hid, BitVec.extractLsb'_xor]
    simp
  refine ⟨g, rfl, rfl, setKey_congr rfl rfl rfl ?_, fun h => ?_⟩
  · have h4' : g.ipApi.src.family ≠ .inet := h4
    have hproto : g.ipProtoNext = f.ipProtoNext := rfl
    unfold stored
    rw [if_neg h4, if_neg h4', hproto]
    by_cases h6 : f.ipProtoNext = .icmpv6
    · rw [if_pos h6, if_pos h6]
      exact updateIcmp_congr _ _ rfl hlow rfl
    · have hicmp4 : f.ipProtoNext = .icmpv4 := hr.resolve_right fun h => h6 h.2
      rw [if_neg h6, if_neg h6, if_pos hicmp4, if_pos hicmp4]
      exact updateIcmp_congr _ _ rfl hlow rfl
  · have hsame : f.ipApi.id ^^^ f.ipApi.id = f.ipApi.id ^^^ (f.ipApi.id ^^^ 0x10000) :=
      congrArg (f.ipApi.id ^^^ ·) (h.id.trans hid)
    rw [← BitVec.xor_assoc, BitVec.xor_self, BitVec.zero_xor] at hsame
    exact absurd hsame (by decide)
end Fragment

/-- Fragments of different datagrams have different keys unless one of them is overwritten. A
fragment shares its key with no other datagram of its kind exactly if it is not overwritten. -/
theorem fragment_key_identifies_iff (cfg : SnortConfig) :
    (∀ f g : Fragment, f.space = g.space → ¬f.Overwritten → ¬g.Overwritten →
      setKey cfg f.toPacket = setKey cfg g.toPacket → f.SameDatagram g) ∧
    ∀ f : Fragment, (∀ g : Fragment, f.kind = g.kind → f.space = g.space →
        setKey cfg f.toPacket = setKey cfg g.toPacket → f.SameDatagram g) ↔ ¬f.Overwritten := by
  refine ⟨fun f g _ hf hg h => ?_, fun f => ⟨fun h hf => ?_, fun hf g hkind _ h => ?_⟩⟩
  · exact (Fragment.sameStored_of_key h).sameDatagram_of_not_overwritten hf (.inl hg)
  · have hclash : f.Clashes cfg := by
      obtain ⟨hr, hid⟩ := hf
      by_cases h4 : f.ipApi.src.family = .inet
      · have hproto : f.ipProtoNext = .icmpv4 := hr.resolve_right fun h => h.1 h4
        rcases hid h4 with hid | hid
        · exact Fragment.clash_src h4 hproto hid
        · exact Fragment.clash_dst h4 hproto hid
      · exact Fragment.clash_id h4 hr
    obtain ⟨g, hkind, hspace, hkey, hne⟩ := hclash
    exact hne (h g hkind hspace hkey)
  · exact (Fragment.sameStored_of_key h).sameDatagram_of_not_overwritten hf (.inr hkind)

/-- A fragment of a large ICMPv6 message. -/
def echoFragment (id : BitVec 32) : Fragment where
  type := .ip
  ipProtoNext := .icmpv6
  ipApi := ⟨.set6 ![0xfe80, 0, 0, 1], .set6 ![0xfe80, 0, 0, 2], 0, some id, nofun, rfl⟩
  vlan := none
  mpls := none
  addressSpaceId := 0
  frag := true
  icmpType := 0
  sp := 0
  dp := 0
  isFrag := rfl

/-- Two datagrams whose ids differ in the upper half only. -/
theorem echo_fragments_share_key :
    let cfg : SnortConfig := ⟨false, false, false⟩
    setKey cfg (echoFragment 0x00010007).toPacket = setKey cfg (echoFragment 0x00020007).toPacket ∧
      (echoFragment 0x00010007).space = (echoFragment 0x00020007).space ∧
      ¬(echoFragment 0x00010007).SameDatagram (echoFragment 0x00020007) :=
  ⟨by decide, rfl, fun h => absurd h.id (by decide)⟩
end Snort.Flow
