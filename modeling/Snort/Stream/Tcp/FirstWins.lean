import Snort.Stream.Tcp.QueuedBytes

/-!
# The first data wins

Under the policies `FIRST`, `VISTA` and `PROXY` no queued node is ever changed, and
a new node is stored only where nothing was queued. So the list holds for every
sequence number the byte that was sent for it first.
-/

namespace Snort.Tcp
open List Serial
variable {w : BitVec 32} {arr : Arrival} {v v' : EditView} {nodes nodes' : List Node}

theorem RightStep.kept (h : RightStep w arr .os5 v v') (hsup : Supplied w arr v)
    (hkept : Kept w arr nodes v.nodes) (hsyn : arr.syn = 0) : Kept w arr nodes v'.nodes := by
  have hend : arr.stop = arr.dataEnd + arr.syn := rfl
  cases h with
  | resent x after hafter _ _ _ _ _ _ heq =>
    refine hkept.congr fun y => ?_
    rw [heq, EditView.mem_nodes, EditView.mem_nodes, hafter]
    simp only [mem_cons]
    tauto
  | skip x after hafter _ _ _ _ _ _ _ heq =>
    refine hkept.congr fun y => ?_
    rw [heq, EditView.mem_nodes, EditView.mem_nodes, hafter]
    simp only [mem_cons]
    tauto
  | drop x after hafter hstart hfin hfull _ heq => exact absurd rfl hfull
  | chunk x after hafter hstart hfin hfull v₁ hins heq =>
    have hlt := (hsup.next hafter).2
    refine (hins.kept hkept hsup.start_le hsup.dsize (by omega)).congr fun y => ?_
    rw [heq, EditView.mem_nodes, EditView.mem_nodes, hins.after_eq, hafter]
    simp only [mem_cons]
    tauto

/-- The insertion leaves the nodes as they are and adds nodes with bytes of the segment. -/
theorem Edit.kept (h : Edit w arr tcpReassemblerFirst nodes nodes') (hplaced : Placed w nodes)
    (hst : AllStored nodes) (hsyn : arr.syn = 0) : Kept w arr nodes nodes' := by
  obtain ⟨v₀, v₁, v₂, v₃, hstart, hleft, hright, hfinish, rfl⟩ := h
  have hnodes : v₁.nodes = nodes := hleft.nodes_eq.trans hstart.nodes
  have hsup : Supplied w arr v₁ := ⟨hleft.sits hplaced hstart, hnodes ▸ hst,
    fun _ => hleft.frame.dsize.trans hstart.dsize⟩
  have hkept : Kept w arr nodes v₁.nodes :=
    ⟨fun x hx => hnodes ▸ hx, fun x hx => .inl (hnodes ▸ hx)⟩
  have hstep : ∀ v v', (Supplied w arr v ∧ Kept w arr nodes v.nodes) → RightStep w arr .os5 v v' →
      Supplied w arr v' ∧ Kept w arr nodes v'.nodes :=
    fun v v' hv hstep => ⟨hstep.supplied hv.1 fun _ _ hone => by omega, hstep.kept hv.1 hv.2 hsyn⟩
  have hlast : Kept w arr nodes v₂.nodes ∧ arr.start ≤ v₂.seq ∧
      (arr.len < 2 ^ 15 → v₂.dsize = arr.len) := by
    rcases hright.rule hstep ⟨hsup, hkept⟩ with ⟨⟨hsup, hkept⟩, -⟩ | ⟨u, ⟨hsup, hkept⟩, hstop⟩
    · exact ⟨hkept, hsup.start_le, hsup.dsize⟩
    · -- the node that reaches behind the segment stays as it is
      cases hstop with
      | resent _ _ _ _ _ _ _ heq => exact heq ▸ ⟨hkept, hsup.start_le, hsup.dsize⟩
      | truncNew _ _ _ _ _ _ _ heq => exact heq ▸ ⟨hkept, hsup.start_le, hsup.dsize⟩
      | passOver _ _ _ _ _ hright _ _ => cases hright
      | cutOld _ _ _ _ _ _ _ _ _ hright _ _ _ _ _ => cases hright
  exact hfinish.kept hlast.1 hlast.2.1 hlast.2.2

/-! ## Runs -/

variable {c : Call} {sos : SegmentOverlapState} {calls : List Call} {pol : StreamPolicy}

/-- A call leaves the nodes as they are and adds nodes with bytes of the call. -/
theorem Outcome.first (h : Outcome w tcpReassemblerFirst sos c nodes nodes')
    (hplaced : Placed w nodes) (hst : AllStored nodes) (hsyn : c.syn = false) :
    (∀ x ∈ nodes, x ∈ nodes') ∧ ∀ x ∈ nodes', x ∈ nodes ∨
      ∀ p, x.2.start w ≤ p → p < x.2.fin w → x.2.byte w p = c.byteOn w p := by
  obtain ⟨hzero, -, -⟩ := offsets_of_not_syn hsyn
  cases h with
  | old _ heq =>
    rw [heq]
    exact ⟨fun x hx => hx, fun x hx => .inl hx⟩
  | empty hnil hlt arr harr v' hins heq =>
    have hkept : Kept w arr [] v'.nodes := hins.kept
      ⟨fun x hx => absurd hx not_mem_nil, fun x hx => absurd hx not_mem_nil⟩
      (Nat.le_add_right _ _) (fun _ => rfl) le_rfl
    rw [heq, hnil]
    refine ⟨hkept.old, fun x hx => (hkept.new x hx).imp id fun hx p hlo hhi => ?_⟩
    exact (hx.agrees p hlo hhi).trans harr.byte_eq_of_empty
  | edit _ _ arr harr hedit =>
    have hkept := hedit.kept hplaced hst (harr.syn.trans hzero)
    refine ⟨hkept.old, fun x hx => (hkept.new x hx).imp id fun hx p hlo hhi => ?_⟩
    exact (hx.agrees p hlo hhi).trans (harr.byte_eq hsyn (hx.start.trans hlo))

/-- The list holds what was sent first. -/
def HoldsFirst (calls : List Call) (nodes : List Node) : Prop :=
  ∀ x ∈ nodes, ∀ s, x.2.Has s → firstSent calls s = some (x.2.byteAt s)

theorem HoldsFirst.call {trs₀ trs trs' : TcpReassemblerState}
    (h : HoldsFirst calls nodes) (hran : Ran w tcpReassemblerFirst trs₀ calls trs nodes)
    (hran' : Ran w tcpReassemblerFirst trs₀ (calls ++ [c]) trs' nodes')
    (hout : Outcome w tcpReassemblerFirst sos c nodes nodes')
    (hcalls : ∀ d ∈ calls, d.InWindow w) (hc : c.Plain w) : HoldsFirst (calls ++ [c]) nodes' := by
  obtain ⟨hold, hnew⟩ := hout.first hran.placed hran.stored hc.syn
  intro x hx s hs
  have hpos := (has_iff (hran'.placed.sound x hx).fin_lt).mp hs
  unfold firstSent
  rw [WriteHistory.first_concat]
  by_cases hcov : ∃ y ∈ nodes, y.2.start w ≤ pos w s ∧ pos w s < y.2.fin w
  · -- the node that covered the number is still the only one that does
    obtain ⟨y, hy, hys⟩ := hcov
    obtain rfl := hran'.placed.ordered.unique (hold y hy) hx hys hpos
    have hfirst := h y hy s hs
    unfold firstSent at hfirst
    rw [hfirst]
    rfl
  · have hnone : WriteHistory.first Call.Sends Call.byteAt calls s = none := by
      rw [WriteHistory.first_eq_none_iff]
      intro d hd hsends
      exact hcov ((hran.covers _).mpr ⟨d, hd, (hcalls d hd).sends_iff.mp hsends⟩)
    have hsends : c.Sends s := by
      rw [hc.sends_iff]
      exact ((hout.covers_of_not_syn hran.placed hc.syn hc.short).mp ⟨x, hx, hpos⟩).resolve_left
        hcov
    rw [hnone, Option.none_or, if_pos hsends, hc.byteAt_eq hsends,
      (hran'.placed.sound x hx).byteAt_eq hs]
    refine congrArg some (Eq.symm ?_)
    exact (hnew x hx).resolve_left (fun hx => hcov ⟨x, hx, hpos⟩) _ hpos.1 hpos.2

/-- The policies that favour the first data. -/
def StreamPolicy.KeepsFirst (pol : StreamPolicy) : Prop :=
  pol = .osFirst ∨ pol = .osVista ∨ pol = .osProxy

theorem StreamPolicy.KeepsFirst.create (h : pol.KeepsFirst)
    (tcpIpsData : NormMode) : TcpReassembler.create tcpIpsData pol = tcpReassemblerFirst := by
  rcases h with rfl | rfl | rfl <;> cases tcpIpsData <;> rfl

theorem StreamPolicy.KeepsFirst.not_syn (h : pol.KeepsFirst)
    (hc : c.Accepted pol) : c.syn = false := by
  by_contra hsyn
  obtain rfl := hc (Bool.not_eq_false _ ▸ hsyn)
  rcases h with h | h | h <;> cases h

theorem holdsFirst_calls {tcpIpsData trimWin : NormMode} (hcalls : ∀ c ∈ calls, c.Plain w) :
    ∃ trs nodes, Ran w tcpReassemblerFirst (.init pol tcpIpsData trimWin) calls trs nodes ∧
      HoldsFirst calls nodes := by
  induction calls using List.reverseRecOn with
  | nil => exact ⟨_, [], Ran.init, fun x hx => absurd hx not_mem_nil⟩
  | append_singleton calls c ih =>
    have hbefore : ∀ d ∈ calls, d.Plain w := fun d hd => hcalls d (mem_append_left _ hd)
    have hc : c.Plain w := hcalls c (mem_append_right _ mem_cons_self)
    obtain ⟨trs, nodes, hran, hfirst⟩ := ih hbefore
    obtain ⟨trs', nodes', hran', hout⟩ := hran.call hc
    exact ⟨trs', nodes', hran',
      hfirst.call hran hran' hout (fun d hd => (hbefore d hd).toInWindow) hc⟩

/-- Under the policies that favour the first data, every run of calls of one window returns, and
the byte that the list holds for a sequence number is the one that was sent first. -/
theorem first_data_wins {pol : StreamPolicy} (hpol : pol.KeepsFirst) (tcpIpsData trimWin : NormMode)
    (calls : List Call) (hcalls : ∀ c ∈ calls, c.InWindow w ∧ c.payload.length ≤ 32767 ∧
      c.Accepted pol) :
    ∃ trs nodes, (TcpReassembler.create tcpIpsData pol).calls (.init pol tcpIpsData trimWin) calls =
      some trs ∧ WellFormed trs nodes ∧
      ∀ x ∈ nodes, ∀ s, x.2.Has s → firstSent calls s = some (x.2.byteAt s) := by
  have hplain : ∀ c ∈ calls, c.Plain w := by
    intro c hc
    obtain ⟨hwin, hlen, haccepted⟩ := hcalls c hc
    exact ⟨hwin, hpol.not_syn haccepted, by omega⟩
  obtain ⟨trs, nodes, hran, hfirst⟩ := holdsFirst_calls hplain
  rw [hpol.create]
  exact ⟨trs, nodes, hran.run, hran.wellFormed, hfirst⟩

theorem first_data_wins_overlap :
    ∃ trs nodes, (TcpReassembler.create .test .osVista).calls (.init .osVista .test .test)
        [⟨0, 4, false, [1, 2]⟩, ⟨0, 2, false, [3, 4, 5, 6, 7]⟩] = some trs ∧
      WellFormed trs nodes ∧ ∀ x ∈ nodes, x.2.Has 4 → x.2.byteAt 4 = some 1 := by
  obtain ⟨trs, nodes, hrun, hwf, hbytes⟩ := first_data_wins (w := 0) (.inr (.inl rfl)) .test .test
    [⟨0, 4, false, [1, 2]⟩, ⟨0, 2, false, [3, 4, 5, 6, 7]⟩] (by
      rintro c (_ | ⟨_, _ | ⟨_, _ | _⟩⟩) <;>
        exact ⟨⟨by decide, by decide, by decide⟩, by decide, by decide⟩)
  refine ⟨trs, nodes, hrun, hwf, fun x hx hs => ?_⟩
  exact (Option.some.inj (hbytes x hx 4 hs)).symm
end Snort.Tcp
