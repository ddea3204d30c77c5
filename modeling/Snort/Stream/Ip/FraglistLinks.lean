import Snort.Stream.Ip.Defrag

/-!
# The links of the fragment list

The list of a tracker is linked if the fragments in memory form a doubly linked
list. It is tidy if also the tail pointer and the counter are those of this list.
The commands keep both, so every program on the list does what it does on a plain
list of fragments.
-/

namespace Snort.Ip
open List Option DoublyLinked ListProgram

/-- The fragments in memory are those of a plain list. -/
structure Linked (tidy : Prop) (fl : Fraglist) (s : Nodes Fragment) : Prop where
  seg : Seg fl.heap none s.list none
  head : fl.fraglist = firstOr none s.list
  nodup : (ids s.list).Nodup
  lt : ∀ a ∈ ids s.list, a < s.fresh
  fresh : fl.fresh = s.fresh
  tail : tidy → fl.fraglistTail = lastOr none s.list
  count : tidy → fl.fraglistCount = s.list.length

namespace Linked
variable {tidy : Prop} {fl : Fraglist} {s : Nodes Fragment}
  {p : ℕ} {frag : Fragment} {s' : Nodes Fragment}

theorem cell (h : Linked tidy fl s) {before behind : List (ℕ × Fragment)}
    (hsplit : splitAddr p s.list = some (before, frag, behind)) :
    s.list = before ++ (p, frag) :: behind ∧
      fl.heap p = some ⟨lastOr none before, firstOr none behind, frag⟩ := by
  obtain ⟨hlist, -⟩ := eq_append_of_splitAddr hsplit
  have hseg := h.seg
  rw [hlist] at hseg
  exact ⟨hlist, hseg.cell⟩

theorem store (h : Linked tidy fl s) (hs : listMachine.store s p frag = some s') :
    ∃ fl', fragMachine.store fl p frag = some fl' ∧ Linked tidy fl' s' := by
  obtain ⟨⟨before, old, behind⟩, hsplit, rfl⟩ := map_eq_some_iff.mp hs
  obtain ⟨hlist, hcell⟩ := h.cell hsplit
  have hids : ids (before ++ (p, frag) :: behind) = ids s.list := by
    rw [hlist]
    simp
  refine ⟨_, by simp only [fragMachine, Heap.write_some hcell]; rfl, ?_⟩
  have hseg := h.seg
  have hnodup := h.nodup
  rw [hlist] at hseg hnodup
  constructor
  · exact hseg.modify_val hnodup _ rfl
  · rw [h.head, hlist]
    cases before <;> rfl
  · exact hids ▸ h.nodup
  · exact hids ▸ h.lt
  · exact h.fresh
  · intro ht
    rw [h.tail ht, hlist, lastOr_append, lastOr_append]
    rfl
  · intro ht
    rw [h.count ht, hlist]
    simp

/-- A fragment is linked in between the fragments `l` and `t`. -/
theorem addNode {l t : List (ℕ × Fragment)} {fresh : ℕ} (h : Linked tidy fl ⟨l ++ t, fresh⟩)
    (frag : Fragment) :
    ∃ fl', fragMachine.link fl (lastOr none l) frag = some (fresh, fl') ∧
      Linked tidy fl' ⟨l ++ (fresh, frag) :: t, fresh + 1⟩ := by
  have hfresh : fresh ∉ ids (l ++ t) := fun hmem => absurd (h.lt fresh hmem) (Nat.lt_irrefl _)
  have hnext : fl.nextOf (lastOr none l) = some (firstOr none t) := by
    rcases eq_nil_or_concat l with rfl | ⟨init, x, rfl⟩
    · exact congrArg some h.head
    · have hseg := h.seg
      rw [concat_eq_append, append_assoc, singleton_append] at hseg
      rw [concat_eq_append, lastOr_concat, Fraglist.nextOf, hseg.cell]
      rfl
  refine ⟨_, by simp only [fragMachine, Fraglist.addNode, hnext, h.fresh]; rfl, ?_⟩
  constructor
  · exact h.seg.link h.nodup hfresh frag
  · cases l with
    | nil => rfl
    | cons x l =>
      have hlast : (lastOr none (x :: l)).isSome := by
        rcases eq_nil_or_concat l with rfl | ⟨init, y, rfl⟩
        · rfl
        · rw [concat_eq_append, ← cons_append, lastOr_concat]
          rfl
      rw [if_pos hlast, h.head]
      rfl
  · have hnodup := h.nodup
    rw [ids_append] at hnodup hfresh ⊢
    exact nodup_middle.mpr (nodup_cons.mpr ⟨hfresh, hnodup⟩)
  · intro a ha
    rw [ids_append, ids_cons, mem_append, mem_cons] at ha
    have hlt := h.lt a
    rw [ids_append, mem_append] at hlt
    rcases ha with ha | rfl | ha
    · exact Nat.lt_succ_of_lt (hlt (.inl ha))
    · exact Nat.lt_succ_self _
    · exact Nat.lt_succ_of_lt (hlt (.inr ha))
  · rfl
  · intro ht
    cases t with
    | nil =>
      rw [lastOr_concat]
      rfl
    | cons y t =>
      rw [firstOr, isSome_some, if_pos rfl, h.tail ht, lastOr_append, lastOr_append]
      rfl
  · intro ht
    rw [h.count ht]
    simp
    omega

theorem link (h : Linked tidy fl s) {left : Option ℕ} {q : ℕ}
    (hs : listMachine.link s left frag = some (q, s')) :
    ∃ fl', fragMachine.link fl left frag = some (q, fl') ∧ Linked tidy fl' s' := by
  cases left with
  | none =>
    obtain ⟨rfl, rfl⟩ := Prod.mk.inj (Option.some.inj hs)
    exact addNode (l := []) h frag
  | some p =>
    obtain ⟨⟨before, u, behind⟩, hsplit, heq⟩ := map_eq_some_iff.mp hs
    obtain ⟨rfl, rfl⟩ := Prod.mk.inj heq
    obtain ⟨hlist, -⟩ := eq_append_of_splitAddr hsplit
    have hlinked : Linked tidy fl ⟨(before ++ [(p, u)]) ++ behind, s.fresh⟩ := by
      rw [append_assoc, singleton_append, ← hlist]
      exact h
    have hadd := hlinked.addNode frag
    rw [lastOr_concat, append_assoc, singleton_append] at hadd
    exact hadd

theorem unlink (h : Linked tidy fl s) (hs : listMachine.unlink s p = some s') :
    ∃ fl', fragMachine.unlink fl p = some fl' ∧ Linked tidy fl' s' := by
  obtain ⟨⟨before, frag, behind⟩, hsplit, rfl⟩ := map_eq_some_iff.mp hs
  obtain ⟨hlist, hcell⟩ := h.cell hsplit
  have hseg := h.seg
  have hnodup := h.nodup
  rw [hlist] at hseg hnodup
  have hp : p ∉ ids (before ++ behind) := by
    rw [ids_append, ids_cons] at hnodup
    rw [ids_append]
    exact (nodup_middle.mp hnodup).notMem
  refine ⟨_, by simp only [fragMachine, Fraglist.deleteNode, hcell]; rfl, ?_⟩
  constructor
  · exact (hseg.unlink hnodup).frame_update hp none
  · rcases eq_nil_or_concat before with rfl | ⟨init, x, rfl⟩
    · rfl
    · rw [concat_eq_append, lastOr_concat, isSome_some, if_pos rfl, h.head, hlist, concat_eq_append]
      cases init <;> rfl
  · rw [ids_append, ids_cons] at hnodup
    rw [ids_append]
    exact (nodup_middle.mp hnodup).of_cons
  · intro a ha
    refine h.lt a ?_
    rw [hlist, ids_append, ids_cons]
    rw [ids_append, mem_append] at ha
    rcases ha with ha | ha
    · exact mem_append_left _ ha
    · exact mem_append_right _ (mem_cons_of_mem _ ha)
  · exact h.fresh
  · intro ht
    show (if (firstOr none behind).isSome then fl.fraglistTail else lastOr none before) =
      lastOr none (before ++ behind)
    cases behind with
    | nil =>
      rw [append_nil]
      rfl
    | cons y behind =>
      rw [firstOr, isSome_some, if_pos rfl, h.tail ht, hlist, lastOr_append, lastOr_append]
      rfl
  · intro ht
    rw [h.count ht, hlist]
    simp
    omega
end Linked

/-- The commands on the list of a tracker are those of a plain list. -/
theorem fragMachine_refines (tidy : Prop) :
    Refines fragMachine listMachine (Linked tidy) where
  first h := h.head
  next h hq := by
    obtain ⟨⟨before, frag, behind⟩, hsplit, rfl⟩ := map_eq_some_iff.mp hq
    show (Option.map Cell.next _) = _
    rw [(h.cell hsplit).2]
    rfl
  prev h hq := by
    obtain ⟨⟨before, frag, behind⟩, hsplit, rfl⟩ := map_eq_some_iff.mp hq
    show (Option.map Cell.prev _) = _
    rw [(h.cell hsplit).2]
    rfl
  load h hv := by
    obtain ⟨⟨before, frag, behind⟩, hsplit, rfl⟩ := map_eq_some_iff.mp hv
    show (Option.map Cell.val _) = _
    rw [(h.cell hsplit).2]
    rfl
  store h hs := h.store hs
  link h hs := h.link hs
  unlink h hs := h.unlink hs
end Snort.Ip
