import Snort.Structures.HeadedList

/-!
# Doubly linked lists between two sentinels

The cells of the list stand between a first and a last cell that are never taken
out. A cell is linked in behind the first one; a cell on the list takes itself off
and is left without links, so that its links tell whether it is on the list.
-/

namespace DoublyLinked
open List Option
open Function (update_of_ne update_self update_comm update)
variable {α : Type}

/-! ## Programs -/

namespace Heap
variable (h : Heap α) (head a : ℕ)

/-- A cell is linked in behind the first sentinel. -/
def linkAfter : Option (Heap α) := do
  let s ← h.read (some head)
  let h ← h.write (some a) fun c => { c with next := s.next }
  let h ← h.write (some a) fun c => { c with prev := some head }
  let s ← h.read (some head)
  let h ← h.write s.next fun c => { c with prev := some a }
  h.write (some head) fun c => { c with next := some a }

/-- A cell takes itself off the list. -/
def unlinkSelf : Option (Heap α) := do
  let c ← h.read (some a)
  let h ← h.write c.next fun d => { d with prev := c.prev }
  let c ← h.read (some a)
  let h ← h.write c.prev fun d => { d with next := c.next }
  h.write (some a) fun c => { c with next := none, prev := none }

variable {h} {a} {b : ℕ}

theorem modify_comm (hne : a ≠ b) (f g : Cell α → Cell α) :
    (h.modify a f).modify b g = (h.modify b g).modify a f := by
  unfold modify
  rw [update_of_ne hne.symm, update_of_ne hne, update_comm hne]
end Heap

/-! ## The list -/

/-- The cells `l` are linked between the two sentinels. -/
structure Fenced (h : Heap α) (head tail : ℕ × α) (l : List (ℕ × α)) : Prop where
  seg : Seg h none (head :: (l ++ [tail])) none
  nodup : (ids (head :: (l ++ [tail]))).Nodup

section Fenced
variable {h : Heap α} {head tail x : ℕ × α} {l l₁ l₂ : List (ℕ × α)} {a : ℕ}

theorem firstOr_concat_some (n : Option ℕ) (l : List (ℕ × α)) (y : ℕ × α) :
    ∃ b, firstOr n (l ++ [y]) = some b ∧ b ∈ ids (l ++ [y]) := by
  cases l with
  | nil => exact ⟨y.1, rfl, mem_cons_self⟩
  | cons z l => exact ⟨z.1, rfl, mem_cons_self⟩

theorem lastOr_cons_some (p : Option ℕ) (y : ℕ × α) (l : List (ℕ × α)) :
    ∃ b, lastOr p (y :: l) = some b ∧ b ∈ ids (y :: l) := by
  induction l generalizing p y with
  | nil => exact ⟨y.1, rfl, mem_cons_self⟩
  | cons z l ih =>
    obtain ⟨b, hb, hmem⟩ := ih (some y.1) z
    exact ⟨b, hb, mem_cons_of_mem _ hmem⟩

theorem Fenced.head_cell (hl : Fenced h head tail l) :
    h head.1 = some ⟨none, firstOr none (l ++ [tail]), head.2⟩ := hl.seg.1

theorem Fenced.tail_cell (hl : Fenced h head tail l) :
    h tail.1 = some ⟨lastOr none (head :: l), none, tail.2⟩ := by
  have hseg : Seg h none ((head :: l) ++ tail :: []) none := hl.seg
  exact hseg.cell

theorem Fenced.linkAfter (hl : Fenced h head tail l) {c : Cell α} (hc : h a = some c)
    (ha : a ∉ ids (head :: (l ++ [tail]))) :
    ∃ h', h.linkAfter head.1 a = some h' ∧ Fenced h' head tail ((a, c.val) :: l) ∧
      SameOff (a :: ids (head :: (l ++ [tail]))) h h' := by
  obtain ⟨b, hb, hmem⟩ := firstOr_concat_some none l tail
  have hhead : head.1 ≠ a := fun heq => ha (heq ▸ mem_cons_self)
  have hba : b ≠ a := fun heq => ha (heq ▸ mem_cons_of_mem _ hmem)
  have hbhead : b ≠ head.1 := fun heq => (nodup_cons.mp hl.nodup).1 (heq ▸ hmem)
  have hsome : (h b).isSome := hl.seg.2.isSome hmem
  obtain ⟨d, hd⟩ := isSome_iff_exists.mp hsome
  have hlink : Seg (h.link (some head.1) (firstOr none (l ++ [tail])) a c.val) none
      ([head] ++ (a, c.val) :: (l ++ [tail])) none := Seg.link (l := [head]) hl.seg
      hl.nodup ha c.val
  refine ⟨h.link (some head.1) (some b) a c.val, ?_, ⟨?_, ?_⟩, ?_⟩
  · unfold Heap.linkAfter
    simp only [Heap.read_some, hl.head_cell, hb, bind_eq_bind, bind_some]
    rw [Heap.write_eq_update hc, bind_some, Heap.write_update_self, bind_some,
      update_of_ne hhead, hl.head_cell, bind_some, hb,
      Heap.write_some ((update_of_ne hba _ _).trans hd), bind_some,
      Heap.write_some (c := ⟨none, some b, head.2⟩)]
    · rw [Heap.modify_comm hbhead]
      rfl
    · rw [Heap.modify_of_ne _ hbhead.symm, update_of_ne hhead, hl.head_cell, hb]
  · rw [hb] at hlink
    exact hlink
  · have hperm : (ids (head :: ((a, c.val) :: l ++ [tail]))).Perm
        (a :: ids (head :: (l ++ [tail]))) := List.Perm.swap _ _ _
    exact hperm.nodup_iff.mpr (nodup_cons.mpr ⟨ha, hl.nodup⟩)
  · intro y hy
    have hya : y ≠ a := ne_of_not_mem_cons hy
    have hy := not_mem_of_not_mem_cons hy
    have hyhead : y ≠ head.1 := fun heq => hy (heq ▸ mem_cons_self)
    have hyb : y ≠ b := fun heq => hy (heq ▸ mem_cons_of_mem _ hmem)
    unfold Heap.link
    rw [Heap.setPrev_of_ne (fun heq => hyb (some.inj heq).symm),
      Heap.setNext_of_ne (fun heq => hyhead (some.inj heq).symm), update_of_ne hya]

theorem Fenced.unlinkSelf (hl : Fenced h head tail (l₁ ++ x :: l₂)) :
    ∃ h', h.unlinkSelf x.1 = some h' ∧ Fenced h' head tail (l₁ ++ l₂) ∧
      h' x.1 = some ⟨none, none, x.2⟩ ∧
      SameOff (ids (head :: (l₁ ++ x :: l₂ ++ [tail]))) h h' := by
  obtain ⟨n, hn, hnmem⟩ := firstOr_concat_some none l₂ tail
  obtain ⟨p, hp, hpmem⟩ := lastOr_cons_some none head l₁
  have hsplit : head :: (l₁ ++ x :: l₂ ++ [tail]) = (head :: l₁) ++ x :: (l₂ ++ [tail]) := by
    rw [append_assoc, cons_append, cons_append]
  have hseg := hl.seg
  have hnodup := hl.nodup
  rw [hsplit] at hseg hnodup
  have hcell : h x.1 = some ⟨some p, some n, x.2⟩ := by rw [hseg.cell, hp, hn]
  have hunlink := hseg.unlink hnodup
  have hnodup' := hnodup
  rw [ids_append, ids_cons] at hnodup
  obtain ⟨-, hright, hdisj⟩ := nodup_append.mp hnodup
  have hxn : x.1 ≠ n := fun heq => (nodup_cons.mp hright).1 (heq ▸ hnmem)
  have hxp : x.1 ≠ p := fun heq => hdisj p hpmem p (heq ▸ mem_cons_self) rfl
  have hpn : p ≠ n := fun heq => hdisj p hpmem p (mem_cons_of_mem _ (heq ▸ hnmem)) rfl
  have hx : x.1 ∉ ids ((head :: l₁) ++ (l₂ ++ [tail])) := by
    rw [ids_append]
    intro hmem
    rcases mem_append.mp hmem with hmem | hmem
    · exact hdisj _ hmem _ mem_cons_self rfl
    · exact (nodup_cons.mp hright).1 hmem
  obtain ⟨hleft, -, hrest⟩ := Seg.append_iff.mp hseg
  obtain ⟨cp, hcp⟩ := isSome_iff_exists.mp (hleft.isSome hpmem)
  obtain ⟨cn, hcn⟩ := isSome_iff_exists.mp (hrest.isSome hnmem)
  rw [hp, hn] at hunlink
  refine ⟨update (h.unlink (some p) (some n)) x.1 (some ⟨none, none, x.2⟩), ?_, ⟨?_, ?_⟩,
    update_self _ _ _, ?_⟩
  · unfold Heap.unlinkSelf
    simp only [Heap.read_some, hcell, bind_eq_bind, bind_some]
    rw [Heap.write_some hcn, bind_some, Heap.modify_of_ne _ hxn, hcell, bind_some,
      Heap.write_some ((Heap.modify_of_ne _ hpn).trans hcp), bind_some,
      Heap.write_eq_update (c := ⟨some p, some n, x.2⟩), Heap.modify_comm hpn.symm]
    · rfl
    · rw [Heap.modify_of_ne _ hxp, Heap.modify_of_ne _ hxn, hcell]
  · have hframe := hunlink.frame_update hx (some ⟨none, none, x.2⟩)
    rw [cons_append, ← append_assoc] at hframe
    exact hframe
  · have hsub : (head :: (l₁ ++ l₂ ++ [tail])).Sublist ((head :: l₁) ++ x :: (l₂ ++ [tail])) := by
      rw [append_assoc]
      exact ((sublist_cons_self _ _).append_left l₁).cons_cons head
    exact hnodup'.sublist (hsub.map _)
  · intro y hy
    rw [hsplit, ids_append, ids_cons] at hy
    have hyx : y ≠ x.1 := fun heq => hy (mem_append_right _ (heq ▸ mem_cons_self))
    have hyp : y ≠ p := fun heq => hy (mem_append_left _ (heq ▸ hpmem))
    have hyn : y ≠ n := fun heq =>
      hy (mem_append_right _ (mem_cons_of_mem _ (heq ▸ hnmem)))
    rw [update_of_ne hyx]
    unfold Heap.unlink
    rw [Heap.setPrev_of_ne (fun heq => hyn (some.inj heq).symm),
      Heap.setNext_of_ne (fun heq => hyp (some.inj heq).symm)]
end Fenced
end DoublyLinked
