import Snort.Structures.DoublyLinked

/-!
# Lists with a head pointer

Programs that keep a doubly linked list by a pointer to its first cell: a cell is
put in front, the first cell is taken away, a cell is unlinked, and a cell is
searched for. Each of them is given with the list that it makes from a list, and
with the cells that it leaves as they are.
-/

namespace DoublyLinked
open List Option
variable {α : Type}

/-! ## Programs -/

namespace Heap
variable (h : Heap α) (head tail : Option ℕ) (a : ℕ)

/-- `p->prev = x` if `p` is not null. -/
def writePrev (p x : Option ℕ) : Option (Heap α) :=
  match p with
  | none => some h
  | some b => h.write (some b) fun c => { c with prev := x }

/-- `p->next = x` if `p` is not null. -/
def writeNext (p x : Option ℕ) : Option (Heap α) :=
  match p with
  | none => some h
  | some b => h.write (some b) fun c => { c with next := x }

/-- Puts the cell `a` in front of the list. -/
def pushFront : Option (Heap α) := do
  let h ← h.write (some a) fun c => { c with prev := none, next := head }
  h.writePrev head (some a)

/-- Takes the first cell away: the new head, and the heap. -/
def dropFirst : Option (Option ℕ × Heap α) :=
  match head with
  | none => some (none, h)
  | some b => do
    let c ← h.read (some b)
    let h ← h.writePrev c.next none
    some (c.next, h)

/-- Takes the first cell away if it is `a`. -/
def dropIfFirst : Option (Option ℕ × Heap α) :=
  if head = some a then h.dropFirst head else some (head, h)

/-- Unlinks the cell `a` of a list with a head and a tail: the new head and tail, and the heap. -/
def unlinkCell : Option (Option ℕ × Option ℕ × Heap α) := do
  let (head, h) ← h.dropIfFirst head a
  let c ← h.read (some a)
  let h ← h.writeNext c.prev c.next
  let h ← h.writePrev c.next c.prev
  some (head, if tail = some a then c.prev else tail, h)

/-- Unlinks the cell `a` of a list with a head: the new head, and the heap. A cell without a
predecessor is taken for the first one. -/
def unlinkHeaded : Option (Option ℕ × Heap α) := do
  let c ← h.read (some a)
  match c.prev with
  | some p => do
    let h ← h.writeNext (some p) c.next
    let h ← h.writePrev c.next c.prev
    some (head, h)
  | none => h.dropFirst head

/-- Walks from a cell to the first one whose value satisfies the test. -/
def search (p : α → Bool) : ℕ → Option ℕ → Option (Option ℕ)
  | _, none => some none
  | 0, some _ => none
  | fuel + 1, some b =>
    (h.read (some b)).bind fun c => if p c.val then some (some b) else search p fuel c.next
end Heap

/-! ## What they leave as it is -/

/-- The heaps have cells at the same addresses, with the same values. -/
def SameVals (h h' : Heap α) : Prop := ∀ b, (h' b).map Cell.val = (h b).map Cell.val

/-- The heaps agree except at the given addresses. -/
def SameOff (s : List ℕ) (h h' : Heap α) : Prop := ∀ b, b ∉ s → h' b = h b

section Frames
variable {h h' h'' : Heap α} {s : List ℕ} {p x : Option ℕ}

theorem SameVals.refl : SameVals h h := fun _ => rfl

theorem SameVals.trans (h₁ : SameVals h h') (h₂ : SameVals h' h'') : SameVals h h'' :=
  fun b => (h₂ b).trans (h₁ b)

theorem SameOff.refl : SameOff s h h := fun _ _ => rfl

theorem SameOff.trans (h₁ : SameOff s h h') (h₂ : SameOff s h' h'') : SameOff s h h'' :=
  fun b hb => (h₂ b hb).trans (h₁ b hb)

theorem SameVals.isSome (hv : SameVals h h') (b : ℕ) : (h' b).isSome = (h b).isSome := by
  have := congrArg Option.isSome (hv b)
  rwa [isSome_map, isSome_map] at this

theorem SameVals.exists_cell (hv : SameVals h h') {b : ℕ} {c : Cell α} (hc : h b = some c) :
    ∃ c', h' b = some c' ∧ c'.val = c.val := by
  have hb := hv b
  rw [hc, map_some] at hb
  exact map_eq_some_iff.mp hb

theorem sameVals_modify (h : Heap α) (a : ℕ) {f : Cell α → Cell α} (hf : ∀ c, (f c).val = c.val) :
    SameVals h (h.modify a f) := by
  intro b
  rcases eq_or_ne b a with rfl | hb
  · rw [Heap.modify_self]
    cases h b with
    | none => rfl
    | some c => exact congrArg some (hf c)
  · rw [Heap.modify_of_ne f hb]

theorem sameOff_modify (h : Heap α) {a : ℕ} (ha : a ∈ s) (f : Cell α → Cell α) :
    SameOff s h (h.modify a f) :=
  fun _ hb => Heap.modify_of_ne f fun hba => hb (hba ▸ ha)

theorem sameVals_setNext : SameVals h (h.setNext p x) := by
  cases p with
  | none => exact .refl
  | some a => exact sameVals_modify h a fun _ => rfl

theorem sameVals_setPrev : SameVals h (h.setPrev p x) := by
  cases p with
  | none => exact .refl
  | some a => exact sameVals_modify h a fun _ => rfl

theorem sameOff_setNext (hp : ∀ a, p = some a → a ∈ s) : SameOff s h (h.setNext p x) := by
  cases p with
  | none => exact .refl
  | some a => exact sameOff_modify h (hp a rfl) _

theorem sameOff_setPrev (hp : ∀ a, p = some a → a ∈ s) : SameOff s h (h.setPrev p x) := by
  cases p with
  | none => exact .refl
  | some a => exact sameOff_modify h (hp a rfl) _

/-- A pointer that is null or points to a cell can be written through. -/
theorem Heap.writePrev_eq (hp : ∀ a, p = some a → (h a).isSome) :
    h.writePrev p x = some (h.setPrev p x) := by
  cases p with
  | none => rfl
  | some a =>
    obtain ⟨c, hc⟩ := isSome_iff_exists.mp (hp a rfl)
    exact Heap.write_some hc _

theorem Heap.writeNext_eq (hp : ∀ a, p = some a → (h a).isSome) :
    h.writeNext p x = some (h.setNext p x) := by
  cases p with
  | none => rfl
  | some a =>
    obtain ⟨c, hc⟩ := isSome_iff_exists.mp (hp a rfl)
    exact Heap.write_some hc _
end Frames

/-! ## What they make of a list -/

section Lists
variable {h : Heap α} {l t : List (ℕ × α)} {x : ℕ × α} {p n : Option ℕ} {a : ℕ}

theorem Seg.isSome (hseg : Seg h p l n) (ha : a ∈ ids l) : (h a).isSome := by
  obtain ⟨y, hy, rfl⟩ := mem_map.mp ha
  obtain ⟨l₁, l₂, rfl⟩ := append_of_mem hy
  rw [hseg.cell]
  rfl

theorem Seg.isSome_first (hseg : Seg h p l n) (ha : firstOr none l = some a) : (h a).isSome :=
  hseg.isSome (firstOr_none_mem ha)

theorem Seg.pushFront (hseg : Seg h none l none) (hnd : (ids l).Nodup) {c : Cell α}
    (hc : h a = some c) (ha : a ∉ ids l) :
    ∃ h', h.pushFront (firstOr none l) a = some h' ∧ Seg h' none ((a, c.val) :: l) none ∧
      SameOff (a :: ids l) h h' ∧ SameVals h h' := by
  have hlink := Seg.link (l := []) hseg hnd ha c.val
  refine ⟨h.link none (firstOr none l) a c.val, ?_, hlink, ?_, ?_⟩
  · unfold Heap.pushFront
    rw [Heap.write_eq_update hc, bind_eq_bind, bind_some, Heap.writePrev_eq]
    · rfl
    · intro b hb
      have hne : b ≠ a := fun hba => ha (hba ▸ firstOr_none_mem hb)
      rw [Function.update_of_ne hne]
      exact hseg.isSome_first hb
  · have hupdate : SameOff (a :: ids l) h
      (Function.update h a (some ⟨none, firstOr none l, c.val⟩)) :=
      fun b hb => Function.update_of_ne (ne_of_not_mem_cons hb) _ _
    exact hupdate.trans (sameOff_setPrev fun b hb => mem_cons_of_mem _ (firstOr_none_mem hb))
  · have hupdate : SameVals h (Function.update h a (some ⟨none, firstOr none l, c.val⟩)) := by
      intro b
      by_cases hb : b = a
      · subst hb
        rw [Function.update_self, hc]
        rfl
      · rw [Function.update_of_ne hb]
    exact hupdate.trans sameVals_setPrev

theorem Seg.dropFirst (hseg : Seg h none (x :: t) none) (hnd : (ids (x :: t)).Nodup) :
    ∃ h', h.dropFirst (some x.1) = some (firstOr none t, h') ∧ Seg h' none t none ∧
      SameOff (ids t) h h' ∧ SameVals h h' := by
  refine ⟨h.setPrev (firstOr none t) none, ?_, ?_, ?_, sameVals_setPrev⟩
  · unfold Heap.dropFirst
    dsimp only
    rw [Heap.read_some, hseg.1, bind_eq_bind, bind_some,
      Heap.writePrev_eq fun a ha => hseg.2.isSome_first ha]
    rfl
  · exact hseg.2.setPrev_first (nodup_cons.mp hnd).2 none
  · exact sameOff_setPrev fun a ha => firstOr_none_mem ha

/-- The heap with a cell unlinked, as the two neighbours see it. -/
theorem Seg.unlink_frame (hseg : Seg h none (l ++ x :: t) none) (hnd : (ids (l ++ x :: t)).Nodup) :
    Seg (h.unlink (lastOr none l) (firstOr none t)) none (l ++ t) none ∧
      SameOff (ids (l ++ t)) h (h.unlink (lastOr none l) (firstOr none t)) ∧
      SameVals h (h.unlink (lastOr none l) (firstOr none t)) := by
  refine ⟨hseg.unlink hnd, ?_, sameVals_setNext.trans sameVals_setPrev⟩
  refine SameOff.trans (sameOff_setNext fun a ha => ?_) (sameOff_setPrev fun a ha => ?_)
  · rw [ids_append]
    exact mem_append_left _ (lastOr_none_mem ha)
  · rw [ids_append]
    exact mem_append_right _ (firstOr_none_mem ha)

/-- Both neighbours are cells. -/
theorem Seg.unlink_writes (hseg : Seg h none (l ++ x :: t) none) :
    (h.writeNext (lastOr none l) (firstOr none t)).bind (fun h =>
        h.writePrev (firstOr none t) (lastOr none l)) =
      some (h.unlink (lastOr none l) (firstOr none t)) := by
  obtain ⟨hl, -, ht⟩ := Seg.append_iff.mp hseg
  rw [Heap.writeNext_eq fun a ha => hl.isSome (lastOr_none_mem ha), bind_some,
    Heap.writePrev_eq fun a ha => ?_]
  · rfl
  · rw [sameVals_setNext.isSome]
    exact ht.isSome_first ha

theorem firstOr_concat (n m : Option ℕ) (l : List (ℕ × α)) (y : ℕ × α) :
    firstOr n (l ++ [y]) = firstOr m (l ++ [y]) := by
  cases l with
  | nil => rfl
  | cons z l => rfl

theorem Seg.unlinkHeaded (hseg : Seg h none (l ++ x :: t) none) (hnd : (ids (l ++ x :: t)).Nodup) :
    ∃ h', h.unlinkHeaded (firstOr none (l ++ x :: t)) x.1 = some (firstOr none (l ++ t), h') ∧
      Seg h' none (l ++ t) none ∧ SameOff (ids (l ++ t)) h h' ∧ SameVals h h' := by
  rcases eq_nil_or_concat l with rfl | ⟨l, y, rfl⟩
  · obtain ⟨h', hdrop, hrest⟩ := Seg.dropFirst hseg hnd
    refine ⟨h', ?_, hrest⟩
    unfold Heap.unlinkHeaded
    rw [Heap.read_some, hseg.1]
    exact hdrop
  · rw [concat_eq_append] at *
    obtain ⟨hunlinked, hoff, hvals⟩ := hseg.unlink_frame hnd
    refine ⟨_, ?_, hunlinked, hoff, hvals⟩
    have hwrites := hseg.unlink_writes
    unfold Heap.unlinkHeaded
    rw [Heap.read_some, hseg.cell]
    rw [lastOr_concat] at hwrites ⊢
    simp only [bind_eq_bind, bind_some]
    rw [← bind_assoc, hwrites, bind_some]
    have hhead : firstOr none (l ++ [y] ++ x :: t) = firstOr none (l ++ [y] ++ t) := by
      rw [firstOr_append none (l ++ [y]), firstOr_append none (l ++ [y])]
      exact firstOr_concat _ _ l y
    rw [hhead]

theorem lastOr_unlink (hnd : (ids (l ++ x :: t)).Nodup) :
    (if lastOr none (l ++ x :: t) = some x.1 then lastOr none l else lastOr none (l ++ x :: t)) =
      lastOr none (l ++ t) := by
  rw [lastOr_append, lastOr_append]
  rcases eq_nil_or_concat t with rfl | ⟨t, y, rfl⟩
  · exact if_pos rfl
  · rw [concat_eq_append] at *
    have hne : some y.1 ≠ some x.1 := by
      rw [ids_append, ids_cons, ids_append] at hnd
      have hx := (nodup_cons.mp (nodup_append.mp hnd).2.1).1
      exact fun heq => hx (some.inj heq ▸ mem_append_right _ mem_cons_self)
    have hlast : lastOr (lastOr none l) (x :: (t ++ [y])) = some y.1 := lastOr_concat _ t y
    rw [if_neg (hlast ▸ hne), hlast, lastOr_concat]

theorem Seg.unlinkCell (hseg : Seg h none (l ++ x :: t) none) (hnd : (ids (l ++ x :: t)).Nodup) :
    ∃ h', h.unlinkCell (firstOr none (l ++ x :: t)) (lastOr none (l ++ x :: t)) x.1 =
        some (firstOr none (l ++ t), lastOr none (l ++ t), h') ∧
      Seg h' none (l ++ t) none ∧ SameOff (ids (l ++ t)) h h' ∧ SameVals h h' := by
  have htail := lastOr_unlink hnd
  cases l with
  | nil =>
    -- The head is moved on, and then its link back is written once more.
    obtain ⟨h₁, hdrop, hseg₁, hoff₁, hvals₁⟩ := Seg.dropFirst hseg hnd
    have hx : x.1 ∉ ids t := (nodup_cons.mp hnd).1
    have hcell : h₁ x.1 = some ⟨none, firstOr none t, x.2⟩ := by
      rw [hoff₁ x.1 hx]
      exact hseg.1
    refine ⟨h₁.setPrev (firstOr none t) none, ?_, hseg₁.setPrev_first (nodup_cons.mp hnd).2 none,
      hoff₁.trans (sameOff_setPrev fun a ha => firstOr_none_mem ha), hvals₁.trans sameVals_setPrev⟩
    have hfirst : h.dropIfFirst (firstOr none (x :: t)) x.1 = some (firstOr none t, h₁) :=
      (if_pos rfl).trans hdrop
    unfold Heap.unlinkCell
    rw [nil_append, hfirst]
    simp only [bind_eq_bind, bind_some]
    rw [Heap.read_some, hcell]
    simp only [bind_some, Heap.writeNext]
    rw [Heap.writePrev_eq fun a ha => hseg₁.isSome_first ha, bind_some, ← htail]
    rfl
  | cons y l =>
    obtain ⟨hunlinked, hoff, hvals⟩ := hseg.unlink_frame hnd
    refine ⟨_, ?_, hunlinked, hoff, hvals⟩
    have hwrites := hseg.unlink_writes
    have hne : firstOr none (y :: l ++ x :: t) ≠ some x.1 := by
      intro heq
      have hy : y.1 = x.1 := some.inj heq
      rw [cons_append, ids_cons, nodup_cons, hy] at hnd
      exact hnd.1 (by simp)
    have hfirst : h.dropIfFirst (firstOr none (y :: l ++ x :: t)) x.1 =
        some (firstOr none (y :: l ++ x :: t), h) := if_neg hne
    unfold Heap.unlinkCell
    rw [hfirst]
    simp only [bind_eq_bind, bind_some]
    rw [Heap.read_some, hseg.cell, bind_some, ← bind_assoc, hwrites, bind_some, htail]
    rfl

/-- The search finds the first value of the list that satisfies the test. -/
theorem Seg.search (hseg : Seg h p l none) (test : α → Bool) {fuel : ℕ} (hfuel : l.length ≤ fuel) :
    h.search test fuel (firstOr none l) = some ((l.find? fun y => test y.2).map Prod.fst) := by
  induction l generalizing p fuel with
  | nil =>
    cases fuel <;> rfl
  | cons y l ih =>
    obtain ⟨fuel, rfl⟩ : ∃ k, fuel = k + 1 := ⟨fuel - 1, by simp at hfuel; omega⟩
    show (h.read (some y.1)).bind _ = _
    rw [Heap.read_some, hseg.1, bind_some, find?_cons]
    cases test y.2 with
    | true => rfl
    | false => exact ih hseg.2 (Nat.le_of_succ_le_succ hfuel)
end Lists
end DoublyLinked
