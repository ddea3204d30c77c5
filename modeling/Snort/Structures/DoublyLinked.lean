import Mathlib

/-!
# Doubly linked cells in a heap

A heap maps addresses to cells; a cell holds a value and the addresses of its
neighbours, where `none` is the null pointer. `Seg h p l n` says that the
addressed values `l` stand in the heap as a linked segment whose first cell
points back to `p` and whose last cell points on to `n`. The lemmas say how
writing one link changes a segment, and from that how linking a cell in and
unlinking it change the list that the heap represents.
-/

namespace DoublyLinked
open List
open Function (update)
variable {α : Type*}

/-- A cell of the heap. -/
structure Cell (α : Type*) where
  prev : Option ℕ
  next : Option ℕ
  val : α
deriving DecidableEq

/-- The memory: an address that is not allocated has no cell. -/
abbrev Heap (α : Type*) := ℕ → Option (Cell α)

namespace Heap
variable (h : Heap α)

/-- Reading through a pointer fails on null and on an address that is not allocated. -/
def read (p : Option ℕ) : Option (Cell α) := p.bind h

variable (a : ℕ) (f : Cell α → Cell α)

/-- The heap after the cell at `a` is changed in place. -/
def modify : Heap α :=
  update h a ((h a).map f)

/-- Writing through a pointer fails where reading does. -/
def write (p : Option ℕ) (f : Cell α → Cell α) : Option (Heap α) :=
  p.bind fun a => (h a).map fun _ => h.modify a f

/-- A new cell at an unused address. -/
def alloc (v : α) : Heap α :=
  update h a (some ⟨none, none, v⟩)

/-- The heap once the cell at `a` is freed. -/
def free : Heap α := update h a none

@[simp] theorem read_some : h.read (some a) = h a := rfl

@[simp] theorem modify_self : h.modify a f a = (h a).map f := by
  simp [modify]

variable {h : Heap α}

theorem modify_of_ne {a b : ℕ} (f : Cell α → Cell α) (hab : b ≠ a) : h.modify a f b = h b := by
  simp [modify, hab]

theorem write_some {a : ℕ} {c : Cell α} (hc : h a = some c)
    (f : Cell α → Cell α) : h.write (some a) f = some (h.modify a f) := by
  simp [write, hc]

theorem write_eq_update {a : ℕ} {c : Cell α} (hc : h a = some c) (f : Cell α → Cell α) :
    h.write (some a) f = some (update h a (some (f c))) := by
  rw [write_some hc, modify, hc, Option.map_some]

theorem write_update_self (c : Cell α) (f : Cell α → Cell α) :
    write (update h a (some c)) (some a) f = some (update h a (some (f c))) := by
  rw [write_eq_update (Function.update_self a _ h), Function.update_idem]
end Heap

/-! ## Segments -/

variable (l : List (ℕ × α))

/-- The addresses of a segment, in order. -/
def ids : List ℕ := l.map Prod.fst

/-- The address of the first cell, or `n` where there is none. -/
def firstOr (n : Option ℕ) : List (ℕ × α) → Option ℕ
  | [] => n
  | x :: _ => some x.1

/-- The address of the last cell, or `p` where there is none. -/
def lastOr (p : Option ℕ) : List (ℕ × α) → Option ℕ
  | [] => p
  | x :: t => lastOr (some x.1) t

/-- `l` is linked in the heap, between the pointers `p` and `n`. -/
def Seg (h : Heap α) (p : Option ℕ) : List (ℕ × α) → Option ℕ → Prop
  | [], _ => True
  | x :: t, n => h x.1 = some ⟨p, firstOr n t, x.2⟩ ∧ Seg h (some x.1) t n

@[simp] theorem ids_nil : ids ([] : List (ℕ × α)) = [] := rfl

@[simp] theorem ids_cons (x : ℕ × α) (t : List (ℕ × α)) : ids (x :: t) = x.1 :: ids t := rfl

@[simp] theorem ids_append (l t : List (ℕ × α)) : ids (l ++ t) = ids l ++ ids t :=
  map_append

theorem firstOr_append (n : Option ℕ) (l t : List (ℕ × α)) :
    firstOr n (l ++ t) = firstOr (firstOr n t) l := by
  cases l with
  | nil => rfl
  | cons x l => rfl

theorem lastOr_append (p : Option ℕ) (l t : List (ℕ × α)) :
    lastOr p (l ++ t) = lastOr (lastOr p l) t := by
  induction l generalizing p with
  | nil => rfl
  | cons x l ih => exact ih (some x.1)

@[simp] theorem lastOr_concat (p : Option ℕ) (l : List (ℕ × α)) (x : ℕ × α) :
    lastOr p (l ++ [x]) = some x.1 := by
  rw [lastOr_append]
  rfl

theorem firstOr_none : firstOr none l = (ids l).head? := by
  cases l with
  | nil => rfl
  | cons x t => rfl

variable {l t : List (ℕ × α)} {p n : Option ℕ} {a : ℕ}

theorem firstOr_none_mem (h : firstOr none l = some a) : a ∈ ids l := by
  cases l with
  | nil => cases h
  | cons x t =>
    rw [← Option.some.inj h]
    exact mem_cons_self

theorem lastOr_none_mem (h : lastOr none l = some a) : a ∈ ids l := by
  rcases eq_nil_or_concat l with rfl | ⟨t, x, rfl⟩
  · cases h
  · rw [concat_eq_append, lastOr_concat] at h
    rw [← Option.some.inj h, concat_eq_append, ids_append]
    exact mem_append_right _ mem_cons_self

variable {h : Heap α}

theorem Seg.append_iff : Seg h p (l ++ t) n ↔ Seg h p l (firstOr n t) ∧ Seg h (lastOr p l) t n := by
  induction l generalizing p with
  | nil => exact ⟨fun hseg => ⟨trivial, hseg⟩, fun hseg => hseg.2⟩
  | cons x l ih =>
    show h x.1 = some ⟨p, firstOr n (l ++ t), x.2⟩ ∧ Seg h (some x.1) (l ++ t) n ↔
      (_ ∧ _) ∧ Seg h (lastOr (some x.1) l) t n
    rw [ih, firstOr_append, and_assoc]

variable {q : Option ℕ}

/-- The heap holds at most one list that starts at an address. -/
theorem Seg.unique (hl : Seg h p l none) (ht : Seg h q t none)
    (hfirst : firstOr none l = firstOr none t) : l = t := by
  induction l generalizing p q t with
  | nil =>
    cases t with
    | nil => rfl
    | cons y t => cases hfirst
  | cons x l ih =>
    cases t with
    | nil => cases hfirst
    | cons y t =>
      have haddr : x.1 = y.1 := Option.some.inj hfirst
      have hcell := Option.some.inj (hl.1.symm.trans (haddr ▸ ht.1))
      rw [Cell.mk.injEq] at hcell
      rw [ih hl.2 ht.2 hcell.2.1, Prod.ext haddr hcell.2.2]

theorem Seg.frame {h h' : Heap α} (hseg : Seg h p l n) (hsame : ∀ a ∈ ids l, h' a = h a) :
    Seg h' p l n := by
  induction l generalizing p with
  | nil => trivial
  | cons x t ih =>
    refine ⟨?_, ih hseg.2 fun a ha => hsame a (mem_cons_of_mem _ ha)⟩
    rw [hsame x.1 mem_cons_self]
    exact hseg.1

theorem Seg.frame_modify (hseg : Seg h p l n) (ha : a ∉ ids l) (f : Cell α → Cell α) :
    Seg (h.modify a f) p l n :=
  hseg.frame fun _ hb => Heap.modify_of_ne f fun hba => ha (hba ▸ hb)

theorem Seg.frame_update (hseg : Seg h p l n) (ha : a ∉ ids l) (c : Option (Cell α)) :
    Seg (update h a c) p l n := by
  refine hseg.frame fun b hb => Function.update_of_ne ?_ _ _
  rintro rfl
  exact ha hb

theorem Seg.cell {x : ℕ × α} (hseg : Seg h p (l ++ x :: t) n) :
    h x.1 = some ⟨lastOr p l, firstOr n t, x.2⟩ :=
  (Seg.append_iff.mp hseg).2.1

/-! ## Writing one link or one value -/

namespace Heap

/-- `p->next = x`, where a null `p` is left alone. -/
def setNext (h : Heap α) (p x : Option ℕ) : Heap α :=
  match p with
  | none => h
  | some a => h.modify a fun c => { c with next := x }

/-- `p->prev = x`, where a null `p` is left alone. -/
def setPrev (h : Heap α) (p x : Option ℕ) : Heap α :=
  match p with
  | none => h
  | some a => h.modify a fun c => { c with prev := x }

theorem setNext_of_ne {h : Heap α} {a : ℕ} (hp : p ≠ some a) (x : Option ℕ) :
    h.setNext p x a = h a := by
  cases p with
  | none => rfl
  | some b => exact modify_of_ne _ fun hab => hp (congrArg some hab.symm)

theorem setPrev_of_ne {h : Heap α} {a : ℕ} (hp : p ≠ some a) (x : Option ℕ) :
    h.setPrev p x a = h a := by
  cases p with
  | none => rfl
  | some b => exact modify_of_ne _ fun hab => hp (congrArg some hab.symm)
end Heap

theorem Seg.frame_setNext (hseg : Seg h p l n) (hq : ∀ a, q = some a → a ∉ ids l) (x : Option ℕ) :
    Seg (h.setNext q x) p l n := by
  cases q with
  | none => exact hseg
  | some a => exact hseg.frame_modify (hq a rfl) _

theorem Seg.frame_setPrev (hseg : Seg h p l n) (hq : ∀ a, q = some a → a ∉ ids l) (x : Option ℕ) :
    Seg (h.setPrev q x) p l n := by
  cases q with
  | none => exact hseg
  | some a => exact hseg.frame_modify (hq a rfl) _

theorem Seg.setNext_last (hseg : Seg h p l n) (hnd : (ids l).Nodup) (x : Option ℕ) :
    Seg (h.setNext (lastOr none l) x) p l x := by
  rcases eq_nil_or_concat l with rfl | ⟨t, y, rfl⟩
  · trivial
  · rw [concat_eq_append] at *
    rw [ids_append, nodup_append] at hnd
    have hy : y.1 ∉ ids t := fun hmem => hnd.2.2 y.1 hmem y.1 mem_cons_self rfl
    obtain ⟨hinit, hcell, -⟩ := Seg.append_iff.mp hseg
    rw [lastOr_concat]
    refine Seg.append_iff.mpr ⟨hinit.frame_modify hy _, ?_, trivial⟩
    show h.modify y.1 _ y.1 = _
    rw [Heap.modify_self, hcell]
    rfl

theorem Seg.setPrev_first (hseg : Seg h p l n) (hnd : (ids l).Nodup) (x : Option ℕ) :
    Seg (h.setPrev (firstOr none l) x) x l n := by
  cases l with
  | nil => trivial
  | cons y t =>
    refine ⟨?_, hseg.2.frame_modify (nodup_cons.mp hnd).1 _⟩
    show h.modify y.1 _ y.1 = _
    rw [Heap.modify_self, hseg.1]
    rfl

/-- Changing a value in place changes that value of the list. -/
theorem Seg.modify_val {v : α} (hseg : Seg h p (l ++ (a, v) :: t) n)
    (hnd : (ids (l ++ (a, v) :: t)).Nodup) (f : Cell α → Cell α) {u : α}
    (hf : f ⟨lastOr p l, firstOr n t, v⟩ = ⟨lastOr p l, firstOr n t, u⟩) :
    Seg (h.modify a f) p (l ++ (a, u) :: t) n := by
  rw [ids_append, ids_cons, nodup_append] at hnd
  obtain ⟨-, hnt, hdisj⟩ := hnd
  have hl : a ∉ ids l := fun hmem => hdisj a hmem a mem_cons_self rfl
  have ht : a ∉ ids t := (nodup_cons.mp hnt).1
  obtain ⟨hinit, hcell, htail⟩ := Seg.append_iff.mp hseg
  refine Seg.append_iff.mpr ⟨hinit.frame_modify hl f, ?_, htail.frame_modify ht f⟩
  rw [Heap.modify_self, hcell, Option.map_some, hf]

/-! ## Linking a cell in and unlinking it -/

/-- The heap after a cell with value `v` at `a` is linked in between `p` and `n`. -/
def Heap.link (h : Heap α) (p n : Option ℕ) (a : ℕ) (v : α) : Heap α :=
  ((Heap.setNext (update h a (some ⟨p, n, v⟩)) p (some a))).setPrev n (some a)

/-- The heap after the neighbours `p` and `n` of a cell are linked to each other. -/
def Heap.unlink (h : Heap α) (p n : Option ℕ) : Heap α := (h.setNext p n).setPrev n p

theorem Seg.link (hseg : Seg h none (l ++ t) none) (hnd : (ids (l ++ t)).Nodup)
    (ha : a ∉ ids (l ++ t)) (v : α) :
    Seg (h.link (lastOr none l) (firstOr none t) a v) none (l ++ (a, v) :: t) none := by
  rw [ids_append] at ha hnd
  obtain ⟨hndl, hndt, hdisj⟩ := nodup_append.mp hnd
  have hal : a ∉ ids l := fun hmem => ha (mem_append_left _ hmem)
  have hat : a ∉ ids t := fun hmem => ha (mem_append_right _ hmem)
  obtain ⟨hl, ht⟩ := Seg.append_iff.mp hseg
  have hlast : ∀ b, lastOr none l = some b → b ∉ ids ((a, v) :: t) := by
    intro b hb hmem
    rcases mem_cons.mp hmem with rfl | hmem
    · exact hal (lastOr_none_mem hb)
    · exact hdisj b (lastOr_none_mem hb) b hmem rfl
  have hfirst : ∀ b, firstOr none t = some b → b ∉ ids l ∧ b ≠ a := by
    intro b hb
    refine ⟨fun hmem => hdisj b hmem b (firstOr_none_mem hb) rfl, ?_⟩
    rintro rfl
    exact hat (firstOr_none_mem hb)
  have hmid : Seg (update h a (some ⟨lastOr none l, firstOr none t, v⟩))
      (lastOr none l) [(a, v)] (firstOr none t) :=
    ⟨Function.update_self a _ h, trivial⟩
  refine Seg.append_iff.mpr ⟨?_, ?_⟩
  · -- the part before now ends in `a`
    exact ((hl.frame_update hal _).setNext_last hndl (some a)).frame_setPrev
      (fun b hb => (hfirst b hb).1) _
  · have htail := ((ht.frame_update hat (some ⟨lastOr none l, firstOr none t, v⟩)).frame_setNext
      (fun b hb hmem => hlast b hb (mem_cons_of_mem _ hmem)) (some a)).setPrev_first
      hndt (some a)
    have hcell := (hmid.frame_setNext (q := lastOr none l) (fun b hb hmem =>
        hlast b hb (mem_cons.mpr (.inl (mem_singleton.mp hmem)))) (some a)).frame_setPrev
        (fun b hb hmem => (hfirst b hb).2 (mem_singleton.mp hmem)) (some a)
    exact ⟨hcell.1, htail⟩

theorem Seg.unlink {x : ℕ × α} (hseg : Seg h none (l ++ x :: t) none)
    (hnd : (ids (l ++ x :: t)).Nodup) :
    Seg (h.unlink (lastOr none l) (firstOr none t)) none (l ++ t) none := by
  rw [ids_append, ids_cons] at hnd
  obtain ⟨hndl, hndt, hdisj⟩ := nodup_append.mp hnd
  obtain ⟨hl, hx, ht⟩ := Seg.append_iff.mp hseg
  refine Seg.append_iff.mpr ⟨?_, ?_⟩
  · refine (hl.setNext_last hndl (firstOr none t)).frame_setPrev ?_ _
    intro b hb hmem
    exact hdisj b hmem b (mem_cons_of_mem _ (firstOr_none_mem hb)) rfl
  · refine (ht.frame_setNext ?_ (firstOr none t)).setPrev_first (nodup_cons.mp hndt).2 _
    intro b hb hmem
    exact hdisj b (lastOr_none_mem hb) b (mem_cons_of_mem _ hmem) rfl
end DoublyLinked
