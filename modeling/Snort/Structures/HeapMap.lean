import Snort.Structures.DoublyLinked

/-!
# Changing all values of a heap

Mapping a function over the values of a heap leaves all links as they are, so
that a program which treats the old and the new values alike does the same on
both heaps. The rules for `Option` say when two programs that may fail do the
same up to a function on their results.
-/

namespace DoublyLinked
section Option
variable {α α' β β' : Type*} {φ : α → α'} {ψ : β → β'} {o : Option α} {o' : Option α'}
  {f : α → Option β} {f' : α' → Option β'} {p p' : Prop} {x : Option β} {x' : Option β'}

theorem bind_commutes (ho : o' = o.map φ) (hf : ∀ x, f' (φ x) = (f x).map ψ) :
    o'.bind f' = (o.bind f).map ψ := by
  subst ho
  cases o with
  | none => rfl
  | some x => exact hf x

theorem bind_invariant {f' : α' → Option β} (ho : o' = o.map φ) (hf : ∀ x, f' (φ x) = f x) :
    o'.bind f' = o.bind f := by
  subst ho
  cases o with
  | none => rfl
  | some x => exact hf x

theorem ite_commutes [Decidable p] [Decidable p'] {y : Option β}
    {y' : Option β'} (hp : p' ↔ p) (hx : x' = x.map ψ) (hy : y' = y.map ψ) :
    (if p' then x' else y') = (if p then x else y).map ψ := by
  by_cases h : p
  · rw [if_pos h, if_pos (hp.mpr h), hx]
  · rw [if_neg h, if_neg (mt hp.mp h), hy]

theorem guard_commutes [Decidable p] [Decidable p'] (hp : p' ↔ p) (hx : x' = x.map ψ) :
    ((guard p' : Option Unit).bind fun _ => x') =
      ((guard p : Option Unit).bind fun _ => x).map ψ := by
  by_cases h : p
  · simp [h, hp.mpr h, hx]
  · rw [guard, guard, if_neg h, if_neg (mt hp.mp h)]
    rfl
end Option

variable {α β : Type*}

def Cell.map (f : α → β) (c : Cell α) : Cell β := ⟨c.prev, c.next, f c.val⟩

variable (f : α → β) (c : Cell α)

@[simp] theorem Cell.map_prev : (c.map f).prev = c.prev := rfl

@[simp] theorem Cell.map_next : (c.map f).next = c.next := rfl

@[simp] theorem Cell.map_val : (c.map f).val = f c.val := rfl

namespace Heap

def map (f : α → β) (h : Heap α) : Heap β := fun a => (h a).map (Cell.map f)

variable (f : α → β)

@[simp] theorem map_apply (h : Heap α) (a : ℕ) : h.map f a = (h a).map (Cell.map f) := rfl

@[simp] theorem read_map (h : Heap α) (p : Option ℕ) :
    (h.map f).read p = (h.read p).map (Cell.map f) := by
  cases p with
  | none => rfl
  | some a => rfl

theorem map_update (h : Heap α) (a : ℕ) (c : Option (Cell α)) :
    map f (Function.update h a c) = Function.update (h.map f) a (c.map (Cell.map f)) := by
  funext b
  by_cases hb : b = a
  · subst hb
    simp
  · simp [hb]

@[simp] theorem map_alloc (h : Heap α) (a : ℕ) (v : α) :
    (h.alloc a v).map f = (h.map f).alloc a (f v) :=
  map_update f h a _

@[simp] theorem map_free (h : Heap α) (a : ℕ) : (h.free a).map f = (h.map f).free a :=
  map_update f h a none

theorem write_map (h : Heap α) (p : Option ℕ) {g : Cell α → Cell α}
    {g' : Cell β → Cell β} (hg : ∀ c, g' (c.map f) = (g c).map f) :
    (h.map f).write p g' = (h.write p g).map (map f) := by
  cases p with
  | none => rfl
  | some a =>
    show ((h a).map (Cell.map f)).map (fun _ => (h.map f).modify a g') =
      ((h a).map fun _ => h.modify a g).map (map f)
    cases hc : h a with
    | none => rfl
    | some c =>
      simp only [Option.map_some, modify, map_update, map_apply, hc, hg]
end Heap
end DoublyLinked
