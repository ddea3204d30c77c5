import Mathlib

/-!
# Lists in the order of a rank

A set is kept as a list in which the rank of the elements increases. An element
whose rank is already there is dropped. As long as different elements have
different ranks, insertion and union are those of the sets, and the list is
determined by its elements.
-/

namespace RankedList
open List
variable {α : Type*} (rank : α → ℕ)

def Sorted (l : List α) : Prop := l.Pairwise fun a b => rank a < rank b

def insert (a : α) : List α → List α
  | [] => [a]
  | b :: l =>
    if rank a < rank b then a :: b :: l
    else if rank b < rank a then b :: insert a l
    else b :: l

def union (l₁ l₂ : List α) : List α :=
  match l₁, l₂ with
  | [], l₂ => l₂
  | l₁, [] => l₁
  | a :: t₁, b :: t₂ =>
    if rank a < rank b then a :: union t₁ (b :: t₂)
    else if rank b < rank a then b :: union (a :: t₁) t₂
    else a :: union t₁ t₂
termination_by l₁.length + l₂.length

variable {rank} {a b : α} {l l₁ l₂ : List α}

theorem sorted_cons : Sorted rank (a :: l) ↔ (∀ b ∈ l, rank a < rank b) ∧ Sorted rank l :=
  pairwise_cons

theorem mem_of_mem_insert (h : b ∈ insert rank a l) : b = a ∨ b ∈ l := by
  induction l with
  | nil => exact .inl (mem_singleton.mp h)
  | cons c l ih =>
    unfold insert at h
    split_ifs at h
    · exact mem_cons.mp h
    · rcases mem_cons.mp h with rfl | h
      · exact .inr mem_cons_self
      · exact (ih h).imp_right (mem_cons_of_mem c)
    · exact .inr h

theorem Sorted.insert (h : Sorted rank l) (a : α) : Sorted rank (insert rank a l) := by
  induction l with
  | nil => exact pairwise_singleton _ _
  | cons c l ih =>
    obtain ⟨hc, hl⟩ := sorted_cons.mp h
    unfold RankedList.insert
    split_ifs with hlt hgt
    · refine sorted_cons.mpr ⟨fun b hb => ?_, h⟩
      rcases mem_cons.mp hb with rfl | hb
      · exact hlt
      · exact Nat.lt_trans hlt (hc b hb)
    · refine sorted_cons.mpr ⟨fun b hb => ?_, ih hl⟩
      rcases mem_of_mem_insert hb with rfl | hb
      · exact hgt
      · exact hc b hb
    · exact h

/-- An element whose rank no other element has is in the list. -/
theorem mem_insert_iff (hinj : ∀ b ∈ l, rank b = rank a → b = a) :
    b ∈ insert rank a l ↔ b = a ∨ b ∈ l := by
  refine ⟨mem_of_mem_insert, ?_⟩
  induction l with
  | nil => rintro (rfl | h) <;> simp_all [insert]
  | cons c l ih =>
    have ih := ih fun b hb => hinj b (mem_cons_of_mem c hb)
    unfold insert
    split_ifs with hlt hgt
    · exact mem_cons.mpr
    · rintro (rfl | hb)
      · exact mem_cons_of_mem c (ih (.inl rfl))
      · rcases mem_cons.mp hb with rfl | hb
        · exact mem_cons_self
        · exact mem_cons_of_mem c (ih (.inr hb))
    · have hca : c = a := hinj c mem_cons_self (by omega)
      rintro (rfl | hb)
      · rw [hca]
        exact mem_cons_self
      · exact hb

theorem mem_of_mem_union (h : b ∈ union rank l₁ l₂) : b ∈ l₁ ∨ b ∈ l₂ := by
  fun_induction union rank l₁ l₂ with
  | case1 l₂ => exact .inr h
  | case2 l₁ _ => exact .inl h
  | case3 a t₁ c t₂ hlt ih =>
    rcases mem_cons.mp h with rfl | h
    · exact .inl mem_cons_self
    · exact (ih h).imp_left (mem_cons_of_mem a)
  | case4 a t₁ c t₂ hlt hgt ih =>
    rcases mem_cons.mp h with rfl | h
    · exact .inr mem_cons_self
    · exact (ih h).imp_right (mem_cons_of_mem c)
  | case5 a t₁ c t₂ hlt hgt ih =>
    rcases mem_cons.mp h with rfl | h
    · exact .inl mem_cons_self
    · exact (ih h).imp (mem_cons_of_mem a) (mem_cons_of_mem c)

theorem Sorted.union (h₁ : Sorted rank l₁) (h₂ : Sorted rank l₂) :
    Sorted rank (union rank l₁ l₂) := by
  fun_induction RankedList.union rank l₁ l₂ with
  | case1 l₂ => exact h₂
  | case2 l₁ _ => exact h₁
  | case3 a t₁ c t₂ hlt ih =>
    obtain ⟨ha, ht⟩ := sorted_cons.mp h₁
    refine sorted_cons.mpr ⟨fun b hb => ?_, ih ht h₂⟩
    rcases mem_of_mem_union hb with hb | hb
    · exact ha b hb
    · rcases mem_cons.mp hb with rfl | hb
      · exact hlt
      · exact Nat.lt_trans hlt ((sorted_cons.mp h₂).1 b hb)
  | case4 a t₁ c t₂ hlt hgt ih =>
    obtain ⟨hc, ht⟩ := sorted_cons.mp h₂
    refine sorted_cons.mpr ⟨fun b hb => ?_, ih h₁ ht⟩
    rcases mem_of_mem_union hb with hb | hb
    · rcases mem_cons.mp hb with rfl | hb
      · exact hgt
      · exact Nat.lt_trans hgt ((sorted_cons.mp h₁).1 b hb)
    · exact hc b hb
  | case5 a t₁ c t₂ hlt hgt ih =>
    obtain ⟨ha, ht₁⟩ := sorted_cons.mp h₁
    obtain ⟨hc, ht₂⟩ := sorted_cons.mp h₂
    refine sorted_cons.mpr ⟨fun b hb => ?_, ih ht₁ ht₂⟩
    rcases mem_of_mem_union hb with hb | hb
    · exact ha b hb
    · have := hc b hb
      omega

theorem mem_union_iff (hinj : ∀ a ∈ l₁, ∀ b ∈ l₂, rank a = rank b → a = b) :
    b ∈ union rank l₁ l₂ ↔ b ∈ l₁ ∨ b ∈ l₂ := by
  refine ⟨mem_of_mem_union, ?_⟩
  fun_induction union rank l₁ l₂ with
  | case1 l₂ => simp
  | case2 l₁ _ => simp
  | case3 a t₁ c t₂ hlt ih =>
    have ih := ih fun x hx => hinj x (mem_cons_of_mem a hx)
    rintro (hb | hb)
    · rcases mem_cons.mp hb with rfl | hb
      · exact mem_cons_self
      · exact mem_cons_of_mem a (ih (.inl hb))
    · exact mem_cons_of_mem a (ih (.inr hb))
  | case4 a t₁ c t₂ hlt hgt ih =>
    have ih := ih fun x hx y hy => hinj x hx y (mem_cons_of_mem c hy)
    rintro (hb | hb)
    · exact mem_cons_of_mem c (ih (.inl hb))
    · rcases mem_cons.mp hb with rfl | hb
      · exact mem_cons_self
      · exact mem_cons_of_mem c (ih (.inr hb))
  | case5 a t₁ c t₂ hlt hgt ih =>
    have ih := ih fun x hx y hy =>
      hinj x (mem_cons_of_mem a hx) y (mem_cons_of_mem c hy)
    have hac : a = c := hinj a mem_cons_self c mem_cons_self (by omega)
    rintro (hb | hb)
    · rcases mem_cons.mp hb with rfl | hb
      · exact mem_cons_self
      · exact mem_cons_of_mem a (ih (.inl hb))
    · rcases mem_cons.mp hb with rfl | hb
      · rw [hac]
        exact mem_cons_self
      · exact mem_cons_of_mem a (ih (.inr hb))

theorem Sorted.nodup (h : Sorted rank l) : l.Nodup := by
  refine List.Pairwise.imp (fun {a b} hab => ?_) h
  rintro rfl
  exact Nat.lt_irrefl _ hab

theorem Sorted.eq_of_mem_iff (h₁ : Sorted rank l₁) (h₂ : Sorted rank l₂)
    (hmem : ∀ a, a ∈ l₁ ↔ a ∈ l₂) : l₁ = l₂ := by
  have hperm : l₁.Perm l₂ := (perm_ext_iff_of_nodup h₁.nodup h₂.nodup).mpr hmem
  exact List.Perm.eq_of_pairwise (fun a b _ _ hab hba => absurd hba (Nat.lt_asymm hab)) h₁ h₂ hperm
end RankedList
