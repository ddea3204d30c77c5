import Snort.Sfip.IpVarParse

/-!
# The brackets of an accepted list

A text that is accepted has no bracket left open if every opening bracket begins
an item. It may have closing brackets too many: one that directly follows an
element is taken for the end of the element, and one at the end of the text is
accepted. One that stands elsewhere is found by the check of the parser.
-/

namespace Snort.Sfip
open List

/-! ## Brackets -/

variable {c : Char} {rest str before behind : Str}

/-- The number of open brackets behind a text, if there never is a closing bracket too many. -/
def depth : ℕ → Str → Option ℕ
  | n, [] => some n
  | n, c :: rest =>
    if c = '[' then depth (n + 1) rest
    else if c = ']' then if n = 0 then none else depth (n - 1) rest
    else depth n rest

/-- The brackets are balanced, and properly nested. -/
def Balanced (str : Str) : Prop := depth 0 str = some 0

instance (str : Str) : Decidable (Balanced str) := inferInstanceAs (Decidable (_ = _))

/-- The places of a text: between the items, behind a negation, and inside an element. -/
inductive Place where
  | between
  | negated
  | inside
deriving DecidableEq

/-- The place behind a character that is no bracket. -/
def Place.next : Place → Char → Place
  | .between, c => if endsToken c then .between else if c = '!' then .negated else .inside
  | .negated, c => if isNegation c then .negated else .inside
  | .inside, c => if endsToken c then .between else .inside

/-- Every opening bracket begins an item, so it does not stand inside an element. The text is read
up to the first closing bracket that is one too many; `n` brackets are open. -/
def opensItems : Place → ℕ → Str → Bool
  | _, _, [] => true
  | place, n, c :: rest =>
    if c = '[' then place ≠ .inside && opensItems .between (n + 1) rest
    else if c = ']' then n = 0 || opensItems .between (n - 1) rest
    else opensItems (place.next c) n rest

/-- Besides, the first closing bracket that is one too many, if there is one, begins an item as
well, and something stands behind it. -/
def beginsItems : Place → ℕ → Str → Bool
  | _, _, [] => true
  | place, n, c :: rest =>
    if c = '[' then place ≠ .inside && beginsItems .between (n + 1) rest
    else if c = ']' then
      if n = 0 then place ≠ .inside && rest ≠ [] else beginsItems .between (n - 1) rest
    else beginsItems (place.next c) n rest

theorem depth_cons_of_ne {n : ℕ} (ho : c ≠ '[') (hc : c ≠ ']') :
    depth n (c :: rest) = depth n rest := by
  rw [depth, if_neg ho, if_neg hc]

theorem beginsItems_cons_of_ne {place : Place} {n : ℕ} (ho : c ≠ '[') (hc : c ≠ ']') :
    beginsItems place n (c :: rest) = beginsItems (place.next c) n rest := by
  rw [beginsItems, if_neg ho, if_neg hc]

theorem depth_append (n : ℕ) (s t : Str) : depth n (s ++ t) = (depth n s).bind (depth · t) := by
  induction s generalizing n with
  | nil => rfl
  | cons c s ih =>
    rw [cons_append, depth, depth]
    split_ifs
    · exact ih _
    · rfl
    · exact ih _
    · exact ih n

theorem isNegation_ne_bracket (h : isNegation c = true) : c ≠ '[' ∧ c ≠ ']' := by
  constructor <;> rintro rfl <;> exact absurd h (by decide)

theorem endsToken_isspace (h : isspace c = true) : endsToken c = true := by
  simp [endsToken, h]

/-! ## The steps of the parser -/

theorem findEndToken_depth {k : ℕ} (hk : 0 < k) (h : findEndToken k str = some (before, behind)) :
    str = before ++ ']' :: behind ∧ depth k before = some 1 := by
  induction str generalizing k before with
  | nil => exact absurd h nofun
  | cons c rest ih =>
    rw [findEndToken] at h
    by_cases ho : c = '['
    · rw [if_pos ho] at h
      obtain ⟨⟨before', behind'⟩, hrest, heq⟩ := Option.map_eq_some_iff.mp h
      obtain ⟨rfl, rfl⟩ := Prod.mk.inj heq
      obtain ⟨rfl, hdepth⟩ := ih (k := k + 1) (Nat.succ_pos k) (by exact_mod_cast hrest)
      exact ⟨rfl, by rw [depth, if_pos ho]; exact hdepth⟩
    · by_cases hc : c = ']'
      · dsimp only at h
        split_ifs at h with hzero
        · obtain ⟨rfl, rfl⟩ := Prod.mk.inj (Option.some.inj h)
          obtain rfl : k = 1 := by omega
          exact ⟨by rw [hc]; rfl, rfl⟩
        · obtain ⟨⟨before', behind'⟩, hrest, heq⟩ := Option.map_eq_some_iff.mp h
          obtain ⟨rfl, rfl⟩ := Prod.mk.inj heq
          obtain ⟨k, rfl⟩ : ∃ j, k = j + 1 := ⟨k - 1, by omega⟩
          obtain ⟨rfl, hdepth⟩ := ih (k := k) (by omega) (by
            rw [← hrest]
            congr 1
            omega)
          refine ⟨rfl, ?_⟩
          rw [depth, if_neg ho, if_pos hc, if_neg (Nat.succ_ne_zero k)]
          exact hdepth
      · rw [if_neg ho, if_neg hc] at h
        rw [if_neg (by omega)] at h
        obtain ⟨⟨before', behind'⟩, hrest, heq⟩ := Option.map_eq_some_iff.mp h
        obtain ⟨rfl, rfl⟩ := Prod.mk.inj heq
        obtain ⟨rfl, hdepth⟩ := ih hk hrest
        exact ⟨rfl, by rw [depth_cons_of_ne ho hc]; exact hdepth⟩

theorem depth_list {list : Str} (h : findEndToken 1 list = some (before, behind)) :
    depth 0 ('[' :: list) = depth 0 behind := by
  obtain ⟨rfl, hdepth⟩ := findEndToken_depth (k := 1) Nat.one_pos (by exact_mod_cast h)
  rw [depth, if_pos rfl, depth_append, hdepth]
  rfl

theorem beginsItems_behindNegations {n : ℕ} (h : beginsItems .negated n str = true) :
    beginsItems .negated n (behindNegations str) = true ∧
      depth n str = depth n (behindNegations str) := by
  unfold behindNegations
  induction str with
  | nil => exact ⟨rfl, rfl⟩
  | cons c rest ih =>
    by_cases hc : isNegation c = true
    · obtain ⟨ho, hcl⟩ := isNegation_ne_bracket hc
      rw [beginsItems_cons_of_ne ho hcl, Place.next, if_pos hc] at h
      rw [dropWhile_cons_of_pos hc, depth_cons_of_ne ho hcl]
      exact ih h
    · rw [dropWhile_cons_of_neg hc]
      exact ⟨h, rfl⟩

/-- What stands behind the negations is a list, a closing bracket that is checked, or an
element. -/
def ReadsItem (d : Char) (more : Str) : Prop :=
  if d = '[' then beginsItems .between 1 more = true
  else if d = ']' then more ≠ []
  else beginsItems .inside 0 more = true

theorem readsItem_of_place {place : Place} {d : Char} {more : Str}
    (h : beginsItems place 0 (d :: more) = true)
    (hnext : d ≠ '[' → d ≠ ']' → place.next d = .inside) : ReadsItem d more := by
  rw [beginsItems] at h
  unfold ReadsItem
  by_cases ho : d = '['
  · rw [if_pos ho] at h ⊢
    exact (Bool.and_eq_true_iff.mp h).2
  · rw [if_neg ho] at h ⊢
    by_cases hc : d = ']'
    · rw [if_pos hc] at h ⊢
      exact of_decide_eq_true (Bool.and_eq_true_iff.mp h).2
    · rw [if_neg hc] at h ⊢
      rwa [hnext ho hc] at h

theorem beginsItems_item (h : beginsItems .between 0 (c :: rest) = true)
    (hsep : ¬(isspace c || c = ',') = true) :
    depth 0 (c :: rest) = depth 0 (behindNegations (c :: rest)) ∧
      ∀ d more, behindNegations (c :: rest) = d :: more → ReadsItem d more := by
  by_cases hneg : c = '!'
  · subst hneg
    have hrest : beginsItems .negated 0 rest = true := h
    obtain ⟨hbegins, hdepth⟩ := beginsItems_behindNegations hrest
    have hskip : behindNegations ('!' :: rest) = behindNegations rest := rfl
    refine ⟨by rw [hskip, ← hdepth]; rfl, fun d more hd => ?_⟩
    rw [hskip] at hd
    have hd' : isNegation d = false := by
      have hhead := head?_dropWhile_not isNegation rest
      rw [← behindNegations, hd] at hhead
      exact hhead
    rw [hd] at hbegins
    exact readsItem_of_place hbegins fun _ _ => by rw [Place.next, hd']; rfl
  · have hneg' : isNegation c = false := by
      simp_all [isNegation]
    have hskip : behindNegations (c :: rest) = c :: rest :=
      dropWhile_cons_of_neg (by rw [hneg']; decide)
    rw [hskip]
    refine ⟨rfl, ?_⟩
    rintro d more ⟨⟩
    refine readsItem_of_place h fun _ hc => ?_
    rw [Place.next, if_neg (by simp_all [endsToken]), if_neg hneg]

theorem beginsItems_token (h : beginsItems .inside 0 rest = true) (d : Char) :
    beginsItems .between 0 (behindToken (d :: rest)) = true ∧
      depth 0 rest = depth 0 (behindToken (d :: rest)) := by
  unfold behindToken
  rw [drop_succ_cons, drop_zero]
  induction rest with
  | nil => exact ⟨rfl, rfl⟩
  | cons c rest ih =>
    have ho : c ≠ '[' := by
      rintro rfl
      exact absurd h (by simp [beginsItems])
    have hc : c ≠ ']' := by
      rintro rfl
      exact absurd h (by simp [beginsItems])
    rw [beginsItems_cons_of_ne ho hc, Place.next] at h
    rw [depth_cons_of_ne ho hc]
    by_cases hend : endsToken c = true
    · rw [if_pos hend] at h
      rw [dropWhile_cons_of_neg (by rw [hend]; decide)]
      exact ⟨h, rfl⟩
    · rw [if_neg hend] at h
      rw [dropWhile_cons_of_pos (by rw [Bool.not_eq_true] at hend; rw [hend]; rfl)]
      exact ih h

/-- The text behind a list is read on from outside the list. -/
theorem beginsItems_behind_close {place : Place} {k : ℕ} (hdepth : depth k before = some 1)
    (h : beginsItems place k (before ++ ']' :: behind) = true) :
    beginsItems .between 0 behind = true := by
  induction before generalizing place k with
  | nil =>
    obtain rfl : k = 1 := Option.some.inj hdepth
    exact h
  | cons c before ih =>
    rw [depth] at hdepth
    rw [cons_append, beginsItems] at h
    split_ifs at hdepth h
    · exact ih hdepth (Bool.and_eq_true_iff.mp h).2
    · exact ih hdepth h
    · exact ih hdepth h

/-- An element or a variable: the text behind it is that of a shorter list. -/
theorem beginsItems_element {d : Char} {more : Str}
    (hbegins : beginsItems .between 0 (c :: rest) = true)
    (hsep : ¬(isspace c || c = ',') = true) (hd : behindNegations (c :: rest) = d :: more)
    (ho : d ≠ '[') (hc : d ≠ ']') :
    beginsItems .between 0 (behindToken (d :: more)) = true ∧
      depth 0 (c :: rest) = depth 0 (behindToken (d :: more)) := by
  obtain ⟨hskip, hitem⟩ := beginsItems_item hbegins hsep
  have hmore := hitem d more hd
  rw [ReadsItem, if_neg ho, if_neg hc] at hmore
  rw [hskip, hd, depth_cons_of_ne ho hc]
  exact beginsItems_token hmore d

/-- An accepted text closes what it opens if its brackets begin items. -/
theorem accepted_balanced {p : InetPton} {table : Option Vartable} {parse : Parse}
    {negation : Bool} (hbegins : beginsItems .between 0 str = true)
    (h : (sfvarParseIplist p table parse str negation).1 = .success) : Balanced str := by
  unfold Balanced
  fun_induction sfvarParseIplist p table parse str negation with
  | case1 => rfl
  | case2 parse negation c rest hsep ih =>
    have hends : endsToken c = true := by
      simp only [Bool.or_eq_true, decide_eq_true_eq] at hsep
      rcases hsep with hspace | hcomma
      · exact endsToken_isspace hspace
      · rw [hcomma]
        decide
    have ho : c ≠ '[' := by
      rintro rfl
      exact absurd hsep (by decide)
    have hc : c ≠ ']' := by
      rintro rfl
      exact absurd hsep (by decide)
    rw [depth_cons_of_ne ho hc]
    rw [beginsItems_cons_of_ne ho hc, Place.next, if_pos hends] at hbegins
    exact ih hbegins h
  | case3 => exact absurd h nofun
  | case4 _ _ c rest hsep _ list hlist listTok behind hend _ _ _ ih =>
    -- the list is skipped as a whole
    obtain ⟨hskip, hitem⟩ := beginsItems_item hbegins hsep
    have hmore := hitem '[' list hlist
    obtain ⟨hsplit, hdepth⟩ := findEndToken_depth Nat.one_pos (by exact_mod_cast hend)
    rw [ReadsItem, if_pos rfl, hsplit] at hmore
    rw [hskip, hlist, depth_list hend]
    exact ih (beginsItems_behind_close hdepth hmore) h
  | case5 _ _ _ _ _ _ _ _ _ _ _ hfail _ => exact (hfail _ (Prod.ext h rfl)).elim
  | case6 _ _ c rest hsep _ name hname _ _ ih =>
    obtain ⟨hbehind, hdepth⟩ := beginsItems_element hbegins hsep hname (by decide) (by decide)
    rw [hdepth]
    exact ih hbehind h
  | case7 _ _ _ _ _ _ _ _ hfail => exact (hfail _ (Prod.ext h rfl)).elim
  | case8 _ _ c rest hsep hclose =>
    have hmore := (beginsItems_item hbegins hsep).2 ']' [] hclose
    exact absurd rfl hmore
  | case9 => exact absurd h nofun
  | case10 _ _ c rest hsep _ hnil =>
    rw [(beginsItems_item hbegins hsep).1, hnil]
    rfl
  | case11 _ _ c rest hsep _ d more ho _ hc hd _ _ ih =>
    obtain ⟨hbehind, hdepth⟩ := beginsItems_element hbegins hsep hd ho hc
    rw [hdepth]
    exact ih hbehind h
  | case12 _ _ _ _ _ _ _ _ _ _ _ _ hfail => exact (hfail _ (Prod.ext h rfl)).elim

example : beginsItems .between 0 "10.0.0.0/8 ],192.168.0.0/16".toList = true ∧
    beginsItems .between 0 "10.0.0.0/8]".toList = false ∧
    beginsItems .between 0 "]".toList = false := by
  decide

/-- Where there is no closing bracket too many, the opening ones decide. -/
theorem beginsItems_of_depth {place : Place} {n : ℕ} (hdepth : (depth n str).isSome)
    (hopens : opensItems place n str = true) : beginsItems place n str = true := by
  induction str generalizing place n with
  | nil => rfl
  | cons c rest ih =>
    rw [depth] at hdepth
    rw [opensItems] at hopens
    rw [beginsItems]
    split_ifs at hdepth hopens ⊢ with ho hc hn
    · obtain ⟨hplace, hrest⟩ := Bool.and_eq_true_iff.mp hopens
      exact Bool.and_eq_true_iff.mpr ⟨hplace, ih hdepth hrest⟩
    · exact absurd hdepth nofun
    · refine ih hdepth ((Bool.or_eq_true_iff.mp hopens).resolve_left ?_)
      simpa using hn
    · exact ih hdepth hopens
end Snort.Sfip
