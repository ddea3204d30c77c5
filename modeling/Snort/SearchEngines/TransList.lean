import Mathlib

/-!
# Transition lists

The linked lists of transitions (`trans_node_t`, `bnfa_trans_node_t`) from which
the `acsmx2` and `bnfa` engines build their rows. New transitions go to the head
of a list, an existing one is changed in place, so a key occurs once.
-/

namespace Snort
open List

structure TransNode where
  key : UInt8
  nextState : ℕ
deriving DecidableEq, Repr

/-- The transitions of one state, with a key for each. -/
structure TransList where
  nodes : List TransNode
  keys_nodup : (nodes.map TransNode.key).Nodup

namespace TransList
variable {input input' : UInt8} {next : ℕ}

def empty : TransList := ⟨[], nodup_nil⟩

/-- The walk `while (t) { if (t->key == input) return t->next_state; ... }`. -/
def lookupNode (input : UInt8) : List TransNode → Option ℕ
  | [] => none
  | t :: ts => if t.key = input then some t.nextState else lookupNode input ts

/-- Reset the next state of the node with the given key. -/
def resetNode (input : UInt8) (next : ℕ) : List TransNode → List TransNode
  | [] => []
  | t :: ts =>
    if t.key = input then { t with nextState := next } :: ts
    else t :: resetNode input next ts

def lookup (l : TransList) (input : UInt8) : Option ℕ :=
  lookupNode input l.nodes

theorem map_key_resetNode (input : UInt8) (next : ℕ) : ∀ ts : List TransNode,
    (resetNode input next ts).map TransNode.key = ts.map TransNode.key
  | [] => rfl
  | t :: ts => by
      by_cases h : t.key = input
      · simp [resetNode, h]
      · simp [resetNode, h, map_key_resetNode input next ts]

theorem lookupNode_eq_none_iff : ∀ {ts : List TransNode},
    lookupNode input ts = none ↔ input ∉ ts.map TransNode.key
  | [] => by simp [lookupNode]
  | t :: ts => by
      by_cases h : t.key = input
      · simp [lookupNode, h]
      · rw [lookupNode, if_neg h, lookupNode_eq_none_iff, map_cons, mem_cons, not_or]
        exact ⟨fun hn => ⟨fun he => h he.symm, hn⟩, fun hn => hn.2⟩

variable (l : TransList)

theorem length_nodes_eq_zero_iff : l.nodes.length = 0 ↔ ∀ c, l.lookup c = none := by
  constructor
  · intro h c
    rw [lookup, length_eq_zero_iff.mp h]
    rfl
  · intro h
    rw [length_eq_zero_iff, eq_nil_iff_forall_not_mem]
    intro t ht
    exact lookupNode_eq_none_iff.mp (h t.key) (mem_map_of_mem ht)

/-- Change the transition on `input`, or add it at the head. -/
def put (l : TransList) (input : UInt8) (next : ℕ) : TransList :=
  if h : lookupNode input l.nodes = none then
    ⟨⟨input, next⟩ :: l.nodes, nodup_cons.mpr ⟨lookupNode_eq_none_iff.mp h, l.keys_nodup⟩⟩
  else
    ⟨resetNode input next l.nodes, by
      rw [map_key_resetNode]
      exact l.keys_nodup⟩

theorem lookupNode_resetNode_self : ∀ {ts : List TransNode},
    lookupNode input ts ≠ none → lookupNode input (resetNode input next ts) = some next
  | [], h => absurd rfl h
  | t :: ts, h => by
      by_cases hk : t.key = input
      · simp [resetNode, lookupNode, hk]
      · rw [lookupNode, if_neg hk] at h
        rw [resetNode, if_neg hk, lookupNode, if_neg hk]
        exact lookupNode_resetNode_self h

theorem lookupNode_resetNode_of_ne (hne : input' ≠ input) :
    ∀ {ts : List TransNode}, lookupNode input' (resetNode input next ts) = lookupNode input' ts
  | [] => rfl
  | t :: ts => by
      by_cases hk : t.key = input
      · simp [resetNode, lookupNode, hk, hne.symm]
      · simp only [resetNode, if_neg hk, lookupNode, lookupNode_resetNode_of_ne hne]

theorem lookup_put_self (input : UInt8) (next : ℕ) :
    (l.put input next).lookup input = some next := by
  by_cases h : lookupNode input l.nodes = none
  · simp [lookup, put, h, lookupNode]
  · simp only [lookup, put, h, dite_false]
    exact lookupNode_resetNode_self h

theorem lookup_put_of_ne (next : ℕ)
    (hne : input' ≠ input) : (l.put input next).lookup input' = l.lookup input' := by
  by_cases h : lookupNode input l.nodes = none
  · simp [lookup, put, h, lookupNode, hne.symm]
  · simp only [lookup, put, h, dite_false]
    exact lookupNode_resetNode_of_ne hne

/-! ## Full rows -/

/-- Write the transitions into a zeroed row of 256 cells; `narrow` is the cast to
the type of a cell. -/
def convToFull (narrow : ℕ → ℕ) (l : TransList) : List ℕ :=
  l.nodes.foldl (fun full t => full.set t.key.toNat (narrow t.nextState)) (List.replicate 256 0)

variable (narrow : ℕ → ℕ)

theorem getElem?_foldl_set (c : UInt8) :
    ∀ (ts : List TransNode) (full : List ℕ), (ts.map TransNode.key).Nodup → full.length = 256 →
      (ts.foldl (fun full t => full.set t.key.toNat (narrow t.nextState)) full).length = 256 ∧
      (ts.foldl (fun full t => full.set t.key.toNat (narrow t.nextState)) full)[c.toNat]? =
        match lookupNode c ts with
        | some m => some (narrow m)
        | none => full[c.toNat]? := by
  intro ts
  induction ts with
  | nil => intro full _ hlen; exact ⟨hlen, rfl⟩
  | cons t ts ih =>
    intro full hnd hlen
    rw [map_cons, nodup_cons] at hnd
    obtain ⟨hlen', hget⟩ := ih (full.set t.key.toNat (narrow t.nextState)) hnd.2 (by simpa)
    refine ⟨hlen', ?_⟩
    rw [foldl_cons, hget, lookupNode]
    by_cases hk : t.key = c
    · subst hk
      -- the key does not occur again, so nothing overwrites the cell
      rw [lookupNode_eq_none_iff.mpr hnd.1, if_pos rfl]
      have hlt := t.key.toNat_lt
      exact getElem?_set_self (by omega)
    · rw [if_neg hk]
      have hne : t.key.toNat ≠ c.toNat := fun he => hk (UInt8.toNat_inj.mp he)
      rw [getElem?_set_ne hne]

theorem length_convToFull : (l.convToFull narrow).length = 256 :=
  (getElem?_foldl_set narrow 0 l.nodes _ l.keys_nodup length_replicate).1

theorem getElem?_convToFull (c : UInt8) :
    (l.convToFull narrow)[c.toNat]? = some ((l.lookup c).elim 0 narrow) := by
  have hlt := c.toNat_lt
  rw [convToFull, (getElem?_foldl_set narrow c l.nodes _ l.keys_nodup length_replicate).2, lookup]
  cases lookupNode c l.nodes with
  | some m => rfl
  | none =>
    rw [getElem?_replicate, if_pos hlt]
    rfl
end TransList
end Snort
