import Snort.Hash.XHash
import Snort.Structures.Recency

/-!
# Runs of the general hash table

A run is compared with its history: the data that each key was added with last, as
long as it was neither removed nor recovered, and the time at which each key was
last added or found. A key is found with its data, and the node that is recovered is
the oldest one that may go. The limit on the nodes is kept until the table is emptied,
since that takes the limit away.
-/

namespace Snort.Hash
open Function Nat List Option DoublyLinked
open Chained (Node)
open XHash
open Function (update)

/-- A call. `refuse` is what `anrfree` answers during the call. -/
inductive XOp (κ δ : Type) where
  | add (key : κ) (data : Option δ) (refuse : κ → XData δ → Bool)
  | getNode (key : κ) (refuse : κ → XData δ → Bool)
  | find (key : κ)
  | remove (key : κ)
  | makeEmpty

inductive XAnswer (δ : Type) where
  | result (r : XResult)
  | node (p : Option ℕ)
  | data (d : XData δ)
deriving DecidableEq

/-- Calls that may add a node. -/
def XOp.adds {κ δ : Type} : XOp κ δ → Bool
  | .add .. => true
  | .getNode .. => true
  | _ => false

/-- What `anrfree` answers. -/
def XOp.refuse {κ δ : Type} : XOp κ δ → κ → XData δ → Bool
  | .add _ _ refuse => refuse
  | .getNode _ refuse => refuse
  | _ => fun _ _ => true

/-- The history of a table: the data passed to the last successful call of `xhash_add` for a key
that is still there, null if it came with `xhash_get_node`, and the time at which a key was last
asked for. -/
structure XHistory (κ δ : Type) where
  table : XHash κ δ
  value : κ → Option (Option δ)
  stamp : κ → ℕ
  now : ℕ

variable {κ δ : Type} [DecidableEq κ]

def XHash.step (cfg : XConfig) (hash : κ → ℕ) (x : XHash κ δ) :
    XOp κ δ → Option (XAnswer δ × XHash κ δ)
  | .add key data refuse => (x.add cfg hash key data refuse).map fun r => (.result r.1, r.2)
  | .getNode key refuse => (x.getNode cfg hash key refuse).map fun r => (.node r.1, r.2)
  | .find key => (x.find hash key).map fun r => (.data r.1, r.2)
  | .remove key => (x.remove cfg hash key).map fun r => (.result r.1, r.2)
  | .makeEmpty => (x.makeEmpty cfg).map fun x => (.result .ok, x)

namespace XHistory

/-- A table with a limit on its nodes. -/
def start (x : XHash κ δ) (max : ℕ) : XHistory κ δ :=
  ⟨x.setMaxNodes max, fun _ => none, fun _ => 0, 1⟩

section Steps
variable (cfg : XConfig) (hash : κ → ℕ) (r : XHistory κ δ)

/-- The values without that of a key that was recovered. -/
def keep : Option κ → κ → Option (Option δ)
  | none => r.value
  | some key => update r.value key none

def valueAfter (recovered : Option κ) : XOp κ δ → XAnswer δ → κ → Option (Option δ)
  | .add key data _, .result .ok => update (r.keep recovered) key (some data)
  | .getNode key _, .node (some _) =>
    if r.value key = none then update (r.keep recovered) key (some none) else r.value
  | .remove key, .result .ok => update r.value key none
  | .makeEmpty, _ => fun _ => none
  | _, _ => r.value

/-- A key is used by adding it and by asking for it. -/
def stampAfter : XOp κ δ → κ → ℕ
  | .add key _ _ => update r.stamp key r.now
  | .getNode key _ => update r.stamp key r.now
  | .find key => update r.stamp key r.now
  | _ => r.stamp

/-- The table at the beginning of a call. -/
def ready : XHash κ δ := { r.table with recovered := none }

def step (op : XOp κ δ) : Option (XAnswer δ × XHistory κ δ) :=
  (r.ready.step cfg hash op).map fun (answer, table) =>
    (answer, ⟨table, r.valueAfter table.recovered op answer, r.stampAfter op, r.now + 1⟩)

def run : XHistory κ δ → List (XOp κ δ) → Option (List (XAnswer δ) × XHistory κ δ)
  | r, [] => some ([], r)
  | r, op :: ops => do
    let (answer, r) ← r.step cfg hash op
    let (answers, r) ← r.run ops
    some (answer :: answers, r)

/-- No node is added while the table has no limit. -/
def capped : XHistory κ δ → List (XOp κ δ) → Bool
  | _, [] => true
  | r, op :: ops =>
    (!op.adds || r.table.maxNodes ≠ 0) &&
      match r.step cfg hash op with
      | some (_, r) => r.capped ops
      | none => true
end Steps

/-- Data that was added, and the data pointer of its node. What is in a node that was added without
data is up to the user. -/
def Holds (cfg : XConfig) (data : Option δ) (d : XData δ) : Prop :=
  match data with
  | some v => d = some (some v)
  | none => cfg.inlineData = true ∨ d = none

/-- The table has the keys of the history with their data, the latest used first. -/
structure Consistent (cfg : XConfig) (hash : κ → ℕ) (r : XHistory κ δ)
    (used : List (Node κ (XData δ))) (free : List (ℕ × XData δ)) : Prop where
  rep : r.table.Rep hash used free
  present : ∀ n ∈ used, ∃ data, r.value n.key = some data ∧ Holds cfg data n.data
  absent : ∀ key, key ∉ used.map Node.key → r.value key = none
  ordered : Recency.Ordered Node.key r.stamp used
  stamp_lt : ∀ key, r.stamp key < r.now

/-- A key that may go and is the oldest such key: all keys used before it are refused. -/
def Oldest (cfg : XConfig) (r : XHistory κ δ) (used : List (Node κ (XData δ)))
    (refuse : κ → XData δ → Bool) (key : κ) : Prop :=
  ∃ n ∈ used, n.key = key ∧ ¬XHash.Refused cfg refuse n ∧
    ∀ m ∈ used, r.stamp m.key < r.stamp n.key → XHash.Refused cfg refuse m

/-- What a call does: the lists after it are consistent, it recovers at most the oldest key that may
go, and the other keys stay. Only emptying the table changes the limit. -/
structure StepOk (cfg : XConfig) (hash : κ → ℕ) (op : XOp κ δ) (r r' : XHistory κ δ)
    (used used' : List (Node κ (XData δ))) (free free' : List (ℕ × XData δ)) : Prop where
  consistent : Consistent cfg hash r' used' free'
  oldest : ∀ key, r'.table.recovered = some key → Oldest cfg r used op.refuse key
  kept : ∀ n ∈ used, r'.table.recovered ≠ some n.key → op ≠ .remove n.key → op ≠ .makeEmpty →
    n ∈ used'
  limit : r'.table.maxNodes = r.table.maxNodes ∨ r'.table.maxNodes = 0 ∧ used' = []
  room : r'.table.maxNodes ≠ 0 → used.length + free.length ≤ r'.table.maxNodes →
    used'.length + free'.length ≤ r'.table.maxNodes
  grows : op.adds = false → used'.length ≤ used.length

namespace Consistent
variable {cfg : XConfig} {hash : κ → ℕ} {r : XHistory κ δ} {used l₁ l₂ : List (Node κ (XData δ))}
  {free : List (ℕ × XData δ)} {n : Node κ (XData δ)} {key : κ} {x : XHash κ δ} {op : XOp κ δ}
  {refuse : κ → XData δ → Bool} {free' : List (ℕ × XData δ)}
omit [DecidableEq κ] in
theorem holds_newData (cfg : XConfig) (data : Option δ) (old : XData δ) :
    Holds cfg data (newData cfg data old) := by
  unfold Holds newData
  cases data with
  | some v => cases cfg.inlineData <;> rfl
  | none =>
    cases hinline : cfg.inlineData
    · exact .inr rfl
    · exact .inl rfl

section
variable (h : Consistent cfg hash r used free)
include h
omit [DecidableEq κ] in
theorem stamp_lt_succ (key : κ) : r.stamp key < r.now + 1 :=
  lt_succ_of_lt (h.stamp_lt key)

theorem use_lt (key k : κ) : update r.stamp key r.now k < r.now + 1 := by
  rcases eq_or_ne k key with rfl | hne
  · rw [update_self]
    exact lt_succ_self _
  · rw [update_of_ne hne]
    exact h.stamp_lt_succ k

/-- A key that is not there is asked for, and the table stays as it is. -/
theorem missed (hkey : key ∉ used.map Node.key)
    (hrep : x.Rep hash used free) (hlimit : x.maxNodes = r.table.maxNodes)
    (hrecovered : x.recovered = none) :
    StepOk cfg hash op r ⟨x, r.value, update r.stamp key r.now, r.now + 1⟩ used used free
      free where
  consistent := {
    rep := hrep
    present := h.present
    absent := h.absent
    ordered := h.ordered.congr fun m hm => update_of_ne
      (fun heq : m.key = key => hkey (heq ▸ mem_map_of_mem hm)) _ _
    stamp_lt := h.use_lt key }
  oldest _ hk := absurd (hrecovered.symm.trans hk) nofun
  kept _ hm _ _ _ := hm
  limit := .inl hlimit
  room _ hle := hle
  grows _ := le_refl _

omit [DecidableEq κ] in
theorem emptied (hrep : x.Rep hash [] free') (hlimit : x.maxNodes = 0)
    (hrecovered : x.recovered = none) :
    StepOk cfg hash .makeEmpty r ⟨x, fun _ => none, r.stamp, r.now + 1⟩ used [] free free' where
  consistent := ⟨hrep, nofun, fun _ _ => rfl, .nil, h.stamp_lt_succ⟩
  oldest _ hk := absurd (hrecovered.symm.trans hk) nofun
  kept _ _ _ _ hne := absurd rfl hne
  limit := .inr ⟨hlimit, rfl⟩
  room hne := absurd hlimit hne
  grows _ := zero_le _
end

section
variable (h : Consistent cfg hash r (l₁ ++ n :: l₂) free)
include h
omit [DecidableEq κ] in
theorem key_ne {m : Node κ (XData δ)}
    (hm : m ∈ l₁ ++ l₂) : m.key ≠ n.key := fun heq => by
  have hkeys := h.rep.nodes.keys
  have hperm : ((l₁ ++ n :: l₂).map Node.key).Perm (n.key :: (l₁ ++ l₂).map Node.key) :=
    perm_middle.map Node.key
  exact (nodup_cons.mp (hperm.nodup_iff.mp hkeys)).1 (heq ▸ mem_map_of_mem hm)

theorem found (hrep : x.Rep hash (n :: (l₁ ++ l₂)) free) (hlimit : x.maxNodes = r.table.maxNodes)
    (hrecovered : x.recovered = none) :
    StepOk cfg hash op r ⟨x, r.value, update r.stamp n.key r.now, r.now + 1⟩
      (l₁ ++ n :: l₂) (n :: (l₁ ++ l₂)) free free := by
  have hperm : (n :: (l₁ ++ l₂)).Perm (l₁ ++ n :: l₂) := perm_middle.symm
  have hsub : (l₁ ++ l₂).Sublist (l₁ ++ n :: l₂) := (sublist_cons_self _ _).append_left _
  exact {
    consistent := {
      rep := hrep
      present := fun m hm => h.present m (hperm.mem_iff.mp hm)
      absent := fun k hk => h.absent k fun hmem => hk ((hperm.map Node.key).mem_iff.mpr hmem)
      ordered := (h.ordered.sublist hsub).use (fun m hm => h.key_ne hm) fun m _ => h.stamp_lt _
      stamp_lt := h.use_lt n.key }
    oldest := fun k hk => absurd (hrecovered.symm.trans hk) nofun
    kept := fun m hm _ _ _ => hperm.mem_iff.mpr hm
    limit := .inl hlimit
    room := fun _ hle => hperm.length_eq.symm ▸ hle
    grows := fun _ => le_of_eq hperm.length_eq }

omit [DecidableEq κ] in
/-- The node that was recovered is the oldest one that may go. -/
theorem oldest_of_made (hn : ¬XHash.Refused cfg refuse n)
    (hl₂ : ∀ m ∈ l₂, XHash.Refused cfg refuse m) :
    Oldest cfg r (l₁ ++ n :: l₂) refuse n.key := by
  refine ⟨n, mem_append_right _ mem_cons_self, rfl, hn, fun m hm hlt => ?_⟩
  obtain ⟨-, -, hbefore⟩ := pairwise_append.mp h.ordered
  rcases mem_append.mp hm with hm | hm
  · exact absurd hlt (lt_asymm (hbefore m hm n mem_cons_self))
  · rcases mem_cons.mp hm with rfl | hm
    · exact absurd hlt (lt_irrefl _)
    · exact hl₂ m hm

theorem removed (hrep : x.Rep hash (l₁ ++ l₂) free') (hlength : free'.length ≤ free.length + 1)
    (hlimit : x.maxNodes = r.table.maxNodes) (hrecovered : x.recovered = none) :
    StepOk cfg hash (.remove n.key) r ⟨x, update r.value n.key none, r.stamp, r.now + 1⟩
      (l₁ ++ n :: l₂) (l₁ ++ l₂) free free' := by
  have hsub : (l₁ ++ l₂).Sublist (l₁ ++ n :: l₂) := (sublist_cons_self _ _).append_left _
  have hmem {m : Node κ (XData δ)} (hm : m ∈ l₁ ++ n :: l₂) (hne : m.key ≠ n.key) : m ∈ l₁ ++ l₂ :=
    (perm_middle.mem_iff.mp hm |> mem_cons.mp).resolve_left fun heq => hne (heq ▸ rfl)
  refine ⟨⟨hrep, fun m hm => ?_, fun k hk => ?_, h.ordered.sublist hsub, h.stamp_lt_succ⟩,
    fun k hk => absurd (hrecovered.symm.trans hk) nofun, fun m hm _ hne _ => ?_, .inl hlimit,
    fun _ hle => ?_, fun _ => hsub.length_le⟩
  · obtain ⟨d, hd, hholds⟩ := h.present m (hsub.subset hm)
    exact ⟨d, (update_of_ne (h.key_ne hm) _ _).trans hd, hholds⟩
  · rcases eq_or_ne k n.key with rfl | hne
    · exact update_self _ _ _
    · refine (update_of_ne hne _ _).trans (h.absent k fun hin => ?_)
      obtain ⟨m, hm, rfl⟩ := mem_map.mp hin
      exact hk (mem_map_of_mem (hmem hm hne))
  · exact hmem hm fun heq => hne (by rw [heq])
  · simp only [length_append, length_cons] at hle ⊢
    omega
end

variable {used' : List (Node κ (XData δ))}

theorem added {x₀ x₁ : XHash κ δ} {y : ℕ × XData δ} (h : Consistent cfg hash r used free)
    (hkey : key ∉ used.map Node.key)
    (hmade : XHash.Made cfg hash refuse x₀ x₁ used used' free free' y)
    (hlimit₀ : x₀.maxNodes = r.table.maxNodes) (hnone : x₀.recovered = none) {data : Option δ}
    (hrep : x.Rep hash (⟨y.1, key, newData cfg data y.2⟩ :: used') free')
    (hlimit : x.maxNodes = x₀.maxNodes) (hrecovered : x.recovered = x₁.recovered)
    (hrefuse : op.refuse = refuse) (hadds : op.adds = true) :
    StepOk cfg hash op r ⟨x, update (r.keep x.recovered) key (some data),
      update r.stamp key r.now, r.now + 1⟩ used
      (⟨y.1, key, newData cfg data y.2⟩ :: used') free free' := by
  have hout {m : Node κ (XData δ)} (hm : m ∈ used') : m.key ≠ key := fun heq =>
    hkey (heq ▸ mem_map_of_mem (hmade.subset.subset hm))
  -- The nodes that stay keep their values, and a key that is not there any more has none.
  have hkeep : (∀ m ∈ used', r.keep x.recovered m.key = r.value m.key) ∧
      ∀ k, k ∉ used'.map Node.key → r.keep x.recovered k = none := by
    rcases hmade.cause with ⟨rfl, hsame⟩ | ⟨l₁, n, l₂, rfl, rfl, hvictim, -⟩
    · rw [hrecovered, hsame, hnone]
      exact ⟨fun _ _ => rfl, h.absent⟩
    · rw [hrecovered, hvictim]
      refine ⟨fun m hm => update_of_ne (h.key_ne hm) _ _, fun k hk => ?_⟩
      rcases eq_or_ne k n.key with rfl | hne
      · exact update_self _ _ _
      · refine (update_of_ne hne _ _).trans (h.absent k fun hmem => ?_)
        obtain ⟨m, hm, rfl⟩ := mem_map.mp hmem
        refine hk (mem_map_of_mem ?_)
        refine (perm_middle.mem_iff.mp hm |> mem_cons.mp).resolve_left fun heq => hne ?_
        rw [heq]
  refine ⟨⟨hrep, fun m hm => ?_, fun k hk => ?_, ?_, h.use_lt key⟩, fun k hk => ?_,
    fun m hm hne _ _ => ?_, .inl (hlimit.trans hlimit₀), fun hne hle => ?_, fun hfalse => ?_⟩
  · rcases mem_cons.mp hm with rfl | hm
    · exact ⟨data, update_self _ _ _, holds_newData cfg data y.2⟩
    · obtain ⟨d, hd, hholds⟩ := h.present m (hmade.subset.subset hm)
      refine ⟨d, ?_, hholds⟩
      show update (r.keep x.recovered) key (some data) m.key = _
      rw [update_of_ne (hout hm), hkeep.1 m hm, hd]
  · have hk' : k ≠ key := ne_of_not_mem_cons hk
    show update (r.keep x.recovered) key (some data) k = _
    rw [update_of_ne hk']
    exact hkeep.2 k (not_mem_of_not_mem_cons hk)
  · exact (h.ordered.sublist hmade.subset).use (a := ⟨y.1, key, newData cfg data y.2⟩)
      (fun m hm => hout hm) fun m _ => h.stamp_lt _
  · rcases hmade.cause with ⟨rfl, hsame⟩ | ⟨l₁, n, l₂, rfl, rfl, hvictim, hn, hl₂⟩
    · exact absurd ((hrecovered.trans (hsame.trans hnone)).symm.trans hk) nofun
    · obtain rfl : n.key = k := some.inj ((hrecovered.trans hvictim).symm.trans hk)
      exact hrefuse ▸ h.oldest_of_made hn hl₂
  · refine mem_cons_of_mem _ ?_
    rcases hmade.cause with ⟨rfl, -⟩ | ⟨l₁, n, l₂, rfl, rfl, hvictim, -⟩
    · exact hm
    · refine (perm_middle.mem_iff.mp hm |> mem_cons.mp).resolve_left fun heq => hne ?_
      rw [heq]
      exact hrecovered.trans hvictim
  · rw [hlimit] at hne hle ⊢
    have hroom := hmade.room hne hle
    rw [length_cons]
    omega
  · exact absurd (hadds.symm.trans hfalse) nofun
end Consistent

/-! ## Steps and runs -/

section Runs
variable {cfg : XConfig} {hash : κ → ℕ} {r : XHistory κ δ} {used : List (Node κ (XData δ))}
  {free : List (ℕ × XData δ)}
  {op : XOp κ δ} {x x' : XHash κ δ} {key : κ} {refuse : κ → XData δ → Bool} {p : Option ℕ}

theorem step_eq {answer : XAnswer δ} {table : XHash κ δ}
    (hstep : r.ready.step cfg hash op = some (answer, table)) :
    r.step cfg hash op = some (answer,
      ⟨table, r.valueAfter table.recovered op answer, r.stampAfter op, r.now + 1⟩) := by
  unfold XHistory.step
  rw [hstep]
  rfl

omit [DecidableEq κ] in
theorem Consistent.ready (h : Consistent cfg hash r used free) : r.ready.Rep hash used free :=
  ⟨h.rep.nodes, h.rep.count, h.rep.splay⟩

theorem add_found {a : ℕ} (hfind : x.findNodeRow hash key = some (some a, x')) (data : Option δ)
    (refuse : κ → XData δ → Bool) :
    x.step cfg hash (.add key data refuse) = some (.result .intable, x') ∧
      x.step cfg hash (.getNode key refuse) = some (.node (some a), x') := by
  unfold XHash.step XHash.add XHash.getNode
  dsimp only
  rw [hfind]
  exact ⟨rfl, rfl⟩

theorem add_missed {data : Option δ} (hfind : x.findNodeRow hash key = some (none, x))
    (hinsert : x.insert cfg hash key data refuse = some (p, x')) :
    x.step cfg hash (.add key data refuse) =
      some (.result (if p = none then .nomem else .ok), x') := by
  unfold XHash.step XHash.add
  dsimp only
  rw [hfind]
  simp only [bind_eq_bind, bind_some]
  rw [hinsert]
  cases p <;> rfl

theorem getNode_missed (hfind : x.findNodeRow hash key = some (none, x))
    (hinsert : x.insert cfg hash key none refuse = some (p, x')) :
    x.step cfg hash (.getNode key refuse) = some (.node p, x') := by
  unfold XHash.step XHash.getNode
  dsimp only
  rw [hfind]
  simp only [bind_eq_bind, bind_some]
  rw [hinsert]
  rfl

section
variable (h : Consistent cfg hash r used free)
include h
variable (key : κ)

theorem Consistent.step_add (data : Option δ) (refuse : κ → XData δ → Bool) :
    ∃ answer r' used' free', r.step cfg hash (.add key data refuse) = some (answer, r') ∧
      StepOk cfg hash (.add key data refuse) r r' used used' free free' := by
  rcases h.ready.findNodeRow key with
    ⟨hkey, hfind⟩ | ⟨l₁, n, l₂, nodes, gnode, rfl, rfl, hfind, hrep⟩
  · rcases h.ready.insert hkey cfg data refuse with
      ⟨anrTries, hinsert⟩ | ⟨x₁, x', used', free', y, hmade, hinsert, hrep, hlimit, hrecovered⟩
    · exact ⟨_, _, used, free, step_eq (add_missed hfind hinsert),
        h.missed hkey ⟨h.rep.nodes, h.rep.count, h.rep.splay⟩ rfl rfl⟩
    · exact ⟨_, _, _, free', step_eq (add_missed hfind hinsert),
        h.added hkey hmade rfl rfl hrep hlimit hrecovered rfl rfl⟩
  · exact ⟨_, _, _, free, step_eq (add_found hfind data refuse).1, h.found hrep rfl rfl⟩

theorem Consistent.step_getNode (refuse : κ → XData δ → Bool) :
    ∃ answer r' used' free', r.step cfg hash (.getNode key refuse) = some (answer, r') ∧
      StepOk cfg hash (.getNode key refuse) r r' used used' free free' := by
  rcases h.ready.findNodeRow key with
    ⟨hkey, hfind⟩ | ⟨l₁, n, l₂, nodes, gnode, rfl, rfl, hfind, hrep⟩
  · have hvalue : r.value key = none := h.absent key hkey
    rcases h.ready.insert hkey cfg none refuse with
      ⟨anrTries, hinsert⟩ | ⟨x₁, x', used', free', y, hmade, hinsert, hrep, hlimit, hrecovered⟩
    · exact ⟨_, _, used, free, step_eq (getNode_missed hfind hinsert),
        h.missed hkey ⟨h.rep.nodes, h.rep.count, h.rep.splay⟩ rfl rfl⟩
    · refine ⟨_, _, ⟨y.1, key, newData cfg none y.2⟩ :: used', free',
        step_eq (getNode_missed hfind hinsert), ?_⟩
      unfold valueAfter
      dsimp only
      rw [if_pos hvalue]
      exact h.added hkey hmade rfl rfl hrep hlimit hrecovered rfl rfl
  · obtain ⟨data, hvalue, -⟩ := h.present n (mem_append_right _ mem_cons_self)
    refine ⟨_, _, n :: (l₁ ++ l₂), free, step_eq (add_found hfind none refuse).2, ?_⟩
    unfold valueAfter
    dsimp only
    rw [if_neg (hvalue ▸ some_ne_none data)]
    exact h.found hrep rfl rfl

theorem Consistent.find :
    ∃ d x', r.table.find hash key = some (d, x') ∧
      match r.value key with
      | none => d = none
      | some data => Holds cfg data d := by
  unfold XHash.find
  rcases h.rep.findNodeRow key with
    ⟨hkey, hfind⟩ | ⟨l₁, n, l₂, nodes, gnode, rfl, rfl, hfind, hrep⟩
  · rw [hfind, h.absent key hkey]
    exact ⟨none, _, rfl, rfl⟩
  · obtain ⟨data, hvalue, hholds⟩ := h.present n (mem_append_right _ mem_cons_self)
    rw [hfind, hvalue]
    refine ⟨n.data, { r.table with nodes, gnode }, ?_, hholds⟩
    simp only [bind_eq_bind, bind_some]
    rw [Heap.read_some, show nodes.links n.addr = some ⟨none, _, n.data⟩
      from hrep.nodes.lists.used.1]
    rfl

theorem Consistent.step_find :
    ∃ answer r' used' free', r.step cfg hash (.find key) = some (answer, r') ∧
      StepOk cfg hash (.find key) r r' used used' free free' := by
  rcases h.ready.findNodeRow key with
    ⟨hkey, hfind⟩ | ⟨l₁, n, l₂, nodes, gnode, rfl, rfl, hfind, hrep⟩
  · refine ⟨.data none, _, used, free, step_eq ?_, h.missed hkey h.ready rfl rfl⟩
    unfold XHash.step XHash.find
    dsimp only
    rw [hfind]
    rfl
  · refine ⟨.data n.data, _, _, free, step_eq ?_, h.found hrep rfl rfl⟩
    unfold XHash.step XHash.find
    dsimp only
    rw [hfind]
    simp only [bind_eq_bind, bind_some]
    rw [Heap.read_some, show nodes.links n.addr = some ⟨none, _, n.data⟩
      from hrep.nodes.lists.used.1]
    rfl

theorem Consistent.step_remove :
    ∃ answer r' used' free', r.step cfg hash (.remove key) = some (answer, r') ∧
      StepOk cfg hash (.remove key) r r' used used' free free' := by
  have hrow := h.ready.nodes.findRow key
  cases hfind : used.find? fun m => m.key = key with
  | none =>
    rw [hfind] at hrow
    have hremove : r.ready.step cfg hash (.remove key) = some (.result .err, r.ready) := by
      unfold XHash.step XHash.remove
      dsimp only
      rw [hrow]
      rfl
    exact ⟨_, _, used, free, step_eq hremove, {
        consistent := ⟨h.ready, h.present, h.absent, h.ordered, h.stamp_lt_succ⟩
        oldest := fun _ hk => absurd hk nofun
        kept := fun _ hm _ _ _ => hm
        limit := .inl rfl
        room := fun _ hle => hle
        grows := fun _ => le_refl _ }⟩
  | some n =>
    rw [hfind] at hrow
    obtain rfl : n.key = key := by simpa using find?_some hfind
    obtain ⟨l₁, l₂, rfl⟩ := append_of_mem (mem_of_find?_eq_some hfind)
    obtain ⟨nodes, gnode, memused, free', hfree, hrep, hlength, -⟩ := h.ready.freeNode cfg
    refine ⟨.result .ok, _, _, free', step_eq ?_, h.removed hrep hlength rfl rfl⟩
    unfold XHash.step XHash.remove
    dsimp only
    rw [hrow]
    simp only [map_some, bind_eq_bind, bind_some]
    rw [hfree]
    rfl

/-- Every call returns and does what it should. -/
theorem Consistent.step (op : XOp κ δ) :
    ∃ answer r' used' free', r.step cfg hash op = some (answer, r') ∧
      StepOk cfg hash op r r' used used' free free' := by
  cases op with
  | add key data refuse => exact h.step_add key data refuse
  | getNode key refuse => exact h.step_getNode key refuse
  | find key => exact h.step_find key
  | remove key => exact h.step_remove key
  | makeEmpty =>
    obtain ⟨x', free', hempty, hrep, hlimit, hrecovered⟩ := h.ready.makeEmpty cfg
    exact ⟨.result .ok, _, [], free', step_eq (congrArg (Option.map _) hempty),
      h.emptied hrep hlimit hrecovered⟩
end

/-- The nodes in use are within the limit, and as long as the table has it the free ones are,
too. -/
def Within (max : ℕ) (r : XHistory κ δ) (used : List (Node κ (XData δ)))
    (free : List (ℕ × XData δ)) : Prop :=
  used.length ≤ max ∧
    (r.table.maxNodes ≠ 0 → r.table.maxNodes = max ∧ used.length + free.length ≤ max)

omit [DecidableEq κ] in
theorem Within.step {max : ℕ} {r' : XHistory κ δ} {free' : List (ℕ × XData δ)}
    (h : Within max r used free) (hok : StepOk cfg hash op r r' used used' free free')
    (hcap : op.adds = true → r.table.maxNodes ≠ 0) : Within max r' used' free' := by
  rcases hok.limit with hlimit | ⟨hzero, rfl⟩
  · by_cases hmax : r.table.maxNodes = 0
    · have hadds : op.adds = false := by
        rw [Bool.eq_false_iff]
        exact fun hadds => hcap hadds hmax
      exact ⟨le_trans (hok.grows hadds) h.1, fun hne => absurd (hlimit.trans hmax) hne⟩
    · obtain ⟨heq, hle⟩ := h.2 hmax
      have hroom := hok.room (hlimit ▸ hmax) (hlimit ▸ heq ▸ hle)
      rw [hlimit, heq] at hroom
      exact ⟨le_trans (le_add_right _ _) hroom, fun _ => ⟨hlimit.trans heq, hroom⟩⟩
  · exact ⟨zero_le _, fun hne => absurd hzero hne⟩

/-- Every run returns, and within the limit if no node is added while the table has none. -/
theorem Consistent.run (h : Consistent cfg hash r used free) (max : ℕ) (ops : List (XOp κ δ)) :
    ∃ answers r' used' free', r.run cfg hash ops = some (answers, r') ∧
      Consistent cfg hash r' used' free' ∧
      (Within max r used free → r.capped cfg hash ops = true → Within max r' used' free') := by
  induction ops generalizing r used free with
  | nil => exact ⟨[], r, used, free, rfl, h, fun hwithin _ => hwithin⟩
  | cons op ops ih =>
    obtain ⟨answer, r₁, used₁, free₁, hstep, hok⟩ := h.step op
    obtain ⟨answers, r', used', free', hrun, h', hlimit⟩ := ih hok.consistent
    refine ⟨answer :: answers, r', used', free', ?_, h', fun hwithin hcapped => ?_⟩
    · unfold XHistory.run
      rw [hstep]
      simp only [bind_eq_bind, bind_some]
      rw [hrun]
      rfl
    · unfold capped at hcapped
      rw [hstep, Bool.and_eq_true] at hcapped
      obtain ⟨hcap, hcapped⟩ := hcapped
      refine hlimit (hwithin.step hok fun hadds => ?_) hcapped
      rw [hadds] at hcap
      simpa using hcap

omit [DecidableEq κ] in
theorem Consistent.start {nrows : ℕ} (hpos : 0 < nrows)
    (hnew : new cfg nrows = some x) (hash : κ → ℕ) (max : ℕ) :
    Consistent cfg hash (XHistory.start x max) [] [] ∧ Within max (XHistory.start x max) [] [] := by
  unfold new at hnew
  split at hnew
  · obtain rfl := some.inj hnew
    exact ⟨⟨⟨Chained.Rep.empty hash hpos, rfl, Int.one_pos⟩, nofun, fun _ _ => rfl, .nil,
      fun _ => one_pos⟩, zero_le _, fun _ => ⟨rfl, zero_le _⟩⟩
  · exact absurd hnew nofun
end Runs
end XHistory

open XHistory in
/-- In every run a key is found with the data of its last successful call of `xhash_add`, unless it
was removed or recovered since, and a call recovers at most the oldest key that may go, the other
ones staying. If no node is added after the table was emptied, there are never more nodes than the
limit. -/
theorem xHash_run {cfg : XConfig} {x : XHash κ δ} {nrows : ℕ} (hpos : 0 < nrows)
    (hnew : new cfg nrows = some x) (hash : κ → ℕ) (max : ℕ) (ops : List (XOp κ δ)) :
    ∃ answers r used free, (XHistory.start x max).run cfg hash ops = some (answers, r) ∧
      Consistent cfg hash r used free ∧
      (∀ key, ∃ d x', r.table.find hash key = some (d, x') ∧
        match r.value key with
        | none => d = none
        | some data => XHistory.Holds cfg data d) ∧
      (∀ op, ∃ answer r' used' free', r.step cfg hash op = some (answer, r') ∧
        StepOk cfg hash op r r' used used' free free') ∧
      ((XHistory.start x max).capped cfg hash ops = true →
        r.table.count = used.length ∧ used.length ≤ max) := by
  obtain ⟨hstart, hwithin⟩ := Consistent.start hpos hnew hash max
  obtain ⟨answers, r, used, free, hrun, h, hlimit⟩ := hstart.run max ops
  exact ⟨answers, r, used, free, hrun, h, h.find, h.step,
    fun hcapped => ⟨h.rep.count, (hlimit hwithin hcapped).1⟩⟩

/-- A table for two nodes. The first try to add a third key is refused; the second one takes the
place of the key that was not found since. -/
theorem xHash_run_two :
    0 < 4 ∧ ∃ (x : XHash ℕ Char) (answers : List (XAnswer Char)) (r : XHistory ℕ Char),
      new ⟨64, false, 0, true, true, true⟩ 4 = some x ∧
      (XHistory.start x 2).run ⟨64, false, 0, true, true, true⟩ id
        [.add 1 (some 'a') fun _ _ => true, .add 2 (some 'b') fun _ _ => true, .find 1,
          .add 3 (some 'c') fun _ _ => true, .add 3 (some 'c') fun _ _ => false, .find 2, .remove 1,
          .getNode 5 fun _ _ => false, .makeEmpty, .find 5] = some (answers, r) ∧
      r.table.count ≤ 2 := by
  have hnew : new ⟨64, false, 0, true, true, true⟩ 4 =
      some (⟨Chained.empty 4, 0, 0, 40, none, 1, 0, 0, none⟩ : XHash ℕ Char) := rfl
  obtain ⟨answers, r, used, free, hrun, -, -, -, hlimit⟩ := xHash_run (by decide) hnew id 2
    [.add 1 (some 'a') fun _ _ => true, .add 2 (some 'b') fun _ _ => true, .find 1,
      .add 3 (some 'c') fun _ _ => true, .add 3 (some 'c') fun _ _ => false, .find 2, .remove 1,
      .getNode 5 fun _ _ => false, .makeEmpty, .find 5]
  obtain ⟨hcount, hle⟩ := hlimit (by decide +kernel)
  exact ⟨by decide, _, answers, r, hnew, hrun, hcount ▸ hle⟩

/-- The limit is lost when the table is emptied: there are two nodes in a table for one. -/
theorem xHash_makeEmpty_limit :
    ((new ⟨64, false, 0, true, false, true⟩ 4).bind fun x =>
        (XHistory.start x 1).run ⟨64, false, 0, true, false, true⟩ id
          [.add 1 (some 'a') fun _ _ => false, .makeEmpty, .add 2 (some 'b') fun _ _ => false,
            .add 3 (some 'c') fun _ _ => false, .find 2, .find 3]).map
      (fun r => (r.1, r.2.table.count)) =
      some ([.result .ok, .result .ok, .result .ok, .result .ok, .data (some (some 'b')),
        .data (some (some 'c'))], 2) := by decide +kernel
end Snort.Hash
