import Snort.Flow.FlowCacheGet

/-!
# Runs of the cache of flows

From the start of a protocol on, any sequence of calls keeps the list of flows seen
in one direction, as long as `prune_unis` does not run into the sentinel: it may not
start with more flows on the list than it leaves, all of which were blocked. And
`get` gives a flow exactly if there is something to find or to prune for it.
-/

namespace Snort.Flow
open List Option DoublyLinked
open Chained (Node)
open Snort.Hash (ZHash ZTable)
open Snort.Hash.ZTable (cells mem_cells_of_used)
open FlowCache

namespace FlowCache
variable {κ : Type} [DecidableEq κ] {hash : κ → ℕ} {c c' : FlowCache κ} {t : ZTable κ ℕ}
  {unis : List ℕ}

/-! ## The start -/

omit [DecidableEq κ] in
theorem Inv.new (hash : κ → ℕ) (config : FlowConfig) :
    Inv hash (FlowCache.new config) (ZTable.new : ZTable κ ℕ) [] where
  table := ZHash.Rep.new hash (Nat.succ_pos _)
  nodup := nodup_nil
  flow x hx := absurd hx not_mem_nil
  list := ⟨⟨rfl, rfl, trivial⟩, (by decide : [0, 1].Nodup)⟩
  off x hx := absurd hx not_mem_nil
  sentinel x hx := absurd hx not_mem_nil
  head_flow := by
    refine ⟨.zero, ?_, by decide⟩
    show (if 0 < config.maxSessions + 2 then some CachedFlow.zero else none) = _
    rw [if_pos (Nat.succ_pos _)]
  mem a ha := absurd ha not_mem_nil
  count := rfl
  released r hr := absurd hr not_mem_nil

/-- A flow that can be pushed. -/
structure Fresh (c : FlowCache κ) (t : ZTable κ ℕ) (a : ℕ) : Prop where
  flow : ∃ f, c.flows a = some f
  links : c.links a = some ⟨none, none, ()⟩
  head : a ≠ c.uniHead
  tail : a ≠ c.uniTail
  out : a ∉ (cells t).map Prod.snd

omit [DecidableEq κ] in
theorem Inv.push (h : Inv hash c t unis) {a : ℕ} (ha : Fresh c t a) :
    ∃ c', c.push a = some c' ∧ Inv hash c' (t.push a).2 unis ∧ Frame c c' ∧ c'.links = c.links ∧
      ∀ b, b ≠ a → c'.flows b = c.flows b := by
  obtain ⟨f, hf⟩ := ha.flow
  obtain ⟨table, htable, hrep⟩ := h.table.push a
  have hperm := ZTable.cells_push t a
  refine ⟨FlowCache.setFlow { c with table } a { f with key := some t.nextAddr }, ?_, ?_,
    ⟨rfl, rfl, rfl⟩, rfl, fun b hb => Function.update_of_ne hb _ _⟩
  · unfold FlowCache.push
    rw [htable, hf]
    rfl
  · have hne {x : ℕ × ℕ} (hx : x ∈ cells t) : x.2 ≠ a := fun heq =>
      ha.out (heq ▸ mem_map_of_mem hx)
    exact {
      table := hrep
      nodup := (hperm.map _).nodup_iff.mpr (nodup_cons.mpr ⟨ha.out, h.nodup⟩)
      flow := fun x hx => by
        rcases mem_cons.mp (hperm.mem_iff.mp hx) with rfl | hx
        · exact ⟨_, Function.update_self _ _ _, rfl⟩
        · obtain ⟨g, hg, hkey⟩ := h.flow x hx
          exact ⟨g, (Function.update_of_ne (hne hx) _ _).trans hg, hkey⟩
      list := h.list
      off := fun x hx hout => by
        rcases mem_cons.mp (hperm.mem_iff.mp hx) with rfl | hx
        · exact ha.links
        · exact h.off x hx hout
      sentinel := fun x hx => by
        rcases mem_cons.mp (hperm.mem_iff.mp hx) with rfl | hx
        · exact ⟨ha.head, ha.tail⟩
        · exact h.sentinel x hx
      head_flow := by
        obtain ⟨g, hg, hblocked⟩ := h.head_flow
        exact ⟨g, (Function.update_of_ne ha.head.symm _ _).trans hg, hblocked⟩
      mem := h.mem
      count := h.count
      released := h.released }

omit [DecidableEq κ] in
theorem Inv.pushAll (h : Inv hash c t unis) {l : List ℕ} (hl : l.Nodup)
    (hfresh : ∀ a ∈ l, Fresh c t a) :
    ∃ c' t', c.pushAll l = some c' ∧ Inv hash c' t' unis ∧ Frame c c' := by
  induction l generalizing c t with
  | nil => exact ⟨c, t, rfl, h, .refl c⟩
  | cons a l ih =>
    obtain ⟨hnot, hl⟩ := nodup_cons.mp hl
    obtain ⟨c₁, hpush, h₁, hframe, hlinks, hflows⟩ := h.push (hfresh a mem_cons_self)
    obtain ⟨c', t', hrest, h', hframe'⟩ := ih h₁ hl fun b hb => by
      have hb' := hfresh b (mem_cons_of_mem _ hb)
      have hne : b ≠ a := fun heq => hnot (heq ▸ hb)
      refine ⟨by rw [hflows b hne]; exact hb'.flow, by rw [hlinks]; exact hb'.links,
        hframe.uniHead ▸ hb'.head, hframe.uniTail ▸ hb'.tail, fun hmem => ?_⟩
      have hperm := ZTable.cells_push t a
      rcases mem_cons.mp ((hperm.map Prod.snd).mem_iff.mp hmem) with heq | hmem
      · exact hne heq
      · exact hb'.out hmem
    refine ⟨c', t', ?_, h', hframe.trans hframe'⟩
    unfold pushAll
    rw [hpush]
    exact hrest

omit [DecidableEq κ] in
theorem Inv.initProto (hash : κ → ℕ) (config : FlowConfig) :
    ∃ c t, initProto config = some c ∧ Inv hash c (t : ZTable κ ℕ) [] := by
  have hnodup : ((List.range config.maxSessions).map (· + 2)).Nodup :=
    nodup_range.map fun a b heq => Nat.add_right_cancel heq
  obtain ⟨c, t, hpush, h, -⟩ := (Inv.new hash config).pushAll hnodup fun a ha => by
    obtain ⟨i, hi, rfl⟩ := mem_map.mp ha
    have hlt : i + 2 < config.maxSessions + 2 := Nat.add_lt_add_right (mem_range.mp hi) 2
    refine ⟨⟨.zero, if_pos hlt⟩, ?_, Nat.succ_ne_zero _, ?_, not_mem_nil⟩
    · unfold FlowCache.new
      dsimp only
      rw [if_neg (Nat.succ_ne_zero _), if_neg (by omega), if_pos hlt]
    · show i + 2 ≠ 1
      omega
  exact ⟨c, t, hpush, h⟩

/-! ## Calls -/

/-- The calls of the cache, and `write`, by which other parts of the program change a flow. -/
inductive FlowOp (κ : Type) where
  | get (key : κ) (now : ℕ)
  | find (key : κ) (now : ℕ)
  | unlinkUni (a : ℕ)
  | release (a : ℕ) (reason : PruneReason)
  | pruneStale (thetime : ℕ) (saveMe : Option ℕ)
  | pruneUnis
  | pruneExcess (saveMe : Option ℕ)
  | pruneOne (reason : PruneReason)
  | timeout (standby : ℕ → Bool) (numFlows thetime : ℕ)
  | purge
  | write (a lastDataSeen : ℕ) (flags : BitVec 32) (offloads : ℕ)

def step (hash : κ → ℕ) (c : FlowCache κ) : FlowOp κ → Option (FlowCache κ)
  | .get key now => (c.get hash key now).map Prod.snd
  | .find key now => (c.find hash key now).map Prod.snd
  | .unlinkUni a => c.unlinkUni a
  | .release a reason => (c.release hash a reason).map Prod.snd
  | .pruneStale thetime saveMe => (c.pruneStale hash thetime saveMe).map Prod.snd
  | .pruneUnis => (c.pruneUnis hash).map Prod.snd
  | .pruneExcess saveMe => (c.pruneExcess hash saveMe).map Prod.snd
  | .pruneOne reason => (c.pruneOne hash reason).map Prod.snd
  | .timeout standby numFlows thetime => (c.timeout hash standby numFlows thetime).map Prod.snd
  | .purge => (c.purge hash).map Prod.snd
  | .write a lastDataSeen flags offloads =>
    (c.flows a).map fun f =>
      c.setFlow a { f with lastDataSeen, sessionFlags := flags, offloadsPending := offloads }

def run (hash : κ → ℕ) : FlowCache κ → List (FlowOp κ) → Option (FlowCache κ)
  | c, [] => some c
  | c, op :: ops => (c.step hash op).bind fun c => c.run hash ops

/-- A flow that is handed to a call is in the table, and where `prune_unis` is run the walk through
the list does not come to the sentinel. -/
def Meets (c : FlowCache κ) (t : ZTable κ ℕ) (unis : List ℕ) : FlowOp κ → Prop
  | .get key now => (t.lookup key).isSome ∨ t.free ≠ [] ∨
      c.oldestStale t (now % 2 ^ 32) = true ∨ c.UniSafe unis
  | .pruneUnis => c.UniSafe unis
  | .unlinkUni a => a ∈ t.used.map Node.data
  | .release a _ => a ∈ t.used.map Node.data
  | .write a _ _ _ => a ∈ t.used.map Node.data
  | _ => True

/-- All steps of a run meet the condition. -/
def Allowed (hash : κ → ℕ) : FlowCache κ → List (FlowOp κ) → Prop
  | _, [] => True
  | c, op :: ops => (∀ t unis, Inv hash c t unis → c.Meets t unis op) ∧
      ∀ c', c.step hash op = some c' → Allowed hash c' ops

namespace Inv

omit [DecidableEq κ] in
theorem of_returns {pruned : ℕ} {result : Option (ℕ × FlowCache κ)}
    (hreturns : Returns hash c t pruned result) :
    ∃ c' t' unis', result.map Prod.snd = some c' ∧ Inv hash c' t' unis' ∧ Frame c c' := by
  obtain ⟨k, c', t', unis', rfl, hinv, hframe, -⟩ := hreturns
  exact ⟨c', t', unis', rfl, hinv, hframe⟩

theorem step (h : Inv hash c t unis) {op : FlowOp κ} (hmeets : c.Meets t unis op) :
    ∃ c' t' unis', c.step hash op = some c' ∧ Inv hash c' t' unis' ∧ Frame c c' := by
  cases op with
  | get key now =>
    by_cases hfirst : (t.lookup key).isSome ∨ t.free ≠ []
    · obtain ⟨a, c', t', hget, hinv, hframe⟩ := h.get_first hfirst now
      exact ⟨c', t', unis, congrArg (Option.map _) hget, hinv, hframe⟩
    · obtain ⟨hkey, hfree⟩ := not_or.mp hfirst
      have hsafe := (hmeets.resolve_left hkey).resolve_left hfree
      obtain ⟨r, c', t', unis', hget, hinv, hframe, -⟩ :=
        h.get_pruned hsafe (not_isSome_iff_eq_none.mp hkey) (not_not.mp hfree)
      exact ⟨c', t', unis', congrArg (Option.map _) hget, hinv, hframe⟩
  | find key now =>
    obtain ⟨r, c', t', hfind, hinv, hframe⟩ := h.find key now
    exact ⟨c', t', unis, congrArg (Option.map _) hfind, hinv, hframe⟩
  | unlinkUni a =>
    obtain ⟨n, hn, rfl⟩ := mem_map.mp hmeets
    obtain ⟨links, uniCount, hunlink, hinv⟩ := h.unlinkUni (data_mem hn)
    exact ⟨_, t, _, hunlink, hinv, ⟨rfl, rfl, rfl⟩⟩
  | release a reason =>
    obtain ⟨n, hn, rfl⟩ := mem_map.mp hmeets
    obtain ⟨c', hrelease, hinv, hframe⟩ := h.release hn reason
    exact ⟨c', _, _, congrArg (Option.map _) hrelease, hinv, hframe⟩
  | pruneStale thetime saveMe => exact of_returns (h.pruneStale thetime saveMe)
  | pruneUnis =>
    by_cases hfew : c.uniCount ≤ c.maxUni
    · exact ⟨c, t, unis, congrArg (Option.map _) (h.pruneUnis_few hfew), h, .refl c⟩
    · obtain ⟨c', t', unis', hprune, hinv, hframe, -⟩ :=
        h.pruneUnis_some (Nat.lt_of_not_le hfew) (hmeets.resolve_left hfew)
      exact ⟨c', t', unis', congrArg (Option.map _) hprune, hinv, hframe⟩
  | pruneExcess saveMe => exact of_returns (h.pruneExcess saveMe)
  | pruneOne reason =>
    obtain ⟨b, c', t', unis', hprune, hinv, hframe⟩ := h.pruneOne reason
    exact ⟨c', t', unis', congrArg (Option.map _) hprune, hinv, hframe⟩
  | timeout standby numFlows thetime => exact of_returns (h.timeout standby numFlows thetime)
  | purge =>
    have hfuel : t.used.length < c.table.count + 1 := by
      rw [h.table.count]
      exact Nat.lt_succ_self _
    exact of_returns (h.purgeLoop hfuel 0)
  | write a lastDataSeen flags offloads =>
    obtain ⟨n, hn, rfl⟩ := mem_map.mp hmeets
    obtain ⟨f, hf, -⟩ := h.flow_used hn
    refine ⟨_, t, unis, congrArg (Option.map _) hf, h.setFlow (data_mem hn) hf rfl, ⟨rfl, rfl, rfl⟩⟩

theorem run (h : Inv hash c t unis) {ops : List (FlowOp κ)} (hallowed : Allowed hash c ops)
    {pre : List (FlowOp κ)} (hpre : pre <+: ops) :
    ∃ c' t' unis', c.run hash pre = some c' ∧ Inv hash c' t' unis' ∧ Frame c c' := by
  induction pre generalizing c t unis ops with
  | nil => exact ⟨c, t, unis, rfl, h, .refl c⟩
  | cons op pre ih =>
    obtain ⟨rest, rfl⟩ := hpre
    obtain ⟨hmeets, hnext⟩ := hallowed
    obtain ⟨c₁, t₁, unis₁, hstep, h₁, hframe⟩ := h.step (hmeets t unis h)
    obtain ⟨c', t', unis', hrun, hinv, hframe'⟩ := ih h₁ (hnext c₁ hstep) (prefix_append pre rest)
    refine ⟨c', t', unis', ?_, hinv, hframe.trans hframe'⟩
    unfold run
    rw [hstep]
    exact hrun
end Inv

theorem Inv.uniSafe_of_isSome (h : Inv hash c t unis) (hsome : (c.pruneUnis hash).isSome) :
    c.UniSafe unis := by
  by_contra hsafe
  obtain ⟨hmany, hall⟩ := not_or.mp hsafe
  have hnone := h.pruneUnis_none (Nat.lt_of_not_le hmany) fun a ha => by
    by_contra hfree
    exact hall ⟨a, ha, by simpa using hfree⟩
  rw [hnone] at hsome
  cases hsome

/-! ## The list over any run -/

/-- Whatever is called, the list stands between its sentinels, with as many flows as `uni_count`
says, all of which are in the table, and no sentinel is released, if the walk of `prune_unis` does
not come to the sentinel. -/
theorem uniList_run (hash : κ → ℕ) (config : FlowConfig) :
    ∃ c₀, initProto config = some c₀ ∧ ∀ ops, Allowed hash c₀ ops → ∀ pre, pre <+: ops →
      ∃ c t unis, c₀.run hash pre = some c ∧ Inv hash c t unis ∧ Frame c₀ c := by
  obtain ⟨c₀, t₀, hinit, h⟩ := Inv.initProto hash config
  exact ⟨c₀, hinit, fun ops hallowed pre hpre => h.run hallowed hpre⟩

/-- Calls of `get` are allowed as long as the list is not longer than `prune_unis` leaves it. -/
theorem Allowed.gets {keys : List κ} {ops : List (FlowOp κ)} (now : ℕ)
    (hfew : ∀ pre, pre <+: keys → pre.length < keys.length →
      ∀ c', c.run hash (pre.map (.get · now)) = some c' → c'.uniCount ≤ c'.maxUni)
    (hrest : ∀ c', c.run hash (keys.map (.get · now)) = some c' → Allowed hash c' ops) :
    Allowed hash c (keys.map (.get · now) ++ ops) := by
  induction keys generalizing c with
  | nil => exact hrest c rfl
  | cons key keys ih =>
    have hcons {pre : List κ} {c₁ : FlowCache κ} (hstep : c.step hash (.get key now) = some c₁) :
        c.run hash ((key :: pre).map (.get · now)) = c₁.run hash (pre.map (.get · now)) := by
      rw [map_cons, run, hstep, bind_some]
    have hstart := hfew [] nil_prefix (Nat.succ_pos _) c rfl
    refine ⟨fun _ _ _ => .inr (.inr (.inr (.inl hstart))), fun c₁ hstep => ?_⟩
    refine ih (fun pre hpre hlt c' hrun => ?_) fun c' hrun => hrest c' ((hcons hstep).trans hrun)
    exact hfew (key :: pre) ((prefix_cons_inj key).mpr hpre) (Nat.succ_lt_succ hlt) c'
      ((hcons hstep).trans hrun)

/-- Seven keys on a cache of four flows: three of them are put on the list, which is one more than
`prune_unis` leaves there. -/
theorem uniList_run_pruned :
    let gets : List (FlowOp ℕ) := [1, 2, 3, 4, 5, 6, 7].map (.get · 1)
    ∃ c₀, initProto ⟨4, 30, 180, by decide⟩ = some c₀ ∧ Allowed id c₀ (gets ++ [.pruneUnis]) ∧
      (c₀.run id gets).map (fun c => (c.uniCount, c.maxUni)) = some (3, 2) ∧
      ∃ c t unis, c₀.run id (gets ++ [.pruneUnis]) = some c ∧ Inv id c t unis ∧ Frame c₀ c := by
  intro gets
  obtain ⟨c₀, hinit, hrun⟩ := uniList_run id ⟨4, 30, 180, by decide⟩
  have hallowed : Allowed id c₀ (gets ++ [.pruneUnis]) := by
    refine .gets 1 (fun pre hpre hlt c hc => ?_) fun c hc =>
      ⟨fun t unis h => h.uniSafe_of_isSome ?_, fun _ _ => trivial⟩
    · have hall : ∀ pre ∈ [1, 2, 3, 4, 5, 6, 7].inits, pre.length < 7 →
          ((initProto ⟨4, 30, 180, by decide⟩).bind fun c => c.run id (pre.map (.get · 1))).all
            (fun c => c.uniCount ≤ c.maxUni) := by decide +kernel
      have hpre := hall pre ((mem_inits _ _).mpr hpre) hlt
      rw [hinit, bind_some, hc] at hpre
      exact of_decide_eq_true hpre
    · have hsome : ((initProto ⟨4, 30, 180, by decide⟩).bind fun c => c.run id gets).all
          (fun c => (c.pruneUnis id).isSome) := by decide +kernel
      rw [hinit, bind_some, hc] at hsome
      exact hsome
  have hcount : ((initProto ⟨4, 30, 180, by decide⟩).bind fun c => c.run id gets).map
      (fun c => (c.uniCount, c.maxUni)) = some (3, 2) := by decide +kernel
  rw [hinit, bind_some] at hcount
  exact ⟨c₀, hinit, hallowed, hcount, hrun _ hallowed _ (prefix_refl _)⟩

/-- Three blocked flows on the list, of four, where two are to be left: the walk releases the first
sentinel, through whose null pointer `unlink_uni` then writes. -/
theorem uniList_allBlocked :
    let ops : List (FlowOp ℕ) :=
      [.get 1 1, .get 2 1, .get 3 1, .get 4 1, .get 5 1, .get 6 1, .get 7 1,
        .write 3 1 ssnflagBlock 0, .write 4 1 ssnflagBlock 0, .write 5 1 ssnflagBlock 0]
    let c₀ := initProto ⟨4, 30, 180, by decide⟩
    (c₀.bind fun c => c.run id ops).map (fun c => (c.uniCount, c.maxUni)) = some (3, 2) ∧
      (c₀.bind fun c => c.run id (ops ++ [.pruneUnis])).isNone ∧
      (c₀.bind fun c => c.run id (ops ++ [.get 8 1])).isNone := by
  decide +kernel

/-! ## A flow for a key -/

/-- `get` gives a flow exactly if its key is in the table, a node is free, or pruning frees a
node. -/
theorem get_flow_iff (hash : κ → ℕ) (c : FlowCache κ) (t : ZTable κ ℕ) (unis : List ℕ)
    (h : Inv hash c t unis) (key : κ) (now : ℕ) :
    (∃ a c', c.get hash key now = some (some a, c')) ↔
      (t.lookup key).isSome ∨ t.free ≠ [] ∨ c.Frees t unis now := by
  by_cases hfirst : (t.lookup key).isSome ∨ t.free ≠ []
  · obtain ⟨a, c', -, hget, -⟩ := h.get_first hfirst now
    exact ⟨fun _ => hfirst.imp_right .inl, fun _ => ⟨a, c', hget⟩⟩
  · obtain ⟨hkey, hfree⟩ := not_or.mp hfirst
    rw [not_isSome_iff_eq_none] at hkey
    rw [not_not] at hfree
    have hiff : (t.lookup key).isSome ∨ t.free ≠ [] ∨ c.Frees t unis now ↔ c.Frees t unis now := by
      rw [hkey, hfree]
      simp
    rw [hiff]
    by_cases hsafe : c.oldestStale t (now % 2 ^ 32) = true ∨ c.UniSafe unis
    · obtain ⟨r, c', -, -, hget, -, -, hfrees⟩ := h.get_pruned hsafe hkey hfree
      rw [← hfrees, hget]
      constructor
      · rintro ⟨a, c'', heq⟩
        rw [(Prod.mk.inj (some.inj heq)).1]
        rfl
      · intro hsome
        obtain ⟨a, rfl⟩ := isSome_iff_exists.mp hsome
        exact ⟨a, c', rfl⟩
    · obtain ⟨hstale, hsplit⟩ := not_or.mp hsafe
      obtain ⟨table, hget, h₁⟩ := h.get_second hkey hfree now
      rw [hget, h₁.makeRoom_none hstale hsplit]
      constructor
      · rintro ⟨a, c', heq⟩
        cases heq
      · rintro (hst | ⟨-, hex⟩ | ⟨hfew, -⟩)
        · exact absurd hst hstale
        · exact absurd (.inr hex) hsplit
        · exact absurd (.inl hfew) hsplit

/-- A cache of three flows that are all taken prunes one of them for a fourth key. -/
theorem get_flow_iff_full :
    let gets : List (FlowOp ℕ) := [1, 2, 3].map (.get · 1)
    ∃ c t unis, ((initProto ⟨3, 30, 180, by decide⟩).bind fun c => c.run id gets) = some c ∧
      Inv id c t unis ∧ t.free = [] ∧ t.lookup 4 = none ∧ c.Frees t unis 1 ∧
      ∃ a c', c.get id 4 1 = some (some a, c') := by
  intro gets
  obtain ⟨c₀, t₀, hinit, h₀⟩ := Inv.initProto (id : ℕ → ℕ) ⟨3, 30, 180, by decide⟩
  have hallowed : Allowed id c₀ (gets ++ []) := by
    refine .gets 1 (fun pre hpre hlt c hc => ?_) fun _ _ => trivial
    have hall : ∀ pre ∈ [1, 2, 3].inits,
        ((initProto ⟨3, 30, 180, by decide⟩).bind fun c => c.run id (pre.map (.get · 1))).all
          (fun c => c.uniCount ≤ c.maxUni) := by decide +kernel
    have hpre := hall pre ((mem_inits _ _).mpr hpre)
    rw [hinit, bind_some, hc] at hpre
    exact of_decide_eq_true hpre
  obtain ⟨c, t, unis, hrun, h, -⟩ := h₀.run hallowed (prefix_append gets [])
  have heval : ((initProto ⟨3, 30, 180, by decide⟩).bind fun c => c.run id gets).all (fun c =>
      c.table.nodes.fhead.isNone && (c.table.find id 4).any (fun r => r.1.isNone) &&
        (c.get id 4 1).any fun r => r.1.isSome) := by decide +kernel
  rw [hinit, bind_some, hrun, all_some, Bool.and_eq_true, Bool.and_eq_true] at heval
  obtain ⟨⟨hhead, hfind⟩, hget⟩ := heval
  have hfree : t.free = [] := by
    rw [h.table.nodes.lists.fhead] at hhead
    cases hfree : t.free with
    | nil => rfl
    | cons x free =>
      rw [hfree] at hhead
      cases hhead
  have hkey : t.lookup 4 = none := by
    obtain ⟨z, hz, -⟩ := h.table.find 4
    rw [hz] at hfind
    cases hlookup : t.lookup 4 with
    | none => rfl
    | some n =>
      simp [ZTable.find, hlookup] at hfind
  obtain ⟨a, c', hc'⟩ : ∃ a c', c.get id 4 1 = some (some a, c') := by
    generalize c.get id 4 1 = r at hget
    obtain _ | ⟨_ | a, c'⟩ := r
    · cases hget
    · cases hget
    · exact ⟨a, c', rfl⟩
  have hfrees := (get_flow_iff id c t unis h 4 1).mp ⟨a, c', hc'⟩
  rw [hkey, hfree] at hfrees
  exact ⟨c, t, unis, by rw [hinit]; exact hrun, h, hfree, hkey,
    (hfrees.resolve_left nofun).resolve_left (absurd rfl), a, c', hc'⟩

/-- Three flows, the two older ones blocked and the other one offloaded: there is no flow for a
fourth key. -/
theorem get_twoBlocked :
    let ops : List (FlowOp ℕ) :=
      [.get 1 1, .get 2 1, .get 3 1, .write 4 1 ssnflagBlock 0, .write 3 1 ssnflagBlock 0,
        .write 2 1 0 1]
    (((initProto ⟨3, 30, 180, by decide⟩).bind fun c => c.run id ops).bind fun c =>
        c.get id 4 1).map Prod.fst = some none := by
  decide +kernel
end FlowCache
end Snort.Flow
