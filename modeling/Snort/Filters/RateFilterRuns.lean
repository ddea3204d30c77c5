import Snort.Filters.Sfrf

/-!
# Rate filters and their own events

As long as no memory of the table is used again, every decision follows from the
events of the own address. A node whose memory was used before starts with what
another address has left there.
-/

namespace Snort.Filters
open List Option
open Hash (XHash XConfig XData)

/-! ## Runs on two stores -/

section Stores
variable {σ τ : Type} {touch : SfrfKey → Touch → σ → Option (ℤ × σ)} {flush : σ → Option σ}
  {touch' : SfrfKey → Touch → τ → Option (ℤ × τ)} {flush' : τ → Option τ} {R : σ → τ → Prop}

/-- Wherever the first result exists, the second one is the same, and the states are related. -/
def Follows (R : σ → τ → Prop) (o : Option (ℤ × σ)) (o' : Option (ℤ × τ)) : Prop :=
  ∀ r s, o = some (r, s) → ∃ s', o' = some (r, s') ∧ R s s'

variable {s' : τ}

theorem Follows.some {r : ℤ} {s : σ} (h : R s s') : Follows R (some (r, s)) (some (r, s')) := by
  intro r₁ s₁ hr
  obtain ⟨rfl, rfl⟩ := Prod.mk.inj (some.inj hr)
  exact ⟨s', rfl, h⟩

theorem Follows.bind {o : Option (ℤ × σ)} {o' : Option (ℤ × τ)} (h : Follows R o o')
    {f : ℤ × σ → Option (ℤ × σ)} {f' : ℤ × τ → Option (ℤ × τ)}
    (hf : ∀ r s s', R s s' → Follows R (f (r, s)) (f' (r, s'))) :
    Follows R (o.bind f) (o'.bind f') := by
  intro r s hbind
  obtain ⟨⟨r₁, s₁⟩, ho, hfs⟩ := bind_eq_some_iff.mp hbind
  obtain ⟨s₁', ho', hR⟩ := h r₁ s₁ ho
  rw [ho', bind_some]
  exact hf r₁ s₁ s₁' hR r s hfs

variable (htouch : ∀ key t s s', R s s' → Follows R (touch key t s) (touch' key t s'))
include htouch

theorem testObjects_follows (e : RateEvent) (op : CountOperation) (nodes : List SfrfConfigNode)
    (newStatus status : ℤ) {s : σ} (h : R s s') :
    Follows R (testObjects touch e op nodes newStatus status s)
      (testObjects touch' e op nodes newStatus status s') := by
  induction nodes generalizing newStatus status s s' with
  | nil => exact .some h
  | cons cfgNode nodes ih =>
    have htracked : Follows R (testTracked touch e op cfgNode newStatus s)
        (testTracked touch' e op cfgNode newStatus s') := by
      unfold testTracked
      cases cfgNode.address e with
      | none => exact .some h
      | some ip => exact htouch _ _ _ _ h
    exact htracked.bind fun r _ _ h => ih r _ h

theorem testThreshold_follows (config : RateFilterConfig) (e : RateEvent) {s : σ}
    (h : R s s') : Follows R (testThreshold touch config e s)
    (testThreshold touch' config e s') := by
  unfold testThreshold
  split_ifs
  · exact .some h
  · exact (testObjects_follows htouch e _ _ _ _ h).bind fun _ _ _ h =>
      testObjects_follows htouch e _ _ _ _ h
  · exact testObjects_follows htouch e _ _ _ _ h

theorem decisions_follows
    (hflush : ∀ s s' s₁, R s s' → flush s = some s₁ → ∃ s₁', flush' s' = some s₁' ∧ R s₁ s₁')
    (config : RateFilterConfig) (ops : List FilterOp) {s : σ} (h : R s s') {ds : List ℤ}
    (hds : decisions touch flush config ops s = some ds) :
    decisions touch' flush' config ops s' = some ds := by
  induction ops generalizing s s' ds with
  | nil => exact hds
  | cons op ops ih =>
    cases op with
    | test e =>
      obtain ⟨⟨r, s₁⟩, htest, hrest⟩ := bind_eq_some_iff.mp hds
      obtain ⟨ds₁, hds₁, rfl⟩ := map_eq_some_iff.mp hrest
      obtain ⟨s₁', htest', h₁⟩ := testThreshold_follows htouch config e h r s₁ htest
      rw [decisions, htest']
      show (decisions touch' flush' config ops s₁').map _ = _
      rw [ih h₁ hds₁]
      rfl
    | flush =>
      obtain ⟨s₁, hs, hrest⟩ := bind_eq_some_iff.mp hds
      obtain ⟨s₁', hs', h₁⟩ := hflush s s' s₁ h hs
      rw [decisions, hs']
      exact ih h₁ hrest
end Stores

/-! ## Every run ends -/

section Total
variable {σ : Type} {touch : SfrfKey → Touch → σ → Option (ℤ × σ)} {flush : σ → Option σ}
  {I : σ → Prop} (htouch : ∀ key t s, I s → ∃ r s', touch key t s = some (r, s') ∧ I s')
include htouch

theorem testObjects_total (e : RateEvent) (op : CountOperation) (nodes : List SfrfConfigNode)
    (newStatus status : ℤ) {s : σ} (h : I s) :
    ∃ r s', testObjects touch e op nodes newStatus status s = some (r, s') ∧ I s' := by
  induction nodes generalizing newStatus status s with
  | nil => exact ⟨_, _, rfl, h⟩
  | cons cfgNode nodes ih =>
    rw [testObjects, testTracked]
    cases cfgNode.address e with
    | none => exact ih _ _ h
    | some ip =>
      obtain ⟨r, s₁, htest, h₁⟩ := htouch _ ⟨cfgNode, e.curTime, op⟩ s h
      dsimp only
      rw [htest]
      exact ih _ _ h₁

theorem testThreshold_total (config : RateFilterConfig) (e : RateEvent) {s : σ} (h : I s) :
    ∃ r s', testThreshold touch config e s = some (r, s') ∧ I s' := by
  unfold testThreshold
  split_ifs
  · exact ⟨_, _, rfl, h⟩
  · obtain ⟨r, s₁, htest, h₁⟩ := testObjects_total htouch e .decrement _ (-1) (-1) h
    rw [testRule, htest]
    exact testObjects_total htouch e _ _ _ _ h₁
  · exact testObjects_total htouch e _ _ _ _ h

theorem decisions_total (hflush : ∀ s, I s → ∃ s', flush s = some s' ∧ I s')
    (config : RateFilterConfig) (ops : List FilterOp) {s : σ} (h : I s) :
    ∃ ds, decisions touch flush config ops s = some ds := by
  induction ops generalizing s with
  | nil => exact ⟨_, rfl⟩
  | cons op ops ih =>
    cases op with
    | test e =>
      obtain ⟨r, s₁, htest, h₁⟩ := testThreshold_total htouch config e h
      obtain ⟨ds, hds⟩ := ih h₁
      rw [decisions, htest]
      exact ⟨r :: ds, congrArg (Option.map _) hds⟩
    | flush =>
      obtain ⟨s₁, hs, h₁⟩ := hflush s h
      rw [decisions, hs]
      exact ih h₁
end Total

/-! ## The table and the histories -/

section Table
open DoublyLinked.Chained (Node)
variable {cfg : XConfig} {hash : SfrfKey → ℕ} {x : RfHash} {key : SfrfKey} {own : Histories}
  {used : List (Node SfrfKey (XData SfrfTrackingNode))} {free : List (ℕ × XData SfrfTrackingNode)}

/-- The node of the key is the first one: it is tested and written back. -/
theorem testObject_first {a : ℕ} {data : Option SfrfTrackingNode}
    (h : x.Rep hash (⟨a, key, some data⟩ :: used) free) (t : Touch) {x₀ : RfHash}
    (hget : x₀.getNode cfg hash key (fun _ _ => false) = some (some a, x)) :
    ∃ x', sfrfTestObject cfg hash key t x₀ = some ((t.track (data.getD .zero)).1, x') ∧
      x'.Rep hash (⟨a, key, some (some (t.track (data.getD .zero)).2)⟩ :: used) free := by
  obtain ⟨links, hset, hrep⟩ := h.nodes.setFirst fun _ => some (some (t.track (data.getD .zero)).2)
  have hcell := XHash.links_of_rep
    (show x.nodes.Rep hash ([] ++ ⟨a, key, some data⟩ :: used) free _ from h.nodes)
  refine ⟨{ x with nodes := { x.nodes with links } }, ?_, hrep, h.count, h.splay⟩
  unfold sfrfTestObject
  rw [hget]
  simp only [bind_eq_bind, bind_some, DoublyLinked.Heap.read_some]
  rw [hcell, bind_some]
  dsimp only
  rw [hset]
  rfl

/-- What `xhash_get_node` leaves: nothing but a counter changed, the node of the key in front, or a
new node in front, the memory of which was not used before if that is so. -/
theorem getNode_cases (h : x.Rep hash used free) (key : SfrfKey) (hinline : cfg.inlineData = true) :
    (∃ x', x.getNode cfg hash key (fun _ _ => false) = some (none, x') ∧ x'.Rep hash used free ∧
      ¬Unused cfg hash key x) ∨
    (∃ l₁ n l₂ x', used = l₁ ++ n :: l₂ ∧ n.key = key ∧
      x.getNode cfg hash key (fun _ _ => false) = some (some n.addr, x') ∧
      x'.Rep hash (n :: (l₁ ++ l₂)) free) ∨
    (key ∉ used.map Node.key ∧ ∃ a data used' free' x',
      x.getNode cfg hash key (fun _ _ => false) = some (some a, x') ∧
      x'.Rep hash (⟨a, key, some data⟩ :: used') free' ∧ used'.Sublist used ∧
      (Unused cfg hash key x → used' = used ∧ data = none)) := by
  have hdata (y : ℕ × XData SfrfTrackingNode) : XHash.newData cfg none y.2 = some y.2.join := by
    unfold XHash.newData
    rw [if_pos hinline]
  rcases h.findNodeRow key with ⟨hkey, hfind⟩ | ⟨l₁, n, l₂, nodes, gnode, rfl, rfl, hfind, hrep⟩
  · have hrow : x.nodes.findRow hash key = some none := by
      rw [h.nodes.findRow key, find?_eq_none.mpr]
      · rfl
      · intro m hm heq
        exact hkey (mem_map.mpr ⟨m, hm, of_decide_eq_true heq⟩)
    have hget {p : Option ℕ} {x' : RfHash}
        (hinsert : x.insert cfg hash key none (fun _ _ => false) = some (p, x')) :
        x.getNode cfg hash key (fun _ _ => false) = some (p, x') := by
      unfold XHash.getNode
      rw [hfind]
      exact hinsert
    by_cases hunused : Unused cfg hash key x
    · obtain ⟨hfree, halloc⟩ := hunused.resolve_left (not_not_intro hrow)
      obtain rfl : free = [] := by
        cases free with
        | nil => rfl
        | cons y free => exact absurd (h.nodes.lists.fhead.symm.trans hfree) nofun
      obtain ⟨x₁, hnew, hmade⟩ := h.newnode_alloc (fun _ _ => false) halloc
      obtain ⟨nodes, huse, hrep⟩ := hmade.useNode h.splay hkey none
      rw [hdata] at hrep
      refine .inr (.inr ⟨hkey, _, _, used, [], _, ?_, hrep, .refl _, fun _ => ⟨rfl, rfl⟩⟩)
      refine hget ?_
      unfold XHash.insert
      rw [hnew]
      simp only [bind_eq_bind, bind_some]
      rw [huse]
      rfl
    · rcases h.insert hkey cfg none (fun _ _ => false) with
        ⟨anrTries, hinsert⟩ | ⟨x₁, x', used', free', y, hmade, hinsert, hrep, -, -⟩
      · exact .inl ⟨_, hget hinsert, ⟨h.nodes, h.count, h.splay⟩, hunused⟩
      · rw [hdata] at hrep
        exact .inr (.inr ⟨hkey, _, _, used', free', x', hget hinsert,
          hrep, hmade.subset, fun hu => absurd hu hunused⟩)
  · refine .inr (.inl ⟨l₁, n, l₂, _, rfl, rfl, ?_, hrep⟩)
    unfold XHash.getNode
    rw [hfind]
    rfl

/-- Every node in use has data. -/
def Filled (hash : SfrfKey → ℕ) (x : RfHash) : Prop :=
  ∃ used free, x.Rep hash used free ∧ ∀ n ∈ used, n.data.isSome

theorem testObject_total (hinline : cfg.inlineData = true) (key : SfrfKey) (t : Touch) (x : RfHash)
    (h : Filled hash x) :
    ∃ r x', sfrfTestObject cfg hash key t x = some (r, x') ∧ Filled hash x' := by
  obtain ⟨used, free, hrep, hdata⟩ := h
  rcases getNode_cases hrep key hinline with ⟨x', hget, hrep', -⟩ |
    ⟨l₁, ⟨a, key, data⟩, l₂, x', rfl, rfl, hget, hrep'⟩ |
    ⟨-, a, data, used', free', x', hget, hrep', hsub, -⟩
  · refine ⟨-1, x', ?_, used, free, hrep', hdata⟩
    unfold sfrfTestObject
    rw [hget]
    rfl
  · obtain ⟨hn, hrest⟩ := forall_mem_cons.mp
      (show ∀ n ∈ ⟨a, key, data⟩ :: (l₁ ++ l₂), n.data.isSome from
        fun n hn => hdata n (perm_middle.mem_iff.mpr hn))
    obtain ⟨data, rfl⟩ := isSome_iff_exists.mp hn
    obtain ⟨x'', htest, hrep''⟩ := testObject_first hrep' t hget
    exact ⟨_, x'', htest, _, free, hrep'', forall_mem_cons.mpr ⟨rfl, hrest⟩⟩
  · obtain ⟨x'', htest, hrep''⟩ := testObject_first hrep' t hget
    exact ⟨_, x'', htest, _, free', hrep'',
      forall_mem_cons.mpr ⟨rfl, fun n hn => hdata n (hsub.subset hn)⟩⟩

/-- Every key in the table has the node that its own events lead to, and the other keys have had no
events. -/
def Owns (hash : SfrfKey → ℕ) (x : RfHash) (own : Histories) : Prop :=
  ∃ used free, x.Rep hash used free ∧
    (∀ n ∈ used, ∃ data : Option SfrfTrackingNode, n.data = some data ∧
      data.getD .zero = replay (own n.key)) ∧
    ∀ key, key ∉ used.map Node.key → own key = []

theorem replay_concat (history : List Touch) (t : Touch) :
    replay (history ++ [t]) = (t.track (replay history)).2 :=
  foldl_concat ..

theorem testUnused_follows (hinline : cfg.inlineData = true) (key : SfrfKey) (t : Touch)
    (x : RfHash)
    (own : Histories) (h : Owns hash x own) :
    Follows (Owns hash) (testUnused cfg hash key t x) (testOwn key t own) := by
  intro r x₁ htest
  unfold testUnused at htest
  split_ifs at htest with hunused
  obtain ⟨used, free, hrep, hown, hout⟩ := h
  -- the node of the key is the first one of `rest`, and no other node is for the key
  suffices hfront : ∃ a data rest free' x', x.getNode cfg hash key (fun _ _ => false) =
      some (some a, x') ∧ x'.Rep hash (⟨a, key, some data⟩ :: rest) free' ∧
      data.getD .zero = replay (own key) ∧ (∀ n ∈ rest, n ∈ used) ∧
      ∀ n ∈ used, n.key ≠ key → n ∈ rest by
    obtain ⟨a, data, rest, free', x', hget, hrep', hdata, hrest, hkept⟩ := hfront
    obtain ⟨x'', htest', hrep''⟩ := testObject_first hrep' t hget
    rw [htest'] at htest
    obtain ⟨rfl, rfl⟩ := Prod.mk.inj (some.inj htest)
    have hne {n : Node SfrfKey (XData SfrfTrackingNode)} (hn : n ∈ rest) : n.key ≠ key := fun heq =>
      (nodup_cons.mp hrep'.nodes.keys).1 (mem_map.mpr ⟨n, hn, heq⟩)
    refine ⟨Function.update own key (own key ++ [t]), ?_, _, free', hrep'',
      forall_mem_cons.mpr ⟨⟨_, rfl, ?_⟩, fun n hn => ?_⟩, fun k hk => ?_⟩
    · rw [testOwn, hdata]
    · rw [Function.update_self, replay_concat, ← hdata]
      rfl
    · rw [Function.update_of_ne (hne hn)]
      exact hown n (hrest n hn)
    · obtain ⟨hk, hkrest⟩ := not_or.mp (mem_cons.not.mp hk)
      rw [Function.update_of_ne hk]
      refine hout k fun hmem => ?_
      obtain ⟨n, hn, rfl⟩ := mem_map.mp hmem
      exact hkrest (mem_map_of_mem (hkept n hn hk))
  rcases getNode_cases hrep key hinline with ⟨x', hget, -, hno⟩ |
    ⟨l₁, n, l₂, x', rfl, rfl, hget, hrep'⟩ | ⟨hkey, a, data, used', free', x', hget, hrep', -, hnew⟩
  · exact absurd hunused hno
  · obtain ⟨data, hdata, hval⟩ := hown n (mem_append_right _ mem_cons_self)
    refine ⟨n.addr, data, l₁ ++ l₂, free, x', hget, hdata ▸ hrep', hval, fun m hm => ?_,
      fun m hm hkey => ?_⟩
    · exact perm_middle.mem_iff.mpr (mem_cons_of_mem _ hm)
    · exact (mem_cons.mp (perm_middle.mem_iff.mp hm)).resolve_left fun heq => hkey (heq ▸ rfl)
  · obtain ⟨rfl, rfl⟩ := hnew hunused
    refine ⟨a, none, used', free', x', hget, hrep', ?_, fun n hn => hn, fun n hn _ => hn⟩
    rw [hout key hkey]
    rfl
end Table

/-- Every sequence of calls has its decisions. If no call reuses memory of the table, the decisions
are those from the own events of each address since its node was created. -/
theorem decisions_own (nodeSize memcap nrows : ℕ) (hpos : 0 < nrows) (hash : SfrfKey → ℕ)
    (x : RfHash) (hnew : XHash.new (rfConfig nodeSize memcap) nrows = some x)
    (config : RateFilterConfig) (ops : List FilterOp) :
    let flush := XHash.makeEmpty (rfConfig nodeSize memcap)
    ∃ ds, decisions (sfrfTestObject (rfConfig nodeSize memcap) hash) flush config ops x = some ds ∧
      (decisions (testUnused (rfConfig nodeSize memcap) hash) flush config ops x ≠ none →
        ownDecisions config ops = some ds) := by
  intro flush
  have hempty : x.Rep hash [] [] := by
    unfold XHash.new at hnew
    split_ifs at hnew
    obtain rfl := some.inj hnew
    exact ⟨DoublyLinked.Chained.Rep.empty hash hpos, rfl, Int.one_pos⟩
  have hflush {used free} {s : RfHash} (hrep : s.Rep hash used free) :
      ∃ free' s', flush s = some s' ∧ s'.Rep hash [] free' := by
    obtain ⟨s', free', hs, hrep', -⟩ := hrep.makeEmpty (rfConfig nodeSize memcap)
    exact ⟨free', s', hs, hrep'⟩
  have htotal : ∃ ds, decisions (sfrfTestObject (rfConfig nodeSize memcap) hash) flush
    config ops x =
      some ds := by
    refine decisions_total (testObject_total rfl) ?_ config ops ⟨[], [], hempty, nofun⟩
    rintro s ⟨used, free, hrep, -⟩
    obtain ⟨free', s', hs, hrep'⟩ := hflush hrep
    exact ⟨s', hs, [], free', hrep', nofun⟩
  obtain ⟨ds, hds⟩ := htotal
  refine ⟨ds, hds, fun hunused => ?_⟩
  obtain ⟨ds', hds'⟩ := ne_none_iff_exists'.mp hunused
  -- the calls that were tested for reuse are the same
  have hsame : decisions (sfrfTestObject (rfConfig nodeSize memcap) hash) flush config ops x =
      some ds' := by
    refine decisions_follows (R := Eq) ?_ (fun s s' s₁ heq hs => ⟨s₁, heq ▸ hs, rfl⟩) config
      ops rfl hds'
    rintro key t s _ rfl r s₁ htest
    unfold testUnused at htest
    split_ifs at htest
    exact ⟨s₁, htest, rfl⟩
  rw [hds] at hsame
  rw [some.inj hsame]
  refine decisions_follows (R := Owns hash) (testUnused_follows rfl) ?_ config ops
    ⟨[], [], hempty, nofun, fun _ _ => rfl⟩ hds'
  rintro s s' s₁ ⟨used, free, hrep, -⟩ hs
  obtain ⟨free', _, hs', hrep'⟩ := hflush hrep
  obtain rfl := some.inj (hs'.symm.trans hs)
  exact ⟨_, rfl, [], free', hrep', nofun, fun _ _ => rfl⟩

/-! ## Two addresses -/

/-- One event in ten seconds, and none for the next ten if there are more. -/
def sampleFilter : RateFilterConfig := fun _ _ _ => [⟨1, .bySrc, 1, 10, .drop, 10, none⟩]

def sampleTest (src : BitVec 32) (t : ℤ) : FilterOp := .test ⟨0, 1, 1, .set4 src, .set4 9,
    t, .increment⟩

def sampleDecisions (touch : SfrfKey → Touch → RfHash → Option (ℤ × RfHash)) (memcap : ℕ)
    (ops : List FilterOp) : Option (List ℤ) := do
  let x ← XHash.new (rfConfig 100 memcap) 1
  decisions touch (XHash.makeEmpty (rfConfig 100 memcap)) sampleFilter ops x

theorem decisions_own_two :
    ∃ ds, sampleDecisions (sfrfTestObject (rfConfig 100 1000) fun _ => 0) 1000
        [sampleTest 1 0, sampleTest 2 0] = some ds ∧
      ownDecisions sampleFilter [sampleTest 1 0, sampleTest 2 0] = some ds := by
  obtain ⟨ds, hds, hown⟩ := decisions_own 100 1000 1 Nat.one_pos (fun _ => 0) _ rfl sampleFilter
    [sampleTest 1 0, sampleTest 2 0]
  exact ⟨ds, hds, hown (by decide +kernel)⟩

/-- There is memory for one node, or a flush in between: the first event of the second address finds
what the first one has left, and is dropped. -/
theorem decisions_not_own :
    (sampleDecisions (sfrfTestObject (rfConfig 100 116) fun _ => 0) 116
        [sampleTest 1 0, sampleTest 1 0, sampleTest 2 0] = some [-1, 11, 4] ∧
      ownDecisions sampleFilter [sampleTest 1 0, sampleTest 1 0, sampleTest 2 0] =
        some [-1, 11, -1]) ∧
    sampleDecisions (sfrfTestObject (rfConfig 100 1000) fun _ => 0) 1000
        [sampleTest 1 0, sampleTest 1 0, .flush, sampleTest 2 0] = some [-1, 11, 4] ∧
      ownDecisions sampleFilter [sampleTest 1 0, sampleTest 1 0, .flush, sampleTest 2 0] =
        some [-1, 11, -1] := by
  decide +kernel
end Snort.Filters
