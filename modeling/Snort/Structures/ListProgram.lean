import Snort.Structures.DoublyLinked

/-!
# Programs on linked lists

A program walks over a list by pointers, reads and overwrites the values behind
them, and links nodes in and out. It can run on any machine that implements these
commands. The list machine keeps the nodes in a plain list; a machine that
refines it command by command runs every program with the same results, so that
programs can be understood on lists.
-/

namespace ListProgram
open List Option DoublyLinked
variable {ν α β σ τ : Type}

/-- A program on a list of values. A pointer is an address, or null where it is an option. -/
inductive Prog (ν α : Type) where
  | pure (a : α)
  | fail
  | first (k : Option ℕ → Prog ν α)
  | next (p : ℕ) (k : Option ℕ → Prog ν α)
  | prev (p : ℕ) (k : Option ℕ → Prog ν α)
  | load (p : ℕ) (k : ν → Prog ν α)
  | store (p : ℕ) (v : ν) (k : Prog ν α)
  | link (left : Option ℕ) (v : ν) (k : ℕ → Prog ν α)
  | unlink (p : ℕ) (k : Prog ν α)

namespace Prog

protected def bind : Prog ν α → (α → Prog ν β) → Prog ν β
  | pure a, f => f a
  | fail, _ => fail
  | first k, f => first fun q => (k q).bind f
  | next p k, f => next p fun q => (k q).bind f
  | prev p k, f => prev p fun q => (k q).bind f
  | load p k, f => load p fun v => (k v).bind f
  | store p v k, f => store p v (k.bind f)
  | link left v k, f => link left v fun q => (k q).bind f
  | unlink p k, f => unlink p (k.bind f)

instance : Monad (Prog ν) where
  pure := Prog.pure
  bind := Prog.bind
end Prog

/-! ## Commands -/

section Commands
variable (p : ℕ) (left : Option ℕ) (v : ν)

/-- The pointer to the first node. -/
def first : Prog ν (Option ℕ) := .first .pure

def next : Prog ν (Option ℕ) := .next p .pure

def prev : Prog ν (Option ℕ) := .prev p .pure

/-- The value behind a pointer. -/
def load : Prog ν ν := .load p .pure

def store : Prog ν Unit := .store p v (.pure ())

/-- A new node behind `left`, or at the front; its address is the result. -/
def link : Prog ν ℕ := .link left v .pure

def unlink : Prog ν Unit := .unlink p (.pure ())
end Commands

/-! ## Machines -/

/-- An implementation of the commands. A command fails on a pointer that does not point to a
node. -/
structure Machine (ν σ : Type) where
  first : σ → Option ℕ
  next : σ → ℕ → Option (Option ℕ)
  prev : σ → ℕ → Option (Option ℕ)
  load : σ → ℕ → Option ν
  store : σ → ℕ → ν → Option σ
  link : σ → Option ℕ → ν → Option (ℕ × σ)
  unlink : σ → ℕ → Option σ

namespace Prog

def run (M : Machine ν σ) : Prog ν α → σ → Option (α × σ)
  | pure a, s => some (a, s)
  | fail, _ => none
  | first k, s => (k (M.first s)).run M s
  | next p k, s => (M.next s p).bind fun q => (k q).run M s
  | prev p k, s => (M.prev s p).bind fun q => (k q).run M s
  | load p k, s => (M.load s p).bind fun v => (k v).run M s
  | store p v k, s => (M.store s p v).bind fun s => k.run M s
  | link left v k, s => (M.link s left v).bind fun r => (k r.1).run M r.2
  | unlink p k, s => (M.unlink s p).bind fun s => k.run M s

variable {M : Machine ν σ}

theorem run_bind (x : Prog ν α) (f : α → Prog ν β) (s : σ) :
    (x >>= f).run M s = (x.run M s).bind fun r => (f r.1).run M r.2 := by
  show (x.bind f).run M s = _
  induction x generalizing s with
  | pure a => rfl
  | fail => rfl
  | first k ih => exact ih _ s
  | next p k ih =>
    simp only [Prog.bind, run, bind_assoc]
    exact congrArg _ (funext fun q => ih q s)
  | prev p k ih =>
    simp only [Prog.bind, run, bind_assoc]
    exact congrArg _ (funext fun q => ih q s)
  | load p k ih =>
    simp only [Prog.bind, run, bind_assoc]
    exact congrArg _ (funext fun v => ih v s)
  | store p v k ih =>
    simp only [Prog.bind, run, bind_assoc]
    exact congrArg _ (funext fun s => ih s)
  | link left v k ih =>
    simp only [Prog.bind, run, bind_assoc]
    exact congrArg _ (funext fun r => ih r.1 r.2)
  | unlink p k ih =>
    simp only [Prog.bind, run, bind_assoc]
    exact congrArg _ (funext fun s => ih s)
end Prog

/-! ## Rules -/

/-- The program ends, with a result and a state that satisfy the postcondition. -/
def Ends (M : Machine ν σ) (prog : Prog ν α) (s : σ) (Q : α → σ → Prop) : Prop :=
  ∃ a s', prog.run M s = some (a, s') ∧ Q a s'

section Rules
variable {ε : Type} {M : Machine ν σ} {s s' : σ} {Q : β → σ → Prop}
  {prog : Prog ν β} {b : β} {x : Prog ν α} {f : α → Prog ν β}

theorem Ends.of_run (h : prog.run M s = some (b, s')) (hQ : Q b s') :
    Ends M prog s Q := ⟨b, s', h, hQ⟩

theorem ends_pure (hQ : Q b s) : Ends M (pure b) s Q := .of_run rfl hQ

theorem Ends.bind (h : Ends M x s fun a s' => Ends M (f a) s' Q) : Ends M (x >>= f) s Q := by
  obtain ⟨a, s', hx, b, s'', hf, hQ⟩ := h
  exact .of_run (by rw [Prog.run_bind, hx, bind_some, hf]) hQ

theorem ends_bind_of_run {a : α}
    (hx : x.run M s = some (a, s')) (h : Ends M (f a) s' Q) : Ends M (x >>= f) s Q :=
  Ends.bind (.of_run hx h)

theorem Ends.mono {P : β → σ → Prop} (h : Ends M prog s P)
    (hPQ : ∀ b s', P b s' → Q b s') : Ends M prog s Q := by
  obtain ⟨b, s', hrun, hP⟩ := h
  exact .of_run hrun (hPQ b s' hP)

variable {R : Except ε β → σ → Prop}
variable {f : α → ExceptT ε (Prog ν) β}

theorem ends_throw {e : ε} (h : R (.error e) s) :
    Ends M (throw e : ExceptT ε (Prog ν) β).run s R := ends_pure h

theorem ends_return {b : β} (h : R (.ok b) s) :
    Ends M (pure b : ExceptT ε (Prog ν) β).run s R := ends_pure h

theorem Ends.bindExcept {x : ExceptT ε (Prog ν) α} (h : Ends M x.run s fun r s' =>
      match r with
      | .ok a => Ends M (f a).run s' R
      | .error e => R (.error e) s') : Ends M (x >>= f).run s R := by
  obtain ⟨r, s', hx, hr⟩ := h
  refine Ends.bind (.of_run hx ?_)
  cases r with
  | ok a => exact hr
  | error e => exact ends_pure hr

theorem Ends.bindLift {x : Prog ν α} (h : Ends M x s fun a s' => Ends M (f a).run s' R) :
    Ends M (liftM x >>= f : ExceptT ε (Prog ν) β).run s R := by
  obtain ⟨a, s', hx, hf⟩ := h
  refine Ends.bindExcept ⟨.ok a, s', ?_, hf⟩
  show (x >>= fun a => pure (Except.ok a)).run M s = _
  rw [Prog.run_bind, hx]
  rfl

theorem ends_bindLift_of_run {x : Prog ν α} {a : α}
    (hx : x.run M s = some (a, s')) (h : Ends M (f a).run s' R) :
    Ends M (liftM x >>= f : ExceptT ε (Prog ν) β).run s R :=
  Ends.bindLift (.of_run hx h)
end Rules

/-- The machine `M` implements the machine `N`: where a command of `N` succeeds, so does that of
`M`, and the states stay related. -/
structure Refines (M : Machine ν σ) (N : Machine ν τ) (R : σ → τ → Prop) : Prop where
  first : ∀ {s t}, R s t → M.first s = N.first t
  next : ∀ {s t p q}, R s t → N.next t p = some q → M.next s p = some q
  prev : ∀ {s t p q}, R s t → N.prev t p = some q → M.prev s p = some q
  load : ∀ {s t p v}, R s t → N.load t p = some v → M.load s p = some v
  store : ∀ {s t p v t'}, R s t → N.store t p v = some t' → ∃ s', M.store s p v = some s' ∧ R s' t'
  link : ∀ {s t left v q t'}, R s t → N.link t left v = some (q, t') →
    ∃ s', M.link s left v = some (q, s') ∧ R s' t'
  unlink : ∀ {s t p t'}, R s t → N.unlink t p = some t' → ∃ s', M.unlink s p = some s' ∧ R s' t'

theorem Refines.run {M : Machine ν σ} {N : Machine ν τ} {R : σ → τ → Prop} (h : Refines M N R)
    {prog : Prog ν α} {s : σ} {t : τ} {a : α} {t' : τ} (hst : R s t)
    (hrun : prog.run N t = some (a, t')) : ∃ s', prog.run M s = some (a, s') ∧ R s' t' := by
  induction prog generalizing s t with
  | pure b =>
    obtain ⟨rfl, rfl⟩ := Prod.mk.inj (some.inj hrun)
    exact ⟨s, rfl, hst⟩
  | fail => exact absurd hrun nofun
  | first k ih =>
    obtain ⟨s', hs, hR⟩ := ih _ hst hrun
    exact ⟨s', by rw [Prog.run, h.first hst, hs], hR⟩
  | next p k ih =>
    obtain ⟨q, hq, hrest⟩ := bind_eq_some_iff.mp hrun
    obtain ⟨s', hs, hR⟩ := ih q hst hrest
    exact ⟨s', by rw [Prog.run, h.next hst hq, bind_some, hs], hR⟩
  | prev p k ih =>
    obtain ⟨q, hq, hrest⟩ := bind_eq_some_iff.mp hrun
    obtain ⟨s', hs, hR⟩ := ih q hst hrest
    exact ⟨s', by rw [Prog.run, h.prev hst hq, bind_some, hs], hR⟩
  | load p k ih =>
    obtain ⟨v, hv, hrest⟩ := bind_eq_some_iff.mp hrun
    obtain ⟨s', hs, hR⟩ := ih v hst hrest
    exact ⟨s', by rw [Prog.run, h.load hst hv, bind_some, hs], hR⟩
  | store p v k ih =>
    obtain ⟨t₁, ht, hrest⟩ := bind_eq_some_iff.mp hrun
    obtain ⟨s₁, hs₁, hR₁⟩ := h.store hst ht
    obtain ⟨s', hs, hR⟩ := ih hR₁ hrest
    exact ⟨s', by rw [Prog.run, hs₁, bind_some, hs], hR⟩
  | link left v k ih =>
    obtain ⟨⟨q, t₁⟩, ht, hrest⟩ := bind_eq_some_iff.mp hrun
    obtain ⟨s₁, hs₁, hR₁⟩ := h.link hst ht
    obtain ⟨s', hs, hR⟩ := ih q hR₁ hrest
    exact ⟨s', by rw [Prog.run, hs₁, bind_some, hs], hR⟩
  | unlink p k ih =>
    obtain ⟨t₁, ht, hrest⟩ := bind_eq_some_iff.mp hrun
    obtain ⟨s₁, hs₁, hR₁⟩ := h.unlink hst ht
    obtain ⟨s', hs, hR⟩ := ih hR₁ hrest
    exact ⟨s', by rw [Prog.run, hs₁, bind_some, hs], hR⟩

/-! ## The list machine -/

/-- The nodes before an address, the value at it, and the nodes behind it. -/
def splitAddr (p : ℕ) : List (ℕ × ν) → Option (List (ℕ × ν) × ν × List (ℕ × ν))
  | [] => none
  | x :: rest =>
    if x.1 = p then some ([], x.2, rest)
    else (splitAddr p rest).map fun (before, v, behind) => (x :: before, v, behind)

/-- The nodes in their order, and the next address that is free. -/
structure Nodes (ν : Type) where
  list : List (ℕ × ν)
  fresh : ℕ

/-- The machine that keeps its nodes in a list. -/
def listMachine : Machine ν (Nodes ν) where
  first s := firstOr none s.list
  next s p := (splitAddr p s.list).map fun (_, _, behind) => firstOr none behind
  prev s p := (splitAddr p s.list).map fun (before, _, _) => lastOr none before
  load s p := (splitAddr p s.list).map fun (_, v, _) => v
  store s p v := (splitAddr p s.list).map fun (before, _, behind) =>
    { s with list := before ++ (p, v) :: behind }
  link s left v :=
    match left with
    | none => some (s.fresh, ⟨(s.fresh, v) :: s.list, s.fresh + 1⟩)
    | some p => (splitAddr p s.list).map fun (before, u, behind) =>
      (s.fresh, ⟨before ++ (p, u) :: (s.fresh, v) :: behind, s.fresh + 1⟩)
  unlink s p := (splitAddr p s.list).map fun (before, _, behind) =>
    { s with list := before ++ behind }

section Split
variable {before behind list : List (ℕ × ν)} {p : ℕ} {v : ν}

theorem splitAddr_append (h : p ∉ ids before) :
    splitAddr p (before ++ (p, v) :: behind) = some (before, v, behind) := by
  induction before with
  | nil => simp [splitAddr]
  | cons x before ih =>
    rw [ids_cons, mem_cons, not_or] at h
    rw [cons_append, splitAddr, if_neg (Ne.symm h.1), ih h.2]
    rfl

theorem eq_append_of_splitAddr (h : splitAddr p list = some (before, v, behind)) :
    list = before ++ (p, v) :: behind ∧ p ∉ ids before := by
  induction list generalizing before with
  | nil => exact absurd h nofun
  | cons x rest ih =>
    rw [splitAddr] at h
    split_ifs at h with hx
    · obtain ⟨rfl, hv⟩ := Prod.mk.inj (some.inj h)
      obtain ⟨rfl, rfl⟩ := Prod.mk.inj hv
      exact ⟨by rw [← hx]; rfl, not_mem_nil⟩
    · obtain ⟨⟨before', v', behind'⟩, hrest, heq⟩ := map_eq_some_iff.mp h
      obtain ⟨rfl, hv⟩ := Prod.mk.inj heq
      obtain ⟨rfl, rfl⟩ := Prod.mk.inj hv
      obtain ⟨rfl, hmem⟩ := ih hrest
      refine ⟨rfl, ?_⟩
      rw [ids_cons, mem_cons, not_or]
      exact ⟨Ne.symm hx, hmem⟩
end Split

/-! ## The commands at a place of the list -/

section Place
variable {before behind : List (ℕ × ν)} {p fresh : ℕ} {u v : ν}

theorem run_first (s : Nodes ν) :
    (first : Prog ν _).run listMachine s = some (firstOr none s.list, s) := rfl

theorem run_next (h : p ∉ ids before) :
    (next p : Prog ν _).run listMachine ⟨before ++ (p, v) :: behind, fresh⟩ =
      some (firstOr none behind, ⟨before ++ (p, v) :: behind, fresh⟩) := by
  simp only [next, Prog.run, listMachine, splitAddr_append h, map_some, bind_some]

theorem run_load (h : p ∉ ids before) :
    (load p).run listMachine ⟨before ++ (p, v) :: behind, fresh⟩ =
      some (v, ⟨before ++ (p, v) :: behind, fresh⟩) := by
  simp only [load, Prog.run, listMachine, splitAddr_append h, map_some, bind_some]

theorem run_store (h : p ∉ ids before) :
    (store p u).run listMachine ⟨before ++ (p, v) :: behind, fresh⟩ =
      some ((), ⟨before ++ (p, u) :: behind, fresh⟩) := by
  simp only [store, Prog.run, listMachine, splitAddr_append h, map_some, bind_some]

theorem run_unlink (h : p ∉ ids before) :
    (unlink p : Prog ν _).run listMachine ⟨before ++ (p, v) :: behind, fresh⟩ =
      some ((), ⟨before ++ behind, fresh⟩) := by
  simp only [unlink, Prog.run, listMachine, splitAddr_append h, map_some, bind_some]

/-- A node is linked in between the nodes before and behind a place. -/
theorem run_link (h : (ids before).Nodup) :
    (link (lastOr none before) v).run listMachine ⟨before ++ behind, fresh⟩ =
      some (fresh, ⟨before ++ (fresh, v) :: behind, fresh + 1⟩) := by
  rcases eq_nil_or_concat before with rfl | ⟨init, ⟨p, u⟩, rfl⟩
  · rfl
  · rw [concat_eq_append] at h ⊢
    have hp : p ∉ ids init := by
      rw [ids_append, nodup_append] at h
      exact fun hmem => h.2.2 p hmem p mem_cons_self rfl
    rw [lastOr_concat]
    simp only [link, Prog.run, listMachine, append_assoc, singleton_append,
      splitAddr_append hp, map_some, bind_some]
end Place
end ListProgram
