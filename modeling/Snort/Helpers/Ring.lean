import Mathlib

/-!
# The ring buffer of two threads

`Ring` and `RingLogic` of `ring.h` and `ring_logic.h`, shared without a lock by one thread
that calls `put` and one that calls `get`. A step of a thread is one read or write of `rx`,
`wx` or a slot.
-/

namespace Snort
open Nat List

structure RingLogic where
  sz : ℕ
  rx : ℕ
  wx : ℕ

namespace RingLogic
variable (r : RingLogic)

def next (ix : ℕ) : ℕ := if ix + 1 < r.sz then ix + 1 else 0

def count : ℕ := if r.rx + 1 ≤ r.wx then r.wx - (r.rx + 1) else r.wx + r.sz - (r.rx + 1)

/-- Whether the index advanced, and the ring after the call. -/
def push : Bool × RingLogic :=
  if r.next r.wx = r.rx then (false, r) else (true, { r with wx := r.next r.wx })

@[inherit_doc push]
def pop : Bool × RingLogic :=
  if r.next r.rx = r.wx then (false, r) else (true, { r with rx := r.next r.rx })

def full : Bool := r.count == r.sz

def empty : Bool := r.count == 0

/-- A new ring, after calls of which `m` pushes and `n` pops succeeded. -/
inductive Called (size : ℕ) : RingLogic → ℕ → ℕ → Prop
  | new : Called size ⟨size, 0, 1⟩ 0 0
  | push {r m n} : Called size r m n → Called size r.push.2 (m + r.push.1.toNat) n
  | pop {r m n} : Called size r m n → Called size r.pop.2 m (n + r.pop.1.toNat)

/-! ## Indices as numbers of calls -/

theorem eq_of_mod_eq {a b n : ℕ} (h : a % n = b % n) (hle : a ≤ b) (hlt : b < a + n) : a = b := by
  have hdvd := (modEq_iff_dvd' hle).mp h
  have hzero := eq_zero_of_dvd_of_lt hdvd (by omega)
  omega

theorem next_mod (a : ℕ) (hsz : 0 < r.sz) : r.next (a % r.sz) = (a + 1) % r.sz := by
  have hlt := mod_lt a hsz
  unfold next
  rw [← mod_add_mod]
  split_ifs with h
  · exact (mod_eq_of_lt h).symm
  · rw [show a % r.sz + 1 = r.sz by omega, mod_self]

/-- The indices when `m` values were put and `n` of them obtained. -/
structure After (m n : ℕ) : Prop where
  two_le : 2 ≤ r.sz
  rx : r.rx = n % r.sz
  wx : r.wx = (m + 1) % r.sz
  le : n ≤ m
  room : m + 2 ≤ n + r.sz

namespace After
variable {r} {m n : ℕ} (h : r.After m n)
include h

theorem size_pos : 0 < r.sz := lt_of_lt_of_le (by decide) h.two_le

theorem next_wx : r.next r.wx = (m + 2) % r.sz := by
  rw [h.wx]
  exact next_mod _ _ h.size_pos

theorem next_rx : r.next r.rx = (n + 1) % r.sz := by
  rw [h.rx]
  exact next_mod _ _ h.size_pos

/-- The test of `push`. -/
theorem room_iff : m + 2 < n + r.sz ↔ (m + 2) % r.sz ≠ r.rx := by
  have hle := h.le
  have hroom := h.room
  rw [h.rx]
  constructor
  · intro hlt heq
    have hfull := eq_of_mod_eq heq.symm (by omega) (by omega)
    omega
  · intro hne
    refine lt_of_le_of_ne hroom fun heq => hne ?_
    rw [heq, add_mod_right]

/-- The test of `pop`. -/
theorem lt_iff : n < m ↔ (n + 1) % r.sz ≠ r.wx := by
  have hroom := h.room
  rw [h.wx]
  constructor
  · intro hlt heq
    have hempty := eq_of_mod_eq heq (by omega) (by omega)
    omega
  · intro hne
    exact lt_of_le_of_ne h.le fun heq => hne (by rw [heq])

theorem count_eq : r.count = m - n := by
  have hle := h.le
  have hroom := h.room
  have hlt := mod_lt n h.size_pos
  have hwx : r.wx = (r.rx + 1 + (m - n)) % r.sz := by
    rw [h.wx, h.rx, add_assoc, mod_add_mod]
    congr 1
    omega
  rw [← h.rx] at hlt
  unfold count
  rcases lt_or_ge (r.rx + 1 + (m - n)) r.sz with hfit | hwrap
  · rw [mod_eq_of_lt hfit] at hwx
    rw [if_pos (by omega)]
    omega
  · rw [mod_eq_sub_mod hwrap, mod_eq_of_lt (by omega)] at hwx
    rw [if_neg (by omega)]
    omega

theorem push : r.push.2.After (m + r.push.1.toNat) n ∧ (r.push.1 ↔ m + 2 < n + r.sz) := by
  unfold RingLogic.push
  rw [h.room_iff, h.next_wx]
  split_ifs with heq
  · exact ⟨h, by simpa using heq⟩
  · exact ⟨⟨h.two_le, h.rx, rfl, h.le.trans (le_succ m), h.room_iff.mpr heq⟩, by simpa using heq⟩

theorem pop : r.pop.2.After m (n + r.pop.1.toNat) ∧ (r.pop.1 ↔ n < m) := by
  unfold RingLogic.pop
  rw [h.lt_iff, h.next_rx]
  split_ifs with heq
  · exact ⟨h, by simpa using heq⟩
  · refine ⟨⟨h.two_le, rfl, h.wx, h.lt_iff.mpr heq, h.room.trans ?_⟩, by simpa using heq⟩
    exact Nat.add_le_add_right (le_succ n) _
end After

theorem Called.after {size m n : ℕ} (h : 2 ≤ size) (hr : Called size r m n) :
    r.After m n ∧ r.sz = size := by
  induction hr with
  | new => exact ⟨⟨h, (zero_mod _).symm, (mod_eq_of_lt h).symm, le_rfl, by simpa using h⟩, rfl⟩
  | push _ ih => exact ⟨ih.1.push.1, by rw [← ih.2]; unfold RingLogic.push; split_ifs <;> rfl⟩
  | pop _ ih => exact ⟨ih.1.pop.1, by rw [← ih.2]; unfold RingLogic.pop; split_ifs <;> rfl⟩

/-- `full` asks for `sz` values, and `push` fails with `sz - 2`. -/
theorem observers_iff {size m n : ℕ} (h : 2 ≤ size) (hr : Called size r m n) :
    ((r.count : ℤ) = m - n ∧ (r.empty ↔ ¬ r.pop.1) ∧ (r.full ↔ ¬ r.push.1)) ↔ m + 2 < n + size := by
  obtain ⟨hafter, rfl⟩ := hr.after r h
  have hle := hafter.le
  have hroom := hafter.room
  have hfull : ¬ r.full := by
    rw [full, hafter.count_eq, beq_iff_eq]
    omega
  rw [hafter.pop.2, hafter.push.2, empty, hafter.count_eq, beq_iff_eq]
  constructor
  · rintro ⟨-, -, hiff⟩
    exact not_not.mp (mt hiff.mpr hfull)
  · intro hlt
    exact ⟨by omega, by omega, fun hf => absurd hf hfull, fun hn => absurd hlt hn⟩

/-- Two values are pushed into a ring of four slots, and one is popped. -/
theorem observers_four_popped :
    let r : RingLogic := ⟨4, 1, 3⟩
    2 ≤ 4 ∧ Called 4 r 2 1 ∧
      (r.count : ℤ) = 2 - 1 ∧ (r.empty ↔ ¬ r.pop.1) ∧ (r.full ↔ ¬ r.push.1) := by
  intro r
  have hcalled : Called 4 r 2 1 := Called.new.push.push.pop
  exact ⟨by decide, hcalled, (observers_iff r (by decide) hcalled).mpr (by decide)⟩

/-- One value fills the ring of three slots. -/
theorem full_three_pushed : ∃ r, Called 3 r 1 0 ∧ r.push.1 = false ∧ r.full = false :=
  ⟨⟨3, 0, 2⟩, Called.new.push, by decide, by decide⟩
end RingLogic

structure Ring (T : Type) extends RingLogic where
  store : ℕ → T

/-- The constructor; `store` is what the new array holds. -/
def Ring.new {T : Type} (size : ℕ) (store : ℕ → T) : Ring T := ⟨⟨size, 0, 1⟩, store⟩

/-- The values from the next one to read on. -/
def Ring.contents {T : Type} (r : Ring T) : List T :=
  (List.range r.count).map fun i => r.store ((r.rx + 1 + i) % r.sz)

/-- The next access of `put`. -/
inductive Producer (T : Type) where
  | idle
  | testWrite (v : T) (nx : ℕ)
  | index (v : T)
  | store (v : T) (ix : ℕ)
  | push (v : T)
  | testPush (v : T) (nx : ℕ)
  | advance (v : T) (nx : ℕ)

/-- The next access of `get`. -/
inductive Consumer (T : Type) where
  | idle
  | testRead (nx : ℕ)
  | fetch (nx : ℕ)
  | pop (v : T)
  | testPop (v : T) (nx : ℕ)
  | advance (v : T) (nx : ℕ)

/-- The ring and the two threads, with the values put and obtained so far. -/
structure RingSystem (T : Type) where
  ring : Ring T
  producer : Producer T
  consumer : Consumer T
  puts : List T
  got : List T

namespace RingSystem
variable {T : Type}

/-- A step of the producer. An idle one calls `put v`. -/
def produce (v : T) (s : RingSystem T) : RingSystem T :=
  match s.producer with
  | .idle => { s with producer := .testWrite v (s.ring.next s.ring.wx) }
  | .testWrite v nx =>
    { s with producer := if nx = s.ring.rx then .idle else .index v }
  | .index v => { s with producer := .store v s.ring.wx }
  | .store v ix =>
    { s with
      ring := { s.ring with store := Function.update s.ring.store ix v }, producer := .push v }
  | .push v => { s with producer := .testPush v (s.ring.next s.ring.wx) }
  | .testPush v nx =>
    -- `put` does not look at what `push` returns
    if nx = s.ring.rx then { s with producer := .idle, puts := s.puts ++ [v] }
    else { s with producer := .advance v nx }
  | .advance v nx =>
    { s with ring := { s.ring with wx := nx }, producer := .idle, puts := s.puts ++ [v] }

/-- A step of the consumer. An idle one calls `get`. -/
def consume (s : RingSystem T) : RingSystem T :=
  match s.consumer with
  | .idle => { s with consumer := .testRead (s.ring.next s.ring.rx) }
  | .testRead nx => { s with consumer := if nx = s.ring.wx then .idle else .fetch nx }
  | .fetch nx => { s with consumer := .pop (s.ring.store nx) }
  | .pop v => { s with consumer := .testPop v (s.ring.next s.ring.rx) }
  | .testPop v nx =>
    if nx = s.ring.wx then { s with consumer := .idle, got := s.got ++ [v] }
    else { s with consumer := .advance v nx }
  | .advance v nx =>
    { s with ring := { s.ring with rx := nx }, consumer := .idle, got := s.got ++ [v] }

/-- Whose turn it is. -/
inductive Turn (T : Type) where
  | producer (v : T)
  | consumer

def step (s : RingSystem T) : Turn T → RingSystem T
  | .producer v => s.produce v
  | .consumer => s.consume

def run (s : RingSystem T) (turns : List (Turn T)) : RingSystem T := turns.foldl step s

/-- Nothing was called yet. -/
def new (size : ℕ) (store : ℕ → T) : RingSystem T := ⟨Ring.new size store, .idle, .idle, [], []⟩

/-- There is room for one more value. -/
def HasRoom (s : RingSystem T) : Prop := s.puts.length + 2 < s.got.length + s.ring.sz

/-- `wx` after the next `put`. -/
def wxNext (s : RingSystem T) : ℕ := (s.puts.length + 2) % s.ring.sz

/-- `rx` after the next `get`. -/
def rxNext (s : RingSystem T) : ℕ := (s.got.length + 1) % s.ring.sz

def ProducerOk (s : RingSystem T) : Producer T → Prop
  | .idle => True
  | .testWrite _ nx => nx = s.wxNext
  | .index _ => s.HasRoom
  | .store _ ix => s.HasRoom ∧ ix = s.ring.wx
  | .push v => s.HasRoom ∧ s.ring.store s.ring.wx = v
  | .testPush v nx | .advance v nx => s.HasRoom ∧ s.ring.store s.ring.wx = v ∧ nx = s.wxNext

def ConsumerOk (s : RingSystem T) : Consumer T → Prop
  | .idle => True
  | .testRead nx => nx = s.rxNext
  | .fetch nx => s.got.length < s.puts.length ∧ nx = s.rxNext
  | .pop v => s.puts[s.got.length]? = some v
  | .testPop v nx | .advance v nx => s.puts[s.got.length]? = some v ∧ nx = s.rxNext

/-- The values put and not obtained are in the slots between the indices. -/
structure Inv (size : ℕ) (s : RingSystem T) : Prop where
  sz : s.ring.sz = size
  three_le : 3 ≤ size
  rx : s.ring.rx = s.got.length % s.ring.sz
  wx : s.ring.wx = (s.puts.length + 1) % s.ring.sz
  room : s.puts.length + 2 ≤ s.got.length + s.ring.sz
  got : s.got <+: s.puts
  slots : ∀ i v, s.got.length ≤ i → s.puts[i]? = some v → s.ring.store ((i + 1) % s.ring.sz) = v
  producer : s.ProducerOk s.producer
  consumer : s.ConsumerOk s.consumer

namespace Inv
variable {size : ℕ} {s : RingSystem T}

section
variable (h : Inv size s)
include h

theorem after : s.ring.After s.puts.length s.got.length :=
  ⟨h.sz.symm ▸ le_of_succ_le h.three_le, h.rx, h.wx, h.got.length_le, h.room⟩

theorem withProducer {p : Producer T} (hp : s.ProducerOk p) : Inv size { s with producer := p } :=
  ⟨h.sz, h.three_le, h.rx, h.wx, h.room, h.got, h.slots, hp, h.consumer⟩

theorem withConsumer {c : Consumer T} (hc : s.ConsumerOk c) : Inv size { s with consumer := c } :=
  ⟨h.sz, h.three_le, h.rx, h.wx, h.room, h.got, h.slots, h.producer, hc⟩

theorem store (hroom : s.HasRoom) (v : T) :
    Inv size { s with
      ring := { s.ring with store := Function.update s.ring.store s.ring.wx v }
      producer := .push v } where
  __ := h
  slots := by
    intro i w (hi : s.got.length ≤ i) (hw : s.puts[i]? = some w)
    have hlt := (List.getElem?_eq_some_iff.mp hw).1
    have hroom := h.room
    refine (Function.update_of_ne (fun heq => ?_) _ _).trans (h.slots i w hi hw)
    change (i + 1) % s.ring.sz = s.ring.wx at heq
    rw [h.wx] at heq
    have hend := RingLogic.eq_of_mod_eq heq (by omega) (by omega)
    omega
  producer := ⟨hroom, Function.update_self ..⟩

theorem advanceWx (hroom : s.HasRoom) {v : T} (hv : s.ring.store s.ring.wx = v) :
    Inv size { s with
      ring := { s.ring with wx := s.wxNext }, producer := .idle, puts := s.puts ++ [v] } where
  __ := h
  wx := by rw [length_append]; rfl
  room := by
    rw [length_append]
    exact hroom
  got := h.got.trans (prefix_append ..)
  slots := by
    intro i w hi hw
    rcases lt_or_ge i s.puts.length with hlt | hge
    · rw [List.getElem?_append_left hlt] at hw
      exact h.slots i w hi hw
    · obtain ⟨hlt, hget⟩ := List.getElem?_eq_some_iff.mp hw
      rw [length_append, length_singleton] at hlt
      obtain rfl : i = s.puts.length := by omega
      rw [getElem_concat_length rfl] at hget
      rw [← hget, ← hv, h.wx]
  producer := trivial
  consumer := by
    have hmore {w : T} (hw : s.puts[s.got.length]? = some w) :
        (s.puts ++ [v])[s.got.length]? = some w :=
      (List.getElem?_append_left (List.getElem?_eq_some_iff.mp hw).1).trans hw
    have hc := h.consumer
    cases hs : s.consumer <;> rw [hs] at hc
    case idle => trivial
    case testRead => exact hc
    case fetch =>
      refine ⟨?_, hc.2⟩
      rw [length_append]
      exact Nat.lt_add_right _ hc.1
    case pop => exact hmore hc
    case testPop => exact ⟨hmore hc.1, hc.2⟩
    case advance => exact ⟨hmore hc.1, hc.2⟩

theorem advanceRx {v : T} (hv : s.puts[s.got.length]? = some v) :
    Inv size { s with
      ring := { s.ring with rx := s.rxNext }, consumer := .idle, got := s.got ++ [v] } where
  __ := h
  rx := by rw [length_append]; rfl
  room := by
    have hroom := h.room
    show s.puts.length + 2 ≤ (s.got ++ [v]).length + s.ring.sz
    rw [length_append]
    omega
  got := by
    obtain ⟨rest, hrest⟩ := h.got
    rw [← hrest, getElem?_append_right le_rfl, Nat.sub_self] at hv
    cases rest with
    | nil => cases hv
    | cons w rest =>
      obtain rfl := Option.some.inj hv
      exact ⟨rest, by rw [append_assoc]; exact hrest⟩
  slots := by
    intro i w hi hw
    rw [length_append] at hi
    exact h.slots i w (le_of_succ_le hi) hw
  producer := by
    have hmore (hroom : s.HasRoom) : s.puts.length + 2 < (s.got ++ [v]).length + s.ring.sz := by
      unfold HasRoom at hroom
      rw [length_append]
      omega
    have hp := h.producer
    cases hs : s.producer <;> rw [hs] at hp
    case idle => trivial
    case testWrite => exact hp
    case index => exact hmore hp
    case store => exact ⟨hmore hp.1, hp.2⟩
    case push => exact ⟨hmore hp.1, hp.2⟩
    case testPush => exact ⟨hmore hp.1, hp.2⟩
    case advance => exact ⟨hmore hp.1, hp.2⟩
  consumer := trivial

theorem produce (v : T) : Inv size (s.produce v) := by
  have hp := h.producer
  unfold RingSystem.produce
  cases hs : s.producer <;> rw [hs] at hp <;> dsimp only
  case idle => exact h.withProducer h.after.next_wx
  case testWrite v nx =>
    obtain rfl := hp
    split_ifs with heq
    · exact h.withProducer trivial
    · exact h.withProducer (h.after.room_iff.mpr heq)
  case index v => exact h.withProducer ⟨hp, rfl⟩
  case store v ix =>
    obtain ⟨hroom, rfl⟩ := hp
    exact h.store hroom v
  case push v => exact h.withProducer ⟨hp.1, hp.2, h.after.next_wx⟩
  case testPush v nx =>
    obtain ⟨hroom, hv, rfl⟩ := hp
    rw [if_neg (show s.wxNext ≠ _ from h.after.room_iff.mp hroom)]
    exact h.withProducer ⟨hroom, hv, rfl⟩
  case advance v nx =>
    obtain ⟨hroom, hv, rfl⟩ := hp
    exact h.advanceWx hroom hv

theorem consume : Inv size s.consume := by
  have hc := h.consumer
  unfold RingSystem.consume
  cases hs : s.consumer <;> rw [hs] at hc <;> dsimp only
  case idle => exact h.withConsumer h.after.next_rx
  case testRead nx =>
    obtain rfl := hc
    split_ifs with heq
    · exact h.withConsumer trivial
    · exact h.withConsumer ⟨h.after.lt_iff.mpr heq, rfl⟩
  case fetch nx =>
    obtain ⟨hlt, rfl⟩ := hc
    have hget := getElem?_eq_getElem hlt
    refine h.withConsumer (hget.trans (congrArg some ?_))
    exact (h.slots _ _ le_rfl hget).symm
  case pop v => exact h.withConsumer ⟨hc, h.after.next_rx⟩
  case testPop v nx =>
    obtain ⟨hv, rfl⟩ := hc
    rw [if_neg (show s.rxNext ≠ _ from h.after.lt_iff.mp (List.getElem?_eq_some_iff.mp hv).1)]
    exact h.withConsumer ⟨hv, rfl⟩
  case advance v nx =>
    obtain ⟨hv, rfl⟩ := hc
    exact h.advanceRx hv

theorem contents_eq : s.puts = s.got ++ s.ring.contents := by
  obtain ⟨rest, hrest⟩ := h.got
  rw [← hrest]
  refine congrArg (s.got ++ ·) (ext_getElem? fun i => ?_)
  have hlen : s.ring.count = rest.length := by
    rw [h.after.count_eq, ← hrest, length_append, Nat.add_sub_cancel_left]
  have hget : rest[i]? = s.puts[s.got.length + i]? := by
    rw [← hrest, getElem?_append_right (Nat.le_add_right _ _), Nat.add_sub_cancel_left]
  unfold Ring.contents
  rw [getElem?_map, hlen]
  rcases lt_or_ge i rest.length with hlt | hge
  · rw [getElem?_range hlt, getElem?_eq_getElem hlt]
    rw [getElem?_eq_getElem hlt] at hget
    refine congrArg some ?_
    dsimp only
    rw [← h.slots _ _ (Nat.le_add_right _ _) hget.symm, h.rx, add_assoc (_ % _), mod_add_mod]
    congr 2
    omega
  · rw [getElem?_eq_none hge, getElem?_eq_none (by rwa [length_range])]
    rfl
end
end Inv

theorem inv_new (size : ℕ) (store : ℕ → T) (h : 3 ≤ size) : Inv size (new size store) where
  sz := rfl
  three_le := h
  rx := (zero_mod _).symm
  wx := (mod_eq_of_lt (show 0 + 1 < size by omega)).symm
  room := show 2 ≤ 0 + size by omega
  got := prefix_rfl
  slots := by
    intro i v _ hv
    cases hv
  producer := trivial
  consumer := trivial

theorem inv_run {size : ℕ} {s : RingSystem T} (h : Inv size s) (turns : List (Turn T)) :
    Inv size (s.run turns) := by
  induction turns generalizing s with
  | nil => exact h
  | cons turn turns ih =>
    cases turn with
    | producer v => exact ih (h.produce v)
    | consumer => exact ih h.consume

/-- What was put is what was obtained, followed by what is in the ring. -/
theorem run_fifo (size : ℕ) (h : 3 ≤ size) (store : ℕ → T) (turns : List (Turn T)) :
    let s := (new size store).run turns
    s.puts = s.got ++ s.ring.contents ∧ s.ring.contents.length = s.ring.count ∧
      s.ring.count ≤ size - 2 := by
  intro s
  have hs : Inv size s := inv_run (inv_new size store h) turns
  refine ⟨hs.contents_eq, ?_, ?_⟩
  · rw [Ring.contents, length_map, length_range]
  · have hroom := hs.room
    rw [hs.sz] at hroom
    rw [hs.after.count_eq]
    omega

/-- The producer and the consumer take turns, on a ring for one value. -/
theorem run_fifo_three :
    let s := (new 3 fun _ => 0).run ((List.range 12).flatMap fun i => [.producer i, .consumer])
    s.puts = s.got ++ s.ring.contents ∧ s.ring.contents.length = s.ring.count ∧ s.ring.count ≤ 1 :=
  run_fifo 3 le_rfl _ _
end RingSystem
end Snort
