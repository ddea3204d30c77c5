import Mathlib

/-!
# File segments

`file_segment.cc` queues the segments of a file that come out of order and hands the data
to the file context in order. What is handed over is recorded. A queued segment keeps only
32 bits of its offset.
-/

namespace Snort.FileApi
open List

structure FileSegment where
  offset : ℕ
  data : List UInt8
deriving DecidableEq

def FileSegment.stop (s : FileSegment) : ℕ := s.offset + s.data.length

inductive FilePosition where
  | start | middle | stop | full
deriving DecidableEq

/-- The data handed to the context with its position, in order. -/
abbrev Handed := List (List UInt8 × FilePosition)

structure FileSegments where
  head : List FileSegment
  currentOffset : ℕ
  handed : Handed
deriving DecidableEq

namespace FileSegments

def empty : FileSegments := ⟨[], 0, []⟩

def clear (fs : FileSegments) : FileSegments := { fs with head := [], currentOffset := 0 }

/-- The segments in front of `start` and behind it. In front of the first segment and between two of
them a new one that overlaps is ignored; behind the last one it is not. -/
def add (fs : FileSegments) (data : List UInt8) (offset : ℕ) : FileSegments :=
  let new : FileSegment := ⟨offset % 2 ^ 32, data⟩
  let before := fs.head.takeWhile fun s => s.offset ≤ offset
  let after := fs.head.dropWhile fun s => s.offset ≤ offset
  match after.head? with
  | none => { fs with head := fs.head ++ [new] }
  | some next =>
    match before.getLast? with
    | none =>
      if offset + data.length ≤ next.offset then { fs with head := new :: fs.head } else fs
    | some left =>
      if offset < left.stop ∨ next.offset < offset + data.length then fs
      else { fs with head := before ++ new :: after }

/-- `fileSize` is what the context knows, and `proceed` is its answer to what it was handed: it
goes on or ignores the file. -/
structure FileContext where
  fileSize : ℕ
  proceed : Handed → Bool

variable (ctx : FileContext)

def getFilePosition (fs : FileSegments) (dataSize : ℕ) : FilePosition :=
  if fs.currentOffset = 0 then if ctx.fileSize = dataSize then .full else .start
  else if ctx.fileSize ≤ dataSize + fs.currentOffset then .stop
  else .middle

def processOne (fs : FileSegments) (data : List UInt8) : Bool × FileSegments :=
  let handed := fs.handed ++ [(data, fs.getFilePosition ctx data.length)]
  (ctx.proceed handed, { fs with handed })

/-- The loop of `process_all` over the segments from the head on -/
def processAll (fs : FileSegments) : List FileSegment → Bool × FileSegments
  | [] => (true, { fs with head := [] })
  | s :: segments =>
    if fs.currentOffset = s.offset then
      match fs.processOne ctx s.data with
      | (false, fs) => (false, fs.clear)
      | (true, fs) => processAll { fs with currentOffset := fs.currentOffset + s.data.length }
          segments
    else (true, { fs with head := s :: segments })

/-- A call of `process` -/
structure Call where
  data : List UInt8
  offset : ℕ
deriving DecidableEq

def Call.stop (c : Call) : ℕ := c.offset + c.data.length

def process (fs : FileSegments) (c : Call) : Bool × FileSegments :=
  let fs := if c.offset = 0 then { fs with currentOffset := 0 } else fs
  if fs.currentOffset = c.offset then
    match fs.processOne ctx c.data with
    | (false, fs) => (false, fs.clear)
    | (true, fs) => processAll ctx { fs with currentOffset := fs.currentOffset + c.data.length }
        fs.head
  else if fs.currentOffset < ctx.fileSize ∧ fs.currentOffset < c.offset then
    (false, fs.add c.data c.offset)
  else (false, fs)

def run (fs : FileSegments) (calls : List Call) : FileSegments :=
  calls.foldl (fun fs c => (fs.process ctx c).2) fs

/-- The bytes handed over -/
def output (fs : FileSegments) : List UInt8 := (fs.handed.map Prod.fst).flatten

/-! ## Slices of a file -/

/-- A non-empty slice of the file -/
structure IsSlice (file data : List UInt8) (offset : ℕ) : Prop where
  data_eq : data = (file.drop offset).take data.length
  pos : 0 < data.length
  stop_le : offset + data.length ≤ file.length

/-- The call repeats nothing that was not handed over yet. It does not begin the file again. -/
structure Fits (fs : FileSegments) (c : Call) : Prop where
  again : c.offset = 0 → fs.currentOffset = 0
  old : c.offset < fs.currentOffset → c.stop ≤ fs.currentOffset
  apart : ∀ s ∈ fs.head, fs.currentOffset ≤ c.offset → c.stop ≤ s.offset ∨ s.stop ≤ c.offset
  short : c.offset < 2 ^ 32

/-- Every call of the run fits. -/
def AllFit (fs : FileSegments) : List Call → Prop
  | [] => True
  | c :: calls => fs.Fits c ∧ AllFit (fs.process ctx c).2 calls

/-- The calls follow each other from `a` to `n`. -/
def Covers : ℕ → List Call → ℕ → Prop
  | a, [], n => a = n
  | a, c :: calls, n => c.offset = a ∧ Covers c.stop calls n

/-- What holds of the queue after the calls of `received`; segments that can be handed over come
later than `currentOffset` unless they are being handed over. -/
structure Queue (file : List UInt8) (received : List Call) (fs : FileSegments)
    (segments : List FileSegment) : Prop where
  output : fs.output = file.take fs.currentOffset
  le : fs.currentOffset ≤ file.length
  sorted : segments.Pairwise fun s t => s.stop ≤ t.offset
  slice : ∀ s ∈ segments, IsSlice file s.data s.offset
  ahead : ∀ s ∈ segments, fs.currentOffset ≤ s.offset
  received : ∀ c ∈ received, c.stop ≤ fs.currentOffset ∨
    (⟨c.offset, c.data⟩ : FileSegment) ∈ segments

structure Inv (file : List UInt8) (received : List Call) (fs : FileSegments) : Prop extends
    Queue file received fs fs.head where
  waiting : ∀ s ∈ fs.head, fs.currentOffset < s.offset

variable {ctx} {file : List UInt8} {received : List Call} {fs : FileSegments}

theorem output_processOne {data : List UInt8} (hout : fs.output = file.take fs.currentOffset)
    (hdata : IsSlice file data fs.currentOffset) :
    (fs.processOne ctx data).2.output = file.take (fs.currentOffset + data.length) := by
  show ((fs.handed ++ _).map Prod.fst).flatten = _
  rw [map_append, flatten_append, take_add, ← hdata.data_eq]
  exact congrArg₂ _ hout (append_nil _)

theorem processAll_inv (hgo : ∀ handed, ctx.proceed handed = true) {segments : List FileSegment}
    (h : Queue file received fs segments) : Inv file received (fs.processAll ctx segments).2 := by
  induction segments generalizing fs with
  | nil => exact ⟨⟨h.output, h.le, h.sorted, h.slice, h.ahead, h.received⟩, nofun⟩
  | cons s segments ih =>
    obtain ⟨hfirst, hsorted⟩ := pairwise_cons.mp h.sorted
    obtain ⟨hs, hslice⟩ := forall_mem_cons.mp h.slice
    rw [processAll]
    split_ifs with heq
    · have hone : fs.processOne ctx s.data = (true, (fs.processOne ctx s.data).2) :=
        Prod.ext (hgo _) rfl
      rw [hone]
      refine ih ⟨output_processOne h.output (heq ▸ hs), ?_, hsorted, hslice, ?_, ?_⟩
      · exact (congrArg (· + _) heq).trans_le hs.stop_le
      · exact fun t ht => (congrArg (· + _) heq).trans_le (hfirst t ht)
      · intro c hc
        rcases h.received c hc with hle | hmem
        · exact .inl (hle.trans (Nat.le_add_right _ _))
        · rcases mem_cons.mp hmem with rfl | hmem
          · exact .inl (congrArg (· + _) heq.symm).le
          · exact .inr hmem
    · refine ⟨⟨h.output, h.le, h.sorted, h.slice, h.ahead, h.received⟩,
        forall_mem_cons.mpr ⟨?_, ?_⟩⟩
      · exact lt_of_le_of_ne (h.ahead s mem_cons_self) heq
      · intro t ht
        have hpos := hs.pos
        have hle := h.ahead s mem_cons_self
        exact (show fs.currentOffset < s.stop from Nat.lt_of_le_of_lt hle
          (Nat.lt_add_of_pos_right hpos)).trans_le
          (hfirst t ht)

theorem add_eq {c : Call} (hsorted : fs.head.Pairwise fun s t => s.stop ≤ t.offset)
    (hpos : 0 < c.data.length) (hshort : c.offset < 2 ^ 32)
    (hapart : ∀ s ∈ fs.head, c.stop ≤ s.offset ∨ s.stop ≤ c.offset) :
    ∃ before after, fs.head = before ++ after ∧ (∀ s ∈ before, s.stop ≤ c.offset) ∧
      (∀ s ∈ after, c.stop ≤ s.offset) ∧
      fs.add c.data c.offset = { fs with head := before ++ ⟨c.offset, c.data⟩ :: after } := by
  have happend := takeWhile_append_dropWhile (p := fun s : FileSegment => s.offset ≤ c.offset)
    (l := fs.head)
  have hstop : c.offset < c.stop := Nat.lt_add_of_pos_right hpos
  have hbefore : ∀ s ∈ fs.head.takeWhile fun s => s.offset ≤ c.offset, s.stop ≤ c.offset := by
    intro s hs
    have hle : s.offset ≤ c.offset := by simpa using mem_takeWhile_imp hs
    exact (hapart s (takeWhile_subset _ hs)).resolve_left (by omega)
  have hafter : ∀ s ∈ fs.head.dropWhile fun s => s.offset ≤ c.offset, c.stop ≤ s.offset := by
    have hrest := hsorted.sublist (dropWhile_sublist fun s : FileSegment => s.offset ≤ c.offset)
    intro s hs
    have hlt : c.offset < s.offset := by
      cases hl : fs.head.dropWhile fun s => s.offset ≤ c.offset with
      | nil => rw [hl] at hs; exact absurd hs not_mem_nil
      | cons t l =>
        have hne : fs.head.dropWhile (fun s => s.offset ≤ c.offset) ≠ [] := hl ▸ cons_ne_nil t l
        have ht : c.offset < t.offset := by simpa [hl] using head_dropWhile_not _ hne
        rw [hl] at hs hrest
        rcases mem_cons.mp hs with rfl | hs
        · exact ht
        · exact ht.trans_le ((Nat.le_add_right _ _).trans ((pairwise_cons.mp hrest).1 s hs))
    refine (hapart s ((dropWhile_sublist _).subset hs)).resolve_right fun hle => ?_
    exact absurd hlt (not_lt.mpr ((Nat.le_add_right _ _).trans hle))
  refine ⟨_, _, happend.symm, hbefore, hafter, ?_⟩
  have hnew : (⟨c.offset % 2 ^ 32, c.data⟩ : FileSegment) = ⟨c.offset, c.data⟩ := by
    rw [Nat.mod_eq_of_lt hshort]
  unfold add
  rw [hnew]
  generalize fs.head.takeWhile _ = before at *
  generalize fs.head.dropWhile _ = after at *
  dsimp only
  rw [← happend]
  cases after with
  | nil => rw [append_nil]; rfl
  | cons next after =>
    have hnext := hafter next mem_cons_self
    cases hlast : before.getLast? with
    | none =>
      obtain rfl := getLast?_eq_none_iff.mp hlast
      exact if_pos hnext
    | some left =>
      have hleft := hbefore left (mem_of_getLast? hlast)
      exact if_neg (not_or.mpr ⟨not_lt.mpr hleft, not_lt.mpr hnext⟩)

theorem process_inv (hsize : ctx.fileSize = file.length) (hgo : ∀ handed, ctx.proceed handed = true)
    (h : Inv file received fs) {c : Call} (hslice : IsSlice file c.data c.offset)
    (hfit : fs.Fits c) :
    Inv file (received ++ [c]) (fs.process ctx c).2 := by
  have hfresh : (if c.offset = 0 then { fs with currentOffset := 0 } else fs) = fs := by
    split_ifs with hzero
    · rw [← hfit.again hzero]
    · rfl
  have hreceived (P : Call → Prop) (hold : ∀ d ∈ received, P d) (hnew : P c) :
      ∀ d ∈ received ++ [c], P d :=
    forall_mem_append.mpr ⟨hold, forall_mem_singleton.mpr hnew⟩
  unfold process
  rw [hfresh]
  rcases lt_trichotomy c.offset fs.currentOffset with hlt | heq | hgt
  · rw [if_neg hlt.ne', if_neg (by omega)]
    exact ⟨⟨h.output, h.le, h.sorted, h.slice, h.ahead,
      hreceived _ h.received (.inl (hfit.old hlt))⟩, h.waiting⟩
  · have hone : fs.processOne ctx c.data = (true, (fs.processOne ctx c.data).2) :=
      Prod.ext (hgo _) rfl
    rw [if_pos heq.symm, hone]
    refine processAll_inv hgo ⟨output_processOne h.output (heq ▸ hslice), ?_, h.sorted, h.slice, ?_,
      hreceived _ ?_ ?_⟩
    · exact (congrArg (· + _) heq.symm).trans_le hslice.stop_le
    · intro s hs
      have hahead := h.waiting s hs
      have happart := hfit.apart s hs heq.ge
      unfold FileSegment.stop Call.stop at happart
      show fs.currentOffset + c.data.length ≤ s.offset
      omega
    · exact fun d hd => (h.received d hd).imp_left fun hle => hle.trans (Nat.le_add_right _ _)
    · exact .inl (congrArg (· + _) heq).le
  · have hstop := hslice.stop_le
    have hpos := hslice.pos
    rw [if_neg hgt.ne, if_pos (by omega)]
    obtain ⟨before, after, hhead, hbefore, hafter, hadd⟩ := add_eq h.sorted hslice.pos hfit.short
      fun s hs => hfit.apart s hs hgt.le
    have hperm : (before ++ ⟨c.offset, c.data⟩ :: after) ~ ⟨c.offset, c.data⟩ :: fs.head := by
      rw [hhead]
      exact perm_middle
    have hmem (P : FileSegment → Prop) (hnew : P ⟨c.offset, c.data⟩) (hold : ∀ s ∈ fs.head, P s) :
        ∀ s ∈ before ++ ⟨c.offset, c.data⟩ :: after, P s := fun s hs =>
      forall_mem_cons.mpr ⟨hnew, hold⟩ s (hperm.subset hs)
    have hsorted := h.sorted
    rw [hhead] at hsorted
    obtain ⟨hsb, hsa, hba⟩ := pairwise_append.mp hsorted
    rw [hadd]
    refine ⟨⟨h.output, h.le, ?_, hmem _ hslice h.slice, hmem _ hgt.le h.ahead, hreceived _ ?_ ?_⟩,
      hmem _ hgt h.waiting⟩
    · refine pairwise_append.mpr ⟨hsb, pairwise_cons.mpr ⟨hafter, hsa⟩, fun s hs => ?_⟩
      exact forall_mem_cons.mpr ⟨hbefore s hs, hba s hs⟩
    · exact fun d hd => (h.received d hd).imp_right fun hd =>
        hperm.symm.subset (mem_cons_of_mem _ hd)
    · exact .inr (hperm.symm.subset mem_cons_self)

/-- Slices that follow each other from the beginning were all handed over. -/
theorem Inv.covers (h : Inv file received fs) {calls : List Call} (hsub : ∀ c ∈ calls, c ∈ received)
    {a n : ℕ} (ha : a ≤ fs.currentOffset) (hcovers : Covers a calls n) : n ≤ fs.currentOffset := by
  induction calls generalizing a with
  | nil => exact hcovers ▸ ha
  | cons c calls ih =>
    obtain ⟨hc, hcalls⟩ := forall_mem_cons.mp hsub
    obtain ⟨rfl, hrest⟩ := hcovers
    refine ih hcalls ((h.received c hc).resolve_right fun hmem => ?_) hrest
    exact absurd ha (not_le.mpr (h.waiting _ hmem))

theorem run_inv (hsize : ctx.fileSize = file.length) (hgo : ∀ handed, ctx.proceed handed = true)
    (h : Inv file received fs) {calls : List Call}
    (hslice : ∀ c ∈ calls, IsSlice file c.data c.offset)
    (hfits : fs.AllFit ctx calls) : Inv file (received ++ calls) (fs.run ctx calls) := by
  induction calls generalizing received fs with
  | nil => rwa [append_nil]
  | cons c calls ih =>
    obtain ⟨hc, hcalls⟩ := forall_mem_cons.mp hslice
    rw [append_cons]
    exact ih (process_inv hsize hgo h hc hfits.1) hcalls hfits.2

/-- As long as every call fits and the context goes on, the queue is sorted without overlaps, a
prefix of the file was handed over, and slices that make up a prefix were handed over. -/
theorem run_handed (file : List UInt8) (ctx : FileContext) (hsize : ctx.fileSize = file.length)
    (hgo : ∀ handed, ctx.proceed handed = true) (calls : List Call)
    (hslice : ∀ c ∈ calls, IsSlice file c.data c.offset) (hfits : empty.AllFit ctx calls) :
    let fs := empty.run ctx calls
    fs.head.Pairwise (fun s t => s.stop ≤ t.offset) ∧ fs.output <+: file ∧
      ∀ slices n, (∀ c ∈ slices, c ∈ calls) → Covers 0 slices n → n ≤ fs.output.length := by
  have hempty : Inv file [] empty := ⟨⟨rfl, Nat.zero_le _, .nil, nofun, nofun, nofun⟩, nofun⟩
  have hinv := run_inv hsize hgo hempty hslice hfits
  refine ⟨hinv.sorted, ?_, fun slices n hsub hcovers => ?_⟩
  · rw [hinv.output]
    exact take_prefix _ _
  · rw [hinv.output, length_take_of_le hinv.le]
    exact hinv.covers hsub (Nat.zero_le _) hcovers

/-! ## A file of six bytes -/

def sampleFile : List UInt8 := [0, 1, 2, 3, 4, 5]

def sampleContext : FileContext := ⟨6, fun _ => true⟩

def sampleSlice (offset n : ℕ) : Call := ⟨(sampleFile.drop offset).take n, offset⟩

theorem run_handed_reversed :
    let fs := empty.run sampleContext [sampleSlice 3 3, sampleSlice 0 3]
    fs.head.Pairwise (fun s t => s.stop ≤ t.offset) ∧ fs.output <+: sampleFile ∧
      ∀ slices n, (∀ c ∈ slices, c ∈ [sampleSlice 3 3, sampleSlice 0 3]) → Covers 0 slices n →
        n ≤ fs.output.length :=
  run_handed sampleFile sampleContext rfl (fun _ => rfl) [sampleSlice 3 3, sampleSlice 0 3]
    (forall_mem_cons.mpr ⟨⟨rfl, by decide, by decide⟩,
      forall_mem_singleton.mpr ⟨rfl, by decide, by decide⟩⟩)
    ⟨⟨nofun, by decide, by decide, by decide⟩, ⟨fun _ => rfl, by decide, by decide, by decide⟩,
      trivial⟩

/-- A segment behind the last one is queued with an overlap, one in front of it is lost, and the
first one is handed over again. -/
theorem run_handed_overlaps :
    (empty.run sampleContext [sampleSlice 2 2, sampleSlice 3 2]).head = [⟨2, [2, 3]⟩, ⟨3, [3, 4]⟩] ∧
      (empty.run sampleContext [sampleSlice 2 2, sampleSlice 1 2, sampleSlice 0 1]).output = [0] ∧
      (empty.run sampleContext [sampleSlice 0 2, sampleSlice 0 2]).output = [0, 1, 0, 1] := by
  decide
end FileSegments
end Snort.FileApi
