import Snort.Stream.Tcp.ListEditor

/-!
# The heap program refines the list program

`Refines trs ed after` relates a state of the heap program to the list editor
with the nodes `after` ahead of it. Every handler of the heap program, started
in related states, takes the step of its list version: where that returns a
result the heap program returns a related one. In particular it never follows a
null or dangling pointer and its loops come to an end.
-/

namespace Snort.Tcp
open Nat DoublyLinked TcpReassemblerState
open Option (bind_some bind_eq_bind)
open ListEditor hiding updateNext
open List hiding drop
open TcpReassembler hiding evalLeft evalRight
open SegQueue hiding slideSegment

section OptionRel
variable {α β γ δ : Type*} {R : α → β → Prop} {S : γ → δ → Prop} {o : Option α} {p : Option β}

theorem rel_bind (h : Option.Rel R o p) {f : α → Option γ} {g : β → Option δ}
    (hfg : ∀ a b, R a b → Option.Rel S (f a) (g b)) : Option.Rel S (o.bind f) (p.bind g) := by
  cases h with
  | some h => exact hfg _ _ h
  | none => exact .none

theorem rel_some_right (h : Option.Rel R o p) {b : β} (hp : p = some b) :
    ∃ a, o = some a ∧ R a b := by
  subst hp
  cases h with
  | some h => exact ⟨_, rfl, h⟩
end OptionRel

/-- The heap holds the nodes around the editor, and all other fields agree. -/
structure Refines (trs : TcpReassemblerState) (ed : ListEditor) (after : List Node) : Prop where
  sos : trs.sos = ed.sos
  curRseg : trs.seglist.curRseg = ed.curRseg
  fresh : trs.seglist.fresh = ed.fresh
  holds : trs.seglist.Holds (ed.before.reverse ++ after)

/-- The pointers `left` and `right` stand at the place of the editor. -/
structure AtCursor (trs : TcpReassemblerState) (ed : ListEditor) (after : List Node) : Prop
    extends Refines trs ed after where
  left : trs.left = firstOr none ed.before
  right : trs.right = firstOr none after

theorem lastOr_reverse (l : List Node) : lastOr none l.reverse = firstOr none l := by
  cases l with
  | nil => rfl
  | cons x t => rw [reverse_cons, lastOr_concat]; rfl

theorem firstOr_reverse (l : List Node) : firstOr none l.reverse = lastOr none l := by
  rw [← lastOr_reverse, reverse_reverse]

variable {trs : TcpReassemblerState} {ed : ListEditor} {after : List Node} {a : ℕ}
  {tsn : TcpSegment} {before : List Node}

theorem Refines.cell (h : Refines trs ed ((a, tsn) :: after)) :
    trs.seglist.heap a = some ⟨firstOr none ed.before, firstOr none after, tsn⟩ := by
  rw [h.holds.cell, lastOr_reverse]

/-- The node right before the editor, as the heap holds it. -/
theorem Refines.cell_before (h : Refines trs ed after) (hbefore : ed.before = (a, tsn) :: before) :
    trs.seglist.heap a = some ⟨firstOr none before, firstOr none after, tsn⟩ := by
  have hholds : trs.seglist.Holds (before.reverse ++ (a, tsn) :: after) := by
    have hholds := h.holds
    rwa [hbefore, reverse_cons, append_assoc] at hholds
  rw [hholds.cell, lastOr_reverse]

theorem Refines.push (h : Refines trs ed ((a, tsn) :: after)) :
    Refines trs (ed.push (a, tsn)) after where
  sos := h.sos
  curRseg := h.curRseg
  fresh := h.fresh
  holds := by
    rw [ListEditor.push, reverse_cons, append_assoc]
    exact h.holds

theorem Refines.setSos (h : Refines trs ed after) (sos : SegmentOverlapState) :
    Refines { trs with sos := sos } { ed with sos := sos } after :=
  ⟨rfl, h.curRseg, h.fresh, h.holds⟩

theorem AtCursor.setSos (h : AtCursor trs ed after) (sos : SegmentOverlapState) :
    AtCursor { trs with sos := sos } { ed with sos := sos } after :=
  ⟨h.toRefines.setSos sos, h.left, h.right⟩

theorem advance_refines (h : Refines trs ed ((a, tsn) :: after)) (hright : trs.right = some a) :
    ∃ trs', trs.advance = some trs' ∧ AtCursor trs' (ed.push (a, tsn)) after := by
  refine ⟨{ trs with left := trs.right, right := firstOr none after }, ?_, ?_⟩
  · unfold advance
    rw [hright, Heap.read_some, h.cell]
    rfl
  · have hpush := h.push
    exact ⟨⟨hpush.sos, hpush.curRseg, hpush.fresh, hpush.holds⟩, hright, rfl⟩

/-! ## Queueing and deleting -/

theorem queueReassemblySegment_refines (h : Refines trs ed after) (tsn : TcpSegment) :
    ∃ trs', queueReassemblySegment { trs with seglist := trs.seglist.alloc tsn }
        (firstOr none ed.before) trs.seglist.fresh = some trs' ∧
      Refines trs' (ed.queue tsn) ((ed.fresh, ed.settle tsn) :: after) ∧
      trs'.left = trs.left ∧ trs'.right = trs.right := by
  have hfresh : trs.seglist.fresh ∉ ids (ed.before.reverse ++ after) :=
    fun hmem => lt_irrefl _ (h.holds.fresh _ hmem)
  have hcell : (trs.seglist.alloc tsn).heap trs.seglist.fresh = some ⟨none, none, tsn⟩ :=
    Function.update_self _ _ _
  obtain ⟨l, hins, hholds, hcur, hnext⟩ :=
    (h.holds.alloc tsn).insert hcell hfresh (lt_succ_self _)
  rw [lastOr_reverse] at hins
  unfold queueReassemblySegment
  rw [hins]
  simp only [bind_eq_bind, bind_some, hholds.cell, h.sos]
  by_cases hbase : seqEq tsn.iSeq ed.sos.seglistBaseSeq
  · obtain ⟨l', hset, hholds', hcur', hnext'⟩ := hholds.set fun t => { t with cSeq := t.iSeq }
    simp only [hbase, if_true, hset, bind_some, Option.pure_def]
    refine ⟨_, rfl, ⟨rfl, ?_, ?_, ?_⟩, rfl, rfl⟩
    · simp only [queue, hbase, if_true, h.fresh]
    · show l'.fresh = ed.fresh + 1
      rw [hnext', hnext, ← h.fresh]
      rfl
    · simp only [settle, hbase, if_true, ← h.fresh]
      exact ⟨hholds'.seg, hholds'.nodup, hholds'.head, hholds'.tail, hholds'.fresh, hholds'.count⟩
  · simp only [hbase, Bool.false_eq_true, if_false, bind_some, Option.pure_def]
    refine ⟨_, rfl, ⟨rfl, ?_, ?_, ?_⟩, rfl, rfl⟩
    · simp only [queue, hbase, Bool.false_eq_true, if_false, hcur, ← h.curRseg]
      rfl
    · show l.fresh = ed.fresh + 1
      rw [hnext, ← h.fresh]
      rfl
    · simp only [settle, hbase, Bool.false_eq_true, if_false, ← h.fresh]
      exact hholds

theorem addReassemblySegment_refines (h : Refines trs ed after) (len : BitVec 16)
    (slide truncLen seq : BitVec 32) :
    ∃ trs', addReassemblySegment trs len slide truncLen seq (firstOr none ed.before) = some trs' ∧
      Refines trs' (ed.add len slide truncLen seq) after ∧
      trs'.left = trs.left ∧ trs'.right = trs.right := by
  unfold addReassemblySegment add
  by_cases hsize : (newSize len slide truncLen).toInt ≤ 0
  · simp only [hsize, if_true, h.sos]
    exact ⟨_, rfl, h.setSos _, rfl, rfl⟩
  · simp only [hsize, if_false, h.sos]
    obtain ⟨trs', hqueue, href, hleft, hright⟩ := queueReassemblySegment_refines h
      (ed.sos.newNode (newSize len slide truncLen) slide seq)
    rw [h.sos] at hqueue
    rw [hqueue]
    simp only [bind_eq_bind, bind_some, Option.pure_def, href.sos]
    exact ⟨_, rfl, href.push.setSos _, hleft, hright⟩

theorem updateNext_refines (h : Refines trs ed after) (prev : Option ℕ) (tsn : TcpSegment) :
    ∃ trs', updateNext trs ⟨prev, firstOr none after, tsn⟩ = some trs' ∧
      Refines trs' (ed.updateNext tsn after).1 (ed.updateNext tsn after).2 ∧
      trs'.left = trs.left ∧ trs'.right = trs.right ∧
      ids (ed.updateNext tsn after).2 = ids after ∧
      (ed.updateNext tsn after).1.before = ed.before := by
  have hclear : ∀ after, Refines trs ed after →
      Refines { trs with seglist := { trs.seglist with curRseg := none } }
        { ed with curRseg := none } after :=
    fun after h => ⟨h.sos, rfl, h.fresh, ⟨h.holds.seg, h.holds.nodup, h.holds.head,
      h.holds.tail, h.holds.fresh, h.holds.count⟩⟩
  cases after with
  | nil => exact ⟨_, rfl, hclear [] h, rfl, rfl, rfl, rfl⟩
  | cons node after =>
    obtain ⟨b, next⟩ := node
    unfold updateNext ListEditor.updateNext
    simp only [firstOr, h.cell, bind_eq_bind, bind_some]
    by_cases hgap : next.iSeq = tsn.endSeq
    · obtain ⟨l, hset, hholds, hcur, hfresh⟩ := h.holds.set fun t => { t with cSeq := t.iSeq }
      rw [if_pos hgap, if_pos hgap, hset]
      refine ⟨_, rfl, ⟨h.sos, rfl, hfresh.trans h.fresh, ?_⟩, rfl, rfl, rfl, rfl⟩
      exact ⟨hholds.seg, hholds.nodup, hholds.head, hholds.tail, hholds.fresh, hholds.count⟩
    · rw [if_neg hgap, if_neg hgap]
      exact ⟨_, rfl, hclear _ h, rfl, rfl, rfl, rfl⟩

theorem deleteReassemblySegment_refines (h : Refines trs ed ((a, tsn) :: after)) :
    ∃ trs', deleteReassemblySegment trs a = some trs' ∧
      Refines trs' (ed.drop (a, tsn) after).1 (ed.drop (a, tsn) after).2 ∧
      trs'.left = trs.left ∧ trs'.right = trs.right ∧
      ids (ed.drop (a, tsn) after).2 = ids after ∧
      (ed.drop (a, tsn) after).1.before = ed.before := by
  obtain ⟨l, hremove, hholds, hcell, hcur, hfresh⟩ := h.holds.remove
  unfold deleteReassemblySegment drop
  simp only [bind_eq_bind, hremove, bind_some, hcell, h.sos, hcur, h.curRseg]
  have ha : a ∉ ids (ed.before.reverse ++ after) := by
    have hnd := h.holds.nodup
    rw [ids_append, ids_cons] at hnd
    rw [ids_append]
    exact (nodup_cons.mp (nodup_middle.mp hnd)).1
  have href : Refines { trs with sos := ed.sos.countDeleted tsn, seglist := l }
      { ed with sos := ed.sos.countDeleted tsn } after :=
    ⟨rfl, hcur.trans h.curRseg, hfresh.trans h.fresh, hholds⟩
  by_cases hrseg : ed.curRseg = some a
  · rw [if_pos hrseg, if_pos hrseg]
    obtain ⟨trs', hnext, href', hleft, hright, hids, hbefore⟩ :=
      updateNext_refines href (lastOr none ed.before.reverse) tsn
    rw [hnext]
    refine ⟨_, rfl, ⟨href'.sos, href'.curRseg, href'.fresh, href'.holds.term ?_⟩, hleft, hright,
      hids, hbefore⟩
    rw [ids_append, hids, hbefore]
    rwa [ids_append] at ha
  · rw [if_neg hrseg, if_neg hrseg]
    exact ⟨_, rfl, ⟨rfl, hcur.trans h.curRseg, hfresh.trans h.fresh, hholds.term ha⟩, rfl, rfl,
      rfl, rfl⟩

theorem dropOldSegment_refines (h : AtCursor trs ed ((a, tsn) :: after)) :
    ∃ trs', dropOldSegment trs = some trs' ∧
      AtCursor trs' (ed.drop (a, tsn) after).1 (ed.drop (a, tsn) after).2 := by
  have hright : trs.right = some a := h.right
  have href : Refines { trs with right := firstOr none after } ed ((a, tsn) :: after) :=
    ⟨h.sos, h.curRseg, h.fresh, h.holds⟩
  obtain ⟨trs', hdelete, href', hleft', hright', hids, hbefore⟩ :=
    deleteReassemblySegment_refines href
  refine ⟨trs', ?_, href', ?_, ?_⟩
  · unfold dropOldSegment
    simp only [hright, bind_eq_bind, bind_some, h.cell, hdelete]
  · rw [hbefore, hleft']
    exact h.left
  · rw [firstOr_none, hids, ← firstOr_none]
    exact hright'

/-! ## Overlap on the left -/

section LeftOverlap
variable {before : List Node} {left : TcpSegment}

theorem Refines.set_left (h : Refines trs ed after) (hbefore : ed.before = (a, left) :: before)
    (f : TcpSegment → TcpSegment) :
    ∃ l, trs.seglist.set (some a) f = some l ∧ l.Holds (((a, f left) :: before).reverse ++ after) ∧
      l.curRseg = ed.curRseg ∧ l.fresh = ed.fresh := by
  have hholds : trs.seglist.Holds (before.reverse ++ (a, left) :: after) := by
    have hholds := h.holds
    rwa [hbefore, reverse_cons, append_assoc] at hholds
  obtain ⟨l, hset, hl, hcur, hfresh⟩ := hholds.set f
  refine ⟨l, hset, ?_, hcur.trans h.curRseg, hfresh.trans h.fresh⟩
  rwa [reverse_cons, append_assoc]

section
variable (h : AtCursor trs ed after) (hbefore : ed.before = (a, left) :: before)
  (hgt : seqGt ed.sos.seq left.iSeq)
include h hbefore hgt

theorem leftOverlapKeepFirst_refines :
    ∃ trs', leftOverlapKeepFirst trs = some trs' ∧
      AtCursor trs' { ed with sos := ed.sos.keepFirst left } after := by
  have hleft : trs.left = some a := by rw [h.left, hbefore]; rfl
  refine ⟨{ trs with sos := ed.sos.keepFirst left }, ?_, h.setSos _⟩
  unfold leftOverlapKeepFirst
  simp only [hleft, Heap.read_some, h.cell_before hbefore, bind_eq_bind, bind_some,
    h.sos, hgt, guard_true, Option.pure_def]

theorem leftOverlapTrimFirst_refines :
    ∃ trs', leftOverlapTrimFirst trs = some trs' ∧
      AtCursor trs' { ed with
        sos := (ed.sos.trimFirst left).1
        before := (a, (ed.sos.trimFirst left).2) :: before } after := by
  have hleft : trs.left = some a := by rw [h.left, hbefore]; rfl
  obtain ⟨l, hset, hl, hcur, hfresh⟩ :=
    h.set_left hbefore fun _ => (ed.sos.trimFirst left).2
  refine ⟨{ trs with sos := (ed.sos.trimFirst left).1, seglist := l }, ?_,
    ⟨⟨rfl, hcur, hfresh, hl⟩, hleft, h.right⟩⟩
  unfold leftOverlapTrimFirst
  simp only [hleft, Heap.read_some, h.cell_before hbefore, bind_eq_bind, bind_some,
    h.sos, hgt, guard_true, Option.pure_def, hset]

theorem leftOverlapKeepLast_refines :
    ∃ trs', leftOverlapKeepLast trs = some trs' ∧
      AtCursor trs' (ed.keepLast a left before after).1 (ed.keepLast a left before after).2 := by
  have hleft : trs.left = some a := by rw [h.left, hbefore]; rfl
  unfold leftOverlapKeepLast keepLast
  simp only [hleft, Heap.read_some, h.cell_before hbefore, bind_eq_bind, bind_some,
    h.sos, hgt, guard_true, Option.pure_def]
  by_cases hoverlap : 0 < (ed.sos.measureLeft left).overlap.toInt
  · simp only [if_pos hoverlap]
    generalize hsos : (ed.sos.measureLeft left).countOverlap = sos
    by_cases hinside : seqGt left.endSeq (sos.seq + sos.len.setWidth 32)
    · simp only [if_pos hinside]
      obtain ⟨trs', hdup, href, hleft', hright'⟩ :=
        queueReassemblySegment_refines (h.toRefines.setSos sos) (dupNode left)
      have hbefore' : ({ ed with sos := sos }.queue (dupNode left)).before =
          (a, left) :: before := hbefore
      obtain ⟨l, hset, hl, hcur, hfresh⟩ := href.set_left hbefore' fun t => t.cutTail sos.overlap
      obtain ⟨l', hset', hl', hcur', hfresh'⟩ := hl.set fun t =>
        t.cutHead (sos.seq + sos.len.setWidth 32)
          ((sos.seq + sos.len.setWidth 32 - left.iSeq).setWidth 16)
      have hedleft : firstOr none ed.before = some a := by rw [hbefore]; rfl
      simp only [hleft, hedleft, h.fresh] at hdup hleft'
      simp only [dupReassemblySegment, Heap.read_some, h.cell_before hbefore,
        bind_eq_bind, bind_some, hdup, hleft', hset, h.fresh, hset', href.sos]
      exact ⟨_, rfl, ⟨⟨rfl, hcur'.trans hcur, hfresh'.trans hfresh, hl'⟩, rfl, rfl⟩⟩
    · simp only [if_neg hinside]
      obtain ⟨l, hset, hl, hcur, hfresh⟩ := h.set_left hbefore fun t => t.cutTail sos.overlap
      rw [hset]
      exact ⟨_, rfl, ⟨⟨rfl, hcur, hfresh, hl⟩, rfl, h.right⟩⟩
  · simp only [if_neg hoverlap]
    exact ⟨_, rfl, ⟨⟨rfl, h.curRseg, h.fresh, h.holds⟩, hleft.symm.trans h.left, h.right⟩⟩
end

theorem insertLeftOverlap_refines (r : TcpReassembler) (h : AtCursor trs ed after)
    (hbefore : ed.before = (a, left) :: before) (hgt : seqGt ed.sos.seq left.iSeq) :
    ∃ trs', r.insertLeftOverlap trs = some trs' ∧
      AtCursor trs' (leftOverlap r ed a left before after).1
        (leftOverlap r ed a left before after).2 := by
  unfold insertLeftOverlap leftOverlap
  cases r.left with
  | keepFirst => exact leftOverlapKeepFirst_refines h hbefore hgt
  | trimFirst => exact leftOverlapTrimFirst_refines h hbefore hgt
  | keepLast => exact leftOverlapKeepLast_refines h hbefore hgt
end LeftOverlap

theorem insertLeftOverlap_eq_none (r : TcpReassembler) (h : AtCursor trs ed after)
    {left : TcpSegment} (hbefore : ed.before = (a, left) :: before)
    (hgt : ¬ seqGt ed.sos.seq left.iSeq) : r.insertLeftOverlap trs = none := by
  have hleft : trs.left = some a := by rw [h.left, hbefore]; rfl
  unfold insertLeftOverlap
  cases r.left <;>
    simp only [leftOverlapKeepFirst, leftOverlapTrimFirst, leftOverlapKeepLast, hleft,
      Heap.read_some, h.cell_before hbefore, bind_eq_bind, bind_some, h.sos, hgt,
      guard_false, failure, Option.bind_none, Bool.false_eq_true]

theorem evalLeft_refines (r : TcpReassembler) (h : AtCursor trs ed after) :
    Option.Rel (fun trs' res => AtCursor trs' res.1 res.2) (r.evalLeft trs)
      (evalLeft r ed after) := by
  unfold TcpReassembler.evalLeft evalLeft
  cases hbefore : ed.before with
  | nil =>
    have hleft : trs.left = none := by rw [h.left, hbefore]; rfl
    rw [hleft]
    exact .some h
  | cons node before =>
    obtain ⟨a, left⟩ := node
    have hleft : trs.left = some a := by rw [h.left, hbefore]; rfl
    rw [hleft, Option.isSome_some, if_pos rfl]
    by_cases hgt : seqGt ed.sos.seq left.iSeq
    · obtain ⟨trs', heval, hcur⟩ := insertLeftOverlap_refines r h hbefore hgt
      simp only [heval, if_pos hgt]
      exact .some hcur
    · rw [insertLeftOverlap_eq_none r h hbefore hgt]
      simp only [if_neg hgt]
      exact .none

/-! ## Overlap on the right -/

section RightOverlap
variable {right : TcpSegment} (r : TcpReassembler) (h : AtCursor trs ed ((a, right) :: after))

section
include h

theorem insertRightOverlap_refines :
    ∃ trs', r.insertRightOverlap trs = some trs' ∧ AtCursor trs' (rightOverlap r ed a right after).1
        (rightOverlap r ed a right after).2 := by
  have hright : trs.right = some a := h.right
  unfold insertRightOverlap rightOverlap
  cases r.right with
  | truncateExisting =>
    obtain ⟨l, hset, hl, hcur, hfresh⟩ :=
      h.holds.set fun _ => (ed.sos.truncateExisting right).2
    refine ⟨{ trs with sos := (ed.sos.truncateExisting right).1, seglist := l }, ?_,
      ⟨⟨rfl, hcur.trans h.curRseg, hfresh.trans h.fresh, hl⟩, h.left, hright⟩⟩
    simp only [rightOverlapTruncateExisting, hright, Heap.read_some, h.cell,
      bind_eq_bind, bind_some, h.sos, hset, Option.pure_def]
  | truncateNew =>
    refine ⟨{ trs with sos := ed.sos.truncateNew right }, ?_, h.setSos _⟩
    simp only [rightOverlapTruncateNew, hright, Heap.read_some, h.cell, bind_eq_bind,
      bind_some, h.sos, Option.pure_def]

theorem fullRightOverlapTruncateNew_refines :
    ∃ trs', fullRightOverlapTruncateNew trs = some trs' ∧
      AtCursor trs' (ed.fullTruncateNew a right) after := by
  obtain ⟨sos, left, _, l⟩ := trs
  obtain rfl : sos = ed.sos := h.sos
  obtain rfl : _ = some a := h.right
  have hcell : l.heap a = _ := h.cell
  unfold fullRightOverlapTruncateNew fullTruncateNew
  simp only [Heap.read_some, hcell, bind_eq_bind, bind_some]
  by_cases heq : seqEq right.iSeq (ed.sos.copyRight right).seq
  · simp only [if_pos heq]
    exact advance_refines (h.toRefines.setSos _) rfl
  · simp only [if_neg heq]
    obtain ⟨trs', hadd, href, -, hright'⟩ := addReassemblySegment_refines
      (h.toRefines.setSos (ed.sos.copyRight right).cutChunk)
      (ed.sos.copyRight right).cutChunk.len (ed.sos.copyRight right).cutChunk.slide
      (ed.sos.copyRight right).cutChunk.truncLen (ed.sos.copyRight right).cutChunk.seq
    have hleft : firstOr none ed.before = left := h.left.symm
    simp only [hleft] at hadd
    simp only [hadd, bind_some, href.sos]
    exact advance_refines (href.setSos _) hright'

theorem replacesAfterHole_refines :
    trs.replacesAfterHole right = some (ed.replacesAfterHole right) := by
  unfold TcpReassemblerState.replacesAfterHole ListEditor.replacesAfterHole
  rw [h.sos]
  split
  · cases hbefore : ed.before with
    | nil =>
      have hleft : trs.left = none := by rw [h.left, hbefore]; rfl
      rw [hleft]
    | cons node before =>
      obtain ⟨b, left⟩ := node
      have hleft : trs.left = some b := by rw [h.left, hbefore]; rfl
      simp only [hleft, h.cell_before hbefore, bind_eq_bind, bind_some, Option.pure_def]
  · rfl

theorem insertFullOverlap_refines :
    ∃ trs', r.insertFullOverlap trs = some trs' ∧ AtCursor trs' (fullOverlap r ed a right after).1
        (fullOverlap r ed a right after).2 := by
  obtain ⟨sos, left, _, l⟩ := trs
  obtain rfl : sos = ed.sos := h.sos
  obtain rfl : _ = some a := h.right
  have hcell : l.heap a = _ := h.cell
  have hdrop := dropOldSegment_refines h
  have htrunc := fullRightOverlapTruncateNew_refines h
  unfold insertFullOverlap fullOverlap
  cases r.full with
  | os1 =>
    simp only [fullRightOverlapOs1, Heap.read_some, hcell, bind_eq_bind, bind_some]
    split
    · exact hdrop
    · exact htrunc
  | os2 =>
    simp only [fullRightOverlapOs2, Heap.read_some, hcell, bind_eq_bind, bind_some]
    split
    · exact hdrop
    · split
      · exact hdrop
      · exact htrunc
  | os3 =>
    simp only [fullRightOverlapOs3, Heap.read_some, hcell, bind_eq_bind,
      bind_some, replacesAfterHole_refines h]
    split
    · exact advance_refines (h.toRefines.setSos _) rfl
    · exact hdrop
  | os4 => exact hdrop
  | os5 => exact htrunc
end

/-- The loop on the heap follows the loop on lists, with the same number of rounds. -/
theorem evalRight_refines (fuel : ℕ) (h : AtCursor trs ed after) :
    Option.Rel (fun trs' res => AtCursor trs' res.1 res.2) (r.evalRight fuel trs)
      (evalRight r fuel ed after) := by
  induction fuel generalizing trs ed after with
  | zero => exact .none
  | succ fuel ih =>
    cases after with
    | nil =>
      have hright : trs.right = none := h.right
      rw [TcpReassembler.evalRight, hright]
      exact .some h
    | cons node after =>
      obtain ⟨a, right⟩ := node
      obtain ⟨sos, left, _, l⟩ := trs
      obtain rfl : sos = ed.sos := h.sos
      obtain rfl : _ = some a := h.right
      have hcell : l.heap a = _ := h.cell
      rw [evalRight, TcpReassembler.evalRight]
      simp only [hcell, bind_eq_bind, bind_some]
      by_cases hlt : seqLt right.iSeq ed.sos.seqEnd
      case neg =>
        rw [if_neg hlt, if_neg hlt]
        exact .some h
      rw [if_pos hlt, if_pos hlt]
      by_cases hleq : seqLeq ed.sos.seq right.iSeq
      case neg =>
        simp only [hleq, Bool.false_eq_true, guard_false, failure, Option.bind_none, if_false]
        exact .none
      simp only [hleq, guard_true, Option.pure_def, bind_some, if_true]
      generalize ed.sos.measureRight right = sos
      by_cases hpart : sos.overlap.toInt < (right.iLen.toNat : ℤ)
      · simp only [if_pos hpart]
        by_cases hretr : (right.isRetransmit sos.rbytes sos.rsize sos.rseq right.iLen false).isSome
        · simp only [if_pos hretr]
          exact .some (h.setSos _)
        · simp only [if_neg hretr]
          obtain ⟨trs', heval, hcur⟩ :=
            insertRightOverlap_refines r (h.setSos sos.countOverlap)
          rw [heval]
          exact .some hcur
      · simp only [if_neg hpart]
        cases hretr : sos.segmentRetransmit right with
        | some res =>
          obtain ⟨full, sos'⟩ := res
          cases full with
          | true => exact .some (h.setSos _)
          | false =>
            obtain ⟨trs', hadv, href⟩ := advance_refines (h.toRefines.setSos sos') rfl
            simp only [hadv, bind_some]
            exact ih href
        | none =>
          obtain ⟨trs', hfull, href⟩ :=
            insertFullOverlap_refines r (h.setSos sos.countOverlap)
          simp only [hfull, bind_some]
          exact ih href
end RightOverlap

/-! ## The place of a new segment -/

/-- The state between two packets. -/
structure QueueRefines (trs : TcpReassemblerState) (q : SegQueue) : Prop where
  sos : trs.sos = q.sos
  curRseg : trs.seglist.curRseg = q.curRseg
  fresh : trs.seglist.fresh = q.fresh
  holds : trs.seglist.Holds q.nodes

variable {q : SegQueue} {l : TcpSegmentList} {t : List Node}

theorem Refines.ofEditor (h : Refines trs ed after) : QueueRefines trs (ofEditor ed after) :=
  ⟨h.sos, h.curRseg, h.fresh, h.holds⟩

theorem QueueRefines.edit (h : QueueRefines trs q) {before : List Node}
    (hnodes : before.reverse ++ after = q.nodes) : Refines trs (q.edit before) after :=
  ⟨h.sos, h.curRseg, h.fresh, hnodes ▸ h.holds⟩

theorem QueueRefines.setSos (h : QueueRefines trs q) (sos : SegmentOverlapState) :
    QueueRefines { trs with sos := sos } { q with sos := sos } :=
  ⟨rfl, h.curRseg, h.fresh, h.holds⟩

theorem findFromHead_eq (segSeq : BitVec 32) (fuel : ℕ) (before after : List Node)
    (h : l.Holds (before.reverse ++ after)) (hfuel : after.length < fuel) :
    l.findFromHead segSeq fuel (firstOr none after) (firstOr none before) =
      some (firstOr none ((after.takeWhile fun n => !seqGeq n.2.iSeq segSeq).reverse ++ before),
        firstOr none (after.dropWhile fun n => !seqGeq n.2.iSeq segSeq)) := by
  induction after generalizing fuel before with
  | nil =>
    obtain ⟨fuel, rfl⟩ := exists_eq_succ_of_ne_zero (ne_of_gt hfuel)
    rfl
  | cons node after ih =>
    obtain ⟨fuel, rfl⟩ := exists_eq_succ_of_ne_zero (ne_of_gt (zero_lt_of_lt hfuel))
    have hcell : l.heap node.1 = _ := h.seg.cell
    simp only [firstOr, TcpSegmentList.findFromHead, hcell, bind_eq_bind,
      bind_some, Option.pure_def]
    by_cases hgeq : seqGeq node.2.iSeq segSeq
    · rw [if_pos hgeq, takeWhile_cons_of_neg (by simp [hgeq]),
        dropWhile_cons_of_neg (by simp [hgeq])]
      rfl
    · rw [if_neg hgeq, takeWhile_cons_of_pos (by simp [hgeq]),
        dropWhile_cons_of_pos (by simp [hgeq]), reverse_cons, append_assoc]
      refine ih fuel (node :: before) ?_ (lt_of_succ_lt_succ hfuel)
      rwa [reverse_cons, append_assoc]

theorem findFromTail_eq (segSeq : BitVec 32) (fuel : ℕ) (before after : List Node)
    (h : l.Holds (before.reverse ++ after)) (hfuel : before.length < fuel) :
    l.findFromTail segSeq fuel (firstOr none before) (firstOr none after) =
      some (firstOr none (before.dropWhile fun n => !seqLt n.2.iSeq segSeq),
        firstOr none ((before.takeWhile fun n => !seqLt n.2.iSeq segSeq).reverse ++ after)) := by
  induction before generalizing fuel after with
  | nil =>
    obtain ⟨fuel, rfl⟩ := exists_eq_succ_of_ne_zero (ne_of_gt hfuel)
    rfl
  | cons node before ih =>
    obtain ⟨fuel, rfl⟩ := exists_eq_succ_of_ne_zero (ne_of_gt (zero_lt_of_lt hfuel))
    have h : l.Holds (before.reverse ++ node :: after) := by
      rwa [reverse_cons, append_assoc] at h
    have hcell : l.heap node.1 = _ := h.seg.cell
    rw [lastOr_reverse] at hcell
    simp only [firstOr, TcpSegmentList.findFromTail, hcell, bind_eq_bind,
      bind_some, Option.pure_def]
    by_cases hlt : seqLt node.2.iSeq segSeq
    · rw [if_pos hlt, takeWhile_cons_of_neg (by simp [hlt]), dropWhile_cons_of_neg (by simp [hlt])]
      rfl
    · rw [if_neg hlt, takeWhile_cons_of_pos (by simp [hlt]),
        dropWhile_cons_of_pos (by simp [hlt]), reverse_cons, append_assoc]
      exact ih fuel (node :: after) h (lt_of_succ_lt_succ hfuel)

/-- The addresses in use are fewer than those ever allocated. -/
theorem TcpSegmentList.Holds.length_le {nodes : List Node} (h : l.Holds nodes) :
    nodes.length ≤ l.fresh := by
  have hsub : ids nodes ⊆ List.range l.fresh := fun a ha => mem_range.mpr (h.fresh a ha)
  have hle := (h.nodup.subperm hsub).length_le
  rwa [length_range, ids, length_map] at hle

theorem split_append (q : SegQueue) : q.split.1.reverse ++ q.split.2 = q.nodes := by
  unfold split
  split
  · unfold splitFromHead
    rw [reverse_reverse, takeWhile_append_dropWhile]
  · unfold splitFromTail
    rw [← reverse_append, takeWhile_append_dropWhile, reverse_reverse]

section
variable (h : QueueRefines trs q)
include h

theorem QueueRefines.cell_head {head : Node} (hnodes : q.nodes = head :: t) :
    trs.seglist.head = some head.1 ∧ ∃ c, trs.seglist.heap head.1 = some c ∧ c.val = head.2 := by
  have hholds : trs.seglist.Holds ([] ++ head :: t) := hnodes ▸ h.holds
  exact ⟨hholds.head, _, hholds.seg.cell, rfl⟩

theorem QueueRefines.cell_tail {tail : Node} (hnodes : q.nodes = t ++ [tail]) :
    trs.seglist.tail = some tail.1 ∧ ∃ c, trs.seglist.heap tail.1 = some c ∧ c.val = tail.2 := by
  have hholds : trs.seglist.Holds (t ++ tail :: []) := hnodes ▸ h.holds
  refine ⟨?_, _, hholds.seg.cell, rfl⟩
  rw [hholds.tail, lastOr_concat]

theorem nearerHead_refines : trs.nearerHead = some q.nearerHead := by
  unfold TcpReassemblerState.nearerHead SegQueue.nearerHead
  rcases eq_nil_or_concat q.nodes with hnil | ⟨t, tail, htail⟩
  · have hhead : trs.seglist.head = none := by rw [h.holds.head, hnil]; rfl
    rw [hnil, hhead]
    rfl
  · rw [concat_eq_append] at htail
    obtain ⟨head, t', hhead⟩ := exists_cons_of_ne_nil
      (show q.nodes ≠ [] by rw [htail]; exact append_ne_nil_of_right_ne_nil _ (by simp))
    obtain ⟨hptr, c, hcell, hval⟩ := h.cell_head hhead
    obtain ⟨hptr', c', hcell', hval'⟩ := h.cell_tail htail
    have hh : q.nodes.head? = some head := by rw [hhead]; rfl
    have ht : q.nodes.getLast? = some tail := by rw [htail, getLast?_concat]
    simp only [hptr, hptr', hcell, hcell', hh, ht, bind_eq_bind, bind_some, hval,
      hval', h.sos, Option.pure_def, segSeq]

theorem initOverlapEditor_refines :
    ∃ trs', trs.initOverlapEditor = some trs' ∧
      AtCursor trs' { q.edit q.split.1 with sos := q.sos.initSoe } q.split.2 := by
  have hfuel : q.nodes.length < trs.seglist.fresh + 1 := lt_succ_of_le h.holds.length_le
  have href := (h.edit (split_append q)).setSos q.sos.initSoe
  unfold initOverlapEditor
  simp only [nearerHead_refines h, bind_eq_bind, bind_some, h.sos, Option.pure_def]
  by_cases hnear : q.nearerHead
  · have hsplit : q.split = q.splitFromHead := if_pos hnear
    have hfind := findFromHead_eq q.segSeq _ [] q.nodes h.holds hfuel
    rw [← h.holds.head, append_nil] at hfind
    simp only [if_pos hnear]
    simp only [segSeq, firstOr] at hfind
    rw [hfind]
    refine ⟨_, rfl, ⟨⟨rfl, href.curRseg, href.fresh, href.holds⟩, ?_, ?_⟩⟩
    · rw [hsplit]
      rfl
    · rw [hsplit]
      rfl
  · have hsplit : q.split = q.splitFromTail := if_neg hnear
    have hholds : trs.seglist.Holds (q.nodes.reverse.reverse ++ []) := by
      rw [reverse_reverse, append_nil]
      exact h.holds
    have hfind := findFromTail_eq q.segSeq _ q.nodes.reverse [] hholds (by rwa [length_reverse])
    rw [firstOr_reverse, ← h.holds.tail, append_nil] at hfind
    simp only [if_neg hnear]
    simp only [segSeq, firstOr] at hfind
    rw [hfind]
    refine ⟨_, rfl, ⟨⟨rfl, href.curRseg, href.fresh, href.holds⟩, ?_, ?_⟩⟩
    · rw [hsplit]
      rfl
    · rw [hsplit]
      rfl
end

/-! ## Insertion -/

theorem isSegmentFasttrack_refines (h : QueueRefines trs q) :
    trs.isSegmentFasttrack = some q.isSegmentFasttrack := by
  unfold TcpReassemblerState.isSegmentFasttrack SegQueue.isSegmentFasttrack
  rcases eq_nil_or_concat q.nodes with hnil | ⟨t, tail, htail⟩
  · have hptr : trs.seglist.tail = none := by rw [h.holds.tail, hnil]; rfl
    rw [hnil, hptr]
    rfl
  · rw [concat_eq_append] at htail
    obtain ⟨hptr, c, hcell, hval⟩ := h.cell_tail htail
    have ht : q.nodes.getLast? = some tail := by rw [htail, getLast?_concat]
    simp only [hptr, hcell, ht, bind_eq_bind, bind_some, hval, h.sos, Option.pure_def, segSeq]

theorem insertInEmpty_refines (h : QueueRefines trs q) :
    ∃ trs', insertSegmentInEmptySeglist trs = some trs' ∧ QueueRefines trs' q.insertInEmpty := by
  have hadd : ∀ len slide truncLen seq, ∃ trs',
      addReassemblySegment trs len slide truncLen seq none = some trs' ∧
      QueueRefines trs' (ofEditor ((q.edit []).add len slide truncLen seq) q.nodes) := by
    intro len slide truncLen seq
    have href : Refines trs (q.edit []) q.nodes := h.edit rfl
    obtain ⟨trs', hadd, href', -⟩ := addReassemblySegment_refines href len slide truncLen seq
    exact ⟨trs', hadd, href'.ofEditor⟩
  unfold insertSegmentInEmptySeglist insertInEmpty
  simp only [h.sos]
  split
  · split
    · exact ⟨trs, rfl, h⟩
    · exact hadd _ _ _ _
  · exact hadd _ _ _ _

theorem finish_refines (h : AtCursor trs ed after) :
    ∃ trs', (if trs.sos.keepSegment then
        let trs := { trs with sos := { trs.sos with slide := trs.sos.seq - trs.sos.tsd.segSeq } }
        addReassemblySegment trs trs.sos.len trs.sos.slide trs.sos.truncLen trs.sos.seq trs.left
      else some trs) = some trs' ∧ QueueRefines trs' (finish ed after) := by
  unfold finish
  by_cases hkeep : ed.sos.keepSegment
  · simp only [h.sos, if_pos hkeep]
    obtain ⟨trs', hadd, href, -⟩ := addReassemblySegment_refines
      (h.toRefines.setSos { ed.sos with slide := ed.sos.seq - ed.sos.tsd.segSeq })
      ed.sos.len (ed.sos.seq - ed.sos.tsd.segSeq) ed.sos.truncLen ed.sos.seq
    rw [← h.left] at hadd
    exact ⟨trs', hadd, href.ofEditor⟩
  · simp only [h.sos, if_neg hkeep]
    exact ⟨trs, rfl, h.toRefines.ofEditor⟩

theorem insertInSeglist_refines (r : TcpReassembler) (h : QueueRefines trs q) :
    Option.Rel QueueRefines (r.insertSegmentInSeglist trs) (q.insertInSeglist r) := by
  unfold insertSegmentInSeglist insertInSeglist
  simp only [isSegmentFasttrack_refines h, bind_eq_bind, bind_some]
  by_cases hfast : q.isSegmentFasttrack
  · simp only [if_pos hfast]
    have href : Refines trs (q.edit q.nodes.reverse) [] :=
      h.edit (by rw [reverse_reverse, append_nil])
    obtain ⟨trs', hadd, href', -⟩ :=
      addReassemblySegment_refines href q.sos.tsd.segLen 0 0 q.segSeq
    rw [h.holds.tail, ← firstOr_reverse, h.sos]
    change addReassemblySegment trs _ 0 0 _ (firstOr none q.nodes.reverse) = some trs' at hadd
    simp only [segSeq] at hadd ⊢
    rw [hadd]
    exact .some href'.ofEditor
  · simp only [if_neg hfast]
    obtain ⟨trs₁, hinit, hcur₁⟩ := initOverlapEditor_refines h
    rw [hinit, bind_some]
    refine rel_bind (evalLeft_refines r hcur₁) fun trs₂ res₂ hcur₂ => ?_
    rw [← hcur₂.fresh]
    refine rel_bind (evalRight_refines r _ hcur₂) fun trs₃ res₃ hcur₃ => ?_
    obtain ⟨trs₄, hfinish, href⟩ := finish_refines hcur₃
    rw [Option.pure_def, hfinish]
    exact .some href

theorem slideSegment_refines (h : QueueRefines trs q) (offset : BitVec 32) :
    QueueRefines (slideSegment trs offset) (q.slideSegment offset) := by
  unfold slideSegment SegQueue.slideSegment
  rw [h.sos]
  exact h.setSos _

section
variable (r : TcpReassembler) (h : QueueRefines trs q) (tsd : TcpSegmentDescriptor)
include r h tsd

theorem queuePacket_rel :
    Option.Rel QueueRefines (r.queuePacketForReassembly trs tsd) (q.queuePacket r tsd) := by
  have h' := h.setSos { q.sos with tsd := tsd }
  unfold queuePacket queuePacketForReassembly
  simp only [h.sos]
  by_cases hempty : q.sos.segCount = 0
  · simp only [if_pos hempty]
    obtain ⟨trs', hins, href⟩ := insertInEmpty_refines h'
    rw [hins]
    exact .some href
  · simp only [if_neg hempty]
    by_cases hgt : seqGt q.sos.rWinBase tsd.segSeq
    · simp only [if_pos hgt]
      by_cases hoff : (q.sos.rWinBase - tsd.segSeq).toInt < (tsd.segLen.toNat : ℤ)
      · simp only [if_pos hoff]
        refine rel_bind (insertInSeglist_refines r (slideSegment_refines h' _)) ?_
        intro trs' q' href
        exact .some (slideSegment_refines href _)
      · simp only [if_neg hoff]
        exact .some h'
    · simp only [if_neg hgt]
      exact insertInSeglist_refines r h'

/-- Queueing a packet on the heap refines queueing it on the list of nodes. -/
theorem queuePacket_refines {q' : SegQueue} (hqueue : q.queuePacket r tsd = some q') :
    ∃ trs', r.queuePacketForReassembly trs tsd = some trs' ∧ QueueRefines trs' q' :=
  rel_some_right (queuePacket_rel r h tsd) hqueue
end
end Snort.Tcp
