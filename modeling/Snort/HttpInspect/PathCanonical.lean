import Snort.HttpInspect.UriNorm

/-!
# Canonical paths

The canonical form of a path is defined on its segments. `norm_path_clean` keeps
it for the input that it has read: the directories so far, each with a slash, and
the segment that has begun. Its comparisons with the output recognise the segments
because these have no slashes.
-/

namespace Snort.Http
open Nat List Option

/-! ## The canonical form -/

variable {buf pattern segment : List Octet} {n : ℕ}

/-- A part of a path between slashes. -/
abbrev Segment := List Octet

/-- A directory is entered; `dirs` are the directories so far, the last one first. Where there is
nothing to go back to, `..` is kept. -/
def enter (dirs : List Segment) (segment : Segment) : List Segment :=
  if segment = [] ∨ segment = [dot] then dirs
  else if segment = [dot, dot] then
    match dirs with
    | [] => [[dot, dot]]
    | last :: rest => if last = [dot, dot] then [dot, dot] :: dirs else rest
  else segment :: dirs

/-- The path through the directories to a file; without a name, it ends with a slash. -/
def render (dirs : List Segment) (file : Segment) : List Octet :=
  slash :: dirs.reverse.flatMap (fun dir => dir ++ [slash]) ++ file

/-- The last segment, if it is not a file, is a directory. -/
def finish (dirs : List Segment) (segment : Segment) : List Octet :=
  if segment = [dot] ∨ segment = [dot, dot] then render (enter dirs segment) []
  else render dirs segment

variable (path : List Octet)

/-- The canonical form of a path that begins with a slash. -/
def canonical : List Octet :=
  let segments := path.tail.splitOn slash
  finish (segments.dropLast.foldl enter []) (segments.getLastD [])

/-! ## Reading octet by octet -/

/-- The next octet of a path. -/
def readOctet (s : List Segment × Segment) (c : Octet) : List Segment × Segment :=
  if c = slash then (enter s.1 s.2, []) else (s.1, s.2 ++ [c])

theorem splitOn_cons (c : Octet) (cs : List Octet) :
    (c :: cs).splitOn slash =
      if c = slash then [] :: cs.splitOn slash
      else (cs.splitOn slash).modifyHead (List.cons c) := by
  simp only [splitOn, splitOnP_cons_eq_if_modifyHead, beq_iff_eq]

theorem readOctet_segments (dirs : List Segment) (segment : Segment) :
    path.foldl readOctet (dirs, segment) =
      let segments := (path.splitOn slash).modifyHead (segment ++ ·)
      (segments.dropLast.foldl enter dirs, segments.getLastD []) := by
  induction path generalizing dirs segment with
  | nil => simp [splitOn_nil]
  | cons c cs ih =>
    rw [foldl_cons, splitOn_cons]
    obtain ⟨s, ss, hsplit⟩ := exists_cons_of_ne_nil (splitOnP_ne_nil (· == slash) cs)
    have hsplit : cs.splitOn slash = s :: ss := hsplit
    by_cases hc : c = slash
    · rw [readOctet, if_pos hc, if_pos hc, ih, hsplit]
      simp
    · rw [readOctet, if_neg hc, if_neg hc, ih, hsplit]
      simp

theorem canonical_eq :
    canonical (slash :: path) =
      finish (path.foldl readOctet ([], [])).1 (path.foldl readOctet ([], [])).2 := by
  rw [readOctet_segments]
  have hid : (path.splitOn slash).modifyHead (([] : Segment) ++ ·) = path.splitOn slash := by
    cases path.splitOn slash <;> rfl
  simp only [hid]
  rfl

/-- Entering the directories one after the other keeps all of them: none is empty or `.`, and `..`
stands only in front. -/
def Resolved : List Segment → Prop
  | [] => True
  | dir :: dirs => enter dirs dir = dir :: dirs ∧ slash ∉ dir ∧ Resolved dirs

section Enter
variable {dirs : List Segment} {segment : Segment}

theorem enter_of_skip (h : segment = [] ∨ segment = [dot]) : enter dirs segment = dirs := by
  unfold enter
  rw [if_pos h]

theorem enter_dotDot_of_ne {last : Segment} (h : last ≠ [dot, dot]) :
    enter (last :: dirs) [dot, dot] = dirs := by
  simp [enter, h]

theorem enter_dotDot_of_root (h : ∀ last rest, dirs = last :: rest → last = [dot, dot]) :
    enter dirs [dot, dot] = [dot, dot] :: dirs := by
  cases dirs with
  | nil => rfl
  | cons last rest => simp [enter, h last rest rfl]

theorem enter_of_name (hskip : ¬ (segment = [] ∨ segment = [dot])) (hdots : segment ≠ [dot, dot]) :
    enter dirs segment = segment :: dirs := by
  unfold enter
  rw [if_neg hskip, if_neg hdots]

theorem Resolved.enter (h : Resolved dirs) (hsegment : slash ∉ segment) :
    Resolved (Http.enter dirs segment) := by
  by_cases hskip : segment = [] ∨ segment = [dot]
  · rwa [enter_of_skip hskip]
  by_cases hdots : segment = [dot, dot]
  · subst hdots
    by_cases hroot : ∀ last rest, dirs = last :: rest → last = [dot, dot]
    · have henter := enter_dotDot_of_root hroot
      rw [henter]
      exact ⟨henter, hsegment, h⟩
    · push Not at hroot
      obtain ⟨last, rest, rfl, hlast⟩ := hroot
      rw [enter_dotDot_of_ne hlast]
      exact h.2.2
  · have henter : Http.enter dirs segment = segment :: dirs := enter_of_name hskip hdots
    rw [henter]
    exact ⟨henter, hsegment, h⟩
end Enter

/-! ## Rendered paths -/

section Render
variable {dirs : List Segment} {segment dir : Segment}

section
variable (dirs : List Segment)

theorem render_cons (dir segment : Segment) :
    render (dir :: dirs) segment = render dirs dir ++ slash :: segment := by
  simp [render]

theorem render_append (segment rest : Segment) :
    render dirs (segment ++ rest) = render dirs segment ++ rest := by
  simp [render]

theorem render_eq : ∃ front, ∀ segment, render dirs segment = front ++ slash :: segment := by
  cases dirs with
  | nil => exact ⟨[], fun segment => rfl⟩
  | cons dir dirs => exact ⟨render dirs dir, render_cons dirs dir⟩
end

theorem readOctet_of_noSlash (h : slash ∉ segment) (dir : Segment) :
    segment.foldl readOctet (dirs, dir) = (dirs, dir ++ segment) := by
  induction segment generalizing dir with
  | nil => simp
  | cons c cs ih =>
    rw [mem_cons, not_or] at h
    rw [foldl_cons, readOctet, if_neg (Ne.symm h.1), ih h.2]
    simp

section
variable (h : Resolved dirs) (hsegment : slash ∉ segment)
include h hsegment

theorem readOctet_render :
    (render dirs segment).tail.foldl readOctet ([], []) = (dirs, segment) := by
  induction dirs generalizing segment with
  | nil => exact readOctet_of_noSlash hsegment []
  | cons dir dirs ih =>
    obtain ⟨henter, hdir, hdirs⟩ := h
    have htail : (render (dir :: dirs) segment).tail =
        (render dirs dir).tail ++ slash :: segment := by
      rw [render_cons]
      rfl
    rw [htail, foldl_append, ih hdirs hdir, foldl_cons, readOctet, if_pos rfl, henter,
      readOctet_of_noSlash hsegment, nil_append]

theorem canonical_render : canonical (render dirs segment) = finish dirs segment := by
  have hcons : render dirs segment = slash :: (render dirs segment).tail := rfl
  rw [hcons, canonical_eq, readOctet_render h hsegment]

theorem canonical_finish : canonical (finish dirs segment) = finish dirs segment := by
  rw [finish]
  split_ifs with hdots
  · rw [canonical_render (h.enter hsegment) not_mem_nil, finish, if_neg (by simp)]
  · rw [canonical_render h hsegment, finish, if_neg hdots]
end
end Render

/-! ## Looking back -/

theorem looksBack_eq (hn : n ≤ buf.length) (hpattern : pattern.length ≤ n) :
    looksBack buf n pattern = some (decide (pattern <+: (buf.take n).reverse)) := by
  induction pattern generalizing n with
  | nil => simp [looksBack]
  | cons c cs ih =>
    obtain ⟨m, rfl⟩ := exists_eq_succ_of_ne_zero (ne_zero_of_lt (lt_of_succ_le hpattern))
    have hm : m < buf.length := hn
    have hrev : (buf.take (m + 1)).reverse = buf[m] :: (buf.take m).reverse := by
      rw [take_succ_eq_append_getElem hm, reverse_append]
      rfl
    rw [looksBack, getElem?_eq_getElem hm, hrev]
    simp only [bind_eq_bind, bind_some, cons_prefix_cons]
    by_cases hc : buf[m] = c
    · rw [if_pos hc, ih hm.le (le_of_succ_le_succ hpattern)]
      simp [hc]
    · rw [if_neg hc]
      simp [Ne.symm hc]

/-- A pattern up to a slash is found where it is the whole segment. -/
theorem prefix_slash_iff {rest : List Octet} (hpattern : slash ∉ pattern)
    (hsegment : slash ∉ segment) :
    pattern ++ [slash] <+: segment ++ slash :: rest ↔ pattern = segment := by
  induction pattern generalizing segment with
  | nil =>
    cases segment with
    | nil => simp
    | cons c cs =>
      rw [mem_cons, not_or] at hsegment
      simp [hsegment.1]
  | cons d ds ih =>
    rw [mem_cons, not_or] at hpattern
    cases segment with
    | nil => simp [Ne.symm hpattern.1]
    | cons c cs =>
      rw [mem_cons, not_or] at hsegment
      rw [cons_append, cons_append, cons_prefix_cons, ih hpattern.2 hsegment.2, List.cons.injEq]

theorem backUp_eq {front : List Octet} (hn : n ≤ buf.length)
    (htake : buf.take n = front ++ slash :: segment) (hsegment : slash ∉ segment) :
    backUp buf n = some (front.length + 1) := by
  induction segment using List.reverseRecOn generalizing n with
  | nil =>
    have hlen : n = front.length + 1 := by
      have := congrArg List.length htake
      simp [length_take, min_eq_left hn] at this
      omega
    subst hlen
    have hget : buf[front.length]? = some slash := by
      have := congrArg (fun l : List Octet => l[front.length]?) htake
      simpa using this
    rw [backUp, hget]
    rfl
  | append_singleton segment c ih =>
    have hlen : n = front.length + 1 + segment.length + 1 := by
      have := congrArg List.length htake
      simp [length_take, min_eq_left hn] at this
      omega
    subst hlen
    rw [mem_append, not_or, mem_singleton] at hsegment
    have hget : buf[front.length + 1 + segment.length]? = some c := by
      have := congrArg (fun l : List Octet => l[front.length + 1 + segment.length]?) htake
      simpa [getElem?_append, add_assoc, add_comm 1] using this
    have htake' : buf.take (front.length + 1 + segment.length) = front ++ slash :: segment := by
      have hmin : min (front.length + 1 + segment.length) (front.length + 1 + segment.length + 1) =
        front.length + 1 + segment.length := min_eq_left (le_succ _)
      rw [← hmin, ← take_take, htake, ← cons_append, ← append_assoc]
      exact take_left' (by simp; omega)
    rw [backUp, hget]
    simp only [bind_eq_bind, bind_some]
    rw [if_neg (Ne.symm hsegment.2)]
    exact ih (by omega) htake' hsegment.1

/-! ## The output in the buffer -/

/-- The output stands at the front of the buffer, and what has not been read is as it was. -/
structure Placed (inLength : ℕ) (orig : List Octet) (k : ℕ) (st : PathState) (out : List Octet) :
    Prop where
  size : st.buf.length = inLength + 1
  le : st.length ≤ k
  out : st.buf.take st.length = out
  rest : ∀ j, k ≤ j → st.buf[j]? = orig[j]?

section Placed
variable {inLength k : ℕ} {orig out tail : List Octet} {st : PathState}

namespace Placed
section
variable (h : Placed inLength orig k st out)
include h

theorem note (i : UriInfraction) (e : UriEvent) :
    Placed inLength orig k (st.note i e) out := ⟨h.size, h.le, h.out, h.rest⟩

theorem succ : Placed inLength orig (k + 1) st out :=
  ⟨h.size, h.le.trans (le_succ k), h.out, fun j hj => h.rest j (le_of_succ_le hj)⟩

theorem length_le (hk : k ≤ inLength) : st.length ≤ st.buf.length := by
  have := h.le
  have := h.size
  omega

theorem length_eq (hk : k ≤ inLength) : st.length = out.length := by
  rw [← h.out, length_take, min_eq_left (h.length_le hk)]

theorem put (hk : k ≤ inLength) (c : Octet) :
    ∃ st', st.put c = some st' ∧ Placed inLength orig (k + 1) st' (out ++ [c]) := by
  have hlt : st.length < st.buf.length := by
    have := h.le
    have := h.size
    omega
  refine ⟨_, if_pos hlt, ?_, ?_, ?_, ?_⟩
  · rw [length_set]
    exact h.size
  · exact succ_le_succ h.le
  · rw [← h.out, take_succ_eq_append_getElem (by rwa [length_set]), getElem_set_self,
      take_set_of_le (le_refl _)]
  · intro j hj
    have hne : st.length ≠ j := by
      have := h.le
      omega
    rw [getElem?_set_ne hne]
    exact h.rest j (le_of_succ_le hj)
end

theorem shrink (h : Placed inLength orig k st (out ++ tail)) (hk : k ≤ inLength) :
    Placed inLength orig (k + 1) { st with length := out.length } out := by
  have hlen := h.length_eq hk
  rw [length_append] at hlen
  have hle := h.le
  refine ⟨h.size, by dsimp only; omega, ?_, h.succ.rest⟩
  have hmin : min out.length st.length = out.length := min_eq_left (by omega)
  rw [← hmin, ← take_take, h.out]
  exact take_left

theorem looksBackFrom {dirs : List Segment} {segment pattern : Segment}
    (h : Placed inLength orig k st (render dirs segment ++ tail)) (hk : k ≤ inLength)
    (hsegment : slash ∉ segment) (hpattern : slash ∉ pattern) :
    looksBackFrom (pattern.length + 1 + tail.length) st (st.length - tail.length)
      (pattern.reverse ++ [slash]) = some (decide (pattern = segment)) := by
  obtain ⟨front, hfront⟩ := render_eq dirs
  have hlen := h.length_eq hk
  have hle := h.length_le hk
  rw [hfront] at h hlen
  simp only [length_append, length_cons] at hlen
  unfold Http.looksBackFrom
  split_ifs with hmin
  · have htake : st.buf.take (st.length - tail.length) = front ++ slash :: segment := by
      have hsub : st.length - tail.length = (front ++ slash :: segment).length := by
        simp only [length_append, length_cons]
        omega
      have hmin' : min (st.length - tail.length) st.length = st.length - tail.length :=
        min_eq_left (sub_le _ _)
      rw [← hmin', ← take_take, h.out, hsub]
      exact take_left
    rw [looksBack_eq (by omega) (by simp; omega), htake]
    have hiff := @prefix_slash_iff pattern.reverse segment.reverse front.reverse (by simpa)
      (by simpa)
    rw [reverse_append, reverse_cons, append_assoc, singleton_append]
    simp only [hiff, reverse_inj]
  · -- the output is too short for the pattern
    have hne : pattern ≠ segment := fun heq => hmin (by subst heq; omega)
    simp [hne]
end Placed

/-! ## The end of a segment -/

variable {dirs : List Segment} {segment : Segment}

section
variable (h : Placed inLength orig k st (render dirs [dot, dot])) (hk : k ≤ inLength)
  (hdirs : Resolved dirs)
include h hk hdirs

theorem atRoot_eq :
    ∃ b, atRoot st = some b ∧
      (b = true ↔ ∀ last rest, dirs = last :: rest → last = [dot, dot]) := by
  have hlen := h.length_eq hk
  unfold atRoot
  cases dirs with
  | nil =>
    rw [if_pos (show st.length = 3 from hlen)]
    exact ⟨true, rfl, by simp⟩
  | cons last rest =>
    rw [render_cons] at h hlen
    obtain ⟨front, hfront⟩ := render_eq rest
    have hne : ¬ st.length = 3 := by
      rw [hlen, hfront]
      simp only [length_append, length_cons]
      omega
    rw [if_neg hne]
    have hlook := @Placed.looksBackFrom inLength k orig [slash, dot, dot] st rest last
      [dot, dot] h hk
      hdirs.2.1 (by decide)
    exact ⟨_, hlook, by simp [eq_comm]⟩

theorem dotDot_placed :
    ∃ st', dotDot st = some st' ∧
      Placed inLength orig (k + 1) st' (render (enter dirs [dot, dot]) []) := by
  have h₁ := h.note .slashDotDot .dirTrav
  obtain ⟨b, hb, hiff⟩ := atRoot_eq h₁ hk hdirs
  unfold dotDot
  simp only [hb, bind_eq_bind, bind_some]
  by_cases hroot : ∀ last rest, dirs = last :: rest → last = [dot, dot]
  · rw [if_pos (hiff.mpr hroot), enter_dotDot_of_root hroot, render_cons]
    exact (h₁.note _ _).put hk slash
  · rw [if_neg (mt hiff.mp hroot)]
    push Not at hroot
    obtain ⟨last, rest, rfl, hlast⟩ := hroot
    rw [enter_dotDot_of_ne hlast]
    obtain ⟨front, hfront⟩ := render_eq rest
    have hlen := h₁.length_eq hk
    have hle := h₁.length_le hk
    rw [render_cons, hfront] at h₁ hlen
    simp only [length_append, length_cons, length_nil] at hlen
    have hsub : (st.note .slashDotDot .dirTrav).length - 3 = (front ++ slash :: last).length := by
      simp only [length_append, length_cons]
      omega
    have hback : backUp (st.note .slashDotDot .dirTrav).buf
        ((st.note .slashDotDot .dirTrav).length - 3) = some (front.length + 1) := by
      refine backUp_eq (by omega) ?_ hdirs.2.1
      have hmin : min ((st.note .slashDotDot .dirTrav).length - 3)
        (st.note .slashDotDot .dirTrav).length = (st.note .slashDotDot .dirTrav).length - 3 :=
        min_eq_left (sub_le _ _)
      rw [← hmin, ← take_take, h₁.out, hsub]
      exact take_left
    rw [hback]
    refine ⟨_, rfl, ?_⟩
    have hout : front ++ slash :: last ++ slash :: [dot, dot] =
        (front ++ [slash]) ++ (last ++ slash :: [dot, dot]) := by simp
    rw [hout] at h₁
    have hshrink := h₁.shrink hk
    rw [length_append, length_singleton] at hshrink
    rw [hfront]
    exact hshrink
end

theorem endSegment_placed (h : Placed inLength orig k st (render dirs segment)) (hk : k ≤ inLength)
    (hdirs : Resolved dirs) (hsegment : slash ∉ segment) :
    ∃ st', endSegment inLength k st = some st' ∧ Placed inLength orig (k + 1) st'
      (if segment = [dot] ∨ segment = [dot, dot] then render (enter dirs segment) []
        else if k < inLength then render (segment :: dirs) [] else render dirs segment) := by
  have h' : Placed inLength orig k st (render dirs segment ++ []) := by rwa [append_nil]
  have hdot := @Placed.looksBackFrom inLength k orig [] st dirs segment [dot] h' hk hsegment
    (by decide)
  have hdots := @Placed.looksBackFrom inLength k orig [] st dirs segment [dot, dot] h' hk hsegment
    (by decide)
  unfold endSegment
  rw [show looksBackFrom 2 st st.length [dot, slash] = _ from hdot,
    show looksBackFrom 3 st st.length [dot, dot, slash] = _ from hdots]
  simp only [bind_eq_bind, bind_some, decide_eq_true_eq]
  by_cases hone : [dot] = segment
  · subst hone
    refine ⟨_, rfl, ?_⟩
    have hlen := h.length_eq hk
    rw [show render dirs [dot] = render dirs [] ++ [dot] from render_append dirs [] [dot]] at h hlen
    rw [length_append, length_singleton] at hlen
    have hshrink := (h.note .slashDot .selfDirTrav).shrink hk
    rw [hlen]
    exact hshrink
  rw [if_neg hone]
  by_cases htwo : [dot, dot] = segment
  · subst htwo
    exact dotDot_placed h hk hdirs
  rw [if_neg htwo, if_neg (not_or.mpr ⟨Ne.symm hone, Ne.symm htwo⟩)]
  split_ifs
  · rw [render_cons]
    exact h.put hk slash
  · exact ⟨st, rfl, h.succ⟩

/-! ## The loop -/

theorem cleanStep_placed (h : Placed inLength orig k st (render dirs segment)) (hpos : 0 < k)
    (hlt : k < inLength) (hdirs : Resolved dirs) (hsegment : slash ∉ segment) {c : Octet}
    (hc : orig[k]? = some c) :
    ∃ st', cleanStep inLength st k = some st' ∧ Placed inLength orig (k + 1) st'
      (render (readOctet (dirs, segment) c).1 (readOctet (dirs, segment) c).2) := by
  have h' : Placed inLength orig k st (render dirs segment ++ []) := by rwa [append_nil]
  have hnil := @Placed.looksBackFrom inLength k orig [] st dirs segment [] h' hlt.le hsegment
    not_mem_nil
  unfold cleanStep
  rw [if_neg hpos.ne', if_pos hlt, h.rest k (le_refl k), hc]
  simp only [bind_eq_bind, bind_some, readOctet]
  by_cases hslash : c = slash
  · rw [if_neg (not_not.mpr hslash), if_pos hslash,
      show looksBackFrom 1 st st.length [slash] = _ from hnil]
    simp only [bind_some, decide_eq_true_eq]
    by_cases hempty : [] = segment
    · subst hempty
      exact ⟨_, rfl, (h.note _ _).succ⟩
    · rw [if_neg hempty]
      obtain ⟨st', hst', hplaced⟩ := endSegment_placed h hlt.le hdirs hsegment
      refine ⟨st', hst', ?_⟩
      split_ifs at hplaced with hdots
      · exact hplaced
      · rw [not_or] at hdots
        rwa [enter_of_name (not_or.mpr ⟨Ne.symm hempty, hdots.1⟩) hdots.2]
  · rw [if_pos hslash, if_neg hslash, render_append]
    exact h.put hlt.le c

theorem readOctet_ok (hdirs : Resolved dirs) (hsegment : slash ∉ segment) (c : Octet) :
    Resolved (readOctet (dirs, segment) c).1 ∧ slash ∉ (readOctet (dirs, segment) c).2 := by
  unfold readOctet
  split_ifs with hc
  · exact ⟨hdirs.enter hsegment, not_mem_nil⟩
  · refine ⟨hdirs, fun hmem => ?_⟩
    rcases mem_append.mp hmem with hmem | hmem
    · exact hsegment hmem
    · exact hc (mem_singleton.mp hmem).symm

/-- The rest of the input, and the pretended slash behind it. -/
theorem foldlM_placed {rest : List Octet} (h : Placed inLength orig k st (render dirs segment))
    (hpos : 0 < k) (hlen : k + rest.length = inLength)
    (hrest : ∀ j c, rest[j]? = some c → orig[k + j]? = some c) (hdirs : Resolved dirs)
    (hsegment : slash ∉ segment) :
    ∃ st', (List.range' k (rest.length + 1)).foldlM (cleanStep inLength) st = some st' ∧
      Placed inLength orig (inLength + 1) st'
        (finish (rest.foldl readOctet (dirs, segment)).1
          (rest.foldl readOctet (dirs, segment)).2) := by
  induction rest generalizing k st dirs segment with
  | nil =>
    simp only [length_nil, add_zero] at hlen
    subst hlen
    obtain ⟨st', hst', hplaced⟩ := endSegment_placed h (le_refl k) hdirs hsegment
    rw [if_neg (lt_irrefl k)] at hplaced
    refine ⟨st', ?_, hplaced⟩
    have hstep : cleanStep k st k = some st' := by
      unfold cleanStep
      rw [if_neg hpos.ne', if_neg (lt_irrefl k)]
      exact hst'
    simp [hstep]
  | cons c rest ih =>
    rw [length_cons] at hlen
    obtain ⟨st₁, hst₁, hplaced⟩ := cleanStep_placed h hpos (by omega) hdirs hsegment (hrest 0 c rfl)
    obtain ⟨hdirs₁, hsegment₁⟩ := readOctet_ok hdirs hsegment c
    have hrest₁ : ∀ j d, rest[j]? = some d → orig[k + 1 + j]? = some d := by
      intro j d hd
      rw [add_assoc, add_comm 1]
      exact hrest (j + 1) d hd
    obtain ⟨st', hst', hfinal⟩ := ih hplaced k.succ_pos (by omega) hrest₁ hdirs₁ hsegment₁
    refine ⟨st', ?_, hfinal⟩
    rw [length_cons, range'_succ, foldlM_cons, hst₁]
    exact hst'
end Placed

/-- Every path that begins with a slash is normalized to its canonical form, without an access
outside of the buffer. -/
theorem normPathClean_placed (pad : Octet) :
    ∃ st, normPathClean (slash :: path ++ [pad]) (path.length + 1) = some st ∧
      Placed (path.length + 1) (slash :: path ++ [pad]) (path.length + 1 + 1) st
        (canonical (slash :: path)) := by
  have hinit : Placed (path.length + 1) (slash :: path ++ [pad]) 0
      ⟨slash :: path ++ [pad], 0, [], []⟩ [] :=
    ⟨by simp, le_refl 0, rfl, fun _ _ => rfl⟩
  obtain ⟨st₁, hst₁, hplaced⟩ := hinit.put (zero_le _) slash
  have hrest : ∀ j c, path[j]? = some c → (slash :: path ++ [pad])[0 + 1 + j]? = some c := by
    intro j c hc
    obtain ⟨hlt, -⟩ := List.getElem?_eq_some_iff.mp hc
    rw [zero_add, add_comm, cons_append, getElem?_cons_succ, getElem?_append_left hlt, hc]
  obtain ⟨st, hst, hfinal⟩ := @foldlM_placed (path.length + 1) 1 _ st₁ [] [] path hplaced
    one_pos (add_comm _ _) hrest trivial not_mem_nil
  refine ⟨st, ?_, by rw [canonical_eq]; exact hfinal⟩
  rw [normPathClean, range_eq_range', range'_succ, foldlM_cons]
  have hstep : cleanStep (path.length + 1) ⟨slash :: path ++ [pad], 0, [], []⟩ 0 = some st₁ := hst₁
  rw [hstep]
  exact hst

theorem canonical_idem : canonical (canonical (slash :: path)) = canonical (slash :: path) := by
  have hok : Resolved (path.foldl readOctet ([], [])).1 ∧
      slash ∉ (path.foldl readOctet ([], [])).2 := by
    induction path using List.reverseRecOn with
    | nil => exact ⟨trivial, not_mem_nil⟩
    | append_singleton path c ih =>
      rw [foldl_append]
      exact readOctet_ok ih.1 ih.2 c
  rw [canonical_eq, canonical_finish hok.1 hok.2]

theorem canonical_eq_cons : ∃ rest, canonical (slash :: path) = slash :: rest := by
  rw [canonical_eq, finish]
  split_ifs <;> exact ⟨_, rfl⟩

/-- Normalization of a path that begins with a slash, in a buffer with one more octet: no access is
outside of the buffer, the result is the canonical form, it is longer than the path by one octet at
most, and normalizing it again does not change it. -/
theorem normPathClean_canonical (path : List Octet) (pad : Octet) :
    ∃ st, normPathClean (slash :: path ++ [pad]) (path.length + 1) = some st ∧
      st.buf.take st.length = canonical (slash :: path) ∧
      st.length ≤ (path.length + 1) + 1 ∧
      ∀ pad', ∃ st', normPathClean (st.buf.take st.length ++ [pad']) st.length = some st' ∧
        st'.buf.take st'.length = st.buf.take st.length := by
  obtain ⟨st, hst, hplaced⟩ := normPathClean_placed path pad
  refine ⟨st, hst, hplaced.out, hplaced.le, fun pad' => ?_⟩
  obtain ⟨rest, hrest⟩ := canonical_eq_cons path
  obtain ⟨st', hst', hplaced'⟩ := normPathClean_placed rest pad'
  have hlen : st.length = rest.length + 1 := by
    have hout := congrArg List.length hplaced.out
    have hsize := hplaced.size
    have hle := hplaced.le
    rw [hrest, length_take, length_cons] at hout
    omega
  refine ⟨st', by rw [hplaced.out, hrest, hlen]; exact hst', ?_⟩
  rw [hplaced'.out, ← hrest, canonical_idem, hplaced.out]
end Snort.Http
