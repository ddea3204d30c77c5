import Snort.Sfip.IpListBrackets

/-!
# Lists of blocks as text

A list expression is a sequence of literals and lists, each of them behind its
negations, with any blanks and commas between them. The parser passes each of
its literals to `sfvar_add_node`, negated by the parity of the negations in front
of it and of the lists around it.
-/

namespace Snort.Sfip
open List Option
variable {str : Str}

/-- What stands between items. -/
def isSeparator (c : Char) : Bool := isspace c || c = ','

/-- A list expression with its layout: each item stands behind separators and negations. -/
inductive ListExpr where
  | done (seps : Str)
  | literal (seps nots text : Str) (block : SfCidr) (rest : ListExpr)
  | list (seps nots : Str) (body rest : ListExpr)

namespace ListExpr

def text : ListExpr → Str
  | done seps => seps
  | literal seps nots text _ rest => seps ++ (nots ++ (text ++ rest.text))
  | list seps nots body rest => seps ++ (nots ++ '[' :: (body.text ++ ']' :: rest.text))

/-- The layout is one of blanks and commas, and of negations; the literals are those of their
blocks; and something stands between a literal and the next item. -/
def WellFormed (p : InetPton) : ListExpr → Prop
  | done seps => ∀ c ∈ seps, isSeparator c
  | literal seps nots text block rest =>
    (∀ c ∈ seps, isSeparator c) ∧ (∀ c ∈ nots, isNegation c) ∧ CidrLiteral p text block ∧
      (rest.text = [] ∨ headIs isSeparator rest.text) ∧ rest.WellFormed p
  | list seps nots body rest =>
    (∀ c ∈ seps, isSeparator c) ∧ (∀ c ∈ nots, isNegation c) ∧ body.WellFormed p ∧ rest.WellFormed p

/-- The blocks, each with the number of the negations that apply to it. -/
def blocks (n : ℕ) : ListExpr → List (SfCidr × ℕ)
  | done _ => []
  | literal _ nots _ block rest => (block, n + nots.count '!') :: rest.blocks n
  | list _ nots body rest => body.blocks (n + nots.count '!') ++ rest.blocks n
end ListExpr

/-- The parity of a number of negations. -/
def odd (n : ℕ) : Bool := n % 2 = 1

/-- A block is passed to `sfvar_add_node`. -/
def Parse.pass (parse : Parse) (block : SfCidr × ℕ) : Parse :=
  let negated := odd block.2
  ⟨sfvarAddNode parse.var (blockNode block.1 negated) negated,
    parse.calls ++ [(blockNode block.1 negated, negated)]⟩

/-! ## Elements -/

theorem toLower_eq_n {c : Char} (h : c.toLower = 'n') : c = 'n' ∨ c = 'N' := by
  unfold Char.toLower at h
  split at h
  · right
    have hval : c.val + 32 - 32 = 110 - 32 := by
      rw [show c.val + 32 = 110 from congrArg Char.val h]
    apply Char.ext
    simpa using hval
  · exact .inl h

section Literal
variable {p : InetPton} {text rest : Str} {block : SfCidr} {n : ℕ} {c : Char}

section
variable (h : CidrLiteral p text block)
include h

theorem CidrLiteral.not_any (k : ℕ) : ((text.take k).map Char.toLower == "any".toList) = false := by
  rw [beq_eq_false_iff_ne]
  intro hany
  have hn : 'n' ∈ (text.take k).map Char.toLower := by
    rw [hany]
    decide
  obtain ⟨c, hc, hlower⟩ := mem_map.mp hn
  have hlit := h.chars c (mem_of_mem_take hc)
  rcases toLower_eq_n hlower with rfl | rfl
  · exact absurd hlit (by decide)
  · exact absurd hlit (by decide)

theorem CidrLiteral.not_any_all : (text.map Char.toLower == "any".toList) = false := by
  have hany := h.not_any text.length
  rwa [take_length] at hany

theorem CidrLiteral.sfipnodeAlloc_eq :
    sfipnodeAlloc p text = .ok ⟨block, false, false, false, nofun⟩ := by
  have hneg : headIs (· = '!') text = false := by
    obtain ⟨c, more, rfl⟩ := exists_cons_of_ne_nil h.ne_nil
    exact decide_eq_false (literalChar_ne (h.chars c mem_cons_self) (by decide))
  have hspace := dropWhile_eq_self fun c hc => literalChar_not_space (h.chars c hc)
  unfold sfipnodeAlloc startsWithAny
  dsimp only
  rw [hneg, if_neg Bool.false_ne_true, hspace, h.not_any 3, if_neg Bool.false_ne_true, h.set_eq]
  dsimp only
  rw [Bool.and_false, if_neg Bool.false_ne_true]

/-- A literal is passed on, unless it is a negated zero address. -/
theorem CidrLiteral.addElement_eq (parse : Parse) (hset : odd n = true → block.isSet = true) :
    addElement p parse text (odd n) = (.success, parse.pass (block, n)) := by
  unfold addElement
  rw [h.not_any_all, Bool.and_false, if_neg Bool.false_ne_true, h.sfipnodeAlloc_eq]
  cases hodd : odd n with
  | false =>
    simp only [Bool.false_eq_true, if_false, Bool.and_false, Parse.pass, hodd]
    rfl
  | true =>
    simp only [if_true, SfipNode.negate, hset hodd, Bool.not_true, Bool.false_and,
      Bool.false_eq_true, if_false, Parse.pass, hodd]
    rfl

theorem CidrLiteral.addElement_notAny (parse : Parse)
    (hset : ¬(odd n = true → block.isSet = true)) :
    addElement p parse text (odd n) = (.notAny, parse) := by
  obtain ⟨hodd, hunset⟩ := Classical.not_imp.mp hset
  unfold addElement
  rw [h.not_any_all, Bool.and_false, if_neg Bool.false_ne_true, h.sfipnodeAlloc_eq, hodd]
  simp [SfipNode.negate, hunset]
end

theorem endsToken_literal (hc : literalChar c) : endsToken c = false := by
  unfold endsToken
  rw [literalChar_not_space hc, decide_eq_false (literalChar_ne hc (by decide)),
    decide_eq_false (literalChar_ne hc (by decide))]
  rfl

theorem endsToken_separator (hc : isSeparator c = true) : endsToken c = true := by
  unfold isSeparator at hc
  unfold endsToken
  rw [Bool.or_assoc, Bool.or_comm (decide _), ← Bool.or_assoc, hc]
  rfl
end Literal

/-! ## Layout -/

theorem odd_succ (n : ℕ) : odd (n + 1) = !odd n := by
  unfold odd
  rcases Nat.mod_two_eq_zero_or_one n with h | h
  · rw [h, Nat.add_mod, h]
    rfl
  · rw [h, Nat.add_mod, h]
    rfl

theorem odd_add (m n : ℕ) : odd (m + n) = (odd m ^^ odd n) := by
  induction n with
  | zero => rw [Nat.add_zero, show odd 0 = false from rfl, Bool.xor_false]
  | succ n ih => rw [← Nat.add_assoc, odd_succ, ih, odd_succ, Bool.xor_not]

theorem foldl_negations (nots : Str) (neg : Bool) :
    nots.foldl (fun neg c => if c = '!' then !neg else neg)
      neg = (neg ^^ odd (nots.count '!')) := by
  induction nots generalizing neg with
  | nil => exact (Bool.xor_false neg).symm
  | cons c nots ih =>
    rw [foldl_cons, ih, count_cons]
    by_cases hc : c = '!'
    · rw [if_pos hc, if_pos (beq_iff_eq.mpr hc), odd_succ, Bool.not_xor, Bool.xor_not]
    · rw [if_neg hc, if_neg (by rwa [beq_iff_eq]), Nat.add_zero]

section Layout
variable {nots : Str} {d : Char}

theorem negations_append (rest : Str) (hnots : ∀ c ∈ nots, isNegation c)
    (hd : isNegation d = false) :
    negations (nots ++ d :: rest) = odd (nots.count '!') := by
  unfold negations
  rw [takeWhile_append_of_pos hnots, takeWhile_cons_of_neg (by rw [hd]; decide),
    append_nil, foldl_negations, Bool.false_xor]

theorem behindNegations_append (rest : Str) (hnots : ∀ c ∈ nots, isNegation c)
    (hd : isNegation d = false) :
    behindNegations (nots ++ d :: rest) = d :: rest := by
  unfold behindNegations
  rw [dropWhile_append_of_pos hnots, dropWhile_cons_of_neg (by rw [hd]; decide)]

variable {p : InetPton} {table : Option Vartable} {parse : Parse} {negation : Bool}

theorem parse_separators {seps : Str} (hseps : ∀ c ∈ seps, isSeparator c) (str : Str) :
    sfvarParseIplist p table parse (seps ++ str) negation =
      sfvarParseIplist p table parse str negation := by
  induction seps with
  | nil => rfl
  | cons c seps ih =>
    rw [cons_append,
      sfvarParseIplist_separator (by simpa [isSeparator] using hseps c mem_cons_self)]
    exact ih fun c hc => hseps c (mem_cons_of_mem _ hc)

/-- The blanks in front of the first negation are skipped like separators. -/
theorem parse_negations (p : InetPton) (table : Option Vartable) (parse : Parse) (negation : Bool)
    (rest : Str) (hnots : ∀ c ∈ nots, isNegation c) (hd : isNegation d = false)
    (hsep : ¬(isspace d = true ∨ d = ',')) :
    ∃ c tail, sfvarParseIplist p table parse (nots ++ d :: rest) negation =
        sfvarParseIplist p table parse (c :: tail) negation ∧
      ¬(isspace c = true ∨ c = ',') ∧ behindNegations (c :: tail) = d :: rest ∧
      negations (c :: tail) = odd (nots.count '!') := by
  induction nots with
  | nil =>
    exact ⟨d, rest, rfl, hsep, behindNegations_append rest hnots hd, negations_append rest hnots hd⟩
  | cons x nots ih =>
    by_cases hspace : isspace x = true
    · obtain ⟨c, tail, hparse, h⟩ := ih fun c hc => hnots c (mem_cons_of_mem _ hc)
      have hx : x ≠ '!' := by
        rintro rfl
        exact absurd hspace (by decide)
      refine ⟨c, tail, ?_, ?_⟩
      · rw [cons_append, sfvarParseIplist_separator (.inl hspace), hparse]
      · rw [count_cons_of_ne hx]
        exact h
    · have hx : x = '!' := by
        have := hnots x mem_cons_self
        simpa [isNegation, hspace] using this
      refine ⟨x, nots ++ d :: rest, rfl, ?_, behindNegations_append rest hnots hd,
        negations_append rest hnots hd⟩
      rw [hx]
      decide
end Layout

/-! ## Lists -/

theorem depth_eq_of_notMem (ho : '[' ∉ str) (hc : ']' ∉ str) (n : ℕ) : depth n str = some n := by
  induction str with
  | nil => rfl
  | cons c rest ih =>
    rw [mem_cons, not_or] at ho hc
    rw [depth_cons_of_ne (Ne.symm ho.1) (Ne.symm hc.1), ih ho.2 hc.2]

theorem findEndToken_append {m n : ℕ} (h : depth m str = some n) (rest : Str) :
    findEndToken ((m + 1 : ℕ) : ℤ) (str ++ rest) =
      (findEndToken ((n + 1 : ℕ) : ℤ) rest).map fun (before, behind) =>
      (str ++ before, behind) := by
  induction str generalizing m with
  | nil =>
    obtain rfl : m = n := Option.some.inj h
    simp
  | cons c str ih =>
    rw [depth] at h
    rw [cons_append, findEndToken]
    split_ifs at h with ho hc hzero
    · rw [if_pos ho]
      have ih := ih h
      rw [Nat.cast_succ] at ih
      rw [if_neg (by omega), ih, Option.map_map]
      rfl
    · rw [if_neg ho, if_pos hc]
      have ih := ih h
      rw [show ((m - 1 + 1 : ℕ) : ℤ) = ((m + 1 : ℕ) : ℤ) - 1 by omega] at ih
      rw [if_neg (by omega), ih, Option.map_map]
      rfl
    · rw [if_neg ho, if_neg hc]
      rw [if_neg (by omega), ih h, Option.map_map]
      rfl

theorem findEndToken_balanced (h : depth 0 str = some 0) (rest : Str) :
    findEndToken 1 (str ++ ']' :: rest) = some (str, rest) := by
  have hend : findEndToken 1 (']' :: rest) = some ([], rest) := rfl
  have happend := findEndToken_append h (']' :: rest)
  rw [show ((0 + 1 : ℕ) : ℤ) = 1 from rfl, hend] at happend
  rw [happend, map_some]
  dsimp only
  rw [append_nil]

namespace ListExpr
variable {p : InetPton}
  {nots seps text : Str} {e : ListExpr} {block : SfCidr} {table : Option Vartable} {n : ℕ}

theorem isNegation_notMem (hnots : ∀ c ∈ nots, isNegation c) : '[' ∉ nots ∧ ']' ∉ nots :=
  ⟨fun h => absurd (hnots _ h) (by decide), fun h => absurd (hnots _ h) (by decide)⟩

theorem isSeparator_notMem (hseps : ∀ c ∈ seps, isSeparator c) : '[' ∉ seps ∧ ']' ∉ seps :=
  ⟨fun h => absurd (hseps _ h) (by decide), fun h => absurd (hseps _ h) (by decide)⟩

theorem depth_text (h : e.WellFormed p) : depth 0 e.text = some 0 := by
  induction e with
  | done seps =>
    obtain ⟨ho, hc⟩ := isSeparator_notMem h
    exact depth_eq_of_notMem ho hc 0
  | literal seps nots text block rest ih =>
    obtain ⟨hseps, hnots, hlit, -, hrest⟩ := h
    obtain ⟨ho₁, hc₁⟩ := isSeparator_notMem hseps
    obtain ⟨ho₂, hc₂⟩ := isNegation_notMem hnots
    have ho₃ : '[' ∉ text := fun h => absurd (hlit.chars _ h) (by decide)
    have hc₃ : ']' ∉ text := fun h => absurd (hlit.chars _ h) (by decide)
    rw [ListExpr.text, depth_append, depth_eq_of_notMem ho₁ hc₁, bind_some, depth_append,
      depth_eq_of_notMem ho₂ hc₂, bind_some, depth_append, depth_eq_of_notMem ho₃ hc₃,
      bind_some, ih hrest]
  | list seps nots body rest ihb ihr =>
    obtain ⟨hseps, hnots, hbody, hrest⟩ := h
    obtain ⟨ho₁, hc₁⟩ := isSeparator_notMem hseps
    obtain ⟨ho₂, hc₂⟩ := isNegation_notMem hnots
    rw [ListExpr.text, depth_append, depth_eq_of_notMem ho₁ hc₁, bind_some, depth_append,
      depth_eq_of_notMem ho₂ hc₂, bind_some, depth_list (findEndToken_balanced (ihb hbody) _),
      ihr hrest]

theorem token_literal {rest : Str} (h : CidrLiteral p text block)
    (hrest : rest = [] ∨ headIs isSeparator rest) :
    token (text ++ rest) = text ∧ behindToken (text ++ rest) = rest.drop 1 := by
  obtain ⟨d, more, rfl⟩ := exists_cons_of_ne_nil h.ne_nil
  have hmore : ∀ c ∈ more, (!endsToken c) = true := fun c hc => by
    rw [endsToken_literal (h.chars c (mem_cons_of_mem d hc))]
    rfl
  have hstop : rest.takeWhile (fun c => !endsToken c) = [] ∧
      rest.dropWhile (fun c => !endsToken c) = rest := by
    rcases hrest with rfl | hsep
    · exact ⟨rfl, rfl⟩
    · cases rest with
      | nil => exact ⟨rfl, rfl⟩
      | cons c rest =>
        have hc : ¬(!endsToken c) = true := by
          rw [endsToken_separator hsep]
          decide
        exact ⟨takeWhile_cons_of_neg hc, dropWhile_cons_of_neg hc⟩
  rw [cons_append, token, behindToken, drop_succ_cons, drop_zero,
    takeWhile_append_of_pos hmore, dropWhile_append_of_pos hmore, hstop.1, hstop.2,
    append_nil]
  exact ⟨rfl, rfl⟩

/-- The first separator is skipped with the token in front of it. -/
theorem parse_drop_separator {parse : Parse} {negation : Bool} {rest : Str}
    (hrest : rest = [] ∨ headIs isSeparator rest) :
    sfvarParseIplist p table parse (rest.drop 1) negation =
      sfvarParseIplist p table parse rest negation := by
  rcases hrest with rfl | hsep
  · rfl
  · cases rest with
    | nil => rfl
    | cons c rest =>
      rw [drop_succ_cons, drop_zero, sfvarParseIplist_separator]
      simpa [isSeparator, headIs] using hsep

theorem parse_literal
    {rest : ListExpr} (h : (literal seps nots text block rest).WellFormed p) (n : ℕ)
    (parse : Parse) :
    sfvarParseIplist p table parse (literal seps nots text block rest).text (odd n) =
      match addElement p parse text (odd (n + nots.count '!')) with
      | (.success, parse) => sfvarParseIplist p table parse rest.text (odd n)
      | failed => failed := by
  obtain ⟨hseps, hnots, hlit, hnext, hrest⟩ := h
  obtain ⟨htoken, hbehindToken⟩ := token_literal hlit hnext
  obtain ⟨d, more, rfl⟩ := exists_cons_of_ne_nil hlit.ne_nil
  have hd := hlit.chars d mem_cons_self
  have hsep : ¬(isspace d = true ∨ d = ',') := by
    rw [literalChar_not_space hd]
    simp [literalChar_ne hd (show literalChar ',' = false by decide)]
  have hneg : isNegation d = false := by
    rw [isNegation, literalChar_not_space hd]
    simp [literalChar_ne hd (show literalChar '!' = false by decide)]
  obtain ⟨c, tail, hparse, hsep, hbehind, hnegs⟩ :=
    parse_negations p table parse (odd n) (more ++ rest.text) hnots hneg hsep
  have hitem : sfvarParseIplist p table parse (c :: tail) (odd n) = _ :=
    sfvarParseIplist_element hsep hbehind (literalChar_ne hd (by decide))
      (literalChar_ne hd (by decide)) (literalChar_ne hd (by decide))
  rw [hnegs, ← odd_add, ← cons_append, htoken, hbehindToken] at hitem
  simp only [parse_drop_separator hnext] at hitem
  rw [ListExpr.text, parse_separators hseps, cons_append, hparse]
  exact hitem

theorem parse_list {body rest : ListExpr}
    (h : (list seps nots body rest).WellFormed p) (n : ℕ) (parse : Parse) :
    sfvarParseIplist p table parse (list seps nots body rest).text (odd n) =
      match sfvarParseIplist p table parse body.text (odd (n + nots.count '!')) with
      | (.success, parse) => sfvarParseIplist p table parse rest.text (odd n)
      | failed => failed := by
  obtain ⟨hseps, hnots, hbody, hrest⟩ := h
  obtain ⟨c, tail, hparse, hsep, hbehind, hnegs⟩ := parse_negations (d := '[') p table parse (odd n)
    (body.text ++ ']' :: rest.text) hnots (by decide) (by decide)
  have hitem : sfvarParseIplist p table parse (c :: tail) (odd n) = _ :=
    sfvarParseIplist_list hsep hbehind (findEndToken_balanced (depth_text hbody) _)
  rw [hnegs, ← odd_add] at hitem
  rw [ListExpr.text, parse_separators hseps, hparse]
  exact hitem

/-- No zero address is negated. -/
def Negatable (e : ListExpr) (n : ℕ) : Prop :=
  ∀ b ∈ e.blocks n, odd b.2 = true → b.1.isSet = true

theorem parse_text (h : e.WellFormed p) (hset : e.Negatable n) (parse : Parse) :
    sfvarParseIplist p table parse e.text (odd n) =
      (.success, (e.blocks n).foldl Parse.pass parse) := by
  induction e generalizing n parse with
  | done seps =>
    rw [ListExpr.text, ← append_nil seps, parse_separators h, sfvarParseIplist]
    rfl
  | literal seps nots text block rest ih =>
    rw [parse_literal h, h.2.2.1.addElement_eq parse (hset _ mem_cons_self)]
    exact ih h.2.2.2.2 (fun b hb => hset b (mem_cons_of_mem _ hb)) _
  | list seps nots body rest ihb ihr =>
    rw [parse_list h, ihb h.2.2.1 (fun b hb => hset b (mem_append_left _ hb)),
      ListExpr.blocks, foldl_append]
    exact ihr h.2.2.2 (fun b hb => hset b (mem_append_right _ hb)) _

theorem parse_text_notAny (h : e.WellFormed p) (hset : ¬e.Negatable n) (parse : Parse) :
    (sfvarParseIplist p table parse e.text (odd n)).1 = .notAny := by
  induction e generalizing n parse with
  | done seps => exact (hset fun b hb => absurd hb not_mem_nil).elim
  | literal seps nots text block rest ih =>
    rw [parse_literal h]
    by_cases hblock : odd (n + nots.count '!') = true → block.isSet = true
    · rw [h.2.2.1.addElement_eq parse hblock]
      refine ih h.2.2.2.2 (fun hrest => hset fun b hb => ?_) _
      rcases mem_cons.mp hb with rfl | hb
      · exact hblock
      · exact hrest b hb
    · rw [h.2.2.1.addElement_notAny parse hblock]
  | list seps nots body rest ihb ihr =>
    rw [parse_list h]
    by_cases hbody : body.Negatable (n + nots.count '!')
    · rw [parse_text h.2.2.1 hbody]
      refine ihr h.2.2.2 (fun hrest => hset fun b hb => ?_) _
      rcases mem_append.mp hb with hb | hb
      · exact hbody b hb
      · exact hrest b hb
    · have hfail := ihb h.2.2.1 hbody parse
      split
      · rename_i heq
        rw [heq] at hfail
        exact SfIpRet.noConfusion hfail
      · exact hfail
end ListExpr

theorem foldl_pass (blocks : List (SfCidr × ℕ)) (parse : Parse) :
    blocks.foldl Parse.pass parse =
      let calls := blocks.map fun b => (blockNode b.1 (odd b.2), odd b.2)
      ⟨calls.foldl (fun var call => sfvarAddNode var call.1 call.2) parse.var,
        parse.calls ++ calls⟩ := by
  induction blocks generalizing parse with
  | nil => simp
  | cons b blocks ih =>
    rw [foldl_cons, ih]
    simp [Parse.pass]

/-- Where every opening bracket begins an item, an accepted text is balanced exactly if no closing
bracket that is one too many directly follows an element or ends the text. A list expression is
accepted exactly if it does not negate a zero address, and then each literal is passed once to
`sfvar_add_node`, negated by the parity of its negations. -/
theorem parse_iplist_lists (p : InetPton) (table : Option Vartable) (parse : Parse) :
    (∀ str negation, opensItems .between 0 str = true →
      (sfvarParseIplist p table parse str negation).1 = .success →
      (Balanced str ↔ beginsItems .between 0 str = true)) ∧
    ∀ (e : ListExpr) (n : ℕ), e.WellFormed p →
      let calls := (e.blocks n).map fun b => (blockNode b.1 (odd b.2), odd b.2)
      sfvarParseIplist p table parse e.text (odd n) =
          (.success, ⟨calls.foldl (fun var call => sfvarAddNode var call.1 call.2) parse.var,
            parse.calls ++ calls⟩) ↔
        e.Negatable n := by
  refine ⟨fun str negation hopens hsuccess => ⟨fun hbalanced => ?_, fun hbegins => ?_⟩,
    fun e n h => ?_⟩
  · exact beginsItems_of_depth (by rw [hbalanced]; rfl) hopens
  · exact accepted_balanced hbegins hsuccess
  constructor
  · intro hsuccess
    by_contra hset
    have hfail : (sfvarParseIplist p table parse e.text (odd n)).1 = .notAny :=
      ListExpr.parse_text_notAny h hset parse
    rw [hsuccess] at hfail
    exact absurd hfail nofun
  · intro hset
    rw [ListExpr.parse_text h hset, foldl_pass]

/-- An `inet_pton` that knows a few addresses. -/
def sampleAddresses : List (Str × BitVec 32) :=
  [("0.0.0.0".toList, 0), ("10.0.0.0".toList, 0x0000000A), ("192.168.0.0".toList, 0x0000A8C0)]

def samplePton : InetPton where
  v4 str := (sampleAddresses.find? fun a => a.1 = str).map Prod.snd
  v6 _ := none
  v4_chars := by
    intro str a h
    obtain ⟨⟨text, b⟩, hfind, -⟩ := map_eq_some_iff.mp h
    have hmem := mem_of_find?_eq_some hfind
    have hstr := find?_some hfind
    obtain rfl : text = str := of_decide_eq_true hstr
    have hall : ∀ a ∈ sampleAddresses, a.1.all (fun c => isdigit c || c == '.') ∧ '.' ∈ a.1 := by
      decide
    obtain ⟨hchars, hdot⟩ := hall _ hmem
    exact ⟨by simpa using hchars, hdot⟩
  v6_chars := nofun
  v4_zero := by decide

theorem tenBlock_literal : CidrLiteral samplePton "10.0.0.0/8".toList tenBlock := by
  have hip : samplePton.v4 "10.0.0.0".toList = some 0x0000000A := by decide
  have hlen : LengthText 32 "/8".toList 8 := .slash (by decide) (all_eq_true.mp (by decide))
    (by decide)
  exact .v4 hip (by decide) hlen tenBlock.ofBits_self

theorem privateBlock_literal : CidrLiteral samplePton "192.168.0.0/16".toList privateBlock := by
  have hip : samplePton.v4 "192.168.0.0".toList = some 0x0000A8C0 := by decide
  have hlen : LengthText 32 "/16".toList 16 := .slash (by decide) (all_eq_true.mp (by decide))
    (by decide)
  exact .v4 hip (by decide) hlen privateBlock.ofBits_self

/-- The text `![10.0.0.0/8, !192.168.0.0/16]`. -/
def negatedPair : ListExpr :=
  .list [] ['!'] (.literal [] [] "10.0.0.0/8".toList tenBlock
    (.literal ", ".toList ['!'] "192.168.0.0/16".toList privateBlock (.done []))) (.done [])

theorem parse_iplist_negatedPair :
    sfvarParseIplist samplePton none ⟨.alloc, []⟩ negatedPair.text (odd 0) =
      (.success, ⟨sfvarAddNode (sfvarAddNode .alloc (blockNode tenBlock true) true)
            (blockNode privateBlock false) false,
          [(blockNode tenBlock true, true), (blockNode privateBlock false, false)]⟩) :=
  ((parse_iplist_lists samplePton none ⟨.alloc, []⟩).2 negatedPair 0
    ⟨nofun, all_eq_true.mp (by decide), ⟨nofun, nofun, tenBlock_literal, .inr (by decide),
      all_eq_true.mp (by decide), all_eq_true.mp (by decide), privateBlock_literal,
      .inl rfl, nofun⟩, nofun⟩).mpr
    (by unfold ListExpr.Negatable; decide)

/-- The closing bracket behind an address is accepted. -/
theorem parse_iplist_surplus :
    (sfvarParseIplist samplePton none ⟨.alloc, []⟩ "10.0.0.0/8]".toList false).1 = .success ∧
      ¬Balanced "10.0.0.0/8]".toList := by
  refine ⟨?_, by decide⟩
  have hadd := tenBlock_literal.addElement_eq ⟨.alloc, []⟩ (n := 0) nofun
  have htext : "10.0.0.0/8]".toList = '1' :: "0.0.0.0/8]".toList := by decide
  rw [htext, sfvarParseIplist_element (d := '1') (by decide) (by rfl) (by decide) (by decide)
    (by decide)]
  have htoken : token ('1' :: "0.0.0.0/8]".toList) = "10.0.0.0/8".toList := by decide
  have hbehind : behindToken ('1' :: "0.0.0.0/8]".toList) = [] := by decide
  have hodd : (false ^^ negations ('1' :: "0.0.0.0/8]".toList)) = odd 0 := by decide
  rw [htoken, hbehind, hodd, hadd]
  dsimp only
  rw [sfvarParseIplist]
end Snort.Sfip
