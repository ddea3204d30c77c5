import Snort.Sfip.CidrText
import Snort.Sfip.IpVarLists

/-!
# The text of an address variable

The parser of `sf_ipvar.cc`. It calls itself for the text between two brackets.
The calls of `sfvar_add_node` are recorded, besides the variable that they build.
-/

namespace Snort.Sfip
open List

/-! ## Nodes -/

/-- Whether the text begins with the letters of `any`, in either case. -/
def startsWithAny (str : Str) : Bool := (str.take 3).map Char.toLower == "any".toList

/-- `sfipnode_alloc` -/
def sfipnodeAlloc (p : InetPton) (str : Str) : Except SfIpRet SfipNode :=
  let negated := headIs (· = '!') str
  let str := (if negated then str.drop 1 else str).dropWhile isspace
  if startsWithAny str then
    if negated then .error .argErr
    else .ok ⟨anyCidr, true, false, false, fun _ => rfl⟩
  else
    match SfCidr.set p str with
    | .error ret => .error ret
    | .ok ip =>
      if !ip.isSet && negated then .error .notAny
      else .ok ⟨ip, false, negated, false, notAny_ip ip⟩

/-- `_negate_node` -/
def SfipNode.negate (node : SfipNode) : SfipNode :=
  { node with negated := !node.addrNegated, addrNegated := !node.addrNegated }

/-- `_negate_lists` -/
def SfipVar.negateLists (var : SfipVar) : SfipVar where
  head := var.negHead.map SfipNode.negate
  negHead := var.head.map SfipNode.negate
  headCount := var.negHeadCount
  negHeadCount := var.headCount

/-- The variables by their names. -/
abbrev Vartable := List (Str × SfipVar)

/-- `sfvt_lookup_var` -/
def sfvtLookupVar (table : Vartable) (name : Str) : Option SfipVar :=
  let name := if headIs (· = '$') name then name.drop 1 else name
  let name := name.takeWhile fun c => !isspace c && c ≠ '\\' && c ≠ ']'
  if name = [] then none else (table.find? fun p => p.1 = name).map Prod.snd

/-! ## Tokens -/

variable {str : Str}

/-- `_find_end_token`, with the number of brackets that are open: the texts before and behind the
end. -/
def findEndToken (stack : ℤ) : Str → Option (Str × Str)
  | [] => none
  | c :: rest =>
    let stack := if c = '[' then stack + 1 else if c = ']' then stack - 1 else stack
    if stack = 0 then some ([], rest)
    else (findEndToken stack rest).map fun (before, behind) => (c :: before, behind)

/-- The characters that end a token. -/
def endsToken (c : Char) : Bool := isspace c || c = ']' || c = ','

/-- What stands in front of an element: negations, and blanks. -/
def isNegation (c : Char) : Bool := c = '!' || isspace c

/-- The loop over the negations. -/
def negations (str : Str) : Bool :=
  (str.takeWhile isNegation).foldl (fun neg c => if c = '!' then !neg else neg) false

/-- The text behind the negations. -/
def behindNegations (str : Str) : Str := str.dropWhile isNegation

/-- A token, which has at least one character. At the end of the text the code looks for the end
of the token behind the terminating zero, but takes an empty token. -/
def token : Str → Str
  | [] => []
  | c :: rest => c :: rest.takeWhile fun c => !endsToken c

/-- The text behind a token and the character that ends it. -/
def behindToken (str : Str) : Str := (str.drop 1).dropWhile (fun c => !endsToken c) |>.drop 1

/-! ## Lists -/

/-- The variable, and the calls of `sfvar_add_node` so far. -/
structure Parse where
  var : SfipVar
  calls : List (SfipNode × Bool)

/-- An element that begins with `$`: the variable is merged. -/
def addVariable (table : Option Vartable) (parse : Parse) (tok : Str) (negated : Bool) :
    SfIpRet × Parse :=
  match table with
  | none => (.lookupUnavailable, parse)
  | some table =>
    match sfvtLookupVar table tok with
    | none => (.lookupFailure, parse)
    | some var =>
      if negated then
        if (var.head.head?.any fun node => node.any) ||
            (var.head.head?.any fun node => !node.ip.isSet) then (.notAny, parse)
        else (.success, { parse with var := sfvarAdd parse.var var.negateLists })
      else (.success, { parse with var := sfvarAdd parse.var var })

/-- An element that is an address or a block. -/
def addElement (p : InetPton) (parse : Parse) (tok : Str) (negated : Bool) : SfIpRet × Parse :=
  if negated && tok.map Char.toLower == "any".toList then (.notAny, parse)
  else
    match sfipnodeAlloc p tok with
    | .error ret => (ret, parse)
    | .ok node =>
      let node := if negated then node.negate else node
      if !node.ip.isSet && node.negated then (.notAny, parse)
      else
        (.success, ⟨sfvarAddNode parse.var node negated, parse.calls ++ [(node, negated)]⟩)

theorem length_behindNegations_le (str : Str) : (behindNegations str).length ≤ str.length :=
  (dropWhile_suffix _).length_le

theorem length_behindToken_lt (h : str ≠ []) : (behindToken str).length < str.length := by
  obtain ⟨c, rest, rfl⟩ := exists_cons_of_ne_nil h
  have := (dropWhile_suffix (l := rest) fun c => !endsToken c).length_le
  simp only [behindToken, drop_succ_cons, drop_zero, length_drop, length_cons]
  omega

theorem length_findEndToken {stack : ℤ} {before behind : Str}
    (h : findEndToken stack str = some (before, behind)) :
    before.length + behind.length < str.length := by
  induction str generalizing stack before with
  | nil => exact absurd h nofun
  | cons c rest ih =>
    unfold findEndToken at h
    dsimp only at h
    generalize (if c = '[' then stack + 1 else if c = ']' then stack - 1 else stack) = stack' at h
    split at h
    · obtain ⟨rfl, rfl⟩ := Prod.mk.inj (Option.some.inj h)
      simp
    · obtain ⟨⟨before', behind'⟩, hrest, heq⟩ := Option.map_eq_some_iff.mp h
      obtain ⟨rfl, rfl⟩ := Prod.mk.inj heq
      have := ih hrest
      simp only [length_cons] at this ⊢
      omega

/-- `sfvar_parse_iplist` -/
def sfvarParseIplist (p : InetPton) (table : Option Vartable) (parse : Parse) (str : Str)
    (negation : Bool) : SfIpRet × Parse :=
  match str with
  | [] => (.success, parse)
  | c :: rest =>
    if isspace c || c = ',' then sfvarParseIplist p table parse rest negation
    else
      let negated := negation ^^ negations (c :: rest)
      match _h : behindNegations (c :: rest) with
      | '[' :: list =>
        -- the bracket in front of the list is counted already
        match _hend : findEndToken 1 list with
        | none => (.unmatchedBracket, parse)
        | some (listTok, behind) =>
          match sfvarParseIplist p table parse listTok negated with
          | (.success, parse) => sfvarParseIplist p table parse behind negation
          | failed => failed
      | '$' :: name =>
        match addVariable table parse (token ('$' :: name)) negated with
        | (.success, parse) => sfvarParseIplist p table parse (behindToken ('$' :: name)) negation
        | failed => failed
      | ']' :: more => if more = [] then (.success, parse) else (.unmatchedBracket, parse)
      | [] => addElement p parse [] negated
      | d :: more =>
        match addElement p parse (token (d :: more)) negated with
        | (.success, parse) => sfvarParseIplist p table parse (behindToken (d :: more)) negation
        | failed => failed
termination_by str.length
decreasing_by
  · simp
  all_goals
    have hle := length_behindNegations_le (c :: rest)
    rw [_h] at hle
  · have := length_findEndToken _hend
    simp only [length_cons] at hle ⊢
    omega
  · have := length_findEndToken _hend
    simp only [length_cons] at hle ⊢
    omega
  · exact lt_of_lt_of_le (length_behindToken_lt (cons_ne_nil _ _)) hle
  · exact lt_of_lt_of_le (length_behindToken_lt (cons_ne_nil _ _)) hle

/-! ## The steps of the parser -/

section Steps
variable {p : InetPton} {table : Option Vartable} {parse : Parse} {c d : Char}
  {rest more list listTok behind : Str} {negation : Bool}

theorem sfvarParseIplist_separator (h : isspace c = true ∨ c = ',') :
    sfvarParseIplist p table parse (c :: rest) negation =
      sfvarParseIplist p table parse rest negation := by
  rw [sfvarParseIplist, if_pos (by simpa using h)]

theorem sfvarParseIplist_list (hsep : ¬(isspace c = true ∨ c = ','))
    (hlist : behindNegations (c :: rest) = '[' :: list)
    (hend : findEndToken 1 list = some (listTok, behind)) :
    sfvarParseIplist p table parse (c :: rest) negation =
      match sfvarParseIplist p table parse listTok (negation ^^ negations (c :: rest)) with
      | (.success, parse) => sfvarParseIplist p table parse behind negation
      | failed => failed := by
  rw [sfvarParseIplist, if_neg (by simpa using hsep)]
  split <;> rename_i h <;> rw [hlist] at h
  case h_1 =>
    obtain rfl := tail_eq_of_cons_eq h
    split <;> rename_i hend' <;> rw [hend] at hend'
    · exact absurd hend' nofun
    · obtain ⟨rfl, rfl⟩ := Prod.mk.inj (Option.some.inj hend')
      rfl
  case h_5 hno _ _ => exact (hno (head_eq_of_cons_eq h).symm).elim
  all_goals exact absurd h (by simp)

theorem sfvarParseIplist_element (hsep : ¬(isspace c = true ∨ c = ','))
    (hd : behindNegations (c :: rest) = d :: more) (ho : d ≠ '[') (hv : d ≠ '$') (hc : d ≠ ']') :
    sfvarParseIplist p table parse (c :: rest) negation =
      match addElement p parse (token (d :: more)) (negation ^^ negations (c :: rest)) with
      | (.success, parse) => sfvarParseIplist p table parse (behindToken (d :: more)) negation
      | failed => failed := by
  rw [sfvarParseIplist, if_neg (by simpa using hsep)]
  split <;> rename_i h <;> rw [hd] at h
  case h_1 => exact (ho (head_eq_of_cons_eq h)).elim
  case h_2 => exact (hv (head_eq_of_cons_eq h)).elim
  case h_3 => exact (hc (head_eq_of_cons_eq h)).elim
  case h_4 => exact absurd h (by simp)
  case h_5 =>
    obtain ⟨rfl, rfl⟩ := List.cons.inj h
    rfl
end Steps
end Snort.Sfip
