import Mathlib

/-!
# Normalization of URI paths

`UriNormalizer::norm_path_clean` of `http_uri_norm.cc`. It rewrites the path in
place: the output is built at the front of the buffer while the input behind it is
read. An access to an index outside of the buffer fails.
-/

namespace Snort.Http

abbrev Octet := BitVec 8

def slash : Octet := 0x2F

def dot : Octet := 0x2E

inductive UriInfraction where
  | multislash
  | slashDot
  | slashDotDot
  | rootTrav
deriving DecidableEq

inductive UriEvent where
  | multiSlash
  | selfDirTrav
  | dirTrav
  | webrootDir
deriving DecidableEq

/-- The variables of `norm_path_clean`. -/
structure PathState where
  buf : List Octet
  length : ℕ
  infractions : List UriInfraction
  events : List UriEvent
deriving DecidableEq

namespace PathState
variable (st : PathState)

/-- `buf[length++] = c` -/
def put (c : Octet) : Option PathState :=
  if st.length < st.buf.length then
    some { st with buf := st.buf.set st.length c, length := st.length + 1 }
  else none

def note (infraction : UriInfraction) (event : UriEvent) : PathState :=
  { st with
    infractions := st.infractions ++ [infraction]
    events := st.events ++ [event] }
end PathState

/-- The octets before the index `n` are compared with the pattern, backwards, up to the first
difference. -/
def looksBack (buf : List Octet) : ℕ → List Octet → Option Bool
  | _, [] => some true
  | 0, _ :: _ => none
  | n + 1, c :: cs => do
    let b ← buf[n]?
    if b = c then looksBack buf n cs else some false

/-- `for (...; buf[length-1] != '/'; length--);` -/
def backUp (buf : List Octet) : ℕ → Option ℕ
  | 0 => none
  | n + 1 => do
    let b ← buf[n]?
    if b = slash then some (n + 1) else backUp buf n

/-- A comparison behind a test of the length. -/
def looksBackFrom (atLeast : ℕ) (st : PathState) (n : ℕ) (pattern : List Octet) : Option Bool :=
  if atLeast ≤ st.length then looksBack st.buf n pattern else some false

/-- There is no directory that `..` can remove. -/
def atRoot (st : PathState) : Option Bool :=
  if st.length = 3 then some true else looksBackFrom 6 st (st.length - 3) [dot, dot, slash]

/-- A slash that ends a `/../` pattern. -/
def dotDot (st : PathState) : Option PathState := do
  let st := st.note .slashDotDot .dirTrav
  if ← atRoot st then (st.note .rootTrav .webrootDir).put slash
  else
    let length ← backUp st.buf (st.length - 3)
    some { st with length }

/-- A slash, or the pretended one behind the buffer, that does not follow another slash. -/
def endSegment (inLength k : ℕ) (st : PathState) : Option PathState := do
  if ← looksBackFrom 2 st st.length [dot, slash] then
    some { st.note .slashDot .selfDirTrav with length := st.length - 1 }
  else if ← looksBackFrom 3 st st.length [dot, dot, slash] then dotDot st
  else if k < inLength then st.put slash
  else some st

/-- A pass through the loop of `norm_path_clean` -/
def cleanStep (inLength : ℕ) (st : PathState) (k : ℕ) : Option PathState := do
  if k = 0 then st.put (← st.buf[0]?)
  else if k < inLength then
    let b ← st.buf[k]?
    if b ≠ slash then st.put b
    else if ← looksBackFrom 1 st st.length [slash] then some (st.note .multislash .multiSlash)
    else endSegment inLength k st
  else endSegment inLength k st

/-- `UriNormalizer::norm_path_clean`, on a buffer that has one octet more than the input -/
def normPathClean (buf : List Octet) (inLength : ℕ) : Option PathState :=
  (List.range (inLength + 1)).foldlM (cleanStep inLength) ⟨buf, 0, [], []⟩
end Snort.Http
