import LoNetfw.Net.UriTable

namespace LoNetfw.Net

open Basis

/-!
# `Uri` — the parser of `uri.rl` as the code runs it

`Uri::create` runs the machine of `UriTable` over the input with one extra variable, the pointer
`mark`: an action remembers the current character in it, a later one stores the characters between
the two in a field of the `Uri`.

A pointer into the input is modelled by what of the input is left from it on: the current
character `p` is the rest of the input, `mark` an earlier rest, and `std::string(mark, p - mark)`
is what `mark` has before `p`.  With `mark == NULL`, or with `mark` behind `p`, that expression is
not defined: the action ends in a `Fault`.
-/

/-- The fields of a `Uri`; a port of `0` is a port that is not set. -/
structure Uri where
  scheme : List UInt8 := []
  userinfo : List UInt8 := []
  host : List UInt8 := []
  port : ℕ := 0
  path : List UInt8 := []
  query : List UInt8 := []
  fragment : List UInt8 := []
  deriving DecidableEq, Repr

namespace Uri

/-- `getPath`: an empty path reads as `/`. -/
def getPath (u : Uri) : List UInt8 := if u.path.isEmpty then [47] else u.path

/-- `setPort` takes an `in_port_t`: of an `int` argument the low 16 bits. -/
def setPort (u : Uri) (port : ℤ) : Uri := { u with port := (port % 2 ^ 16).toNat }

end Uri

/-! ### `atoi` -/

/-- The value of the leading decimal digits, after the value `acc` of those read before. -/
def digitsValue : ℕ → List UInt8 → ℕ
  | acc, [] => acc
  | acc, b :: s =>
    if UriParser.digit.has b then digitsValue (10 * acc + (b.toNat - 48)) s else acc

/-- `strtol` in base 10: blanks, a sign and digits; a value out of range is clipped. -/
def strtol (s : List UInt8) : ℤ :=
  match s.dropWhile fun b => b == 32 || (9 ≤ b && b ≤ 13) with
  | 45 :: t => max (-(digitsValue 0 t : ℤ)) (-2 ^ 63)
  | 43 :: t => min (digitsValue 0 t) (2 ^ 63 - 1)
  | t => min (digitsValue 0 t) (2 ^ 63 - 1)

/-- `atoi` is the `int` that `strtol` converts to. -/
def atoi (s : List UInt8) : ℤ := Int.bmod (strtol s) (2 ^ 32)

namespace UriParser

/-! ### Actions -/

/-- What a `std::string(mark, p - mark)` that is not defined has met: no mark, or a mark behind
    the current character. -/
inductive Fault where
  | nullMark
  | markBehind
  deriving DecidableEq, Repr

/-- The variables of `Uri::create`. -/
structure Exec where
  cs : ℕ
  mark : Option (List UInt8)
  uri : Uri
  deriving DecidableEq, Repr

/-- `std::string(mark, p - mark)`. -/
def text (mark : Option (List UInt8)) (p : List UInt8) : Except Fault (List UInt8) :=
  match mark with
  | none => .error .nullMark
  | some m =>
    if p.length ≤ m.length then .ok (m.take (m.length - p.length)) else .error .markBehind

/-- One action, at the current character `p`. -/
def runAction (p : List UInt8) (x : Exec) : Action → Except Fault Exec
  | .mark => .ok { x with mark := some p }
  | .saveScheme => do
    let s ← text x.mark p
    return { x with uri := { x.uri with scheme := s }, mark := none }
  | .savePort =>
    if x.mark = some p then .ok { x with mark := none }
    else match x.mark with
      | none => .error .nullMark -- `atoi(NULL)`
      | some m => .ok { x with uri := x.uri.setPort (atoi m), mark := none }
  | .saveUserinfo =>
    if x.mark = none then .ok x
    else do
      let s ← text x.mark p
      return { x with uri := { x.uri with userinfo := s }, mark := none }
  | .saveHost =>
    if x.mark = none then .ok x
    else do
      let s ← text x.mark p
      return { x with uri := { x.uri with host := s } } -- the mark stays
  | .savePath => do
    let s ← text x.mark p
    return { x with uri := { x.uri with path := s }, mark := none }
  | .saveQuery => do
    let s ← text x.mark p
    return { x with uri := { x.uri with query := s }, mark := none }
  | .saveFragment => do
    let s ← text x.mark p
    return { x with uri := { x.uri with fragment := s }, mark := none }

/-- The actions of a jump, one after the other. -/
def runActions (p : List UInt8) : Exec → List Action → Except Fault Exec
  | x, [] => .ok x
  | x, a :: as => do runActions p (← runAction p x a) as

/-! ### The machine -/

/-- The jump a state takes on a byte; a byte no entry has leads to the error state. -/
def jump (cs : ℕ) (b : UInt8) : Jump :=
  match (row cs).find? fun e => e.1.has b with
  | some e => e.2
  | none => st error

/-- `write exec`: from the current character to the end of the input, where the actions of the
    state run, or to the error state, where nothing runs any more. -/
def exec : Exec → List UInt8 → Except Fault Exec
  | x, [] => runActions [] x (eofActions x.cs)
  | x, b :: rest => do
    let j := jump x.cs b
    let x' ← runActions (b :: rest) x j.actions
    if j.target = error then return { x' with cs := error }
    else exec { x' with cs := j.target } rest

end UriParser

open UriParser in
/-- `Uri::create`: the `Uri` that was filled in, or `nullptr` (`none`) when the machine does not
    end in a final state. -/
def Uri.create (uristr : List UInt8) : Except Fault (Option Uri) := do
  let x ← exec { cs := start, mark := none, uri := {} } uristr
  if x.cs = error then return none
  else if firstFinal ≤ x.cs then return some x.uri
  else return none

end LoNetfw.Net
