import LoNetfw.Net.UriRun

namespace LoNetfw.Net

open Basis UriParser UriGrammar

/-!
# Regions of the table

Which states the machine is in within a component of a URI, and what it runs where the component
ends.  All facts about the rows that the components need are checked here.

* `EndsQuery`, `EndsPath`, `StartsPath`, `EndsHost` — states in front of a component, with the
  actions that run before it, whatever of the following components comes next;
* `hostStates`, `ipStates`, `eitherStates`, `userinfoStates` — the regions of the authority;
* `LoopStates`, `PortStates`, `HostStates`, `UserinfoStates`, `SchemeStates` — what is checked of
  their rows.
-/

namespace UriParser

/-! ### States between two components -/

/-- A state before the fragment: `as` run at the `#` and at the end of the input. -/
def EndsQuery (q : ℕ) (as : List Action) : Prop :=
  jump q 35 = ⟨as, 453⟩ ∧ eofActions q = as ∧ firstFinal ≤ q

instance (q : ℕ) (as : List Action) : Decidable (EndsQuery q as) :=
  inferInstanceAs (Decidable (_ ∧ _))

/-- A state before the query: `as` run at the `?`, at the `#` and at the end of the input. -/
def EndsPath (q : ℕ) (as : List Action) : Prop := jump q 63 = ⟨as, 456⟩ ∧ EndsQuery q as

instance (q : ℕ) (as : List Action) : Decidable (EndsPath q as) :=
  inferInstanceAs (Decidable (_ ∧ _))

/-- A state before the path: `as` run before all that may follow, and `save_path` if the path is
    empty. -/
def StartsPath (q : ℕ) (as : List Action) : Prop :=
  jump q 47 = ⟨as, 513⟩ ∧ EndsPath q (as ++ [.savePath])

instance (q : ℕ) (as : List Action) : Decidable (StartsPath q as) :=
  inferInstanceAs (Decidable (_ ∧ _))

/-- A state in which a host may end: `as` run before a path, `bs` before a port. -/
def EndsHost (q : ℕ) (as bs : List Action) : Prop :=
  StartsPath q as ∧ (jump q 58 = ⟨bs, 514⟩ ∨ jump q 58 = ⟨bs, 521⟩)

instance (q : ℕ) (as bs : List Action) : Decidable (EndsHost q as bs) :=
  inferInstanceAs (Decidable (_ ∧ _))

/-! ### Regions of the authority -/

/-- The states inside of a registered name or a dotted address, and behind an IP literal. -/
def hostStates : ℕ :=
  CharClass.range 229 242 ||| CharClass.range 245 254 ||| CharClass.range 258 259 |||
    CharClass.single 512 ||| CharClass.range 516 520 ||| CharClass.range 523 541 |||
    CharClass.range 543 560

/-- The states inside of `[`…`]`. -/
def ipStates : ℕ := CharClass.range 260 450

/-- The bytes of a registered name or a dotted address. -/
def hostBytes : CharClass := nameChar ||| percent ||| byteTwo

/-- All bytes but the closing bracket. -/
def ipBytes : CharClass := .diff (.range 0 255) rbracket

/-- The states that may still be in a registered name or in a userinfo. -/
def eitherStates : ℕ :=
  CharClass.range 253 254 ||| CharClass.single 520 ||| CharClass.range 543 560

/-- The states in a userinfo behind its first colon. -/
def userinfoStates : ℕ := CharClass.range 255 257 ||| CharClass.single 542

/-! ### Query, fragment and path -/

/-- The loops of the query, the fragment and the path, and the states before them. -/
structure LoopStates : Prop where
  fragment : EntersLoop 453 454 1 queryChar ∧ IsLoop 454 1 2 queryChar
  fragmentEof : eofActions 453 = [.mark, .saveFragment] ∧ eofActions 454 = [.saveFragment]
  query : EntersLoop 456 457 7 queryChar ∧ IsLoop 457 7 8 queryChar
  queryEnds : EndsQuery 456 [.mark, .saveQuery] ∧ EndsQuery 457 [.saveQuery]
  path : IsLoop 513 243 244 pathChar
  pathEnds : EndsPath 513 [.savePath]

/-- The states that repeat a character, read off the table. -/
theorem loop_states : LoopStates := by constructor <;> decide +kernel

/-! ### Port -/

/-- The states before and in a port, behind a host and behind the first colon of either. -/
structure PortStates : Prop where
  entered : jumpOn (row 514) digit = some ⟨[.mark], 515⟩ ∧
    jumpOn (row 521) digit = some ⟨[.mark], 542⟩
  loop : jumpOn (row 515) digit = some (st 515) ∧ jumpOn (row 542) digit = some (st 542)
  ends : StartsPath 515 [.savePort, .mark] ∧ StartsPath 542 [.savePort, .mark]

/-- The states of a port. -/
theorem port_states : PortStates := by constructor <;> decide +kernel

/-! ### Host -/

/-- A host starts in one of two states, with a userinfo before it or without.  Nothing runs in it but
    at its ends. -/
structure HostStates : Prop where
  names : quiet hostStates hostBytes = true
  nameEntered : ∀ q ∈ [511, 522], enters q hostStates hostBytes = true
  nameEnds : regionAll hostStates (fun q e => Nat.beq (e.1 &&& colon) 0 ||
    decide (EndsHost q [.saveHost, .mark] [.saveHost])) = true
  literals : quiet ipStates ipBytes = true
  literalEntered : ∀ q ∈ [511, 522], enters q ipStates lbracket = true
  literalLeft : regionAll ipStates (fun _ e => Nat.beq (e.1 &&& rbracket) 0 ||
    decide (e.2 = st 512)) = true
  literalEnds : EndsHost 512 [.saveHost, .mark] [.saveHost]
  emptyEnds : ∀ q ∈ [511, 522], EndsHost q [.mark, .saveHost] [.mark, .saveHost]

/-- The states of a host. -/
theorem host_states : HostStates := by constructor <;> decide +kernel

/-! ### Userinfo -/

/-- In a userinfo the host is stored at the first colon, and a digit behind it sets the mark. -/
structure UserinfoStates : Prop where
  either : quiet eitherStates (nameChar ||| percent) = true
  eitherEntered : enters 511 eitherStates (nameChar ||| percent) = true
  eitherColon : regionAll eitherStates (fun _ e => Nat.beq (e.1 &&& colon) 0 ||
    decide (e.2 = ⟨[.saveHost], 521⟩)) = true
  eitherAt : regionAll eitherStates (fun _ e => Nat.beq (e.1 &&& atSign) 0 ||
    decide (e.2 = ⟨[.saveUserinfo], 522⟩)) = true
  emptyColon : jump 511 58 = ⟨[.mark, .saveHost], 521⟩
  emptyAt : jump 511 64 = ⟨[.mark, .saveUserinfo], 522⟩
  afterColon : jumpOn (row 521) userinfoNoDigit = some (st 255) ∧
    jumpOn (row 521) percent = some (st 256)
  afterColonAt : jump 521 64 = ⟨[.saveUserinfo], 522⟩
  userinfo : quiet userinfoStates (userinfoChar ||| percent) = true
  userinfoAt : regionAll userinfoStates (fun _ e => Nat.beq (e.1 &&& atSign) 0 ||
    decide (e.2 = ⟨[.saveUserinfo], 522⟩)) = true
  members : Nat.testBit userinfoStates 255 = true ∧ Nat.testBit userinfoStates 256 = true ∧
    Nat.testBit userinfoStates 542 = true

/-- The states of user information. -/
theorem userinfo_states : UserinfoStates := by constructor <;> decide +kernel

/-! ### Scheme -/

/-- From the beginning to the authority. -/
structure SchemeStates : Prop where
  entered : jumpOn (row start) alpha = some ⟨[.mark], 508⟩
  loop : jumpOn (row 508) schemeChar = some (st 508)
  colon : jump 508 58 = ⟨[.saveScheme], 509⟩
  slashes : jump 509 47 = st 510 ∧ jump 510 47 = st 511

/-- The states of a scheme. -/
theorem scheme_states : SchemeStates := by constructor <;> decide +kernel

end UriParser

end LoNetfw.Net
