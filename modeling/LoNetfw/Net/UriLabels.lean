import LoNetfw.Net.UriFuture

namespace LoNetfw.Net

open Basis UriParser
open Item (hostStart mkStart mkGroup mkDone)

/-!
# The states of the machine and the places they stand for

Whether an action meets a mark depends only on the state and on whether `mark` is set.  So for the
question which inputs end in a fault the machine is a table over configurations, pairs of the two
(`configs`), with the fault as the one place to get to.

Every configuration is labelled with the items that may follow from it (`label`), and the rows of
the generated table are checked to make the moves of their labels (`configs_check`).  The labels
are listed in the order of the states, a run of states at a time.
-/

namespace UriParser

/-! ### Marks -/

/-- What an action does to `mark`, set or not; `none` is a fault. -/
def markAction : Bool → Action → Option Bool
  | _, .mark => some true
  | m, .saveHost => some m
  | _, .saveUserinfo => some false
  | m, _ => if m then some false else none

/-- What the actions of a jump do to `mark`. -/
def markActions : Bool → List Action → Option Bool
  | m, [] => some m
  | m, a :: as => (markAction m a).bind fun m' => markActions m' as

/-! ### Configurations -/

/-- A state with `mark` set or not; `none` after a fault. -/
abbrev Config := Option (ℕ × Bool)

/-- The entries of a row, from a state with `mark` set or not. -/
def configEntries (m : Bool) (r : Row) : List (CharClass × Config) :=
  r.map fun e => (e.1, (markActions m e.2.actions).map fun m' => (e.2.target, m'))

/-- The rows of the configurations; after a fault any input may follow. -/
def configRow : Config → List (CharClass × Config)
  | none => [(.range 0 255, none)]
  | some (q, m) => configEntries m (row q)

/-- Whether the end of the input is a fault, or comes after one. -/
def configOut : Config → Bool
  | none => true
  | some (q, m) => (markActions m (eofActions q)).isNone

/-- The machine as a table that accepts the inputs with a fault. -/
def configs : Table Config := ⟨configRow, configOut⟩

/-- A set of states, one bit a state. -/
def stateSet (qs : List ℕ) : ℕ := qs.foldr (fun q s => 2 ^ q ||| s) 0

/-- The states only reached with `mark` not set. -/
def unmarked : ℕ := stateSet [451, 458, 459, 469, 509, 510, 511, 522]

/-- The states reached both with and without a mark: percent-encodings, paths and queries. -/
def mixed : ℕ := stateSet [3, 4, 5, 6, 243, 244, 452, 453, 455, 456, 513]

/-- The states reached with `mark` set, or not set. -/
def marks (m : Bool) : ℕ := bif m then CharClass.range 1 560 ^^^ unmarked else unmarked ||| mixed

/-- The configurations that are reached. -/
def reached : Config → Bool
  | none => true
  | some (q, m) => Nat.blt 0 q && Nat.blt q 561 && Nat.testBit (marks m) q

/-! ### Runs of states -/

/-- A dotted address octet by octet, from inside of its first one on. -/
def dottedRun (p : Place) (k : ℕ) : Item :=
  let n := 3 - (k + 1) / 4
  match (k + 1) % 4 with
  | 0 => .octets p n .start
  | 1 => .octets p n .ctrl1
  | 2 => .octets p n .ctrl2
  | _ => mkDone p n

/-- The other places of an octet. -/
def octetRun (p : Place) (n k : ℕ) : Item :=
  .octets p n (match k with
    | 0 => .upto2
    | 1 => .upto1
    | 2 => .two
    | _ => .five)

/-- A dotted address in a host, as long as a byte `2` may come. -/
def hostRun (k : ℕ) : Item :=
  match k with
  | 0 => .octets .unseen 3 .done
  | 1 => .octets .unseen 2 .start
  | 2 => .octets .unseen 2 .done
  | 3 => .octets .unseen 1 .start
  | 4 => .octets .unseen 1 .done
  | 5 => .octets .unseen 0 .start
  | k => octetRun .unseen ((k - 6) / 4 + 1) ((k - 6) % 4)

/-- A group digit by digit, and the place after its colon. -/
def groupRun (m : Mode) (n k : ℕ) : Item :=
  if k = 4 then mkStart m (n - 1) else mkGroup m n (3 - k)

/-- Groups one after the other. -/
def groupsRun (m : Mode) (n k : ℕ) : Item := groupRun m (n - k / 5) (k % 5)

/-- A group that may be an octet `0` instead. -/
def zeroRun (m : Mode) (n k : ℕ) : List Item :=
  groupRun m n k :: if k = 0 then [.octets .inside 3 .done] else []

/-- A group that may be another octet instead. -/
def mixedRun (m : Mode) (n k : ℕ) : List Item :=
  match k with
  | 0 => [.group m n 3, .octets .inside 3 .upto2]
  | 1 => [.group m n 2, .octets .inside 3 .upto1]
  | 2 => [.group m n 1, .octets .inside 3 .done]
  | 3 => [.group m n 3, .octets .inside 3 .two]
  | 4 => [.group m n 2, .octets .inside 3 .done]
  | 5 => [.group m n 2, .octets .inside 3 .five]
  | 6 => [.group m n 3, .octets .inside 3 .upto1]
  | _ => [.group m n 3]

/-! ### The labels -/

/-- The `k`-th label of a list of runs, each with its length. -/
def runLabel : List (ℕ × (ℕ → List Item)) → ℕ → List Item
  | [], _ => []
  | r :: rs, k => bif Nat.blt k r.1 then r.2 k else runLabel rs (k - r.1)

/-- States `229`, …, `259`: addresses and percent-encodings of an authority. -/
def authorityRuns : List (ℕ × (ℕ → List Item)) :=
  [ (14, fun k => [dottedRun .seen k]),
    (2, fun k => [.path (2 - k)]),
    (8, fun k => [octetRun .seen (1 + k / 4) (k % 4)]),
    (2, fun k => [.reg (2 - k), .ui (2 - k)]),
    (1, fun _ => [.ui 0]),
    (2, fun k => [.ui (2 - k)]),
    (2, fun k => [.reg (2 - k)]) ]

/-- States `260`, …, `450`: the inside of `[`…`]`. -/
def ipLiteralRuns : List (ℕ × (ℕ → List Item)) :=
  [ (1, fun _ => [.first]),
    (30, fun k => [groupsRun .pre 8 k]),
    (15, fun k => [dottedRun .inside k]),
    (12, fun k => [octetRun .inside (k / 4) (k % 4)]),
    (5, zeroRun .pre 2),
    (3, fun k => [.group .exact 1 (3 - k)]),
    (8, fun k => if k = 7 then [.start .exact 1] else mixedRun .pre 2 k),
    (1, fun _ => [.group .pre 2 3]),
    (1, fun _ => [.start .exact 2]),
    (4, zeroRun .exact 2),
    (8, mixedRun .exact 2),
    (20, fun k => if k % 5 = 0 then [.start .exact (3 + k / 5)]
      else [groupRun .exact (3 + k / 5) (k % 5 - 1)]),
    (1, fun _ => [.colon1]),
    (1, fun _ => [.tail]),
    (29, fun k => zeroRun .upTo (7 - k / 5) (k % 5)),
    (48, fun k => mixedRun .upTo (2 + k / 8) (k % 8)),
    (1, fun _ => [.version0]),
    (1, fun _ => [.version]),
    (1, fun _ => [.future0]),
    (1, fun _ => [.future]) ]

/-- States `508`, …, `560`: the final states of a URI with a scheme. -/
def uriRuns : List (ℕ × (ℕ → List Item)) :=
  [ (1, fun _ => [.scheme]),
    (1, fun _ => [.slash2]),
    (1, fun _ => [.slash1]),
    (1, fun _ => .ui 0 :: hostStart),
    (1, fun _ => [.hostEnd]),
    (1, fun _ => [.path 0]),
    (1, fun _ => [.path0]),
    (1, fun _ => []),
    (4, fun k => [octetRun .seen 0 k]),
    (1, fun _ => [.reg 0, .ui 0]),
    (1, fun _ => [.path0, .ui 0]),
    (1, fun _ => hostStart),
    (1, fun _ => [.reg 0]),
    (18, fun k => [.reg 0, hostRun k]),
    (1, fun _ => [.ui 0]),
    (18, fun k => [.reg 0, .ui 0, hostRun k]) ]

/-- The label of a state; nothing follows from a relative reference. -/
def stateLabel (q : ℕ) : List Item :=
  bif Nat.blt q 229 then []
  else bif Nat.blt q 260 then runLabel authorityRuns (q - 229)
  else bif Nat.blt q 451 then runLabel ipLiteralRuns (q - 260)
  else bif Nat.beq q start then [.scheme0]
  else bif Nat.blt q 508 then []
  else runLabel uriRuns (q - 508)

/-- The states of a path. -/
def pathStates : ℕ := stateSet [243, 244, 513]

/-- The label of a configuration; a path that has a mark ends without a fault. -/
def label : Config → List Item
  | none => [.any]
  | some (q, m) => bif m && Nat.testBit pathStates q then [] else stateLabel q

/-! ### The check -/

/-- The check of a row, with `mark` set or not, where that is reached. -/
def checkRow (m : Bool) (r : ℕ × Row) : Bool :=
  bif reached (some (r.1, m)) then
    ((configEntries m r.2).all fun e => reached e.2) &&
      items.checks ((configEntries m r.2).map fun e => (e.1, label e.2))
        (configOut (some (r.1, m))) (label (some (r.1, m)))
  else true

/-- All rows of the table keep to the labels. -/
theorem rows_check : rows.all (fun r => checkRow true r && checkRow false r) = true := by
  decide +kernel

/-- The table has a row for every state. -/
theorem rows_states : rows.map (·.1) = List.range' 1 560 := by decide +kernel

/-- The labels of the start and of the states at the beginning of an authority; the error state
    has no row. -/
theorem start_labels :
    (reached (some (start, false)) = true ∧ label (some (start, false)) = [.scheme0]) ∧
    (reached (some (511, false)) = true ∧ label (some (511, false)) = .ui 0 :: hostStart) ∧
    (reached (some (522, false)) = true ∧ label (some (522, false)) = hostStart) ∧
    row error = [] := by decide +kernel

/-- Every state of the machine has its row. -/
theorem row_mem {q : ℕ} (h0 : 0 < q) (h : q < 561) : (q, row q) ∈ rows := by
  have hq : q ∈ rows.map (·.1) := by
    rw [rows_states, List.mem_range'_1]
    omega
  obtain ⟨r, hr, rfl⟩ := List.mem_map.mp hq
  have hsome : (rows.find? fun r' => Nat.beq r'.1 r.1).isSome = true :=
    List.find?_isSome.mpr ⟨r, hr, Nat.beq_refl r.1⟩
  obtain ⟨r', hr'⟩ := Option.isSome_iff_exists.mp hsome
  have hkey : r'.1 = r.1 :=
    Nat.eq_of_beq_eq_true (List.find?_some (p := fun x : ℕ × Row => Nat.beq x.1 r.1) hr')
  rw [row, hr', ← hkey]
  exact List.mem_of_find?_eq_some hr'

/-- The row of every state that is reached passes the check. -/
theorem checkRow_of_reached {q : ℕ} {m : Bool} (h : reached (some (q, m)) = true) :
    checkRow m (q, row q) = true := by
  have hq := h
  rw [reached, Bool.and_eq_true, Bool.and_eq_true] at hq
  have hrow := List.all_eq_true.mp rows_check _
    (row_mem (Nat.blt_eq.mp hq.1.1) (Nat.blt_eq.mp hq.1.2))
  rw [Bool.and_eq_true] at hrow
  cases m with
  | true => exact hrow.1
  | false => exact hrow.2

/-- The reached configurations are closed, and every row makes the moves of its label. -/
theorem configs_check {c : Config} (h : reached c = true) :
    (∀ e ∈ configs.row c, reached e.2 = true) ∧
      items.checks (configs.labelled label c) (configs.out c) (label c) = true := by
  cases c with
  | none => decide
  | some c =>
    have hcheck := checkRow_of_reached h
    rw [checkRow, h, cond_true, Bool.and_eq_true, List.all_eq_true] at hcheck
    exact hcheck

/-- **The inputs with a fault.**  From a configuration that is reached, an input ends in a fault
    exactly when it is a word of one of the items of the label. -/
theorem configs_accepts {c : Config} (h : reached c = true) (w : List UInt8) :
    configs.accepts c w = true ↔ ∃ i ∈ label c, w ∈ Item.lang i :=
  Table.accepts_iff (fun _ hq => (configs_check hq).1) (fun _ hq => (configs_check hq).2)
    Item.solves w c h

end UriParser

end LoNetfw.Net
