import LoNetfw.Basis.OrderedSet
import LoNetfw.Util.Yaml
import Mathlib.Data.List.Lex
import Mathlib.Data.Nat.Digits.Defs
import Mathlib.Data.List.TakeWhile
import Mathlib.Data.Prod.Lex
import Mathlib.Tactic.IntervalCases

namespace LoNetfw.Util

open Basis

/-!
# `LexicalCast` — values to text and back

The templates of `util/lexicalcast.h` on `int`, sequences, sets and maps.  A sequence or set puts
the texts of its elements into the tree as scalars; a map loads them first, so that its values stay
trees.  What comes back of a container inside a sequence is therefore an empty one.

* `intText`, `lexicalCastInt` — `lexical_cast` between `int` and text, through a stream;
* `LexicalCast`, `sequenceCast`, `setCast`, `mapCast` — the templates, on any element type;
* `Ty`, `Ty.cast` — the types built from `int` by nesting, and their casts;
* `Behaves` — the tree that a cast builds and what it makes of the text of that tree, by itself and
  as a scalar; one lemma for each template, `Ty.behaves` for every type;
* `Ty.comesBack_iff` — a value comes back exactly when it keeps no non-empty container directly in
  a sequence or set.

The YAML library is a parameter: loading, writing a node or an element of a map that is taken by its
index, and the conversions of a node.
-/

/-! ### `int` -/

/-- `int`. -/
abbrev CInt := {i : ℤ // -2 ^ 31 ≤ i ∧ i < 2 ^ 31}

def digitText (d : ℕ) : UInt8 := (48 + d).toUInt8

/-- The decimal digits of a number. -/
def natText (n : ℕ) : Text := if n = 0 then [48] else (Nat.digits 10 n).reverse.map digitText

/-- `ss << i`. -/
def intText (i : ℤ) : Text := if i < 0 then 45 :: natText i.natAbs else natText i.natAbs

def isDigit (ch : UInt8) : Bool := decide (48 ≤ ch ∧ ch ≤ 57)

def isSpace (ch : UInt8) : Bool := decide (9 ≤ ch ∧ ch ≤ 13) || ch == 32

def digitsValue (ds : Text) : ℕ := ds.foldl (fun n ch => 10 * n + (ch.toNat - 48)) 0

def toCInt (i : ℤ) : Option CInt := if h : -2 ^ 31 ≤ i ∧ i < 2 ^ 31 then some ⟨i, h⟩ else none

/-- `ss >> res` of the digits at the front of `s`, and `(ss >> std::ws).eof()` after it. -/
def parseDigits (negative : Bool) (s : Text) : Option CInt :=
  let ds := s.takeWhile isDigit
  if ds = [] then none
  else if (s.dropWhile isDigit).all isSpace then
    toCInt (if negative then -(digitsValue ds : ℤ) else digitsValue ds)
  else none

/-- `lexical_cast<int>(source)`; `none` is the exception. -/
def lexicalCastInt (source : Text) : Option CInt :=
  match source.dropWhile isSpace with
  | 45 :: s => parseDigits true s
  | 43 :: s => parseDigits false s
  | s => parseDigits false s

/-- A digit is printed as a digit. -/
theorem isDigit_digitText {d : ℕ} (h : d < 10) : isDigit (digitText d) = true := by
  interval_cases d <;> decide

/-- A digit is read as itself. -/
theorem toNat_digitText {d : ℕ} (h : d < 10) : (digitText d).toNat - 48 = d := by
  interval_cases d <;> rfl

/-- A number is printed in digits alone. -/
theorem isDigit_natText {n : ℕ} {ch : UInt8} (h : ch ∈ natText n) : isDigit ch = true := by
  rw [natText] at h
  split at h
  · rw [List.mem_singleton.mp h]
    decide
  · obtain ⟨d, hd, rfl⟩ := List.mem_map.mp h
    exact isDigit_digitText (Nat.digits_lt_base (by decide) (List.mem_reverse.mp hd))

/-- A number has a digit at least. -/
theorem natText_ne_nil (n : ℕ) : natText n ≠ [] := by
  rw [natText]
  split
  · exact List.cons_ne_nil _ _
  · next hn =>
    rw [ne_eq, List.map_eq_nil_iff, List.reverse_eq_nil_iff]
    exact Nat.digits_ne_nil_iff_ne_zero.mpr hn

/-- Reading the digits gives the number back. -/
theorem digitsValue_natText (n : ℕ) : digitsValue (natText n) = n := by
  rw [natText]
  split
  · next hn =>
    rw [hn]
    rfl
  · have hfold : ∀ l : List ℕ, (∀ d ∈ l, d < 10) →
        digitsValue (l.reverse.map digitText) = Nat.ofDigits 10 l := by
      intro l hl
      induction l with
      | nil => rfl
      | cons d ds ih =>
        -- the first digit of the list is the last one of the text
        have hd : (digitText d).toNat - 48 = d := toNat_digitText (hl d List.mem_cons_self)
        have ih' := ih fun e he => hl e (List.mem_cons_of_mem d he)
        rw [digitsValue] at ih' ⊢
        rw [List.reverse_cons, List.map_append, List.foldl_append, ih', Nat.ofDigits_cons]
        show 10 * _ + ((digitText d).toNat - 48) = _
        rw [hd, Nat.add_comm]
    rw [hfold _ fun d hd => Nat.digits_lt_base (by decide) hd, Nat.ofDigits_digits]

/-- `operator>>` reads a number back, up to the width of `int`. -/
theorem parseDigits_natText (negative : Bool) (n : ℕ) :
    parseDigits negative (natText n) = toCInt (if negative then -(n : ℤ) else n) := by
  have htake : (natText n).takeWhile isDigit = natText n :=
    List.takeWhile_eq_self_iff.mpr fun _ h => isDigit_natText h
  have hdrop : (natText n).dropWhile isDigit = [] :=
    List.dropWhile_eq_nil_iff.mpr fun _ h => isDigit_natText h
  rw [parseDigits, htake, hdrop, if_neg (natText_ne_nil n), digitsValue_natText]
  rfl

/-- A digit is neither skipped as a blank nor taken for a sign. -/
theorem not_space_of_digit {ch : UInt8} (h : isDigit ch = true) :
    isSpace ch = false ∧ ch ≠ 45 ∧ ch ≠ 43 := by
  rw [isDigit, decide_eq_true_eq] at h
  refine ⟨?_, ?_, ?_⟩
  · rw [isSpace, Bool.or_eq_false_iff, decide_eq_false_iff_not, beq_eq_false_iff_ne]
    constructor
    · rintro ⟨-, hle⟩
      exact absurd (UInt8.le_trans h.1 hle) (by decide)
    · rintro rfl
      exact absurd h.1 (by decide)
  · rintro rfl
    exact absurd h.1 (by decide)
  · rintro rfl
    exact absurd h.1 (by decide)

/-- **`int` round trip.** -/
theorem lexicalCastInt_intText (i : CInt) : lexicalCastInt (intText i.1) = some i := by
  have hrange : toCInt i.1 = some i := dif_pos i.2
  rw [lexicalCastInt, intText]
  by_cases hneg : i.1 < 0
  · rw [if_pos hneg]
    show parseDigits true (natText i.1.natAbs) = some i
    have habs : -(i.1.natAbs : ℤ) = i.1 := by omega
    rw [parseDigits_natText, if_pos rfl, habs, hrange]
  · rw [if_neg hneg]
    have habs : (i.1.natAbs : ℤ) = i.1 := by omega
    have hparse := parseDigits_natText false i.1.natAbs
    rw [if_neg Bool.false_ne_true, habs, hrange] at hparse
    -- neither a blank nor a sign at the front
    cases htext : natText i.1.natAbs with
    | nil => exact absurd htext (natText_ne_nil _)
    | cons ch s =>
      obtain ⟨hspace, hminus, hplus⟩ :=
        not_space_of_digit (isDigit_natText (htext ▸ List.mem_cons_self : ch ∈ natText i.1.natAbs))
      rw [htext] at hparse
      rw [List.dropWhile_cons_of_neg (by rw [hspace]; exact Bool.false_ne_true)]
      split
      · next heq => exact absurd (List.cons.inj heq).1 hminus
      · next heq => exact absurd (List.cons.inj heq).1 hplus
      · exact hparse

/-! ### The templates -/

/-- What is used of the YAML library. -/
structure YamlCpp where
  /-- `YAML::Load`; `none` is the exception for a text that is not well formed. -/
  load : Text → Option Yaml
  /-- `ss << node`. -/
  emit : Yaml → Text
  /-- `ss << node[cnt]` for a map with these entries. -/
  emitAt : List (Yaml × Yaml) → ℕ → Text
  /-- `node.as<std::string>()`. -/
  asString : Yaml → Option Text
  /-- `node.as<int>()`. -/
  asInt : Yaml → Option ℤ
  /-- The text of the scalar that a `uint8_t` becomes. -/
  ucharText : UInt8 → Text

/-- A node that is written and loaded is the same again, a number is written as it is, and a scalar
    converts to its text. -/
structure YamlCpp.Documented (y : YamlCpp) : Prop where
  load_emit : ∀ node, y.load (y.emit node) = some node
  emit_int : ∀ i : CInt, y.emit (.scalar (intText i.1)) = intText i.1
  asString_scalar : ∀ text, y.asString (.scalar text) = some text

/-- `LexicalCast<std::string, T>` and `LexicalCast<T, std::string>`; `none` is an exception. -/
structure LexicalCast (T : Type) where
  toText : T → Option Text
  ofText : Text → Option T

def intCast : LexicalCast CInt where
  toText i := some (intText i.1)
  ofText := lexicalCastInt

section Templates

variable (y : YamlCpp) {T : Type}

/-- What the loop over the indices of a node reads. -/
def elements : Yaml → List Text
  | .sequence items => items.map y.emit
  | .map entries => (List.range entries.length).map (y.emitAt entries)
  -- `size()` is 0
  | .null | .scalar _ => []

/-- The node after `push_back` of these texts, which stays null without any. -/
def sequenceNode (items : List Text) : Yaml :=
  if items = [] then .null else .sequence (items.map .scalar)

def sequenceCast (c : LexicalCast T) : LexicalCast (List T) where
  toText source := (source.mapM c.toText).map fun items => y.emit (sequenceNode items)
  ofText source := (y.load source).bind fun node => (elements y node).mapM c.ofText

def vectorCast (c : LexicalCast T) : LexicalCast (List T) := sequenceCast y c

def listCast (c : LexicalCast T) : LexicalCast (List T) := sequenceCast y c

/-- `std::set<T>`. -/
@[ext] structure OrdSet (T : Type) [LinearOrder T] where
  items : List T
  sorted : SetSorted (keyLt id) items

def OrdSet.insert [LinearOrder T] (x : T) (s : OrdSet T) : OrdSet T :=
  ⟨setInsert (keyLt id) x s.items, setInsert_sorted keyLt_trans s.sorted x⟩

def OrdSet.empty [LinearOrder T] : OrdSet T := ⟨[], List.Pairwise.nil⟩

def OrdSet.ofList [LinearOrder T] (l : List T) : OrdSet T := l.foldl (fun s x => s.insert x) .empty

def setCast [LinearOrder T] (c : LexicalCast T) : LexicalCast (OrdSet T) where
  toText source := (sequenceCast y c).toText source.items
  ofText source := ((sequenceCast y c).ofText source).map OrdSet.ofList

/-- `std::map<std::string, T>`. -/
@[ext] structure OrdMap (T : Type) where
  entries : List (Text × T)
  sorted : SetSorted (keyLt fun e => textKey e.1) entries

/-- An entry is not added when its key is there. -/
def OrdMap.insert (e : Text × T) (m : OrdMap T) : OrdMap T :=
  ⟨setInsert (keyLt fun e => textKey e.1) e m.entries, setInsert_sorted keyLt_trans m.sorted e⟩

def OrdMap.empty : OrdMap T := ⟨[], List.Pairwise.nil⟩

def OrdMap.ofList (l : List (Text × T)) : OrdMap T := l.foldl (fun m e => m.insert e) .empty

/-- The node after the assignments `node[first] = second`. -/
def mapNode (entries : List (Yaml × Yaml)) : Yaml := if entries = [] then .null else .map entries

/-- What the loop over a node reads: the text of each key, and of the node under it. -/
def mapEntries : Yaml → Option (List (Text × Text))
  | .map entries => some (entries.map fun it => (it.1.keyScalar, y.emit it.2))
  -- an element of a sequence has no `first`
  | .sequence (_ :: _) => none
  | .sequence [] | .null | .scalar _ => some []

def mapCast (c : LexicalCast T) : LexicalCast (OrdMap T) where
  toText source :=
    (source.entries.mapM fun it =>
      (c.toText it.2).bind fun str => (y.load str).map fun node => (Yaml.scalar it.1, node)).map
        fun entries => y.emit (mapNode entries)
  ofText source :=
    ((y.load source).bind (mapEntries y)).bind fun entries =>
      (entries.mapM fun it => (c.ofText it.2).map fun value => (it.1, value)).map OrdMap.ofList

end Templates

/-! ### What a template does to a tree -/

section Behaves

variable {y : YamlCpp} {T : Type} {c : LexicalCast T} {tree : T → Yaml} {back flat : T → T}

/-- The cast writes the tree `tree v` for the value `v`; read again, `v` has become `back v`, and
    `flat v` when its text was a scalar of another tree. -/
structure Behaves (y : YamlCpp) (c : LexicalCast T) (tree : T → Yaml) (back flat : T → T) :
    Prop where
  toText : ∀ v, c.toText v = some (y.emit (tree v))
  ofText : ∀ v, c.ofText (y.emit (tree v)) = some (back v)
  ofScalar : ∀ v, c.ofText (y.emit (.scalar (y.emit (tree v)))) = some (flat v)

/-- A conversion that succeeds behind a map succeeds on the list. -/
theorem mapM_map_of_some {α β γ : Type} {f : β → Option γ} {g : α → β} {k : α → γ} {l : List α}
    (h : ∀ x ∈ l, f (g x) = some (k x)) : (l.map g).mapM f = some (l.map k) := by
  induction l with
  | nil => rfl
  | cons x xs ih =>
    rw [List.map_cons, List.mapM_cons, h x List.mem_cons_self,
      ih fun z hz => h z (List.mem_cons_of_mem x hz)]
    rfl

/-- A conversion that succeeds on every element succeeds on the list. -/
theorem mapM_of_some {α β : Type} {f : α → Option β} {k : α → β} {l : List α}
    (h : ∀ x ∈ l, f x = some (k x)) : l.mapM f = some (l.map k) := by
  have hmap := mapM_map_of_some (g := id) h
  rwa [List.map_id] at hmap

/-- The elements of a printed sequence. -/
theorem elements_sequenceNode (items : List Text) :
    elements y (sequenceNode items) = items.map fun s => y.emit (.scalar s) := by
  rw [sequenceNode]
  split
  · next h =>
    rw [h]
    rfl
  · exact List.map_map

/-- `int` keeps every value. -/
theorem int_behaves (h : y.Documented) :
    Behaves y intCast (fun i => .scalar (intText i.1)) id id where
  toText i := by rw [h.emit_int]; rfl
  ofText i := by
    rw [h.emit_int]
    exact lexicalCastInt_intText i
  ofScalar i := by
    rw [h.emit_int, h.emit_int]
    exact lexicalCastInt_intText i

/-- A sequence that is read from a scalar has no elements. -/
theorem sequence_ofScalar (h : y.Documented) (c : LexicalCast T) (text : Text) :
    (sequenceCast y c).ofText (y.emit (.scalar text)) = some [] := by
  show (y.load _).bind _ = _
  rw [h.load_emit]
  rfl

/-- The elements of a sequence are read from scalars. -/
theorem sequence_behaves (h : y.Documented) (hc : Behaves y c tree back flat) :
    Behaves y (sequenceCast y c) (fun v => sequenceNode (v.map fun x => y.emit (tree x)))
      (fun v => v.map flat) (fun _ => []) where
  toText v := by
    show (v.mapM c.toText).map _ = _
    rw [mapM_of_some fun x _ => hc.toText x]
    rfl
  ofText v := by
    show (y.load _).bind _ = _
    rw [h.load_emit, Option.bind_some, elements_sequenceNode, List.map_map]
    exact mapM_map_of_some fun x _ => hc.ofScalar x
  ofScalar v := sequence_ofScalar h c _

/-- A set is read as its elements are, and put in order again. -/
theorem set_behaves [LinearOrder T] (h : y.Documented) (hc : Behaves y c tree back flat) :
    Behaves y (setCast y c) (fun v => sequenceNode (v.items.map fun x => y.emit (tree x)))
      (fun v => .ofList (v.items.map flat)) (fun _ => .empty) where
  toText v := (sequence_behaves h hc).toText v.items
  ofText v := by
    show ((sequenceCast y c).ofText _).map _ = _
    rw [(sequence_behaves h hc).ofText v.items]
    rfl
  ofScalar v := by
    show ((sequenceCast y c).ofText _).map _ = _
    rw [(sequence_behaves h hc).ofScalar v.items]
    rfl

/-- The map with every value replaced. -/
def OrdMap.mapValues (f : T → T) (m : OrdMap T) : OrdMap T where
  entries := m.entries.map fun e => (e.1, f e.2)
  sorted := List.pairwise_map.mpr (m.sorted.imp fun h => h)

/-- A map is built of its own entries. -/
theorem OrdMap.ofList_entries (m : OrdMap T) : OrdMap.ofList m.entries = m := by
  apply OrdMap.ext
  exact (List.foldl_hom OrdMap.entries fun _ _ => rfl).symm.trans (foldl_setInsert m.sorted)

/-- The values of a map are read from the texts that they were written as. -/
theorem map_behaves (h : y.Documented) (hc : Behaves y c tree back flat) :
    Behaves y (mapCast y c) (fun m => mapNode (m.entries.map fun e => (.scalar e.1, tree e.2)))
      (fun m => m.mapValues back) (fun _ => .empty) where
  toText m := by
    have hentry : ∀ e : Text × T, ((c.toText e.2).bind fun str =>
        (y.load str).map fun node => (Yaml.scalar e.1, node)) = some (.scalar e.1, tree e.2) := by
      intro e
      rw [hc.toText, Option.bind_some, h.load_emit]
      rfl
    show Option.map _ (List.mapM (m := Option) _ m.entries) = _
    rw [mapM_of_some fun e _ => hentry e]
    rfl
  ofText m := by
    -- the entries come back from YAML in their order, each value as its text
    have hentries : mapEntries y (mapNode (m.entries.map fun e => (.scalar e.1, tree e.2))) =
        some (m.entries.map fun e => (e.1, y.emit (tree e.2))) := by
      rw [mapNode]
      split
      · next hnil =>
        rw [List.map_eq_nil_iff.mp hnil]
        rfl
      · rw [mapEntries, List.map_map]
        rfl
    have hentry : ∀ e : Text × T, ((c.ofText (y.emit (tree e.2))).map fun value => (e.1, value)) =
        some (e.1, back e.2) := by
      intro e
      rw [hc.ofText]
      rfl
    show ((y.load _).bind (mapEntries y)).bind _ = _
    rw [h.load_emit, Option.bind_some, hentries, Option.bind_some,
      mapM_map_of_some fun e _ => hentry e]
    exact congrArg some (m.mapValues back).ofList_entries
  -- a scalar has no entries
  ofScalar m := by
    show ((y.load _).bind (mapEntries y)).bind _ = _
    rw [h.load_emit]
    rfl

end Behaves

/-! ### The types built from `int` -/

inductive Ty
  | int
  | vector (t : Ty)
  | list (t : Ty)
  | set (t : Ty)
  | map (t : Ty)
  deriving DecidableEq, Repr

/-- A type with its `operator<`. -/
structure Carrier where
  T : Type
  order : LinearOrder T

instance {T : Type} [LinearOrder T] : LinearOrder (OrdSet T) :=
  LinearOrder.lift' OrdSet.items fun _ _ => OrdSet.ext

/-- Maps compare as the sequences of their entries. -/
instance {T : Type} [LinearOrder T] : LinearOrder (OrdMap T) :=
  LinearOrder.lift' (fun m => m.entries.map fun e => toLex (textKey e.1, e.2)) fun a b h => by
    apply OrdMap.ext
    refine List.map_injective_iff.mpr (fun e e' he => ?_) h
    obtain ⟨hkey, hvalue⟩ := Prod.mk.inj (toLex.injective he)
    exact Prod.ext (textKey_injective hkey) hvalue

def Ty.carrier : Ty → Carrier
  | .int => ⟨CInt, inferInstance⟩
  | .vector t => let _ := t.carrier.order; ⟨List t.carrier.T, inferInstance⟩
  | .list t => let _ := t.carrier.order; ⟨List t.carrier.T, inferInstance⟩
  | .set t => let _ := t.carrier.order; ⟨OrdSet t.carrier.T, inferInstance⟩
  | .map t => let _ := t.carrier.order; ⟨OrdMap t.carrier.T, inferInstance⟩

/-- The values of a type. -/
abbrev Ty.Val (t : Ty) : Type := t.carrier.T

instance (t : Ty) : LinearOrder t.Val := t.carrier.order

def Ty.cast (y : YamlCpp) : (t : Ty) → LexicalCast t.Val
  | .int => intCast
  | .vector t => vectorCast y (t.cast y)
  | .list t => listCast y (t.cast y)
  | .set t => setCast y (t.cast y)
  | .map t => mapCast y (t.cast y)

/-- The tree that a value is written as. -/
def Ty.tree (y : YamlCpp) : (t : Ty) → t.Val → Yaml
  | .int => fun i => .scalar (intText i.1)
  | .vector t => fun v => sequenceNode (v.map fun x => y.emit (t.tree y x))
  | .list t => fun v => sequenceNode (v.map fun x => y.emit (t.tree y x))
  | .set t => fun v => sequenceNode (v.items.map fun x => y.emit (t.tree y x))
  | .map t => fun m => mapNode (m.entries.map fun e => (.scalar e.1, t.tree y e.2))

/-- What is left of a value that was read from a scalar. -/
def Ty.flat : (t : Ty) → t.Val → t.Val
  | .int => id
  | .vector _ => fun _ => []
  | .list _ => fun _ => []
  | .set _ => fun _ => OrdSet.empty
  | .map _ => fun _ => OrdMap.empty

/-- What comes back of a value. -/
def Ty.back : (t : Ty) → t.Val → t.Val
  | .int => id
  | .vector t => fun v => v.map t.flat
  | .list t => fun v => v.map t.flat
  | .set t => fun v => OrdSet.ofList (v.items.map t.flat)
  | .map t => fun m => m.mapValues t.back

/-- Every nesting of containers behaves as its tree says, by induction on the type. -/
theorem Ty.behaves {y : YamlCpp} (h : y.Documented) (t : Ty) :
    Behaves y (t.cast y) (t.tree y) t.back t.flat := by
  induction t with
  | int => exact int_behaves h
  | vector t ih => exact sequence_behaves h ih
  | list t ih => exact sequence_behaves h ih
  | set t ih => exact set_behaves h ih
  | map t ih => exact map_behaves h ih

/-! ### Which values come back -/

/-- An `int`, or a container with nothing in it. -/
def Ty.Flat : (t : Ty) → t.Val → Prop
  | .int => fun _ => True
  | .vector t => fun (v : List t.Val) => v = []
  | .list t => fun (v : List t.Val) => v = []
  | .set _ => fun v => v.items = []
  | .map _ => fun m => m.entries = []

/-- No container with something in it is an element of a sequence or set. -/
def Ty.Faithful : (t : Ty) → t.Val → Prop
  | .int => fun _ => True
  | .vector t => fun (v : List t.Val) => ∀ x ∈ v, t.Flat x
  | .list t => fun (v : List t.Val) => ∀ x ∈ v, t.Flat x
  | .set t => fun v => ∀ x ∈ v.items, t.Flat x
  | .map t => fun m => ∀ e ∈ m.entries, t.Faithful e.2

/-- The values that survive the printing. -/
theorem Ty.flat_eq_iff (t : Ty) (v : t.Val) : t.flat v = v ↔ t.Flat v := by
  cases t with
  | int => exact iff_of_true rfl trivial
  | vector t => exact eq_comm
  | list t => exact eq_comm
  | set t => exact eq_comm.trans (OrdSet.ext_iff (y := OrdSet.empty))
  | map t => exact eq_comm.trans (OrdMap.ext_iff (y := OrdMap.empty))

/-- Printing twice changes nothing more. -/
theorem Ty.flat_flat (t : Ty) (v : t.Val) : t.flat (t.flat v) = t.flat v := by
  cases t <;> rfl

/-- A map leaves a list alone when it leaves every element alone. -/
theorem map_eq_self_iff {α : Type} {f : α → α} {l : List α} : l.map f = l ↔ ∀ x ∈ l, f x = x := by
  have h := List.map_inj_left (l := l) (f := f) (g := id)
  rwa [List.map_id] at h

/-- A set's elements in the order of insertion. -/
theorem OrdSet.items_ofList {T : Type} [LinearOrder T] (l : List T) :
    (OrdSet.ofList l).items = l.foldl (fun s x => setInsert (keyLt id) x s) [] :=
  (List.foldl_hom OrdSet.items fun _ _ => rfl).symm

/-- The items of a set that was filled from a list are from that list. -/
theorem OrdSet.mem_of_mem_ofList {T : Type} [LinearOrder T] {l : List T} {x : T}
    (h : x ∈ (OrdSet.ofList l).items) : x ∈ l := by
  rw [OrdSet.items_ofList] at h
  exact (mem_of_mem_foldl_setInsert h).resolve_left List.not_mem_nil

/-- A set is built of its own elements. -/
theorem OrdSet.ofList_items {T : Type} [LinearOrder T] (s : OrdSet T) :
    OrdSet.ofList s.items = s := by
  apply OrdSet.ext
  rw [OrdSet.items_ofList]
  exact foldl_setInsert s.sorted

/-- The values that survive the way back. -/
theorem Ty.back_eq_iff (t : Ty) (v : t.Val) : t.back v = v ↔ t.Faithful v := by
  induction t with
  | int => exact iff_of_true rfl trivial
  | vector t => exact map_eq_self_iff.trans (forall₂_congr fun x _ => t.flat_eq_iff x)
  | list t => exact map_eq_self_iff.trans (forall₂_congr fun x _ => t.flat_eq_iff x)
  | set t =>
    constructor
    · intro hback x hx
      -- an item that came back is what is left of one
      rw [← hback] at hx
      obtain ⟨z, -, rfl⟩ := List.mem_map.mp (OrdSet.mem_of_mem_ofList hx)
      exact (t.flat_eq_iff _).mp (t.flat_flat z)
    · intro hall
      show OrdSet.ofList (v.items.map t.flat) = v
      rw [map_eq_self_iff.mpr fun x hx => (t.flat_eq_iff x).mpr (hall x hx)]
      exact OrdSet.ofList_items v
  | map t ih =>
    refine OrdMap.ext_iff.trans (map_eq_self_iff.trans (forall₂_congr fun e _ => ?_))
    exact Prod.ext_iff.trans ((and_iff_right rfl).trans (ih e.2))

/-- Text and back gives the value again. -/
def RoundTrips {T : Type} (c : LexicalCast T) (v : T) : Prop := (c.toText v).bind c.ofText = some v

/-- **Containers.**  A value comes back from its text exactly when no container with something in it
    is an element of a sequence or set. -/
theorem Ty.comesBack_iff {y : YamlCpp} (h : y.Documented) (t : Ty) (v : t.Val) :
    RoundTrips (t.cast y) v ↔ t.Faithful v := by
  rw [RoundTrips, (t.behaves h).toText, Option.bind_some, (t.behaves h).ofText, Option.some.injEq]
  exact t.back_eq_iff v

end LoNetfw.Util
