import Mathlib.Data.List.Basic
import Mathlib.Data.UInt

namespace LoNetfw.Util

/-!
# YAML trees — `convertYamlToVector` and the names of parameters

Documents as the YAML library hands them out, and the functions of `util/util.cpp` that make a list
of named nodes of a document.

* `Yaml` — trees; `Yaml.keyScalar` is what a key contributes to a name;
* `convertYamlToVector` — the recursion of the source, which throws at the first invalid name and
  leaves a partially filled vector behind;
* `Yaml.descendants`, `dottedPath` — the nodes below maps in document order, with their paths;
* `convertYamlToVector_eq` — the recursion collects exactly these, unless a path is invalid.
-/

/-- `std::string`. -/
abbrev Text := List UInt8

/-- A literal of the source, which has ASCII characters only. -/
def ascii (s : String) : Text := s.toList.map fun ch => ch.toNat.toUInt8

/-- The numbers that the characters of a text are compared by. -/
def textKey (str : Text) : List ℕ := str.map UInt8.toNat

/-- Texts are ordered by a key that determines them. -/
theorem textKey_injective : Function.Injective textKey :=
  List.map_injective_iff.mpr fun _ _ => UInt8.toNat_inj.mp

/-! ### Names -/

def toLowerChar (ch : UInt8) : UInt8 := if 65 ≤ ch ∧ ch ≤ 90 then ch + 32 else ch

def toLower (str : Text) : Text := str.map toLowerChar

def toUpperChar (ch : UInt8) : UInt8 := if 97 ≤ ch ∧ ch ≤ 122 then ch - 32 else ch

def toUpper (str : Text) : Text := str.map toUpperChar

/-- The characters of `[A-Za-z0-9_.]`. -/
def isNameChar (ch : UInt8) : Bool :=
  decide (97 ≤ ch ∧ ch ≤ 122) || decide (65 ≤ ch ∧ ch ≤ 90) || decide (48 ≤ ch ∧ ch ≤ 57) ||
    ch == 95 || ch == 46

def isValidParamName (str : Text) : Bool := str.all isNameChar

/-- The characters of `[a-z0-9_.]`. -/
def IsLowerNameChar (ch : UInt8) : Prop := 97 ≤ ch ∧ ch ≤ 122 ∨ 48 ≤ ch ∧ ch ≤ 57 ∨ ch = 95 ∨ ch = 46

instance (ch : UInt8) : Decidable (IsLowerNameChar ch) :=
  inferInstanceAs (Decidable (_ ∨ _))

/-- No upper-case letter is left by `tolower`. -/
theorem not_upper_toLowerChar (ch : UInt8) : ¬ (65 ≤ toLowerChar ch ∧ toLowerChar ch ≤ 90) := by
  rw [toLowerChar]
  split
  · next h =>
    simp only [UInt8.le_iff_toNat_le, UInt8.toNat_add, UInt8.reduceToNat] at h ⊢
    omega
  · next h => exact h

/-- `tolower` does nothing the second time. -/
theorem toLowerChar_idem (ch : UInt8) : toLowerChar (toLowerChar ch) = toLowerChar ch :=
  if_neg (not_upper_toLowerChar ch)

/-- After `tolower` the characters of `VALID_PARAM_NAME` are the lower-case ones. -/
theorem isNameChar_toLowerChar (ch : UInt8) :
    isNameChar (toLowerChar ch) = true ↔ IsLowerNameChar (toLowerChar ch) := by
  rw [isNameChar, IsLowerNameChar, decide_eq_false (not_upper_toLowerChar ch)]
  simp only [Bool.or_false, Bool.or_eq_true, decide_eq_true_eq, beq_iff_eq, or_assoc]

/-- Lower-cased names are checked for `[a-z0-9_.]`. -/
theorem isValidParamName_toLower (str : Text) :
    isValidParamName (toLower str) = true ↔ ∀ ch ∈ toLower str, IsLowerNameChar ch := by
  rw [isValidParamName, List.all_eq_true]
  refine forall₂_congr fun ch hch => ?_
  obtain ⟨c, -, rfl⟩ := List.mem_map.mp hch
  exact isNameChar_toLowerChar c

/-- `tolower` of a text does nothing the second time. -/
theorem toLower_toLower (str : Text) : toLower (toLower str) = toLower str := by
  rw [toLower, toLower, List.map_map]
  exact List.map_congr_left fun ch _ => toLowerChar_idem ch

/-- `tolower` goes over a text character by character. -/
@[simp] theorem toLower_append (a b : Text) : toLower (a ++ b) = toLower a ++ toLower b :=
  List.map_append ..

/-- `tolower` leaves a text empty only if it was. -/
@[simp] theorem toLower_eq_nil {str : Text} : toLower str = [] ↔ str = [] := List.map_eq_nil_iff

/-! ### Trees -/

/-- A defined node. -/
inductive Yaml
  | null
  | scalar (text : Text)
  | sequence (items : List Yaml)
  | map (entries : List (Yaml × Yaml))
  deriving Inhabited

/-- `Scalar()`, which is empty for a node that is no scalar. -/
def Yaml.keyScalar : Yaml → Text
  | .scalar text => text
  | _ => []

/-- The text of the exception for an invalid name. -/
def invalidName (str : Text) : Text := ascii "data name is invalid: " ++ str

mutual

/-- `vec` is the vector so far. -/
def convertYamlToVector (pre : Text) (node : Yaml) (vec : List (Text × Yaml)) :
    Except Text (List (Text × Yaml)) :=
  if isValidParamName (toLower pre) then
    match node with
    | .map entries => convertEntries pre entries (vec ++ [(toLower pre, node)])
    | _ => .ok (vec ++ [(toLower pre, node)])
  else .error (invalidName pre)
termination_by structural node

/-- The loop over the entries of a map. -/
def convertEntries (pre : Text) (entries : List (Yaml × Yaml)) (vec : List (Text × Yaml)) :
    Except Text (List (Text × Yaml)) :=
  match entries with
  | [] => .ok vec
  | (first, second) :: rest =>
    match convertYamlToVector
        (if pre = [] then first.keyScalar else toLower pre ++ [46] ++ first.keyScalar) second vec with
    | .error e => .error e
    | .ok vec => convertEntries pre rest vec
termination_by structural entries

end

/-! ### Descendants and their paths -/

mutual

/-- The node and the nodes below it that maps lead to, in document order, each with the keys on the
    way to it from the root. -/
def Yaml.descendants (keys : List Text) (node : Yaml) : List (List Text × Yaml) :=
  match node with
  | .map entries => (keys, .map entries) :: entryDescendants keys entries
  | node => [(keys, node)]
termination_by structural node

def entryDescendants (keys : List Text) (entries : List (Yaml × Yaml)) :
    List (List Text × Yaml) :=
  match entries with
  | [] => []
  | (first, second) :: rest =>
    second.descendants (keys ++ [first.keyScalar]) ++ entryDescendants keys rest
termination_by structural entries

end

/-- Keys joined by dots. -/
def joined (keys : List Text) : Text := List.intercalate [46] keys

/-- A path begins with the first key that is not empty. -/
def dottedPath (keys : List Text) : Text := joined (keys.dropWhile (· = []))

/-- A path of which the lower-cased form has only the characters of `[a-z0-9_.]`. -/
def ValidPath (keys : List Text) : Prop := ∀ ch ∈ toLower (dottedPath keys), IsLowerNameChar ch

instance (keys : List Text) : Decidable (ValidPath keys) :=
  inferInstanceAs (Decidable (∀ ch ∈ toLower (dottedPath keys), IsLowerNameChar ch))

/-! ### The recursion and the descendants -/

/-- A result that is kept. -/
theorem toOption_eq_some {ε α : Type} {r : Except ε α} {a : α} :
    r.toOption = some a ↔ r = .ok a := by
  cases r <;> simp [Except.toOption]

/-- A result that is lost. -/
theorem toOption_eq_none {ε α : Type} {r : Except ε α} :
    r.toOption = none ↔ ∃ e, r = .error e := by
  cases r <;> simp [Except.toOption]

/-- One more key at the end of a path. -/
theorem joined_concat {keys : List Text} (h : keys ≠ []) (key : Text) :
    joined (keys ++ [key]) = joined keys ++ [46] ++ key := by
  induction keys with
  | nil => exact absurd rfl h
  | cons k ks ih =>
    cases ks with
    | nil => simp [joined, List.intercalate_cons_cons]
    | cons k' ks =>
      have ih' := ih (List.cons_ne_nil _ _)
      rw [joined, joined] at ih' ⊢
      rw [List.cons_append, List.cons_append, List.intercalate_cons_cons, ← List.cons_append, ih',
        List.intercalate_cons_cons]
      simp only [List.append_assoc]

/-- A path that is empty as a text has no key with a character. -/
theorem joined_eq_nil {keys : List Text} (h : joined keys = []) : ∀ key ∈ keys, key = [] := by
  cases keys with
  | nil => exact fun _ hk => absurd hk List.not_mem_nil
  | cons k ks =>
    cases ks with
    | nil =>
      rw [joined, List.intercalate_singleton] at h
      exact fun key hk => (List.mem_singleton.mp hk).trans h
    | cons k' ks =>
      -- a dot stands between two keys
      rw [joined, List.intercalate_cons_cons, List.append_assoc] at h
      simp at h

/-- How the recursion extends a path. -/
theorem dottedPath_concat (keys : List Text) (key : Text) :
    dottedPath (keys ++ [key]) =
      if dottedPath keys = [] then key else dottedPath keys ++ [46] ++ key := by
  induction keys with
  | nil =>
    have hnil : dottedPath [] = [] := by decide
    rw [if_pos hnil]
    by_cases hk : key = []
    · rw [hk]
      rfl
    · rw [dottedPath, List.nil_append, List.dropWhile_cons_of_neg (by simpa using hk), joined,
        List.intercalate_singleton]
  | cons k ks ih =>
    -- keys that are empty at the front leave no dot
    by_cases hk : k = []
    · have hdrop : ∀ l, dottedPath (k :: l) = dottedPath l := by
        intro l
        rw [dottedPath, List.dropWhile_cons_of_pos (by simpa using hk)]
        rfl
      rw [List.cons_append, hdrop, hdrop, ih]
    · have hkeep : ∀ l, dottedPath (k :: l) = joined (k :: l) := by
        intro l
        rw [dottedPath, List.dropWhile_cons_of_neg (by simpa using hk)]
      have hne : joined (k :: ks) ≠ [] := fun h => hk (joined_eq_nil h k List.mem_cons_self)
      rw [hkeep, if_neg hne, List.cons_append, hkeep, ← List.cons_append,
        joined_concat (List.cons_ne_nil _ _)]

/-- The pair that the recursion makes of a descendant. -/
def named (d : List Text × Yaml) : Text × Yaml := (toLower (dottedPath d.1), d.2)

/-- The prefix of an entry stands for the path of its value. -/
theorem toLower_childKey {pre : Text} {keys : List Text}
    (h : toLower pre = toLower (dottedPath keys)) (key : Text) :
    toLower (if pre = [] then key else toLower pre ++ [46] ++ key) =
      toLower (dottedPath (keys ++ [key])) := by
  have hempty : pre = [] ↔ dottedPath keys = [] := by
    rw [← toLower_eq_nil, h, toLower_eq_nil]
  rw [dottedPath_concat]
  by_cases hpre : pre = []
  · rw [if_pos hpre, if_pos (hempty.mp hpre)]
  · rw [if_neg hpre, if_neg (mt hempty.mpr hpre)]
    simp only [toLower_append, h, toLower_toLower]

/-- The prefix passes the test exactly when the path is a valid one. -/
theorem validPath_iff {pre : Text} {keys : List Text}
    (h : toLower pre = toLower (dottedPath keys)) :
    isValidParamName (toLower pre) = true ↔ ValidPath keys := by
  rw [isValidParamName_toLower, h, ValidPath]

mutual

/-- A vector is returned when all paths are valid, and then it has grown by all descendants. -/
theorem convertYamlToVector_toOption {pre : Text} {keys : List Text}
    (h : toLower pre = toLower (dottedPath keys)) (node : Yaml) (vec : List (Text × Yaml)) :
    (convertYamlToVector pre node vec).toOption =
      if ∀ d ∈ node.descendants keys, ValidPath d.1 then
        some (vec ++ (node.descendants keys).map named)
      else none := by
  rw [convertYamlToVector.eq_def]
  by_cases hvalid : ValidPath keys
  · rw [if_pos ((validPath_iff h).mpr hvalid)]
    -- only a map has descendants
    cases node with
    | map entries =>
      show (convertEntries pre entries (vec ++ [(toLower pre, .map entries)])).toOption = _
      rw [convertEntries_toOption h entries, Yaml.descendants.eq_def]
      simp only [List.forall_mem_cons, hvalid, true_and, List.map_cons, named, h,
        List.append_assoc, List.singleton_append]
    | null => simp [Yaml.descendants, hvalid, named, h, Except.toOption]
    | scalar text => simp [Yaml.descendants, hvalid, named, h, Except.toOption]
    | sequence items => simp [Yaml.descendants, hvalid, named, h, Except.toOption]
  · rw [if_neg (mt (validPath_iff h).mp hvalid), if_neg]
    · rfl
    · intro hall
      refine hvalid (hall (keys, node) ?_)
      cases node <;> simp [Yaml.descendants]
termination_by structural node

/-- Over the entries of a map the conversion lists all descendants, or fails at a path that is
    not valid. -/
theorem convertEntries_toOption {pre : Text} {keys : List Text}
    (h : toLower pre = toLower (dottedPath keys)) (entries : List (Yaml × Yaml))
    (vec : List (Text × Yaml)) :
    (convertEntries pre entries vec).toOption =
      if ∀ d ∈ entryDescendants keys entries, ValidPath d.1 then
        some (vec ++ (entryDescendants keys entries).map named)
      else none := by
  match entries with
  | [] => simp [convertEntries, entryDescendants, Except.toOption]
  | (first, second) :: rest =>
    have hhead := convertYamlToVector_toOption (toLower_childKey h first.keyScalar) second vec
    rw [convertEntries.eq_def, entryDescendants]
    simp only [List.forall_mem_append, List.map_append]
    by_cases hsecond : ∀ d ∈ second.descendants (keys ++ [first.keyScalar]), ValidPath d.1
    · rw [if_pos hsecond] at hhead
      rw [toOption_eq_some.mp hhead]
      show (convertEntries pre rest _).toOption = _
      rw [convertEntries_toOption h rest, List.append_assoc]
      exact (if_congr (and_iff_right hsecond) rfl rfl).symm
    · -- the rest of the entries is not read
      rw [if_neg hsecond] at hhead
      obtain ⟨e, he⟩ := toOption_eq_none.mp hhead
      rw [he, if_neg fun hall => hsecond hall.1]
      rfl
termination_by structural entries

end

end LoNetfw.Util
