import LoNetfw.Config.GlobalConfig
import LoNetfw.Util.LexicalCast
import Mathlib.Logic.Equiv.List
import Mathlib.Tactic.DeriveCountable

namespace LoNetfw.Config

open Basis Util Log

/-!
# `LexicalCast` of the logs — configurations as text and back

The specialisations of `LexicalCast` in `config/globalconfig.h`.  As the templates for sequences, the
one for `ConfigLog` puts the text of the appenders into the tree as a scalar.

* `configLogAppenderCast`, `configLogCast` — the specialisations;
* `configLog_roundTrips_iff` — an entry comes back exactly when it has no appenders;
* `roundTrips_iff` — this and the containers together;
* `sampleYaml` — a library for runs on small documents.
-/

/-! ### The specialisations -/

/-- `node[key]`: `none` when it throws, and `some none` for an undefined node. -/
def lookup (key : Text) : Yaml → Option (Option Yaml)
  | .map entries => some ((entries.find? fun it => it.1.keyScalar == key).map (·.2))
  | .null | .sequence _ => some none
  -- bad subscript
  | .scalar _ => none

/-- `if (node[key].IsDefined()) res = convert(node[key])`, for `res` with the value `init`. -/
def readField {α : Type} (node : Yaml) (key : Text) (init : α) (convert : Yaml → Option α) :
    Option α :=
  (lookup key node).bind fun child =>
    match child with
    | none => some init
    | some child => convert child

section Casts

variable (y : YamlCpp)

def configLogAppenderCast : LexicalCast ConfigLogAppender where
  toText source := some <| y.emit <| .map
    [(.scalar (ascii "format"), .scalar source.format),
      (.scalar (ascii "level"), .scalar (getLevelName source.level)),
      (.scalar (ascii "log_path"), .scalar source.logPath),
      (.scalar (ascii "type"), .scalar (y.ucharText source.type))]
  ofText source := do
    let node ← y.load source
    let res : ConfigLogAppender := {}
    let format ← readField node (ascii "format") res.format y.asString
    let level ← readField node (ascii "level") res.level fun n => (y.asString n).map getLevelByName
    let logPath ← readField node (ascii "log_path") res.logPath y.asString
    let type ← readField node (ascii "type") res.type fun n => (y.asInt n).map UInt8.ofInt
    some ⟨type, level, format, logPath⟩

def configLogCast : LexicalCast ConfigLog where
  toText source :=
    ((vectorCast y (configLogAppenderCast y)).toText source.appenders).map fun appenders =>
      y.emit <| .map
        [(.scalar (ascii "name"), .scalar source.name),
          (.scalar (ascii "level"), .scalar (getLevelName source.level)),
          (.scalar (ascii "appenders"), .scalar appenders)]
  ofText source := do
    let node ← y.load source
    let res : ConfigLog := { name := ascii "root" }
    let ss ← readField node (ascii "appenders") [] fun n => some (y.emit n)
    let name ← readField node (ascii "name") res.name y.asString
    let level ← readField node (ascii "level") res.level fun n => (y.asString n).map getLevelByName
    let appenders ← (vectorCast y (configLogAppenderCast y)).ofText ss
    some ⟨name, level, appenders⟩

end Casts

variable {y : YamlCpp}

/-- The appenders have a text. -/
theorem appenders_toText (y : YamlCpp) (as : List ConfigLogAppender) :
    ∃ text, (vectorCast y (configLogAppenderCast y)).toText as = some text := by
  show ∃ text, (as.mapM fun a => some _).map _ = some text
  rw [mapM_of_some fun a _ => rfl]
  exact ⟨_, rfl⟩

/-- What a conversion makes of the scalar under a key. -/
theorem readField_of_find {α : Type} {entries : List (Yaml × Yaml)} {key text : Text}
    (hfind : (entries.find? fun it => it.1.keyScalar == key).map (·.2) = some (.scalar text))
    (init : α) (convert : Yaml → Option α) :
    readField (.map entries) key init convert = convert (.scalar text) := by
  rw [readField, lookup, hfind]
  rfl

/-- The name and the level of an entry come back, its appenders do not. -/
theorem configLog_back (h : y.Documented) (log : ConfigLog) :
    ((configLogCast y).toText log).bind (configLogCast y).ofText =
      some ⟨log.name, log.level, []⟩ := by
  -- the appenders become one text, which is a scalar when it is read back
  obtain ⟨text, htext⟩ := appenders_toText y log.appenders
  have htoText : (configLogCast y).toText log = some (y.emit (.map
      [(.scalar (ascii "name"), .scalar log.name),
        (.scalar (ascii "level"), .scalar (getLevelName log.level)),
        (.scalar (ascii "appenders"), .scalar text)])) := by
    show Option.map _ ((vectorCast y (configLogAppenderCast y)).toText log.appenders) = _
    rw [htext]
    rfl
  have hnone : (vectorCast y (configLogAppenderCast y)).ofText (y.emit (.scalar text)) = some [] :=
    sequence_ofScalar h _ text
  rw [htoText]
  show Option.bind (y.load (y.emit _)) _ = _
  rw [h.load_emit]
  simp only [Option.bind_some, Option.bind_eq_bind]
  rw [readField_of_find rfl, readField_of_find rfl, readField_of_find rfl]
  simp only [h.asString_scalar, hnone, Option.bind_some, Option.map_some,
    getLevelByName_getLevelName]

/-- **Entries of the log.**  They come back exactly when they have no appenders. -/
theorem configLog_roundTrips_iff (h : y.Documented) (log : ConfigLog) :
    RoundTrips (configLogCast y) log ↔ log.appenders = [] := by
  rw [RoundTrips, configLog_back h, Option.some.injEq, ConfigLog.mk.injEq]
  exact ⟨fun heq => heq.2.2.symm, fun hnil => ⟨rfl, rfl, hnil.symm⟩⟩

/-- **Text and back.**  A value of a type built from `int` comes back exactly when no container with
    something in it is an element of a sequence or set in it, and an entry of the log exactly when it
    has no appenders. -/
theorem roundTrips_iff (h : y.Documented) (t : Ty) (v : t.Val) (log : ConfigLog) :
    (RoundTrips (t.cast y) v ↔ t.Faithful v) ∧
      (RoundTrips (configLogCast y) log ↔ log.appenders = []) :=
  ⟨t.comesBack_iff h v, configLog_roundTrips_iff h log⟩

/-! ### A library for small documents -/

instance countableByte : Countable UInt8 :=
  Function.Injective.countable (f := UInt8.toNat) fun _ _ => UInt8.toNat_inj.mp

/-- A tree without nested lists. -/
inductive BinaryTree
  | leaf
  | node (kind : ℕ) (text : Text) (left right : BinaryTree)
  deriving Countable

mutual

/-- Any tree of a configuration comes from one without lists. -/
def ofBinary : BinaryTree → Yaml
  | .leaf => .null
  | .node 0 text _ _ => .scalar text
  | .node 1 _ items _ => .sequence (itemsOfBinary items)
  | .node _ _ entries _ => .map (entriesOfBinary entries)

def itemsOfBinary : BinaryTree → List Yaml
  | .leaf => []
  | .node _ _ node items => ofBinary node :: itemsOfBinary items

def entriesOfBinary : BinaryTree → List (Yaml × Yaml)
  | .node _ _ (.node _ _ first second) entries =>
    (ofBinary first, ofBinary second) :: entriesOfBinary entries
  | _ => []

end

mutual

/-- Every tree comes from a binary tree. -/
theorem ofBinary_surjective : ∀ node, ∃ t, ofBinary t = node
  | .null => ⟨.leaf, by rw [ofBinary]⟩
  | .scalar text => ⟨.node 0 text .leaf .leaf, by rw [ofBinary]⟩
  | .sequence items => by
    obtain ⟨t, ht⟩ := itemsOfBinary_surjective items
    exact ⟨.node 1 [] t .leaf, by rw [ofBinary, ht]⟩
  | .map entries => by
    obtain ⟨t, ht⟩ := entriesOfBinary_surjective entries
    exact ⟨.node 2 [] t .leaf, by simp [ofBinary, ht]⟩

/-- Every sequence of trees comes from a binary tree. -/
theorem itemsOfBinary_surjective : ∀ items, ∃ t, itemsOfBinary t = items
  | [] => ⟨.leaf, by rw [itemsOfBinary]⟩
  | node :: items => by
    obtain ⟨t, ht⟩ := ofBinary_surjective node
    obtain ⟨u, hu⟩ := itemsOfBinary_surjective items
    exact ⟨.node 0 [] t u, by rw [itemsOfBinary, ht, hu]⟩

/-- Every map of trees comes from a binary tree. -/
theorem entriesOfBinary_surjective : ∀ entries, ∃ t, entriesOfBinary t = entries
  | [] => ⟨.leaf, by simp [entriesOfBinary]⟩
  | (first, second) :: entries => by
    obtain ⟨t, ht⟩ := ofBinary_surjective first
    obtain ⟨u, hu⟩ := ofBinary_surjective second
    obtain ⟨v, hv⟩ := entriesOfBinary_surjective entries
    exact ⟨.node 0 [] (.node 0 [] t u) v, by rw [entriesOfBinary, ht, hu, hv]⟩

end

/-- There are no more trees than texts. -/
instance : Countable Yaml := Function.Surjective.countable ofBinary_surjective

/-- `ss >> i`, when `i` is written as it was read. -/
def isIntText (text : Text) : Bool := (lexicalCastInt text).any fun i => intText i.1 == text

/-- The texts of the numbers and of some documents. -/
def sampleText : Yaml → Option Text
  | .null => some (ascii "~")
  | .scalar text => if isIntText text then some text else none
  | .sequence [.scalar text] =>
    if text = ascii "1" then some (ascii "- 1")
    else if text = ascii "- 1" then some (ascii "- \"- 1\"")
    else none
  | .map [(.scalar a, .scalar b), (.scalar c, .scalar d), (.scalar e, .scalar f)] =>
    if [a, b, c, d, e, f] = [ascii "name", ascii "a", ascii "level", ascii "INFO",
        ascii "appenders", ascii "~"] then some (ascii "name: a\nlevel: INFO\nappenders: \"~\"")
    else none
  | _ => none

def sampleRead (text : Text) : Option Yaml :=
  if isIntText text then some (.scalar text)
  else if text = ascii "~" then some .null
  else if text = ascii "- 1" then some (.sequence [.scalar (ascii "1")])
  else if text = ascii "- \"- 1\"" then some (.sequence [.scalar (ascii "- 1")])
  else if text = ascii "name: a\nlevel: INFO\nappenders: \"~\"" then
    some (.map [(.scalar (ascii "name"), .scalar (ascii "a")),
      (.scalar (ascii "level"), .scalar (ascii "INFO")),
      (.scalar (ascii "appenders"), .scalar (ascii "~"))])
  else none

/-- The samples are read from their texts. -/
theorem sampleRead_sampleText {node : Yaml} {text : Text} (h : sampleText node = some text) :
    sampleRead text = some node := by
  unfold sampleText at h
  -- one case for each shape that the sample prints
  split at h
  · obtain rfl := Option.some.inj h
    rfl
  · obtain ⟨hint, h⟩ := Option.ite_none_right_eq_some.mp h
    obtain rfl := Option.some.inj h
    exact if_pos hint
  · split at h
    · next hone =>
      obtain rfl := Option.some.inj h
      rw [hone]
      rfl
    · obtain ⟨htwo, h⟩ := Option.ite_none_right_eq_some.mp h
      obtain rfl := Option.some.inj h
      rw [htwo]
      rfl
  · obtain ⟨hall, h⟩ := Option.ite_none_right_eq_some.mp h
    obtain rfl := Option.some.inj h
    simp only [List.cons.injEq, and_true] at hall
    obtain ⟨rfl, rfl, rfl, rfl, rfl, rfl⟩ := hall
    rfl
  · exact nomatch h

/-- Any tree as a text that begins with a zero byte. -/
noncomputable def yamlCode (node : Yaml) : Text :=
  0 :: List.replicate (Classical.choose (exists_injective_nat Yaml) node) 0

/-- A tree is determined by its code. -/
theorem yamlCode_injective : Function.Injective yamlCode := by
  intro a b h
  apply Classical.choose_spec (exists_injective_nat Yaml)
  simpa [yamlCode] using congrArg List.length h

/-- A library that writes the sample documents as the real one does. -/
noncomputable def sampleYaml : YamlCpp where
  load text := some ((sampleRead text).getD (Function.invFun yamlCode text))
  emit node := (sampleText node).getD (yamlCode node)
  emitAt _ _ := []
  asString
    | .scalar text => some text
    | _ => none
  asInt
    | .scalar text => (lexicalCastInt text).map (·.1)
    | _ => none
  ucharText ch := [ch]

/-- What is emitted is loaded, and numbers are written as they are. -/
theorem sampleYaml_documented : sampleYaml.Documented where
  load_emit node := by
    show some ((sampleRead ((sampleText node).getD (yamlCode node))).getD
      (Function.invFun yamlCode ((sampleText node).getD (yamlCode node)))) = some node
    cases htext : sampleText node with
    | some text => rw [Option.getD_some, sampleRead_sampleText htext, Option.getD_some]
    | none =>
      -- no sample begins with a zero byte
      have hread : sampleRead (yamlCode node) = none := rfl
      rw [Option.getD_none, hread, Option.getD_none,
        Function.leftInverse_invFun yamlCode_injective node]
  emit_int i := by
    have hint : isIntText (intText i.1) = true := by
      rw [isIntText, lexicalCastInt_intText]
      exact beq_self_eq_true _
    show (if isIntText (intText i.1) then some (intText i.1) else none).getD _ = _
    rw [if_pos hint, Option.getD_some]
  asString_scalar _ := rfl

/-- The sequence `[1]`, and the entry `a`. -/
theorem roundTrips_iff_instance :
    let one : CInt := ⟨1, by decide⟩
    let log : ConfigLog := ⟨ascii "a", .info, []⟩
    (RoundTrips ((Ty.vector .int).cast sampleYaml) [one] ↔ (Ty.vector .int).Faithful [one]) ∧
      (RoundTrips (configLogCast sampleYaml) log ↔ log.appenders = []) :=
  roundTrips_iff sampleYaml_documented (.vector .int) _ _

/-- The sequence `[[1]]` comes back as `[[]]`. -/
theorem nested_sequence_lost :
    let one : CInt := ⟨1, by decide⟩
    let c := (Ty.vector (.vector .int)).cast sampleYaml
    c.toText [[one]] = some (ascii "- \"- 1\"") ∧ c.ofText (ascii "- \"- 1\"") = some [[]] ∧
      ¬ RoundTrips c [[one]] := by
  intro one c
  have hbehaves := Ty.behaves sampleYaml_documented (.vector (.vector .int))
  -- the inner sequence is printed as a text, and a text has no elements
  have htree : sampleYaml.emit ((Ty.vector (.vector .int)).tree sampleYaml [[one]]) =
      ascii "- \"- 1\"" := by decide
  have htext := hbehaves.toText [[one]]
  have hback := hbehaves.ofText [[one]]
  rw [htree] at htext hback
  refine ⟨htext, hback, ?_⟩
  intro h
  have hboth : (c.toText [[one]]).bind c.ofText = some [[one]] := h
  rw [htext, Option.bind_some, hback] at hboth
  have hempty : ([[]] : List (List CInt)) = [[one]] := Option.some.inj hboth
  exact nomatch (List.cons.inj hempty).1

end LoNetfw.Config
