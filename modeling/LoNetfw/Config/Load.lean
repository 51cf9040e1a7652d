import LoNetfw.Config.ConfigData
import LoNetfw.Util.Yaml
import Mathlib.Logic.Function.Basic

namespace LoNetfw.Config

open Util

/-!
# `Config` — loading a document into the registered items

`Config::parseFromYaml` of `config/config.cpp`.  All nodes are collected before the first item is
touched, so an invalid name anywhere leaves every item as it is.

* `parseFromYaml` — the function of the source, over the map of the registered items;
* `foldl_loadNode` — what the loop over the nodes does to one item;
* `parseFromYaml_eq` — loading is all or nothing on names, and exact on values.

How a node is written (`emit`), the conversion of each item (`fromStr`) and the outcome of its
callbacks (`throws`) are parameters; a conversion that throws is `none`.  Exceptions of both are
caught item by item, in `fromString`.
-/

/-- The registered items by their lower-case names. -/
abbrev ConfigDataMap (T : Text → Type) (C : Type) := (name : Text) → Option (ConfigData (T name) C)

variable {T : Text → Type} {C : Type} [∀ name, DecidableEq (T name)]

def getDataBase (datas : ConfigDataMap T C) (name : Text) : Option (ConfigData (T name) C) :=
  datas name

section Load

variable (emit : Yaml → Text) (fromStr : (name : Text) → Text → Option (T name))
  (throws : (name : Text) → Throws (T name) C)

/-- What is converted for a node. -/
def nodeText : Yaml → Text
  | .scalar text => text
  | node => emit node

/-- `fromString` on the item of a name. -/
def loadItem (name : Text) (item : ConfigData (T name) C) (node : Yaml) : ConfigData (T name) C :=
  (item.fromString (throws name) (fromStr name) (nodeText emit node)).2.1

/-- One round of the loop over the nodes. -/
def loadNode (datas : ConfigDataMap T C) (node : Text × Yaml) : ConfigDataMap T C :=
  if node.1 = [] then datas
  else
    match getDataBase datas node.1 with
    | none => datas
    | some item =>
      Function.update datas node.1 (some (loadItem emit fromStr throws node.1 item node.2))

def parseFromYaml (node : Yaml) (datas : ConfigDataMap T C) : ConfigDataMap T C :=
  match convertYamlToVector [] node [] with
  -- the exception is logged
  | .error _ => datas
  | .ok allNodes => allNodes.foldl (loadNode emit fromStr throws) datas

end Load

/-- The descendants whose lower-cased path is `name`, in document order. -/
def nodesAt (path : List Text → Text) (node : Yaml) (name : Text) : List Yaml :=
  (node.descendants []).filterMap fun d => if toLower (path d.1) = name then some d.2 else none

variable {emit : Yaml → Text} {fromStr : (name : Text) → Text → Option (T name)}
  {throws : (name : Text) → Throws (T name) C}

/-- The value that an item has after `fromString`. -/
def loadedValue (fromStr : (name : Text) → Text → Option (T name))
    (throws : (name : Text) → Throws (T name) C) (name : Text) (item : ConfigData (T name) C)
    (text : Text) : T name :=
  match fromStr name text with
  | none => item.data
  | some value =>
    if item.cbs.all (fun it => !throws name it.2 item.data value) then value else item.data

/-- An item takes the converted value; a conversion that fails leaves it as it was, and so does a
    callback that throws.  The callbacks stay registered. -/
theorem loadItem_eq (name : Text) (item : ConfigData (T name) C) (node : Yaml) :
    loadItem emit fromStr throws name item node =
      { item with data := loadedValue fromStr throws name item (nodeText emit node) } := by
  rw [loadItem, ConfigData.fromString, loadedValue]
  cases fromStr name (nodeText emit node) with
  | none => rfl
  | some value =>
    have hdata := item.setData_data (throws name) value
    have hcbs : (item.setData (throws name) value).2.1.cbs = item.cbs := item.setData_cbs value
    dsimp only
    rw [← hdata, ← hcbs]

/-- A node loads the item of its own name only. -/
theorem loadNode_other {datas : ConfigDataMap T C} {node : Text × Yaml} {name : Text}
    (h : name ≠ node.1) : loadNode emit fromStr throws datas node name = datas name := by
  rw [loadNode]
  by_cases hkey : node.1 = []
  · rw [if_pos hkey]
  · rw [if_neg hkey]
    cases getDataBase datas node.1 with
    | none => rfl
    | some item => exact Function.update_of_ne h _ _

/-- A node without a name loads nothing. -/
theorem loadNode_nil {datas : ConfigDataMap T C} {node : Text × Yaml} :
    loadNode emit fromStr throws datas node [] = datas [] := by
  by_cases h : node.1 = []
  · rw [loadNode, if_pos h]
  · exact loadNode_other (Ne.symm h)

/-- A node loads the item that is registered under its name. -/
theorem loadNode_self {datas : ConfigDataMap T C} {node : Yaml} {name : Text} (h : name ≠ []) :
    loadNode emit fromStr throws datas (name, node) name =
      (datas name).map fun item => loadItem emit fromStr throws name item node := by
  rw [loadNode, if_neg h, getDataBase]
  cases hitem : datas name with
  | none => exact hitem
  | some item => exact Function.update_self ..

/-- What the loop does to one item: only the nodes of its name count. -/
theorem foldl_loadNode {name : Text} (hname : name ≠ []) (nodes : List (Text × Yaml))
    (datas : ConfigDataMap T C) :
    nodes.foldl (loadNode emit fromStr throws) datas name =
      (datas name).map fun item =>
        (nodes.filterMap fun n => if n.1 = name then some n.2 else none).foldl
          (loadItem emit fromStr throws name) item := by
  -- by induction on the nodes: only those under the name matter
  induction nodes generalizing datas with
  | nil => exact Option.map_id'.symm
  | cons node nodes ih =>
    obtain ⟨key, value⟩ := node
    rw [List.foldl_cons, ih]
    by_cases hkey : key = name
    · subst hkey
      have hcons : ((key, value) :: nodes).filterMap
          (fun n => if n.1 = key then some n.2 else none) =
          value :: nodes.filterMap fun n => if n.1 = key then some n.2 else none :=
        List.filterMap_cons_some (if_pos rfl)
      rw [loadNode_self hname, Option.map_map, hcons]
      rfl
    · have hcons : ((key, value) :: nodes).filterMap
          (fun n => if n.1 = name then some n.2 else none) =
          nodes.filterMap fun n => if n.1 = name then some n.2 else none :=
        List.filterMap_cons_none (if_neg hkey)
      rw [loadNode_other (Ne.symm hkey), hcons]

/-- Nor do many of them. -/
theorem foldl_loadNode_nil (nodes : List (Text × Yaml)) (datas : ConfigDataMap T C) :
    nodes.foldl (loadNode emit fromStr throws) datas [] = datas [] := by
  induction nodes generalizing datas with
  | nil => rfl
  | cons node nodes ih => rw [List.foldl_cons, ih, loadNode_nil]

/-- The nodes of a name, read off the list of all nodes. -/
theorem nodesAt_named (node : Yaml) (name : Text) :
    ((node.descendants []).map named).filterMap
        (fun n => if n.1 = name then some n.2 else none) = nodesAt dottedPath node name :=
  List.filterMap_map ..

/-- One invalid path, and nothing is loaded. -/
theorem parseFromYaml_of_invalid {node : Yaml} (h : ¬ ∀ d ∈ node.descendants [], ValidPath d.1)
    (datas : ConfigDataMap T C) : parseFromYaml emit fromStr throws node datas = datas := by
  have hroot : toLower [] = toLower (dottedPath []) := by decide
  have hconv := convertYamlToVector_toOption hroot node []
  rw [if_neg h] at hconv
  obtain ⟨e, he⟩ := toOption_eq_none.mp hconv
  rw [parseFromYaml, he]

/-- A tree whose paths are valid loads each item with the nodes of its name, in order. -/
theorem parseFromYaml_of_valid {node : Yaml} (h : ∀ d ∈ node.descendants [], ValidPath d.1)
    (datas : ConfigDataMap T C) (name : Text) :
    parseFromYaml emit fromStr throws node datas name =
      if name = [] then datas name
      else (datas name).map fun item =>
        (nodesAt dottedPath node name).foldl (loadItem emit fromStr throws name) item := by
  have hroot : toLower [] = toLower (dottedPath []) := by decide
  -- all paths are valid, so the conversion lists all nodes
  have hconv := convertYamlToVector_toOption hroot node []
  rw [if_pos h] at hconv
  rw [parseFromYaml, toOption_eq_some.mp hconv]
  by_cases hname : name = []
  · subst hname
    rw [if_pos rfl]
    exact foldl_loadNode_nil _ _
  · rw [if_neg hname, ← nodesAt_named]
    exact foldl_loadNode hname _ _

/-- **Loading a document.**  If a path is invalid, no item changes.  Otherwise each item with a
    non-empty name takes, in document order, the text of every node whose path is its name, as far as
    it converts and no callback of the item throws; an item that no path names is unchanged. -/
theorem parseFromYaml_eq (emit : Yaml → Text) (fromStr : (name : Text) → Text → Option (T name))
    (throws : (name : Text) → Throws (T name) C) (node : Yaml) (datas : ConfigDataMap T C) :
    (parseFromYaml emit fromStr throws node datas =
      if ∀ d ∈ node.descendants [], ValidPath d.1 then
        fun name =>
          if name = [] then datas name
          else (datas name).map fun item =>
            (nodesAt dottedPath node name).foldl (loadItem emit fromStr throws name) item
      else datas) ∧
      (∀ name (item : ConfigData (T name) C) node, loadItem emit fromStr throws name item node =
        { item with data := loadedValue fromStr throws name item (nodeText emit node) }) ∧
      ∀ name, (∀ d ∈ node.descendants [], toLower (dottedPath d.1) ≠ name) →
        parseFromYaml emit fromStr throws node datas name = datas name := by
  by_cases hvalid : ∀ d ∈ node.descendants [], ValidPath d.1
  · refine ⟨?_, loadItem_eq, fun name hnone => ?_⟩
    · rw [if_pos hvalid]
      exact funext (parseFromYaml_of_valid hvalid datas)
    -- a name that no node has is left alone
    · have hnodes : nodesAt dottedPath node name = [] :=
        List.filterMap_eq_nil_iff.mpr fun d hd => if_neg (hnone d hd)
      rw [parseFromYaml_of_valid hvalid, hnodes]
      split
      · rfl
      · exact Option.map_id'
  · rw [if_neg hvalid, parseFromYaml_of_invalid hvalid]
    exact ⟨rfl, loadItem_eq, fun _ _ => rfl⟩

/-- The item of the empty name never takes a value, and a leading empty key does not count. -/
theorem parseFromYaml_emptyKey :
    let five : Text → Text → Option ℕ := fun _ str => if str = [53] then some 5 else none
    let only : Text → ConfigDataMap (fun _ => ℕ) ℕ :=
      fun name n => if n = name then some ⟨0, []⟩ else none
    -- `{"": 5}`
    let scalarTree : Yaml := .map [(.scalar [], .scalar [53])]
    -- `{"": {a: 5}}`
    let mapTree : Yaml := .map [(.scalar [], .map [(.scalar [97], .scalar [53])])]
    (∀ d ∈ scalarTree.descendants [], ∀ ch ∈ toLower (joined d.1), IsLowerNameChar ch) ∧
      parseFromYaml (fun _ => []) five (fun _ => .never) scalarTree (only []) [] = some ⟨0, []⟩ ∧
      (nodesAt joined scalarTree []).foldl (loadItem (fun _ => []) five (fun _ => .never) []) ⟨0, []⟩ =
        (⟨5, []⟩ : ConfigData ℕ ℕ) ∧
      (∀ d ∈ mapTree.descendants [], ∀ ch ∈ toLower (joined d.1), IsLowerNameChar ch) ∧
      nodesAt joined mapTree [97] = [] ∧
      parseFromYaml (fun _ => []) five (fun _ => .never) mapTree (only [97]) [97] = some ⟨5, []⟩ := by
  decide +kernel

end LoNetfw.Config
