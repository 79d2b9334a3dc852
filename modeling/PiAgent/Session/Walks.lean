import PiAgent.Lib.Links
import PiAgent.Session.Tree

/-!
# The walks of a session file

Session files are parsed without validation: IDs may be missing from the file, stand in
it twice, and parents may form a loop. These are the walks of the session manager as the
code makes them, which keep no set of the entries they have been to. They get fuel, and
give nothing when it runs out.
-/

namespace PiAgent.Session

open Assoc

/-! ## To the root -/

/-- `id ? … : undefined`: an empty ID is no ID. -/
def truthyId : Option EntryId → Option EntryId
  | some id => if id.isEmpty then none else some id
  | none => none

/-- `current.parentId ? byId.get(current.parentId) : undefined` -/
def parentIn (index : Index) (entry : Entry) : Option Entry := (truthyId entry.parentId).bind (get? index)

/-- The `while (current)` loop, and the path turned around. -/
def walkPath (index : Index) (fuel : ℕ) (current : Option Entry) : Option (List Entry) :=
  (Links.follow (parentIn index) fuel current).map List.reverse

/-- The entry `buildSessionPath` starts from; `none` for no path at all. -/
def leafEntry (entries : List Entry) (leaf : Leaf) (index : Index) : Option Entry :=
  match leaf with
  | .root => none
  | .omitted => entries.getLast?
  | .at leafId => ((truthyId (some leafId)).bind (get? index)).or entries.getLast?

def walkSessionPath (entries : List Entry) (leaf : Leaf) (index : Index) (fuel : ℕ) : Option (List Entry) :=
  walkPath index fuel (leafEntry entries leaf index)

/-- The path is walked for the settings, and again for the entries of the context. -/
def walkSessionContext (entries : List Entry) (leaf : Leaf) (index : Index) (fuel : ℕ) : Option SessionContext :=
  (walkSessionPath entries leaf index fuel).bind (fun path =>
    let settings := getSessionContextSettings path
    (walkSessionPath entries leaf index fuel).map (fun path =>
      { messages := (projectPath path).messages, thinkingLevel := settings.thinkingLevel, model := settings.model }))

namespace Manager

variable (m : Manager)

def walkBranch (fuel : ℕ) (fromId : Option EntryId) : Option (List Entry) :=
  walkPath m.byId fuel ((truthyId (fromId.or m.leafId)).bind (get? m.byId))

def load (header : Header) (entries : List Entry) : Manager :=
  buildIndex { newSession false header with entries := entries }

end Manager

/-! ## The tree -/

/-- A `SessionTreeNode`. Its entry is an object of the file, known by its place there; its children are the nodes
under their IDs. -/
structure TreeNode where
  entry : Entry × ℕ
  children : List EntryId
  label : Option JsString
  labelTimestamp : Option Time

abbrev TreeNodes := List (EntryId × TreeNode)

namespace TreeNodes

variable (nodes : TreeNodes)

def childrenOf (id : EntryId) : List EntryId := ((get? nodes id).map TreeNode.children).getD []

/-- `parent.children.push(node)` -/
def pushChild (parentId id : EntryId) : TreeNodes :=
  match get? nodes parentId with
  | some parent => set nodes parentId { parent with children := parent.children ++ [id] }
  | none => nodes

def timestampOf (id : EntryId) : Time := ((get? nodes id).map (fun node => node.entry.1.timestamp)).getD 0

/-- `node.children.sort(…)`: oldest first. -/
def sortChildren (id : EntryId) : TreeNodes :=
  match get? nodes id with
  | some node =>
    set nodes id
      { node with children := node.children.mergeSort (fun a b => nodes.timestampOf a ≤ nodes.timestampOf b) }
  | none => nodes

/-- The loop that sorts, with the top of the stack first. -/
def sortAll : ℕ → TreeNodes → List EntryId → Option TreeNodes
  | _, nodes, [] => some nodes
  | 0, _, _ :: _ => none
  | fuel + 1, nodes, id :: stack =>
    let nodes := nodes.sortChildren id
    sortAll fuel nodes ((nodes.childrenOf id).reverse ++ stack)

end TreeNodes

namespace Manager

variable (m : Manager)

def treeNode (entry : Entry × ℕ) : TreeNode :=
  { entry := entry, children := [], label := get? m.labelsById entry.1.id
    labelTimestamp := get? m.labelTimestampsById entry.1.id }

def treeNodes (entries : List (Entry × ℕ)) : TreeNodes :=
  entries.foldl (fun nodes entry => set nodes entry.1.id (m.treeNode entry)) []

end Manager

/-- Where an entry goes: to the roots, or to the children of its parent. -/
def placeEntry (placed : TreeNodes × List EntryId) (entry : Entry) : TreeNodes × List EntryId :=
  let (nodes, roots) := placed
  match entry.parentId with
  | none => (nodes, roots ++ [entry.id])
  | some parentId =>
    if parentId = entry.id then (nodes, roots ++ [entry.id])
    else if has nodes parentId then (nodes.pushChild parentId entry.id, roots)
    -- an orphan is a root
    else (nodes, roots ++ [entry.id])

structure Forest where
  nodes : TreeNodes
  roots : List EntryId

def Manager.getTree (m : Manager) (fuel : ℕ) : Option Forest :=
  let (nodes, roots) := m.entries.foldl placeEntry (m.treeNodes m.entries.zipIdx, [])
  (TreeNodes.sortAll fuel nodes roots.reverse).map (fun nodes => ⟨nodes, roots⟩)

/-- The entries of a forest, each before those below it. -/
def Forest.entries (forest : Forest) (fuel : ℕ) : Option (List (Entry × ℕ)) :=
  (Links.listing forest.nodes.childrenOf fuel forest.roots).map
    (fun order => order.filterMap (fun id => (get? forest.nodes id).map TreeNode.entry))

/-! ## What is asked of the walks -/

/-- The walks end, the forest has every entry once, and a branch follows the parents. -/
structure Manager.WalksWell (m : Manager) : Prop where
  branch : ∀ fromId, ∃ fuel path, m.walkBranch fuel fromId = some path
  path : ∀ leaf, ∃ fuel path, walkSessionPath m.entries leaf m.byId fuel = some path
  context : ∀ leaf, ∃ fuel context, walkSessionContext m.entries leaf m.byId fuel = some context
  tree : ∃ fuel forest, m.getTree fuel = some forest ∧
    ∃ fuel' order, forest.entries fuel' = some order ∧ order.Perm m.entries.zipIdx
  nodup : ∀ fuel fromId path, m.walkBranch fuel fromId = some path → path.Nodup
  links : ∀ fuel fromId path, m.walkBranch fuel fromId = some path →
    ∀ before a b after, path = before ++ a :: b :: after → b.parentId = some a.id

/-- `b` is the parent of `a`. An entry with an empty ID that names itself is a root. -/
def ParentLink (entries : List Entry) (a b : Entry) : Prop :=
  b ∈ entries ∧ a.parentId = some b.id ∧ ¬ (a.id = [] ∧ b.id = [])

/-- Each entry has an ID of its own, and no entry is above itself. -/
structure LoopFree (entries : List Entry) : Prop where
  nodup : (ids entries).Nodup
  loopless : ∀ e ∈ entries, ¬ Relation.TransGen (ParentLink entries) e e

end PiAgent.Session
