import BranchBound.Tree.Node

/-!
# Search trees

All nodes of a search in the order of their creation; the position of a node is its number. Parents
come before their children and are one level higher, so the path of a node has as many steps as its
depth says.
-/

namespace BranchBound

/-- The nodes of a search. -/
structure Tree (α : Type) where
  nodes : Array (Node α)

namespace Tree

variable {α : Type}

/-- The tree without nodes. -/
def empty : Tree α := ⟨#[]⟩

/-- Number of nodes. -/
def size (t : Tree α) : Nat := t.nodes.size

/-- A node by its number. -/
def get? (t : Tree α) (id : Nat) : Option (Node α) := t.nodes[id]?

/-- Adds a root. -/
def addRoot [Scalar α] (t : Tree α) : Tree α := ⟨t.nodes.push .root⟩

/-- Adds a child of a node; nothing if there is no such node. -/
def addChild? (t : Tree α) (parent : Nat) (branch : Branch α) : Option (Tree α) :=
  (t.get? parent).map fun node => ⟨t.nodes.push (node.child t.size branch)⟩

/-- Changes a node. -/
def modify (t : Tree α) (id : Nat) (f : Node α → Node α) : Tree α := ⟨t.nodes.modify id f⟩

@[simp]
theorem size_modify (t : Tree α) (id : Nat) (f : Node α → Node α) :
    (t.modify id f).size = t.size := by
  simp [size, modify]

/-- A change is seen at its own node only. -/
theorem get?_modify (t : Tree α) (id k : Nat) (f : Node α → Node α) :
    (t.modify id f).get? k = if id = k then (t.get? k).map f else t.get? k := by
  simp [get?, modify, Array.getElem?_modify]

/-- A child needs an existing parent and nothing else. -/
theorem addChild?_eq_none_iff {t : Tree α} {parent : Nat} {branch : Branch α} :
    t.addChild? parent branch = none ↔ t.size ≤ parent := by
  simp [addChild?, get?, size]

/-- A child is the newest node, and the others stay as they are. -/
theorem get?_addChild? {t u : Tree α} {parent : Nat} {branch : Branch α} {node : Node α}
    (hnode : t.get? parent = some node) (h : t.addChild? parent branch = some u) (k : Nat) :
    u.get? k = if k = t.size then some (node.child t.size branch) else t.get? k := by
  simp only [addChild?, hnode, Option.map_some, Option.some.injEq] at h
  subst h
  simp only [get?, size]
  exact Array.getElem?_push

/-- The branches met on `steps` steps from a node toward the root. -/
def climb (t : Tree α) : (steps id : Nat) → List (Branch α)
  | 0, _ => []
  | steps + 1, id =>
    match t.get? id with
    | none => []
    | some node =>
      node.branch.toList ++
        match node.parent with
        | none => []
        | some parent => t.climb steps parent

/-- The branches from a node to the root, nearest first. -/
def path? (t : Tree α) (id : Nat) : Option (List (Branch α)) :=
  (t.get? id).map fun node => t.climb node.depth id

/-- The box of a node: its path replayed over the box of the root. -/
def box? [Scalar α] (t : Tree α) (id : Nat) (root : Box α) : Option (Box α) := do
  (← t.path? id).foldlM (fun box branch => branch.restrict? box) root

end Tree

end BranchBound
