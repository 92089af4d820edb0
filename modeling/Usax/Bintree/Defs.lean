import Mathlib

/-!
# AVL trees

`avl_bintree.c` and the files it includes. A subtree is what a slot (`root_obj_ref`, `&node->left_obj`, `&node->right_obj`)
points to: `NULL`, or an object with its `struct bintree_node`. The stack of slots that `insert` and `remove` build is a list
of frames, each the node that a slot belongs to with its other child, the latest first; the slot of the root has no frame.
The stack has `MAX_TREE_HEIGHT` entries, and `none` is a run that writes past it.

A comparison is given by its results on the objects of the tree: `c x` is `CMP(x, obj_or_value)`.
-/

namespace Usax.Bintree

def maxTreeHeight : Nat := 32

/-- What a slot points to, with the `height` of the node. -/
inductive Tree (α : Type) where
  | nil
  | node (obj : α) (height : Nat) (left right : Tree α)
deriving DecidableEq, Repr

variable {α : Type}

namespace Tree

/-- An object whose node was set up by `bintree_node_init`. -/
def new (x : α) : Tree α := node x 0 nil nil

def height : Tree α → Int
  | nil => -1
  | node _ h _ _ => h

def leftOf : Tree α → Tree α
  | nil => nil
  | node _ _ l _ => l

def rightOf : Tree α → Tree α
  | nil => nil
  | node _ _ _ r => r

/-! ## Balancing -/

def updateHeight : Tree α → Tree α
  | nil => nil
  | node x _ l r => node x (((max l.height r.height % 2 ^ 16).toNat + 1) % 2 ^ 16) l r

def rotateLeftChild : Tree α → Tree α
  | node x h (node y hy ll lr) r => updateHeight (node y hy ll (updateHeight (node x h lr r)))
  | t => t

def rotateRightChild : Tree α → Tree α
  | node x h l (node y hy rl rr) => updateHeight (node y hy (updateHeight (node x h l rl)) rr)
  | t => t

def balance : Tree α → Tree α
  | nil => nil
  | node x h l r =>
    updateHeight <|
      if l.height - r.height > 1 then
        if l.leftOf.height ≥ l.rightOf.height then rotateLeftChild (node x h l r)
        else rotateLeftChild (node x h (rotateRightChild l) r)
      else if l.height - r.height < -1 then
        if r.rightOf.height ≥ r.leftOf.height then rotateRightChild (node x h l r)
        else rotateRightChild (node x h l (rotateLeftChild r))
      else node x h l r

end Tree

/-! ## Paths -/

/-- The node that a slot belongs to: the slot is its left or its right link. -/
inductive Frame (α : Type) where
  | left (obj : α) (height : Nat) (right : Tree α)
  | right (obj : α) (height : Nat) (left : Tree α)
deriving DecidableEq, Repr

def Frame.plug : Frame α → Tree α → Tree α
  | left x h r, t => .node x h t r
  | right x h l, t => .node x h l t

/-- `AVL_BUILD_PATH_TO_OBJ`, with the number of entries that are left on the stack: the frames and what the last slot
points to. -/
def buildPath (c : α → Int) : (slots : Nat) → List (Frame α) → Tree α → Option (List (Frame α) × Tree α)
  | 0, _, _ => none
  | _ + 1, fs, .nil => some (fs, .nil)
  | slots + 1, fs, .node x h l r =>
    if c x = 0 then some (fs, .node x h l r)
    else if c x < 0 then buildPath c slots (.right x h l :: fs) r
    else buildPath c slots (.left x h r :: fs) l

/-- `BALANCE` of every slot of the stack, from the last one on. -/
def unwind : List (Frame α) → Tree α → Tree α
  | [], t => t.balance
  | f :: fs, t => unwind fs (f.plug t.balance)

/-- The loop of `bintree_remove_internal_aux` that looks for the successor: the frames, the successor with its height and
its right child. -/
def successorPath : (slots : Nat) → List (Frame α) → Tree α → Option (List (Frame α) × α × Nat × Tree α)
  | 0, _, _ => none
  | _, _, .nil => none
  | _ + 1, fs, .node y hy .nil r => some (fs, y, hy, r)
  | slots + 1, fs, .node y hy (.node z hz zl zr) r => successorPath slots (.left y hy r :: fs) (.node z hz zl zr)

/-! ## The operations -/

/-- `bintree_find_internal`. -/
def find (c : α → Int) : Tree α → Option α
  | .nil => none
  | .node x _ l r => if c x = 0 then some x else if c x < 0 then find c r else find c l

/-- `bintree_insert_internal`. -/
def insert (c : α → Int) (x : α) (t : Tree α) : Option (Tree α × Bool) :=
  match t with
  | .nil => some (.new x, true)
  | t => do
    let (fs, dest) ← buildPath c maxTreeHeight [] t
    match dest with
    | .node .. => return (t, false)
    | .nil => return (unwind fs (.new x), true)

/-- `bintree_remove_internal_aux`, for a slot that points to a node with the given children. -/
def removeAux (fs : List (Frame α)) (l r : Tree α) : Option (Tree α) :=
  match l, r with
  | .node .., .node .. => do
    let (gs, y, hy, s) ← successorPath (maxTreeHeight - (fs.length + 1)) [] r
    return unwind fs (.node y hy l (unwind gs s))
  | .node .., .nil => some (unwind fs l)
  | .nil, r => some (unwind fs r)

/-- `bintree_remove_internal`. -/
def remove (c : α → Int) (t : Tree α) : Option (Tree α × Option α) := do
  let (fs, top) ← buildPath c maxTreeHeight [] t
  match top with
  | .nil => return (t, none)
  | .node x _ l r => return (← removeAux fs l r, some x)

end Usax.Bintree
