/-!
# Forests

An ordered forest of names, as a row of trees: the root of the first tree, the trees beneath it, and
the trees beside it. No name can be beneath itself.

- `Forest.path?`: a name and all that is above it.
- `Forest.beneath?`: the trees beneath a name.
- `Forest.prune`, `Forest.graft`: taking a tree out, and putting one beneath a name.
-/

namespace FlexStyle

/-- A row of trees with a name at each root. -/
inductive Forest (α : Type) where
  | nil
  | tree (root : α) (beneath beside : Forest α)
  deriving DecidableEq

namespace Forest

variable {α : Type}

/-- The names, each before those beneath it. -/
def toList : Forest α → List α
  | nil => []
  | tree root beneath beside => root :: (beneath.toList ++ beside.toList)

/-- Two rows of trees as one. -/
def append : Forest α → Forest α → Forest α
  | nil, row => row
  | tree root beneath beside, row => tree root beneath (beside.append row)

instance : Append (Forest α) := ⟨append⟩

/-- The roots of the trees in the row. -/
def roots : Forest α → List α
  | nil => []
  | tree root _ beside => root :: beside.roots

variable [DecidableEq α]

/-- A name, the one above it, and so on up to a root. -/
def path? (name : α) : Forest α → Option (List α)
  | nil => none
  | tree root beneath beside =>
    if root = name then some [root]
    else
      match beneath.path? name with
      | some path => some (path ++ [root])
      | none => beside.path? name

/-- A name and all that is above it; nothing if the name does not occur. -/
def path (forest : Forest α) (name : α) : List α := (forest.path? name).getD []

/-- The name directly above another one. -/
def parent? (forest : Forest α) (name : α) : Option α := (forest.path name)[1]?

/-- How many names are above a name, itself included. -/
def depth (forest : Forest α) (name : α) : Nat := (forest.path name).length

/-- The trees beneath a name. -/
def beneath? (name : α) : Forest α → Option (Forest α)
  | nil => none
  | tree root beneath beside =>
    if root = name then some beneath
    else
      match beneath.beneath? name with
      | some found => some found
      | none => beside.beneath? name

/-- The tree whose root is a name. -/
def treeAt (forest : Forest α) (name : α) : Forest α :=
  match forest.beneath? name with
  | some beneath => tree name beneath nil
  | none => nil

/-- The forest without a name and all that is beneath it. -/
def prune (name : α) : Forest α → Forest α
  | nil => nil
  | tree root beneath beside =>
    if root = name then beside else tree root (beneath.prune name) (beside.prune name)

/-- The forest with a row of trees added beneath a name, after those that are there. -/
def graft (name : α) : Forest α → Forest α → Forest α
  | nil, _ => nil
  | tree root beneath beside, row =>
    if root = name then tree root (beneath ++ row) beside
    else tree root (beneath.graft name row) (beside.graft name row)

end Forest

end FlexStyle
