import FlexStyle.Binary

/-!
# Dimensions and edges

The sizes in a box record, alone and as quads of the four sides. They are compared by `==`, which
compares the numbers in them as numbers.

- `Dimension`: a size that may be left open.
- `Edges`: the four sides of one edge of a box; `Edges.get` and `Edges.set` reach one side.
-/

namespace FlexStyle

/-- A size as the layout takes it. -/
inductive Dimension where
  /-- Not given; the layout has its own default. -/
  | undefined
  | points (x : Single)
  /-- A share of a hundred of the surrounding block. -/
  | percent (x : Single)
  | auto
  deriving DecidableEq

namespace Dimension

def beq : Dimension → Dimension → Bool
  | points x, points y => x == y
  | percent x, percent y => x == y
  | d, e => d = e

instance : BEq Dimension := ⟨beq⟩

end Dimension

/-- The sides of a box. -/
inductive Side where
  | top
  | right
  | bottom
  | left
  deriving DecidableEq

namespace Side

def all : List Side := [top, right, bottom, left]

def name : Side → String
  | top => "top"
  | right => "right"
  | bottom => "bottom"
  | left => "left"

end Side

/-- One dimension for each side. -/
structure Edges where
  top : Dimension
  right : Dimension
  bottom : Dimension
  left : Dimension
  deriving DecidableEq

namespace Edges

instance : BEq Edges :=
  ⟨fun a b => a.top == b.top && a.right == b.right && a.bottom == b.bottom && a.left == b.left⟩

/-- The same dimension on all sides. -/
def uniform (d : Dimension) : Edges := ⟨d, d, d, d⟩

def get (edges : Edges) : Side → Dimension
  | .top => edges.top
  | .right => edges.right
  | .bottom => edges.bottom
  | .left => edges.left

def set (edges : Edges) (side : Side) (d : Dimension) : Edges :=
  match side with
  | .top => { edges with top := d }
  | .right => { edges with right := d }
  | .bottom => { edges with bottom := d }
  | .left => { edges with left := d }

/--
One to four dimensions, as a shorthand lists them: all sides; top and bottom, then the others; top,
right and left, bottom; or all four, clockwise from the top.
-/
def ofList? : List Dimension → Option Edges
  | [all] => some (uniform all)
  | [vertical, horizontal] => some ⟨vertical, horizontal, vertical, horizontal⟩
  | [top, horizontal, bottom] => some ⟨top, horizontal, bottom, horizontal⟩
  | [top, right, bottom, left] => some ⟨top, right, bottom, left⟩
  | _ => none

end Edges

end FlexStyle
