import Morphology.Pixel.Basic
import Morphology.Shape.Raster

/-!
Grids: one value for each position of a shape, in row-major order.
-/

namespace Morphology

/-- More elements than there are nonnegative signed words do not fit in memory. -/
def Grid.limit : Nat := Word.half

structure Grid (α : Type) where
  shape : Shape
  len_lt : shape.len < Grid.limit
  data : Vector α shape.len

namespace Grid

variable {α β γ : Type}

def dims (g : Grid α) : List Nat := g.shape.dims

/-- A shape that a grid can have. -/
def shapeOf (dims : List Nat) : Except GridError { s : Shape // s.len < limit } :=
  match Shape.ofDims dims with
  | .error e => .error e
  | .ok s => if h : s.len < limit then .ok ⟨s, h⟩ else .error (.tooLarge dims)

def filled (dims : List Nat) (value : α) : Except GridError (Grid α) :=
  match shapeOf dims with
  | .error e => .error e
  | .ok s => .ok ⟨s.1, s.2, Vector.replicate s.1.len value⟩

def blank [Pixel α] (dims : List Nat) : Except GridError (Grid α) :=
  filled dims Pixel.zero

/-- The length is compared before the size is. -/
def ofList (dims : List Nat) (values : List α) : Except GridError (Grid α) :=
  match Shape.ofDims dims with
  | .error e => .error e
  | .ok s =>
      if h : values.length = s.len then
        if small : s.len < limit then .ok ⟨s, small, ⟨values.toArray, by simpa using h⟩⟩
        else .error (.tooLarge dims)
      else .error (.dataLengthMismatch dims s.len values.length)

/-- The first row sets the width; without rows there is no grid. -/
def ofRows (rows : List (List α)) : Except GridError (Grid α) :=
  let width := (rows.head?.map List.length).getD 0
  match rows.find? fun row => row.length ≠ width with
  | some row => .error (.unevenRows row.length width)
  | none => ofList [rows.length, width] rows.flatten

/-- Asks for the value at each position, in row-major order. -/
def ofFnM {m : Type → Type} [Monad m] (dims : List Nat) (f : List Nat → m α) :
    m (Except GridError (Grid α)) :=
  match shapeOf dims with
  | .error e => pure (.error e)
  | .ok s => do
      let data ← s.1.raster.mapM f
      pure (.ok ⟨s.1, s.2, data⟩)

/-! ## Reading -/

def get? (g : Grid α) (coords : List Nat) : Option α :=
  (g.shape.indexOf? coords).bind fun index => g.data[index]?

def getLinear? (g : Grid α) (index : Nat) : Option α := g.data[index]?

def getNeighbor? (g : Grid α) (coords : List Nat) (offset : List Int) : Option α :=
  (g.shape.neighborIndex? coords offset).bind fun index => g.data[index]?

def first (g : Grid α) : α :=
  have := g.shape.len_pos
  g.data[0]

def sameShape (g : Grid α) (h : Grid β) : Bool := g.shape = h.shape

section Ordered

variable [Pixel α]

def minValue (g : Grid α) : α := g.data.foldl Pixel.minOf g.first

def maxValue (g : Grid α) : α := g.data.foldl Pixel.maxOf g.first

def countValue (g : Grid α) (value : α) : Nat := g.data.countP (Pixel.eq · value)

/-- Grids of one shape whose elements compare equal. -/
def eq (g h : Grid α) : Bool :=
  g.sameShape h && (g.data.toList.zip h.data.toList).all fun (a, b) => Pixel.eq a b

end Ordered

/-! ## Writing -/

/-- A grid of the same layout with other values. -/
def withData (g : Grid α) (data : Vector α g.shape.len) : Grid α :=
  { g with data }

def set (g : Grid α) (coords : List Nat) (value : α) : Except GridError (Grid α) :=
  match g.shape.indexOf? coords with
  | none => .error (.indexOutOfBounds coords g.dims)
  | some index => .ok { g with data := g.data.setIfInBounds index value }

def setLinear? (g : Grid α) (index : Nat) (value : α) : Option (Grid α) :=
  if h : index < g.shape.len then some { g with data := g.data.set index value } else none

def map (f : α → β) (g : Grid α) : Grid β := ⟨g.shape, g.len_lt, g.data.map f⟩

def zipWith (f : α → β → γ) (g : Grid α) (h : Grid β) : Except GridError (Grid γ) :=
  if same : g.shape = h.shape then
    .ok ⟨g.shape, g.len_lt, g.data.zipWith f (h.data.cast (by rw [same]))⟩
  else .error (.shapeMismatch g.dims h.dims)

/-- Asks for a new value at each boundary position, in row-major order, and leaves the inside. -/
def updateBoundaryM {m : Type → Type} [Monad m] (g : Grid α) (f : List Nat → α → m α) :
    m (Grid α) := do
  let update (data : Vector α g.shape.len) (site : Site g.shape) : m (Vector α g.shape.len) :=
    if g.shape.isBoundary site.coords then do
      let value ← f site.coords (data.get site.index)
      pure (data.set site.index value site.index.isLt)
    else pure data
  let data ← g.shape.sites.foldlM update g.data
  pure { g with data }

def updateBoundary (g : Grid α) (f : List Nat → α → α) : Grid α :=
  Id.run (g.updateBoundaryM fun coords value => pure (f coords value))

end Grid

end Morphology
