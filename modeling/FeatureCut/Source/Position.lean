/-
  FeatureCut/Source/Position.lean
  ===============================
  **Places in a source text.**

  A `Point` counts lines and columns from one, columns in characters, and the
  bytes of UTF-8 before it from zero.  An `Extent` runs from one point up to
  another.
-/

namespace FeatureCut

/-! ### Points -/

/-- A place between two characters of a source. -/
structure Point where
  line : Nat
  column : Nat
  offset : Nat
deriving DecidableEq, Repr

/-- The number of bytes that UTF-8 takes for a text. -/
def byteLength : List Char → Nat
  | [] => 0
  | c :: cs => c.utf8Size + byteLength cs

def Point.start : Point := ⟨1, 1, 0⟩

/-- The place after a text that stays on the line. -/
def Point.advance (p : Point) (cs : List Char) : Point :=
  ⟨p.line, p.column + cs.length, p.offset + byteLength cs⟩

def Point.newLine (p : Point) (cs : List Char) : Point :=
  ⟨p.line + 1, 1, p.offset + byteLength cs⟩

/-- A point is written `line:column (offset)`. -/
def Point.render (p : Point) : String :=
  toString p.line ++ ":" ++ toString p.column ++ " (" ++ toString p.offset ++ ")"

@[simp] theorem byteLength_nil : byteLength [] = 0 := rfl

@[simp] theorem byteLength_append (a b : List Char) :
    byteLength (a ++ b) = byteLength a + byteLength b := by
  induction a with
  | nil => simp
  | cons c a ih => simp [byteLength, ih, Nat.add_assoc]

/-- Going over two texts one after the other is going over both at once. -/
theorem Point.advance_append (p : Point) (a b : List Char) :
    p.advance (a ++ b) = (p.advance a).advance b := by
  simp [Point.advance, Nat.add_assoc]

/-! ### Extents -/

structure Extent where
  start : Point
  stop : Point
deriving DecidableEq, Repr

def Extent.render (e : Extent) : String :=
  toString e.start.line ++ ":" ++ toString e.start.column ++ "-" ++
    toString e.stop.line ++ ":" ++ toString e.stop.column ++ " (" ++
    toString e.start.offset ++ "-" ++ toString e.stop.offset ++ ")"

end FeatureCut
