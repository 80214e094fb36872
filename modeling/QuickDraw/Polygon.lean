import QuickDraw.Record

/-!
# Polygons

A polygon record holds a bounding box and the vertices, as many as its size
has room for.
-/

namespace QuickDraw

structure Polygon where
  bbox : Rect
  points : List (Point Int)
  deriving DecidableEq, Repr

namespace Polygon

/-- Vertices from words, the vertical coordinate first; an incomplete one is dropped. -/
def vertices : List Int → List (Point Int)
  | v :: h :: rest => ⟨h, v⟩ :: vertices rest
  | _ => []

def readBody : Read Polygon := do
  let bbox ← Read.rect
  let ws ← Read.signedWords
  pure ⟨bbox, vertices ws⟩

/-- A polygon record, from its size word on. -/
def read : Read Polygon := Read.selfSized .polygonSize readBody

end Polygon

end QuickDraw
