import QuickDraw.Read

/-!
# Self-sized records

Regions and polygons open with a word that counts the whole record, itself
included, and a bounding box. `selfSized` reads such a record through a window
of exactly its size, so that the cursor ends behind it whatever it holds.
-/

namespace QuickDraw

/-- Size word and bounding box. -/
def recordHeaderSize : Nat := 10

namespace Read

/-- The size word of a record whose bytes are all there; otherwise nothing is read. -/
def recordSize : Read Nat := atomic do
  let size ← word
  need (size - 2)
  pure size

/-- Reads a record of its own size with `body`. One too short for its header is stepped over
and reported with `tooShort`. -/
def selfSized {α : Type} (tooShort : Nat → GeometryFault) (body : Read α) : Read α := do
  let size ← recordSize
  if size < recordHeaderSize then
    skip (size - 2)
    throw (.geometry (tooShort size))
  else within (size - 2) body

/-- The signed words from here to the end of the window. -/
def signedWords : Read (List Int) := do
  let c ← here
  let rest ← bytes c.remaining
  pure ((BigEndian.words rest.toList).map BigEndian.signed16)

end Read

end QuickDraw
