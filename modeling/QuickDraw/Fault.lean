import QuickDraw.Geometry.Basic

/-!
# Faults

Why a picture, or one record of it, cannot be read. A fault keeps its cause;
`message` is the only place that words it.
-/

namespace QuickDraw

/-- The rectangles of a record that must have an area. -/
inductive RectRole where
  | bitmapBounds
  | bitmapSource
  | bitmapDestination
  | pixmapBounds
  | pixmapSource
  | pixmapDestination
  | shape
  deriving DecidableEq, Repr

def RectRole.name : RectRole → String
  | bitmapBounds => "bitmap bounds"
  | bitmapSource => "bitmap source"
  | bitmapDestination => "bitmap destination"
  | pixmapBounds => "pixmap bounds"
  | pixmapSource => "pixmap source"
  | pixmapDestination => "pixmap destination"
  | shape => "shape rectangle"

/-- Geometry that no drawing can use. -/
inductive GeometryFault where
  /-- A rectangle without area. -/
  | emptyRect (role : RectRole) (rect : Rect)
  /-- A region record shorter than its own header. -/
  | regionSize (size : Nat)
  /-- A polygon record shorter than its own header. -/
  | polygonSize (size : Nat)
  /-- A colour table with a negative entry count. -/
  | colorTableSize (size : Int)
  /-- A transfer mode past the last one known. -/
  | transferMode (mode : Nat)
  /-- Bitmap rows that hold fewer bits than the bitmap is wide. -/
  | narrowRows (rowBytes : Nat) (width : Int)
  /-- Pixel rows that hold fewer bits than their pixels need. -/
  | crowdedRows (width pixelSize rowBytes : Nat)
  /-- More pixels than are ever decoded. -/
  | tooManyPixels (width height : Nat)
  deriving DecidableEq, Repr

/-- A packed row that is not the row it claims to be. -/
inductive RunFault where
  /-- The runs end before the row is full. -/
  | exhausted (made size : Nat)
  /-- A repeat run without the byte to repeat. -/
  | missingByte
  /-- A repeat run longer than what is left of the row. -/
  | overflow (count size : Nat)
  /-- A literal run without a byte. -/
  | noLiteral
  /-- The row is full before the runs end. -/
  | leftOver (used total : Nat)
  /-- A field that could not be decoded, in its reader's words. -/
  | unreadable (text : String)
  deriving DecidableEq, Repr

/-- Why a read or a decode failed. -/
inductive Fault where
  /-- A read of `needed` bytes at `offset`, where `available` are left. -/
  | truncated (offset needed available : Nat)
  | geometry (cause : GeometryFault)
  | run (cause : RunFault)
  /-- Pixels of a size and component count that no layout covers. -/
  | pixelFormat (pixelSize components : Nat)
  /-- No picture header at either place where one may start. -/
  | noHeader
  deriving DecidableEq, Repr

def GeometryFault.message : GeometryFault → String
  | emptyRect role rect => role.name ++ " " ++ rect.describe ++ " is empty"
  | regionSize size => s!"region size {size} below header size"
  | polygonSize size => s!"polygon size {size}"
  | colorTableSize size => s!"colour table size {size}"
  | transferMode mode => s!"transfer mode {mode}"
  | narrowRows rowBytes width => s!"row bytes {rowBytes} too small for width {width}"
  | crowdedRows width pixelSize rowBytes =>
    s!"{width} pixels of {pixelSize} bits do not fit rows of {rowBytes} bytes"
  | tooManyPixels width height => s!"pixmap of {width}x{height} is too large"

def RunFault.message : RunFault → String
  | exhausted made size => s!"input exhausted after {made} of {size} bytes"
  | missingByte => "missing byte for repeat run"
  | overflow count size => s!"repeat run of {count} overflows row of {size}"
  | noLiteral => "not enough literal bytes"
  | leftOver used total => s!"consumed {used} of {total} packed bytes"
  | unreadable text => text

def Fault.message : Fault → String
  | truncated offset needed available =>
    s!"truncated input at offset {offset}: need {needed} bytes, {available} available"
  | geometry cause => "malformed geometry: " ++ cause.message
  | run cause => "malformed run: " ++ cause.message
  | pixelFormat pixelSize components =>
    s!"unknown pixel format: pixel size {pixelSize}, {components} components"
  | noHeader => "no PICT header found"

/-- A failure of the library as a whole, as its callers see it. -/
inductive Failure where
  | io (text : String)
  | parse (text : String)
  | invalidFormat (text : String)
  | picture (fault : Fault)
  | other (text : String)
  deriving DecidableEq, Repr

def Failure.message : Failure → String
  | io text => "IO error: " ++ text
  | parse text => "Parse error: " ++ text
  | invalidFormat text => "Invalid format: " ++ text
  | picture fault => "PICT error: " ++ fault.message
  | other text => text

end QuickDraw
