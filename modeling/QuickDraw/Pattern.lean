import QuickDraw.Guarded
import QuickDraw.Raster.Pixmap

/-!
# Patterns

A pattern is a cell of eight by eight bits, painted in the foreground and
background colours of the moment, or a cell of colours. Coloured patterns keep
a bit cell beside them.
-/

namespace QuickDraw

/-- Eight rows of eight bits, the most significant bit first. -/
abbrev Cell := Vector UInt8 8

namespace Cell

/-- The cell of eight bytes; missing ones are zero. -/
def ofBytes (bytes : Array UInt8) : Cell := Vector.ofFn fun i => bytes.getD i 0

/-- Whether the bit in column `x` and row `y` is set; the cell repeats in both directions. -/
def bit (c : Cell) (x y : Nat) : Bool :=
  (c.get ⟨y % 8, Nat.mod_lt _ (by decide)⟩).toNat.testBit (7 - x % 8)

/-- Every byte of the cell is `b`. -/
def IsAll (c : Cell) (b : UInt8) : Prop := c = Vector.replicate 8 b

instance (c : Cell) (b : UInt8) : Decidable (c.IsAll b) := inferInstanceAs (Decidable (_ = _))

end Cell

/-- A coloured cell, row by row. -/
structure Tile where
  width : Nat
  height : Nat
  pixels : Array Rgb
  deriving DecidableEq, Repr

def Tile.pixel? (t : Tile) (x y : Nat) : Option Rgb := t.pixels[y * t.width + x]?

inductive Pattern where
  /-- Set bits in the foreground colour, clear bits in the background colour. -/
  | mono (cell : Cell)
  /-- One colour. -/
  | solid (cell : Cell) (color : Rgb)
  /-- A cell of colours. -/
  | pixel (cell : Cell) (tile : Tile)
  deriving DecidableEq, Repr

namespace Pattern

def black : Pattern := mono (Vector.replicate 8 0xFF)

def white : Pattern := mono (Vector.replicate 8 0)

def cell : Pattern → Cell
  | mono c => c
  | solid c _ => c
  | pixel c _ => c

/-! ### Reading -/

def readCell : Read Cell := Cell.ofBytes <$> Read.bytes 8

/-- Eight bytes of bits. -/
def readMono : Read Pattern := mono <$> readCell

/-- The pattern of a decoded pixel map. -/
def ofPixmap (cell : Cell) (p : Pixmap) : Pattern :=
  let rows := (Array.range p.height).map fun y =>
    (Array.range p.width).map fun x => (p.color? x y).getD Rgb.black
  pixel cell ⟨p.width, p.height, rows.flatten⟩

/-- A pixel pattern: a kind, a cell of bits, and for kind 1 a pixel map, for kind 2 a colour.
A pixel map that cannot be decoded leaves the bits. -/
def readPixel : Read Pattern := do
  Read.need 10
  let kind ← Read.word
  let cell ← readCell
  match kind with
  | 1 =>
    let rowWord ← Read.word
    let record ← Pixmap.Record.read rowWord Pixmap.Layout.pattern
    match record.decode with
    | .ok p => pure (ofPixmap cell p)
    | .error _ => pure (mono cell)
  | 2 => solid cell <$> Read.rgb
  | _ => pure (mono cell)

/-! ### Painting -/

/-- The coloured cell that the pattern paints. -/
def tile (p : Pattern) (foreground background : Rgb) : Tile :=
  match p with
  | mono c =>
    ⟨8, 8, (Array.range 64).map fun i => if c.bit (i % 8) (i / 8) then foreground else background⟩
  | solid _ color => ⟨1, 1, #[color]⟩
  | pixel _ tile => tile

/-- The one colour that the pattern paints, as far as its cell alone shows it. -/
def uniform? (p : Pattern) (foreground background : Rgb) : Option Rgb :=
  match p with
  | mono c =>
    if c.IsAll 0xFF then some foreground else if c.IsAll 0 then some background else none
  | solid _ color => some color
  | pixel _ tile =>
    match tile.pixels[0]? with
    | none => none
    | some first => if tile.pixels.all (· == first) then some first else none

/-- The channel sums `sums` with one pixel more. -/
def addPixel (sums : Nat × Nat × Nat) (c : Rgb) : Guarded (Nat × Nat × Nat) := do
  let r ← Guarded.longSum sums.1 c.r.toNat
  let g ← Guarded.longSum sums.2.1 c.g.toNat
  let b ← Guarded.longSum sums.2.2 c.b.toNat
  pure (r, g, b)

/-- Channel sums of some pixels, in words of 32 bits. -/
def channelSums (pixels : Array Rgb) : Guarded (Nat × Nat × Nat) :=
  pixels.foldlM addPixel (0, 0, 0)

/-- The mean colour of the painted cell, each channel rounded down. It is refused where a sum
passes its word. -/
def average (p : Pattern) (foreground background : Rgb) : Guarded Rgb := do
  let pixels := (p.tile foreground background).pixels
  let count := max 1 pixels.size % 0x100000000
  let (r, g, b) ← channelSums pixels
  let r ← Guarded.quotient r count
  let g ← Guarded.quotient g count
  let b ← Guarded.quotient b count
  pure ⟨UInt8.ofNat r, UInt8.ofNat g, UInt8.ofNat b⟩

/-- The pattern is plain foreground. -/
def IsForeground (p : Pattern) : Prop := p = black

instance (p : Pattern) : Decidable p.IsForeground := inferInstanceAs (Decidable (_ = _))

end Pattern

end QuickDraw
