import QuickDraw.PackBits.Encode
import QuickDraw.PackBits.Grammar
import QuickDraw.Proofs.Atomicity
import QuickDraw.Proofs.Completeness
import QuickDraw.Proofs.Displacement
import QuickDraw.Proofs.Drafts
import QuickDraw.Proofs.Figures
import QuickDraw.Proofs.Independence
import QuickDraw.Proofs.Limits
import QuickDraw.Proofs.PageOrigin
import QuickDraw.Proofs.Preambles
import QuickDraw.Proofs.Protocol
import QuickDraw.Proofs.Repetition
import QuickDraw.Proofs.Setbacks
import QuickDraw.Proofs.States
import QuickDraw.Proofs.Strictness
import QuickDraw.Proofs.Synchrony
import QuickDraw.Proofs.Truncation
import QuickDraw.Proofs.Writes
import QuickDraw.Svg.Canvas
import QuickDraw.PackBits.Loop
import QuickDraw.Proofs.PackedRows
import QuickDraw.Svg.Drawing
import QuickDraw.Svg.Writers
import QuickDraw.Proofs.Markup
import QuickDraw.Proofs.Documents
import QuickDraw.PackBits.Writer
import QuickDraw.Proofs.Agreement
import QuickDraw.Proofs.Packing
import QuickDraw.Proofs.Bitmaps
import QuickDraw.Proofs.Means
import QuickDraw.Cursor.Operation
import QuickDraw.Proofs.Cursors
import QuickDraw.Proofs.Delimiters
import QuickDraw.Proofs.Scanlines
import QuickDraw.Proofs.EvenOdd
import QuickDraw.Turns
import QuickDraw.Proofs.Sweeps
import QuickDraw.Geometry.SpanLoop
import QuickDraw.Proofs.Progress
import QuickDraw.Proofs.Uniformity
import QuickDraw.Proofs.Safety
import QuickDraw.Text.Entity
import QuickDraw.Proofs.Escapes
import QuickDraw.Proofs.Palettes
