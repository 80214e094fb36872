import QuickDraw.Text.Xml

/-!
# Text of pictures

Pictures hold text as bytes. What characters they are is for a decoder to say; a picture is read
with the decoder of the context, which is that of `MacRoman` where there is no other.
-/

namespace QuickDraw.Text

class Decoder where
  decode : Array UInt8 → String

/-- No text is decoded to a character that XML has no form for, but for controls, which are left
out of a document. -/
class Decoder.Sound [Decoder] : Prop where
  escapable : ∀ bytes, Xml.Escapable (Decoder.decode bytes)

end QuickDraw.Text
