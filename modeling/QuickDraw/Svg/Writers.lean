import QuickDraw.Svg.Drawing

/-!
# What a canvas writes

Each writer adds the text of an element to the document, whole (`drawShape_eq`, `drawText_eq`,
`drawRaster_eq`). An element whose raster has no data leaves the document as it was.
-/

namespace QuickDraw.Svg

theorem Element.text_empty (name : String) (attributes : List Attribute) :
    (Element.empty name attributes).text = "<" ++ name ++ Attribute.texts attributes ++ "/>" := rfl

/-- A path is begun in front of its data. -/
theorem pathStart_append (text : String) : "<path d=\"" ++ text = "<path" ++ (" d=\"" ++ text) := by
  rw [← String.append_assoc]
  rfl

namespace Canvas

variable (c : Canvas) (s t : String) (st : Style Float)

@[simp] theorem write_write : (c.write s).write t = c.write (s ++ t) := by
  simp [write, String.append_assoc]

@[simp] theorem write_empty : c.write "" = c := by simp [write]

@[simp] theorem transform_write : (c.write s).transform = c.transform := rfl

@[simp] theorem font_write : (c.write s).font = c.font := rfl

@[simp] theorem encode_write : (c.write s).encode = c.encode := rfl

/-- Writes an element, if there is one. -/
def writeElement? : Option Element → Canvas
  | some e => c.write e.text
  | none => c

theorem writeIf_eq (wanted : Bool) : c.writeIf wanted s = c.write (if wanted then s else "") := by
  cases wanted <;> simp [writeIf]

theorem truncate_write : (c.write s).truncate c.out.length = c := by
  unfold truncate write
  rw [String.toList_append, List.take_left' String.length_toList, String.ofList_toList]

variable [Printer]

theorem writePoint_eq (p : Point Float) :
    c.writePoint p = c.write (pair " " (c.transform.point p)) := by
  simp [writePoint, writeNumber, pair, String.append_assoc]

theorem writeHeader_eq (size : Size) :
    c.writeHeader size = { c with started := true }.write
      ("<svg" ++ Attribute.texts (startAttributes size) ++ ">") := by
  have hbox : Attribute.text ⟨"viewBox", "0 0 " ++ number size.width ++ " " ++ number size.height⟩ =
      " viewBox=\"0 0 " ++ number size.width ++ " " ++ number size.height ++ "\"" := by
    simp only [Attribute.text, ← String.append_assoc]
    rfl
  have hspace : "\" xmlns=\"http://www.w3.org/2000/svg\">" =
      "\"" ++ Attribute.text ⟨"xmlns", "http://www.w3.org/2000/svg"⟩ ++ ">" := rfl
  unfold writeHeader startAttributes
  rw [hspace, Attribute.texts_cons, Attribute.texts_cons, Attribute.texts_cons, hbox]
  simp only [writeNum, writeNumber, write_write, Attribute.texts_cons, Attribute.texts_nil,
    String.append_assoc, String.empty_append]

/-! ### Shapes -/

omit [Printer] in
theorem writeFill_eq (color : Option Rgb) :
    c.writeFill color = c.write (Attribute.texts (fillAttributes color)) := by
  unfold writeFill fillAttributes
  cases color with
  | none => rfl
  | some color =>
    dsimp only
    split
    · simp
    · simp [writeColor, Attribute.text]

theorem writePaint_eq :
    c.writePaint st = c.write (Attribute.texts (paint c.transform st) ++ "/>") := by
  obtain ⟨verb, lineColor, lineWidth, fill⟩ := st
  unfold writePaint paint strokeAttributes
  rw [writeFill_eq]
  cases fill <;> cases lineColor <;> simp [writeStroke, String.append_assoc]

theorem writeRect_eq (box : Box Float) (radius : Option (Point Float)) :
    c.writeRect box radius st = c.write (rectElement c.transform box radius st).text := by
  unfold writeRect rectElement corners
  simp only [Element.text_empty, writeNum]
  cases radius with
  | none => simp [writePaint_eq, String.append_assoc]
  | some r =>
    dsimp only
    split <;> simp [writePaint_eq, String.append_assoc]

theorem writeEllipse_eq (oval : Box Float) :
    c.writeEllipse oval st = c.write (ellipseElement c.transform oval st).text := by
  simp [writeEllipse, ellipseElement, Element.text_empty, writeNum, writePaint_eq,
    String.append_assoc]

theorem writeArc_eq (oval : Box Float) (sweep : Sweep Float) (wedge : Bool) :
    c.writeArc oval sweep wedge st = c.write (arcElement c.transform oval sweep wedge st).text := by
  unfold writeArc arcElement
  split
  · exact writeEllipse_eq c st oval
  · have hstart (text : String) :
        "<path d=\"M" ++ text = "<path" ++ (" d=\"" ++ ("M" ++ text)) := by
      rw [← pathStart_append, ← String.append_assoc]
      rfl
    simp only [Element.text_empty, arcPath, writePoint_eq, writeNumber, writePaint_eq]
    cases wedge <;> simp [Attribute.text, pair, String.append_assoc, hstart]

theorem foldl_writeCorner (points : List (Point Float)) {n : Nat} (hn : 0 < n) :
    (points.zipIdx n).foldl writeCorner c =
      c.write (String.join (points.map fun q => " " ++ pair "," (c.transform.point q))) := by
  induction points generalizing c n with
  | nil => simp
  | cons p rest ih =>
    rw [List.zipIdx_cons, List.foldl_cons, ih _ (Nat.succ_pos n)]
    simp [writeCorner, if_pos hn, writeNumber, pair, String.append_assoc]

theorem writePolygon_eq {points : List (Point Float)} (hpoints : points ≠ []) :
    c.writePolygon points st = c.write (polygonElement c.transform points st).text := by
  cases points with
  | nil => exact absurd rfl hpoints
  | cons p rest =>
    simp only [writePolygon, List.isEmpty_cons, List.zipIdx_cons, List.foldl_cons,
      foldl_writeCorner _ rest (Nat.succ_pos 0), polygonElement, pointList, Element.text_empty]
    simp [writeCorner, writeNumber, writePaint_eq, Attribute.text, pair, String.append_assoc]

theorem foldl_writeSpan (spans : List (Box Float)) :
    spans.foldl writeSpan c = c.write (String.join (spans.map (spanPath c.transform))) := by
  induction spans generalizing c with
  | nil => simp
  | cons span rest ih =>
    rw [List.foldl_cons, ih]
    simp [writeSpan, spanPath, writeNumber, pair, String.append_assoc]

theorem writeRegion_eq (box : Box Float) (points : List (Point Float)) :
    c.writeRegion box points st = c.write (regionElement c.transform box points st).text := by
  unfold writeRegion regionElement
  cases (spans? points).getD [] with
  | nil => exact writeRect_eq c st box none
  | cons span rest =>
    dsimp only
    rw [foldl_writeSpan, writePaint_eq]
    simp [Element.text_empty, Attribute.text, String.append_assoc, pathStart_append]

theorem writeLine_eq (start stop : Point Float) :
    c.writeLine start stop st = c.write (lineElement c.transform start stop st).text := by
  simp [writeLine, lineElement, Element.text_empty, writeNum, writeStroke, String.append_assoc]

theorem drawShape_eq (shape : Shape) :
    c.drawShape shape st = c.writeElement? (shapeElement? c.transform shape st) := by
  cases shape with
  | line start stop => exact writeLine_eq c st start stop
  | rect box => exact writeRect_eq c st box none
  | roundRect box radius => exact writeRect_eq c st box (some radius)
  | oval box => exact writeEllipse_eq c st box
  | arc oval sweep _ => exact writeArc_eq c st oval sweep false
  | wedge oval sweep _ => exact writeArc_eq c st oval sweep true
  | region box points => exact writeRegion_eq c st box points
  | polygon points =>
    by_cases hpoints : points = []
    · rw [hpoints]
      rfl
    · simp only [drawShape, shapeElement?, List.isEmpty_iff, if_neg hpoints]
      exact writePolygon_eq c st hpoints

/-! ### Text -/

theorem writeFont_eq (f : Font) :
    c.writeFont f = c.write (Attribute.texts (fontAttributes c.transform f)) := by
  unfold writeFont fontAttributes
  cases fontFamily? f <;>
    simp [writeNum, writeEscaped, writeIf_eq, writeFill_eq, Attribute.text, Attribute.texts_ite,
      String.append_assoc]

theorem drawText_eq (text : String) (position : Point Float) :
    c.drawText text position =
      c.writeElement? (textElement? c.transform c.font text position) := by
  unfold drawText textElement?
  split
  · rfl
  · simp [writeElement?, Element.text, writeNum, writeFont_eq, writeEscaped, String.append_assoc]

/-! ### Rasters -/

/-- An address is written as an attribute; where there is none nothing is. -/
theorem writeAddress_eq (raster : Raster) :
    c.writeAddress raster = match rasterAddress? c.encode raster with
      | some address => (c.write (Attribute.text ⟨"href", address⟩), true)
      | none => (c, false) := by
  have hjpeg (text : String) : " href=\"data:image/jpeg;base64," ++ text =
      " href=\"" ++ ("data:image/jpeg;base64," ++ text) := by
    rw [← String.append_assoc]
    rfl
  have hpng (text : String) : " href=\"data:image/png;" ++ text =
      " href=\"" ++ ("data:image/png;" ++ text) := by
    rw [← String.append_assoc]
    rfl
  unfold writeAddress rasterAddress?
  cases raster with
  | jpeg bytes => simp [Attribute.text, String.append_assoc, hjpeg]
  | _ =>
    dsimp only
    generalize Option.bind _ c.encode = data?
    cases data? with
    | none => rfl
    | some data => simp [Attribute.text, String.append_assoc, hpng]

theorem drawRaster_eq (raster : Raster) (placement : Box Float) :
    c.drawRaster raster placement = c.writeElement?
      (if c.options.embedRasters then rasterElement? c.transform c.encode raster placement
      else none) := by
  unfold drawRaster rasterElement?
  split
  · dsimp only
    simp only [writeNum, write_write, writeAddress_eq, encode_write]
    cases rasterAddress? c.encode raster with
    | none => exact truncate_write c _
    | some address =>
      have hratio : Attribute.text ⟨"preserveAspectRatio", "none"⟩ =
          " preserveAspectRatio=\"none\"" := rfl
      simp [writeElement?, Element.text_empty, hratio, String.append_assoc]
  · rfl

end Canvas

end QuickDraw.Svg
