import Mathlib.Data.List.Forall2
import QuickDraw.Proofs.Drawability
import QuickDraw.Proofs.Markup

/-!
# Documents

A picture that runs to its end is drawn as a well-formed document with one element for each
primitive that is not blank, in order (`drawPicture_document`). Each event adds its element to the
document and changes nothing in front of it (`draw_adds`), and so does a list of events
(`foldlM_draw`). How text is decoded, and how numbers, bytes and images are written, is left open;
what a document rests on of it are the hypotheses.
-/

namespace QuickDraw.Svg

section

variable [Printer]

/-- A start tag, elements and the end tag. -/
def documentText (start : List Attribute) (elements : List Element) : String :=
  "<svg" ++ Attribute.texts start ++ ">" ++ Element.texts elements ++ "</svg>"

/-- A primitive that leaves nothing in a document. -/
def isBlank (options : Options) : Event → Bool
  | .shape (.polygon points) _ => points.isEmpty
  | .text text _ _ => text.isEmpty
  | .raster _ => !options.embedRasters
  | _ => false

/-- The primitives that a document shows. -/
def shown (options : Options) (es : List Event) : List Event :=
  es.filter fun e => e.IsPrimitive ∧ ¬isBlank options e

/-- The element stands for the primitive. -/
def Depicts (t : Transform) (encode : Encoder) : Event → Element → Prop
  | .shape outline style, e =>
    ∃ drawn, style = .ok drawn ∧ shapeElement? t outline.toShape drawn.toFloat = some e
  | .text text position _, e => ∃ font, textElement? t font text position.toFloat = some e
  | .raster image, e =>
    e.name = "image" ∧ rasterElement? t encode image.raster image.placement.toFloat = some e
  | _, _ => False

/-- There is data for every image with pixels, and it can stand in an address. -/
structure Encoder.Sound (encode : Encoder) : Prop where
  harmless : encode.Harmless
  complete : ∀ i : Image, 0 < i.width → 0 < i.height → i.pixels.size = i.width * i.height →
    (encode i).isSome

omit [Printer] in
theorem Encoder.pixels_sound : Encoder.pixels.Sound := ⟨pixels_harmless, fun _ _ _ _ => rfl⟩

/-- `svg` is a well-formed document, and shows the primitives of the events that are not blank: one
element for each, and in order. -/
def Renders (encode : Encoder) (options : Options) (es : List Event) (svg : String) : Prop :=
  ∃ page start elements, es.head? = some (.begin page) ∧ svg = documentText start elements ∧
    Attribute.Proper start ∧ (∀ e ∈ elements, e.Proper) ∧
    List.Forall₂ (Depicts (.ofPage page.toFloat (fit page.toFloat options)) encode)
      (shown options es) elements

/-! ### Elements of events -/

theorem exists_shapeElement (t : Transform) {options : Options} {o : Outline}
    {style : Guarded (Style Fixed)} (s : Style Float) (h : ¬isBlank options (.shape o style)) :
    ∃ e, shapeElement? t o.toShape s = some e := by
  cases o with
  | polygon points =>
    have hpoints : ¬points.isEmpty := h
    exact ⟨_, if_neg (by simpa using hpoints)⟩
  | _ => exact ⟨_, rfl⟩

theorem exists_rasterElement (t : Transform) {encode : Encoder} (hencode : encode.Sound)
    {raster : Raster} (h : raster.Whole) (placement : Box Float) :
    ∃ e, e.name = "image" ∧ rasterElement? t encode raster placement = some e := by
  obtain ⟨address, haddress⟩ : ∃ address, rasterAddress? encode raster = some address := by
    cases h with
    | jpeg => exact ⟨_, rfl⟩
    | @filled _ width height h =>
      obtain ⟨pixels, himage, hsize, -⟩ := h.image
      obtain ⟨data, hdata⟩ := Option.isSome_iff_exists.mp
        (hencode.complete ⟨width, height, pixels⟩ h.width_pos h.height_pos hsize)
      unfold rasterAddress?
      split
      · exact ⟨_, rfl⟩
      · have hexpand := himage fun _ => .error .noPixels
        rw [Raster.toImage_of_dimensions h.dimensions] at hexpand
        rw [hexpand]
        exact ⟨_, congrArg _ hdata⟩
  unfold rasterElement?
  rw [haddress]
  exact ⟨_, rfl, rfl⟩

namespace Canvas

variable {c d : Canvas} {e : Event} {es : List Event} {elements : List Element}

/-- The element that an event adds to the document, if it is not refused. -/
def element? (c : Canvas) : Event → Option Element
  | .shape outline style =>
    style.toOption.bind fun drawn => shapeElement? c.transform outline.toShape drawn.toFloat
  | .text text position _ => textElement? c.transform c.font text position.toFloat
  | .raster image =>
    if c.options.embedRasters then
      rasterElement? c.transform c.encode image.raster image.placement.toFloat
    else none
  | _ => none

/-- Any name of the font that is set can be escaped. -/
def Named (c : Canvas) : Prop := ∀ f, c.font = some f → f.Escapable

/-- The styles of shapes that are drawn are not refused. -/
theorem style_of_draw {o : Outline} {style : Guarded (Style Fixed)}
    (h : c.draw (.shape o style) = .ok d) :
    ∃ drawn, style = .ok drawn ∧ d = c.drawShape o.toShape drawn.toFloat := by
  obtain ⟨drawn, hstyle, hd⟩ := Except.bind_eq_ok.mp h
  cases hd
  exact ⟨drawn, hstyle, rfl⟩

/-- A primitive that is drawn and not blank has a proper element, and no other event has any. -/
theorem element?_cases [Printer.Sound] (hencode : c.encode.Sound) (hc : c.Named)
    (he : e.Drawable) (h : c.draw e = .ok d) :
    (c.element? e = none ∧ ¬(e.IsPrimitive ∧ ¬isBlank c.options e)) ∨
      ∃ el, c.element? e = some el ∧ (e.IsPrimitive ∧ ¬isBlank c.options e) ∧
        Depicts c.transform c.encode e el ∧ el.Proper := by
  cases e with
  | begin page => exact he.elim
  | style | font | comment => exact .inl ⟨rfl, fun h => h.1⟩
  | shape o s =>
    by_cases hblank : isBlank c.options (.shape o s)
    · refine .inl ⟨?_, fun h => h.2 hblank⟩
      cases o with
      | polygon points =>
        have hpoints : points.isEmpty := hblank
        rw [List.isEmpty_iff.mp hpoints]
        cases s <;> rfl
      | _ => cases hblank
    · obtain ⟨drawn, rfl, -⟩ := style_of_draw h
      obtain ⟨el, hel⟩ := exists_shapeElement c.transform drawn.toFloat hblank
      exact .inr ⟨el, hel, ⟨trivial, hblank⟩, ⟨drawn, rfl, hel⟩, shapeElement?_proper _ _ hel⟩
  | text text position s =>
    by_cases hblank : isBlank c.options (.text text position s)
    · exact .inl ⟨if_pos hblank, fun h => h.2 hblank⟩
    · obtain ⟨el, hel⟩ : ∃ el, textElement? c.transform c.font text position.toFloat = some el :=
        ⟨_, if_neg hblank⟩
      exact .inr ⟨el, hel, ⟨trivial, hblank⟩, ⟨_, hel⟩, textElement?_proper _ hc he hel⟩
  | raster image =>
    unfold element?
    dsimp only
    by_cases hembed : c.options.embedRasters = true
    · rw [if_pos hembed]
      obtain ⟨el, hname, hel⟩ :=
        exists_rasterElement c.transform hencode he image.placement.toFloat
      have hblank : ¬isBlank c.options (.raster image) := by simp [isBlank, hembed]
      exact .inr ⟨el, hel, ⟨trivial, hblank⟩, ⟨hname, hel⟩,
        rasterElement?_proper _ hencode.harmless hel⟩
    · rw [if_neg hembed]
      exact .inl ⟨rfl, fun h => h.2 (by simp [isBlank, hembed])⟩

/-! ### Drawing -/

section

omit [Printer]

/-- `d` is `c` with more elements, and maybe another font. -/
structure Adds (c d : Canvas) (elements : List Element) : Prop where
  out : d.out = c.out ++ Element.texts elements
  options : d.options = c.options
  encode : d.encode = c.encode
  transform : d.transform = c.transform
  started : d.started = c.started

theorem Adds.trans {c₁ c₂ c₃ : Canvas} {es₁ es₂ : List Element} (h : c₁.Adds c₂ es₁)
    (h' : c₂.Adds c₃ es₂) : c₁.Adds c₃ (es₁ ++ es₂) where
  out := by
    rw [h'.out, h.out, Element.texts, Element.texts, Element.texts, List.map_append,
      String.join_append, String.append_assoc]
  options := h'.options.trans h.options
  encode := h'.encode.trans h.encode
  transform := h'.transform.trans h.transform
  started := h'.started.trans h.started

theorem adds_writeElement? (c : Canvas) (element? : Option Element) :
    c.Adds (c.writeElement? element?) element?.toList := by
  cases element? with
  | none => exact ⟨String.append_empty.symm, rfl, rfl, rfl, rfl⟩
  | some e =>
    refine ⟨?_, rfl, rfl, rfl, rfl⟩
    simp [writeElement?, write, Element.texts]

end

/-- A font is set, and every other event is drawn by its element alone. -/
theorem draw_eq_ok (he : e.Drawable) (h : c.draw e = .ok d) :
    (∃ f, e = .font (.ok f) ∧ d = c.setFont f) ∨ d = c.writeElement? (c.element? e) := by
  cases e with
  | begin page => exact he.elim
  | font f =>
    obtain ⟨font, rfl, hd⟩ := Except.bind_eq_ok.mp h
    cases hd
    exact .inl ⟨font, rfl, rfl⟩
  | style s =>
    obtain ⟨_, -, hd⟩ := Except.bind_eq_ok.mp h
    cases hd
    exact .inr rfl
  | comment =>
    cases h
    exact .inr rfl
  | shape o s =>
    obtain ⟨drawn, rfl, rfl⟩ := style_of_draw h
    exact .inr (drawShape_eq c _ _)
  | text text position s =>
    obtain ⟨_, -, hd⟩ := Except.bind_eq_ok.mp h
    cases hd
    exact .inr (drawText_eq c _ _)
  | raster image =>
    cases h
    exact .inr (drawRaster_eq c _ _)

theorem draw_adds (he : e.Drawable) (h : c.draw e = .ok d) :
    c.Adds d (c.element? e).toList := by
  rcases draw_eq_ok he h with ⟨f, rfl, rfl⟩ | rfl
  · exact ⟨(adds_writeElement? c none).out, rfl, rfl, rfl, rfl⟩
  · exact adds_writeElement? c _

theorem Named.draw (hc : c.Named) (he : e.Drawable) (h : c.draw e = .ok d) : d.Named := by
  rcases draw_eq_ok he h with ⟨f, rfl, rfl⟩ | rfl
  · intro f' hf'
    cases hf'
    exact he f rfl
  · cases element? c e <;> exact hc

/-- Events that can be drawn add one proper element for each primitive that they show. -/
theorem foldlM_draw [Printer.Sound] (hencode : c.encode.Sound) (hc : c.Named)
    (hes : ∀ e ∈ es, e.Drawable) (h : es.foldlM draw c = .ok d) :
    ∃ elements, c.Adds d elements ∧ (∀ e ∈ elements, e.Proper) ∧
      List.Forall₂ (Depicts c.transform c.encode) (shown c.options es) elements := by
  -- On the events, for any canvas; drawing keeps what the elements depend on.
  induction es generalizing c with
  | nil =>
    cases h
    exact ⟨[], adds_writeElement? _ none, List.forall_mem_nil _, .nil⟩
  | cons e es ih =>
    obtain ⟨he, hes⟩ := List.forall_mem_cons.mp hes
    rw [List.foldlM_cons] at h
    obtain ⟨b, hb, h⟩ := Except.bind_eq_ok.mp h
    have hadds := draw_adds he hb
    rw [← hadds.encode] at hencode
    obtain ⟨elements, hmore, hproper, hdepicts⟩ := ih hencode (hc.draw he hb) hes h
    rw [hadds.encode] at hencode
    rw [hadds.transform, hadds.encode, hadds.options] at hdepicts
    rcases element?_cases hencode hc he hb with
      ⟨hnone, hblank⟩ | ⟨el, hel, hshown, hdepict, hel'⟩
    · rw [hnone] at hadds
      refine ⟨elements, hadds.trans hmore, hproper, ?_⟩
      rwa [shown, List.filter_cons_of_neg (by simpa using hblank)]
    · rw [hel] at hadds
      refine ⟨el :: elements, hadds.trans hmore, List.forall_mem_cons.mpr ⟨hel', hproper⟩, ?_⟩
      rw [shown, List.filter_cons_of_pos (by simpa using hshown)]
      exact .cons hdepict hdepicts

/-- What is not refused can be drawn. -/
theorem exists_draw (c : Canvas) (h : e.check = .ok ()) : ∃ d, c.draw e = .ok d := by
  cases e with
  | begin | raster | comment => exact ⟨_, rfl⟩
  | style s | font s | shape o s | text t position s =>
    cases s with
    | ok drawn => exact ⟨_, rfl⟩
    | error stop => cases h

theorem exists_foldlM_draw (c : Canvas) (h : ∀ e ∈ es, e.check = .ok ()) :
    ∃ d, es.foldlM draw c = .ok d := by
  induction es generalizing c with
  | nil => exact ⟨c, rfl⟩
  | cons e es ih =>
    obtain ⟨he, hes⟩ := List.forall_mem_cons.mp h
    obtain ⟨b, hb⟩ := exists_draw c he
    obtain ⟨d, hd⟩ := ih b hes
    refine ⟨d, ?_⟩
    rw [List.foldlM_cons, hb]
    exact hd

/-- A page is begun on a blank canvas with the start tag. -/
theorem begin_blank (encode : Encoder) (options : Options) (page : Box Float) :
    (blank encode options).begin page =
      ⟨options, encode, "<svg" ++ Attribute.texts (startAttributes (fit page options)) ++ ">",
        .ofPage page (fit page options), none, true⟩ := by
  unfold begin
  dsimp only
  rw [writeHeader_eq]
  simp [blank, write]

end Canvas

/-! ### Pictures -/

theorem drawPicture_eq_ok [Text.Decoder] {encode : Encoder} {data : Array UInt8}
    {options : QuickDraw.Options} {svgOptions : Options} {svg : String} :
    drawPicture encode data options svgOptions = .ok svg ↔
      ∃ m canvas summary, Interpreter.ofBytes data options = .ok m ∧
        m.run.1.events.toList.foldlM Canvas.draw (.blank encode svgOptions) = .ok canvas ∧
        m.run.1.result = .ok summary ∧ svg = canvas.finish := by
  refine ⟨fun h => ?_, fun ⟨m, canvas, summary, hm, hcanvas, hsummary, hsvg⟩ => ?_⟩
  · obtain ⟨m, hm, h⟩ := Except.bind_eq_ok.mp h
    obtain ⟨canvas, hcanvas, h⟩ := Except.bind_eq_ok.mp h
    obtain ⟨summary, hsummary, h⟩ := Except.bind_eq_ok.mp h
    cases h
    rw [← Array.foldlM_toList] at hcanvas
    exact ⟨m, canvas, summary, Guarded.ofFaults_eq_ok.mp hm, hcanvas,
      Guarded.ofFaults_eq_ok.mp hsummary, rfl⟩
  · rw [Array.foldlM_toList] at hcanvas
    refine Except.bind_eq_ok.mpr ⟨m, Guarded.ofFaults_eq_ok.mpr hm, Except.bind_eq_ok.mpr
      ⟨canvas, hcanvas, Except.bind_eq_ok.mpr ⟨summary, Guarded.ofFaults_eq_ok.mpr hsummary, ?_⟩⟩⟩
    rw [hsvg]
    rfl

/-- A picture that runs to an end is drawn, unless a style or a font of its events is refused. -/
theorem exists_drawPicture [Text.Decoder] (encode : Encoder) {data : Array UInt8}
    {options : QuickDraw.Options} (svgOptions : Options) {m : Interpreter} {summary : Summary}
    (hm : Interpreter.ofBytes data options = .ok m) (hresult : m.run.1.result = .ok summary)
    (hcheck : ∀ e ∈ m.run.1.events.toList, e.check = .ok ()) :
    ∃ svg, drawPicture encode data options svgOptions = .ok svg := by
  obtain ⟨canvas, hcanvas⟩ := Canvas.exists_foldlM_draw (.blank encode svgOptions) hcheck
  exact ⟨_, drawPicture_eq_ok.mpr ⟨m, canvas, summary, hm, hcanvas, hresult, rfl⟩⟩

/-- A picture is drawn as a document that shows its primitives. -/
theorem drawPicture_renders [Text.Decoder] [Text.Decoder.Sound] [Printer.Sound] {encode : Encoder}
    (hencode : encode.Sound) {data : Array UInt8} {options : QuickDraw.Options}
    {svgOptions : Options} {svg : String}
    (h : drawPicture encode data options svgOptions = .ok svg) :
    ∃ m, Interpreter.ofBytes data options = .ok m ∧
      Renders encode svgOptions m.run.1.events.toList svg := by
  obtain ⟨m, canvas, -, hm, hcanvas, -, rfl⟩ := drawPicture_eq_ok.mp h
  obtain ⟨page, rest, hevents, hrest⟩ := Interpreter.run_drawable (.new hm)
  have hbegin := Canvas.begin_blank encode svgOptions page.toFloat
  have hnamed : ((Canvas.blank encode svgOptions).begin page.toFloat).Named := by
    intro f hf
    rw [hbegin] at hf
    cases hf
  rw [hevents, List.foldlM_cons] at hcanvas
  obtain ⟨elements, hadds, hproper, hdepicts⟩ :=
    Canvas.foldlM_draw (by rw [hbegin]; exact hencode) hnamed hrest hcanvas
  rw [hbegin] at hadds hdepicts
  have hsvg : canvas.finish =
      documentText (startAttributes (fit page.toFloat svgOptions)) elements := by
    rw [Canvas.finish, if_pos hadds.started]
    simp only [Canvas.write, hadds.out, documentText]
  refine ⟨m, hm, page, _, elements, ?_, hsvg, startAttributes_proper _, hproper, ?_⟩
  · rw [hevents]
    rfl
  · rw [hevents]
    exact hdepicts

/-- With the pixels of its images in place of files. -/
theorem ofPicture_renders [Text.Decoder] [Text.Decoder.Sound] [Printer.Sound] {data : Array UInt8}
    {options : QuickDraw.Options} {svgOptions : Options} {svg : String}
    (h : ofPicture data options svgOptions = .ok svg) :
    ∃ m, Interpreter.ofBytes data options = .ok m ∧
      Renders .pixels svgOptions m.run.1.events.toList svg :=
  drawPicture_renders Encoder.pixels_sound h

/-- Whatever the picture and the options, a document that is drawn is well formed and shows the
primitives of the run that are not blank, one element for each and in order. -/
theorem drawPicture_document [Text.Decoder] {png : Image → Option (Array UInt8)}
    (htext : ∀ bytes, ∀ c ∈ (Text.Decoder.decode bytes).toList,
      Text.Xml.Allowed c ∨ c.toNat < 0x20)
    (hinteger : ∀ n, ∀ c ∈ (Printer.integer n).toList, IsNumeral c)
    (hdouble : ∀ v : Float, v.isFinite → ∀ c ∈ (Printer.double v).toList, IsNumeral c)
    (hbase64 : ∀ bytes, ∀ c ∈ (Printer.base64 bytes).toList, IsBase64 c)
    (hpng : ∀ i : Image, 0 < i.width → 0 < i.height → i.pixels.size = i.width * i.height →
      (png i).isSome)
    {data : Array UInt8} {options : QuickDraw.Options} {svgOptions : Options} {svg : String}
    (h : drawPicture (.ofFile png) data options svgOptions = .ok svg) :
    ∃ m, Interpreter.ofBytes data options = .ok m ∧
      Renders (.ofFile png) svgOptions m.run.1.events.toList svg := by
  have : Text.Decoder.Sound := ⟨fun bytes c hc => Text.Xml.escapable_of_low (htext bytes) c hc⟩
  have : Printer.Sound := ⟨hinteger, hdouble, hbase64⟩
  have hsound : (Encoder.ofFile png).Sound := by
    refine ⟨Encoder.ofFile_harmless png, fun i hwidth hheight hsize => ?_⟩
    obtain ⟨bytes, hbytes⟩ := Option.isSome_iff_exists.mp (hpng i hwidth hheight hsize)
    rw [Encoder.ofFile, hbytes]
    rfl
  exact drawPicture_renders hsound h

end

/-- A picture of version 2 with special characters in a text and in the name of its font, a
rectangle, a text and a polygon without anything in them, a bitmap of two pixels, and a JPEG
stream. -/
def quotedPicture : Array UInt8 :=
  #[0, 0, 0, 0, 0, 0, 0, 16, 0, 16, 0, 0x11, 0x02, 0xFF, 0x0C, 0, 0xFF, 0xFE, 0, 0, 0, 72, 0, 0,
    0, 72, 0, 0, 0, 0, 0, 0, 0, 16, 0, 16, 0, 0, 0, 0,
    0, 0x2C, 0, 6, 0, 5, 3, 0x3C, 0x26, 0x3E, 0, 0x03, 0, 5,
    0, 0x28, 0, 8, 0, 2, 3, 0x61, 0x3C, 0x62, 0, 0x30, 0, 2, 0, 2, 0, 10, 0, 10,
    0, 0x28, 0, 8, 0, 2, 0, 0, 0, 0x70, 0, 10, 0, 0, 0, 0, 0, 0, 0, 0] ++
  #[0, 0x90, 0, 2, 0, 0, 0, 0, 0, 1, 0, 2, 0, 0, 0, 0, 0, 1, 0, 2, 0, 0, 0, 0, 0, 1, 0, 2, 0, 0,
    0x80, 0] ++
  #[0x82, 0, 0, 0, 0, 64] ++ Array.replicate 52 0 ++
    #[0, 0, 0, 0, 0, 4, 0, 4, 0xFF, 0xD8, 0xFF, 0xE0, 0, 0xFF]

/-- Files with the first bytes of a signature and with the pixels as they are. -/
def plainFile (i : Image) : Option (Array UInt8) :=
  if i.pixels.isEmpty then none
  else some (#[0x89, 0x50, 0x4E, 0x47] ++ i.pixels.flatMap fun c => #[c.r, c.g, c.b])

theorem plainFile_isSome {i : Image} (hwidth : 0 < i.width) (hheight : 0 < i.height)
    (hsize : i.pixels.size = i.width * i.height) : (plainFile i).isSome := by
  have hpos : 0 < i.width * i.height := Nat.mul_pos hwidth hheight
  have hpixels : ¬i.pixels.isEmpty := by
    rw [Array.isEmpty_iff_size_eq_zero]
    omega
  unfold plainFile
  rw [if_neg hpixels]
  rfl

/-- The address of an image. -/
def Element.source? (e : Element) : Option String :=
  if e.name = "image" then (e.attributes.find? (·.name = "href")).map Attribute.value else none

open Interpreter in
/-- With the decoder and the printer of the program, and the bitmap written as a plain file. -/
theorem drawPicture_document_quotedPicture :
    ∃ svg m, drawPicture (.ofFile plainFile) quotedPicture .default .default = .ok svg ∧
      ofBytes quotedPicture .default = .ok m ∧ m.run.1.events.size = 12 ∧
      ∃ start elements, svg = documentText start elements ∧ Attribute.Proper start ∧
        (∀ e ∈ elements, e.Proper) ∧
        elements.map Element.name = ["text", "rect", "image", "image"] ∧
        elements.filterMap Element.content = ["a&lt;b"] ∧
        elements.filterMap Element.source? =
          ["data:image/png;base64,iVBORwAAAP///w==", "data:image/jpeg;base64,/9j/4A=="] := by
  have hat : Header.at? quotedPicture 0 = some paddedHeader := by decide +kernel
  have hm : ofBytes quotedPicture .default = .ok (behind quotedPicture .default paddedHeader) :=
    ofBytes_eq_ok (Header.detect_eq_ok.mpr (.inl hat))
  have hrun : (behind quotedPicture .default paddedHeader).run.1.result =
      .ok ⟨.v2, ⟨0, 0, 16, 16⟩, 9, 0, false, true, none⟩ := by decide +kernel
  have hcheck : ∀ e ∈ (behind quotedPicture .default paddedHeader).run.1.events.toList,
      e.check = .ok () := by decide +kernel
  obtain ⟨svg, hdraw⟩ := exists_drawPicture (.ofFile plainFile) .default hm hrun hcheck
  obtain ⟨m, hm', page, start, elements, -, hsvg, hstart, hproper, hdepicts⟩ :=
    drawPicture_document
      (fun bytes c hc => (Text.MacRoman.decode_escapable bytes c hc).imp_right And.left)
      (fun _ _ => isNumeral_of_mem_int) (fun _ _ _ => isNumeral_of_mem_double)
      Printer.Sound.base64 (fun _ => plainFile_isSome) hdraw
  cases hm.symm.trans hm'
  have hshown : shown .default (behind quotedPicture .default paddedHeader).run.1.events.toList =
      [.text "a<b" ⟨2, 8⟩ (.ok ⟨.text, some Rgb.black, ⟨0⟩, .none⟩),
        .shape (.rect ⟨2, 2, 10, 10⟩) (.ok ⟨.frame, some Rgb.black, ⟨65536⟩, .none⟩),
        .raster ⟨.mono 2 1 2 #[0x80, 0] ⟨Rgb.white, Rgb.black⟩, ⟨0, 0, 2, 1⟩,
          some ⟨0, 0, 1, 2⟩, 0, none⟩,
        .raster ⟨.jpeg #[0xFF, 0xD8, 0xFF, 0xE0], ⟨0, 0, 4, 4⟩, some ⟨0, 0, 4, 4⟩, 0, none⟩] := by
    decide +kernel
  have helements : elements.map Element.name = ["text", "rect", "image", "image"] ∧
      elements.filterMap Element.content = ["a&lt;b"] ∧
      elements.filterMap Element.source? =
        ["data:image/png;base64,iVBORwAAAP///w==", "data:image/jpeg;base64,/9j/4A=="] := by
    have hpng : rasterAddress? (.ofFile plainFile)
        (.mono 2 1 2 #[0x80, 0] ⟨Rgb.white, Rgb.black⟩) =
          some "data:image/png;base64,iVBORwAAAP///w==" := by decide +kernel
    have hjpeg : rasterAddress? (.ofFile plainFile) (.jpeg #[0xFF, 0xD8, 0xFF, 0xE0]) =
        some "data:image/jpeg;base64,/9j/4A==" := by decide +kernel
    rw [hshown] at hdepicts
    obtain _ | ⟨⟨font, htext⟩, _ | ⟨⟨drawn, hstyle, hrect⟩, _ | ⟨⟨-, hbitmap⟩,
      _ | ⟨⟨-, hstream⟩, _ | _⟩⟩⟩⟩ := hdepicts
    rw [textElement?, if_neg (by decide)] at htext
    rw [rasterElement?, hpng] at hbitmap
    rw [rasterElement?, hjpeg] at hstream
    cases htext
    cases hrect
    cases hbitmap
    cases hstream
    refine ⟨rfl, congrArg (fun text => [text]) ?_, ?_⟩
    · show Text.Xml.escape "a<b" = "a&lt;b"
      decide
    · rfl
  exact ⟨_, _, hdraw, hm, by decide +kernel, start, elements, hsvg, hstart, hproper, helements⟩

end QuickDraw.Svg
