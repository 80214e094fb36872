import QuickDraw.Proofs.Escapes
import QuickDraw.Svg.Writers

/-!
# Well-formed elements

The element of every primitive is proper: its name and the names of its attributes are names, no
attribute occurs twice, and values and content are harmless (`shapeElement?_proper`,
`textElement?_proper`, `rasterElement?_proper`). For a text this rests on the escaping of what
a picture brings along, for a raster on what its image is encoded as, and for all of them on a
printer that is sound.
-/

namespace QuickDraw.Svg

open Text.Xml

/-! ### Proper elements -/

/-- Attributes that can stand in one tag. -/
structure Attribute.Proper (attributes : List Attribute) : Prop where
  names : ∀ a ∈ attributes, IsName a.name
  distinct : (attributes.map Attribute.name).Nodup
  values : ∀ a ∈ attributes, Harmless a.value

/-- A tag that closes itself, or the two tags around a text. -/
structure Element.Proper (e : Element) : Prop where
  name : IsName e.name
  attributes : Attribute.Proper e.attributes
  content : ∀ text, e.content = some text → e.name = "text" ∧ Harmless text

theorem Element.proper_empty {name : String} {attributes : List Attribute} (hname : IsName name)
    (h : Attribute.Proper attributes) : (Element.empty name attributes).Proper :=
  ⟨hname, h, nofun⟩

/-- Harmless attributes whose names are some of `names`, in that order. -/
structure Attribute.Within (names : List String) (attributes : List Attribute) : Prop where
  sublist : (attributes.map Attribute.name).Sublist names
  values : ∀ a ∈ attributes, Harmless a.value

namespace Attribute.Within

variable {name value : String} {names names' : List String} {as bs : List Attribute}

theorem nil : Within names [] := ⟨List.nil_sublist _, nofun⟩

theorem cons (hvalue : Harmless value) (h : Within names as) :
    Within (name :: names) (⟨name, value⟩ :: as) :=
  ⟨h.sublist.cons_cons name, List.forall_mem_cons.mpr ⟨hvalue, h.values⟩⟩

theorem append (h : Within names as) (h' : Within names' bs) :
    Within (names ++ names') (as ++ bs) where
  sublist := by
    rw [List.map_append]
    exact h.sublist.append h'.sublist
  values := List.forall_mem_append.mpr ⟨h.values, h'.values⟩

theorem ite (p : Prop) [Decidable p] (h : Within names as) (h' : Within names bs) :
    Within names (if p then as else bs) := by
  split
  · exact h
  · exact h'

/-- Different names make a proper tag. -/
theorem proper (h : Within names as) (hnodup : names.Nodup)
    (hnames : ∀ name ∈ names, IsName name) : Attribute.Proper as where
  names _ ha := hnames _ (h.sublist.subset (List.mem_map_of_mem ha))
  distinct := h.sublist.nodup hnodup
  values := h.values

end Attribute.Within

/-! ### Characters, colours and families -/

theorem plain_of_isNumeral {c : Char} (h : IsNumeral c) : Plain c := by
  have hmarks : ∀ c ∈ ['.', '-', 'e'], Plain c := by simp [Plain, Allowed]
  rcases h with h | h
  · exact plain_of_isAlphanum (by simp [Char.isAlphanum, h])
  · exact hmarks c h

theorem plain_of_isBase64 {c : Char} (h : IsBase64 c) : Plain c := by
  have hmarks : ∀ c ∈ ['+', '/', '='], Plain c := by simp [Plain, Allowed]
  rcases h with h | h
  · exact plain_of_isAlphanum h
  · exact hmarks c h

theorem mem_of_mem_trimZeros {text : List Char} {c : Char} (h : c ∈ trimZeros text) : c ∈ text := by
  unfold trimZeros at h
  split at h
  · exact List.mem_reverse.mp ((List.dropWhile_sublist _).subset
      ((List.dropWhile_sublist _).subset (List.mem_reverse.mp h)))
  · exact h

theorem hex_harmless (bytes : List UInt8) : Harmless (Text.Hex.encode bytes) := by
  have hdigit : ∀ v < 16, Plain (Text.Hex.digit v) := by decide
  refine harmless_of_plain fun c hc => ?_
  rw [Text.Hex.encode, String.toList_ofList] at hc
  obtain ⟨b, -, hc⟩ := List.mem_flatMap.mp hc
  have hb : b.toNat < 256 := b.toNat_lt
  simp only [Text.Hex.ofByte, List.mem_cons, List.not_mem_nil, or_false] at hc
  rcases hc with rfl | rfl
  · exact hdigit _ (by omega)
  · exact hdigit _ (by omega)

theorem color_harmless (c : Rgb) : Harmless (color c) :=
  (harmless_of_all (by decide)).append (hex_harmless _)

theorem fillAttributes_within (c : Option Rgb) : Attribute.Within ["fill"] (fillAttributes c) := by
  cases c with
  | none => exact .cons (harmless_of_all (by decide)) .nil
  | some c => exact .ite _ .nil (.cons (color_harmless c) .nil)

/-- A name that comes with the font is as harmless as its characters allow. -/
theorem fontFamily?_escapable {f : Font} (h : ∀ name, f.name = some name → Escapable name)
    {family : String} (hfamily : fontFamily? f = some family) : Escapable family := by
  unfold fontFamily? at hfamily
  split at hfamily
  · next hname =>
    cases hfamily
    exact h _ hname
  · unfold genericFamily? at hfamily
    repeat' split at hfamily
    all_goals cases hfamily
    all_goals exact escapable_of_all (by decide)

/-- What an image is encoded as can stand in an address. -/
def Encoder.Harmless (encode : Encoder) : Prop :=
  ∀ i data, encode i = some data → Text.Xml.Harmless data

theorem Encoder.pixels_harmless : Encoder.pixels.Harmless := by
  intro i data h
  cases h
  have hnumber (n : Nat) : Text.Xml.Harmless (toString n) :=
    harmless_of_plain fun _ hc => plain_of_isNumeral (isNumeral_of_mem_nat hc)
  exact (((((harmless_of_all (by decide)).append (hnumber _)).append
    (harmless_of_all (by decide))).append (hnumber _)).append (harmless_of_all (by decide))).append
    (hex_harmless _)

/-! ### Numbers and bytes -/

variable [Printer] [Printer.Sound]

theorem number_harmless (v : Float) : Harmless (number v) := by
  unfold number
  dsimp only
  split
  · exact harmless_of_plain fun c hc => plain_of_isNumeral (Printer.Sound.integer _ c hc)
  split
  · next hfinite =>
    refine harmless_of_plain fun c hc => ?_
    rw [String.toList_ofList] at hc
    exact plain_of_isNumeral (Printer.Sound.double _ hfinite c (mem_of_mem_trimZeros hc))
  · exact harmless_of_all (by decide)

theorem Attribute.Within.num {name : String} {names : List String} {as : List Attribute} {v : Float}
    (h : Within names as) : Within (name :: names) (.num name v :: as) :=
  .cons (number_harmless v) h

theorem base64_harmless (bytes : Array UInt8) : Harmless (Printer.base64 bytes) :=
  harmless_of_plain fun c hc => plain_of_isBase64 (Printer.Sound.base64 bytes c hc)

/-! ### Attributes -/

open Attribute (Within)

theorem startAttributes_proper (size : Size) : Attribute.Proper (startAttributes size) := by
  have hbox : Harmless ("0 0 " ++ number size.width ++ " " ++ number size.height) :=
    (((harmless_of_all (by decide)).append (number_harmless _)).append
      (harmless_of_all (by decide))).append (number_harmless _)
  have hspace : Harmless "http://www.w3.org/2000/svg" := harmless_of_all (by decide)
  have h : Within ["width", "height", "viewBox", "xmlns"] (startAttributes size) :=
    .num (.num (.cons hbox (.cons hspace .nil)))
  exact h.proper (by decide) (by decide)

theorem stroke_within (c : Rgb) (width : Float) :
    Within ["stroke", "stroke-width"] (Attribute.stroke c width) :=
  .cons (color_harmless c) (.ite _ .nil (.num .nil))

theorem strokeAttributes_within (t : Transform) (s : Style Float) :
    Within ["stroke", "stroke-width"] (strokeAttributes t s) := by
  unfold strokeAttributes
  split
  · exact stroke_within _ _
  · exact .nil

theorem paint_within (t : Transform) (s : Style Float) :
    Within ["fill", "stroke", "stroke-width"] (paint t s) :=
  (fillAttributes_within _).append (strokeAttributes_within t s)

theorem corners_within (t : Transform) (radius : Option (Point Float)) :
    Within ["rx", "ry"] (corners t radius) := by
  cases radius with
  | none => exact .nil
  | some r => exact .ite _ (.num (.num .nil)) .nil

theorem fontAttributes_within (t : Transform) {f : Font}
    (h : ∀ name, f.name = some name → Escapable name) :
    Within ["font-family", "font-size", "font-weight", "font-style", "text-decoration", "fill"]
      (fontAttributes t f) := by
  have hfamily : Within ["font-family"]
      ((fontFamily? f).map fun family => ⟨"font-family", escape family⟩).toList := by
    cases hf : fontFamily? f with
    | none => exact .nil
    | some family => exact .cons (escape_harmless (fontFamily?_escapable h hf)) .nil
  have hsize (v : Float) : Within ["font-size"] [.num "font-size" v] := .num .nil
  have hface (name : String) {value : String} (hvalue : Harmless value) (p : Prop)
      [Decidable p] : Within [name] (if p then [⟨name, value⟩] else []) :=
    .ite p (.cons hvalue .nil) .nil
  have hbold : Harmless "bold" := harmless_of_all (by decide)
  have hitalic : Harmless "italic" := harmless_of_all (by decide)
  have hunderline : Harmless "underline" := harmless_of_all (by decide)
  exact ((((hfamily.append (hsize _)).append (hface "font-weight" hbold _)).append
    (hface "font-style" hitalic _)).append (hface "text-decoration" hunderline _)).append
    (fillAttributes_within _)

/-! ### Path data -/

theorem pair_harmless {separator : String} (h : Harmless separator) (p : Point Float) :
    Harmless (pair separator p) :=
  ((number_harmless _).append h).append (number_harmless _)

theorem arcPath_harmless (t : Transform) (oval : Box Float) (sweep : Sweep Float) (wedge : Bool) :
    Harmless (arcPath t oval sweep wedge) := by
  have hpair (p : Point Float) : Harmless (pair " " p) :=
    pair_harmless (harmless_of_all (by decide)) p
  have hcentre : Harmless (if wedge then pair " " (t.point oval.center) ++ "L" else "") := by
    split
    · exact (hpair _).append (harmless_of_all (by decide))
    · exact harmless_empty
  have hflags : Harmless (if 180 < sweep.last - sweep.first then " 0 1 0 " else " 0 0 0 ") := by
    split <;> exact harmless_of_all (by decide)
  have hend : Harmless (if wedge then "Z" else "") := by
    split
    · exact harmless_of_all (by decide)
    · exact harmless_empty
  exact ((((((((harmless_of_all (by decide)).append hcentre).append (hpair _)).append
    (harmless_of_all (by decide))).append (hpair _)).append hflags).append (hpair _)).append hend)

theorem pointList_harmless (t : Transform) (points : List (Point Float)) :
    Harmless (pointList t points) := by
  have hpair (p : Point Float) : Harmless (pair "," p) :=
    pair_harmless (harmless_of_all (by decide)) p
  cases points with
  | nil => exact harmless_empty
  | cons p rest =>
    refine (hpair _).append (Harmless.join fun text htext => ?_)
    obtain ⟨q, -, rfl⟩ := List.mem_map.mp htext
    exact (harmless_of_all (by decide)).append (hpair _)

theorem spanPath_harmless (t : Transform) (span : Box Float) : Harmless (spanPath t span) := by
  have hmove : Harmless "M" := harmless_of_all (by decide)
  have hblank : Harmless " " := harmless_of_all (by decide)
  have hright : Harmless "h" := harmless_of_all (by decide)
  have hdown : Harmless "v" := harmless_of_all (by decide)
  have hclose : Harmless "Z" := harmless_of_all (by decide)
  have hcorner := hmove.append (pair_harmless hblank ⟨(t.box span).x, (t.box span).y⟩)
  have hacross := (hcorner.append hright).append (number_harmless (t.box span).width)
  have haround := (hacross.append hdown).append (number_harmless (t.box span).height)
  exact ((haround.append hright).append (number_harmless _)).append hclose

/-! ### Elements -/

section

variable (t : Transform) (s : Style Float)

theorem rectElement_proper (box : Box Float) (radius : Option (Point Float)) :
    (rectElement t box radius s).Proper := by
  have hbox (x y width height : Float) : Within ["x", "y", "width", "height"]
      [.num "x" x, .num "y" y, .num "width" width, .num "height" height] :=
    .num (.num (.num (.num .nil)))
  exact Element.proper_empty (by decide)
    ((((hbox _ _ _ _).append (corners_within t radius)).append (paint_within t s)).proper
      (by decide) (by decide))

theorem ellipseElement_proper (oval : Box Float) : (ellipseElement t oval s).Proper := by
  have hoval (cx cy rx ry : Float) : Within ["cx", "cy", "rx", "ry"]
      [.num "cx" cx, .num "cy" cy, .num "rx" rx, .num "ry" ry] := .num (.num (.num (.num .nil)))
  exact Element.proper_empty (by decide)
    (((hoval _ _ _ _).append (paint_within t s)).proper (by decide) (by decide))

theorem pathElement_proper {name : String} (hname : IsName name) {path : Attribute}
    (hpath : path.name ∈ ["d", "points"]) (hvalue : Harmless path.value) :
    (Element.empty name (path :: paint t s)).Proper := by
  have h : Within (path.name :: ["fill", "stroke", "stroke-width"]) (path :: paint t s) :=
    .cons hvalue (paint_within t s)
  simp only [List.mem_cons, List.not_mem_nil, or_false] at hpath
  rcases hpath with hpath | hpath
  all_goals
    rw [hpath] at h
    exact Element.proper_empty hname (h.proper (by decide) (by decide))

theorem arcElement_proper (oval : Box Float) (sweep : Sweep Float) (wedge : Bool) :
    (arcElement t oval sweep wedge s).Proper := by
  unfold arcElement
  split
  · exact ellipseElement_proper t s oval
  · exact pathElement_proper t s (by decide) (by simp) (arcPath_harmless t oval sweep wedge)

theorem lineElement_proper (start stop : Point Float) : (lineElement t start stop s).Proper := by
  have hends (x1 y1 x2 y2 : Float) : Within ["x1", "y1", "x2", "y2"]
      [.num "x1" x1, .num "y1" y1, .num "x2" x2, .num "y2" y2] := .num (.num (.num (.num .nil)))
  exact Element.proper_empty (by decide)
    (((hends _ _ _ _).append (stroke_within _ _)).proper (by decide) (by decide))

theorem polygonElement_proper (points : List (Point Float)) :
    (polygonElement t points s).Proper := by
  refine pathElement_proper t s ?_ (by simp) (pointList_harmless t points)
  split <;> decide

theorem regionElement_proper (box : Box Float) (points : List (Point Float)) :
    (regionElement t box points s).Proper := by
  unfold regionElement
  split
  · exact rectElement_proper t s box none
  · refine pathElement_proper t s (by decide) (by simp) (Harmless.join fun text htext => ?_)
    obtain ⟨span, -, rfl⟩ := List.mem_map.mp htext
    exact spanPath_harmless t span

theorem shapeElement?_proper {shape : Shape} {e : Element} (h : shapeElement? t shape s = some e) :
    e.Proper := by
  cases shape with
  | line start stop =>
    cases h
    exact lineElement_proper t s start stop
  | rect box | roundRect box radius =>
    cases h
    exact rectElement_proper t s box _
  | oval box =>
    cases h
    exact ellipseElement_proper t s box
  | arc oval sweep _ | wedge oval sweep _ =>
    cases h
    exact arcElement_proper t s oval sweep _
  | region box points =>
    cases h
    exact regionElement_proper t s box points
  | polygon points =>
    simp only [shapeElement?] at h
    split at h
    · cases h
    · cases h
      exact polygonElement_proper t s points

theorem textElement?_proper {font : Option Font}
    (hfont : ∀ f, font = some f → ∀ name, f.name = some name → Escapable name) {text : String}
    (htext : Escapable text) {position : Point Float} {e : Element}
    (h : textElement? t font text position = some e) : e.Proper := by
  unfold textElement? at h
  split at h
  · cases h
  · cases h
    have hnamed : ∀ name, (font.getD defaultFont).name = some name → Escapable name := by
      cases font with
      | none => exact nofun
      | some f => exact hfont f rfl
    have hplace : Within ["x", "y"]
        [.num "x" (t.point position).x, .num "y" (t.point position).y] := .num (.num .nil)
    have hattributes := hplace.append (fontAttributes_within t hnamed)
    refine ⟨show IsName "text" by decide, hattributes.proper (by decide) (by decide), ?_⟩
    rintro content ⟨⟩
    exact ⟨rfl, escape_harmless htext⟩

/-! ### Rasters -/

theorem Encoder.ofFile_harmless (png : Image → Option (Array UInt8)) :
    (Encoder.ofFile png).Harmless := by
  intro i data h
  obtain ⟨bytes, -, rfl⟩ := Option.map_eq_some_iff.mp h
  exact (harmless_of_all (by decide)).append (base64_harmless bytes)

theorem rasterElement?_proper {encode : Encoder} (hencode : encode.Harmless) {raster : Raster}
    {placement : Box Float} {e : Element} (h : rasterElement? t encode raster placement = some e) :
    e.Proper := by
  obtain ⟨address, haddress, rfl⟩ := Option.map_eq_some_iff.mp h
  have hvalue : Harmless address := by
    unfold rasterAddress? at haddress
    split at haddress
    · cases haddress
      exact (harmless_of_all (by decide)).append (base64_harmless _)
    · obtain ⟨data, hdata, rfl⟩ := Option.map_eq_some_iff.mp haddress
      obtain ⟨i, -, hi⟩ := Option.bind_eq_some_iff.mp hdata
      exact (harmless_of_all (by decide)).append (hencode i data hi)
  have hattributes : Within ["x", "y", "width", "height", "preserveAspectRatio", "href"]
      [.num "x" (t.box placement).x, .num "y" (t.box placement).y,
        .num "width" (t.box placement).width, .num "height" (t.box placement).height,
        ⟨"preserveAspectRatio", "none"⟩, ⟨"href", address⟩] :=
    .num (.num (.num (.num (.cons (harmless_of_all (by decide)) (.cons hvalue .nil)))))
  exact Element.proper_empty (by decide) (hattributes.proper (by decide) (by decide))

end

end QuickDraw.Svg
