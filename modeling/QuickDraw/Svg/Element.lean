import QuickDraw.Color
import QuickDraw.Svg.Number
import QuickDraw.Text.Hex
import QuickDraw.Text.Xml

/-!
# SVG elements

Elements with attributes and, for text, content. Attribute values and content are in the form
that they are written in, with whatever is special escaped.
-/

namespace QuickDraw.Svg

structure Attribute where
  name : String
  value : String
  deriving DecidableEq, Repr

structure Element where
  name : String
  attributes : List Attribute
  /-- Text between the tags, if the element has any. -/
  content : Option String
  deriving DecidableEq, Repr

/-- A colour as `#` and six digits. -/
def color (c : Rgb) : String := "#" ++ Text.Hex.encode [c.r, c.g, c.b]

namespace Attribute

def num [Printer] (name : String) (v : Float) : Attribute := ⟨name, number v⟩

/-- Colour and width of a line. A width that is not positive counts as one, which is what no
width stands for. -/
def stroke [Printer] (c : Rgb) (width : Float) : List Attribute :=
  let width := if 0 < width then width else 1
  ⟨"stroke", color c⟩ :: if width == 1 then [] else [num "stroke-width" width]

def text (a : Attribute) : String := " " ++ a.name ++ "=\"" ++ a.value ++ "\""

/-- Attributes, each with a blank in front. -/
def texts (attributes : List Attribute) : String := String.join (attributes.map text)

@[simp] theorem texts_nil : texts [] = "" := rfl

@[simp] theorem texts_cons (a : Attribute) (rest : List Attribute) :
    texts (a :: rest) = a.text ++ texts rest := String.join_cons

@[simp] theorem texts_append (as bs : List Attribute) :
    texts (as ++ bs) = texts as ++ texts bs := by
  unfold texts
  rw [List.map_append, String.join_append]

theorem texts_ite (p : Prop) [Decidable p] (as bs : List Attribute) :
    texts (if p then as else bs) = if p then texts as else texts bs := apply_ite texts p as bs

end Attribute

namespace Element

def empty (name : String) (attributes : List Attribute) : Element := ⟨name, attributes, none⟩

def text (e : Element) : String :=
  "<" ++ e.name ++ Attribute.texts e.attributes ++
    match e.content with
    | none => "/>"
    | some t => ">" ++ t ++ "</" ++ e.name ++ ">"

/-- Elements, one behind the other. -/
def texts (elements : List Element) : String := String.join (elements.map text)

end Element

end QuickDraw.Svg
