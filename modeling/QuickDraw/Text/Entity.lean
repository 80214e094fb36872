import QuickDraw.Text.Xml

/-!
# Entities read back

`unescape` goes through text from left to right and puts a character in the place of each of the
five entities; an ampersand that starts none of them stays. `appendEscaped` is `escape` in place:
a loop that adds the written form of one character after the other to what has been written.
-/

namespace QuickDraw.Text.Xml

/-- The entities that need no declaration. -/
inductive Entity where
  | amp
  | lt
  | gt
  | quot
  | apos
  deriving DecidableEq, Repr

namespace Entity

/-- The character that an entity stands for. -/
def char : Entity → Char
  | amp => '&'
  | lt => '<'
  | gt => '>'
  | quot => '\x22'
  | apos => '\x27'

def name : Entity → List Char
  | amp => ['a', 'm', 'p']
  | lt => ['l', 't']
  | gt => ['g', 't']
  | quot => ['q', 'u', 'o', 't']
  | apos => ['a', 'p', 'o', 's']

def text (e : Entity) : List Char := '&' :: (e.name ++ [';'])

theorem text_mem_entities (e : Entity) : e.text ∈ entities := by cases e <;> decide

/-- No entity is the beginning of another one. -/
theorem text_append_inj {e f : Entity} {s t : List Char} (h : e.text ++ s = f.text ++ t) :
    e = f ∧ s = t := by
  cases e <;> cases f <;> simp [text, name] at h ⊢ <;> exact h

theorem char_writable (e : Entity) : ¬Unwritable e.char := by cases e <;> decide

end Entity

/-! ### Reading -/

def unescapeChars : List Char → List Char
  | '&' :: 'a' :: 'm' :: 'p' :: ';' :: rest => Entity.amp.char :: unescapeChars rest
  | '&' :: 'l' :: 't' :: ';' :: rest => Entity.lt.char :: unescapeChars rest
  | '&' :: 'g' :: 't' :: ';' :: rest => Entity.gt.char :: unescapeChars rest
  | '&' :: 'q' :: 'u' :: 'o' :: 't' :: ';' :: rest => Entity.quot.char :: unescapeChars rest
  | '&' :: 'a' :: 'p' :: 'o' :: 's' :: ';' :: rest => Entity.apos.char :: unescapeChars rest
  | c :: rest => c :: unescapeChars rest
  | [] => []

def unescape (text : String) : String := String.ofList (unescapeChars text.toList)

@[simp] theorem unescapeChars_nil : unescapeChars [] = [] := rfl

@[simp] theorem unescapeChars_entity (e : Entity) (rest : List Char) :
    unescapeChars (e.text ++ rest) = e.char :: unescapeChars rest := by cases e <;> rfl

theorem unescapeChars_cons {c : Char} (h : c ≠ '&') (rest : List Char) :
    unescapeChars (c :: rest) = c :: unescapeChars rest := by
  rw [unescapeChars.eq_def]
  split <;> simp_all

/-! ### Writing -/

def writableChars (cs : List Char) : List Char := cs.filter fun c => ¬Unwritable c

/-- Text without the characters that have no form. -/
def writable (text : String) : String := String.ofList (writableChars text.toList)

@[simp] theorem writableChars_nil : writableChars [] = [] := rfl

theorem writableChars_cons (c : Char) (cs : List Char) :
    writableChars (c :: cs) = if Unwritable c then writableChars cs else c :: writableChars cs := by
  simp [writableChars, List.filter_cons]

theorem writableChars_eq_self {cs : List Char} (h : ∀ c ∈ cs, ¬Unwritable c) :
    writableChars cs = cs :=
  List.filter_eq_self.mpr fun c hc => decide_eq_true (h c hc)

/-- What has been written, with the form of one more character behind it. -/
def appendChar (out : String) (c : Char) : String :=
  match c with
  | '&' => out ++ "&amp;"
  | '<' => out ++ "&lt;"
  | '>' => out ++ "&gt;"
  | '\x22' => out ++ "&quot;"
  | '\x27' => out ++ "&apos;"
  | c => if c.toNat < 0x20 ∧ c ∉ ['\t', '\n', '\r'] then out else out.push c

def appendEscaped (out text : String) : String := text.toList.foldl appendChar out

/-- The characters that entities are for, the ampersand apart. -/
def marks : List Char := ['<', '>', '\x22', '\x27']

/-- Text that says nothing but characters: none that is special, and no ampersand that does not
start an entity. -/
structure Inert (cs : List Char) : Prop where
  writable : ∀ c ∈ cs, ¬Unwritable c
  unmarked : ∀ c ∈ cs, c ∉ marks
  entity : ∀ rest, '&' :: rest <:+ cs → ∃ e : Entity, e.text <+: '&' :: rest

end QuickDraw.Text.Xml
