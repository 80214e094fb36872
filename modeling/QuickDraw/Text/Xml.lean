/-!
# XML character data

`escape` writes text so that it can stand in an element or in a quoted
attribute: the five special characters become entities, and the control
characters that XML 1.0 has no form for are left out. Text that can stand there
is `Harmless`; it can be put together from parts (`Harmless.append`) and from
characters that mean nothing to XML (`harmless_of_plain`).
-/

namespace QuickDraw.Text.Xml

/-- XML 1.0 cannot hold the character: a control other than tab, newline and carriage return. -/
def Unwritable (c : Char) : Prop :=
  c.toNat < 0x20 ∧ c ≠ '\t' ∧ c ≠ '\n' ∧ c ≠ '\r'

instance (c : Char) : Decidable (Unwritable c) := inferInstanceAs (Decidable (_ ∧ _ ∧ _ ∧ _))

/-- The written form of one character. -/
def escapeChar (c : Char) : List Char :=
  if c = '&' then ['&', 'a', 'm', 'p', ';']
  else if c = '<' then ['&', 'l', 't', ';']
  else if c = '>' then ['&', 'g', 't', ';']
  else if c = '\x22' then ['&', 'q', 'u', 'o', 't', ';']
  else if c = '\x27' then ['&', 'a', 'p', 'o', 's', ';']
  else if Unwritable c then []
  else [c]

def escapeChars (cs : List Char) : List Char := cs.flatMap escapeChar

def escape (text : String) : String := String.ofList (escapeChars text.toList)

/-! ### Harmless text -/

/-- The characters of XML 1.0. -/
def Allowed (c : Char) : Prop :=
  c = '\t' ∨ c = '\n' ∨ c = '\r' ∨ 0x20 ≤ c.toNat ∧ c.toNat ≠ 0xFFFE ∧ c.toNat ≠ 0xFFFF

instance (c : Char) : Decidable (Allowed c) := inferInstanceAs (Decidable (_ ∨ _))

/-- The five entities that need no declaration. -/
def entities : List (List Char) :=
  [['&', 'a', 'm', 'p', ';'], ['&', 'l', 't', ';'], ['&', 'g', 't', ';'],
    ['&', 'q', 'u', 'o', 't', ';'], ['&', 'a', 'p', 'o', 's', ';']]

/-- Text that can stand in an element and between double quotes as it is. -/
structure Harmless (text : String) : Prop where
  allowed : ∀ c ∈ text.toList, Allowed c
  unmarked : ∀ c ∈ text.toList, c ≠ '<' ∧ c ≠ '>' ∧ c ≠ '\x22'
  entity : ∀ rest, '&' :: rest <:+ text.toList → ∃ e ∈ entities, e <+: '&' :: rest

/-- A character that stands for itself wherever it is. -/
def Plain (c : Char) : Prop := Allowed c ∧ c ∉ ['<', '>', '\x22', '&']

instance (c : Char) : Decidable (Plain c) := inferInstanceAs (Decidable (_ ∧ _))

/-- Text that is harmless once it is escaped. -/
def Escapable (text : String) : Prop := ∀ c ∈ text.toList, Allowed c ∨ Unwritable c

/-- A name that needs no quotes: letters, digits and hyphens behind a letter. -/
def IsName (name : String) : Prop :=
  name.toList.head?.any Char.isAlpha ∧ name.toList.all fun c => c.isAlphanum || c == '-'

instance (name : String) : Decidable (IsName name) := inferInstanceAs (Decidable (_ ∧ _))

theorem Harmless.append {s t : String} (hs : Harmless s) (ht : Harmless t) :
    Harmless (s ++ t) where
  allowed c hc := by
    rw [String.toList_append, List.mem_append] at hc
    exact hc.elim (hs.allowed c) (ht.allowed c)
  unmarked c hc := by
    rw [String.toList_append, List.mem_append] at hc
    exact hc.elim (hs.unmarked c) (ht.unmarked c)
  entity rest hrest := by
    obtain ⟨front, hfront⟩ := hrest
    rw [String.toList_append] at hfront
    -- The ampersand is in one of the parts, and if in the first then so is its entity.
    rcases List.append_eq_append_iff.mp hfront with ⟨more, hmore, hrest⟩ | ⟨more, hmore, hrest⟩
    · cases more with
      | nil => exact ht.entity rest ⟨[], by simpa using hrest⟩
      | cons c more =>
        obtain ⟨rfl, rfl⟩ : '&' = c ∧ rest = more ++ t.toList := by simpa using hrest
        obtain ⟨e, he, hprefix⟩ := hs.entity more ⟨front, hmore.symm⟩
        exact ⟨e, he, hprefix.trans (List.prefix_append _ _)⟩
    · exact ht.entity rest ⟨more, hrest.symm⟩

theorem harmless_empty : Harmless "" where
  allowed := by simp
  unmarked := by simp
  entity := by simp

theorem Harmless.join {texts : List String} (h : ∀ text ∈ texts, Harmless text) :
    Harmless (String.join texts) := by
  induction texts with
  | nil => exact harmless_empty
  | cons text rest ih =>
    obtain ⟨htext, hrest⟩ := List.forall_mem_cons.mp h
    rw [String.join_cons]
    exact htext.append (ih hrest)

theorem harmless_of_plain {text : String} (h : ∀ c ∈ text.toList, Plain c) : Harmless text where
  allowed c hc := (h c hc).1
  unmarked c hc := by
    have := (h c hc).2
    simp only [List.mem_cons, List.not_mem_nil, or_false, not_or] at this
    exact ⟨this.1, this.2.1, this.2.2.1⟩
  entity rest hrest := absurd (h '&' (hrest.subset List.mem_cons_self)).2 (by simp)

/-! What holds of the characters of a literal is computed on its list; an instance for the
quantifier might go through all characters that there are. -/

theorem forall_of_all {P : Char → Prop} [DecidablePred P] {cs : List Char}
    (h : cs.all fun c => decide (P c)) : ∀ c ∈ cs, P c :=
  fun c hc => of_decide_eq_true (List.all_eq_true.mp h c hc)

theorem harmless_of_all {text : String} (h : text.toList.all fun c => decide (Plain c)) :
    Harmless text :=
  harmless_of_plain (forall_of_all h)

/-- Of the low controls XML has three, and the others are left out. -/
theorem escapable_of_low {text : String}
    (h : ∀ c ∈ text.toList, Allowed c ∨ c.toNat < 0x20) : Escapable text := by
  intro c hc
  rcases h c hc with h | h
  · exact .inl h
  by_cases htab : c = '\t'
  · exact .inl (.inl htab)
  by_cases hline : c = '\n'
  · exact .inl (.inr (.inl hline))
  by_cases hreturn : c = '\r'
  · exact .inl (.inr (.inr (.inl hreturn)))
  · exact .inr ⟨h, htab, hline, hreturn⟩

theorem escapable_of_all {text : String} (h : text.toList.all fun c => decide (Allowed c)) :
    Escapable text :=
  fun c hc => .inl (forall_of_all h c hc)

theorem plain_of_isAlphanum {c : Char} (h : c.isAlphanum) : Plain c := by
  have hrange : 0x30 ≤ c.toNat ∧ c.toNat ≤ 0x7A := by
    unfold Char.isAlphanum Char.isAlpha Char.isUpper Char.isLower Char.isDigit at h
    simp [UInt32.le_iff_toNat_le] at h
    omega
  refine ⟨.inr (.inr (.inr (by omega))), fun hc => ?_⟩
  simp only [List.mem_cons, List.not_mem_nil, or_false] at hc
  rcases hc with rfl | rfl | rfl | rfl <;> cases h

end QuickDraw.Text.Xml
