import QuickDraw.Text.Entity

/-!
# Escaped text

The form of a character is an entity, or the character, or nothing. An ampersand in escaped text is
therefore the first character of the form of one character of the text (`entityAt_of_escapeChars`),
and what is in front of it and behind it is escaped text again. From this it follows that escaped
text is inert and can be read in one way only (`escape_reversible`).
-/

namespace QuickDraw.Text.Xml

variable {cs front back : List Char} {c : Char}

/-! ### Forms of characters -/

@[simp] theorem escapeChar_char (e : Entity) : escapeChar e.char = e.text := by cases e <;> rfl

theorem escapeChar_of_ne (h : ∀ e : Entity, c ≠ e.char) :
    escapeChar c = if Unwritable c then [] else [c] := by
  have hamp : c ≠ '&' := h .amp
  have hlt : c ≠ '<' := h .lt
  have hgt : c ≠ '>' := h .gt
  have hquot : c ≠ '\x22' := h .quot
  have hapos : c ≠ '\x27' := h .apos
  unfold escapeChar
  rw [if_neg hamp, if_neg hlt, if_neg hgt, if_neg hquot, if_neg hapos]

theorem escapeChar_of_unwritable (h : Unwritable c) : escapeChar c = [] := by
  have hne (e : Entity) : c ≠ e.char := fun hc => e.char_writable (hc ▸ h)
  rw [escapeChar_of_ne hne, if_pos h]

/-- The three kinds of characters, with their forms. -/
inductive Form : Char → List Char → Prop
  | entity (e : Entity) : Form e.char e.text
  | self {c : Char} (hne : ∀ e : Entity, c ≠ e.char) (hwritable : ¬Unwritable c) : Form c [c]
  | none {c : Char} (hunwritable : Unwritable c) : Form c []

theorem form_escapeChar (c : Char) : Form c (escapeChar c) := by
  by_cases hspecial : ∃ e : Entity, c = e.char
  · obtain ⟨e, rfl⟩ := hspecial
    rw [escapeChar_char]
    exact .entity e
  · have hne : ∀ e : Entity, c ≠ e.char := not_exists.mp hspecial
    rw [escapeChar_of_ne hne]
    split
    · exact .none ‹_›
    · exact .self hne ‹_›

@[simp] theorem escapeChars_nil : escapeChars [] = [] := rfl

@[simp] theorem escapeChars_cons (c : Char) (cs : List Char) :
    escapeChars (c :: cs) = escapeChar c ++ escapeChars cs := List.flatMap_cons

@[simp] theorem escapeChars_append (cs ds : List Char) :
    escapeChars (cs ++ ds) = escapeChars cs ++ escapeChars ds := List.flatMap_append

theorem toList_escape (text : String) : (escape text).toList = escapeChars text.toList :=
  String.toList_ofList

/-! ### Characters of escaped text -/

theorem Allowed.writable (h : Allowed c) : ¬Unwritable c := by
  rintro ⟨hlow, htab, hline, hreturn⟩
  rcases h with h | h | h | h
  · exact htab h
  · exact hline h
  · exact hreturn h
  · omega

theorem Entity.of_mem_text {e : Entity} (h : c ∈ e.text) : Allowed c ∧ c ∉ marks := by
  have hall : ∀ c ∈ e.text, Allowed c ∧ c ∉ marks := by cases e <;> exact forall_of_all (by decide)
  exact hall c h

/-- Entities are for the ampersand and for the marks. -/
theorem exists_eq_char_iff : (∃ e : Entity, c = e.char) ↔ c = '&' ∨ c ∈ marks := by
  constructor
  · rintro ⟨e, rfl⟩
    cases e <;> decide
  · simp only [marks, List.mem_cons, List.not_mem_nil, or_false]
    rintro (rfl | rfl | rfl | rfl | rfl)
    · exact ⟨.amp, rfl⟩
    · exact ⟨.lt, rfl⟩
    · exact ⟨.gt, rfl⟩
    · exact ⟨.quot, rfl⟩
    · exact ⟨.apos, rfl⟩

/-- Escaped text has the characters of entities and those of the text that need none. -/
theorem mem_escapeChars (h : c ∈ escapeChars cs) :
    (∃ e : Entity, c ∈ e.text) ∨ c ∈ cs ∧ ¬Unwritable c ∧ ∀ e : Entity, c ≠ e.char := by
  obtain ⟨d, hd, hc⟩ := List.mem_flatMap.mp h
  generalize hform : escapeChar d = form at hc
  cases hform ▸ form_escapeChar d with
  | entity e => exact .inl ⟨e, hc⟩
  | self hne hwritable =>
    obtain rfl := List.mem_singleton.mp hc
    exact .inr ⟨hd, hwritable, hne⟩
  | none => cases hc

/-- The only ampersand of an entity is its first character. -/
theorem Entity.split_text {e : Entity} {rest : List Char}
    (h : e.text ++ rest = front ++ '&' :: back) :
    front = [] ∨ ∃ front', front = e.text ++ front' ∧ rest = front' ++ '&' :: back := by
  have hname : '&' ∉ e.name ++ [';'] := by cases e <;> decide
  cases front with
  | nil => exact .inl rfl
  | cons c front =>
    obtain ⟨rfl, htail⟩ := List.cons.inj h
    rcases List.append_eq_append_iff.mp htail with ⟨more, rfl, hrest⟩ | ⟨more, hmore, hrest⟩
    · exact .inr ⟨more, rfl, hrest⟩
    · cases more with
      | nil => exact .inr ⟨[], by simpa [text] using hmore.symm, hrest.symm⟩
      | cons d more =>
        obtain ⟨rfl, -⟩ := List.cons.inj hrest
        exact absurd (hmore ▸ List.mem_append_right _ List.mem_cons_self) hname

/-- The form of a special character of `cs` starts at `rest`, between the forms of what is in front
of this character and of what is behind it. -/
def EntityAt (cs front rest : List Char) : Prop :=
  ∃ (e : Entity) (before after : List Char), cs = before ++ e.char :: after ∧
    escapeChars before = front ∧ rest = e.text ++ escapeChars after

theorem EntityAt.cons {rest : List Char} (h : EntityAt cs front rest) (c : Char) :
    EntityAt (c :: cs) (escapeChar c ++ front) rest := by
  obtain ⟨e, before, after, rfl, rfl, hrest⟩ := h
  exact ⟨e, c :: before, after, rfl, escapeChars_cons c before, hrest⟩

/-- An ampersand is the start of an entity. -/
theorem entityAt_of_escapeChars (h : escapeChars cs = front ++ '&' :: back) :
    EntityAt cs front ('&' :: back) := by
  induction cs generalizing front with
  | nil => simp at h
  | cons c cs ih =>
    -- The ampersand starts the form of `c`, or it is behind it.
    have hbehind {front' : List Char} (hrest : escapeChars cs = front' ++ '&' :: back) :=
      (ih hrest).cons c
    rw [escapeChars_cons] at h
    generalize hform : escapeChar c = form at h hbehind
    cases hform ▸ form_escapeChar c with
    | entity e =>
      rcases e.split_text h with rfl | ⟨front', rfl, hrest⟩
      · exact ⟨e, [], cs, rfl, rfl, h.symm⟩
      · exact hbehind hrest
    | self hne hwritable =>
      cases front with
      | nil => exact absurd (List.cons.inj h).1 (hne .amp)
      | cons d front =>
        obtain ⟨rfl, hrest⟩ := List.cons.inj h
        exact hbehind hrest
    | none => exact hbehind h

theorem inert_escapeChars (cs : List Char) : Inert (escapeChars cs) where
  writable _ hc := (mem_escapeChars hc).elim (fun ⟨_, he⟩ => (Entity.of_mem_text he).1.writable)
    fun h => h.2.1
  unmarked _ hc := (mem_escapeChars hc).elim (fun ⟨_, he⟩ => (Entity.of_mem_text he).2)
    fun h hmark => not_exists.mpr h.2.2 (exists_eq_char_iff.mpr (.inr hmark))
  entity rest hrest := by
    obtain ⟨front, hfront⟩ := hrest
    obtain ⟨e, -, after, -, -, hback⟩ := entityAt_of_escapeChars hfront.symm
    exact ⟨e, escapeChars after, hback.symm⟩

/-- Escaped text can stand in an element if each character of the text is allowed or left out. -/
theorem escape_harmless {text : String} (h : Escapable text) : Harmless (escape text) := by
  have hinert := inert_escapeChars text.toList
  constructor <;> rw [toList_escape]
  · intro c hc
    rcases mem_escapeChars hc with ⟨e, he⟩ | ⟨hmem, hwritable, -⟩
    · exact (Entity.of_mem_text he).1
    · exact (h c hmem).resolve_right hwritable
  · intro c hc
    have hmark := hinert.unmarked c hc
    simp only [marks, List.mem_cons, List.not_mem_nil, or_false, not_or] at hmark
    exact ⟨hmark.1, hmark.2.1, hmark.2.2.1⟩
  · intro rest hrest
    obtain ⟨e, he⟩ := hinert.entity rest hrest
    exact ⟨e.text, e.text_mem_entities, he⟩

/-! ### Reading back -/

theorem unescapeChars_escapeChars (cs : List Char) :
    unescapeChars (escapeChars cs) = writableChars cs := by
  induction cs with
  | nil => rfl
  | cons c cs ih =>
    rw [escapeChars_cons, writableChars_cons]
    generalize hform : escapeChar c = form
    cases hform ▸ form_escapeChar c with
    | entity e => rw [unescapeChars_entity, ih, if_neg e.char_writable]
    | self hne hwritable =>
      rw [List.singleton_append, unescapeChars_cons (hne .amp), ih, if_neg hwritable]
    | none hunwritable => rw [List.nil_append, ih, if_pos hunwritable]

/-- What has no form leaves no trace. -/
theorem escapeChars_writableChars (cs : List Char) :
    escapeChars (writableChars cs) = escapeChars cs := by
  induction cs with
  | nil => rfl
  | cons c cs ih =>
    rw [writableChars_cons]
    split
    · rw [ih, escapeChars_cons, escapeChar_of_unwritable ‹_›, List.nil_append]
    · rw [escapeChars_cons, ih, escapeChars_cons]

theorem escapeChars_inj {cs ds : List Char} :
    escapeChars cs = escapeChars ds ↔ writableChars cs = writableChars ds := by
  constructor
  · intro h
    rw [← unescapeChars_escapeChars, h, unescapeChars_escapeChars]
  · intro h
    rw [← escapeChars_writableChars, h, escapeChars_writableChars]

theorem Inert.of_append (h : Inert (front ++ back)) : Inert back where
  writable c hc := h.writable c (List.mem_append_right _ hc)
  unmarked c hc := h.unmarked c (List.mem_append_right _ hc)
  entity rest hrest := h.entity rest (hrest.trans (List.suffix_append _ _))

/-- Inert text is the escaped form of what is read in it. -/
theorem Inert.escapeChars_unescapeChars (h : Inert cs) : escapeChars (unescapeChars cs) = cs := by
  -- On the length: what is read first is an entity or one character.
  induction hlength : cs.length using Nat.strongRecOn generalizing cs with
  | ind n ih =>
    subst hlength
    cases cs with
    | nil => rfl
    | cons c rest =>
      by_cases hamp : c = '&'
      · subst hamp
        obtain ⟨e, back, hback⟩ := h.entity rest (List.suffix_refl _)
        rw [← hback] at h ih ⊢
        have hlt : back.length < (e.text ++ back).length := by
          simp only [Entity.text, List.length_append, List.length_cons]
          omega
        rw [unescapeChars_entity, escapeChars_cons, escapeChar_char, ih _ hlt h.of_append rfl]
      · have hrest : Inert rest := Inert.of_append (show Inert ([c] ++ rest) from h)
        have hne (e : Entity) : c ≠ e.char := fun hc =>
          (exists_eq_char_iff.mp ⟨e, hc⟩).elim hamp (h.unmarked c List.mem_cons_self)
        rw [unescapeChars_cons hamp, escapeChars_cons, escapeChar_of_ne hne,
          if_neg (h.writable c List.mem_cons_self), ih _ (by simp) hrest rfl, List.singleton_append]

/-! ### Writing in place -/

theorem appendChar_eq (out : String) (c : Char) :
    appendChar out c = out ++ String.ofList (escapeChar c) := by
  unfold appendChar
  split
  case h_6 hamp hlt hgt hquot hapos =>
    have hne (e : Entity) : c ≠ e.char := by cases e <;> assumption
    have hcontrol : (c.toNat < 0x20 ∧ c ∉ ['\t', '\n', '\r']) ↔ Unwritable c := by
      simp [Unwritable]
    rw [escapeChar_of_ne hne]
    simp only [hcontrol]
    split
    · exact (String.append_empty).symm
    · rfl
  all_goals rfl

theorem foldl_appendChar (cs : List Char) (out : String) :
    cs.foldl appendChar out = out ++ String.ofList (escapeChars cs) := by
  induction cs generalizing out with
  | nil => exact (String.append_empty).symm
  | cons c cs ih =>
    rw [List.foldl_cons, ih, appendChar_eq, escapeChars_cons, String.ofList_append,
      String.append_assoc]

theorem appendEscaped_eq (out text : String) : appendEscaped out text = out ++ escape text :=
  foldl_appendChar text.toList out

/-! ### Strings -/

theorem escape_ofList (cs : List Char) :
    escape (String.ofList cs) = String.ofList (escapeChars cs) := by
  rw [escape, String.toList_ofList]

theorem unescape_escape (text : String) : unescape (escape text) = writable text := by
  rw [unescape, toList_escape, unescapeChars_escapeChars, writable]

theorem escape_inj {s t : String} : escape s = escape t ↔ writable s = writable t := by
  simp only [escape, writable, String.ofList_inj]
  exact escapeChars_inj

theorem escape_append (s t : String) : escape (s ++ t) = escape s ++ escape t := by
  rw [escape, String.toList_append, escapeChars_append, String.ofList_append, escape, escape]

/-- An entity is in escaped text exactly where its character is in the text. -/
theorem escape_eq_append_iff {e : Entity} {text front back : String} :
    escape text = front ++ String.ofList e.text ++ back ↔
      ∃ before after, text = before ++ String.singleton e.char ++ after ∧
        escape before = front ∧ escape after = back := by
  constructor
  · intro h
    have hchars : escapeChars text.toList =
        front.toList ++ '&' :: (e.name ++ [';'] ++ back.toList) := by
      rw [← toList_escape, h]
      simp [Entity.text]
    obtain ⟨f, before, after, htext, hfront, hback⟩ := entityAt_of_escapeChars hchars
    obtain ⟨rfl, hafter⟩ := Entity.text_append_inj hback
    refine ⟨String.ofList before, String.ofList after, ?_, ?_, ?_⟩
    · apply String.toList_inj.mp
      simp [htext]
    · rw [escape_ofList, hfront, String.ofList_toList]
    · rw [escape_ofList, ← hafter, String.ofList_toList]
  · rintro ⟨before, after, rfl, rfl, rfl⟩
    have hchar : escape (String.singleton e.char) = String.ofList e.text := by
      rw [escape, String.toList_singleton, escapeChars_cons, escapeChars_nil, List.append_nil,
        escapeChar_char]
    rw [escape_append, escape_append, hchar]

/-- Escaped text is inert, and reading it gives back the text without what has no form. So escaping
keeps apart whatever differs in more than that, and goes through a text piece by piece. An entity
in escaped text is the form of one character of the text, wherever the escaped text is split; and
any inert text is the escaped form of what is read in it. -/
theorem escape_reversible (text : String) :
    (∀ out, appendEscaped out text = out ++ escape text) ∧
    Inert (escape text).toList ∧
    unescape (escape text) = writable text ∧
    (∀ other, escape text = escape other ↔ writable text = writable other) ∧
    (∀ other, (∀ c ∈ text.toList, ¬Unwritable c) → (∀ c ∈ other.toList, ¬Unwritable c) →
      escape text = escape other → text = other) ∧
    (∀ other, escape (text ++ other) = escape text ++ escape other) ∧
    (∀ (e : Entity) (front back : String),
      escape text = front ++ String.ofList e.text ++ back ↔
        ∃ before after, text = before ++ String.singleton e.char ++ after ∧
          escape before = front ∧ escape after = back) ∧
    (Inert text.toList → escape (unescape text) = text) := by
  have hself {text : String} (h : ∀ c ∈ text.toList, ¬Unwritable c) : writable text = text := by
    rw [writable, writableChars_eq_self h, String.ofList_toList]
  refine ⟨fun out => appendEscaped_eq out text, ?_, unescape_escape text, fun other => escape_inj,
    fun other htext hother h => ?_, escape_append text, fun e front back => escape_eq_append_iff,
    fun h => ?_⟩
  · rw [toList_escape]
    exact inert_escapeChars _
  · rw [← hself htext, ← hself hother]
    exact escape_inj.mp h
  · rw [unescape, escape_ofList, h.escapeChars_unescapeChars, String.ofList_toList]

/-- Text that looks like an entity keeps its ampersand, and a control character goes. -/
theorem escape_reversible_entity :
    appendEscaped "<b>" "&lt;\x01" = "<b>&amp;lt;" ∧ unescape "&amp;lt;" = "&lt;" ∧
      (∀ c ∈ "&lt;".toList, ¬Unwritable c) ∧
      (∀ other : String, (∀ c ∈ other.toList, ¬Unwritable c) → escape other = "&amp;lt;" →
        other = "&lt;") ∧
      Inert "&amp;lt;".toList ∧ escape (unescape "&amp;lt;") = "&amp;lt;" := by
  have hescape : escape "&lt;" = "&amp;lt;" := by decide
  have hwritable : ∀ c ∈ "&lt;".toList, ¬Unwritable c := forall_of_all (by decide)
  obtain ⟨-, hinert, hread, -, hinj, -, -, -⟩ := escape_reversible "&lt;"
  obtain ⟨happend, -⟩ := escape_reversible "&lt;\x01"
  obtain ⟨-, -, -, -, -, -, -, hcanonical⟩ := escape_reversible "&amp;lt;"
  rw [hescape] at hinert hread
  refine ⟨?_, ?_, hwritable, fun other hother h => ?_, hinert, hcanonical hinert⟩
  · rw [happend]
    decide
  · rw [hread]
    decide
  · exact (hinj other hwritable hother (hescape.trans h.symm)).symm

end QuickDraw.Text.Xml
