import QuickDraw.Text.Decoder

/-!
# Mac Roman

The text encoding of classic pictures: ASCII below 128, and a table above.
-/

namespace QuickDraw.Text.MacRoman

/-- The characters of the bytes from 128 on. -/
def upper : Array Char :=
  ("ÄÅÇÉÑÖÜáàâäãåçéèêëíìîïñóòôöõúùûü" ++
   "†°¢£§•¶ß®©™´¨≠ÆØ∞±≤≥¥µ∂∑∏π∫ªºΩæø" ++
   "¿¡¬√ƒ≈∆«»…\u00a0ÀÃÕŒœ–—“”‘’÷◊ÿŸ⁄€‹›ﬁﬂ" ++
   "‡·‚„‰ÂÊÁËÈÍÎÏÌÓÔ\uf8ffÒÚÛÙıˆ˜¯˘˙˚¸˝˛ˇ").toList.toArray

def char (b : UInt8) : Char :=
  if b < 128 then Char.ofNat b.toNat else upper.getD (b.toNat - 128) '\ufffd'

def decode (bytes : Array UInt8) : String := String.ofList (bytes.toList.map char)

instance decoder : Decoder := ⟨decode⟩

theorem allowed_of_mem_upper {c : Char} (h : c ∈ upper) : Xml.Allowed c := by
  unfold upper at h
  rw [List.mem_toArray] at h
  repeat rw [String.toList_append, List.mem_append] at h
  -- A literal is opened by its characters; to decode its bytes would take long.
  rcases h with ((h | h) | h) | h
  all_goals
    rw [String.toList_ofList] at h
    exact Xml.forall_of_all (by decide) c h

/-- XML has a place for every character, but for the controls that are left out. -/
theorem char_escapable (b : UInt8) : Xml.Allowed (char b) ∨ Xml.Unwritable (char b) := by
  have hlower : ∀ n < 128, Xml.Allowed (Char.ofNat n) ∨ Xml.Unwritable (Char.ofNat n) := by decide
  unfold char
  split
  · next hb => exact hlower b.toNat (UInt8.lt_iff_toNat_lt.mp hb)
  · left
    rw [Array.getD_eq_getD_getElem?]
    cases hc : upper[b.toNat - 128]? with
    | none => decide
    | some c => exact allowed_of_mem_upper (Array.mem_of_getElem? hc)

theorem decode_escapable (bytes : Array UInt8) : Xml.Escapable (decode bytes) := by
  intro c hc
  rw [decode, String.toList_ofList] at hc
  obtain ⟨b, -, rfl⟩ := List.mem_map.mp hc
  exact char_escapable b

instance : decoder.Sound := ⟨decode_escapable⟩

end QuickDraw.Text.MacRoman
