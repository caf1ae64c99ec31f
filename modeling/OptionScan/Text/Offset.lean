/-!
Positions inside a text, counted in the bytes of its UTF-8 form. A position names a suffix of
the text when it falls between two characters or at the end; a position inside a character, or
past the end, names nothing.
-/

namespace OptionScan

def byteWidth : List Char → Nat
  | [] => 0
  | c :: rest => c.utf8Size + byteWidth rest

/-- What remains of a text from a byte position on. -/
def dropBytes? : List Char → Nat → Option (List Char)
  | text, 0 => some text
  | [], _ + 1 => none
  | c :: rest, position + 1 =>
    if c.utf8Size ≤ position + 1 then dropBytes? rest (position + 1 - c.utf8Size) else none

@[simp] theorem byteWidth_nil : byteWidth [] = 0 := rfl

@[simp] theorem byteWidth_append (left right : List Char) :
    byteWidth (left ++ right) = byteWidth left + byteWidth right := by
  induction left with
  | nil => simp
  | cons c rest ih => simp [byteWidth, ih, Nat.add_assoc]

theorem byteWidth_eq_zero {text : List Char} : byteWidth text = 0 ↔ text = [] := by
  cases text with
  | nil => simp
  | cons c rest =>
    have := Char.utf8Size_pos c
    simp [byteWidth]
    omega

/-- The position after a prefix names what follows the prefix. -/
@[simp] theorem dropBytes?_append (left right : List Char) :
    dropBytes? (left ++ right) (byteWidth left) = some right := by
  induction left with
  | nil => cases right <;> rfl
  | cons c rest ih =>
    have hpos := Char.utf8Size_pos c
    obtain ⟨n, hn⟩ : ∃ n, c.utf8Size + byteWidth rest = n + 1 :=
      ⟨c.utf8Size + byteWidth rest - 1, by omega⟩
    have hrest : n + 1 - c.utf8Size = byteWidth rest := by omega
    simp only [List.cons_append, byteWidth, hn, dropBytes?, hrest, ih]
    rw [if_pos (by omega)]

/-- A position names something only if it is the width of a prefix. -/
theorem eq_append_of_dropBytes? {text rest : List Char} {position : Nat}
    (h : dropBytes? text position = some rest) :
    ∃ before, text = before ++ rest ∧ byteWidth before = position := by
  induction text generalizing position with
  | nil =>
    cases position with
    | zero => exact ⟨[], by simpa [dropBytes?] using h, rfl⟩
    | succ n => simp [dropBytes?] at h
  | cons c tail ih =>
    cases position with
    | zero => exact ⟨[], by simpa [dropBytes?] using h, rfl⟩
    | succ n =>
      rw [dropBytes?] at h
      split at h
      · obtain ⟨before, hbefore, hwidth⟩ := ih h
        refine ⟨c :: before, by simp [hbefore], ?_⟩
        simp only [byteWidth, hwidth]
        omega
      · cases h

end OptionScan
