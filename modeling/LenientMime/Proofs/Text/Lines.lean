import LenientMime.Text.Lines

namespace LenientMime.Text

def IsLineEnd (text : Text) : Prop :=
  text = ['\n'] ∨ text = ['\r', '\n']

section Lines

variable {c : Char} {text lineEnd rest line : Text} {later : List Text}

theorem lines_lineFeed (rest : Text) : lines ('\n' :: rest) = [] :: lines rest := by
  rw [lines]

theorem lines_crlf (rest : Text) : lines ('\r' :: '\n' :: rest) = [] :: lines rest := by
  rw [lines]

/-- A character that is no part of a line end belongs to the line that goes on behind it. -/
theorem lines_cons (noFeed : c ≠ '\n') (noBreak : c = '\r' → rest.head? ≠ some '\n') :
    lines (c :: rest) = (c :: (lines rest).headD []) :: (lines rest).tail := by
  rw [lines]
  · cases lines rest <;> rfl
  · exact noFeed
  · rintro behind rfl rfl
    exact noBreak rfl rfl

theorem lines_lineEnd (rest : Text) (unbroken : '\n' ∉ text)
    (noReturn : text.getLast? ≠ some '\r') (ends : IsLineEnd lineEnd) :
    lines (text ++ (lineEnd ++ rest)) = text :: lines rest := by
  induction text with
  | nil =>
      rcases ends with rfl | rfl
      · exact lines_lineFeed rest
      · exact lines_crlf rest
  | cons c text ih =>
      obtain ⟨here, behind⟩ := List.ne_and_not_mem_of_not_mem_cons unbroken
      cases text with
      | nil =>
          have solid : c ≠ '\r' := fun same => noReturn (same ▸ rfl)
          have later := ih behind (by simp)
          rw [List.nil_append] at later
          rw [List.singleton_append, lines_cons (Ne.symm here) fun same => absurd same solid, later]
          rfl
      | cons d text =>
          have later := ih behind (by simpa [List.getLast?_cons] using noReturn)
          have goesOn : c = '\r' → (d :: text ++ (lineEnd ++ rest)).head? ≠ some '\n' :=
            fun _ shown => behind (List.mem_cons.mpr (.inl (Option.some.inj shown).symm))
          rw [List.cons_append, lines_cons (Ne.symm here) goesOn, later]
          rfl

theorem lines_unbroken (unbroken : '\n' ∉ text) (nonempty : text ≠ []) : lines text = [text] := by
  induction text with
  | nil => contradiction
  | cons c text ih =>
      obtain ⟨here, behind⟩ := List.ne_and_not_mem_of_not_mem_cons unbroken
      have goesOn : c = '\r' → text.head? ≠ some '\n' := fun _ shown =>
        behind (List.mem_of_head? shown)
      rw [lines_cons (Ne.symm here) goesOn]
      cases text with
      | nil => rfl
      | cons d text =>
          rw [ih behind (List.cons_ne_nil d text)]
          rfl

end Lines

end LenientMime.Text
