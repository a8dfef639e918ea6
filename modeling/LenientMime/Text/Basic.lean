import LenientMime.Bytes

namespace LenientMime

abbrev Text := List Char

namespace Text

/-- Lower-cases `A` to `Z` and leaves every other character alone. -/
def lower (text : Text) : Text :=
  text.map Char.toLower

def ofAscii (bytes : Bytes) : Text :=
  bytes.map fun byte => Char.ofNat byte.toNat

def isAscii (text : Text) : Bool :=
  text.all fun c => c.toNat < 0x80

def holds (pattern : Text) : Text → Bool
  | [] => pattern.isEmpty
  | c :: rest => pattern.isPrefixOf (c :: rest) || holds pattern rest

def cut? (separator : Char) (text : Text) : Option (Text × Text) :=
  match text.dropWhile (· != separator) with
  | [] => none
  | _ :: after => some (text.takeWhile (· != separator), after)

/-- The pieces between separators; there is always one more piece than there are
separators. -/
def pieces (separator : Char) : Text → List Text
  | [] => [[]]
  | c :: rest =>
      if c == separator then [] :: pieces separator rest
      else match pieces separator rest with
        | [] => [[c]]
        | first :: later => (c :: first) :: later

def ofNat (n : Nat) : Text :=
  Nat.toDigits 10 n

theorem holds_iff {pattern text : Text} : holds pattern text = true ↔ pattern <:+: text := by
  induction text with
  | nil => simp [holds]
  | cons c rest ih => simp [holds, List.infix_cons_iff, ih]

theorem eq_of_cut {separator : Char} {text before after : Text}
    (found : cut? separator text = some (before, after)) :
    text = before ++ separator :: after ∧ separator ∉ before := by
  simp only [cut?] at found
  split at found
  · simp at found
  · next c rest shown =>
    obtain ⟨rfl, rfl⟩ := by simpa using found
    have whole := List.takeWhile_append_dropWhile (p := (· != separator)) (l := text)
    have stopped := List.head?_dropWhile_not (· != separator) text
    rw [shown] at whole stopped
    obtain rfl : c = separator := by simpa using stopped
    refine ⟨whole.symm, fun member => ?_⟩
    simpa using List.all_eq_true.mp List.all_takeWhile c member

theorem cut?_append {separator : Char} {before : Text} (after : Text)
    (absent : separator ∉ before) :
    cut? separator (before ++ separator :: after) = some (before, after) := by
  have passed : ∀ c ∈ before, (c != separator) = true := by
    intro c member
    simpa using fun same : c = separator => absent (same ▸ member)
  simp [cut?, List.dropWhile_append_of_pos passed, List.takeWhile_append_of_pos passed]

theorem cut?_of_absent {separator : Char} {text : Text} (absent : separator ∉ text) :
    cut? separator text = none := by
  cases found : cut? separator text with
  | none => rfl
  | some halves =>
      obtain ⟨rfl, -⟩ := eq_of_cut found
      exact absurd (by simp) absent

theorem pieces_of_absent {separator : Char} {text : Text} (absent : separator ∉ text) :
    pieces separator text = [text] := by
  induction text with
  | nil => rfl
  | cons c rest ih =>
      obtain ⟨distinct, later⟩ := List.ne_and_not_mem_of_not_mem_cons absent
      simp [pieces, distinct.symm, ih later]

theorem pieces_append {separator : Char} {text : Text} (absent : separator ∉ text) (rest : Text) :
    pieces separator (text ++ separator :: rest) = text :: pieces separator rest := by
  induction text with
  | nil => simp [pieces]
  | cons c front ih =>
      obtain ⟨distinct, later⟩ := List.ne_and_not_mem_of_not_mem_cons absent
      simp [pieces, distinct.symm, ih later]

end Text

end LenientMime
