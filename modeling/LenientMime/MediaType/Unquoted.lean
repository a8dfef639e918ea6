import LenientMime.Text.Blank

namespace LenientMime

/-! Characters outside double quotes.

Separators and brackets count only outside quoted strings.  While a value is still
to be repaired, a backslash inside quotes hides whatever character follows it, and
quotes that are never closed reach to the end.
-/

inductive Quoting where
  | outside
  | inside
  /-- Inside, directly after a backslash that hides the next character. -/
  | hidden
deriving DecidableEq, Repr

namespace Quoting

def next : Quoting → Char → Quoting
  | .outside, c => if c == '"' then .inside else .outside
  | .inside, c => if c == '\\' then .hidden else if c == '"' then .outside else .inside
  | .hidden, _ => .inside

def split (separator : Char) : Quoting → Text → List Text
  | _, [] => [[]]
  | quoting, c :: rest =>
      if quoting = .outside ∧ c = separator then [] :: split separator .outside rest
      else
        match split separator (quoting.next c) rest with
        | [] => [[c]]
        | first :: later => (c :: first) :: later

def mark : Quoting → Text → List (Char × Bool)
  | _, [] => []
  | quoting, c :: rest => (c, quoting == .outside) :: mark (quoting.next c) rest

theorem map_fst_mark (quoting : Quoting) (text : Text) :
    (mark quoting text).map Prod.fst = text := by
  induction text generalizing quoting with
  | nil => rfl
  | cons c rest ih => simp [mark, ih]

end Quoting

namespace Text

/-- The text without a tag at its end.  The tag ends with the text, and starts at
the last opening bracket; both brackets stand outside quotes. -/
def withoutLastTag? (text : Text) : Option Text :=
  match (Quoting.mark .outside text).reverse with
  | ('>', true) :: before =>
      match before.dropWhile (· != ('<', true)) with
      | [] => none
      | _ :: kept => some (kept.reverse.map Prod.fst)
  | _ => none

theorem length_of_withoutLastTag {text kept : Text}
    (removed : text.withoutLastTag? = some kept) : kept.length < text.length := by
  have whole := congrArg List.length (Quoting.map_fst_mark .outside text)
  simp only [List.length_map] at whole
  unfold withoutLastTag? at removed
  split at removed
  · next before reversed =>
    have marked := congrArg List.length reversed
    simp only [List.length_reverse, List.length_cons] at marked
    split at removed
    · simp at removed
    · next bracket rest found =>
      obtain rfl := by simpa using removed
      have := (List.dropWhile_sublist (· != ('<', true)) (l := before)).length_le
      simp only [found, List.length_cons] at this
      simp only [List.length_map, List.length_reverse]
      omega
  · simp at removed

def withoutTags (text : Text) : Text :=
  match _ : text.trimEnd.withoutLastTag? with
  | some kept => withoutTags kept
  | none => text
termination_by text.length
decreasing_by
  exact Nat.lt_of_lt_of_le (length_of_withoutLastTag ‹_›) text.length_trimEnd_le

end Text

end LenientMime
