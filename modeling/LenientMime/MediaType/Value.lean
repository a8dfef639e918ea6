import LenientMime.Text.Blank
import LenientMime.Text.Token

namespace LenientMime

namespace Text

/-- The text between double quotes, with quotes and backslashes escaped. -/
def inQuotes (text : Text) : Text :=
  '"' :: text.flatMap (fun c => if c == '"' || c == '\\' then ['\\', c] else [c]) ++ ['"']

/-- The value of a quoted string behind its opening quote, and what follows its
closing quote.  A line break cannot stand inside.  A backslash quotes special characters only. -/
def readQuoted? : Text → Option (Text × Text)
  | [] => none
  | '"' :: rest => some ([], rest)
  | '\\' :: c :: rest =>
      if isSpecial c then (readQuoted? rest).map fun found => (c :: found.1, found.2)
      else (readQuoted? (c :: rest)).map fun found => ('\\' :: found.1, found.2)
  | c :: rest =>
      if c == '\r' || c == '\n' then none
      else (readQuoted? rest).map fun found => (c :: found.1, found.2)

def readValue? : Text → Option (Text × Text)
  | '"' :: rest => readQuoted? rest
  | text =>
      match token text with
      | ([], _) => none
      | found => some found

theorem length_of_readQuoted {text value rest : Text}
    (found : readQuoted? text = some (value, rest)) : rest.length < text.length := by
  fun_induction readQuoted? text generalizing value with
  | case1 => simp at found
  | case2 =>
      obtain ⟨-, rfl⟩ := by simpa using found
      simp
  | case3 c after special ih =>
      obtain ⟨_, inner, -⟩ := by simpa using found
      have := ih inner
      simp only [List.length_cons]
      omega
  | case4 c after special ih =>
      obtain ⟨_, inner, -⟩ := by simpa using found
      have := ih inner
      simp only [List.length_cons] at this ⊢
      omega
  | case5 => simp at found
  | case6 c after _ _ _ ih =>
      obtain ⟨_, inner, -⟩ := by simpa using found
      have := ih inner
      simp only [List.length_cons]
      omega

theorem length_of_token_le (text : Text) : (token text).2.length ≤ text.length :=
  (List.dropWhile_sublist isTokenChar).length_le

theorem length_of_readValue {text value rest : Text}
    (found : readValue? text = some (value, rest)) : rest.length ≤ text.length := by
  unfold readValue? at found
  split at found
  · have := length_of_readQuoted found
    simp only [List.length_cons]
    omega
  · split at found
    · simp at found
    · have := length_of_token_le text
      simp only [Option.some.injEq] at found
      simpa [found] using this

end Text

end LenientMime
