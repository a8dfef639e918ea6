import LenientMime.Charset.Utf16

namespace LenientMime.Json

inductive Token where
  | leftBracket
  | rightBracket
  | leftBrace
  | rightBrace
  | comma
  | colon
  | null
  | bool (value : Bool)
  | number
  /-- A string literal, by its text if its escapes spell one. -/
  | string (text : Option Text)
deriving DecidableEq, Repr

def isWhitespace (c : Char) : Bool :=
  c == ' ' || c == '\t' || c == '\n' || c == '\r'

def hexValue? (c : Char) : Option Nat :=
  if '0' ≤ c && c ≤ '9' then some (c.toNat - '0'.toNat)
  else if 'a' ≤ c && c ≤ 'f' then some (c.toNat - 'a'.toNat + 10)
  else if 'A' ≤ c && c ≤ 'F' then some (c.toNat - 'A'.toNat + 10)
  else none

def hexQuad? (a b c d : Char) : Option Nat :=
  match hexValue? a, hexValue? b, hexValue? c, hexValue? d with
  | some a, some b, some c, some d => some (((a * 16 + b) * 16 + c) * 16 + d)
  | _, _, _, _ => none

def escapedChar? (letter : Char) : Option Char :=
  match letter with
  | '"' => some '"'
  | '\\' => some '\\'
  | '/' => some '/'
  | 'b' => some '\x08'
  | 'f' => some '\x0C'
  | 'n' => some '\n'
  | 'r' => some '\r'
  | 't' => some '\t'
  | _ => none

/-- An item of a string literal: a character, or a UTF-16 unit written by number. -/
inductive StringItem where
  | char (c : Char)
  | unit (n : Nat)
deriving DecidableEq, Repr

/-- The text of a literal; none if a surrogate lacks its partner. -/
def textOf? : List StringItem → Option Text
  | [] => some []
  | .char c :: rest => (textOf? rest).map (c :: ·)
  | .unit n :: rest =>
      if Utf16.isHighSurrogate n then
        match rest with
        | .unit low :: rest =>
            if Utf16.isLowSurrogate low then (textOf? rest).map (Utf16.pair n low :: ·) else none
        | _ => none
      else if Utf16.isLowSurrogate n then none
      else (textOf? rest).map (Char.ofNat n :: ·)

/-- The items of a string literal behind its opening quote, and what follows its
closing quote. -/
def readItems? : Text → Option (List StringItem × Text)
  | [] => none
  | '"' :: rest => some ([], rest)
  | '\\' :: 'u' :: a :: b :: c :: d :: rest =>
      match hexQuad? a b c d with
      | some n => (readItems? rest).map fun found => (.unit n :: found.1, found.2)
      | none => none
  | '\\' :: letter :: rest =>
      match escapedChar? letter with
      | some c => (readItems? rest).map fun found => (.char c :: found.1, found.2)
      | none => none
  | c :: rest =>
      if c < ' ' || c == '\\' then none
      else (readItems? rest).map fun found => (.char c :: found.1, found.2)

def skipDigits? : Text → Option Text
  | [] => none
  | c :: rest => if c.isDigit then some (rest.dropWhile Char.isDigit) else none

def skipExponent? : Text → Option Text
  | 'e' :: rest | 'E' :: rest =>
      match rest with
      | '+' :: rest | '-' :: rest => skipDigits? rest
      | rest => skipDigits? rest
  | rest => some rest

/-- What follows a fraction and an exponent, as far as they are there. -/
def skipFraction? : Text → Option Text
  | '.' :: rest => (skipDigits? rest).bind skipExponent?
  | rest => skipExponent? rest

/-- What follows a number without its sign.  A leading zero stands alone. -/
def skipNumber? : Text → Option Text
  | '0' :: rest => skipFraction? rest
  | rest => (skipDigits? rest).bind skipFraction?

def readToken? : Text → Option (Token × Text)
  | [] => none
  | '[' :: rest => some (.leftBracket, rest)
  | ']' :: rest => some (.rightBracket, rest)
  | '{' :: rest => some (.leftBrace, rest)
  | '}' :: rest => some (.rightBrace, rest)
  | ',' :: rest => some (.comma, rest)
  | ':' :: rest => some (.colon, rest)
  | '"' :: rest => (readItems? rest).map fun found => (.string (textOf? found.1), found.2)
  | 'n' :: 'u' :: 'l' :: 'l' :: rest => some (.null, rest)
  | 't' :: 'r' :: 'u' :: 'e' :: rest => some (.bool true, rest)
  | 'f' :: 'a' :: 'l' :: 's' :: 'e' :: rest => some (.bool false, rest)
  | '-' :: rest => (skipNumber? rest).map fun rest => (.number, rest)
  | rest => (skipNumber? rest).map fun rest => (.number, rest)

theorem length_of_readItems {text rest : Text} {items : List StringItem}
    (found : readItems? text = some (items, rest)) : rest.length < text.length := by
  fun_induction readItems? text generalizing items with
  | case1 => simp at found
  | case2 =>
      obtain ⟨-, rfl⟩ := by simpa using found
      simp
  | case3 _ _ _ _ _ _ _ ih =>
      obtain ⟨_, inner, -⟩ := by simpa using found
      have := ih inner
      simp only [List.length_cons]
      omega
  | case4 => simp at found
  | case5 _ _ _ _ _ ih =>
      obtain ⟨_, inner, -⟩ := by simpa using found
      have := ih inner
      simp only [List.length_cons]
      omega
  | case6 => simp at found
  | case7 => simp at found
  | case8 _ _ _ _ _ _ ih =>
      obtain ⟨_, inner, -⟩ := by simpa using found
      have := ih inner
      simp only [List.length_cons]
      omega

theorem length_of_skipDigits {text rest : Text} (skipped : skipDigits? text = some rest) :
    rest.length < text.length := by
  cases text with
  | nil => simp [skipDigits?] at skipped
  | cons c after =>
      simp only [skipDigits?] at skipped
      split at skipped
      · obtain rfl := by simpa using skipped
        exact Nat.lt_succ_of_le (List.dropWhile_sublist Char.isDigit).length_le
      · simp at skipped

theorem length_of_skipExponent {text rest : Text} (skipped : skipExponent? text = some rest) :
    rest.length ≤ text.length := by
  unfold skipExponent? at skipped
  repeat' split at skipped
  all_goals
    first
    | have := length_of_skipDigits skipped
      simp only [List.length_cons]
      omega
    | obtain rfl := by simpa using skipped
      exact Nat.le_refl _

theorem length_of_skipFraction {text rest : Text} (skipped : skipFraction? text = some rest) :
    rest.length ≤ text.length := by
  unfold skipFraction? at skipped
  split at skipped
  · obtain ⟨between, digits, exponent⟩ := Option.bind_eq_some_iff.mp skipped
    have := length_of_skipDigits digits
    have := length_of_skipExponent exponent
    simp only [List.length_cons]
    omega
  · exact length_of_skipExponent skipped

theorem length_of_skipNumber {text rest : Text} (skipped : skipNumber? text = some rest) :
    rest.length < text.length := by
  unfold skipNumber? at skipped
  split at skipped
  · have := length_of_skipFraction skipped
    simp only [List.length_cons]
    omega
  · obtain ⟨between, digits, fraction⟩ := Option.bind_eq_some_iff.mp skipped
    have := length_of_skipDigits digits
    have := length_of_skipFraction fraction
    omega

theorem length_of_readToken {text rest : Text} {token : Token}
    (found : readToken? text = some (token, rest)) : rest.length < text.length := by
  unfold readToken? at found
  split at found
  case h_1 => simp at found
  case h_8 =>
    obtain ⟨_, items, -⟩ := by simpa using found
    have := length_of_readItems items
    simp only [List.length_cons]
    omega
  case h_12 =>
    obtain ⟨number, -⟩ := by simpa using found
    have := length_of_skipNumber number
    simp only [List.length_cons]
    omega
  case h_13 =>
    obtain ⟨number, -⟩ := by simpa using found
    exact length_of_skipNumber number
  all_goals
    obtain ⟨-, rfl⟩ := by simpa using found
    simp only [List.length_cons]
    omega

def tokens? (text : Text) : Option (List Token) :=
  match _ : text.dropWhile isWhitespace with
  | [] => some []
  | c :: rest =>
      match _ : readToken? (c :: rest) with
      | none => none
      | some (token, after) => (tokens? after).map (token :: ·)
termination_by text.length
decreasing_by
  have shorter := length_of_readToken ‹_›
  have bound := (List.dropWhile_sublist isWhitespace (l := text)).length_le
  rw [‹text.dropWhile isWhitespace = _›] at bound
  omega

end LenientMime.Json
