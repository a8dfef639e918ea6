import LenientMime.Toml.Blank

namespace LenientMime.Toml

def hexNumber? (digits : Text) : Option Nat :=
  digits.foldlM (fun n c =>
    if '0' ≤ c && c ≤ '9' then some (n * 16 + (c.toNat - '0'.toNat))
    else if 'a' ≤ c && c ≤ 'f' then some (n * 16 + (c.toNat - 'a'.toNat + 10))
    else if 'A' ≤ c && c ≤ 'F' then some (n * 16 + (c.toNat - 'A'.toNat + 10))
    else none) 0

def charOf? (digits : Text) : Option Char :=
  (hexNumber? digits).bind fun n => if n.isValidChar then some (Char.ofNat n) else none

/-- The character that an escape stands for, and what follows the escape. -/
def readEscape? : Text → Option (Char × Text)
  | 'b' :: rest => some ('\x08', rest)
  | 't' :: rest => some ('\t', rest)
  | 'n' :: rest => some ('\n', rest)
  | 'f' :: rest => some ('\x0C', rest)
  | 'r' :: rest => some ('\r', rest)
  | '"' :: rest => some ('"', rest)
  | '\\' :: rest => some ('\\', rest)
  | 'u' :: rest =>
      if rest.length < 4 then none else (charOf? (rest.take 4)).map (·, rest.drop 4)
  | 'U' :: rest =>
      if rest.length < 8 then none else (charOf? (rest.take 8)).map (·, rest.drop 8)
  | _ => none

theorem length_of_readEscape {text rest : Text} {c : Char}
    (found : readEscape? text = some (c, rest)) : rest.length < text.length := by
  unfold readEscape? at found
  repeat' split at found
  all_goals try simp at found
  case h_8.isFalse | h_9.isFalse =>
    obtain ⟨_, -, -, rfl⟩ := found
    simp only [List.length_cons, List.length_drop]
    omega
  all_goals
    obtain ⟨-, rfl⟩ := found
    simp

abbrev Found := Option (Text × Text)

def Found.after (c : Char) (found : Found) : Found :=
  found.map fun found => (c :: found.1, found.2)

def readBasic? : Text → Found
  | [] => none
  | '"' :: rest => some ([], rest)
  | '\\' :: rest =>
      match _ : readEscape? rest with
      | some (c, after) => (readBasic? after).after c
      | none => none
  | c :: rest => if isControl c then none else (readBasic? rest).after c
termination_by text => text.length
decreasing_by
  · have := length_of_readEscape ‹_›
    simp only [List.length_cons]
    omega
  · simp

def readLiteral? : Text → Found
  | [] => none
  | '\'' :: rest => some ([], rest)
  | c :: rest => if isControl c then none else (readLiteral? rest).after c

/-- The end of a string that three quotes close.  Up to two quotes directly in front
of them belong to the string. -/
def closeTriple (quote : Char) : Text → Text × Text
  | first :: second :: rest =>
      if first == quote then
        if second == quote then ([quote, quote], rest) else ([quote], second :: rest)
      else ([], first :: second :: rest)
  | [first] => if first == quote then ([quote], []) else ([], [first])
  | [] => ([], [])

/-- A literal string over several lines, behind its opening quotes. -/
def readLiteralLines? : Text → Found
  | [] => none
  | '\'' :: '\'' :: '\'' :: rest => some (closeTriple '\'' rest)
  | '\r' :: '\n' :: rest => (readLiteralLines? rest).after '\n'
  | c :: rest =>
      if isControl c && c != '\n' then none else (readLiteralLines? rest).after c

/-- What follows blanks and line ends behind a backslash that ends a line; none if the
backslash does not end its line. -/
def skipFold? (text : Text) : Option Text :=
  match skipBlanks text with
  | '\n' :: rest | '\r' :: '\n' :: rest => some (skipLineEnds rest)
  | _ => none

theorem length_of_skipFold {text rest : Text} (skipped : skipFold? text = some rest) :
    rest.length ≤ text.length := by
  have bound := (List.dropWhile_sublist isBlankChar (l := text)).length_le
  unfold skipFold? skipBlanks at skipped
  split at skipped
  case h_3 => simp at skipped
  all_goals
    next after shown =>
    obtain rfl := by simpa using skipped
    have := length_skipLineEnds_le after
    rw [shown] at bound
    simp only [List.length_cons] at bound
    omega

def readBasicLines? : Text → Found
  | [] => none
  | '"' :: '"' :: '"' :: rest => some (closeTriple '"' rest)
  | '\r' :: '\n' :: rest => (readBasicLines? rest).after '\n'
  | '\\' :: rest =>
      match _ : skipFold? rest with
      | some after => readBasicLines? after
      | none =>
          match _ : readEscape? rest with
          | some (c, after) => (readBasicLines? after).after c
          | none => none
  | c :: rest =>
      if isControl c && c != '\n' then none else (readBasicLines? rest).after c
termination_by text => text.length
decreasing_by
  · simp only [List.length_cons]
    omega
  · exact Nat.lt_succ_of_le (length_of_skipFold ‹_›)
  · exact Nat.lt_succ_of_lt (length_of_readEscape ‹_›)
  · simp

/-- A line end directly behind opening quotes does not belong to the string. -/
def skipFirstLineEnd : Text → Text
  | '\n' :: rest | '\r' :: '\n' :: rest => rest
  | rest => rest

def readString? : Text → Found
  | '"' :: '"' :: '"' :: rest => readBasicLines? (skipFirstLineEnd rest)
  | '\'' :: '\'' :: '\'' :: rest => readLiteralLines? (skipFirstLineEnd rest)
  | '"' :: rest => readBasic? rest
  | '\'' :: rest => readLiteral? rest
  | _ => none

end LenientMime.Toml
