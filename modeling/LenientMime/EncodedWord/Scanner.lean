import LenientMime.EncodedWord.Encode

namespace LenientMime

/-! Rewriting the encoded words of a header text.

One pass over the text with a state for every place at which it can stand.  What was
read is held back until it is known what becomes of it: the gap behind a word may be
dropped, and a candidate that turns out to be no word is read again as plain text,
but for its first two characters.
-/

namespace EncodedWord

inductive Form where
  | decoded
  /-- A word in UTF-8 and base64 that carries the same text. -/
  | canonical
deriving DecidableEq, Repr

def Form.write (codec : Codec) : Form → Text → Text
  | decoded, text => text
  | canonical, text => encodeBase64 text codec

/-- Where the scanner stands.  What was read of a candidate has its last character
first. -/
inductive Place where
  /-- Behind a blank or at the start; a word may begin here. -/
  | blank
  | plain
  | charset (label : Text)
  | encoding (label : Text)
  | payload (label : Text) (letter : Char) (encoding : Encoding) (text : Text)
  /-- Behind a word, with blanks at most in between. -/
  | behindWord
  /-- The candidate is no word. -/
  | failed (seen : Text)
deriving DecidableEq, Repr

/-- What was read of a candidate behind its first two characters, last character
first. -/
def Place.seen : Place → Text
  | blank | plain | behindWord => []
  | charset label => label
  | encoding label => '?' :: label
  | payload label letter _ text => text ++ '?' :: letter :: '?' :: label
  | failed seen => seen

def Place.candidate : Place → Text
  | blank | plain | behindWord => []
  | place => '=' :: '?' :: place.seen.reverse

/-- Places between candidates, inside one, and at its failure. -/
def Place.rank : Place → Nat
  | blank | plain | behindWord => 2
  | charset _ | encoding _ | payload .. => 1
  | failed _ => 0

theorem Place.candidate_of_between {place : Place} (between : place.rank = 2) :
    place.candidate = [] := by
  cases place <;> first | rfl | exact absurd between (by simp [rank])

theorem Place.candidate_of_inside {place : Place} (inside : place.rank = 1) :
    place.candidate = (Place.failed place.seen).candidate := by
  cases place <;> first | rfl | exact absurd inside (by simp [rank])

structure Scanner where
  place : Place := .blank
  /-- What was read in front of the candidate and not written yet, last character
  first. -/
  held : Text := []
  /-- What is held is the gap between a word and the candidate. -/
  afterWord : Bool := false
  ahead : Text
deriving DecidableEq, Repr

namespace Scanner

def isSpacing (c : Char) : Bool :=
  c == ' ' || c == '\t' || c == '\r' || c == '\n'

def unwritten (scanner : Scanner) : Text :=
  scanner.held.reverse ++ (scanner.place.candidate ++ scanner.ahead)

/-- Where a word may begin: `stay` is the place behind a blank, `afterWord` says
whether a candidate would follow a word. -/
def atGap (stay : Place) (afterWord : Bool) (scanner : Scanner) (c : Char) (rest : Text) :
    Scanner :=
  if isSpacing c then { scanner with place := stay, held := c :: scanner.held, ahead := rest }
  else
    match c, rest with
    | '=', '?' :: rest => { scanner with place := .charset [], afterWord, ahead := rest }
    | _, _ => { scanner with place := .plain, held := c :: scanner.held, ahead := rest }

def atPlain (scanner : Scanner) (c : Char) (rest : Text) : Scanner :=
  let place := if isSpacing c then Place.blank else Place.plain
  { scanner with place, held := c :: scanner.held, ahead := rest }

def fail (scanner : Scanner) : Scanner :=
  { scanner with place := .failed scanner.place.seen }

def atCharset (label : Text) (scanner : Scanner) (c : Char) (rest : Text) : Scanner :=
  if c == '?' && !label.isEmpty then { scanner with place := .encoding label, ahead := rest }
  else if isTokenChar c then { scanner with place := .charset (c :: label), ahead := rest }
  else scanner.fail

def atEncoding (label : Text) (scanner : Scanner) (letter : Char) (rest : Text) : Scanner :=
  match Encoding.ofLetter? letter, rest with
  | some encoding, '?' :: rest =>
      { scanner with place := .payload label letter encoding [], ahead := rest }
  | _, _ => scanner.fail

/-- Reads a failed candidate again, as plain text, behind its first two characters. -/
def recover (seen : Text) (scanner : Scanner) : Scanner :=
  { place := .plain, held := '?' :: '=' :: scanner.held, afterWord := false
    ahead := seen.reverse ++ scanner.ahead }

def gap (form : Form) (scanner : Scanner) : Text :=
  if scanner.afterWord && form == .decoded then [] else scanner.held.reverse

def finish (codec : Codec) (form : Form) (word : EncodedWord) (scanner : Scanner) (rest : Text) :
    Text × Scanner :=
  match word.decode? codec with
  | some text =>
      (scanner.gap form ++ form.write codec text,
        { scanner with place := .behindWord, held := [], ahead := rest })
  | none => ([], scanner.fail)

def atPayload (codec : Codec) (form : Form) (label : Text) (letter : Char) (encoding : Encoding)
    (text : Text) (scanner : Scanner) (c : Char) (rest : Text) : Text × Scanner :=
  match c, rest with
  | '?', '=' :: rest =>
      finish codec form { label := label.reverse, encoding, payload := text.reverse } scanner rest
  | _, _ =>
      if isPayloadChar c then
        ([], { scanner with place := .payload label letter encoding (c :: text), ahead := rest })
      else ([], scanner.fail)

def step (codec : Codec) (form : Form) (scanner : Scanner) (c : Char) (rest : Text) :
    Text × Scanner :=
  match scanner.place with
  | .blank => ([], scanner.atGap .blank false c rest)
  | .plain => ([], scanner.atPlain c rest)
  | .charset label => ([], scanner.atCharset label c rest)
  | .encoding label => ([], scanner.atEncoding label c rest)
  | .payload label letter encoding text =>
      scanner.atPayload codec form label letter encoding text c rest
  | .behindWord => ([], scanner.atGap .behindWord true c rest)
  | .failed seen => ([], scanner.recover seen)

/-- What is left to do: the text to read again if the candidate fails. -/
def extent (scanner : Scanner) : Nat :=
  scanner.place.candidate.length + scanner.ahead.length

/-- Every step reads on, or gives a candidate up, or takes up plain text behind the
start of one. -/
def Precedes (next scanner : Scanner) : Prop :=
  next.extent < scanner.extent ∨ next.extent = scanner.extent ∧
    (next.place.rank < scanner.place.rank ∨ next.place.rank = scanner.place.rank ∧
      next.ahead.length < scanner.ahead.length)

section Precedes

variable {held ahead rest label : Text} {afterWord : Bool} {place stay : Place} {c : Char}

theorem fail_precedes (inside : place.rank = 1) :
    (fail ⟨place, held, afterWord, ahead⟩).Precedes ⟨place, held, afterWord, ahead⟩ := by
  refine .inr ⟨?_, .inl ?_⟩
  · rw [extent, extent, Place.candidate_of_inside inside]
    rfl
  · rw [inside]
    exact Nat.zero_lt_one

theorem atGap_precedes (candidateAfterWord : Bool) (between : place.rank = 2)
    (stays : stay.rank = 2) :
    (atGap stay candidateAfterWord ⟨place, held, afterWord, c :: rest⟩ c rest).Precedes
      ⟨place, held, afterWord, c :: rest⟩ := by
  have nothing := Place.candidate_of_between between
  unfold atGap
  split
  · refine .inl ?_
    simp [extent, nothing, Place.candidate_of_between stays]
  · split
    · refine .inr ⟨?_, .inl ?_⟩
      · rw [extent, extent, nothing]
        simp [Place.candidate, Place.seen, Nat.add_comm 2]
      · rw [between]
        exact Nat.one_lt_two
    · refine .inl ?_
      rw [extent, extent, nothing]
      simp [Place.candidate]

theorem read_precedes {next : Place} (inside : place.rank = 1) (goesOn : next.rank = 1)
    (read : next.candidate ++ ahead = place.candidate ++ c :: rest)
    (shorter : ahead.length < (c :: rest).length) :
    Precedes ⟨next, held, afterWord, ahead⟩ ⟨place, held, afterWord, c :: rest⟩ := by
  refine .inr ⟨?_, .inr ⟨goesOn.trans inside.symm, shorter⟩⟩
  simpa [extent] using congrArg List.length read

theorem atCharset_precedes :
    (atCharset label ⟨.charset label, held, afterWord, c :: rest⟩ c rest).Precedes
      ⟨.charset label, held, afterWord, c :: rest⟩ := by
  unfold atCharset
  split
  · next mark =>
    obtain ⟨rfl, -⟩ : c = '?' ∧ label ≠ [] := by simpa using mark
    exact read_precedes rfl rfl (by simp [Place.candidate, Place.seen]) (by simp)
  · split
    · exact read_precedes rfl rfl (by simp [Place.candidate, Place.seen]) (by simp)
    · exact fail_precedes rfl

theorem atEncoding_precedes :
    (atEncoding label ⟨.encoding label, held, afterWord, c :: rest⟩ c rest).Precedes
      ⟨.encoding label, held, afterWord, c :: rest⟩ := by
  unfold atEncoding
  split
  · refine read_precedes rfl rfl (by simp [Place.candidate, Place.seen]) ?_
    exact Nat.lt_succ_of_lt (Nat.lt_succ_self _)
  · exact fail_precedes rfl

theorem atPayload_precedes (codec : Codec) (form : Form) {letter : Char} {encoding : Encoding}
    {text : Text} :
    (atPayload codec form label letter encoding text
        ⟨.payload label letter encoding text, held, afterWord, c :: rest⟩ c rest).2.Precedes
      ⟨.payload label letter encoding text, held, afterWord, c :: rest⟩ := by
  unfold atPayload
  split
  · unfold finish
    split
    · refine .inl ?_
      simp only [extent, Place.candidate, List.length_cons, List.length_nil]
      omega
    · exact fail_precedes rfl
  · split
    · exact read_precedes rfl rfl (by simp [Place.candidate, Place.seen]) (by simp)
    · exact fail_precedes rfl

end Precedes

theorem step_precedes (codec : Codec) (form : Form) {scanner : Scanner} {c : Char} {rest : Text}
    (shown : scanner.ahead = c :: rest) :
    (scanner.step codec form c rest).2.Precedes scanner := by
  obtain ⟨place, held, afterWord, ahead⟩ := scanner
  subst shown
  cases place with
  | blank => exact atGap_precedes false rfl rfl
  | plain =>
      refine .inl ?_
      simp only [step, atPlain, extent]
      split <;> simp [Place.candidate]
  | charset label => exact atCharset_precedes
  | encoding label => exact atEncoding_precedes
  | payload label letter encoding text => exact atPayload_precedes codec form
  | behindWord => exact atGap_precedes true rfl rfl
  | failed seen =>
      refine .inl ?_
      simp only [step, recover, extent, Place.candidate, Place.seen, List.length_append,
        List.length_reverse, List.length_cons, List.length_nil]
      omega

def run (codec : Codec) (form : Form) (scanner : Scanner) : Text :=
  match _ : scanner.ahead with
  | [] => scanner.unwritten
  | c :: rest =>
      let stepped := scanner.step codec form c rest
      stepped.1 ++ run codec form stepped.2
termination_by (scanner.extent, scanner.place.rank, scanner.ahead.length)
decreasing_by
  exact Prod.lex_def.mpr ((step_precedes _ _ ‹_›).imp_right (And.imp_right Prod.lex_def.mpr))

end Scanner

def rewrite (codec : Codec) (form : Form) (text : Text) : Text :=
  Scanner.run codec form { ahead := text }

end EncodedWord

namespace Text

/-- The text with its encoded words decoded.  Gaps between decoded words go. -/
def decodeWords (text : Text) (codec : Codec := .standard) : Text :=
  EncodedWord.rewrite codec .decoded text

/-- The text with every decodable word written in base64 and UTF-8.  Nothing else
changes. -/
def canonicalWords (text : Text) (codec : Codec := .standard) : Text :=
  EncodedWord.rewrite codec .canonical text

end Text

end LenientMime
