import LenientMime.EncodedWord.Scanner
import LenientMime.Proofs.EncodedWord.Carried

namespace LenientMime

open EncodedWord

/-! What a header text is made of.

A word is recognised where the text spells one that decodes, at the start of the
text, directly behind a blank, and directly behind another recognised word.  Every
other character stands for itself.  This says what the words of a text are without
saying how they are found.
-/

structure EncodedWord.Spells (word : EncodedWord) (text : Text) : Prop where
  label : word.label.isToken = true
  payload : ∀ c ∈ word.payload, isPayloadChar c = true
  shape : ∃ letter, Encoding.ofLetter? letter = some word.encoding ∧
    text = '=' :: '?' :: word.label ++ '?' :: letter :: '?' :: word.payload ++ ['?', '=']

inductive Segment where
  | char (c : Char)
  /-- A recognised word, by the text it carries. -/
  | word (text : Text)
deriving DecidableEq, Repr

/-- The front of a text is a word that carries a text. -/
def EncodedWord.Begins (codec : Codec) (text decoded rest : Text) : Prop :=
  ∃ (word : EncodedWord) (spelling : Text), word.Spells spelling ∧
    word.Carries codec decoded ∧ text = spelling ++ rest

/-- The segments of a text, from left to right; the flag says whether a word may
begin right here. -/
inductive Segmented (codec : Codec) : Bool → Text → List Segment → Prop where
  | nil (mayStart : Bool) : Segmented codec mayStart [] []
  | word {text decoded rest : Text} {segments : List Segment} :
      Begins codec text decoded rest → Segmented codec true rest segments →
      Segmented codec true text (.word decoded :: segments)
  | char {mayStart : Bool} {c : Char} {rest : Text} {segments : List Segment} :
      (mayStart = true → ∀ decoded after, ¬ Begins codec (c :: rest) decoded after) →
      Segmented codec (Scanner.isSpacing c) rest segments →
      Segmented codec mayStart (c :: rest) (.char c :: segments)

namespace Segment

def isSpacing : Segment → Bool
  | .char c => Scanner.isSpacing c
  | .word _ => false

/-- The segments behind a word, without a gap of blanks in front of a next word. -/
def dropGap (segments : List Segment) : List Segment :=
  match segments.dropWhile isSpacing with
  | .word text :: later => .word text :: later
  | _ => segments

theorem length_dropGap_le (segments : List Segment) :
    (dropGap segments).length ≤ segments.length := by
  have bound := (List.dropWhile_sublist isSpacing (l := segments)).length_le
  unfold dropGap
  split
  · next found => rwa [found] at bound
  · exact Nat.le_refl _

/-- Drops every gap between two words that is nothing but blanks and line breaks. -/
def closeGaps : List Segment → List Segment
  | [] => []
  | .char c :: later => .char c :: closeGaps later
  | .word text :: later => .word text :: closeGaps (dropGap later)
termination_by segments => segments.length
decreasing_by
  · simp
  · exact Nat.lt_succ_of_le (length_dropGap_le later)

def plainText : Segment → Text
  | .char c => [c]
  | .word text => text

def canonicalText (codec : Codec) : Segment → Text
  | .char c => [c]
  | .word text => encodeBase64 text codec

end Segment

namespace EncodedWord

def Form.render (codec : Codec) : Form → List Segment → Text
  | decoded, segments => (Segment.closeGaps segments).flatMap Segment.plainText
  | canonical, segments => segments.flatMap (Segment.canonicalText codec)

variable {codec : Codec}

theorem Spells.tokens {word : EncodedWord} {spelling : Text} (spells : word.Spells spelling) :
    ∀ c ∈ word.label, isTokenChar c = true :=
  (Text.isToken_iff.mp spells.label).2

theorem Begins.of_decode? {word : EncodedWord} {spelling decoded : Text}
    (spells : word.Spells spelling) (decodes : word.decode? codec = some decoded) (rest : Text) :
    Begins codec (spelling ++ rest) decoded rest :=
  ⟨word, spelling, spells, (decode?_eq_some_iff spells.tokens).mp decodes, rfl⟩

theorem Begins.shape {text decoded rest : Text} (begins : Begins codec text decoded rest) :
    ∃ later, text = '=' :: '?' :: later := by
  obtain ⟨word, spelling, spells, -, rfl⟩ := begins
  obtain ⟨letter, -, rfl⟩ := spells.shape
  exact ⟨_, rfl⟩

theorem Begins.length_lt {text decoded rest : Text} (begins : Begins codec text decoded rest) :
    rest.length < text.length := by
  obtain ⟨word, spelling, spells, -, rfl⟩ := begins
  obtain ⟨letter, -, rfl⟩ := spells.shape
  simp only [List.cons_append, List.length_cons, List.length_append]
  omega

theorem append_cons_inj {p : Char → Bool} {front other later rest : Text} {stop mark : Char}
    (inside : ∀ c ∈ front, p c = true) (stops : p stop = false)
    (otherInside : ∀ c ∈ other, p c = true) (otherStops : p mark = false)
    (same : front ++ stop :: later = other ++ mark :: rest) :
    front = other ∧ stop = mark ∧ later = rest := by
  have fronts := congrArg (List.takeWhile p) same
  rw [List.takeWhile_append_of_pos inside, List.takeWhile_append_of_pos otherInside,
    List.takeWhile_cons_of_neg (by simp [stops]),
    List.takeWhile_cons_of_neg (by simp [otherStops]), List.append_nil, List.append_nil] at fronts
  subst fronts
  obtain ⟨rfl, rfl⟩ := List.cons.inj (List.append_cancel_left same)
  exact ⟨rfl, rfl, rfl⟩

theorem Begins.cut {body decoded rest : Text}
    (begins : Begins codec ('=' :: '?' :: body) decoded rest) :
    ∃ (word : EncodedWord) (letter : Char), word.label ≠ [] ∧
      (∀ c ∈ word.label, isTokenChar c = true) ∧ (∀ c ∈ word.payload, isPayloadChar c = true) ∧
      Encoding.ofLetter? letter = some word.encoding ∧ word.decode? codec = some decoded ∧
      body = word.label ++ '?' :: letter :: '?' :: (word.payload ++ '?' :: '=' :: rest) := by
  obtain ⟨word, spelling, spells, carries, same⟩ := begins
  obtain ⟨letter, encoding, rfl⟩ := spells.shape
  obtain ⟨nonempty, tokens⟩ := Text.isToken_iff.mp spells.label
  exact ⟨word, letter, nonempty, tokens, spells.payload, encoding,
    (decode?_eq_some_iff tokens).mpr carries, by simpa using same⟩

section Label

variable {label : Text} (tokens : ∀ c ∈ label, isTokenChar c = true)

include tokens in
theorem not_begins_of_label {c : Char} {tail decoded rest : Text} (stops : isTokenChar c = false)
    (unmarked : c = '?' → label = []) :
    ¬ Begins codec ('=' :: '?' :: (label ++ c :: tail)) decoded rest := by
  intro begins
  obtain ⟨word, letter, nonempty, wordTokens, -, -, -, same⟩ := begins.cut
  obtain ⟨rfl, mark, -⟩ := append_cons_inj tokens stops wordTokens (by decide) same
  exact nonempty (unmarked mark)

include tokens in
theorem not_begins_of_openLabel {decoded rest : Text} :
    ¬ Begins codec ('=' :: '?' :: label) decoded rest := by
  intro begins
  obtain ⟨word, letter, -, -, -, -, -, rfl⟩ := begins.cut
  exact absurd (tokens '?' (by simp)) (by decide)

include tokens in
theorem Begins.cut_label {body decoded rest : Text}
    (begins : Begins codec ('=' :: '?' :: (label ++ '?' :: body)) decoded rest) :
    ∃ (letter : Char) (encoding : Encoding) (payload : Text),
      Encoding.ofLetter? letter = some encoding ∧ (∀ c ∈ payload, isPayloadChar c = true) ∧
      EncodedWord.decode? codec { label, encoding, payload } = some decoded ∧
      body = letter :: '?' :: (payload ++ '?' :: '=' :: rest) := by
  obtain ⟨⟨_, encoding, payload⟩, letter, -, wordTokens, inside, isLetter, decodes, same⟩ :=
    begins.cut
  obtain ⟨rfl, -, rfl⟩ := append_cons_inj tokens (by decide) wordTokens (by decide) same
  exact ⟨letter, encoding, payload, isLetter, inside, decodes, rfl⟩

include tokens in
theorem Begins.cut_letter {letter : Char} {encoding : Encoding} {body decoded rest : Text}
    (isLetter : Encoding.ofLetter? letter = some encoding)
    (begins : Begins codec ('=' :: '?' :: (label ++ '?' :: letter :: '?' :: body)) decoded rest) :
    ∃ payload : Text, (∀ c ∈ payload, isPayloadChar c = true) ∧
      EncodedWord.decode? codec { label, encoding, payload } = some decoded ∧
      body = payload ++ '?' :: '=' :: rest := by
  obtain ⟨_, _, payload, isOther, inside, decodes, same⟩ := begins.cut_label tokens
  obtain ⟨rfl, same⟩ := List.cons.inj same
  obtain rfl := Option.some.inj (isLetter.symm.trans isOther)
  exact ⟨payload, inside, decodes, (List.cons.inj (List.cons.inj same).2).2⟩

end Label

theorem Begins.inj {text decoded rest other after : Text} (begins : Begins codec text decoded rest)
    (again : Begins codec text other after) : decoded = other ∧ rest = after := by
  obtain ⟨body, rfl⟩ := begins.shape
  obtain ⟨word, letter, -, tokens, inside, isLetter, decodes, rfl⟩ := begins.cut
  obtain ⟨payload, otherInside, otherDecodes, same⟩ := again.cut_letter tokens isLetter
  obtain ⟨rfl, -, same⟩ := append_cons_inj inside (by decide) otherInside (by decide) same
  exact ⟨Option.some.inj (decodes.symm.trans otherDecodes), (List.cons.inj same).2⟩

end EncodedWord

namespace Segmented

open Segment

variable {codec : Codec}

theorem char_cons {mayStart : Bool} {c : Char} {rest : Text} {segments : List Segment}
    (plain : mayStart = true → ∀ decoded after, ¬ Begins codec (c :: rest) decoded after)
    (found : Segmented codec mayStart (c :: rest) segments) :
    ∃ later, segments = .char c :: later ∧ Segmented codec (Scanner.isSpacing c) rest later := by
  cases found with
  | word begins => exact absurd begins (plain rfl _ _)
  | char _ later => exact ⟨_, rfl, later⟩

theorem word_cons {text decoded rest : Text} {segments : List Segment}
    (begins : Begins codec text decoded rest) (found : Segmented codec true text segments) :
    ∃ later, segments = .word decoded :: later ∧ Segmented codec true rest later := by
  cases found with
  | nil =>
      obtain ⟨_, impossible⟩ := begins.shape
      contradiction
  | word otherBegins later =>
      obtain ⟨rfl, rfl⟩ := begins.inj otherBegins
      exact ⟨_, rfl, later⟩
  | char plain _ => exact absurd begins (plain rfl _ _)

theorem unique {mayStart : Bool} {text : Text} {segments others : List Segment}
    (found : Segmented codec mayStart text segments)
    (again : Segmented codec mayStart text others) : segments = others := by
  induction found generalizing others with
  | nil =>
      cases again with
      | nil => rfl
      | word begins => obtain ⟨_, impossible⟩ := begins.shape; contradiction
  | word begins _ ih =>
      obtain ⟨later, rfl, rest⟩ := word_cons begins again
      rw [ih rest]
  | char plain _ ih =>
      obtain ⟨later, rfl, rest⟩ := char_cons plain again
      rw [ih rest]

theorem exists_segments (codec : Codec) (mayStart : Bool) (text : Text) :
    ∃ segments, Segmented codec mayStart text segments := by
  induction size : text.length using Nat.strongRecOn generalizing mayStart text with
  | ind size ih =>
      subst size
      by_cases starts : mayStart = true ∧ ∃ decoded rest, Begins codec text decoded rest
      · obtain ⟨rfl, decoded, rest, begins⟩ := starts
        obtain ⟨segments, later⟩ := ih _ begins.length_lt true rest rfl
        exact ⟨.word decoded :: segments, .word begins later⟩
      · cases text with
        | nil => exact ⟨[], .nil mayStart⟩
        | cons c rest =>
            obtain ⟨segments, later⟩ :=
              ih _ (Nat.lt_succ_self _) (Scanner.isSpacing c) rest rfl
            refine ⟨.char c :: segments, .char ?_ later⟩
            exact fun free decoded after begins => starts ⟨free, decoded, after, begins⟩

/-- A candidate that is no word gives up its first two characters. -/
theorem of_failed {tail : Text} {segments : List Segment}
    (plain : ∀ decoded after, ¬ Begins codec ('=' :: '?' :: tail) decoded after)
    (found : Segmented codec true ('=' :: '?' :: tail) segments) :
    ∃ later, segments = .char '=' :: .char '?' :: later ∧ Segmented codec false tail later := by
  obtain ⟨_, rfl, behind⟩ := char_cons (fun _ => plain) found
  obtain ⟨later, rfl, rest⟩ := char_cons (fun free => absurd free (by decide)) behind
  exact ⟨later, rfl, rest⟩

theorem of_quiet {mayStart : Bool} {text : Text} {segments : List Segment}
    (quiet : ¬ ['=', '?'] <:+: text) (found : Segmented codec mayStart text segments) :
    segments = text.map Segment.char := by
  induction found with
  | nil => rfl
  | word begins =>
      obtain ⟨later, rfl⟩ := begins.shape
      exact absurd ⟨[], later, rfl⟩ quiet
  | char _ _ ih =>
      rw [List.map_cons, ih fun inner => quiet (List.infix_cons inner)]

theorem chars {mayStart : Bool} {text : Text} (quiet : ¬ ['=', '?'] <:+: text) :
    Segmented codec mayStart text (text.map .char) := by
  obtain ⟨segments, found⟩ := exists_segments codec mayStart text
  rwa [of_quiet quiet found] at found

end Segmented

end LenientMime
