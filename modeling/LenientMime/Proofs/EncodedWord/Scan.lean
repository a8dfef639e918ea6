import LenientMime.Proofs.EncodedWord.Segment

namespace LenientMime.EncodedWord

open Segment

/-! The scanner finds the segments of its text.

Wherever the scanner stands, what it will still write is settled: it is what the
segments from the candidate on, or from the reading position on, make of the text
that is held.  Every step keeps that, so the whole run writes what the segments of
the whole text say.
-/

variable {codec : Codec} {form : Form}

def Form.renderBehind (codec : Codec) : Form → List Segment → Text
  | decoded, segments => (closeGaps (dropGap segments)).flatMap plainText
  | canonical, segments => segments.flatMap (canonicalText codec)

theorem Form.render_char (form : Form) (c : Char) (segments : List Segment) :
    form.render codec (.char c :: segments) = c :: form.render codec segments := by
  cases form with
  | decoded => rw [render, closeGaps]; rfl
  | canonical => rfl

theorem Form.render_chars (form : Form) (text : Text) (segments : List Segment) :
    form.render codec (text.map .char ++ segments) = text ++ form.render codec segments := by
  induction text with
  | nil => rfl
  | cons c text ih => rw [List.map_cons, List.cons_append, render_char, ih, List.cons_append]

theorem Form.render_nil (form : Form) : form.render codec [] = [] := by
  cases form with
  | decoded => rw [render, closeGaps]; rfl
  | canonical => rfl

theorem Form.render_plain (form : Form) (text : Text) :
    form.render codec (text.map .char) = text := by
  have plain := @render_chars codec form text []
  rwa [render_nil, List.append_nil, List.append_nil] at plain

theorem Form.render_word (form : Form) (text : Text) (segments : List Segment) :
    form.render codec (.word text :: segments) =
      form.write codec text ++ form.renderBehind codec segments := by
  cases form with
  | decoded => rw [render, closeGaps]; rfl
  | canonical => rfl

theorem Form.renderBehind_nil (form : Form) : form.renderBehind codec [] = [] := by
  cases form with
  | decoded => rw [renderBehind, dropGap, List.dropWhile_nil, closeGaps]; rfl
  | canonical => rfl

section Gap

variable {gap : Text} (blank : ∀ c ∈ gap, Scanner.isSpacing c = true)

include blank in
theorem dropWhile_gap (segments : List Segment) :
    (gap.map Segment.char ++ segments).dropWhile Segment.isSpacing =
      segments.dropWhile Segment.isSpacing := by
  refine List.dropWhile_append_of_pos fun segment member => ?_
  obtain ⟨c, inside, rfl⟩ := List.mem_map.mp member
  exact blank c inside

include blank in
/-- Between two words a gap of blanks is written in one form only. -/
theorem Form.renderBehind_word (form : Form) (text : Text) (segments : List Segment) :
    form.renderBehind codec (gap.map Segment.char ++ .word text :: segments) =
      (if form = .decoded then [] else gap) ++ form.render codec (.word text :: segments) := by
  cases form with
  | decoded =>
      rw [renderBehind, dropGap, dropWhile_gap blank]
      rfl
  | canonical => exact render_chars .canonical gap _

include blank in
theorem Form.renderBehind_chars (form : Form) {segments : List Segment}
    (noWord : ∀ text later, segments.dropWhile Segment.isSpacing ≠ .word text :: later) :
    form.renderBehind codec (gap.map Segment.char ++ segments) = gap ++ form.render codec segments := by
  rw [← render_chars]
  cases form with
  | decoded =>
      have kept : dropGap (gap.map Segment.char ++ segments) =
          gap.map Segment.char ++ segments := by
        rw [dropGap, dropWhile_gap blank]
        split
        · next found => exact absurd found (noWord _ _)
        · rfl
      rw [renderBehind, kept]
      rfl
  | canonical => rfl

end Gap

def Place.mayStart : Place → Bool
  | plain => false
  | _ => true

/-- What was read of a candidate is the front of a word; what failed is none. -/
def Place.Sound (codec : Codec) (ahead : Text) : Place → Prop
  | charset label => ∀ c ∈ label, isTokenChar c = true
  | encoding label => label ≠ [] ∧ ∀ c ∈ label, isTokenChar c = true
  | payload label letter kind text =>
      label ≠ [] ∧ (∀ c ∈ label, isTokenChar c = true) ∧
        Encoding.ofLetter? letter = some kind ∧ ∀ c ∈ text, isPayloadChar c = true
  | failed seen => ahead ≠ [] ∧
      ∀ decoded rest, ¬ Begins codec ('=' :: '?' :: (seen.reverse ++ ahead)) decoded rest
  | _ => True

namespace Scanner

/-- The text from the candidate on, or from the reading position on. -/
def start (scanner : Scanner) : Text :=
  scanner.place.candidate ++ scanner.ahead

def behind (scanner : Scanner) : Bool :=
  match scanner.place with
  | .blank | .plain => false
  | .behindWord => true
  | _ => scanner.afterWord

structure Sound (codec : Codec) (scanner : Scanner) : Prop where
  gap : scanner.behind = true → ∀ c ∈ scanner.held, isSpacing c = true
  place : scanner.place.Sound codec scanner.ahead

/-- What is still to be written, given the segments of what is not held. -/
def meaning (codec : Codec) (form : Form) (scanner : Scanner) (segments : List Segment) : Text :=
  if scanner.behind then form.renderBehind codec (scanner.held.reverse.map .char ++ segments)
  else scanner.held.reverse ++ form.render codec segments

variable {scanner : Scanner} {c : Char} {rest : Text} {segments : List Segment}

theorem meaning_char (sound : scanner.Sound codec) (form : Form) (solid : isSpacing c = false)
    (later : List Segment) :
    scanner.meaning codec form (.char c :: later) =
      scanner.held.reverse ++ c :: form.render codec later := by
  rw [← Form.render_char, meaning]
  split
  · next behind =>
    refine Form.renderBehind_chars ?_ form ?_
    · simpa using sound.gap behind
    · simp [Segment.isSpacing, solid]
  · rfl

theorem meaning_nil (sound : scanner.Sound codec) (form : Form) :
    scanner.meaning codec form [] = scanner.held.reverse := by
  rw [meaning]
  split
  · next behind =>
    rw [Form.renderBehind_chars (by simpa using sound.gap behind) form (by simp), Form.render_nil,
      List.append_nil]
  · rw [Form.render_nil, List.append_nil]

theorem meaning_word (sound : scanner.Sound codec) (form : Form) (text : Text)
    (later : List Segment) :
    scanner.meaning codec form (.word text :: later) =
      (if scanner.behind && form == .decoded then [] else scanner.held.reverse) ++
        (form.write codec text ++ form.renderBehind codec later) := by
  rw [← Form.render_word, meaning]
  cases behind : scanner.behind with
  | true =>
      rw [if_pos rfl, Form.renderBehind_word (by simpa using sound.gap behind)]
      cases form <;> rfl
  | false => rfl

/-- A step that keeps the meaning: what it writes and what is still to be written
are what was to be written before. -/
def Keeps (codec : Codec) (form : Form) (scanner : Scanner) (segments : List Segment)
    (stepped : Text × Scanner) : Prop :=
  ∃ later, stepped.2.Sound codec ∧
    Segmented codec stepped.2.place.mayStart stepped.2.start later ∧
    stepped.1 ++ stepped.2.meaning codec form later = scanner.meaning codec form segments

section Steps

variable {held ahead tail label : Text} {afterWord : Bool} {place next : Place}

theorem mayStart_of_inside (inside : place.rank = 1) : place.mayStart = true := by
  cases place <;> first | rfl | exact absurd inside (by simp [Place.rank])

theorem behind_of_inside (inside : place.rank = 1) :
    behind ⟨place, held, afterWord, ahead⟩ = afterWord := by
  cases place <;> first | rfl | exact absurd inside (by simp [Place.rank])

theorem read_keeps (inside : place.rank = 1) (goesOn : next.rank = 1)
    (sound : Sound codec ⟨place, held, afterWord, c :: rest⟩)
    (found : Segmented codec place.mayStart (start ⟨place, held, afterWord, c :: rest⟩) segments)
    (nextSound : next.Sound codec tail)
    (read : next.candidate ++ tail = place.candidate ++ c :: rest) :
    Keeps codec form ⟨place, held, afterWord, c :: rest⟩ segments
      ([], ⟨next, held, afterWord, tail⟩) := by
  have gap := sound.gap
  rw [behind_of_inside inside] at gap
  refine ⟨segments, ⟨?_, nextSound⟩, ?_, ?_⟩
  · rwa [behind_of_inside goesOn]
  · rw [mayStart_of_inside inside, start] at found
    rwa [mayStart_of_inside goesOn, start, read]
  · rw [List.nil_append, meaning, meaning, behind_of_inside inside, behind_of_inside goesOn]

theorem fail_keeps (inside : place.rank = 1)
    (sound : Sound codec ⟨place, held, afterWord, c :: rest⟩)
    (found : Segmented codec place.mayStart (start ⟨place, held, afterWord, c :: rest⟩) segments)
    (noWord : ∀ decoded after,
      ¬ Begins codec ('=' :: '?' :: (place.seen.reverse ++ c :: rest)) decoded after) :
    Keeps codec form ⟨place, held, afterWord, c :: rest⟩ segments
      ([], fail ⟨place, held, afterWord, c :: rest⟩) := by
  have gap := sound.gap
  rw [behind_of_inside inside] at gap
  refine ⟨segments, ⟨gap, List.cons_ne_nil _ _, noWord⟩, ?_, ?_⟩
  · rw [mayStart_of_inside inside, start, Place.candidate_of_inside inside] at found
    exact found
  · rw [List.nil_append, meaning, meaning, behind_of_inside inside]
    rfl

theorem atPlain_keeps (found : Segmented codec false (c :: rest) segments) :
    Keeps codec form ⟨.plain, held, afterWord, c :: rest⟩ segments
      ([], atPlain ⟨.plain, held, afterWord, c :: rest⟩ c rest) := by
  obtain ⟨later, rfl, behind⟩ := Segmented.char_cons (fun free => absurd free (by decide)) found
  unfold atPlain
  cases blank : isSpacing c <;> rw [blank] at behind
  · refine ⟨later, ⟨nofun, trivial⟩, behind, ?_⟩
    simp [meaning, Scanner.behind, Form.render_char]
  · refine ⟨later, ⟨nofun, trivial⟩, behind, ?_⟩
    simp [meaning, Scanner.behind, Form.render_char]

theorem atGap_keeps {stay : Place} (candidateAfterWord : Bool)
    (isGap : stay = .blank ∧ candidateAfterWord = false ∨
      stay = .behindWord ∧ candidateAfterWord = true)
    (sound : Sound codec ⟨stay, held, afterWord, c :: rest⟩)
    (found : Segmented codec true (c :: rest) segments) :
    Keeps codec form ⟨stay, held, afterWord, c :: rest⟩ segments
      ([], atGap stay candidateAfterWord ⟨stay, held, afterWord, c :: rest⟩ c rest) := by
  have gap : candidateAfterWord = true → ∀ c ∈ held, isSpacing c = true := by
    rcases isGap with ⟨rfl, rfl⟩ | ⟨rfl, rfl⟩
    · exact nofun
    · exact sound.gap
  have isBehind : behind ⟨stay, held, afterWord, c :: rest⟩ = candidateAfterWord := by
    rcases isGap with ⟨rfl, rfl⟩ | ⟨rfl, rfl⟩ <;> rfl
  unfold atGap
  split
  · next blank =>
    have plain (decoded after : Text) : ¬ Begins codec (c :: rest) decoded after := by
      intro begins
      obtain ⟨_, same⟩ := begins.shape
      obtain ⟨rfl, -⟩ := List.cons.inj same
      exact absurd blank (by decide)
    obtain ⟨later, rfl, behind⟩ := Segmented.char_cons (fun _ => plain) found
    rw [blank] at behind
    have longer : candidateAfterWord = true → ∀ d ∈ c :: held, isSpacing d = true :=
      fun afterWord => List.forall_mem_cons.mpr ⟨blank, gap afterWord⟩
    rcases isGap with ⟨rfl, rfl⟩ | ⟨rfl, rfl⟩
    · refine ⟨later, ⟨nofun, trivial⟩, behind, ?_⟩
      simp [meaning, Scanner.behind, Form.render_char]
    · refine ⟨later, ⟨longer, trivial⟩, behind, ?_⟩
      simp [meaning, Scanner.behind]
  · next solid =>
    split
    · refine ⟨segments, ⟨gap, nofun⟩, found, ?_⟩
      rw [meaning, meaning, isBehind]
      rfl
    · next other =>
      have plain (decoded after : Text) : ¬ Begins codec (c :: rest) decoded after := by
        intro begins
        obtain ⟨later, same⟩ := begins.shape
        obtain ⟨rfl, rfl⟩ := List.cons.inj same
        exact other later rfl rfl
      obtain ⟨later, rfl, behind⟩ := Segmented.char_cons (fun _ => plain) found
      rw [Bool.eq_false_iff.mpr solid] at behind
      refine ⟨later, ⟨nofun, trivial⟩, behind, ?_⟩
      rw [meaning_char sound form (Bool.eq_false_iff.mpr solid)]
      simp [meaning, Scanner.behind]

theorem atCharset_keeps
    (sound : Sound codec ⟨.charset label, held, afterWord, c :: rest⟩)
    (found : Segmented codec true (start ⟨.charset label, held, afterWord, c :: rest⟩) segments) :
    Keeps codec form ⟨.charset label, held, afterWord, c :: rest⟩ segments
      ([], atCharset label ⟨.charset label, held, afterWord, c :: rest⟩ c rest) := by
  have tokens : ∀ c ∈ label, isTokenChar c = true := sound.place
  unfold atCharset
  split
  · next mark =>
    obtain ⟨rfl, nonempty⟩ : c = '?' ∧ label ≠ [] := by simpa using mark
    refine read_keeps rfl rfl sound found ⟨nonempty, tokens⟩ ?_
    simp [Place.candidate, Place.seen]
  · next unmarked =>
    split
    · next token =>
      refine read_keeps rfl rfl sound found (List.forall_mem_cons.mpr ⟨token, tokens⟩) ?_
      simp [Place.candidate, Place.seen]
    · next stops =>
      refine fail_keeps rfl sound found fun decoded after => ?_
      refine not_begins_of_label (by simpa [Place.seen] using tokens) (by simpa using stops)
        fun mark => ?_
      simpa [mark, Place.seen] using unmarked

theorem atEncoding_keeps
    (sound : Sound codec ⟨.encoding label, held, afterWord, c :: rest⟩)
    (found : Segmented codec true (start ⟨.encoding label, held, afterWord, c :: rest⟩) segments) :
    Keeps codec form ⟨.encoding label, held, afterWord, c :: rest⟩ segments
      ([], atEncoding label ⟨.encoding label, held, afterWord, c :: rest⟩ c rest) := by
  obtain ⟨nonempty, tokens⟩ : label ≠ [] ∧ ∀ c ∈ label, isTokenChar c = true := sound.place
  unfold atEncoding
  split
  · next kind tail isLetter =>
    refine read_keeps rfl rfl sound found ⟨nonempty, tokens, isLetter, by simp⟩ ?_
    simp [Place.candidate, Place.seen]
  · next other =>
    refine fail_keeps rfl sound found fun decoded after begins => ?_
    simp only [Place.seen, List.reverse_cons, List.append_assoc, List.singleton_append] at begins
    obtain ⟨letter, kind, payload, isLetter, -, -, same⟩ :=
      begins.cut_label (by simpa using tokens)
    obtain ⟨rfl, rfl⟩ := List.cons.inj same
    exact other kind _ isLetter rfl

theorem atPayload_keeps {letter : Char} {encoding : Encoding} {text : Text}
    (sound : Sound codec ⟨.payload label letter encoding text, held, afterWord, c :: rest⟩)
    (found : Segmented codec true
      (start ⟨.payload label letter encoding text, held, afterWord, c :: rest⟩) segments) :
    Keeps codec form ⟨.payload label letter encoding text, held, afterWord, c :: rest⟩ segments
      (atPayload codec form label letter encoding text
        ⟨.payload label letter encoding text, held, afterWord, c :: rest⟩ c rest) := by
  obtain ⟨nonempty, tokens, isLetter, inside⟩ : label ≠ [] ∧ (∀ c ∈ label, isTokenChar c = true) ∧
    Encoding.ofLetter? letter = some encoding ∧ ∀ c ∈ text, isPayloadChar c = true := sound.place
  have cut {decoded after : Text} (begins : Begins codec ('=' :: '?' ::
      ((Place.payload label letter encoding text).seen.reverse ++ c :: rest)) decoded after) :
      ∃ payload : Text, (∀ c ∈ payload, isPayloadChar c = true) ∧
        EncodedWord.decode? codec { label := label.reverse, encoding, payload } = some decoded ∧
        text.reverse ++ c :: rest = payload ++ '?' :: '=' :: after := by
    simp only [Place.seen, List.reverse_append, List.reverse_cons, List.append_assoc,
      List.singleton_append] at begins
    exact begins.cut_letter (by simpa using tokens) isLetter
  unfold atPayload
  split
  · next tail =>
    unfold finish
    split
    · next decoded decodes =>
      have spells : Begins codec
          (start ⟨.payload label letter encoding text, held, afterWord, '?' :: '=' :: tail⟩)
          decoded tail := by
        have isToken : Text.isToken label.reverse = true := by
          simpa [Text.isToken] using ⟨nonempty, tokens⟩
        have begins := Begins.of_decode? ⟨isToken, by simpa using inside, letter, isLetter, rfl⟩
          decodes tail
        simpa [start, Place.candidate, Place.seen] using begins
      obtain ⟨later, rfl, behind⟩ := Segmented.word_cons spells found
      refine ⟨later, ⟨fun _ => by simp, trivial⟩, behind, ?_⟩
      rw [meaning_word sound, List.append_assoc]
      rfl
    · next fails =>
      refine fail_keeps rfl sound found fun decoded after begins => ?_
      obtain ⟨payload, wordInside, decodes, same⟩ := cut begins
      obtain ⟨rfl, -⟩ := append_cons_inj (by simpa using inside) (by decide) wordInside
        (by decide) same
      exact absurd (fails.symm.trans decodes) (by simp)
  · next other =>
    split
    · next printable =>
      refine read_keeps rfl rfl sound found
        ⟨nonempty, tokens, isLetter, List.forall_mem_cons.mpr ⟨printable, inside⟩⟩ ?_
      simp [Place.candidate, Place.seen]
    · next stops =>
      refine fail_keeps rfl sound found fun decoded after begins => ?_
      obtain ⟨payload, wordInside, -, same⟩ := cut begins
      obtain ⟨-, rfl, rfl⟩ := append_cons_inj (by simpa using inside) (by simpa using stops)
        wordInside (by decide) same
      exact other _ rfl rfl

theorem recover_keeps {seen : Text}
    (sound : Sound codec ⟨.failed seen, held, afterWord, ahead⟩)
    (found : Segmented codec true (start ⟨.failed seen, held, afterWord, ahead⟩) segments) :
    Keeps codec form ⟨.failed seen, held, afterWord, ahead⟩ segments
      ([], recover seen ⟨.failed seen, held, afterWord, ahead⟩) := by
  obtain ⟨-, noWord⟩ : ahead ≠ [] ∧ ∀ decoded after,
    ¬ Begins codec ('=' :: '?' :: (seen.reverse ++ ahead)) decoded after := sound.place
  obtain ⟨later, rfl, behind⟩ := Segmented.of_failed noWord found
  refine ⟨later, ⟨nofun, trivial⟩, behind, ?_⟩
  rw [meaning_char sound form (by decide)]
  simp [meaning, Scanner.behind, recover, Form.render_char]

theorem step_keeps (sound : scanner.Sound codec) (shown : scanner.ahead = c :: rest)
    (found : Segmented codec scanner.place.mayStart scanner.start segments) :
    Keeps codec form scanner segments (scanner.step codec form c rest) := by
  obtain ⟨place, held, afterWord, ahead⟩ := scanner
  subst shown
  cases place with
  | blank => exact atGap_keeps false (.inl ⟨rfl, rfl⟩) sound found
  | plain => exact atPlain_keeps found
  | charset label => exact atCharset_keeps sound found
  | encoding label => exact atEncoding_keeps sound found
  | payload label letter encoding text => exact atPayload_keeps sound found
  | behindWord => exact atGap_keeps true (.inr ⟨rfl, rfl⟩) sound found
  | failed seen => exact recover_keeps sound found

theorem quiet_append {front back : Text} (noEquals : '=' ∉ front) (noMark : '?' ∉ back) :
    ¬ ['=', '?'] <:+: front ++ back := by
  induction front with
  | nil => exact fun inner => noMark (inner.subset (by simp))
  | cons c front ih =>
      rw [List.cons_append, List.infix_cons_iff, not_or]
      obtain ⟨distinct, later⟩ := List.ne_and_not_mem_of_not_mem_cons noEquals
      exact ⟨fun shown => distinct (List.cons_prefix_cons.mp shown).1, ih later⟩

/-- Inside a word no other one begins. -/
theorem quiet_word {label payload : Text} {letter : Char} {kind : Encoding}
    (tokens : ∀ c ∈ label, isTokenChar c = true) (isLetter : Encoding.ofLetter? letter = some kind)
    (inside : ∀ c ∈ payload, isPayloadChar c = true) :
    ¬ ['=', '?'] <:+: label ++ '?' :: letter :: '?' :: payload := by
  have noEquals : '=' ∉ label := Text.not_mem_of_tokens tokens (by decide)
  have noLetter : '=' ≠ letter := by
    rintro rfl
    exact absurd isLetter (by simp [Encoding.ofLetter?])
  have noMark : '?' ∉ payload := fun member => absurd (inside '?' member) (by decide)
  have quiet : ¬ ['=', '?'] <:+: (label ++ ['?', letter, '?']) ++ payload :=
    quiet_append (by simpa [noLetter] using noEquals) noMark
  simpa using quiet

/-- What was read of a candidate holds no start of another one. -/
theorem quiet_seen (inside : place.rank = 1) (sound : place.Sound codec ahead) :
    ¬ ['=', '?'] <:+: place.seen.reverse := by
  cases place with
  | charset label =>
      have noEquals : '=' ∉ label := Text.not_mem_of_tokens sound (by decide)
      rw [← List.append_nil (Place.charset label).seen.reverse]
      exact quiet_append (by simpa [Place.seen] using noEquals) (by simp)
  | encoding label =>
      have noEquals : '=' ∉ label := Text.not_mem_of_tokens sound.2 (by decide)
      rw [← List.append_nil (Place.encoding label).seen.reverse]
      exact quiet_append (by simpa [Place.seen] using noEquals) (by simp)
  | payload label letter encoding text =>
      obtain ⟨-, tokens, isLetter, printable⟩ := sound
      have quiet : ¬ ['=', '?'] <:+: label.reverse ++ '?' :: letter :: '?' :: text.reverse :=
        quiet_word (by simpa using tokens) isLetter (by simpa using printable)
      simpa [Place.seen] using quiet
  | blank | plain | behindWord | failed _ => exact absurd inside (by simp [Place.rank])

theorem candidate_end (inside : place.rank = 1)
    (sound : Sound codec ⟨place, held, afterWord, []⟩)
    (found : Segmented codec place.mayStart (start ⟨place, held, afterWord, []⟩) segments)
    (noWord : ∀ decoded after, ¬ Begins codec ('=' :: '?' :: place.seen.reverse) decoded after) :
    unwritten ⟨place, held, afterWord, []⟩ =
      meaning codec form ⟨place, held, afterWord, []⟩ segments := by
  have shape := Place.candidate_of_inside inside
  rw [mayStart_of_inside inside, start, List.append_nil, shape] at found
  obtain ⟨later, rfl, rest⟩ := Segmented.of_failed noWord found
  rw [Segmented.of_quiet (quiet_seen inside sound.place) rest, meaning_char sound form (by decide),
    Form.render_char, Form.render_plain, unwritten, shape]
  exact congrArg (held.reverse ++ ·) (List.append_nil _)

theorem end_keeps (sound : scanner.Sound codec) (ended : scanner.ahead = [])
    (found : Segmented codec scanner.place.mayStart scanner.start segments) :
    scanner.unwritten = scanner.meaning codec form segments := by
  obtain ⟨place, held, afterWord, ahead⟩ := scanner
  subst ended
  cases place with
  | blank | plain | behindWord =>
      obtain rfl := found.unique (.nil _)
      rw [meaning_nil sound, unwritten]
      exact List.append_nil held.reverse
  | charset label =>
      have tokens : ∀ c ∈ label, isTokenChar c = true := sound.place
      refine candidate_end rfl sound found fun _ _ => ?_
      exact not_begins_of_openLabel (by simpa [Place.seen] using tokens)
  | encoding label =>
      obtain ⟨-, tokens⟩ : label ≠ [] ∧ ∀ c ∈ label, isTokenChar c = true := sound.place
      refine candidate_end rfl sound found fun _ _ begins => ?_
      rw [Place.seen, List.reverse_cons] at begins
      obtain ⟨_, _, _, -, -, -, impossible⟩ := begins.cut_label (by simpa using tokens)
      contradiction
  | payload label letter encoding text =>
      obtain ⟨-, tokens, isLetter, inside⟩ : label ≠ [] ∧ (∀ c ∈ label, isTokenChar c = true) ∧
        Encoding.ofLetter? letter = some encoding ∧ ∀ c ∈ text, isPayloadChar c = true :=
          sound.place
      refine candidate_end rfl sound found fun _ _ begins => ?_
      simp only [Place.seen, List.reverse_append, List.reverse_cons, List.append_assoc,
        List.singleton_append] at begins
      obtain ⟨payload, -, -, same⟩ := begins.cut_letter (by simpa using tokens) isLetter
      have member : '?' ∈ text := by
        rw [← List.mem_reverse, same]
        simp
      exact absurd (inside '?' member) (by decide)
  | failed seen => exact absurd rfl sound.place.1

theorem run_keeps (sound : scanner.Sound codec)
    (found : Segmented codec scanner.place.mayStart scanner.start segments) :
    scanner.run codec form = scanner.meaning codec form segments := by
  fun_induction run codec form scanner generalizing segments with
  | case1 scanner ended => exact end_keeps sound ended found
  | case2 scanner c rest shown =>
      rename_i ih
      obtain ⟨later, stepSound, rest, kept⟩ := step_keeps sound shown found
      rw [ih stepSound rest, kept]

end Steps

end Scanner

theorem rewrite_of_segmented {text : Text} {segments : List Segment}
    (found : Segmented codec true text segments) :
    rewrite codec form text = form.render codec segments :=
  Scanner.run_keeps ⟨nofun, trivial⟩ found

/-- Every text has its segments, and only these.  Decoding puts the words of the
segments in plain text and drops the blank gaps between them; the canonical form puts
them in base64 and keeps every gap. -/
theorem rewrite_eq_segments (codec : Codec) (text : Text) :
    ∃ segments, Segmented codec true text segments ∧
      (∀ others, Segmented codec true text others → others = segments) ∧
      rewrite codec .decoded text = (closeGaps segments).flatMap plainText ∧
      rewrite codec .canonical text = segments.flatMap (canonicalText codec) := by
  obtain ⟨segments, found⟩ := Segmented.exists_segments codec true text
  exact ⟨segments, found, fun _ again => again.unique found, rewrite_of_segmented found,
    rewrite_of_segmented found⟩

/-- A word with a language, an escape in lower case and an equals sign that begins no escape, and
behind it a candidate whose payload is no base64. -/
theorem rewrite_eq_segments_half :
    Segmented .standard true "=?utf-8*de?q?=c3=BC_=?= =?utf-8?B?!?=".toList
        (.word "ü =".toList :: " =?utf-8?B?!?=".toList.map .char) ∧
      rewrite .standard .decoded "=?utf-8*de?q?=c3=BC_=?= =?utf-8?B?!?=".toList =
        "ü = =?utf-8?B?!?=".toList ∧
      rewrite .standard .canonical "=?utf-8*de?q?=c3=BC_=?= =?utf-8?B?!?=".toList =
        "=?UTF-8?B?w7wgPQ==?= =?utf-8?B?!?=".toList := by
  let word : EncodedWord := ⟨"utf-8*de".toList, .quoted, "=c3=BC_=".toList⟩
  have spells : word.Spells "=?utf-8*de?q?=c3=BC_=?=".toList :=
    ⟨by decide, List.all_eq_true.mp (by decide), 'q', rfl, rfl⟩
  have decodes : word.decode? .standard = some "ü =".toList := by decide +kernel
  have fails : EncodedWord.decode? .standard ⟨"utf-8".toList, .base64, ['!']⟩ = none := by
    decide +kernel
  have noWord (text after : Text) : ¬ Begins .standard "=?utf-8?B?!?=".toList text after := by
    intro begins
    obtain ⟨payload, inside, found, same⟩ :=
      @Begins.cut_letter _ "utf-8".toList (List.all_eq_true.mp (by decide)) 'B' _ "!?=".toList
        _ _ rfl begins
    have mark : ∀ c ∈ ['!'], isPayloadChar c = true := by simp [isPayloadChar]
    obtain ⟨rfl, -⟩ := append_cons_inj mark (by decide) inside (by decide) same
    rw [fails] at found
    cases found
  have candidate : "=?utf-8?B?!?=".toList = '=' :: "?utf-8?B?!?=".toList := by decide
  have behind : Segmented .standard true (' ' :: '=' :: "?utf-8?B?!?=".toList)
      ((' ' :: '=' :: "?utf-8?B?!?=".toList).map .char) := by
    rw [candidate] at noWord
    refine .char (fun _ _ _ begins => ?_) (.char (fun _ => noWord) (.chars ?_))
    · obtain ⟨later, same⟩ := begins.shape
      exact absurd (List.cons.inj same).1 (by decide)
    · rw [← Text.holds_iff]
      decide
  have gap : " =?utf-8?B?!?=".toList = ' ' :: '=' :: "?utf-8?B?!?=".toList := by decide
  rw [← gap] at behind
  have joined : "=?utf-8*de?q?=c3=BC_=?= =?utf-8?B?!?=".toList =
      "=?utf-8*de?q?=c3=BC_=?=".toList ++ " =?utf-8?B?!?=".toList := by decide
  have whole : Segmented .standard true "=?utf-8*de?q?=c3=BC_=?= =?utf-8?B?!?=".toList
      (.word "ü =".toList :: " =?utf-8?B?!?=".toList.map .char) := by
    rw [joined]
    exact .word (Begins.of_decode? spells decodes _) behind
  obtain ⟨segments, -, unique, decoded, canonical⟩ :=
    rewrite_eq_segments .standard "=?utf-8*de?q?=c3=BC_=?= =?utf-8?B?!?=".toList
  obtain rfl := unique _ whole
  refine ⟨whole, ?_, canonical.trans (by decide +kernel)⟩
  have kept : dropGap (" =?utf-8?B?!?=".toList.map .char) = " =?utf-8?B?!?=".toList.map .char := by
    decide
  have plain : (closeGaps (" =?utf-8?B?!?=".toList.map .char)).flatMap plainText =
      " =?utf-8?B?!?=".toList := @Form.render_plain .standard .decoded _
  rw [decoded, closeGaps, List.flatMap_cons, kept, plain]
  decide

end LenientMime.EncodedWord
