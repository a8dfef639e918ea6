import LenientMime.MediaType.Repair
import LenientMime.Proofs.MediaType.Unquoted
import Mathlib.Data.List.Induction

namespace LenientMime.Text

/-- Between double quotes the body is written for the text.  A backslash quotes a special
character; before any other character it stands for itself, together with that character. -/
inductive QuotedBody : Text → Text → Prop
  | nil : QuotedBody [] []
  | quoted {c : Char} {body text : Text} (special : isSpecial c = true) :
      QuotedBody body text → QuotedBody ('\\' :: c :: body) (c :: text)
  | literal {c : Char} {body text : Text} (ordinary : isSpecial c = false) :
      QuotedBody body text → QuotedBody ('\\' :: c :: body) ('\\' :: c :: text)
  | plain {c : Char} {body text : Text} (noQuote : c ≠ '"') (noBackslash : c ≠ '\\') :
      QuotedBody body text → QuotedBody (c :: body) (c :: text)

/-- No line break stands in the text. -/
def Unbroken (text : Text) : Prop :=
  ∀ c ∈ text, c ≠ '\r' ∧ c ≠ '\n'

instance (text : Text) : Decidable text.Unbroken :=
  List.decidableBAll _ text

theorem Unbroken.append {front back : Text} (first : front.Unbroken) (second : back.Unbroken) :
    Unbroken (front ++ back) :=
  List.forall_mem_append.mpr ⟨first, second⟩

theorem unbroken_of_token {c : Char} (token : isTokenChar c = true) : c ≠ '\r' ∧ c ≠ '\n' := by
  constructor <;> rintro rfl <;> exact absurd token (by decide)

theorem unbroken_of_tokens {text : Text} (tokens : ∀ c ∈ text, isTokenChar c = true) :
    text.Unbroken :=
  fun c member => unbroken_of_token (tokens c member)

theorem joinLines_of_unbroken {text : Text} (unbroken : text.Unbroken) : text.joinLines = text := by
  induction text with
  | nil => rfl
  | cons c rest ih =>
      obtain ⟨⟨noReturn, noFeed⟩, later⟩ := List.forall_mem_cons.mp unbroken
      have kept : joinLines (c :: rest) = c :: joinLines rest := by
        simp [joinLines, noReturn, noFeed]
      rw [kept, ih later]

theorem endsInEscape_append_of_plain {c : Char} (plain : c ≠ '\\') (front text : Text) :
    endsInEscape (front ++ c :: text) = endsInEscape text := by
  simp only [endsInEscape, List.reverse_append, List.reverse_cons, List.append_assoc,
    List.singleton_append, List.takeWhile_append]
  split
  · next whole =>
    rw [List.takeWhile_cons_of_neg (by simpa using plain), List.append_nil, whole]
  · rfl

/-- A backslash and what it quotes do not tell how a text ends. -/
theorem endsInEscape_pair_cons (c : Char) (text : Text) :
    endsInEscape ('\\' :: c :: text) = endsInEscape text := by
  by_cases backslash : c = '\\'
  · subst backslash
    simp only [endsInEscape, List.reverse_cons, List.append_assoc, List.singleton_append,
      List.takeWhile_append]
    split
    · next whole => simp [whole]
    · rfl
  · exact endsInEscape_append_of_plain backslash ['\\'] text

namespace QuotedBody

variable {body text value rest : Text}

/-- A body that begins with an ordinary character goes on behind it. -/
theorem of_ordinary {c : Char} (quotedBody : QuotedBody (c :: body) value)
    (ordinary : isSpecial c = false) :
    ∃ text, value = c :: text ∧ QuotedBody body text := by
  cases quotedBody with
  | quoted => exact absurd ordinary (by decide)
  | literal => exact absurd ordinary (by decide)
  | plain noQuote noBackslash later => exact ⟨_, rfl, later⟩

theorem readQuoted?_append (quotedBody : QuotedBody body text) (unbroken : body.Unbroken)
    (rest : Text) : readQuoted? (body ++ '"' :: rest) = some (text, rest) := by
  induction quotedBody with
  | nil => simp [readQuoted?]
  | quoted special later ih =>
      have behind := ih (List.forall_mem_cons.mp (List.forall_mem_cons.mp unbroken).2).2
      simp only [List.cons_append, readQuoted?, special, if_true, behind, Option.map_some]
  | @literal c body text ordinary later ih =>
      obtain ⟨here, after⟩ := List.forall_mem_cons.mp (List.forall_mem_cons.mp unbroken).2
      have noQuote : c ≠ '"' := by rintro rfl; contradiction
      have noBackslash : c ≠ '\\' := by rintro rfl; contradiction
      have behind : readQuoted? (c :: (body ++ '"' :: rest)) = some (c :: text, rest) := by
        rw [readQuoted?]
        · simp [here, ih after]
        · exact noQuote
        · exact fun _ _ same _ => noBackslash same
      simp only [List.cons_append, readQuoted?, ordinary, Bool.false_eq_true, if_false, behind,
        Option.map_some]
  | plain noQuote noBackslash later ih =>
      obtain ⟨here, after⟩ := List.forall_mem_cons.mp unbroken
      rw [List.cons_append, readQuoted?]
      · simp [here, ih after]
      · exact noQuote
      · exact fun _ _ same _ => noBackslash same

theorem of_readQuoted? (found : readQuoted? text = some (value, rest)) :
    ∃ body, text = body ++ '"' :: rest ∧ QuotedBody body value ∧ body.Unbroken := by
  fun_induction readQuoted? text generalizing value with
  | case1 => simp at found
  | case2 =>
      obtain ⟨rfl, rfl⟩ := by simpa using found
      exact ⟨[], rfl, .nil, by simp [Unbroken]⟩
  | case3 c after special ih =>
      obtain ⟨later, inner, rfl⟩ := by simpa using found
      obtain ⟨body, rfl, quotedBody, unbroken⟩ := ih inner
      refine ⟨'\\' :: c :: body, rfl, .quoted special quotedBody, ?_⟩
      have noBreak : c ≠ '\r' ∧ c ≠ '\n' := by
        constructor <;> rintro rfl <;> contradiction
      exact List.forall_mem_cons.mpr ⟨by decide, List.forall_mem_cons.mpr ⟨noBreak, unbroken⟩⟩
  | case4 c after ordinary ih =>
      obtain ⟨later, inner, rfl⟩ := by simpa using found
      obtain ⟨body, whole, quotedBody, unbroken⟩ := ih inner
      have ordinary : isSpecial c = false := by simpa using ordinary
      cases body with
      | nil =>
          obtain ⟨rfl, -⟩ := by simpa using whole
          exact absurd ordinary (by decide)
      | cons d body =>
          obtain ⟨rfl, rfl⟩ := by simpa using whole
          obtain ⟨text, rfl, behind⟩ := quotedBody.of_ordinary ordinary
          exact ⟨'\\' :: c :: body, rfl, .literal ordinary behind,
            List.forall_mem_cons.mpr ⟨by decide, unbroken⟩⟩
  | case5 => simp at found
  | case6 c after noQuote noPair noBreak ih =>
      obtain ⟨later, inner, rfl⟩ := by simpa using found
      obtain ⟨body, rfl, quotedBody, unbroken⟩ := ih inner
      -- A backslash with nothing behind it would leave the quotes open.
      have noBackslash : c ≠ '\\' := by
        intro backslash
        have closed : body ++ '"' :: rest ≠ [] := by simp
        obtain ⟨d, more, shown⟩ := List.exists_cons_of_ne_nil closed
        exact noPair d more backslash shown
      exact ⟨c :: body, rfl, .plain noQuote noBackslash quotedBody,
        List.forall_mem_cons.mpr ⟨by simpa using noBreak, unbroken⟩⟩

/-- The body stays inside the quotes wherever a splitter goes through it. -/
theorem passes (quotedBody : QuotedBody body text) (separator : Char) :
    Quoting.Passes separator .inside body .inside := by
  have pair (c : Char) : Quoting.Passes separator .inside ['\\', c] .inside := by
    have first : Quoting.Passes separator .inside ['\\'] .hidden :=
      Quoting.passes_char (by simp)
    have second : Quoting.Passes separator .hidden [c] .inside :=
      Quoting.passes_char (by simp)
    exact first.append second
  induction quotedBody with
  | nil => exact .nil
  | quoted special later ih => exact (pair _).append ih
  | literal ordinary later ih => exact (pair _).append ih
  | @plain c body text noQuote noBackslash later ih =>
      have here : Quoting.Passes separator .inside [c] .inside :=
        Quoting.passes_inside (by simp [noQuote, noBackslash])
      exact here.append ih

theorem escapeQuotes_eq (quotedBody : QuotedBody body text) : escapeQuotes body = body := by
  induction quotedBody with
  | nil => rfl
  | quoted special later ih => rw [escapeQuotes, ih]
  | literal ordinary later ih => rw [escapeQuotes, ih]
  | plain noQuote noBackslash later ih =>
      rw [escapeQuotes, ih]
      · exact fun same _ => noBackslash same
      · exact fun _ _ same _ => noBackslash same
      · exact noQuote

theorem endsInEscape_eq (quotedBody : QuotedBody body text) : endsInEscape body = false := by
  induction quotedBody with
  | nil => rfl
  | quoted special later ih => exact (endsInEscape_pair_cons _ _).trans ih
  | literal ordinary later ih => exact (endsInEscape_pair_cons _ _).trans ih
  | plain noQuote noBackslash later ih =>
      exact (endsInEscape_append_of_plain noBackslash [] _).trans ih

/-- A value that stands between its quotes is left as it is. -/
theorem repairValue_eq (codec : Codec) (quotedBody : QuotedBody body text) :
    repairValue codec ('"' :: body ++ ['"']) = '"' :: body ++ ['"'] := by
  have closed : withoutClosingQuote (body ++ ['"']) = body := by
    simp [withoutClosingQuote, quotedBody.endsInEscape_eq]
  rw [List.cons_append, repairValue, closed, quotedBody.escapeQuotes_eq, List.cons_append]

end QuotedBody

/-- The quoted form without its quotes. -/
def escaped (text : Text) : Text :=
  text.flatMap fun c => if c == '"' || c == '\\' then ['\\', c] else [c]

theorem inQuotes_eq (text : Text) : text.inQuotes = '"' :: text.escaped ++ ['"'] :=
  rfl

theorem escaped_cons_of_special {c : Char} (special : c = '"' ∨ c = '\\') (text : Text) :
    escaped (c :: text) = '\\' :: c :: escaped text := by
  rcases special with rfl | rfl <;> simp [escaped]

theorem escaped_cons_of_plain {c : Char} (noQuote : c ≠ '"') (noBackslash : c ≠ '\\')
    (text : Text) : escaped (c :: text) = c :: escaped text := by
  simp [escaped, noQuote, noBackslash]

theorem escaped_of_plain {text : Text} (plain : ∀ c ∈ text, c ≠ '"' ∧ c ≠ '\\') :
    text.escaped = text := by
  induction text with
  | nil => rfl
  | cons c text ih =>
      obtain ⟨⟨noQuote, noBackslash⟩, later⟩ := List.forall_mem_cons.mp plain
      rw [escaped_cons_of_plain noQuote noBackslash, ih later]

theorem mem_escaped {text : Text} {c : Char} (member : c ∈ text.escaped) :
    c ∈ text ∨ c = '\\' := by
  obtain ⟨origin, inside, shown⟩ := List.mem_flatMap.mp member
  split at shown
  · rcases List.mem_cons.mp shown with backslash | itself
    · exact .inr backslash
    · exact .inl (List.mem_singleton.mp itself ▸ inside)
  · exact .inl (List.mem_singleton.mp shown ▸ inside)

theorem Unbroken.inQuotes {text : Text} (unbroken : text.Unbroken) : text.inQuotes.Unbroken := by
  have inside : text.escaped.Unbroken := by
    intro c member
    rcases mem_escaped member with here | rfl
    · exact unbroken c here
    · decide
  rw [inQuotes_eq]
  exact Unbroken.append (List.forall_mem_cons.mpr ⟨by decide, inside⟩) (by decide)

theorem quotedBody_escaped (text : Text) : QuotedBody text.escaped text := by
  induction text with
  | nil => exact .nil
  | cons c text ih =>
      by_cases special : c = '"' ∨ c = '\\'
      · rw [escaped_cons_of_special special]
        refine .quoted ?_ ih
        rcases special with rfl | rfl <;> decide
      · obtain ⟨noQuote, noBackslash⟩ := not_or.mp special
        rw [escaped_cons_of_plain noQuote noBackslash]
        exact .plain noQuote noBackslash ih

/-- How a value is written: bare, or between double quotes. -/
inductive Denotes : Text → Text → Prop
  | bare {text : Text} (token : text.isToken = true) : Denotes text text
  | quotes {body text : Text} (quotedBody : QuotedBody body text) :
      Denotes ('"' :: body ++ ['"']) text

theorem denotes_inQuotes (text : Text) : Denotes text.inQuotes text :=
  .quotes (quotedBody_escaped text)

theorem denotes_of_readValue? {text value rest : Text}
    (found : readValue? text = some (value, rest)) :
    ∃ raw, text = raw ++ rest ∧ Denotes raw value ∧ raw.Unbroken := by
  unfold readValue? at found
  split at found
  · next behind =>
    obtain ⟨body, rfl, quotedBody, unbroken⟩ := QuotedBody.of_readQuoted? found
    refine ⟨'"' :: body ++ ['"'], by simp, .quotes quotedBody, ?_⟩
    exact List.forall_mem_cons.mpr
      ⟨by decide, List.forall_mem_append.mpr ⟨unbroken, by simp⟩⟩
  · split at found
    · simp at found
    · next front nonempty =>
      have cut : text.token = (value, rest) := Option.some.inj found
      have token : value.isToken = true := by
        refine isToken_iff.mpr ⟨?_, fun c member => ?_⟩
        · rintro rfl
          exact nonempty rest cut
        · have front : c ∈ text.token.1 := by rwa [cut]
          exact isTokenChar_of_token front
      have whole := text.token_append
      rw [cut] at whole
      exact ⟨value, whole.symm, .bare token, unbroken_of_tokens (isToken_iff.mp token).2⟩

namespace Denotes

variable {raw value : Text}

theorem firm (denotes : Denotes raw value) : raw.Firm := by
  cases denotes with
  | bare token => exact .of_token token
  | quotes quotedBody =>
      refine ⟨by simp, fun c shown => .inr ?_, fun c shown => .inr ?_⟩
      · simpa using shown.symm
      · rw [List.getLast?_concat] at shown
        exact (Option.some.inj shown).symm

theorem passes (denotes : Denotes raw value) {separator : Char}
    (noToken : isTokenChar separator = false) (noQuote : separator ≠ '"') :
    Quoting.Passes separator .outside raw .outside := by
  cases denotes with
  | bare token =>
      have tokens := (isToken_iff.mp token).2
      exact Quoting.passes_plain (not_mem_of_tokens tokens noToken)
        (not_mem_of_tokens tokens (by decide))
  | quotes quotedBody => exact Quoting.passes_quotes noQuote (quotedBody.passes separator)

/-- What the grammar takes needs no repair. -/
theorem repairValue_eq (codec : Codec) (denotes : Denotes raw value) :
    repairValue codec raw = raw := by
  cases denotes with
  | bare token =>
      have tokens := (isToken_iff.mp token).2
      unfold repairValue
      split
      · exact absurd (List.mem_cons_self) (not_mem_of_tokens tokens (by decide))
      · rw [if_pos token]
  | quotes quotedBody => exact quotedBody.repairValue_eq codec

theorem readValue?_append (denotes : Denotes raw value) (unbroken : raw.Unbroken) {rest : Text}
    (stops : ∀ c, rest.head? = some c → isTokenChar c = false) :
    readValue? (raw ++ rest) = some (value, rest) := by
  cases denotes with
  | bare token =>
      obtain ⟨nonempty, tokens⟩ := isToken_iff.mp token
      have found := token_append_of_stop tokens stops
      obtain ⟨c, later, rfl⟩ := List.exists_cons_of_ne_nil nonempty
      have noQuote : c ≠ '"' := by
        intro same
        subst same
        exact not_mem_of_tokens tokens (by decide) List.mem_cons_self
      rw [List.cons_append] at found ⊢
      rw [readValue?, found]
      exact fun _ same => noQuote (List.cons.inj same).1
  | @quotes body text quotedBody =>
      have inside : body.Unbroken := fun c member => unbroken c (by simp [member])
      rw [List.cons_append, List.cons_append, readValue?, List.append_assoc,
        List.singleton_append, quotedBody.readQuoted?_append inside]

end Denotes

end LenientMime.Text
