import LenientMime.Proofs.MediaType.LineBreaks
import LenientMime.Proofs.MediaType.Tags
import Mathlib

namespace LenientMime

/-! Where quotes close.

Two readers look for the quote that closes a quoted value.  For the one that cuts a header into
segments a backslash hides any character, for the other, which takes the value out of its
quotes, a special character only.  They stop at the same quote all the same: what the one skips
and the other reads on its own is neither a quote nor a backslash.

So a value that was mended is read to its end.  Mending leaves a closing quote at the end and no
other one before it, and what is in that form is not changed by mending it again.
-/

namespace Quoting

variable {quoting : Quoting} {c : Char} {text body rest : Text} {place : Nat}

/-- The scan is outside nowhere in the text, from where it enters it to where it leaves it. -/
def Holds (quoting : Quoting) (text : Text) : Prop :=
  ∀ front, front <+: text → quoting.after front ≠ .outside

theorem holds_nil : Holds quoting [] ↔ quoting ≠ .outside := by
  constructor
  · exact fun holds => holds [] List.prefix_rfl
  · intro entered front within
    rwa [List.prefix_nil.mp within]

theorem holds_cons :
    Holds quoting (c :: rest) ↔ quoting ≠ .outside ∧ Holds (quoting.next c) rest := by
  constructor
  · intro holds
    refine ⟨holds [] List.nil_prefix, fun front within => ?_⟩
    exact holds (c :: front) (List.cons_prefix_cons.mpr ⟨rfl, within⟩)
  · rintro ⟨entered, later⟩ front within
    rcases List.prefix_cons_iff.mp within with rfl | ⟨behind, rfl, inner⟩
    · exact entered
    · exact later behind inner

theorem next_inside_of_plain (noQuote : c ≠ '"') (noBackslash : c ≠ '\\') :
    Quoting.next .inside c = .inside := by
  simp [next, noQuote, noBackslash]

/-- A quote in front of the text opens quotes.  At the place they are closed, and nowhere
before it. -/
structure ClosesAt (text : Text) (place : Nat) : Prop where
  before : ∀ earlier ≤ place, after .outside ('"' :: text.take earlier) ≠ .outside
  here : after .outside ('"' :: text.take (place + 1)) = .outside

theorem after_opened (text : Text) : after .outside ('"' :: text) = after .inside text :=
  rfl

/-- Quotes are closed by a quote that nothing hides. -/
theorem eq_of_next_outside (inner : quoting ≠ .outside) (closes : quoting.next c = .outside) :
    quoting = .inside ∧ c = '"' := by
  cases quoting with
  | outside => contradiction
  | hidden => contradiction
  | inside =>
      refine ⟨rfl, ?_⟩
      simp only [next] at closes
      split at closes
      · contradiction
      · split at closes
        · next quote => exact beq_iff_eq.mp quote
        · contradiction

theorem ClosesAt.exists_body (closes : ClosesAt text place) :
    ∃ body rest, text = body ++ '"' :: rest ∧ body.length = place ∧ Holds .inside body ∧
      after .inside body = .inside := by
  obtain ⟨before, here⟩ := closes
  have inner := before place (Nat.le_refl _)
  have within : place < text.length := by
    refine Nat.lt_of_not_le fun past => inner ?_
    rwa [List.take_of_length_le (Nat.le_succ_of_le past), ← List.take_of_length_le past] at here
  rw [after_opened] at inner here
  rw [List.take_succ_eq_append_getElem within, after_append] at here
  obtain ⟨ends, quote⟩ := eq_of_next_outside inner here
  refine ⟨text.take place, text.drop (place + 1), ?_, List.length_take_of_le within.le,
    fun front inFront => ?_, ends⟩
  · rw [← quote, ← List.drop_eq_getElem_cons within, List.take_append_drop]
  · have short := inFront.length_le.trans (List.length_take_le place text)
    have cut := List.prefix_iff_eq_take.mp (inFront.trans (List.take_prefix place text))
    rw [cut, ← after_opened]
    exact before front.length short

theorem closesAt_of_body (holds : Holds .inside body) (ends : after .inside body = .inside)
    (rest : Text) : ClosesAt (body ++ '"' :: rest) body.length where
  before earlier within := by
    rw [after_opened, List.take_append_of_le_length within]
    exact holds _ (List.take_prefix earlier body)
  here := by
    have cut : (body ++ '"' :: rest).take (body.length + 1) = body ++ ['"'] := by
      rw [List.append_cons, List.take_left' (by simp)]
    rw [after_opened, cut, after_append, ends]
    rfl

end Quoting

namespace Text

variable {body text value : Text} {place : Nat}

theorem QuotedBody.holds (quotedBody : QuotedBody body text) : Quoting.Holds .inside body := by
  induction quotedBody with
  | nil => exact Quoting.holds_nil.mpr (by decide)
  | quoted special later ih =>
      exact Quoting.holds_cons.mpr ⟨by decide, Quoting.holds_cons.mpr ⟨by decide, ih⟩⟩
  | literal ordinary later ih =>
      exact Quoting.holds_cons.mpr ⟨by decide, Quoting.holds_cons.mpr ⟨by decide, ih⟩⟩
  | plain noQuote noBackslash later ih =>
      rw [Quoting.holds_cons, Quoting.next_inside_of_plain noQuote noBackslash]
      exact ⟨by decide, ih⟩

/-- What a scan finds inside quotes can be read from them. -/
theorem exists_quotedBody (holds : Quoting.Holds .inside body)
    (ends : Quoting.after .inside body = .inside) : ∃ value, QuotedBody body value := by
  fun_induction escapeQuotes body with
  | case1 => exact ⟨[], .nil⟩
  | case2 => exact absurd ends (by decide)
  | case3 c rest ih =>
      have hidden := (Quoting.holds_cons.mp holds).2
      obtain ⟨value, quotedBody⟩ := ih (Quoting.holds_cons.mp hidden).2 ends
      cases special : isSpecial c with
      | true => exact ⟨_, .quoted special quotedBody⟩
      | false => exact ⟨_, .literal special quotedBody⟩
  | case4 rest => exact absurd rfl (holds ['"'] ⟨rest, rfl⟩)
  | case5 c rest notLast noPair noQuote ih =>
      have noBackslash := ne_backslash_of_single notLast noPair
      have stays := Quoting.next_inside_of_plain noQuote noBackslash
      rw [Quoting.holds_cons, stays] at holds
      rw [Quoting.after_cons, stays] at ends
      obtain ⟨value, quotedBody⟩ := ih holds.2 ends
      exact ⟨_, .plain noQuote noBackslash quotedBody⟩

/-- Behind an opening quote the value is read up to the quote at the place. -/
def StopsAt (text : Text) (place : Nat) : Prop :=
  ∃ value, text[place]? = some '"' ∧ readQuoted? text = some (value, text.drop (place + 1))

theorem StopsAt.exists_body (stops : text.StopsAt place) :
    ∃ body rest, text = body ++ '"' :: rest ∧ body.length = place ∧
      ∃ value, QuotedBody body value := by
  obtain ⟨value, quote, read⟩ := stops
  obtain ⟨within, -⟩ := List.getElem?_eq_some_iff.mp quote
  obtain ⟨body, whole, quotedBody, -⟩ := QuotedBody.of_readQuoted? read
  refine ⟨body, text.drop (place + 1), whole, ?_, value, quotedBody⟩
  have size := congrArg List.length whole
  simp only [List.length_append, List.length_cons, List.length_drop] at size
  omega

theorem QuotedBody.stopsAt (quotedBody : QuotedBody body value) (unbroken : body.Unbroken)
    (rest : Text) : StopsAt (body ++ '"' :: rest) body.length := by
  have behind : (body ++ '"' :: rest).drop (body.length + 1) = rest := by
    rw [List.append_cons, List.drop_left' (by simp)]
  refine ⟨value, by simp, ?_⟩
  rw [behind, quotedBody.readQuoted?_append unbroken]

/-- The two readers stop at the same quote, or neither of them finds one. -/
theorem closesAt_iff_stopsAt (unbroken : text.Unbroken) (place : Nat) :
    Quoting.ClosesAt text place ↔ text.StopsAt place := by
  constructor
  · intro closes
    obtain ⟨body, rest, rfl, rfl, holds, ends⟩ := closes.exists_body
    obtain ⟨value, quotedBody⟩ := exists_quotedBody holds ends
    exact quotedBody.stopsAt (fun c member => unbroken c (List.mem_append_left _ member)) rest
  · intro stops
    obtain ⟨body, rest, rfl, rfl, value, quotedBody⟩ := stops.exists_body
    exact Quoting.closesAt_of_body quotedBody.holds quotedBody.after_inside rest

/-- An escaped quote, a backslash that escapes nothing, one that is escaped itself, and behind it
the quote that closes. -/
def path : Text :=
  "C:\\\"d\\e\\\\\" f\"".toList

/-- The path up to its closing quote. -/
def openPath : Text :=
  "C:\\\"d\\e\\\\".toList

theorem closesAt_iff_stopsAt_path :
    path.Unbroken ∧ path.StopsAt 9 ∧ Quoting.ClosesAt path 9 ∧
      openPath.Unbroken ∧ ¬ Quoting.ClosesAt openPath 3 ∧ ¬ openPath.StopsAt 3 := by
  have whole : path.Unbroken := by decide
  have front : openPath.Unbroken := by decide
  have stops : path.StopsAt 9 := ⟨"C:\"d\\e\\".toList, by decide, by decide⟩
  have hidden : ¬ Quoting.ClosesAt openPath 3 := fun closes => absurd closes.here (by decide)
  exact ⟨whole, stops, (closesAt_iff_stopsAt whole 9).mpr stops, front, hidden,
    fun stopsEarly => hidden ((closesAt_iff_stopsAt front 3).mpr stopsEarly)⟩

section Mended

variable {codec : Codec} (lawful : codec.Lawful) (raw : Text)

include lawful

theorem exists_denotes_repairValue : ∃ said, Denotes (raw.repairValue codec) said := by
  by_cases opens : raw.head? = some '"'
  · obtain ⟨rest, rfl⟩ := List.head?_eq_some_iff.mp opens
    obtain ⟨said, quotedBody⟩ := exists_quotedBody_escapeQuotes (withoutClosingQuote rest)
    exact ⟨said, .quotes quotedBody⟩
  · cases ascii : raw.isAscii with
    | true => exact ⟨raw, (denotes_of_ascii codec opens ascii).1⟩
    | false => exact ⟨raw.asWord codec, (denotes_of_beyond lawful opens ascii).1⟩

/-- A value that was mended is read to its end, and mending it again changes nothing. -/
theorem readValue?_repairValue :
    (raw.Unbroken → ∃ value, readValue? (raw.repairValue codec) = some (value, [])) ∧
      (raw.repairValue codec).repairValue codec = raw.repairValue codec := by
  obtain ⟨said, denotes⟩ := exists_denotes_repairValue lawful raw
  refine ⟨fun unbroken => ⟨said, ?_⟩, denotes.repairValue_eq codec⟩
  have nothing : ∀ c, List.head? ([] : Text) = some c → isTokenChar c = false := nofun
  have read := denotes.readValue?_append (unbroken.repairValue lawful) nothing
  rwa [List.append_nil] at read

end Mended

/-- Quotes behind runs of backslashes of every kind, the last one escaped. -/
def runs : Text :=
  "\"x\\\\\\\"y\"z\\\"".toList

theorem readValue?_repairValue_runs :
    runs.repairValue .standard = "\"x\\\\\\\"y\\\"z\\\"\"".toList ∧ runs.Unbroken ∧
      (∃ value, readValue? (runs.repairValue .standard) = some (value, [])) ∧
      (runs.repairValue .standard).repairValue .standard = runs.repairValue .standard := by
  have unbroken : runs.Unbroken := by decide
  obtain ⟨read, same⟩ := readValue?_repairValue Codec.standard_lawful runs
  exact ⟨by decide, unbroken, read unbroken, same⟩

end Text

end LenientMime
