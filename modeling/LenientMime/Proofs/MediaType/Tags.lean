import LenientMime.Proofs.MediaType.Cutting
import LenientMime.Proofs.MediaType.RoundTrip
import Mathlib.Data.List.Induction

namespace LenientMime

/-! Tags behind a media type.

Some senders close a header value with tags, as if it stood in a page.  A text whose
quotes are all closed loses the tags behind it one by one, the last one first, and
nothing else.  Blanks at the end of a header value never matter.
-/

namespace Quoting

variable {quoting : Quoting} {text gap : Text}

/-- Where a scan leaves a text, given where it enters it. -/
def after (quoting : Quoting) (text : Text) : Quoting :=
  text.foldl next quoting

theorem after_cons (quoting : Quoting) (c : Char) (rest : Text) :
    quoting.after (c :: rest) = (quoting.next c).after rest :=
  rfl

theorem after_append (quoting : Quoting) (front back : Text) :
    quoting.after (front ++ back) = (quoting.after front).after back :=
  List.foldl_append

theorem mark_append (quoting : Quoting) (front back : Text) :
    mark quoting (front ++ back) = mark quoting front ++ mark (quoting.after front) back := by
  induction front generalizing quoting with
  | nil => rfl
  | cons c rest ih => rw [List.cons_append, mark, mark, ih, List.cons_append, after_cons]

theorem not_mem_mark {c : Char} {shown : Bool} (absent : c ∉ text) :
    (c, shown) ∉ mark quoting text := by
  intro member
  have inside : c ∈ (mark quoting text).map Prod.fst := List.mem_map.mpr ⟨_, member, rfl⟩
  rw [map_fst_mark] at inside
  exact absent inside

/-- Blanks at the end stay with the last piece. -/
theorem split_append_blank (blank : gap.Blank) (quoting : Quoting) (text : Text) :
    ∃ front last, split ';' quoting text = front ++ [last] ∧
      split ';' quoting (text ++ gap) = front ++ [last ++ gap] := by
  induction text generalizing quoting with
  | nil => exact ⟨[], [], rfl, split_of_absent (blank.not_mem (by decide)) quoting⟩
  | cons c rest ih =>
      rw [List.cons_append, split, split]
      by_cases ends : quoting = .outside ∧ c = ';'
      · obtain ⟨front, last, cut, cutLater⟩ := ih .outside
        rw [if_pos ends, if_pos ends, cut, cutLater]
        exact ⟨[] :: front, last, rfl, rfl⟩
      · obtain ⟨front, last, cut, cutLater⟩ := ih (quoting.next c)
        rw [if_neg ends, if_neg ends, cut, cutLater]
        cases front with
        | nil => exact ⟨[], c :: last, rfl, rfl⟩
        | cons first middle => exact ⟨(c :: first) :: middle, last, rfl, rfl⟩

end Quoting

namespace Text

variable {text front back body gap raw value : Text}

/-- Every quote in the text is closed. -/
def Closed (text : Text) : Prop :=
  Quoting.after .outside text = .outside

instance (text : Text) : Decidable text.Closed :=
  inferInstanceAs (Decidable (Quoting.after .outside text = .outside))

theorem Closed.append (first : front.Closed) (second : back.Closed) : Closed (front ++ back) := by
  rw [Closed, Quoting.after_append, first]
  exact second

theorem Closed.of_plain (noQuote : '"' ∉ text) : text.Closed := by
  induction text with
  | nil => rfl
  | cons c rest ih =>
      obtain ⟨distinct, later⟩ := List.ne_and_not_mem_of_not_mem_cons noQuote
      have stays : Quoting.next .outside c = .outside := by simp [Quoting.next, distinct.symm]
      rw [Closed, Quoting.after_cons, stays]
      exact ih later

theorem Closed.flatMap {α : Type} {pieces : List α} {write : α → Text}
    (each : ∀ piece ∈ pieces, (write piece).Closed) : Closed (pieces.flatMap write) := by
  induction pieces with
  | nil => rfl
  | cons first later ih =>
      obtain ⟨here, behind⟩ := List.forall_mem_cons.mp each
      exact here.append (ih behind)

theorem QuotedBody.after_inside (quotedBody : QuotedBody body text) :
    Quoting.after .inside body = .inside := by
  induction quotedBody with
  | nil => rfl
  | quoted special later ih => exact ih
  | literal ordinary later ih => exact ih
  | @plain c body text noQuote noBackslash later ih =>
      have stays : Quoting.next .inside c = .inside := by simp [Quoting.next, noQuote, noBackslash]
      rw [Quoting.after_cons, stays]
      exact ih

theorem Denotes.closed (denotes : Denotes raw value) : raw.Closed := by
  cases denotes with
  | bare token => exact .of_plain (not_mem_of_tokens (isToken_iff.mp token).2 (by decide))
  | @quotes body text quotedBody =>
      rw [Closed, List.cons_append, Quoting.after_cons, Quoting.after_append]
      change Quoting.after (Quoting.after .inside body) ['"'] = .outside
      rw [quotedBody.after_inside]
      rfl

/-- A tag starts at the last opening bracket, and that stands where the quotes are closed. -/
theorem withoutLastTag?_append (closed : text.Closed) (noOpening : '<' ∉ body)
    (noQuote : '"' ∉ body) :
    withoutLastTag? (text ++ '<' :: (body ++ ['>'])) = some text := by
  have inside : Quoting.after .outside body = .outside := Closed.of_plain noQuote
  have marked : (Quoting.mark .outside (text ++ '<' :: (body ++ ['>']))).reverse =
      ('>', true) :: ((Quoting.mark .outside body).reverse ++
        ('<', true) :: (Quoting.mark .outside text).reverse) := by
    have opens : Quoting.next .outside '<' = .outside := by decide
    have bracket : Quoting.mark .outside ['>'] = [('>', true)] := by decide
    rw [Quoting.mark_append, closed, Quoting.mark, opens, Quoting.mark_append, inside, bracket]
    simp
  have passed : ∀ c ∈ (Quoting.mark .outside body).reverse, (c != ('<', true)) = true := by
    intro c member
    simpa using fun same : c = ('<', true) =>
      Quoting.not_mem_mark noOpening (same ▸ List.mem_reverse.mp member)
  simp only [withoutLastTag?, marked]
  rw [List.dropWhile_append_of_pos passed, List.dropWhile_cons_of_neg (by simp)]
  simp only [List.reverse_reverse, Quoting.map_fst_mark]

end Text

/-- A tag and the blanks behind it. -/
structure Tag where
  body : Text
  behind : Text
  noOpening : '<' ∉ body
  noQuote : '"' ∉ body
  blank : behind.Blank

namespace Tag

def spelling (tags : List Tag) : Text :=
  tags.flatMap fun tag => '<' :: (tag.body ++ '>' :: tag.behind)

theorem closed_spelling (tags : List Tag) : Text.Closed (spelling tags) := by
  refine Text.Closed.of_plain fun member => ?_
  obtain ⟨tag, -, inside⟩ := List.mem_flatMap.mp member
  have noQuote := tag.noQuote
  have noQuoteBehind : '"' ∉ tag.behind := tag.blank.not_mem (by decide)
  simp [noQuote, noQuoteBehind] at inside

theorem spelling_concat (tags : List Tag) (tag : Tag) :
    spelling (tags ++ [tag]) = spelling tags ++ '<' :: (tag.body ++ '>' :: tag.behind) := by
  simp [spelling]

end Tag

/-- Behind closed quotes any number of tags is removed, from the last one on. -/
theorem Text.Closed.withoutTags_append {text : Text} (closed : text.Closed) (tags : List Tag) :
    Text.withoutTags (text ++ Tag.spelling tags) = text.withoutTags := by
  induction tags using List.reverseRecOn with
  | nil => rw [Tag.spelling, List.flatMap_nil, List.append_nil]
  | append_singleton tags tag ih =>
      have trimmed : Text.trimEnd (text ++ Tag.spelling (tags ++ [tag])) =
          (text ++ Tag.spelling tags) ++ '<' :: (tag.body ++ ['>']) := by
        have whole : text ++ Tag.spelling (tags ++ [tag]) =
            (text ++ Tag.spelling tags) ++ '<' :: (tag.body ++ ['>']) ++ tag.behind := by
          simp [Tag.spelling_concat]
        rw [whole, tag.blank.trimEnd_append]
        refine Text.trimEnd_of_last fun c shown => ?_
        rw [← List.cons_append, ← List.append_assoc, List.getLast?_concat] at shown
        obtain rfl := Option.some.inj shown
        decide
      have removed := Text.withoutLastTag?_append (closed.append (Tag.closed_spelling tags))
        tag.noOpening tag.noQuote
      rw [Text.withoutTags, trimmed, removed]
      exact ih

/-- A text without tags has none when blanks are put behind it. -/
theorem Text.Blank.withoutTags_append {text gap : Text} (blank : gap.Blank)
    (untagged : text.withoutTags = text) : Text.withoutTags (text ++ gap) = text ++ gap := by
  have noTag : text.trimEnd.withoutLastTag? = none := by
    cases removed : text.trimEnd.withoutLastTag? with
    | none => rfl
    | some kept =>
        rw [Text.withoutTags, removed] at untagged
        have shorter := Text.length_of_withoutLastTag removed
        have shrinks := kept.prefix_withoutTags.length_le
        have trimmed := text.length_trimEnd_le
        simp only at untagged
        rw [untagged] at shrinks
        omega
  rw [Text.withoutTags, blank.trimEnd_append, noTag]

section Blank

variable (codec : Codec) {gap : Text} (blank : gap.Blank)

include blank

theorem RawParam.ofSegment?_append_blank (segment : Text) :
    ofSegment? codec (segment ++ gap) = ofSegment? codec segment := by
  rw [ofSegment?, ofSegment?, blank.trim_append]

theorem RawParam.ofSegments_append_blank (front : List Text) (last : Text) :
    ofSegments codec (front ++ [last ++ gap]) = ofSegments codec (front ++ [last]) := by
  simp only [ofSegments, List.filterMap_append, List.filterMap_cons, List.filterMap_nil,
    ofSegment?_append_blank codec blank]

/-- Every piece is trimmed, so that the blanks at the end go. -/
theorem RawMediaType.ofText_append_blank (text : Text) :
    ofText codec (text ++ gap) = ofText codec text := by
  obtain ⟨front, last, cut, cutLater⟩ := Quoting.split_append_blank blank .outside text
  rw [ofText, ofText, cut, cutLater]
  cases front with
  | nil =>
      have alone := RawParam.ofSegments_append_blank codec blank [] last
      simp only [List.nil_append] at alone ⊢
      rw [blank.trim_append, alone]
  | cons first middle =>
      have behind := RawParam.ofSegments_append_blank codec blank middle last
      have whole := RawParam.ofSegments_append_blank codec blank (first :: middle) last
      simp only [List.cons_append] at whole ⊢
      rw [behind, whole]

end Blank

namespace MediaType

variable {codec : Codec} {media : MediaType} {text gap : Text}

theorem readWith_append_blank (blank : gap.Blank) (options : ReadOptions) (text : Text) :
    readWith options (text ++ gap) codec = readWith options text codec := by
  have same : RawMediaType.ofText codec (text ++ gap).withoutTags =
      RawMediaType.ofText codec text.withoutTags := by
    rw [Text.withoutTags, Text.withoutTags, blank.trimEnd_append]
    split
    · rfl
    · exact RawMediaType.ofText_append_blank codec blank text
  rw [readWith, readWith, same]

theorem readWith_append_tags (closed : text.Closed) (options : ReadOptions) (tags : List Tag) :
    readWith options (text ++ Tag.spelling tags) codec = readWith options text codec := by
  rw [readWith, readWith, closed.withoutTags_append]

section Render

variable (lawful : codec.Lawful) (wellFormed : media.WellFormed)

include lawful wellFormed

theorem WellFormed.closed_render : (media.render codec).Closed := by
  have separator : Text.Closed "; ".toList := by decide
  have equals : Text.Closed ['='] := by decide
  have named {name : Text} (isName : name.IsName) : Text.Closed ("; ".toList ++ name) :=
    separator.append (.of_plain (isName.not_mem (by decide)))
  have params : Text.Closed (media.params.flatMap fun param =>
      "; ".toList ++ param.1 ++ '=' :: param.2.headerValue codec) := by
    refine .flatMap fun param member => ?_
    have value : (param.2.headerValue codec).Closed :=
      (Text.denotes_headerValue lawful param.2).closed
    exact (named (wellFormed.names param member).1).append (equals.append value)
  have bareNames : Text.Closed (media.bareNames.flatMap ("; ".toList ++ ·)) :=
    .flatMap fun name member => named (wellFormed.bareNames name member)
  have essence : media.essence.Closed :=
    .of_plain (wellFormed.essence.not_mem (by decide) (by decide))
  exact (essence.append params).append bareNames

theorem WellFormed.withoutTags_render (blank : gap.Blank) :
    (media.render codec ++ gap).withoutTags = media.render codec ++ gap := by
  refine blank.withoutTags_append ?_
  rw [render_eq]
  exact RawMediaType.withoutTags_spelling wellFormed.essence (wellFormed.spelled lawful)

/-- Tags behind a printed media type are removed, and nothing but the tags: what is left is what
was printed, and what is read is what is read without them.  A bracket inside a value, or a
quote that is escaped there, is never taken for the edge of a tag. -/
theorem readWith_tagged (blank : gap.Blank) (tags : List Tag) (options : ReadOptions) :
    Text.withoutTags (media.render codec ++ gap ++ Tag.spelling tags) =
        media.render codec ++ gap ∧
      readWith options (media.render codec ++ gap ++ Tag.spelling tags) codec =
        readWith options (media.render codec) codec ∧
      readWith options (media.render codec) codec = .ok {
        media with bareNames := if options.recordBareNames then media.bareNames else [] } := by
  have noQuote : '"' ∉ gap := blank.not_mem (by decide)
  have closed : Text.Closed (media.render codec ++ gap) :=
    (wellFormed.closed_render lawful).append (.of_plain noQuote)
  refine ⟨?_, ?_, wellFormed.readWith_render lawful options⟩
  · rw [closed.withoutTags_append, wellFormed.withoutTags_render lawful blank]
  · rw [readWith_append_tags closed, readWith_append_blank blank]

end Render

/-- Brackets, a quote and a backslash in the values. -/
def bracketed : MediaType :=
  { essence := "text".toList ++ '/' :: "html".toList
    params := [("a".toList, "<b>".toList), ("c".toList, "\"<\\>".toList)] }

theorem readWith_tagged_bracketed :
    bracketed.WellFormed ∧ Text.Blank [' '] ∧
      read (bracketed.render .standard ++ [' '] ++ Tag.spelling [
        { body := "br".toList, behind := "\t\n".toList
          noOpening := by decide, noQuote := by decide, blank := by decide },
        { body := "/p class=\\".toList, behind := []
          noOpening := by decide, noQuote := by decide, blank := .nil }]) .standard = .ok bracketed := by
  have wellFormed : bracketed.WellFormed :=
    { essence := .pair ⟨by decide, by decide⟩ ⟨by decide, by decide⟩
      names := by
        simp only [bracketed, List.forall_mem_cons]
        exact ⟨⟨⟨by decide, by decide⟩, by decide⟩, ⟨⟨by decide, by decide⟩, by decide⟩, by simp⟩
      ordered := by
        simp only [Params.Ordered, bracketed]
        decide
      bareNames := fun _ member => nomatch member
      distinct := List.Pairwise.nil
      apart := fun _ member => nomatch member }
  refine ⟨wellFormed, .space, ?_⟩
  obtain ⟨-, same, whole⟩ := readWith_tagged Codec.standard_lawful wellFormed .space _ {}
  exact same.trans whole

end MediaType

end LenientMime
