import LenientMime.Proofs.MediaType.WellFormed
import Mathlib.Data.List.Basic

namespace LenientMime

/-! What the repair cuts out of a header value.

Whatever the value is, what is cut out of it are stretches of it.  The names are tokens
in lower case, each of them once.  The raw values are stretches without the blanks at
their ends, with all that stands between.
-/

theorem Quoting.eq_of_split {separator : Char} {quoting : Quoting} {text first : Text}
    {later : List Text} (cut : split separator quoting text = first :: later) :
    text = first ++ later.flatMap (separator :: ·) := by
  induction text generalizing quoting first later with
  | nil =>
      obtain ⟨rfl, rfl⟩ := List.cons.inj cut
      rfl
  | cons c rest ih =>
      rw [split] at cut
      split at cut
      · next ends =>
        obtain ⟨rfl, rfl⟩ := List.cons.inj cut
        obtain ⟨next, others, found⟩ := List.exists_cons_of_ne_nil (split_ne_nil separator .outside rest)
        rw [found, List.flatMap_cons, ends.2, List.nil_append, List.cons_append, ← ih found]
      · split at cut
        · next nothing => exact absurd nothing (split_ne_nil _ _ _)
        · next front others found =>
          obtain ⟨rfl, rfl⟩ := List.cons.inj cut
          rw [List.cons_append, ← ih found]

theorem Quoting.infix_of_mem_split {separator : Char} {quoting : Quoting} {text segment : Text}
    (member : segment ∈ split separator quoting text) : segment <:+: text := by
  obtain ⟨first, later, found⟩ := List.exists_cons_of_ne_nil (split_ne_nil separator quoting text)
  rw [eq_of_split found]
  rw [found] at member
  rcases List.mem_cons.mp member with rfl | behind
  · exact (List.prefix_append _ _).isInfix
  · obtain ⟨front, back, rfl⟩ := List.append_of_mem behind
    refine ⟨first ++ front.flatMap (separator :: ·) ++ [separator],
      back.flatMap (separator :: ·), ?_⟩
    simp

namespace Text

variable {text : Text}

theorem infix_trim (text : Text) : text.trim <:+: text := by
  obtain ⟨front, back, -, -, whole⟩ := text.exists_trim
  exact ⟨front, back, whole.symm⟩

theorem suffix_trimStart (text : Text) : text.trimStart <:+ text := by
  obtain ⟨front, -, whole⟩ := text.exists_trimStart
  exact ⟨front, whole.symm⟩

theorem prefix_of_withoutLastTag? {kept : Text} (removed : text.withoutLastTag? = some kept) :
    kept <+: text := by
  have whole := Quoting.map_fst_mark .outside text
  unfold withoutLastTag? at removed
  split at removed
  · next before reversed =>
    split at removed
    · contradiction
    · next bracket rest found =>
      obtain rfl := Option.some.inj removed
      have marks := congrArg List.reverse reversed
      rw [List.reverse_reverse, List.reverse_cons,
        ← List.takeWhile_append_dropWhile (p := (· != ('<', true))) (l := before), found] at marks
      rw [← whole, marks]
      simp [List.append_assoc]
  · contradiction

theorem prefix_withoutTags (text : Text) : text.withoutTags <+: text := by
  fun_induction withoutTags text with
  | case1 text kept removed ih =>
      obtain ⟨back, -, whole⟩ := text.exists_trimEnd
      exact (ih.trans (prefix_of_withoutLastTag? removed)).trans ⟨back, whole.symm⟩
  | case2 text untagged => exact List.prefix_rfl

theorem suffix_of_cut? {separator : Char} {before after : Text}
    (found : cut? separator text = some (before, after)) : after <:+ text := by
  obtain ⟨rfl, -⟩ := eq_of_cut found
  exact ⟨before ++ [separator], by simp⟩

theorem suffix_of_cutAt? {pattern before after : Text}
    (found : cutAt? pattern text = some (before, after)) : after <:+ text := by
  induction text generalizing before with
  | nil =>
      rw [cutAt?] at found
      split at found
      · obtain ⟨rfl, rfl⟩ := Prod.mk.inj (Option.some.inj found)
        exact List.suffix_rfl
      · contradiction
  | cons c rest ih =>
      rw [cutAt?] at found
      split at found
      · next behind here =>
        obtain ⟨rfl, rfl⟩ := Prod.mk.inj (Option.some.inj found)
        exact ⟨pattern, List.append_eq_of_isPrefixOf?_eq_some here⟩
      · obtain ⟨⟨front, back⟩, later, same⟩ := Option.map_eq_some_iff.mp found
        obtain ⟨rfl, rfl⟩ := Prod.mk.inj same
        exact (ih later).trans (List.suffix_cons c rest)

theorem suffix_of_cutEncodedName? {name after : Text}
    (found : text.cutEncodedName? = some (name, after)) : after <:+ text := by
  unfold cutEncodedName? at found
  split at found
  · contradiction
  · next opened marked =>
    split at found
    · contradiction
    · next label behindLabel labelled =>
      split at found
      · contradiction
      · next encoding behindEncoding encoded =>
        obtain ⟨⟨payload, behind⟩, closed, same⟩ := Option.map_eq_some_iff.mp found
        obtain ⟨-, rfl⟩ := Prod.mk.inj same
        have opens : opened <:+ text := ⟨_, List.append_eq_of_isPrefixOf?_eq_some marked⟩
        exact (suffix_of_cutAt? closed).trans ((suffix_of_cut? encoded).trans
          ((suffix_of_cut? labelled).trans opens))

end Text

namespace RawParam

variable {codec : Codec} {segment : Text} {raw : RawParam} {raws : List RawParam}

theorem lower_name_of_ofSegment? (found : ofSegment? codec segment = some raw) :
    raw.name.lower = raw.name := by
  simp only [ofSegment?] at found
  split at found
  · contradiction
  · split at found
    · rw [← Option.some.inj found, Text.lower_lower]
    · split at found
      · rw [← Option.some.inj found, Text.lower_lower]
      · rw [← Option.some.inj found, Text.lower_lower]

/-- The value is a stretch of the segment, between blanks. -/
theorem value_of_ofSegment? {value : Text} (found : ofSegment? codec segment = some raw)
    (valued : raw.value = some value) :
    ∃ stretch, stretch <:+: segment ∧ value = Text.trim stretch := by
  simp only [ofSegment?] at found
  split at found
  · contradiction
  · split at found
    · next name rest cut =>
      obtain rfl := Option.some.inj found
      simp only [valueOf?] at valued
      split at valued
      · next behind opened =>
        have within : behind <:+ rest :=
          (opened ▸ List.suffix_cons '=' behind).trans rest.suffix_trimStart
        exact ⟨behind, (within.trans (Text.suffix_of_cutEncodedName? cut)).isInfix.trans
          segment.infix_trim, (Option.some.inj valued).symm⟩
      · contradiction
    · split at found
      · next name rest cut =>
        obtain rfl := Option.some.inj found
        exact ⟨rest, (Text.suffix_of_cut? cut).isInfix.trans segment.infix_trim,
          (Option.some.inj valued).symm⟩
      · obtain rfl := Option.some.inj found
        contradiction

theorem mem_of_mem_firstOfName (member : raw ∈ firstOfName raws) : raw ∈ raws := by
  induction raws with
  | nil => exact member
  | cons first later ih =>
      rcases List.mem_cons.mp member with here | behind
      · exact here ▸ List.mem_cons_self
      · exact List.mem_cons_of_mem _ (ih (List.mem_filter.mp behind).1)

theorem distinct_firstOfName (raws : List RawParam) :
    (firstOfName raws).Pairwise fun earlier later => earlier.name ≠ later.name := by
  induction raws with
  | nil => exact List.Pairwise.nil
  | cons first later ih =>
      refine List.pairwise_cons.mpr ⟨fun other member => ?_, ih.filter _⟩
      have distinct := (List.mem_filter.mp member).2
      exact fun same => by simp [same] at distinct

/-- A parameter as it may be cut out of a text. -/
structure CutFrom (text : Text) (raw : RawParam) : Prop where
  name : raw.name.IsName
  value : ∀ value, raw.value = some value → ∃ stretch, stretch <:+: text ∧ value = Text.trim stretch

theorem exists_segment_of_mem_ofSegments {segments : List Text} (member : raw ∈ ofSegments codec segments) :
    raw.name.isToken = true ∧ ∃ segment ∈ segments, ofSegment? codec segment = some raw := by
  obtain ⟨among, token⟩ := List.mem_filter.mp (mem_of_mem_firstOfName member)
  exact ⟨token, List.mem_filterMap.mp among⟩

theorem cutFrom_of_mem_ofSegments {text : Text} {segments : List Text}
    (stretches : ∀ segment ∈ segments, segment <:+: text) (member : raw ∈ ofSegments codec segments) :
    raw.CutFrom text := by
  obtain ⟨token, segment, inside, found⟩ := exists_segment_of_mem_ofSegments member
  refine ⟨⟨token, lower_name_of_ofSegment? found⟩, fun value valued => ?_⟩
  obtain ⟨stretch, within, trimmed⟩ := value_of_ofSegment? found valued
  exact ⟨stretch, within.trans (stretches segment inside), trimmed⟩

end RawParam

namespace RawMediaType

variable {codec : Codec} {text : Text}

theorem exists_ofSegments (codec : Codec) (text : Text) :
    ∃ segments, (ofText codec text).params = RawParam.ofSegments codec segments ∧
      ∀ segment ∈ segments, segment <:+: text := by
  have stretches (segment : Text) (member : segment ∈ Quoting.split ';' .outside text) :
      segment <:+: text := Quoting.infix_of_mem_split member
  simp only [ofText]
  split
  · exact ⟨[], rfl, fun _ member => nomatch member⟩
  · next first segments cut =>
    rw [cut] at stretches
    have later : ∀ segment ∈ segments, segment <:+: text := fun segment member =>
      stretches segment (List.mem_cons_of_mem _ member)
    split
    · exact ⟨segments, rfl, later⟩
    · split
      · exact ⟨first :: segments, rfl, stretches⟩
      · exact ⟨segments, rfl, later⟩

theorem cutFrom_of_mem {raw : RawParam} (member : raw ∈ (ofText codec text).params) :
    raw.CutFrom text := by
  obtain ⟨segments, same, stretches⟩ := exists_ofSegments codec text
  exact RawParam.cutFrom_of_mem_ofSegments stretches (same ▸ member)

/-- A parameter is what a stretch of the text holds. -/
theorem exists_segment_of_mem {raw : RawParam} (member : raw ∈ (ofText codec text).params) :
    ∃ segment, segment <:+: text ∧ RawParam.ofSegment? codec segment = some raw := by
  obtain ⟨segments, same, stretches⟩ := exists_ofSegments codec text
  obtain ⟨-, segment, inside, found⟩ := RawParam.exists_segment_of_mem_ofSegments (same ▸ member)
  exact ⟨segment, stretches segment inside, found⟩

theorem distinct_params (codec : Codec) (text : Text) :
    (ofText codec text).params.Pairwise fun earlier later => earlier.name ≠ later.name := by
  obtain ⟨segments, same, -⟩ := exists_ofSegments codec text
  rw [same]
  exact RawParam.distinct_firstOfName _

end RawMediaType

end LenientMime
