import LenientMime.Proofs.MediaType.Acceptance
import LenientMime.Proofs.MediaType.Agreement
import LenientMime.Proofs.MediaType.Cutting
import LenientMime.Proofs.MediaType.RoundTrip
import Mathlib

namespace LenientMime

/-! Whatever is read is well formed.

Names reach a media type on several ways: as they stand, out of encoded words, and as the
base names of extended parameters.  On each of them they end as lower-case tokens.  The
values may be any text, and the printer carries every text in printable ASCII.
-/

theorem MediaType.IsType.isEssence_lower {essence : Text} (isType : IsType essence) :
    IsEssence essence.lower := by
  have isName {name : Text} (token : name.isToken = true) : name.lower.IsName :=
    ⟨(Text.isToken_lower name).trans token, Text.lower_lower name⟩
  cases isType with
  | single token => exact .single (isName token)
  | @pair main sub token tokenSub =>
      have slash : Char.toLower '/' = '/' := by decide
      rw [Text.lower, List.map_append, List.map_cons, slash]
      exact .pair (isName token) (isName tokenSub)

namespace MediaType

variable {codec : Codec} {text : Text} {media strict : MediaType} {options : ReadOptions}

/-- The essence and the names are such that a header can spell them. -/
structure Spellable (media : MediaType) : Prop where
  essence : IsEssence media.essence
  names : ∀ param ∈ media.params, param.1.IsName ∧ '*' ∉ param.1
  bareNames : ∀ name ∈ media.bareNames, name.IsName

theorem WellFormed.spellable (wellFormed : media.WellFormed) : media.Spellable :=
  { essence := wellFormed.essence
    names := wellFormed.names
    bareNames := wellFormed.bareNames }

theorem Spellable.shown_render (lawful : codec.Lawful) (spellable : media.Spellable) :
    (media.render codec).Shown := by
  have separator : Text.Shown "; ".toList := by simp [Text.Shown]
  have equals : Text.Shown ['='] := by simp [Text.Shown]
  have params : Text.Shown (media.params.flatMap fun param =>
      "; ".toList ++ param.1 ++ '=' :: param.2.headerValue codec) := by
    intro c member
    obtain ⟨param, inside, shown⟩ := List.mem_flatMap.mp member
    have name : param.1.Shown := .of_tokens (spellable.names param inside).1.tokens
    exact (separator.append name).append (equals.append (Text.shown_headerValue lawful param.2)) c shown
  have bareNames : Text.Shown (media.bareNames.flatMap ("; ".toList ++ ·)) := by
    intro c member
    obtain ⟨name, inside, shown⟩ := List.mem_flatMap.mp member
    exact separator.append (.of_tokens (spellable.bareNames name inside).tokens) c shown
  exact (spellable.essence.shown.append params).append bareNames

/-- What the strict grammar reads is well formed. -/
theorem wellFormed_of_readStrict (read : readStrict text codec = .ok strict) : strict.WellFormed := by
  obtain ⟨written, -, reads⟩ := readStrict_eq_ok_iff.mp read
  obtain ⟨-, rfl⟩ := WrittenMediaType.media?_eq_some_iff.mp reads
  exact {
    essence := written.isType.isEssence_lower
    names := Params.names_assemble written.isName_entries
    ordered := written.ordered_entries.assemble
    bareNames := fun _ member => nomatch member
    distinct := List.Pairwise.nil
    apart := fun _ member => nomatch member }

/-- What is read leniently is nothing, or what the grammar reads of the repaired text with
its values decoded. -/
theorem exists_strict_of_readWith (read : readWith options text codec = .ok media) :
    media = {} ∨ ∃ strict,
      readStrict (repairedText codec (RawMediaType.ofText codec text.withoutTags)) codec =
        .ok strict ∧
      media.essence =
        resultEssence strict.essence (RawMediaType.ofText codec text.withoutTags).slot ∧
      media.params = strict.params.map (fun param => (param.1, param.2.decodeWords codec)) ∧
      media.bareNames =
        (if options.recordBareNames then
          bareNamesOf (RawMediaType.ofText codec text.withoutTags)
        else []).filter fun name => (media.params.get? name).isNone := by
  simp only [readWith] at read
  cases found : readStrict (repairedText codec (RawMediaType.ofText codec text.withoutTags))
      codec with
  | error error =>
      simp only [found] at read
      split at read
      · exact .inl (Except.ok.inj read).symm
      · contradiction
      · contradiction
  | ok strict =>
      simp only [found] at read
      obtain rfl := Except.ok.inj read
      exact .inr ⟨strict, rfl, rfl, rfl, rfl⟩

theorem isEssence_resultEssence {essence : Text} (isEssence : IsEssence essence) (slot : TypeSlot) :
    IsEssence (resultEssence essence slot) := by
  cases slot with
  | given => exact isEssence
  | missing => exact .empty

theorem isName_of_mem_bareNamesOf {name : Text}
    (member : name ∈ bareNamesOf (RawMediaType.ofText codec text)) : name.IsName := by
  obtain ⟨raw, among, rfl⟩ := List.mem_map.mp member
  exact (RawMediaType.cutFrom_of_mem (List.mem_filter.mp among).1).name

theorem nodup_bareNamesOf (codec : Codec) (text : Text) :
    (bareNamesOf (RawMediaType.ofText codec text)).Nodup :=
  List.pairwise_map.mpr ((RawMediaType.distinct_params codec text).filter _)

theorem subset_recorded (options : ReadOptions) (names : List Text) :
    (if options.recordBareNames then names else []).Sublist names := by
  split
  · exact List.Sublist.refl names
  · exact List.nil_sublist names

theorem spellable_of_readWith (read : readWith options text codec = .ok media) :
    media.Spellable := by
  rcases exists_strict_of_readWith read with rfl | ⟨strict, found, essence, params, bareNames⟩
  · exact {
      essence := .empty
      names := fun _ member => nomatch member
      bareNames := fun _ member => nomatch member }
  · have wellFormed := wellFormed_of_readStrict found
    refine ⟨?_, fun param member => ?_, fun name member => ?_⟩
    · rw [essence]
      exact isEssence_resultEssence wellFormed.essence _
    · rw [params] at member
      obtain ⟨origin, inside, rfl⟩ := List.mem_map.mp member
      exact wellFormed.names origin inside
    · rw [bareNames] at member
      exact isName_of_mem_bareNamesOf
        ((subset_recorded options _).subset (List.mem_filter.mp member).1)

/-- Every media type that is read is well formed, with whatever options and from whatever
text. -/
theorem wellFormed_of_readWith (codec : Codec) (options : ReadOptions) (text : Text)
    (media : MediaType) (read : readWith options text codec = .ok media) : media.WellFormed := by
  have spellable := spellable_of_readWith read
  rcases exists_strict_of_readWith read with rfl | ⟨strict, found, -, params, bareNames⟩
  · exact {
      essence := spellable.essence
      names := spellable.names
      ordered := List.Pairwise.nil
      bareNames := spellable.bareNames
      distinct := List.Pairwise.nil
      apart := fun _ member => nomatch member }
  · refine {
      essence := spellable.essence
      names := spellable.names
      ordered := ?_
      bareNames := spellable.bareNames
      distinct := ?_
      apart := fun name member param inside => ?_ }
    · rw [params]
      exact List.pairwise_map.mpr (wellFormed_of_readStrict found).ordered
    · rw [bareNames]
      exact ((nodup_bareNamesOf _ _).sublist (subset_recorded options _)).filter _
    · rw [bareNames] at member
      have absent := (List.mem_filter.mp member).2
      exact Params.ne_of_get?_eq_none (Option.isNone_iff_eq_none.mp absent) inside

/-- A name in an encoded word and in capitals, a name in pieces that stands bare as well, and
names that are no tokens. -/
def disorderly : Text :=
  " TEXT/ ;=?utf-8?q?N=61me?= = x; NAME=y; Title*0=a; title;;Flowed; b@d=1; flowed; é".toList

/-- What the repair cuts out of it. -/
def disorderlyPieces : RawMediaType :=
  { slot := .given "TEXT/plain".toList
    params := [{ name := "name".toList, value := some "x".toList },
      { name := "title*0".toList, value := some "a".toList },
      { name := "title".toList, value := none },
      { name := "flowed".toList, value := none }] }

theorem wellFormed_of_readWith_disorderly :
    readWith {} disorderly .standard = .ok {
        essence := "text/plain".toList
        params := [("name".toList, "x".toList), ("title".toList, "a".toList)]
        bareNames := ["flowed".toList] } ∧
      WellFormed {
        essence := "text/plain".toList
        params := [("name".toList, "x".toList), ("title".toList, "a".toList)]
        bareNames := ["flowed".toList] } := by
  have untagged : disorderly.withoutTags = disorderly := by cbv
  have pieces : RawMediaType.ofText .standard disorderly = disorderlyPieces := by cbv
  have strict : readStrict (repairedText .standard disorderlyPieces) .standard = .ok {
      essence := "text/plain".toList
      params := [("name".toList, "x".toList), ("title".toList, "a".toList)] } := by
    decide +kernel
  have read : readWith {} disorderly .standard = .ok {
      essence := "text/plain".toList
      params := [("name".toList, "x".toList), ("title".toList, "a".toList)]
      bareNames := ["flowed".toList] } := by
    rw [readWith, untagged, pieces]
    simp only [strict]
    cbv
  exact ⟨read, wellFormed_of_readWith .standard {} disorderly _ read⟩

/-- What is read is printed in printable ASCII, and so is every well-formed media type, whatever
its values are.  No line break is ever written, so that no value can end the header. -/
theorem render_printable (lawful : codec.Lawful) :
    (∀ options text media, readWith options text codec = .ok media →
      (media.render codec).Shown) ∧
    ∀ media : MediaType, media.WellFormed → (media.render codec).Shown := by
  constructor
  · intro options text media read
    exact (spellable_of_readWith read).shown_render lawful
  · intro media wellFormed
    exact wellFormed.spellable.shown_render lawful

/-- A value that would end the header if it were written as it is. -/
def smuggled : MediaType :=
  { essence := "text/plain".toList
    params := [("name".toList, "é\r\nBcc: x".toList)] }

theorem render_printable_smuggled :
    (readWith {} "text/plain; name*=\"utf-8''%C3%A9%0D%0ABcc: x\"".toList .standard =
        .ok smuggled ∧ (smuggled.render .standard).Shown) ∧
    smuggled.WellFormed ∧ (smuggled.render .standard).Shown := by
  have strict : readStrict "text/plain; name*=\"utf-8''%C3%A9%0D%0ABcc: x\"".toList .standard =
      .ok smuggled := by
    decide +kernel
  have read : readWith {} "text/plain; name*=\"utf-8''%C3%A9%0D%0ABcc: x\"".toList .standard =
      .ok smuggled := by
    rw [readWith_of_readStrict {} strict]
    cbv
  have wellFormed := wellFormed_of_readStrict strict
  have printable := render_printable Codec.standard_lawful
  exact ⟨⟨read, printable.1 _ _ _ read⟩, wellFormed, printable.2 _ wellFormed⟩

end MediaType

end LenientMime
