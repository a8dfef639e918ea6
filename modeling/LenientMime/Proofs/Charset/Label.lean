import LenientMime.Charset.Convert
import LenientMime.Proofs.Text.Token

namespace LenientMime

/-- The charset that a label names: what the codec knows it by, or else what the codec knows an
alias by. -/
inductive Codec.Names (codec : Codec) : Text → Charset → Prop
  | label {label : Text} {charset : Charset} : label ≠ [] →
      codec.charset? label = some charset → codec.Names label charset
  | aliased {label target : Text} {charset : Charset} : codec.charset? label = none →
      (label.lower, target) ∈ Charset.aliases → codec.charset? target = some charset →
      codec.Names label charset

namespace Charset

variable {codec : Codec} {label : Text} {charset : Charset}

theorem lookup_aliases {target : Text} :
    aliases.lookup label = some target ↔ (label, target) ∈ aliases := by
  constructor
  · intro found
    obtain ⟨front, back, shown, -⟩ := List.lookup_eq_some_iff.mp found
    rw [shown]
    exact List.mem_append_right front List.mem_cons_self
  · intro member
    have each : ∀ entry ∈ aliases, aliases.lookup entry.1 = some entry.2 := by decide
    exact each _ member

theorem nonempty_of_alias {target : Text} (member : (label.lower, target) ∈ aliases) :
    label ≠ [] := by
  rintro rfl
  have each : ∀ entry ∈ aliases, entry.1 ≠ [] := by decide
  exact each _ member rfl

/-- A label that stands bare is looked up as it is. -/
theorem ofLabel?_eq_some_iff (bare : (unquoteLabel label.trim).trim = label) :
    ofLabel? label codec = some charset ↔ codec.Names label charset := by
  simp only [ofLabel?, bare]
  constructor
  · intro found
    split at found
    · contradiction
    · next nonempty =>
      cases known : codec.charset? label with
      | some other =>
          rw [known, Option.some_or] at found
          exact .label (by simpa using nonempty) (known.trans found)
      | none =>
          rw [known, Option.none_or] at found
          obtain ⟨target, isAlias, knownToo⟩ := Option.bind_eq_some_iff.mp found
          exact .aliased known (lookup_aliases.mp isAlias) knownToo
  · intro names
    cases names with
    | label nonempty known => rw [if_neg (by simpa using nonempty), known, Option.some_or]
    | aliased unknown isAlias known =>
        rw [if_neg (by simpa using nonempty_of_alias isAlias), unknown, Option.none_or,
          lookup_aliases.mpr isAlias, Option.bind_some, known]

theorem bare_of_tokens (tokens : ∀ c ∈ label, isTokenChar c = true) :
    (unquoteLabel label.trim).trim = label := by
  have visible : ∀ c ∈ label, isBlank c = false := by
    intro c member
    obtain ⟨lower, upper, -⟩ := isTokenChar_bounds (tokens c member)
    exact isBlank_of_visible lower upper
  have solid : label.Solid :=
    ⟨fun c shown => visible c (List.mem_of_head? shown),
      fun c shown => visible c (List.mem_of_getLast? shown)⟩
  have unquoted : ∀ text : Text, (∀ c ∈ text, isTokenChar c = true) →
      text.dropWhile (· == '"') = text := by
    intro text inside
    cases text with
    | nil => rfl
    | cons c rest =>
        refine List.dropWhile_cons_of_neg ?_
        simpa using fun same : c = '"' => absurd (same ▸ inside c List.mem_cons_self) (by decide)
  rw [Text.trim_of_solid solid, unquoteLabel, unquoted label tokens,
    unquoted label.reverse (by simpa using tokens), List.reverse_reverse, Text.trim_of_solid solid]

end Charset

end LenientMime
