import LenientMime.MediaType.Repair
import LenientMime.MediaType.Strict
import LenientMime.Proofs.MediaType.Unquoted

namespace LenientMime.MediaType

inductive IsType : Text → Prop
  | single {name : Text} : name.isToken = true → IsType name
  | pair {main sub : Text} : main.isToken = true → sub.isToken = true →
      IsType (main ++ '/' :: sub)

namespace IsType

variable {text : Text}

theorem chars (isType : IsType text) : ∀ c ∈ text, isTokenChar c = true ∨ c = '/' := by
  cases isType with
  | single token => exact fun c member => .inl ((Text.isToken_iff.mp token).2 c member)
  | pair main sub =>
      intro c member
      rcases List.mem_append.mp member with front | back
      · exact .inl ((Text.isToken_iff.mp main).2 c front)
      · rcases List.mem_cons.mp back with slash | back
        · exact .inr slash
        · exact .inl ((Text.isToken_iff.mp sub).2 c back)

theorem not_mem {c : Char} (isType : IsType text) (other : isTokenChar c = false)
    (noSlash : c ≠ '/') : c ∉ text := by
  intro member
  rcases isType.chars c member with token | slash
  · exact absurd token (by simp [other])
  · exact noSlash slash

theorem firm (isType : IsType text) : text.Firm := by
  cases isType with
  | single token => exact .of_token token
  | pair main sub =>
      rw [List.append_cons]
      exact (Text.Firm.of_token main).join ['/'] (.of_token sub)

theorem passes (isType : IsType text) : Quoting.Passes ';' .outside text .outside :=
  Quoting.passes_plain (isType.not_mem (by decide) (by decide))
    (isType.not_mem (by decide) (by decide))

/-- A type that is whole is left as it is. -/
theorem ofText (isType : IsType text) : TypeSlot.ofText text = .given text := by
  have unslashed {name : Text} (token : name.isToken = true) : '/' ∉ name :=
    Text.not_mem_of_tokens (Text.isToken_iff.mp token).2 (by decide)
  cases isType with
  | single token => simp [TypeSlot.ofText, Text.pieces_of_absent (unslashed token)]
  | pair main sub =>
      have cut := Text.pieces_append (unslashed main)
      simp only [TypeSlot.ofText, cut, Text.pieces_of_absent (unslashed sub), List.map_cons,
        List.map_nil, Text.trim_of_solid (Text.Firm.of_token main).solid,
        Text.trim_of_solid (Text.Firm.of_token sub).solid]
      simp [(Text.isToken_iff.mp sub).1]

theorem of_lower (isType : IsType text.lower) : IsType text := by
  have slash : isTokenChar '/' = false := by decide
  generalize lowered : text.lower = whole at isType
  cases isType with
  | single token => exact .single (by rw [← Text.isToken_lower, lowered, token])
  | pair main sub =>
      obtain ⟨front, back, rfl, rfl, behind⟩ := List.map_eq_append_iff.mp lowered
      obtain ⟨c, last, rfl, same, rfl⟩ := List.map_eq_cons_iff.mp behind
      obtain rfl : c = '/' := by
        have noToken : isTokenChar c = false := by rw [← (toLower_keeps c).1, same, slash]
        rw [← (toLower_keeps c).2.1 noToken, same]
      exact .pair ((Text.isToken_lower front).symm.trans main)
        ((Text.isToken_lower last).symm.trans sub)

theorem lower (isType : IsType text) : IsType text.lower := by
  cases isType with
  | single token => exact .single ((Text.isToken_lower text).trans token)
  | @pair main sub token tokenSub =>
      have slash : Char.toLower '/' = '/' := by decide
      rw [Text.lower, List.map_append, List.map_cons, slash]
      exact .pair ((Text.isToken_lower main).trans token)
        ((Text.isToken_lower sub).trans tokenSub)

end IsType

/-- The grammar takes just the types. -/
theorem essenceError?_eq_none_iff {essence : Text} :
    essenceError? essence = none ↔ IsType essence := by
  constructor
  · intro accepted
    unfold essenceError? at accepted
    split at accepted
    · contradiction
    · next main first found =>
      obtain ⟨token, rfl⟩ := Text.isToken_of_token found first
      rw [List.append_nil]
      exact .single token
    · next main c rest first found =>
      obtain ⟨token, rfl⟩ := Text.isToken_of_token found (by simpa using first)
      split at accepted
      · contradiction
      · next slash =>
        obtain rfl : c = '/' := by simpa using slash
        split at accepted
        · contradiction
        · next sub second foundSub =>
          obtain ⟨tokenSub, rfl⟩ := Text.isToken_of_token foundSub second
          rw [List.append_nil]
          exact .pair token tokenSub
        · contradiction
  · intro isType
    cases isType with
    | single token =>
        obtain ⟨c, name, rfl⟩ := List.exists_cons_of_ne_nil (Text.isToken_iff.mp token).1
        simp only [essenceError?, Text.token_eq_self token]
    | @pair main sub token tokenSub =>
        obtain ⟨nonempty, tokens⟩ := Text.isToken_iff.mp token
        have front : Text.token (main ++ '/' :: sub) = (main, '/' :: sub) :=
          Text.token_append_of_stop tokens (by simp; decide)
        obtain ⟨c, name, rfl⟩ := List.exists_cons_of_ne_nil nonempty
        obtain ⟨d, nameSub, rfl⟩ := List.exists_cons_of_ne_nil (Text.isToken_iff.mp tokenSub).1
        simp only [essenceError?, front, Text.token_eq_self tokenSub]
        simp

end LenientMime.MediaType
