import LenientMime.Text.Blank
import LenientMime.Text.Token

namespace LenientMime

theorem isTokenChar_bounds {c : Char} (token : isTokenChar c = true) :
    '!' ≤ c ∧ c ≤ '~' ∧ isSpecial c = false := by
  simpa [isTokenChar, and_assoc] using token

theorem isBlank_of_visible {c : Char} (lower : '!' ≤ c) (upper : c ≤ '~') : isBlank c = false := by
  have low : 0x21 ≤ c.toNat := lower
  have high : c.toNat ≤ 0x7E := upper
  simp only [isBlank, Bool.or_eq_false_iff, Bool.and_eq_false_iff, decide_eq_false_iff_not,
    beq_eq_false_iff_ne]
  omega

theorem toLower_eq_or (c : Char) : c.toLower = c ∨ ∃ n < 26, c = Char.ofNat (65 + n) := by
  by_cases upper : 65 ≤ c.toNat ∧ c.toNat ≤ 90
  · refine .inr ⟨c.toNat - 65, by omega, ?_⟩
    rw [Nat.add_sub_cancel' upper.1, Char.ofNat_toNat]
  · exact .inl (dif_neg upper)

/-- Lower-casing keeps token characters, every other character, and what is lower already. -/
theorem toLower_keeps (c : Char) :
    isTokenChar c.toLower = isTokenChar c ∧ (isTokenChar c = false → c.toLower = c) ∧
      c.toLower.toLower = c.toLower := by
  have letters : ∀ n < 26, isTokenChar (Char.ofNat (65 + n)).toLower = true ∧
      isTokenChar (Char.ofNat (65 + n)) = true ∧
      (Char.ofNat (65 + n)).toLower.toLower = (Char.ofNat (65 + n)).toLower := by decide
  rcases toLower_eq_or c with same | ⟨n, bound, rfl⟩
  · simp only [same, implies_true, and_self]
  · obtain ⟨small, large, again⟩ := letters n bound
    exact ⟨small.trans large.symm, by simp [large], again⟩

theorem isTokenChar_of_blank {c : Char} (blank : isBlank c = true) : isTokenChar c = false := by
  rw [Bool.eq_false_iff]
  intro token
  obtain ⟨lower, upper, -⟩ := isTokenChar_bounds token
  rw [isBlank_of_visible lower upper] at blank
  contradiction

namespace Text

theorem lower_lower (text : Text) : text.lower.lower = text.lower := by
  rw [lower, lower, List.map_map]
  exact List.map_congr_left fun c _ => (toLower_keeps c).2.2

/-- Lower-casing makes no character that is not one of the small letters. -/
theorem mem_of_mem_lower {text : Text} {c : Char}
    (noLetter : ∀ n < 26, (Char.ofNat (65 + n)).toLower ≠ c) (member : c ∈ text.lower) :
    c ∈ text := by
  obtain ⟨origin, inside, same⟩ := List.mem_map.mp member
  rcases toLower_eq_or origin with kept | ⟨n, bound, rfl⟩
  · rwa [← same, kept]
  · exact absurd same (noLetter n bound)

theorem isToken_lower (text : Text) : text.lower.isToken = text.isToken := by
  have same : isTokenChar ∘ Char.toLower = isTokenChar := funext fun c => (toLower_keeps c).1
  rw [isToken, isToken, lower, List.all_map, same, List.isEmpty_map]

theorem isToken_iff {text : Text} :
    text.isToken = true ↔ text ≠ [] ∧ ∀ c ∈ text, isTokenChar c = true := by
  simp [isToken]

theorem not_mem_of_tokens {text : Text} {c : Char} (tokens : ∀ c ∈ text, isTokenChar c = true)
    (other : isTokenChar c = false) : c ∉ text :=
  fun member => absurd (tokens c member) (by simp [other])

theorem token_append_of_stop {label rest : Text} (tokens : ∀ c ∈ label, isTokenChar c = true)
    (stops : ∀ c, rest.head? = some c → isTokenChar c = false) :
    token (label ++ rest) = (label, rest) := by
  rw [token, List.takeWhile_append_of_pos tokens, List.dropWhile_append_of_pos tokens]
  cases rest with
  | nil => simp
  | cons c rest => simp [stops c rfl]

theorem token_eq_self {text : Text} (isToken : text.isToken = true) : text.token = (text, []) := by
  have found : token (text ++ []) = (text, []) :=
    token_append_of_stop (isToken_iff.mp isToken).2 (by simp)
  rwa [List.append_nil] at found

theorem isToken_of_token {text front rest : Text} (found : text.token = (front, rest))
    (nonempty : front ≠ []) : front.isToken = true ∧ text = front ++ rest := by
  have whole := text.token_append
  have tokens : ∀ c ∈ text.token.1, isTokenChar c = true := fun c member =>
    isTokenChar_of_token member
  rw [found] at whole tokens
  exact ⟨isToken_iff.mpr ⟨nonempty, tokens⟩, whole.symm⟩

/-- No blank stands at either end. -/
structure Solid (text : Text) : Prop where
  first : ∀ c, text.head? = some c → isBlank c = false
  last : ∀ c, text.getLast? = some c → isBlank c = false

theorem trimStart_of_first {text : Text} (first : ∀ c, text.head? = some c → isBlank c = false) :
    text.trimStart = text := by
  cases text with
  | nil => rfl
  | cons c rest => simp [trimStart, first c rfl]

theorem trimStart_of_solid {c : Char} (solid : isBlank c = false) (text : Text) :
    trimStart (c :: text) = c :: text :=
  trimStart_of_first fun d shown => by rwa [← Option.some.inj shown]

theorem trimEnd_of_last {text : Text} (last : ∀ c, text.getLast? = some c → isBlank c = false) :
    text.trimEnd = text := by
  have reversed : trimStart text.reverse = text.reverse :=
    trimStart_of_first (by simpa using last)
  rw [trimEnd, ← trimStart, reversed, List.reverse_reverse]

theorem trim_of_solid {text : Text} (solid : text.Solid) : text.trim = text := by
  rw [trim, trimStart_of_first solid.first, trimEnd_of_last solid.last]

/-- Only blanks, or nothing. -/
def Blank (text : Text) : Prop :=
  ∀ c ∈ text, isBlank c = true

instance (text : Text) : Decidable text.Blank :=
  List.decidableBAll _ text

theorem Blank.nil : Blank [] :=
  fun _ member => nomatch member

theorem Blank.space : Blank [' '] := by
  decide

theorem Blank.not_mem {text : Text} {c : Char} (blank : text.Blank) (solid : isBlank c = false) :
    c ∉ text :=
  fun member => absurd (blank c member) (by simp [solid])

theorem Blank.append {front back : Text} (first : front.Blank) (second : back.Blank) :
    Blank (front ++ back) :=
  List.forall_mem_append.mpr ⟨first, second⟩

theorem Blank.trimStart_append {front : Text} (blank : front.Blank) (text : Text) :
    trimStart (front ++ text) = trimStart text :=
  List.dropWhile_append_of_pos blank

theorem Blank.trimEnd_append {back : Text} (blank : back.Blank) (text : Text) :
    trimEnd (text ++ back) = trimEnd text := by
  have reversed : Blank back.reverse := fun c member => blank c (List.mem_reverse.mp member)
  rw [trimEnd, List.reverse_append, ← trimStart, reversed.trimStart_append]
  rfl

/-- A token stops at blanks, and behind them where it would stop without them. -/
theorem Blank.stops {gap text : Text} (blank : gap.Blank)
    (stops : ∀ c, text.head? = some c → isTokenChar c = false) :
    ∀ c, (gap ++ text).head? = some c → isTokenChar c = false := by
  cases gap with
  | nil => exact stops
  | cons d gap =>
      intro c shown
      rw [← Option.some.inj shown]
      exact isTokenChar_of_blank (blank d List.mem_cons_self)

theorem exists_trimStart (text : Text) : ∃ front, front.Blank ∧ text = front ++ text.trimStart :=
  ⟨text.takeWhile isBlank, List.all_eq_true.mp List.all_takeWhile,
    List.takeWhile_append_dropWhile.symm⟩

theorem exists_trimEnd (text : Text) : ∃ back, back.Blank ∧ text = text.trimEnd ++ back := by
  obtain ⟨front, blank, whole⟩ := exists_trimStart text.reverse
  refine ⟨front.reverse, fun c member => blank c (List.mem_reverse.mp member), ?_⟩
  rw [trimEnd, ← trimStart, ← List.reverse_append, ← whole, List.reverse_reverse]

theorem exists_trim (text : Text) :
    ∃ front back, front.Blank ∧ back.Blank ∧ text = front ++ text.trim ++ back := by
  obtain ⟨front, blankFront, first⟩ := exists_trimStart text
  obtain ⟨back, blankBack, last⟩ := exists_trimEnd text.trimStart
  refine ⟨front, back, blankFront, blankBack, ?_⟩
  rw [List.append_assoc, trim, ← last, ← first]

theorem solid_trim (text : Text) : text.trim.Solid := by
  have stops (text : Text) : ∀ c, text.trimStart.head? = some c → isBlank c = false := by
    intro c shown
    have stopped := List.head?_dropWhile_not isBlank text
    rw [← trimStart, shown] at stopped
    exact stopped
  refine ⟨fun c shown => ?_, fun c shown => ?_⟩
  · obtain ⟨back, -, whole⟩ := exists_trimEnd text.trimStart
    refine stops text c ?_
    rw [whole, ← trim, List.head?_append, shown, Option.some_or]
  · rw [trim, trimEnd, ← trimStart, List.getLast?_reverse] at shown
    exact stops _ c shown

theorem Blank.trim_eq {text : Text} (blank : text.Blank) : text.trim = [] := by
  have nothing := blank.trimStart_append []
  rw [List.append_nil] at nothing
  rw [trim, nothing]
  rfl

theorem Blank.trim_append {gap : Text} (blank : gap.Blank) (text : Text) :
    trim (text ++ gap) = trim text := by
  rw [trim, trimStart, List.dropWhile_append]
  split
  · next nothing =>
    have gone : trimStart (gap ++ []) = trimStart [] := blank.trimStart_append []
    rw [List.append_nil, trimStart] at gone
    have start : text.trimStart = [] := List.isEmpty_iff.mp nothing
    rw [gone, trim, start]
    rfl
  · exact blank.trimEnd_append _

theorem trim_between {text front back : Text} (nonempty : text ≠ []) (solid : text.Solid)
    (blankFront : front.Blank) (blankBack : back.Blank) : trim (front ++ text ++ back) = text := by
  have starts : trimStart (text ++ back) = text ++ back := by
    obtain ⟨c, rest, rfl⟩ := List.exists_cons_of_ne_nil nonempty
    exact trimStart_of_solid (solid.first c rfl) _
  rw [trim, List.append_assoc, blankFront.trimStart_append, starts, blankBack.trimEnd_append,
    trimEnd_of_last solid.last]

theorem trimStart_space (text : Text) : trimStart (' ' :: text) = trimStart text := by
  rw [trimStart, List.dropWhile_cons_of_pos (by decide)]
  rfl

theorem trim_space_cons {text : Text} (solid : text.Solid) : trim (' ' :: text) = text := by
  rw [trim, trimStart_space, ← trim, trim_of_solid solid]

def IsEdge (c : Char) : Prop :=
  isTokenChar c = true ∨ c = '"'

theorem IsEdge.solid {c : Char} (edge : IsEdge c) : isBlank c = false := by
  cases edge with
  | inl token =>
      obtain ⟨lower, upper, -⟩ := isTokenChar_bounds token
      exact isBlank_of_visible lower upper
  | inr quote =>
      subst quote
      decide

theorem IsEdge.ne {c other : Char} (edge : IsEdge c) (noToken : isTokenChar other = false)
    (noQuote : other ≠ '"') : c ≠ other := by
  intro same
  subst same
  cases edge with
  | inl token => exact absurd token (by simp [noToken])
  | inr quote => exact noQuote quote

/-- The text begins and ends in an edge. -/
structure Firm (text : Text) : Prop where
  nonempty : text ≠ []
  first : ∀ c, text.head? = some c → IsEdge c
  last : ∀ c, text.getLast? = some c → IsEdge c

theorem Firm.of_tokens {text : Text} (nonempty : text ≠ [])
    (tokens : ∀ c ∈ text, isTokenChar c = true) : text.Firm :=
  { nonempty
    first := fun c shown => .inl (tokens c (List.mem_of_head? shown))
    last := fun c shown => .inl (tokens c (List.mem_of_getLast? shown)) }

theorem Firm.of_token {text : Text} (token : text.isToken = true) : text.Firm :=
  .of_tokens (isToken_iff.mp token).1 (isToken_iff.mp token).2

theorem Firm.last_append {text : Text} (firm : text.Firm) (front : Text) :
    ∀ c, (front ++ text).getLast? = some c → IsEdge c := by
  intro c shown
  have last := List.getLast?_eq_some_getLast firm.nonempty
  rw [List.getLast?_append, last, Option.some_or, ← last] at shown
  exact firm.last c shown

theorem Firm.first_append {text : Text} (firm : text.Firm) (back : Text) :
    ∀ c, (text ++ back).head? = some c → IsEdge c := by
  intro c shown
  have first := List.head?_eq_some_head firm.nonempty
  rw [List.head?_append, first, Option.some_or, ← first] at shown
  exact firm.first c shown

theorem Firm.join {front back : Text} (firm : front.Firm) (middle : Text) (firmBack : back.Firm) :
    Firm (front ++ middle ++ back) :=
  { nonempty := by simp [firm.nonempty]
    first := by
      rw [List.append_assoc]
      exact firm.first_append _
    last := firmBack.last_append _ }

theorem Firm.trimStart_append {text : Text} (firm : text.Firm) (back : Text) :
    trimStart (text ++ back) = text ++ back :=
  trimStart_of_first fun c shown => (firm.first_append back c shown).solid

theorem Firm.solid {text : Text} (firm : text.Firm) : text.Solid :=
  ⟨fun c shown => (firm.first c shown).solid, fun c shown => (firm.last c shown).solid⟩

end Text

end LenientMime
