import LenientMime.MediaType.Unquoted
import LenientMime.Proofs.Text.Token

namespace LenientMime

namespace Quoting

def inFront (text : Text) : List Text → List Text
  | [] => [text]
  | first :: later => (text ++ first) :: later

/-- From one place to another the text stays in one piece. -/
def Passes (separator : Char) (quoting : Quoting) (text : Text) (after : Quoting) : Prop :=
  ∀ rest, split separator quoting (text ++ rest) = inFront text (split separator after rest)

variable {separator c : Char} {quoting middle after : Quoting} {text front back : Text}

theorem split_ne_nil (separator : Char) (quoting : Quoting) (text : Text) :
    split separator quoting text ≠ [] := by
  cases text with
  | nil => simp [split]
  | cons c rest =>
      simp only [split]
      split
      · simp
      · split <;> simp

theorem inFront_inFront (front back : Text) (pieces : List Text) :
    inFront front (inFront back pieces) = inFront (front ++ back) pieces := by
  cases pieces <;> simp [inFront]

theorem Passes.nil : Passes separator quoting [] quoting := by
  intro rest
  cases shown : split separator quoting rest with
  | nil => exact absurd shown (split_ne_nil _ _ _)
  | cons first later => simp [inFront, shown]

theorem Passes.append (first : Passes separator quoting front middle)
    (second : Passes separator middle back after) :
    Passes separator quoting (front ++ back) after := by
  intro rest
  rw [List.append_assoc, first, second, inFront_inFront]

theorem passes_char (kept : ¬ (quoting = .outside ∧ c = separator)) :
    Passes separator quoting [c] (quoting.next c) := by
  intro rest
  rw [List.singleton_append, split, if_neg kept]
  cases split separator (quoting.next c) rest <;> rfl

theorem passes_of_steady
    (steady : ∀ c ∈ text, ¬ (quoting = .outside ∧ c = separator) ∧ quoting.next c = quoting) :
    Passes separator quoting text quoting := by
  induction text with
  | nil => exact .nil
  | cons c rest ih =>
      obtain ⟨⟨kept, stays⟩, later⟩ := List.forall_mem_cons.mp steady
      have first := passes_char kept
      rw [stays] at first
      exact first.append (ih later)

theorem passes_plain (noSeparator : separator ∉ text) (noQuote : '"' ∉ text) :
    Passes separator .outside text .outside := by
  refine passes_of_steady fun c member => ⟨fun ends => noSeparator (ends.2 ▸ member), ?_⟩
  have distinct : c ≠ '"' := fun same => noQuote (same ▸ member)
  simp [next, distinct]

theorem passes_blank {gap : Text} (blank : gap.Blank) : Passes ';' .outside gap .outside :=
  passes_plain (blank.not_mem (by decide)) (blank.not_mem (by decide))

theorem passes_inside (plain : ∀ c ∈ text, c ≠ '\\' ∧ c ≠ '"') :
    Passes separator .inside text .inside :=
  passes_of_steady fun c member => ⟨by simp, by simp [next, plain c member]⟩

theorem passes_quotes (distinct : separator ≠ '"') (body : Passes separator .inside text .inside) :
    Passes separator .outside ('"' :: text ++ ['"']) .outside := by
  have opens : Passes separator .outside ['"'] .inside :=
    passes_char fun ends => distinct ends.2.symm
  have closes : Passes separator .inside ['"'] .outside := passes_char fun ends => nomatch ends.1
  exact (opens.append body).append closes

/-- Without a separator there is nothing to split, wherever the text stands. -/
theorem split_of_absent (absent : separator ∉ text) (quoting : Quoting) :
    split separator quoting text = [text] := by
  induction text generalizing quoting with
  | nil => rfl
  | cons c rest ih =>
      obtain ⟨distinct, later⟩ := List.ne_and_not_mem_of_not_mem_cons absent
      have kept : ¬ (quoting = .outside ∧ c = separator) := fun ends => distinct ends.2.symm
      rw [split, if_neg kept, ih later]

theorem split_segments {first : Text} {segments : List Text}
    (passes : Passes separator .outside first .outside)
    (all : ∀ segment ∈ segments, Passes separator .outside segment .outside) :
    split separator .outside (first ++ segments.flatMap (separator :: ·)) = first :: segments := by
  induction segments generalizing first with
  | nil =>
      rw [List.flatMap_nil, passes]
      simp [split, inFront]
  | cons segment segments ih =>
      obtain ⟨here, later⟩ := List.forall_mem_cons.mp all
      rw [List.flatMap_cons, passes, List.cons_append, split, if_pos ⟨rfl, rfl⟩, ih here later]
      simp [inFront]

end Quoting

namespace Text

/-- Some character of the text is no blank, and the last of them closes no tag. -/
def Tagless (text : Text) : Prop :=
  ∃ front c gap, text = front ++ c :: gap ∧ isBlank c = false ∧ c ≠ '>' ∧ Blank gap

theorem Tagless.of_firm {text front gap : Text} (firm : text.Firm) (blank : gap.Blank) :
    Tagless (front ++ text ++ gap) := by
  obtain ⟨before, c, rfl⟩ : ∃ before c, text = before ++ [c] :=
    ⟨_, _, (List.dropLast_concat_getLast firm.nonempty).symm⟩
  have edge : IsEdge c := firm.last c List.getLast?_concat
  exact ⟨front ++ before, c, gap, by simp, edge.solid, edge.ne (by decide) (by decide), blank⟩

theorem Tagless.withoutTags_eq {text : Text} (tagless : text.Tagless) :
    text.withoutTags = text := by
  obtain ⟨front, c, gap, rfl, solid, noBracket, blank⟩ := tagless
  have trimmed : trimEnd (front ++ c :: gap) = front ++ [c] := by
    rw [List.append_cons, blank.trimEnd_append, trimEnd_of_last (by simpa using solid)]
  have noTag : withoutLastTag? (front ++ [c]) = none := by
    unfold withoutLastTag?
    split
    · next before reversed =>
      have shown := congrArg (List.map Prod.fst) reversed
      rw [List.map_reverse, Quoting.map_fst_mark] at shown
      have head := congrArg List.head? shown
      rw [List.head?_reverse, List.getLast?_concat] at head
      exact absurd (Option.some.inj head) noBracket
    · rfl
  rw [withoutTags, trimmed, noTag]

end Text

end LenientMime
