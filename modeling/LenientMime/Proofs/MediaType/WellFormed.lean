import LenientMime.Proofs.MediaType.Essence

namespace LenientMime

/-- A token without upper-case letters. -/
structure Text.IsName (text : Text) : Prop where
  token : text.isToken = true
  lower : text.lower = text

def Params.Ordered (params : Params) : Prop :=
  params.Pairwise fun earlier later => earlier.1 < later.1

namespace MediaType

/-- An essence is a type, with or without a subtype, or a disposition.  It is empty
if there is none. -/
inductive IsEssence : Text → Prop
  | empty : IsEssence []
  | single {name : Text} : name.IsName → IsEssence name
  | pair {main sub : Text} : main.IsName → sub.IsName → IsEssence (main ++ '/' :: sub)

structure WellFormed (media : MediaType) : Prop where
  essence : IsEssence media.essence
  names : ∀ param ∈ media.params, param.1.IsName ∧ '*' ∉ param.1
  ordered : media.params.Ordered
  bareNames : ∀ name ∈ media.bareNames, name.IsName
  distinct : media.bareNames.Nodup
  apart : ∀ name ∈ media.bareNames, ∀ param ∈ media.params, param.1 ≠ name

end MediaType

namespace Params

variable {params : Params} {name : Text}

theorem lt_of_not_lt {key : Text} (apart : ¬ name < key) (distinct : name ≠ key) :
    key < name := by
  by_cases less : key < name
  · exact less
  · exact absurd (List.le_antisymm (List.not_lt.mp less) (List.not_lt.mp apart)) distinct

theorem mem_insert {param : Text × Text} {value : Text}
    (member : param ∈ params.insert name value) : param = (name, value) ∨ param ∈ params := by
  fun_induction insert name value params with
  | case1 => simpa using member
  | case2 old later =>
      rcases List.mem_cons.mp member with here | behind
      · exact .inl here
      · exact .inr (List.mem_cons_of_mem _ behind)
  | case3 key old later distinct less => exact List.mem_cons.mp member
  | case4 key old later distinct apart ih =>
      rcases List.mem_cons.mp member with here | behind
      · exact .inr (here ▸ List.mem_cons_self)
      · exact (ih behind).imp_right (List.mem_cons_of_mem _)

/-- Giving a name a value keeps the order, so that every list that is built has it. -/
theorem Ordered.insert (ordered : params.Ordered) (name value : Text) :
    (params.insert name value).Ordered := by
  fun_induction Params.insert name value params with
  | case1 => exact List.pairwise_singleton _ _
  | case2 old later =>
      obtain ⟨below, tail⟩ := List.pairwise_cons.mp ordered
      exact List.pairwise_cons.mpr ⟨below, tail⟩
  | case3 key old later distinct less =>
      obtain ⟨below, tail⟩ := List.pairwise_cons.mp ordered
      refine List.pairwise_cons.mpr ⟨fun param member => ?_, ordered⟩
      rcases List.mem_cons.mp member with here | behind
      · exact here ▸ less
      · exact List.lt_trans less (below param behind)
  | case4 key old later distinct apart ih =>
      obtain ⟨below, tail⟩ := List.pairwise_cons.mp ordered
      refine List.pairwise_cons.mpr ⟨fun param member => ?_, ih tail⟩
      rcases mem_insert member with here | behind
      · exact here ▸ lt_of_not_lt apart distinct
      · exact below param behind

theorem ordered_ofList (pairs : List (Text × Text)) : (ofList pairs).Ordered := by
  have all (seen : Params) (ordered : seen.Ordered) :
      Ordered (pairs.foldl (fun params pair => params.insert pair.1 pair.2) seen) := by
    induction pairs generalizing seen with
    | nil => exact ordered
    | cons pair later ih => exact ih _ (ordered.insert _ _)
  exact all [] List.Pairwise.nil

end Params

namespace Text

variable {text : Text}

theorem IsName.nonempty (name : text.IsName) : text ≠ [] :=
  (isToken_iff.mp name.token).1

theorem IsName.tokens (name : text.IsName) : ∀ c ∈ text, isTokenChar c = true :=
  (isToken_iff.mp name.token).2

theorem IsName.firm (name : text.IsName) : text.Firm :=
  .of_tokens name.nonempty name.tokens

/-- The front of a name is a name, if it is not empty. -/
theorem IsName.front {front back : Text} (name : IsName (front ++ back)) (nonempty : front ≠ []) :
    front.IsName := by
  have lowered := name.lower
  rw [Text.lower, List.map_append] at lowered
  refine ⟨isToken_iff.mpr ⟨nonempty, fun c member => ?_⟩, ?_⟩
  · exact name.tokens c (List.mem_append_left back member)
  · exact List.append_inj_left lowered (List.length_map _)

theorem IsName.not_mem {c : Char} (name : text.IsName) (other : isTokenChar c = false) : c ∉ text :=
  not_mem_of_tokens name.tokens other

end Text

namespace MediaType.IsEssence

variable {essence : Text}

theorem isType (isEssence : IsEssence essence) (nonempty : essence ≠ []) : IsType essence := by
  cases isEssence with
  | empty => exact absurd rfl nonempty
  | single name => exact .single name.token
  | pair main sub => exact .pair main.token sub.token

theorem chars (isEssence : IsEssence essence) :
    ∀ c ∈ essence, isTokenChar c = true ∨ c = '/' := by
  intro c member
  exact (isEssence.isType (List.ne_nil_of_mem member)).chars c member

theorem not_mem {c : Char} (isEssence : IsEssence essence) (other : isTokenChar c = false)
    (noSlash : c ≠ '/') : c ∉ essence := by
  intro member
  exact (isEssence.isType (List.ne_nil_of_mem member)).not_mem other noSlash member

theorem firm (isEssence : IsEssence essence) (nonempty : essence ≠ []) : essence.Firm :=
  (isEssence.isType nonempty).firm

theorem lower (isEssence : IsEssence essence) : essence.lower = essence := by
  cases isEssence with
  | empty => rfl
  | single name => exact name.lower
  | @pair first second main sub =>
      have slash : Char.toLower '/' = '/' := by decide
      rw [Text.lower, List.map_append, List.map_cons, slash, ← Text.lower, ← Text.lower,
        main.lower, sub.lower]

theorem passes (isEssence : IsEssence essence) :
    Quoting.Passes ';' .outside essence .outside :=
  Quoting.passes_plain (isEssence.not_mem (by decide) (by decide))
    (isEssence.not_mem (by decide) (by decide))

theorem ofText (isEssence : IsEssence essence) : TypeSlot.ofText essence = .given essence := by
  by_cases empty : essence = []
  · subst empty
    rfl
  · exact (isEssence.isType empty).ofText

theorem essenceError?_eq_none (isEssence : IsEssence essence) (nonempty : essence ≠ []) :
    essenceError? essence = none :=
  essenceError?_eq_none_iff.mpr (isEssence.isType nonempty)

end MediaType.IsEssence

end LenientMime
