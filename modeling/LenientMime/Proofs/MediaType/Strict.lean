import LenientMime.Proofs.MediaType.Grammar
import LenientMime.Proofs.MediaType.Printer
import LenientMime.Proofs.MediaType.WellFormed

namespace LenientMime

namespace Params

variable {params : Params} {name : Text}

theorem get?_of_absent (absent : ∀ param ∈ params, param.1 ≠ name) : params.get? name = none := by
  rw [get?, List.lookup_eq_none_iff]
  exact fun param member => by simpa using (absent param member).symm

theorem insert_of_greater (value : Text) (below : ∀ param ∈ params, param.1 < name) :
    params.insert name value = params ++ [(name, value)] := by
  induction params with
  | nil => rfl
  | cons param later ih =>
      obtain ⟨here, behind⟩ := List.forall_mem_cons.mp below
      have distinct : name ≠ param.1 := fun same => List.lt_irrefl name (same ▸ here)
      have apart : ¬ name < param.1 := List.lt_asymm here
      rw [insert, if_neg distinct, if_neg apart, ih behind, List.cons_append]

theorem assemble_of_plain (codec : Codec) (plain : ∀ param ∈ params, '*' ∉ param.1) :
    params.assemble codec = params := by
  have kept : params.filter (fun param => !param.1.contains '*') = params :=
    List.filter_eq_self.mpr fun param member => by simpa using plain param member
  have none : params.extendedNames = [] := by
    have uncut : params.filterMap (fun param => (Text.cut? '*' param.1).map Prod.fst) = [] :=
      List.filterMap_eq_nil_iff.mpr fun param member => by
        rw [Text.cut?_of_absent (plain param member), Option.map_none]
    rw [extendedNames, uncut, List.filter_nil]
  simp only [assemble, kept, none, List.foldl_nil]

end Params

/-- A parameter as the printer writes it. -/
def WrittenParam.printed {name value : Text} (isName : name.IsName) (shown : value.Shown) :
    WrittenParam where
  beforeName := [' ']
  name := name
  raw := value.bareOrQuoted
  value := value
  isName := isName.token
  denotes := Text.denotes_bareOrQuoted value
  unbroken := (Text.shown_bareOrQuoted shown).unbroken
  blankBeforeName := .space
  blankBeforeEquals := .nil
  blankBeforeValue := .nil
  blankBehind := .nil

theorem Param.read?_spelling {name value rest : Text} (isName : name.IsName) (shown : value.Shown)
    (stops : ∀ c, rest.head? = some c → isTokenChar c = false) :
    read? (';' :: ' ' :: (name ++ '=' :: (value.bareOrQuoted ++ rest))) =
      some ({ name, value }, rest) := by
  have read := read?_written (WrittenParam.printed isName shown) stops
  simpa [WrittenParam.printed, WrittenParam.segment, WrittenParam.core, WrittenParam.param,
    isName.lower] using read

namespace Params

variable {params seen : Params}

/-- Parameters as the printer spells them. -/
def spelling (params : Params) : Text :=
  params.flatMap fun param => ';' :: ' ' :: (param.1 ++ '=' :: param.2.bareOrQuoted)

theorem spelling_cons (param : Text × Text) (params : Params) :
    spelling (param :: params) =
      ';' :: ' ' :: (param.1 ++ '=' :: (param.2.bareOrQuoted ++ params.spelling)) := by
  simp [spelling]

theorem head?_spelling {c : Char} (shown : params.spelling.head? = some c) : c = ';' := by
  cases params with
  | nil => simp [spelling] at shown
  | cons param later =>
      rw [spelling_cons] at shown
      exact (Option.some.inj shown).symm

theorem readFrom_spelling (ordered : Ordered (seen ++ params))
    (names : ∀ param ∈ params, param.1.IsName) (shown : ∀ param ∈ params, param.2.Shown) :
    readFrom seen params.spelling = .ok (seen ++ params) := by
  induction params generalizing seen with
  | nil =>
      rw [readFrom, if_pos (by rfl), List.append_nil]
  | cons param later ih =>
      obtain ⟨isName, laterNames⟩ := List.forall_mem_cons.mp names
      obtain ⟨here, laterShown⟩ := List.forall_mem_cons.mp shown
      have below : ∀ earlier ∈ seen, earlier.1 < param.1 := fun earlier member =>
        (List.pairwise_append.mp ordered).2.2 earlier member param List.mem_cons_self
      have absent : seen.get? param.1 = none :=
        get?_of_absent fun earlier member same => List.lt_irrefl _ (same ▸ below earlier member)
      have moved : seen ++ param :: later = (seen ++ [param]) ++ later := List.append_cons ..
      have read : Param.read? (spelling (param :: later)) =
          some (⟨param.1, param.2⟩, spelling later) := by
        rw [spelling_cons]
        refine Param.read?_spelling isName here fun c first => ?_
        rw [head?_spelling first]
        decide
      have start : Text.trimStart (spelling (param :: later)) = spelling (param :: later) := by
        refine Text.trimStart_of_first fun c first => ?_
        rw [head?_spelling first]
        decide
      rw [readFrom, start, if_neg (by simp [spelling_cons])]
      split
      · next failed => simp [read] at failed
      · next found =>
        obtain ⟨rfl, rfl⟩ := by simpa [read] using found
        simp only [absent, insert_of_greater param.2 below]
        rw [moved] at ordered ⊢
        exact ih ordered laterNames laterShown

end Params

namespace MediaType

variable {essence : Text} {params : Params}

theorem readStrict_spelling (codec : Codec) (isEssence : IsEssence essence) (nonempty : essence ≠ [])
    (ordered : params.Ordered) (names : ∀ param ∈ params, param.1.IsName ∧ '*' ∉ param.1)
    (shown : ∀ param ∈ params, param.2.Shown) :
    readStrict (essence ++ params.spelling) codec = .ok { essence, params } := by
  have before : ∀ c ∈ essence, (c != ';') = true := by
    intro c member
    simpa using fun same : c = ';' => isEssence.not_mem (by decide) (by decide) (same ▸ member)
  have stops : params.spelling.takeWhile (· != ';') = [] ∧
      params.spelling.dropWhile (· != ';') = params.spelling := by
    cases params with
    | nil => simp [Params.spelling]
    | cons param later => simp [Params.spelling_cons]
  have read : Params.readFrom [] params.spelling = .ok params :=
    Params.readFrom_spelling ordered (fun param member => (names param member).1) shown
  rw [readStrict, List.takeWhile_append_of_pos before, List.dropWhile_append_of_pos before,
    stops.1, stops.2, List.append_nil, Text.trim_of_solid (isEssence.firm nonempty).solid,
    isEssence.lower, read]
  simp only [isEssence.essenceError?_eq_none nonempty,
    Params.assemble_of_plain codec fun param member => (names param member).2]

end MediaType

end LenientMime
