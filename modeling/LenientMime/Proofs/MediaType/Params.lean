import LenientMime.Proofs.MediaType.Grammar
import LenientMime.Proofs.MediaType.WellFormed

namespace LenientMime

namespace Param

/-- No name is given two values. -/
def Consistent (params : List Param) : Prop :=
  ∀ first ∈ params, ∀ second ∈ params, first.name = second.name → first.value = second.value

instance (params : List Param) : Decidable (Consistent params) :=
  List.decidableBAll _ params

def entry (param : Param) : Text × Text :=
  (param.name, param.value)

end Param

namespace Params

variable {params seen entered : Params} {given : List Param} {param : Param} {name value : Text}

theorem mem_of_get? (found : params.get? name = some value) : (name, value) ∈ params := by
  obtain ⟨front, back, rfl, -⟩ := List.lookup_eq_some_iff.mp found
  exact List.mem_append_right front List.mem_cons_self

theorem ne_of_get?_eq_none (absent : params.get? name = none) {param : Text × Text}
    (member : param ∈ params) : param.1 ≠ name := by
  have distinct := List.lookup_eq_none_iff.mp absent param member
  exact fun same => by simp [same] at distinct

/-- A name that is given the value it has changes nothing. -/
theorem Ordered.insert_of_get? (ordered : params.Ordered) (found : params.get? name = some value) :
    params.insert name value = params := by
  fun_induction Params.insert name value params with
  | case1 => contradiction
  | case2 old later =>
      have same : old = value := by simpa [get?] using found
      rw [same]
  | case3 key old later distinct less =>
      have below := (List.pairwise_cons.mp ordered).1
      rcases List.mem_cons.mp (mem_of_get? found) with here | behind
      · exact absurd (Prod.mk.inj here).1 distinct
      · exact absurd (below _ behind) (List.lt_asymm less)
  | case4 key old later distinct apart ih =>
      have passed : (name == key) = false := by simpa using distinct
      have behind : get? later name = some value := by
        simpa [get?, List.lookup_cons, passed] using found
      rw [ih (List.pairwise_cons.mp ordered).2 behind]

theorem get?_of_enter? (enters : seen.enter? param = some entered) :
    entered.get? name = some value ↔
      seen.get? name = some value ∨ param = { name, value } := by
  obtain ⟨given, new⟩ := param
  rw [enter?] at enters
  split at enters
  · next absent =>
    obtain rfl := Option.some.inj enters
    by_cases same : name = given
    · subst same
      simp [absent]
    · rw [get?_insert_of_ne new seen same]
      simp [Ne.symm same]
  · next old present =>
    split at enters
    · next agrees =>
      obtain rfl := Option.some.inj enters
      have held : ({ name := given, value := new } : Param) = { name, value } →
          seen.get? name = some value := by
        intro same
        obtain ⟨rfl, rfl⟩ := Param.mk.inj same
        rw [present, agrees]
      exact (or_iff_left_of_imp held).symm
    · contradiction

/-- What is entered holds each parameter, and what was there before, and nothing else. -/
theorem get?_of_enterAll? (enters : seen.enterAll? given = some entered) :
    entered.get? name = some value ↔
      seen.get? name = some value ∨ { name, value } ∈ given := by
  induction given generalizing seen with
  | nil =>
      obtain rfl := Option.some.inj enters
      simp
  | cons param later ih =>
      obtain ⟨next, here, behind⟩ := Option.bind_eq_some_iff.mp enters
      rw [ih behind, get?_of_enter? here, List.mem_cons, or_assoc]
      exact or_congr_right (or_congr_left eq_comm)

theorem Ordered.eq_insert_of_enter? (ordered : seen.Ordered)
    (enters : seen.enter? param = some entered) :
    entered = seen.insert param.name param.value := by
  rw [enter?] at enters
  split at enters
  · exact (Option.some.inj enters).symm
  · next old present =>
    split at enters
    · next agrees =>
      obtain rfl := Option.some.inj enters
      exact (ordered.insert_of_get? (agrees ▸ present)).symm
    · contradiction

theorem Ordered.eq_foldl_of_enterAll? (ordered : seen.Ordered)
    (enters : seen.enterAll? given = some entered) :
    entered = (given.map Param.entry).foldl (fun params pair => params.insert pair.1 pair.2) seen := by
  induction given generalizing seen with
  | nil => exact (Option.some.inj enters).symm
  | cons param later ih =>
      obtain ⟨next, here, behind⟩ := Option.bind_eq_some_iff.mp enters
      obtain rfl := ordered.eq_insert_of_enter? here
      exact ih (ordered.insert _ _) behind

theorem exists_enterAll? (agrees : ∀ param ∈ given, ∀ value, seen.get? param.name = some value →
      value = param.value) (consistent : Param.Consistent given) :
    ∃ entered, seen.enterAll? given = some entered := by
  induction given generalizing seen with
  | nil => exact ⟨seen, rfl⟩
  | cons param later ih =>
      obtain ⟨here, behind⟩ := List.forall_mem_cons.mp agrees
      obtain ⟨next, enters⟩ : ∃ next, seen.enter? param = some next := by
        rw [enter?]
        cases found : seen.get? param.name with
        | none => exact ⟨_, rfl⟩
        | some value => exact ⟨seen, if_pos (here value found)⟩
      have laterAgrees : ∀ other ∈ later, ∀ value, next.get? other.name = some value →
          value = other.value := by
        intro other member value found
        rcases (get?_of_enter? enters).mp found with before | new
        · exact behind other member value before
        · have same : param.name = other.name := by rw [new]
          have agrees := consistent param List.mem_cons_self other (List.mem_cons_of_mem _ member) same
          rw [← agrees, new]
      obtain ⟨entered, entersLater⟩ := ih laterAgrees fun first isLater second isLaterToo =>
        consistent first (List.mem_cons_of_mem _ isLater) second (List.mem_cons_of_mem _ isLaterToo)
      exact ⟨entered, by rw [enterAll?, enters, Option.bind_some, entersLater]⟩

/-- Parameters can be entered just if they are consistent, and then they are all there is. -/
theorem enterAll?_eq_some_iff :
    enterAll? [] given = some entered ↔
      Param.Consistent given ∧ entered = ofList (given.map Param.entry) := by
  have ordered : Ordered [] := List.Pairwise.nil
  constructor
  · intro enters
    refine ⟨fun first isFirst second isSecond same => ?_, ordered.eq_foldl_of_enterAll? enters⟩
    have held : entered.get? first.name = some first.value :=
      (get?_of_enterAll? enters).mpr (.inr isFirst)
    have heldToo : entered.get? second.name = some second.value :=
      (get?_of_enterAll? enters).mpr (.inr isSecond)
    rw [same, heldToo] at held
    exact (Option.some.inj held).symm
  · rintro ⟨consistent, rfl⟩
    have agrees : ∀ param ∈ given, ∀ value, get? [] param.name = some value →
        value = param.value := fun _ _ _ found => nomatch found
    obtain ⟨entered, enters⟩ := exists_enterAll? agrees consistent
    rw [enters, ordered.eq_foldl_of_enterAll? enters]
    rfl

theorem get?_ofList (consistent : Param.Consistent given) :
    (ofList (given.map Param.entry)).get? name = some value ↔ { name, value } ∈ given := by
  have enters := enterAll?_eq_some_iff.mpr ⟨consistent, rfl⟩
  rw [get?_of_enterAll? enters, or_iff_right]
  exact fun found => nomatch found

theorem mem_ofList {pairs : List (Text × Text)} {pair : Text × Text}
    (member : pair ∈ ofList pairs) : pair ∈ pairs := by
  have all (seen : Params) (inside : pair ∈ pairs.foldl (fun params pair =>
      params.insert pair.1 pair.2) seen) : pair ∈ seen ∨ pair ∈ pairs := by
    clear member
    induction pairs generalizing seen with
    | nil => exact .inl inside
    | cons first later ih =>
        rcases ih _ inside with entered | behind
        · rcases mem_insert entered with new | before
          · exact .inr (new ▸ List.mem_cons_self)
          · exact .inl before
        · exact .inr (List.mem_cons_of_mem _ behind)
  rcases all [] member with nothing | inside
  · contradiction
  · exact inside

section Assembled

variable {codec : Codec}

/-- What holds of the plain parameters, and stays when a base name gets its value, holds of
the assembled ones. -/
theorem assemble_induction {motive : Params → Prop}
    (plain : motive (params.filter fun param => !param.1.contains '*'))
    (extended : ∀ base ∈ params.extendedNames, ∀ value, params.extended? codec base = some value →
      ∀ assembled, motive assembled → motive (assembled.insert base value)) :
    motive (params.assemble codec) := by
  rw [assemble]
  refine List.foldlRecOn _ _ plain fun assembled holds base member => ?_
  cases found : params.extended? codec base with
  | none => exact holds
  | some value => exact extended base member value found assembled holds

theorem exists_of_mem_extendedNames {base : Text} (member : base ∈ params.extendedNames) :
    base ≠ [] ∧ '*' ∉ base ∧ ∃ param ∈ params, ∃ rest, param.1 = base ++ '*' :: rest := by
  obtain ⟨inside, visible⟩ := List.mem_filter.mp member
  obtain ⟨param, isParam, cut⟩ := List.mem_filterMap.mp inside
  obtain ⟨⟨front, rest⟩, found, rfl⟩ := Option.map_eq_some_iff.mp cut
  obtain ⟨whole, absent⟩ := Text.eq_of_cut found
  exact ⟨by simpa using visible, absent, param, isParam, rest, whole⟩

theorem get?_filter {p : Text → Bool} (kept : p name = true) (params : Params) :
    Params.get? (params.filter fun param => p param.1) name = params.get? name := by
  induction params with
  | nil => rfl
  | cons param later ih =>
      obtain ⟨key, value⟩ := param
      simp only [get?] at ih
      by_cases here : name = key
      · subst here
        simp [get?, kept]
      · have passed : (name == key) = false := by simpa using here
        by_cases stays : p key = true
        · simp [get?, List.lookup_cons, passed, stays, ih]
        · simp [get?, List.lookup_cons, passed, stays, ih]

/-- A plain name keeps its value unless extended parameters give it another. -/
theorem get?_assemble (plain : '*' ∉ name) (unextended : params.extended? codec name = none) :
    (params.assemble codec).get? name = params.get? name := by
  refine assemble_induction (motive := fun assembled => assembled.get? name = params.get? name) ?_ ?_
  · exact get?_filter (p := fun name => !name.contains '*') (by simpa using plain) params
  · intro base _ value found assembled held
    have distinct : name ≠ base := by
      rintro rfl
      rw [found] at unextended
      contradiction
    rw [get?_insert_of_ne value assembled distinct, held]

theorem Ordered.assemble (ordered : params.Ordered) : (params.assemble codec).Ordered :=
  assemble_induction (List.Pairwise.filter _ ordered) fun base _ value _ _ assembled =>
    assembled.insert base value

theorem names_assemble (names : ∀ param ∈ params, param.1.IsName) :
    ∀ param ∈ params.assemble codec, param.1.IsName ∧ '*' ∉ param.1 := by
  refine assemble_induction (motive := fun assembled => ∀ param ∈ assembled,
    param.1.IsName ∧ '*' ∉ param.1) ?_ ?_
  · intro param member
    obtain ⟨inside, plain⟩ := List.mem_filter.mp member
    exact ⟨names param inside, by simpa using plain⟩
  · intro base isBase value _ assembled held param member
    rcases mem_insert member with rfl | before
    · obtain ⟨nonempty, absent, origin, inside, rest, whole⟩ := exists_of_mem_extendedNames isBase
      have isName := names origin inside
      rw [whole] at isName
      exact ⟨isName.front nonempty, absent⟩
    · exact held param before

end Assembled

end Params

end LenientMime
