import LenientMime.Proofs.MediaType.Params
import Mathlib.Data.List.Perm.Subperm

namespace LenientMime

namespace Text

theorem isDigit_of_mem_ofNat {number : Nat} {c : Char} (member : c ∈ ofNat number) :
    c.isDigit = true :=
  Nat.isDigit_of_mem_toDigits (b := 10) (by decide) (by decide) member

theorem star_not_mem_ofNat (number : Nat) : '*' ∉ ofNat number :=
  fun member => absurd (isDigit_of_mem_ofNat member) (by decide)

theorem lower_ofNat (number : Nat) : lower (ofNat number) = ofNat number := by
  refine (List.map_congr_left fun c member => ?_).trans (List.map_id _)
  have digit := isDigit_of_mem_ofNat member
  rcases toLower_eq_or c with same | ⟨n, bound, rfl⟩
  · exact same
  · have letters : ∀ n < 26, (Char.ofNat (65 + n)).isDigit = false := by decide
    rw [letters n bound] at digit
    contradiction

theorem ofNat_injective {first second : Nat} (same : ofNat first = ofNat second) :
    first = second := by
  have read := congrArg (fun digits => Nat.ofDigitChars 10 digits 0) same
  simpa [ofNat] using read

end Text

namespace ExtendedPiece

/-- The name that a piece stands under. -/
def name (base : Text) (number : Nat) : ExtendedPiece → Text
  | .literal _ => base ++ '*' :: Text.ofNat number
  | .escaped _ => base ++ '*' :: Text.ofNat number ++ ['*']

def value : ExtendedPiece → Text
  | .literal value => value
  | .escaped value => value

def entry (base : Text) (number : Nat) (piece : ExtendedPiece) : Text × Text :=
  (piece.name base number, piece.value)

variable {base : Text} {first second : Nat} {piece other : ExtendedPiece}

theorem number_of_name (same : piece.name base first = other.name base second) :
    first = second := by
  have unstarred {left right : Nat} (same : Text.ofNat left ++ ['*'] = Text.ofNat right) : False :=
    Text.star_not_mem_ofNat right (same ▸ by simp)
  cases piece with
  | literal =>
      cases other with
      | literal => exact Text.ofNat_injective (by simpa [name] using same)
      | escaped => exact (unstarred (by simpa [name] using same.symm)).elim
  | escaped =>
      cases other with
      | literal => exact (unstarred (by simpa [name] using same)).elim
      | escaped => exact Text.ofNat_injective (by simpa [name] using same)

theorem entry_injective (same : piece.entry base first = other.entry base second) :
    first = second ∧ piece = other := by
  obtain ⟨sameName, sameValue⟩ := Prod.mk.inj same
  obtain rfl := number_of_name sameName
  refine ⟨rfl, ?_⟩
  cases piece with
  | literal =>
      cases other with
      | literal => exact congrArg literal sameValue
      | escaped => simp [name] at sameName
  | escaped =>
      cases other with
      | literal => simp [name] at sameName
      | escaped => exact congrArg escaped sameValue

theorem name_eq (base : Text) (number : Nat) (piece : ExtendedPiece) :
    ∃ rest, piece.name base number = base ++ '*' :: rest := by
  cases piece with
  | literal => exact ⟨_, rfl⟩
  | escaped => exact ⟨_, List.append_assoc _ _ _⟩

theorem lower_name (lower : base.lower = base) (number : Nat) (piece : ExtendedPiece) :
    Text.lower (piece.name base number) = piece.name base number := by
  have star : Char.toLower '*' = '*' := by decide
  have literal : Text.lower (base ++ '*' :: Text.ofNat number) =
      base ++ '*' :: Text.ofNat number := by
    rw [Text.lower, List.map_append, List.map_cons, star, ← Text.lower, ← Text.lower, lower,
      Text.lower_ofNat]
  cases piece with
  | literal => exact literal
  | escaped =>
      rw [name, Text.lower, List.map_append, ← Text.lower, literal, List.map_singleton, star]

end ExtendedPiece

namespace Params

variable {codec : Codec} {params : Params} {base : Text} {run : List ExtendedPiece}

/-- The parameters that a run of pieces is written as. -/
def ofRun (base : Text) (run : List ExtendedPiece) : List (Text × Text) :=
  run.mapIdx fun number piece => piece.entry base number

theorem mem_ofRun {entry : Text × Text} :
    entry ∈ ofRun base run ↔
      ∃ number, ∃ piece : ExtendedPiece, run[number]? = some piece ∧
        piece.entry base number = entry := by
  rw [ofRun, List.mem_mapIdx]
  constructor
  · rintro ⟨number, bound, rfl⟩
    exact ⟨number, _, List.getElem?_eq_getElem bound, rfl⟩
  · rintro ⟨number, piece, found, rfl⟩
    obtain ⟨bound, rfl⟩ := List.getElem?_eq_some_iff.mp found
    exact ⟨number, bound, rfl⟩

theorem entry_mem_ofRun {number : Nat} {piece : ExtendedPiece} :
    piece.entry base number ∈ ofRun base run ↔ run[number]? = some piece := by
  refine mem_ofRun.trans ⟨?_, fun found => ⟨number, piece, found, rfl⟩⟩
  rintro ⟨other, found, here, same⟩
  obtain ⟨rfl, rfl⟩ := ExtendedPiece.entry_injective same
  exact here

theorem eq_of_mem_ofRun {entry other : Text × Text} (here : entry ∈ ofRun base run)
    (there : other ∈ ofRun base run) (same : entry.1 = other.1) : entry = other := by
  obtain ⟨number, piece, found, rfl⟩ := mem_ofRun.mp here
  obtain ⟨number', piece', found', rfl⟩ := mem_ofRun.mp there
  obtain rfl := ExtendedPiece.number_of_name same
  rw [Option.some.inj (found.symm.trans found')]

theorem nodup_ofRun (base : Text) (run : List ExtendedPiece) : (ofRun base run).Nodup := by
  refine List.pairwise_iff_getElem.mpr fun first second _ _ less same => ?_
  simp only [ofRun, List.getElem_mapIdx] at same
  exact absurd (ExtendedPiece.entry_injective same).1 (Nat.ne_of_lt less)

/-- A piece is looked up under its name, and an escaped one counts only if there is no literal one
with its number. -/
theorem piece?_eq_some_iff {number : Nat} {piece : ExtendedPiece} :
    params.piece? base number = some piece ↔
      params.get? (piece.name base number) = some piece.value ∧
        ∀ value, piece = .escaped value → params.get? (base ++ '*' :: Text.ofNat number) = none := by
  cases piece with
  | literal value =>
      cases literal : params.get? (base ++ '*' :: Text.ofNat number) <;>
        simp [piece?, ExtendedPiece.name, ExtendedPiece.value, literal]
  | escaped value =>
      cases literal : params.get? (base ++ '*' :: Text.ofNat number) with
      | some other => simp [piece?, literal]
      | none => simp [piece?, ExtendedPiece.name, ExtendedPiece.value, literal]

theorem piece?_eq_none_iff {number : Nat} :
    params.piece? base number = none ↔
      ∀ piece : ExtendedPiece, params.get? (piece.name base number) = none := by
  have names : (∀ piece : ExtendedPiece, params.get? (piece.name base number) = none) ↔
      params.get? (base ++ '*' :: Text.ofNat number) = none ∧
        params.get? (base ++ '*' :: Text.ofNat number ++ ['*']) = none := by
    refine ⟨fun absent => ⟨absent (.literal []), absent (.escaped [])⟩, ?_⟩
    rintro ⟨literal, escaped⟩ (_ | _)
    · exact literal
    · exact escaped
  rw [names, piece?]
  cases params.get? (base ++ '*' :: Text.ofNat number) <;> simp

/-- A piece that is found is one of the parameters. -/
theorem mem_of_piece? {number : Nat} {piece : ExtendedPiece}
    (found : params.piece? base number = some piece) : piece.entry base number ∈ params :=
  mem_of_get? (piece?_eq_some_iff.mp found).1

theorem exists_piece?_of_mem_pieces {piece : ExtendedPiece} (member : piece ∈ params.pieces base) :
    ∃ number, params.piece? base number = some piece := by
  obtain ⟨found, among, same⟩ := List.mem_filterMap.mp member
  obtain rfl : found = some piece := same
  obtain ⟨number, -, held⟩ := List.mem_map.mp ((List.takeWhile_sublist _).subset among)
  exact ⟨number, held⟩

/-- The parameters that stand under a base name, with a star behind it and anything behind that. -/
def under (params : Params) (base : Text) : Params :=
  params.filter fun param => (base ++ ['*']).isPrefixOf param.1

theorem mem_under {param : Text × Text} :
    param ∈ params.under base ↔ param ∈ params ∧ ∃ rest, param.1 = base ++ '*' :: rest := by
  rw [under, List.mem_filter, List.isPrefixOf_iff_prefix]
  refine and_congr_right fun _ => exists_congr fun rest => ?_
  rw [List.append_assoc, List.singleton_append, eq_comm]

/-- Each piece of the run is found under its number. -/
def Finds (params : Params) (base : Text) (run : List ExtendedPiece) : Prop :=
  ∀ number piece, run[number]? = some piece → params.piece? base number = some piece

/-- Pieces that are found are parameters, and each of them is another one. -/
theorem Finds.ofRun_subperm (finds : params.Finds base run) :
    (ofRun base run).Subperm (params.under base) := by
  refine List.subperm_of_subset (nodup_ofRun base run) fun entry member => ?_
  obtain ⟨number, piece, here, rfl⟩ := mem_ofRun.mp member
  exact mem_under.mpr ⟨mem_of_piece? (finds number piece here), piece.name_eq base number⟩

/-- There are no more pieces than parameters under the name. -/
theorem Finds.length_le (finds : params.Finds base run) :
    run.length ≤ (params.under base).length := by
  have bound := finds.ofRun_subperm.length_le
  rwa [ofRun, List.length_mapIdx] at bound

theorem takeWhile_isSome_range {α : Type} (find : Nat → Option α) (items : List α) {count : Nat}
    (agrees : ∀ number ≤ items.length, find number = items[number]?)
    (enough : items.length ≤ count) :
    (((List.range count).map find).takeWhile Option.isSome).filterMap id = items := by
  induction items generalizing count find with
  | nil =>
      have absent : find 0 = none := agrees 0 (Nat.le_refl 0)
      cases count <;> simp [List.range_succ_eq_map, absent]
  | cons item items ih =>
      obtain ⟨count, rfl⟩ := Nat.exists_eq_add_of_le' (Nat.le_trans (Nat.le_add_left 1 _) enough)
      have first : find 0 = some item := agrees 0 (Nat.zero_le _)
      have later := ih (fun number => find (number + 1))
        (fun number le => agrees (number + 1) (Nat.succ_le_succ le)) (Nat.le_of_succ_le_succ enough)
      simp only [List.range_succ_eq_map, List.map_cons, List.map_map, List.takeWhile_cons,
        Function.comp_def, first, Option.isSome_some, if_true, List.filterMap_cons, id] at later ⊢
      rw [later]

/-- A run is found whole if it ends where a number has no piece. -/
theorem pieces_eq_of_piece?
    (found : ∀ number ≤ run.length, params.piece? base number = run[number]?) :
    params.pieces base = run := by
  have finds : params.Finds base run := fun number piece here =>
    (found number (Nat.le_of_lt (List.getElem?_eq_some_iff.mp here).1)).trans here
  exact takeWhile_isSome_range _ run found (Nat.le_trans finds.length_le (List.length_filter_le _ _))

/-- The name of a value that can be assembled has that value. -/
theorem get?_assemble_of_extended? {text : Text} (member : base ∈ params.extendedNames)
    (found : params.extended? codec base = some text) :
    (params.assemble codec).get? base = some text := by
  obtain ⟨front, back, split⟩ := List.append_of_mem member
  rw [assemble, split, List.foldl_append, List.foldl_cons, found]
  refine List.foldlRecOn (motive := fun assembled : Params => assembled.get? base = some text)
    back _ (get?_insert_self _ _ _) fun assembled held other _ => ?_
  by_cases same : other = base
  · simp only [same, found, get?_insert_self]
  · cases params.extended? codec other with
    | none => exact held
    | some value => exact (get?_insert_of_ne value assembled (Ne.symm same)).trans held

/-- A name with a star and anything behind it makes what stands in front a base name. -/
theorem mem_extendedNames_of_mem {rest value : Text} (nonempty : base ≠ []) (plain : '*' ∉ base)
    (member : (base ++ '*' :: rest, value) ∈ params) : base ∈ params.extendedNames := by
  refine List.mem_filter.mpr ⟨List.mem_filterMap.mpr ⟨_, member, ?_⟩, by simpa using nonempty⟩
  rw [Text.cut?_append rest plain, Option.map_some]

/-- What has an extended value is a base name. -/
theorem mem_extendedNames_of_extended? {text : Text} (nonempty : base ≠ []) (plain : '*' ∉ base)
    (found : params.extended? codec base = some text) : base ∈ params.extendedNames := by
  rw [extended?] at found
  split at found
  · next value single => exact mem_extendedNames_of_mem nonempty plain (mem_of_get? single)
  · cases run : params.pieces base with
    | nil =>
        rw [run] at found
        contradiction
    | cons piece later =>
        obtain ⟨number, here⟩ := exists_piece?_of_mem_pieces (run ▸ List.mem_cons_self)
        have member := mem_of_piece? here
        obtain ⟨rest, named⟩ := piece.name_eq base number
        rw [ExtendedPiece.entry, named] at member
        exact mem_extendedNames_of_mem nonempty plain member

/-- What a name stands for when parameters are assembled: its extended value if it has one, and
otherwise the value that it was given. -/
theorem get?_assemble_eq (nonempty : base ≠ []) (plain : '*' ∉ base) :
    (params.assemble codec).get? base = (params.extended? codec base).or (params.get? base) := by
  cases found : params.extended? codec base with
  | none => rw [get?_assemble plain found, Option.none_or]
  | some text =>
      rw [get?_assemble_of_extended? (mem_extendedNames_of_extended? nonempty plain found) found,
        Option.some_or]

/-- The parameters are those of the run. -/
def Holds (params : Params) (base : Text) (run : List ExtendedPiece) : Prop :=
  ∀ name value, params.get? name = some value ↔ (name, value) ∈ ofRun base run

namespace Holds

variable (holds : params.Holds base run)

include holds

theorem get?_name (number : Nat) (piece : ExtendedPiece) :
    params.get? (piece.name base number) = some piece.value ↔ run[number]? = some piece :=
  (holds _ _).trans entry_mem_ofRun

/-- A piece is found under its number, and nothing is found behind the last one. -/
theorem piece?_eq (number : Nat) : params.piece? base number = run[number]? := by
  refine Option.ext fun piece => ?_
  rw [piece?_eq_some_iff, holds.get?_name number piece, and_iff_left_iff_imp]
  rintro here value rfl
  refine Option.eq_none_iff_forall_ne_some.mpr fun other literal => ?_
  have there := (holds.get?_name number (.literal other)).mp literal
  exact nomatch here.symm.trans there

theorem pieces_eq : params.pieces base = run :=
  pieces_eq_of_piece? fun number _ => holds.piece?_eq number

/-- Every name is the base name with something behind a star. -/
theorem name_of_mem {param : Text × Text} (member : param ∈ params) :
    ∃ rest, param.1 = base ++ '*' :: rest := by
  cases found : params.get? param.1 with
  | none => exact absurd rfl (ne_of_get?_eq_none found member)
  | some value =>
      obtain ⟨number, piece, -, same⟩ := mem_ofRun.mp ((holds _ _).mp found)
      obtain ⟨rest, named⟩ := piece.name_eq base number
      exact ⟨rest, (Prod.mk.inj same).1.symm.trans named⟩

/-- No piece stands under the name of a value that is whole. -/
theorem get?_whole : params.get? (base ++ ['*']) = none := by
  cases found : params.get? (base ++ ['*']) with
  | none => rfl
  | some value =>
      obtain ⟨number, piece, -, same⟩ := mem_ofRun.mp ((holds _ _).mp found)
      have digits : Text.ofNat number ≠ [] := Nat.toDigits_ne_nil
      cases piece <;> simp [ExtendedPiece.entry, ExtendedPiece.name, digits] at same

theorem extended?_eq : params.extended? codec base = ExtendedPiece.join? codec run := by
  rw [extended?, holds.get?_whole, holds.pieces_eq]

theorem cut?_of_mem (plain : '*' ∉ base) {param : Text × Text} (member : param ∈ params) :
    (Text.cut? '*' param.1).map Prod.fst = some base := by
  obtain ⟨rest, named⟩ := holds.name_of_mem member
  rw [named, Text.cut?_append rest plain, Option.map_some]

theorem eq_of_mem_extendedNames (plain : '*' ∉ base) {other : Text}
    (isOther : other ∈ params.extendedNames) : other = base := by
  obtain ⟨param, member, cut⟩ := List.mem_filterMap.mp (List.mem_filter.mp isOther).1
  exact Option.some.inj (cut.symm.trans (holds.cut?_of_mem plain member))

theorem mem_extendedNames (nonempty : base ≠ []) (plain : '*' ∉ base) {first : ExtendedPiece}
    (leads : run[0]? = some first) : base ∈ params.extendedNames := by
  have member := mem_of_get? ((holds.get?_name 0 first).mpr leads)
  obtain ⟨rest, named⟩ := first.name_eq base 0
  exact mem_extendedNames_of_mem nonempty plain (named ▸ member)

/-- A run of pieces that can be joined is all that is assembled. -/
theorem assemble_eq (nonempty : base ≠ []) (plain : '*' ∉ base) {text : Text}
    (joined : ExtendedPiece.join? codec run = some text) : params.assemble codec = [(base, text)] := by
  have extended : params.extended? codec base = some text := holds.extended?_eq.trans joined
  have isBase : base ∈ params.extendedNames := by
    cases run with
    | nil => contradiction
    | cons first later => exact holds.mem_extendedNames nonempty plain rfl
  have all : params.assemble codec = [] ∨ params.assemble codec = [(base, text)] := by
    refine assemble_induction (motive := fun assembled =>
      assembled = [] ∨ assembled = [(base, text)]) (.inl ?_) ?_
    · refine List.filter_eq_nil_iff.mpr fun param member => ?_
      obtain ⟨rest, named⟩ := holds.name_of_mem member
      simp [named]
    · intro other isOther value found assembled held
      obtain rfl := holds.eq_of_mem_extendedNames plain isOther
      obtain rfl : text = value := Option.some.inj (extended.symm.trans found)
      rcases held with rfl | rfl
      · exact .inr rfl
      · exact .inr (if_pos rfl)
  rcases all with nothing | only
  · have held := get?_assemble_of_extended? isBase extended
    rw [nothing] at held
    contradiction
  · exact only

end Holds

end Params

end LenientMime
