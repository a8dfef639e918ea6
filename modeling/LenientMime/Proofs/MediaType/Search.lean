import LenientMime.Proofs.MediaType.Pieces

namespace LenientMime

/-! The search for numbered pieces.

Pieces are looked for under one number after the other, with no bound set, until a number has none.
The search ends all the same: each round takes a parameter that no other round takes, so that there
are no more rounds than parameters under the name.  What it has taken by then is the longest run of
pieces from zero on, and what it has put together on the way is the value of the name.
-/

/-- What a search has put together when it comes to a number, and the pieces that it took for
that. -/
structure Gathered where
  number : Nat := 0
  label? : Option Text := none
  bytes : Bytes := []
  found : Bool := false
  taken : List ExtendedPiece := []
deriving DecidableEq, Repr

namespace Gathered

/-- The piece with the number zero may name the charset, and any other one is only bytes. -/
def take (gathered : Gathered) (piece : ExtendedPiece) : Gathered :=
  let read := if gathered.number = 0 then piece.firstBytes else (none, piece.laterBytes)
  { number := gathered.number + 1
    label? := read.1.or gathered.label?
    bytes := gathered.bytes ++ read.2
    found := true
    taken := gathered.taken ++ [piece] }

def value? (codec : Codec) (gathered : Gathered) : Option Text :=
  if gathered.found then
    match gathered.label? with
    | some label => codec.convert? label gathered.bytes
    | none => some (Utf8.decodeLossy gathered.bytes)
  else none

/-- What is put together from a run of pieces. -/
def ofRun : List ExtendedPiece → Gathered
  | [] => {}
  | first :: later => {
      number := later.length + 1
      label? := first.firstBytes.1
      bytes := first.firstBytes.2 ++ later.flatMap ExtendedPiece.laterBytes
      found := true
      taken := first :: later }

theorem number_ofRun (run : List ExtendedPiece) : (ofRun run).number = run.length := by
  cases run <;> rfl

theorem taken_ofRun (run : List ExtendedPiece) : (ofRun run).taken = run := by
  cases run <;> rfl

theorem take_ofRun (run : List ExtendedPiece) (piece : ExtendedPiece) :
    (ofRun run).take piece = ofRun (run ++ [piece]) := by
  cases run <;> simp [ofRun, take]

theorem value?_ofRun (codec : Codec) (run : List ExtendedPiece) :
    (ofRun run).value? codec = ExtendedPiece.join? codec run := by
  cases run <;> rfl

end Gathered

namespace Params

variable {params : Params} {base : Text} {run : List ExtendedPiece}

/-- A search from one state to the one in which it ends.  It goes on for as long as there is a piece;
nothing but a number without one ends it. -/
inductive Search (params : Params) (base : Text) : Gathered → Gathered → Prop
  | ends {gathered : Gathered} (absent : params.piece? base gathered.number = none) :
      Search params base gathered gathered
  | goesOn {gathered last : Gathered} {piece : ExtendedPiece}
      (present : params.piece? base gathered.number = some piece)
      (later : Search params base (gathered.take piece) last) : Search params base gathered last

/-- A search comes to one end only. -/
theorem Search.unique {gathered last other : Gathered} (search : params.Search base gathered last)
    (again : params.Search base gathered other) : other = last := by
  induction search with
  | ends absent =>
      cases again with
      | ends => rfl
      | goesOn present later => exact nomatch absent.symm.trans present
  | goesOn present later ih =>
      cases again with
      | ends absent => exact nomatch absent.symm.trans present
      | goesOn presentToo laterToo =>
          obtain rfl := Option.some.inj (present.symm.trans presentToo)
          exact ih laterToo

/-- The longest run of pieces from zero on.  Each piece stands under its number, the literal one if
there are both, and under the number behind the last one there is none. -/
structure IsLongestRun (params : Params) (base : Text) (run : List ExtendedPiece) : Prop where
  stands : ∀ number (piece : ExtendedPiece), run[number]? = some piece →
    params.get? (piece.name base number) = some piece.value
  literalFirst : ∀ number value, run[number]? = some (.escaped value) →
    params.get? (base ++ '*' :: Text.ofNat number) = none
  ends : ∀ piece : ExtendedPiece, params.get? (piece.name base run.length) = none

theorem Finds.append {piece : ExtendedPiece} (finds : params.Finds base run)
    (next : params.piece? base run.length = some piece) : params.Finds base (run ++ [piece]) := by
  intro number other here
  rcases Nat.lt_trichotomy number run.length with inside | rfl | beyond
  · rw [List.getElem?_append_left inside] at here
    exact finds number other here
  · rw [List.getElem?_concat_length] at here
    exact next.trans here
  · have bound := (List.getElem?_eq_some_iff.mp here).1
    rw [List.length_append, List.length_singleton] at bound
    omega

theorem isLongestRun_iff :
    params.IsLongestRun base run ↔
      params.Finds base run ∧ params.piece? base run.length = none := by
  constructor
  · intro longest
    refine ⟨fun number piece here => ?_, piece?_eq_none_iff.mpr longest.ends⟩
    refine piece?_eq_some_iff.mpr ⟨longest.stands number piece here, ?_⟩
    rintro value rfl
    exact longest.literalFirst number value here
  · rintro ⟨finds, absent⟩
    exact {
      stands := fun number piece here => (piece?_eq_some_iff.mp (finds number piece here)).1
      literalFirst := fun number value here =>
        (piece?_eq_some_iff.mp (finds number _ here)).2 value rfl
      ends := piece?_eq_none_iff.mp absent }

/-- There is one longest run only. -/
theorem IsLongestRun.pieces_eq (longest : params.IsLongestRun base run) :
    params.pieces base = run := by
  obtain ⟨finds, absent⟩ := isLongestRun_iff.mp longest
  refine pieces_eq_of_piece? fun number le => ?_
  rcases Nat.lt_or_eq_of_le le with inside | rfl
  · rw [List.getElem?_eq_getElem inside]
    exact finds number _ (List.getElem?_eq_getElem inside)
  · rw [absent, List.getElem?_eq_none (Nat.le_refl _)]

theorem Search.of_absent (absent : params.piece? base run.length = none) :
    params.Search base (.ofRun run) (.ofRun run) :=
  .ends (by rwa [Gathered.number_ofRun])

theorem Search.of_present {piece : ExtendedPiece} {last : Gathered}
    (present : params.piece? base run.length = some piece)
    (later : params.Search base (.ofRun (run ++ [piece])) last) :
    params.Search base (.ofRun run) last :=
  .goesOn (by rwa [Gathered.number_ofRun]) (by rwa [Gathered.take_ofRun])

/-- A search that has found each piece of a run ends.  Every round that goes on leaves one parameter
less for those that may follow. -/
theorem Finds.exists_search {left : Nat} (finds : params.Finds base run)
    (enough : (params.under base).length < run.length + left) :
    ∃ whole, params.Search base (.ofRun run) (.ofRun whole) ∧ params.IsLongestRun base whole := by
  induction left generalizing run with
  | zero =>
      -- So many pieces cannot have been found, since no parameter is found under two numbers.
      exact absurd finds.length_le (Nat.not_le_of_lt enough)
  | succ left ih =>
      cases next : params.piece? base run.length with
      | none => exact ⟨run, .of_absent next, isLongestRun_iff.mpr ⟨finds, next⟩⟩
      | some piece =>
          have fewer : (params.under base).length < (run ++ [piece]).length + left := by
            rw [List.length_append, List.length_singleton]
            omega
          obtain ⟨whole, later, longest⟩ := ih (finds.append next) fewer
          exact ⟨whole, .of_present next later, longest⟩

/-- The search ends, and at a number that is no greater than the number of the parameters under the
name.  What it takes is just the longest run of pieces from zero on, each of them another parameter.
What it puts together is what the name stands for, unless a whole value is given. -/
theorem search_ends (codec : Codec) (params : Params) (base : Text) :
    ∃ last, params.Search base {} last ∧ (∀ other, params.Search base {} other → other = last) ∧
      last.number = last.taken.length ∧ last.number ≤ (params.under base).length ∧
      (∀ run, params.IsLongestRun base run ↔ run = last.taken) ∧
      (ofRun base last.taken).Subperm (params.under base) ∧
      params.pieces base = last.taken ∧
      params.extended? codec base =
        (params.get? (base ++ ['*'])).elim (last.value? codec) (decodeExtended? codec) := by
  have nothing : params.Finds base [] := fun _ _ here => by simp at here
  have enough : (params.under base).length <
      ([] : List ExtendedPiece).length + ((params.under base).length + 1) := by
    simp
  obtain ⟨whole, search, longest⟩ := nothing.exists_search enough
  have finds : params.Finds base whole := (isLongestRun_iff.mp longest).1
  have pieces : params.pieces base = whole := longest.pieces_eq
  refine ⟨.ofRun whole, search, fun _ again => search.unique again, ?_⟩
  rw [Gathered.number_ofRun, Gathered.taken_ofRun, Gathered.value?_ofRun]
  refine ⟨rfl, finds.length_le, fun run => ⟨fun other => ?_, fun same => same ▸ longest⟩,
    finds.ofRun_subperm, pieces, ?_⟩
  · exact other.pieces_eq.symm.trans pieces
  · rw [extended?, pieces]
    cases params.get? (base ++ ['*']) <;> rfl

/-- Both forms under one number, a number with a zero in front, and a number behind a gap. -/
def gapped : Params :=
  [("n*0*".toList, "UTF-8''%C3%A9".toList), ("n*00".toList, "zero".toList),
    ("n*1".toList, " b".toList), ("n*1*".toList, "c".toList), ("n*3".toList, "d".toList),
    ("title".toList, "t".toList)]

theorem search_ends_gapped :
    ∃ last, gapped.Search "n".toList {} last ∧ last.number = 2 ∧
      (gapped.under "n".toList).length = 5 ∧
      last.taken = [.escaped "UTF-8''%C3%A9".toList, .literal " b".toList] ∧
      last.value? .standard = some "é b".toList := by
  obtain ⟨last, search, -, number, -, -, -, pieces, value⟩ := search_ends .standard gapped "n".toList
  have run : gapped.pieces "n".toList =
      [.escaped "UTF-8''%C3%A9".toList, .literal " b".toList] := by
    decide
  have noWhole : gapped.get? ("n".toList ++ ['*']) = none := by decide
  have read : gapped.extended? .standard "n".toList = some "é b".toList := by decide +kernel
  rw [noWhole, Option.elim_none, read] at value
  rw [run] at pieces
  rw [← pieces] at number
  exact ⟨last, search, number, by decide, pieces.symm, value.symm⟩

end Params

end LenientMime
