import LenientMime.Proofs.Multipart.Sight

namespace LenientMime.Multipart.PartReader

open Bytes

/-! Callers that try again.

A call that fails can be made again.  A read keeps what it has found, and reading away the
rest of a part goes on where it stopped, so nothing is lost there.  A line that fails while
the next part is being opened is lost up to the place of the failure.  Before the first part
any line can be lost so.  This does no harm where no boundary line is torn and no rest of a
line is taken for one.  Behind a part the reader takes boundary lines alone, and it has
looked at their front before.
-/

/-- The body from a boundary line on that the caller cannot pass before a part is open.  The
line stands behind a line feed, or at the front of the body and the caller does not begin with
a read. -/
def Entrance (boundary : Text) (calls : List Call) (body bytes : Bytes) : Prop :=
  opensBoundary boundary (lines bytes) = true ∧
    (Byte.lineFeed :: bytes <:+ body ∨ bytes = body ∧ calls.head? = some .next)

/-- No boundary line goes with the lost front of a line, and none comes of the rest. -/
def Plain (boundary : Text) (lost left : Bytes) : Prop :=
  opensBoundary boundary (lines (lost ++ left)) = false ∧
    opensBoundary boundary (lines left) = false

/-- A part is open here, and the reader has looked beyond the failure: if a boundary line
begins here, it fails within the delimiter and the two bytes behind it. -/
def Foreseen (boundary : Text) (calls : List Call) (body lost left : Bytes) : Prop :=
  (∃ earlier, Entrance boundary calls body earlier ∧ lost ++ left <:+ earlier ∧
      lost ++ left ≠ earlier) ∧
    (Byte.lineFeed :: (lost ++ left) <:+ body →
      opensBoundary boundary (lines (lost ++ left)) = true →
      lost.length < (delimiter boundary).length + 2)

/-- Whatever part of a line could be lost in front of these bytes of the body, it is not
missed, or it is not lost. -/
def Harmless (boundary : Text) (calls : List Call) (body left : Bytes) : Prop :=
  ∀ lost, lost ≠ [] → Byte.lineFeed ∉ lost → lost ++ left <:+ body →
    Plain boundary lost left ∨ Foreseen boundary calls body lost left

section Decisions

variable (boundary : Text) (calls : List Call) (body lost left bytes : Bytes)

instance : Decidable (Entrance boundary calls body bytes) :=
  inferInstanceAs (Decidable (_ ∧ _))

instance : Decidable (Plain boundary lost left) :=
  inferInstanceAs (Decidable (_ ∧ _))

variable {boundary calls body bytes} in
theorem Entrance.within (entrance : Entrance boundary calls body bytes) : bytes <:+ body := by
  rcases entrance.2 with behind | ⟨rfl, -⟩
  · exact (List.suffix_cons _ _).trans behind
  · exact List.suffix_refl _

instance : Decidable (Foreseen boundary calls body lost left) :=
  decidable_of_iff
    ((∃ earlier ∈ body.tails, Entrance boundary calls body earlier ∧ lost ++ left <:+ earlier ∧
        lost ++ left ≠ earlier) ∧
      (Byte.lineFeed :: (lost ++ left) <:+ body →
        opensBoundary boundary (lines (lost ++ left)) = true →
        lost.length < (delimiter boundary).length + 2)) <| by
    refine and_congr_left fun _ => exists_congr fun earlier => ?_
    rw [List.mem_tails]
    exact and_iff_right_of_imp fun shape => shape.1.within

instance : Decidable (Harmless boundary calls body left) :=
  decidable_of_iff
    (∀ tail ∈ body.tails, ∀ lost ∈ tail.inits, lost ++ left = tail → lost ≠ [] →
      Byte.lineFeed ∉ lost →
      Plain boundary lost left ∨ Foreseen boundary calls body lost left) <| by
    simp only [List.mem_tails, List.mem_inits]
    constructor
    · exact fun spared lost some unbroken within =>
        spared _ within lost (List.prefix_append lost left) rfl some unbroken
    · rintro spared _ within lost - rfl some unbroken
      exact spared lost some unbroken within

end Decisions

variable {boundary : Text} {calls : List Call} {body bytes earlier lost left : Bytes}

theorem lines_append_unbroken {line : Bytes} {later : List Bytes}
    (unbroken : Byte.lineFeed ∉ lost) (cut : lines left = line :: later) :
    lines (lost ++ left) = (lost ++ line) :: later := by
  induction lost with
  | nil => exact cut
  | cons byte lost ih =>
      obtain ⟨here, behind⟩ := List.ne_and_not_mem_of_not_mem_cons unbroken
      exact lines_cons (Ne.symm here) (ih behind)

/-- The lost front of a line goes with the first of the lines that are left. -/
theorem exists_lines_of_lost (left : Bytes) (some : lost ≠ []) (unbroken : Byte.lineFeed ∉ lost) :
    ∃ line, lines (lost ++ left) = (lost ++ line) :: (lines left).tail := by
  cases cut : lines left with
  | nil =>
      obtain rfl := eq_nil_of_lines cut
      exact ⟨[], by rw [List.append_nil, lines_unbroken unbroken some]; rfl⟩
  | cons line later => exact ⟨line, lines_append_unbroken unbroken cut⟩

theorem lines_suffix_of_lineFeed (inside : Byte.lineFeed :: earlier <:+ bytes) :
    lines earlier <:+ lines bytes := by
  obtain ⟨front, rfl⟩ := inside
  refine ⟨lines (front ++ [Byte.lineFeed]), ?_⟩
  rw [← lines_append earlier (.inr (by simp)), List.append_assoc, List.singleton_append]

/-- An entrance begins a line wherever it is met. -/
theorem Entrance.lines_suffix (entrance : Entrance boundary calls body earlier)
    (within : bytes <:+ body) (inside : earlier <:+ bytes) : lines earlier <:+ lines bytes := by
  by_cases same : earlier = bytes
  · rw [same]
  · have shorter : earlier.length < bytes.length :=
      Nat.lt_of_not_le fun long => same (inside.eq_of_length_le long)
    rcases entrance.2 with behind | ⟨rfl, -⟩
    · exact lines_suffix_of_lineFeed (List.suffix_of_suffix_length_le behind within shorter)
    · exact absurd within.length_le (Nat.not_le_of_lt shorter)

/-- Losing the front of a plain line loses no boundary line. -/
theorem linesFrom_of_lost (some : lost ≠ []) (unbroken : Byte.lineFeed ∉ lost)
    (plain : Plain boundary lost left) :
    linesFrom boundary (lines left) = linesFrom boundary (lines (lost ++ left)) := by
  obtain ⟨line, whole⟩ := exists_lines_of_lost left some unbroken
  rw [linesFrom_of_plain whole plain.1]
  cases cut : lines left with
  | nil => rfl
  | cons first later => rw [← cut, linesFrom_of_plain cut plain.2, cut, List.tail_cons]

/-- The rest of a plain line holds what begins a line behind it. -/
theorem Entrance.suffix_of_lost (entrance : Entrance boundary calls body earlier)
    (some : lost ≠ []) (unbroken : Byte.lineFeed ∉ lost) (within : lost ++ left <:+ body)
    (plain : Plain boundary lost left) (inside : earlier <:+ lost ++ left) : earlier <:+ left := by
  obtain ⟨line, whole⟩ := exists_lines_of_lost left some unbroken
  have behind := entrance.lines_suffix within inside
  rw [whole] at behind
  rcases List.suffix_cons_iff.mp behind with same | later
  · have opens := entrance.1
    rw [same, ← whole, plain.1] at opens
    contradiction
  · have rest := (later.trans (List.tail_suffix _)).flatten
    rwa [flatten_lines, flatten_lines] at rest

section Memory

variable {twin stopped : PartReader Bytes} {place : Bytes} {failures : List Bytes}

theorem lineFeed_suffix_of_takeLine {line : Bytes} (unbroken : '\n' ∉ boundary)
    (taken : ByteSource.takeLine bytes = (.ok line, left))
    (kind : LineKind.of boundary line = .delimiter) : Byte.lineFeed :: left <:+ bytes := by
  have closed : line.getLast? = some Byte.lineFeed := by
    rw [LineKind.of_eq unbroken] at kind
    grind
  obtain ⟨text, rfl⟩ := List.getLast?_eq_some_iff.mp closed
  refine ⟨text, ?_⟩
  have cut := congrArg List.flatten (lines_of_takeLine taken (by simp))
  rwa [List.flatten_cons, flatten_lines, flatten_lines, List.append_assoc,
    List.singleton_append, eq_comm] at cut

theorem frame_openPart (twin : PartReader Bytes) :
    twin.openPart.2.boundary = twin.boundary ∧ twin.openPart.2.source <:+ twin.source := by
  fun_induction openPart twin with
  | case1 reader fault source taken =>
      rw [ByteSource.takeLine_slice] at taken
      simp at taken
  | case2 reader line source taken reader' kind ih
  | case6 reader line source taken reader' kind early ih =>
      exact ⟨ih.1, ih.2.trans (ByteSource.suffix_of_takeLine taken)⟩
  | case3 reader line source taken
  | case4 reader line source taken
  | case5 reader line source taken
  | case7 reader line source taken =>
      exact ⟨rfl, ByteSource.suffix_of_takeLine taken⟩

/-- A reader that has opened a part stands behind a line feed. -/
theorem awaits_openPart (unbroken : '\n' ∉ twin.boundary) (within : twin.source <:+ body) :
    twin.openPart.2.finished = true ∨
      twin.openPart.2.phase = .content true ∧ twin.openPart.2.partsRead ≠ 0 ∧
        Awaits twin.boundary body twin.openPart.2.exhausted.source := by
  fun_induction openPart twin with
  | case1 reader fault source taken =>
      rw [ByteSource.takeLine_slice] at taken
      simp at taken
  | case2 reader line source taken reader' kind ih
  | case6 reader line source taken reader' kind early ih =>
      exact ih unbroken ((ByteSource.suffix_of_takeLine taken).trans within)
  | case3 => exact .inl rfl
  | case4 reader line source taken reader' kind =>
      have behind : Byte.lineFeed :: source <:+ body :=
        (lineFeed_suffix_of_takeLine unbroken taken kind).trans within
      exact .inr ⟨rfl, Nat.succ_ne_zero _,
        awaits_cutContent unbroken ((List.suffix_cons _ _).trans behind) fun _ => behind⟩
  | case5 => exact .inl rfl
  | case7 => exact .inl rfl

theorem frame_atLines (twin : PartReader Bytes) :
    twin.atLines.boundary = twin.boundary ∧ twin.atLines.partsRead = twin.partsRead ∧
      twin.atLines.phase = .between ∧ twin.atLines.scanned = [] := by
  rw [atLines]
  split
  · exact ⟨rfl, rfl, rfl, rfl⟩
  · exact ⟨exhausted_boundary twin, exhausted_partsRead twin, rfl, rfl⟩

theorem atLines_source (opened : twin.partsRead ≠ 0) :
    twin.atLines.source = twin.exhausted.source := by
  rw [atLines, if_neg opened]

theorem atLines_source_suffix (twin : PartReader Bytes) : twin.atLines.source <:+ twin.source := by
  rw [atLines]
  split
  · exact List.suffix_refl _
  · exact ⟨_, unscanned_append_exhausted twin⟩

theorem exhausted_source_suffix (twin : PartReader Bytes) :
    twin.exhausted.source <:+ twin.atLines.source := by
  by_cases early : twin.partsRead = 0
  · rw [atLines, if_pos early]
    exact ⟨_, unscanned_append_exhausted twin⟩
  · rw [atLines_source early]

theorem atLines_between (twin : PartReader Bytes) (behind : twin.phase = .between)
    (fresh : twin.scanned = []) : twin.exhausted = twin ∧ twin.atLines = twin := by
  obtain ⟨source, boundary, scanned, phase, partsRead, finished, unbounded⟩ := twin
  obtain rfl : phase = .between := behind
  obtain rfl : scanned = [] := fresh
  refine ⟨rfl, ?_⟩
  rw [atLines]
  split <;> rfl

/-- The reader stands in the body.  Before the first part it has passed no entrance, behind a
part it awaits a boundary line, and no failure that is still to come does harm. -/
structure Spared (calls : List Call) (body : Bytes) (failures : List Bytes)
    (twin : PartReader Bytes) : Prop where
  unbroken : '\n' ∉ twin.boundary
  within : twin.atLines.source <:+ body
  early : twin.finished = false → twin.partsRead = 0 →
    ∀ earlier, Entrance twin.boundary calls body earlier → earlier <:+ twin.exhausted.source
  late : twin.finished = false → twin.partsRead ≠ 0 →
    Awaits twin.boundary body twin.exhausted.source
  harmless : ∀ place ∈ failures, Harmless twin.boundary calls body place

theorem Spared.tail {later : List Bytes} (spared : twin.Spared calls body (place :: later)) :
    twin.Spared calls body later :=
  { spared with harmless := (List.forall_mem_cons.mp spared.harmless).2 }

/-- Moving inside the open part, or the preamble, spares what was spared. -/
theorem Spared.moved (spared : twin.Spared calls body failures)
    (samePlace : stopped.exhausted = twin.exhausted)
    (within : twin.partsRead = 0 → stopped.source <:+ twin.source) :
    stopped.Spared calls body failures := by
  have sameBoundary := boundary_of_exhausted samePlace
  have sameCount := partsRead_of_exhausted samePlace
  have sameEnd := finished_of_exhausted samePlace
  refine ⟨sameBoundary ▸ spared.unbroken, ?_, ?_, ?_, sameBoundary ▸ spared.harmless⟩
  · by_cases early : twin.partsRead = 0
    · have inBody := spared.within
      rw [atLines, if_pos early] at inBody
      rw [atLines, if_pos (sameCount.trans early)]
      exact (within early).trans inBody
    · rw [atLines_source (sameCount ▸ early), samePlace, ← atLines_source early]
      exact spared.within
  · rw [sameEnd, sameCount, sameBoundary, samePlace]
    exact spared.early
  · rw [sameEnd, sameCount, sameBoundary, samePlace]
    exact spared.late

theorem Spared.halted (spared : twin.Spared calls body failures) (count : Nat) :
    (twin.halted count).Spared calls body failures :=
  spared.moved (exhausted_halted count twin) fun _ => ⟨_, scan_source count twin⟩

/-- Before the first part the reader passes no entrance. -/
theorem Spared.reaches (spared : twin.Spared calls body failures) (goesOn : twin.finished = false)
    (early : twin.partsRead = 0) (passes : twin.atLines.PassesTo left)
    (entrance : Entrance twin.boundary calls body earlier) : earlier <:+ left := by
  have sameBoundary := (frame_atLines twin).1
  have inside := (spared.early goesOn early earlier entrance).trans (exhausted_source_suffix twin)
  exact passes.reaches (sameBoundary ▸ spared.unbroken) (sameBoundary ▸ entrance.1)
    (entrance.lines_suffix spared.within inside)

theorem Spared.plain {later : List Bytes} (spared : twin.Spared calls body (place :: later))
    (goesOn : twin.finished = false) (early : twin.partsRead = 0) (inLine : Byte.lineFeed ∉ lost)
    (passes : twin.atLines.PassesTo (lost ++ place)) (some : lost ≠ []) :
    Plain twin.boundary lost place := by
  have harmless := (List.forall_mem_cons.mp spared.harmless).1
  refine (harmless lost some inLine (passes.suffix.trans spared.within)).resolve_right ?_
  rintro ⟨⟨earlier, entrance, inside, distinct⟩, -⟩
  exact distinct (inside.eq_of_length_le (spared.reaches goesOn early passes entrance).length_le)

/-- Before the first part the rest of a torn line opens what the line would have opened. -/
theorem Spared.resumes {later : List Bytes} (spared : twin.Spared calls body (place :: later))
    (goesOn : twin.finished = false) (early : twin.partsRead = 0) (inLine : Byte.lineFeed ∉ lost)
    (passes : twin.atLines.PassesTo (lost ++ place)) :
    { twin.atLines with source := place }.openPart =
        { twin.atLines with source := lost ++ place }.openPart ∧
      { twin.atLines with source := place }.Spared calls body later := by
  obtain ⟨sameBoundary, sameCount, behind, fresh⟩ := frame_atLines twin
  have unbroken : '\n' ∉ twin.atLines.boundary := sameBoundary ▸ spared.unbroken
  have inBody := passes.suffix.trans spared.within
  have plain := spared.plain goesOn early inLine passes
  obtain ⟨sameEnd, stays⟩ := atLines_between { twin.atLines with source := place } behind fresh
  have first : twin.atLines.partsRead = 0 := sameCount.trans early
  refine ⟨?_, unbroken, ?_, fun _ _ earlier entrance => ?_, fun _ opened => absurd first opened,
    sameBoundary ▸ spared.tail.harmless⟩
  · by_cases nothing : lost = []
    · rw [nothing, List.nil_append]
    · rw [openPart_slice { twin.atLines with source := place } unbroken (.inl first),
        openPart_slice { twin.atLines with source := lost ++ place } unbroken (.inl first)]
      refine opened_of_sameLines { twin.atLines with source := lost ++ place } ?_ (.inl rfl)
      exact linesFrom_of_lost nothing inLine (sameBoundary ▸ plain nothing)
  · rw [stays]
    exact (List.suffix_append lost place).trans inBody
  · rw [sameEnd]
    change Entrance twin.atLines.boundary calls body earlier at entrance
    rw [sameBoundary] at entrance
    have ahead := spared.reaches goesOn early passes entrance
    by_cases nothing : lost = []
    · rwa [nothing, List.nil_append] at ahead
    · exact entrance.suffix_of_lost nothing inLine inBody (plain nothing) ahead

/-- A tear behind the lead of a boundary line lies in the line itself. -/
theorem torn_eq_tail {lead tail : Bytes} (isLead : IsLead lead) (inLine : Byte.lineFeed ∉ lost)
    (inside : lost ++ left <:+ lead ++ tail) (reached : tail <:+ lost ++ left)
    (short : left.length < tail.length) : lost ++ left = tail := by
  obtain ⟨gap, same⟩ := reached
  obtain ⟨front, whole⟩ := inside
  rw [← same, ← List.append_assoc] at whole
  have ends := List.append_cancel_right whole
  obtain ⟨more, rfl, -⟩ : ∃ more, lost = gap ++ more ∧ tail = more ++ left := by
    rcases List.append_eq_append_iff.mp same with ⟨more, rfl, rest⟩ | ⟨more, rfl, rest⟩
    · exact ⟨more, rfl, rest⟩
    · rw [rest, List.length_append] at short
      omega
  obtain rfl : gap = [] := by
    by_contra some
    have last : lead.getLast? = gap.getLast? := by
      rw [← ends, List.getLast?_append_of_ne_nil _ some]
    rcases isLead.complete with rfl | closed
    · exact some (List.append_eq_nil_iff.mp ends).2
    · exact inLine (List.mem_append_left _ (List.mem_of_getLast? (last.symm.trans closed)))
  exact same.symm

/-- Where a boundary line is awaited and a failure lies beyond sight, the line that fails is the
boundary line, and it has lost more than was looked at. -/
theorem long_of_torn (unbroken : '\n' ∉ twin.boundary)
    (awaits : Awaits twin.boundary body twin.source)
    (ahead : ∃ seen, sight twin.boundary twin.source ≤ seen.length ∧ twin.source = seen ++ left)
    (inLine : Byte.lineFeed ∉ lost) (passes : twin.PassesTo (lost ++ left)) :
    Byte.lineFeed :: (lost ++ left) <:+ body ∧
      opensBoundary twin.boundary (lines (lost ++ left)) = true ∧
      (delimiter twin.boundary).length + 2 ≤ lost.length := by
  obtain ⟨seen, wide, whole⟩ := ahead
  rcases awaits with nothing | ⟨lead, tail, shape, isLead, inBody, opens⟩
  · rw [nothing] at whole
    obtain ⟨rfl, -⟩ := List.append_eq_nil_iff.mp whole.symm
    simp [sight] at wide
  · have reached : tail <:+ lost ++ left := by
      refine passes.reaches unbroken opens ?_
      rw [shape, lines_append tail isLead.complete]
      exact List.suffix_append _ _
    obtain ⟨rest, delimited⟩ := exists_delimiter_of_opensBoundary unbroken opens
    rw [shape, delimited, ← List.append_assoc, sight_delimiter isLead] at wide
    have lengths := congrArg List.length (shape.symm.trans whole)
    rw [List.length_append, List.length_append] at lengths
    have same := torn_eq_tail isLead inLine (shape ▸ passes.suffix) reached (by omega)
    have sum := congrArg List.length same
    rw [List.length_append] at sum
    exact ⟨same ▸ inBody, same ▸ opens, by omega⟩

/-- Behind a part no line is torn. -/
theorem Spared.untorn {later : List Bytes} (spared : twin.Spared calls body (place :: later))
    (goesOn : twin.finished = false) (opened : twin.partsRead ≠ 0)
    (ahead : ∃ seen, sight twin.boundary twin.exhausted.source ≤ seen.length ∧
      twin.exhausted.source = seen ++ place)
    (inLine : Byte.lineFeed ∉ lost) : ¬ twin.atLines.PassesTo (lost ++ place) := by
  intro passes
  have sameBoundary := (frame_atLines twin).1
  have awaits := spared.late goesOn opened
  rw [← atLines_source opened, ← sameBoundary] at ahead awaits
  obtain ⟨inBody, opens, long⟩ :=
    long_of_torn (sameBoundary ▸ spared.unbroken) awaits ahead inLine passes
  rw [sameBoundary] at opens long
  have some : lost ≠ [] := by
    rintro rfl
    simp at long
  have harmless := (List.forall_mem_cons.mp spared.harmless).1
  rcases harmless lost some inLine ((List.suffix_cons _ _).trans inBody) with plain | foreseen
  · rw [plain.1] at opens
    contradiction
  · exact Nat.not_lt_of_le long (foreseen.2 inBody opens)

theorem Spared.call (spared : twin.Spared calls body failures) (call : Call) :
    (twin.call call).2.Spared calls body failures := by
  cases call with
  | next =>
      simp only [PartReader.call, next_eq]
      split
      · exact spared
      · have sameBoundary := (frame_atLines twin).1
        obtain ⟨kept, within⟩ := frame_openPart twin.atLines
        have opened := awaits_openPart (sameBoundary ▸ spared.unbroken) spared.within
        rw [sameBoundary] at kept opened
        refine ⟨kept ▸ spared.unbroken,
          ((atLines_source_suffix _).trans within).trans spared.within,
          fun goesOn early => ?_, fun goesOn _ => ?_, kept ▸ spared.harmless⟩
        · rcases opened with ended | ⟨-, late, -⟩
          · simp [goesOn] at ended
          · exact absurd early late
        · rcases opened with ended | ⟨-, -, awaits⟩
          · simp [goesOn] at ended
          · exact kept ▸ awaits
  | read limit =>
      refine spared.moved (exhausted_read limit twin) fun _ => ?_
      rw [PartReader.call, read_eq]
      exact ⟨_, scan_source _ twin⟩

end Memory

section Again

variable {σ : Type} [ByteSource σ] {reader other : PartReader σ}

theorem insist_of_call {call : Call} (same : reader.call call = other.call call) (retries : Nat) :
    PartReader.insist call retries reader = PartReader.insist call retries other := by
  cases retries with
  | zero => exact same
  | succ retries => rw [PartReader.insist, PartReader.insist, same]

/-- A caller that begins with `next` skips the preamble, read or unread. -/
theorem runPatiently_cleared (early : reader.partsRead = 0) (goesOn : reader.finished = false)
    (retries : Nat) (later : List Call) :
    { reader with phase := .between, scanned := [] }.runPatiently retries (.next :: later) =
      reader.runPatiently retries (.next :: later) := by
  have same : { reader with phase := .between, scanned := [] }.next = reader.next := by
    simp only [PartReader.next, early, goesOn, Bool.false_eq_true, if_false, if_true]
  have sameCall : { reader with phase := .between, scanned := [] }.call .next =
      reader.call .next := by
    simp only [PartReader.call, same]
  rw [PartReader.runPatiently, PartReader.runPatiently, insist_of_call sameCall]

end Again

section Patient

variable {ρ : Type} [BlockReader ρ] {account : ρ → Bytes → List Bytes → Prop} {depth : Nat}
  {reader after : PartReader (Lookahead ρ)} {twin : PartReader Bytes} {failures : List Bytes}
  {retries : Nat}

/-- A reader over a window with a twin that is spared.  Behind an open part it watches for the
delimiter. -/
structure Safe (account : ρ → Bytes → List Bytes → Prop) (depth : Nat) (calls : List Call)
    (body : Bytes) (reader : PartReader (Lookahead ρ)) (twin : PartReader Bytes)
    (failures : List Bytes) : Prop where
  mirrors : Mirrors (Lookahead.Holds account depth) depth reader twin failures
  spared : twin.Spared calls body failures
  watches : twin.finished = false → twin.partsRead ≠ 0 → reader.Watches

/-- A call that comes through is the call over memory. -/
theorem Safe.call (faithful : BlockReader.Faithful account)
    (safe : Safe account depth calls body reader twin failures) {call : Call}
    (answered : (reader.call call).1.fault? = none) :
    (reader.call call).1 = (twin.call call).1 ∧
      Safe account depth calls body (reader.call call).2 (twin.call call).2 failures := by
  obtain ⟨same, mirrorsAfter⟩ :=
    safe.mirrors.call (Lookahead.faithful_holds faithful depth) answered
  refine ⟨same, mirrorsAfter, safe.spared.call call, fun goesOn opened => ?_⟩
  cases call with
  | next =>
      intro behind
      have inside : (twin.call .next).2.phase = .between := mirrorsAfter.phase_eq ▸ behind
      simp only [PartReader.call, next_eq] at goesOn inside
      split at goesOn
      · next ended => simp [ended] at goesOn
      · next going =>
        rw [if_neg going] at inside
        have sameBoundary := (frame_atLines twin).1
        rcases awaits_openPart (sameBoundary ▸ safe.spared.unbroken) safe.spared.within with
          ended | ⟨opens, -⟩
        · simp [goesOn] at ended
        · simp [inside] at opens
  | read limit =>
      have sameEnd := exhausted_read limit twin
      refine (safe.watches ?_ ?_).read rfl
      · exact (finished_of_exhausted sameEnd).symm.trans goesOn
      · exact partsRead_of_exhausted sameEnd ▸ opened

/-- Behind a part `next` fails only while the rest of the part is read away. -/
theorem Safe.lateFailure (faithful : BlockReader.Faithful account) {fault : Fault}
    (safe : Safe account depth calls body reader twin failures) (opened : twin.partsRead ≠ 0)
    (moved : reader.next = (.error (.stream fault), after)) :
    ∃ place later stopped, failures = place :: later ∧ twin.finished = false ∧
      stopped.exhausted = twin.exhausted ∧
      Mirrors (Lookahead.Holds account depth) depth after stopped later ∧ after.Watches := by
  have keeps := Lookahead.faithful_holds faithful depth
  rw [PartReader.next] at moved
  split at moved
  · simp at moved
  · next going =>
    rw [if_neg (safe.mirrors.partsRead_eq ▸ opened)] at moved
    have goesOn : twin.finished = false := by simpa [safe.mirrors.finished_eq] using going
    have watches := safe.watches goesOn opened
    split at moved
    · next fault' left discarded =>
      obtain ⟨-, rfl⟩ := Prod.mk.inj moved
      obtain ⟨place, later, stopped, spent, mirrorsAfter, samePlace⟩ :=
        safe.mirrors.discardFailure keeps discarded
      exact ⟨place, later, stopped, spent, goesOn, samePlace, mirrorsAfter,
        watches.discard discarded⟩
    · next left discarded =>
      have mirrorsLeft := safe.mirrors.discard keeps discarded
      obtain ⟨lost, place, later, inLine, passes, rfl, -⟩ :=
        mirrorsLeft.cleared.openPartFailure keeps moved
      have ahead := mirrorsLeft.ahead faithful (watches.discard discarded)
        (exhausted_phase twin) place (by simp)
      rw [exhausted_boundary] at ahead
      have behind : twin.atLines = { twin.exhausted with phase := .between, scanned := [] } :=
        if_neg opened
      exact absurd (behind ▸ passes) (safe.spared.untorn goesOn opened ahead inLine)

/-- A call that failed can be made again as if it were made for the first time. -/
theorem Safe.callFailure (faithful : BlockReader.Faithful account)
    (safe : Safe account depth calls body reader twin failures) {call : Call}
    (failed : (reader.call call).1.fault?.isSome) :
    ∃ place later stopped, failures = place :: later ∧
      Safe account depth calls body (reader.call call).2 stopped later ∧
      stopped.call call = twin.call call := by
  have keeps := Lookahead.faithful_holds faithful depth
  have spared := safe.spared
  cases call with
  | next =>
      obtain ⟨fault, failing⟩ := next_of_fault failed
      by_cases early : twin.partsRead = 0
      · obtain ⟨place, later, stopped, rfl, goesOn, back, mirrorsAfter⟩ :=
          safe.mirrors.nextFailure keeps failing
        cases back with
        | discarding opened => exact absurd early opened
        | opening lost inLine passes atOnce stops =>
            obtain ⟨sameOpening, sparedAfter⟩ := spared.resumes goesOn early inLine passes
            obtain ⟨-, sameCount, behind, fresh⟩ := frame_atLines twin
            obtain ⟨-, stays⟩ := atLines_between { twin.atLines with source := place } behind fresh
            have openEnded : twin.atLines.finished = false := (atLines_finished twin).trans goesOn
            subst stops
            refine ⟨place, later, _, rfl, ⟨mirrorsAfter, sparedAfter, fun _ opened => ?_⟩, ?_⟩
            · exact absurd (sameCount.trans early) opened
            · rw [PartReader.call, PartReader.call, next_eq, next_eq, if_neg (by simp [openEnded]),
                if_neg (by simp [goesOn]), stays, sameOpening, atOnce]
      · obtain ⟨place, later, stopped, rfl, goesOn, samePlace, mirrorsAfter, watches⟩ :=
          safe.lateFailure faithful early failing
        refine ⟨place, later, stopped, rfl, ⟨mirrorsAfter, ?_, fun _ _ => watches⟩, ?_⟩
        · exact spared.tail.moved samePlace fun impossible => absurd impossible early
        · rw [PartReader.call, PartReader.call, next_of_exhausted samePlace early goesOn]
  | read limit =>
      rcases reading : reader.read limit with ⟨fault | block, stopped⟩
      · obtain ⟨place, later, count, rfl, mirrorsAfter, same⟩ :=
          safe.mirrors.readFailure keeps reading
        have samePlace := exhausted_halted count twin
        simp only [PartReader.call, reading]
        refine ⟨place, later, _, rfl, ⟨mirrorsAfter, spared.tail.halted count,
          fun goesOn opened => (safe.watches ?_ ?_).read reading⟩, by rw [same]⟩
        · exact (finished_of_exhausted samePlace).symm.trans goesOn
        · exact partsRead_of_exhausted samePlace ▸ opened
      · simp [PartReader.call, reading, Answer.fault?] at failed

/-- A caller that makes a call again until it succeeds gets the answer that it would have
got at once. -/
theorem Safe.insist (faithful : BlockReader.Faithful account)
    (safe : Safe account depth calls body reader twin failures)
    (enough : failures.length ≤ retries) (call : Call) :
    ∃ later, later.length ≤ failures.length ∧
      (PartReader.insist call retries reader).1 = (twin.call call).1 ∧
      Safe account depth calls body (PartReader.insist call retries reader).2
        (twin.call call).2 later := by
  have keeps := Lookahead.faithful_holds faithful depth
  induction retries generalizing reader twin failures with
  | zero =>
      obtain rfl := List.eq_nil_of_length_eq_zero (Nat.le_zero.mp enough)
      obtain ⟨same, safeAfter⟩ := safe.call faithful (safe.mirrors.answered keeps call)
      exact ⟨[], Nat.le_refl _, same, safeAfter⟩
  | succ retries ih =>
      rw [PartReader.insist]
      split
      · next failed =>
        obtain ⟨place, behind, stopped, rfl, safeStopped, sameCall⟩ :=
          safe.callFailure faithful failed
        obtain ⟨later, fewer, same, safeAfter⟩ :=
          ih safeStopped (Nat.le_of_succ_le_succ enough)
        rw [sameCall] at same safeAfter
        exact ⟨later, Nat.le_succ_of_le fewer, same, safeAfter⟩
      · next answered =>
        obtain ⟨same, safeAfter⟩ := safe.call faithful (by simpa using answered)
        exact ⟨failures, Nat.le_refl _, same, safeAfter⟩

theorem Safe.runPatiently (faithful : BlockReader.Faithful account)
    (safe : Safe account depth calls body reader twin failures)
    (enough : failures.length ≤ retries) (asked : List Call) :
    (reader.runPatiently retries asked).1 = (twin.run asked).1 := by
  induction asked generalizing reader twin failures with
  | nil => rfl
  | cons call asked ih =>
      obtain ⟨later, fewer, same, safeAfter⟩ := safe.insist faithful enough call
      have enoughAfter := Nat.le_trans fewer enough
      have keeps := Lookahead.faithful_holds faithful depth
      have stands := safeAfter.mirrors.standing keeps enoughAfter
      rw [run_cons, PartReader.runPatiently]
      simp only [same, stands, ih safeAfter enoughAfter]

/-- Behind the preamble, unread, all entrances are still to come. -/
theorem spared_cleared {boundary : Text} (unbroken : '\n' ∉ boundary)
    (harmless : ∀ place ∈ failures, Harmless boundary calls body place) :
    { atFront body boundary with phase := .between, scanned := [] }.Spared calls body failures :=
  ⟨unbroken, atLines_source_suffix _, fun _ _ _ entrance => entrance.within,
    fun _ opened => absurd rfl opened, harmless⟩

/-- A caller that does not begin with `next` may read up to the first entrance. -/
theorem spared_atFront {boundary : Text} (unbroken : '\n' ∉ boundary)
    (first : calls.head? ≠ some .next)
    (harmless : ∀ place ∈ failures, Harmless boundary calls body place) :
    (atFront body boundary).Spared calls body failures := by
  refine ⟨unbroken, atLines_source_suffix _, fun _ _ earlier entrance => ?_,
    fun _ opened => absurd rfl opened, harmless⟩
  have behind := entrance.2.resolve_right fun front => first front.2
  exact (List.suffix_cons _ _).trans (suffix_cutContent unbroken entrance.1 behind)

/-- A patient caller sees over a stream that fails now and then what it sees over the body in
memory, if no failure that the reader cannot foresee tears a boundary line. -/
theorem runPatiently_eq_run_slice {boundary : Text} (unbroken : '\n' ∉ boundary)
    {script : Script} (gapless : script.Gapless) {calls : List Call}
    (harmless : ∀ place ∈ script.failures, Harmless boundary calls script.contents place)
    {capacity : Nat} (wide : peekDepth boundary ≤ capacity)
    (enough : script.failures.length ≤ retries) :
    ∃ reader memory, ofSource (Lookahead.ofCapacity capacity script) boundary = .ok reader ∧
      ofSource script.contents boundary = .ok memory ∧
      (reader.runPatiently retries calls).1 = (memory.run calls).1 := by
  refine ⟨_, _, ofSource_window _ wide, ofSource_slice _ _, ?_⟩
  have held : script.Holds script.contents script.failures := ⟨rfl, rfl, gapless⟩
  have mirrors := mirrors_window held wide
  by_cases first : calls.head? = some .next
  · obtain ⟨later, rfl⟩ := List.head?_eq_some_iff.mp first
    have safe : Safe _ _ (.next :: later) _ _ _ _ :=
      ⟨mirrors.cleared, spared_cleared unbroken harmless, fun _ opened => absurd rfl opened⟩
    have same := safe.runPatiently Script.faithful_holds enough (.next :: later)
    rwa [runPatiently_cleared rfl rfl, run, runPatiently_cleared rfl rfl] at same
  · have safe : Safe _ _ calls _ _ _ _ :=
      ⟨mirrors, spared_atFront unbroken first harmless, fun _ opened => absurd rfl opened⟩
    exact safe.runPatiently Script.faithful_holds enough calls

/-- Failures inside a line of the preamble, between two lines, inside content, inside the line
break and the delimiter of the second boundary line, and inside the terminator. -/
def shaky : Script :=
  ⟨[.data (Text.utf8 "pre".toList), .fault (.failed "reset".toList),
    .data (Text.utf8 "amble\n".toList), .fault (.failed "reset".toList),
    .data (Text.utf8 "--b\nx".toList), .fault (.failed "reset".toList),
    .data (Text.utf8 "y\n-".toList), .fault (.failed "reset".toList),
    .data (Text.utf8 "-b\nz\n".toList), .fault (.failed "reset".toList),
    .data (Text.utf8 "--b-".toList), .fault (.failed "reset".toList),
    .data (Text.utf8 "-\n".toList)]⟩

theorem runPatiently_eq_run_slice_shaky :
    ('\n' ∉ "b".toList ∧ shaky.Gapless ∧
      (∀ place ∈ shaky.failures, Harmless "b".toList [.next, .read 1, .next, .next] shaky.contents
        place) ∧
      peekDepth "b".toList ≤ 7 ∧ shaky.failures.length ≤ 6) ∧
    ∃ reader, ofSource (Lookahead.ofCapacity 7 shaky) "b".toList = .ok reader ∧
      (reader.runPatiently 6 [.next, .read 1, .next, .next]).1.map Prod.fst =
        [.moved (.ok true), .block (.ok (Text.utf8 "x".toList)), .moved (.ok true),
          .moved (.ok false)] := by
  have unbroken : '\n' ∉ "b".toList := by decide
  have gapless : shaky.Gapless := by decide
  have harmless : ∀ place ∈ shaky.failures,
      Harmless "b".toList [.next, .read 1, .next, .next] shaky.contents place := by
    decide +kernel
  have wide : peekDepth "b".toList ≤ 7 := by decide
  have enough : shaky.failures.length ≤ 6 := by decide
  obtain ⟨reader, memory, made, inMemory, same⟩ :=
    runPatiently_eq_run_slice unbroken gapless harmless wide enough
  obtain rfl := Except.ok.inj ((ofSource_slice _ _).symm.trans inMemory)
  refine ⟨⟨unbroken, gapless, harmless, wide, enough⟩, reader, made, ?_⟩
  rw [same]
  decide +kernel

/-- A failure inside the first boundary line. -/
def broken : Script :=
  ⟨[.data (Text.utf8 "--".toList), .fault (.failed "reset".toList),
    .data (Text.utf8 "b\nx\n--b--\n".toList)]⟩

/-- A failure in the padding of the second boundary line. -/
def brokenPadding : Script :=
  ⟨[.data (Text.utf8 "--b\nx\n--b  ".toList), .fault (.failed "reset".toList),
    .data (Text.utf8 "\ny\n--b--\n".toList)]⟩

/-- A boundary line that a failure tears is lost for good.  The part that it opens is dropped,
or its content is found where a boundary line should be. -/
theorem runPatiently_loses_boundaryLine :
    (∃ reader, ofSource (Lookahead.ofCapacity 7 broken) "b".toList = .ok reader ∧
      (reader.runPatiently 1 [.next]).1.map Prod.fst = [.moved (.ok false)] ∧
      ((atFront broken.contents "b".toList).run [.next]).1.map Prod.fst =
        [.moved (.ok true)]) ∧
    ∃ reader, ofSource (Lookahead.ofCapacity 7 brokenPadding) "b".toList = .ok reader ∧
      (reader.runPatiently 1 [.next, .next]).1.map Prod.fst =
        [.moved (.ok true), .moved (.error (.noTerminator "--b".toList "y\n".toList))] ∧
      ((atFront brokenPadding.contents "b".toList).run [.next, .next]).1.map Prod.fst =
        [.moved (.ok true), .moved (.ok true)] :=
  ⟨⟨_, ofSource_window _ (by decide), by decide +kernel, by decide +kernel⟩,
    ⟨_, ofSource_window _ (by decide), by decide +kernel, by decide +kernel⟩⟩

end Patient

end LenientMime.Multipart.PartReader
