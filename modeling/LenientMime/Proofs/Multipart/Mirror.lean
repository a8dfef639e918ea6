import LenientMime.Proofs.Multipart.Caller
import LenientMime.Proofs.Multipart.Halted
import LenientMime.Proofs.Stream.Taking

namespace LenientMime

namespace Multipart

variable {σ : Type} [ByteSource σ] {account : σ → Bytes → List Bytes → Prop} {depth : Nat}

theorem remainder_eq (faithful : ByteSource.Faithful depth account) {retries : Nat} {source : σ}
    {bytes : Bytes} {failures : List Bytes} (held : account source bytes failures)
    (enough : failures.length ≤ retries) : remainder retries source = (bytes, none) := by
  induction retries generalizing source bytes failures with
  | zero =>
      rcases taken : ByteSource.takeAll source with ⟨front, _ | fault, after⟩
      · simp [remainder, taken, faithful.takeAll held taken]
      · obtain ⟨left, later, -, rfl, -⟩ := faithful.takeAllFailure held taken
        simp at enough
  | succ retries ih =>
      rcases taken : ByteSource.takeAll source with ⟨front, _ | fault, after⟩
      · simp [remainder, taken, faithful.takeAll held taken]
      · obtain ⟨left, later, rfl, rfl, heldAfter⟩ := faithful.takeAllFailure held taken
        simp [remainder, taken, ih heldAfter (Nat.le_of_succ_le_succ enough)]

namespace PartReader

open Bytes

/-- The reader in the same state over another source. -/
def onSource {τ : Type} (reader : PartReader τ) (source : σ) : PartReader σ :=
  { source
    boundary := reader.boundary
    scanned := reader.scanned
    phase := reader.phase
    partsRead := reader.partsRead
    finished := reader.finished
    unbounded := reader.unbounded }

/-- The reader is the one over memory, up to its source, which gives the same bytes and
can be looked into far enough for the boundary. -/
def Mirrors (account : σ → Bytes → List Bytes → Prop) (depth : Nat) (reader : PartReader σ)
    (twin : PartReader Bytes) (failures : List Bytes) : Prop :=
  ∃ source, reader = twin.onSource source ∧ account source twin.source failures ∧
    peekDepth twin.boundary ≤ depth

theorem length_of_leadOf? {atStart : Bool} {window lead : Bytes}
    (found : leadOf? atStart window = some lead) : lead.length ≤ 2 := by
  cases window with
  | nil => simp [leadOf?] at found
  | cons byte rest =>
      rw [leadOf?_cons] at found
      grind

theorem window_le_depth {boundary : Text} {atStart : Bool} {window lead : Bytes}
    (found : leadOf? atStart window = some lead) :
    lead.length + (delimiter boundary).length + 2 ≤ peekDepth boundary := by
  have := length_of_leadOf? found
  simp only [delimiter, peekDepth, List.length_cons]
  omega

section Looking

variable {boundary : Text} {atStart : Bool} {source after : σ} {bytes : Bytes}
  {failures : List Bytes}

theorem boundaryAhead_found (faithful : ByteSource.Faithful depth account) {found : Bool}
    (held : account source bytes failures) (deep : peekDepth boundary ≤ depth)
    (looked : boundaryAhead boundary atStart source = (.ok found, after)) :
    found = startsDelimiter boundary atStart bytes ∧ account after bytes failures := by
  have shallow : 1 ≤ depth := Nat.le_trans (by simp [peekDepth]) deep
  simp only [boundaryAhead] at looked
  split at looked
  · simp at looked
  · next window first firstLook =>
    obtain ⟨rfl, heldFirst⟩ := faithful.window held shallow firstLook
    simp only [leadOf?_take] at looked
    split at looked
    · next noLead =>
      obtain ⟨rfl, rfl⟩ := by simpa using looked
      exact ⟨by simp [startsDelimiter, noLead], heldFirst⟩
    · next lead some =>
      split at looked
      · simp at looked
      · next window' second secondLook =>
        obtain ⟨rfl, rfl⟩ := by simpa using looked
        obtain ⟨rfl, heldSecond⟩ :=
          faithful.window heldFirst (Nat.le_trans (window_le_depth some) deep) secondLook
        exact ⟨by simp only [startsDelimiter, some, showsDelimiter_take], heldSecond⟩

theorem boundaryAhead_failure (faithful : ByteSource.Faithful depth account) {fault : Fault}
    (held : account source bytes failures) (deep : peekDepth boundary ≤ depth)
    (looked : boundaryAhead boundary atStart source = (.error fault, after)) :
    ∃ place later, failures = place :: later ∧ account after bytes later := by
  have shallow : 1 ≤ depth := Nat.le_trans (by simp [peekDepth]) deep
  simp only [boundaryAhead] at looked
  split at looked
  · next first firstLook =>
    obtain ⟨rfl, rfl⟩ := by simpa using looked
    exact faithful.lookFailure held shallow firstLook
  · next window first firstLook =>
    obtain ⟨rfl, heldFirst⟩ := faithful.window held shallow firstLook
    simp only [leadOf?_take] at looked
    split at looked
    · simp at looked
    · next lead some =>
      split at looked
      · next second secondLook =>
        obtain ⟨rfl, rfl⟩ := by simpa using looked
        exact faithful.lookFailure heldFirst (Nat.le_trans (window_le_depth some) deep) secondLook
      · simp at looked

end Looking

variable {reader after : PartReader σ} {twin : PartReader Bytes} {failures : List Bytes}

/-- What a scan found is what so many steps find in memory: all steps that were asked
for, or those before the failure. -/
def ScanMirrors (account : σ → Bytes → List Bytes → Prop) (depth wanted : Nat)
    (found : Scan σ) (twin : PartReader Bytes) (failures : List Bytes) : Prop :=
  ∃ count later, found.bytes = (scan count twin).bytes ∧
    Mirrors account depth found.reader (scan count twin).reader later ∧
    match found.fault with
    | none => count = wanted ∧ later = failures
    | some _ => count ≤ wanted ∧ found.bytes.length = count ∧ ∃ place, failures = place :: later

omit [ByteSource σ] in
theorem ScanMirrors.cons {wanted : Nat} {found : Scan σ} {ahead : PartReader Bytes}
    {byte : UInt8} (scanned : ScanMirrors account depth wanted found ahead failures)
    (steps : ∀ count, PartReader.scan (count + 1) twin = (PartReader.scan count ahead).after byte) :
    ScanMirrors account depth (wanted + 1) (found.after byte) twin failures := by
  obtain ⟨bytes, fault, left⟩ := found
  obtain ⟨count, later, same, mirrors, spent⟩ := scanned
  refine ⟨count + 1, later, ?_, by simpa only [Scan.after, steps] using mirrors, ?_⟩
  · rw [steps]
    exact congrArg (byte :: ·) same
  cases fault with
  | none => exact ⟨by rw [spent.1], spent.2⟩
  | some fault =>
      obtain ⟨bound, length, place⟩ := spent
      exact ⟨Nat.succ_le_succ bound, by simpa [Scan.after] using length, place⟩

theorem Mirrors.scan (faithful : ByteSource.Faithful depth account) (wanted : Nat)
    (mirrors : Mirrors account depth reader twin failures) :
    ScanMirrors account depth wanted (PartReader.scan wanted reader) twin failures := by
  induction wanted generalizing reader twin with
  | zero => exact ⟨0, failures, rfl, mirrors, rfl, rfl⟩
  | succ wanted ih =>
      obtain ⟨bytes, boundary, scanned, phase, partsRead, finished, unbounded⟩ := twin
      obtain ⟨source, rfl, held, deep⟩ := mirrors
      simp only at held deep
      cases phase with
      | between => exact ⟨wanted + 1, failures, rfl, ⟨source, rfl, held, deep⟩, rfl, rfl⟩
      | content atStart =>
          rcases looked : boundaryAhead boundary atStart source with ⟨fault | found, seen⟩
          · obtain ⟨place, later, rfl, heldSeen⟩ := boundaryAhead_failure faithful held deep looked
            simp only [onSource, PartReader.scan, looked]
            exact ⟨0, later, rfl, ⟨seen, rfl, heldSeen, deep⟩, Nat.zero_le _, rfl, place, rfl⟩
          obtain ⟨found_eq, heldSeen⟩ := boundaryAhead_found faithful held deep looked
          cases found with
          | true =>
              simp only [onSource, PartReader.scan, looked]
              refine ⟨wanted + 1, failures, ?_, ?_, rfl, rfl⟩
              · rw [scan_delimiter wanted rfl found_eq.symm]
              · rw [scan_delimiter wanted rfl found_eq.symm]
                exact ⟨seen, rfl, heldSeen, deep⟩
          | false =>
              rcases taken : ByteSource.take seen with ⟨fault | _ | byte, rest⟩
              · obtain ⟨later, rfl, heldRest⟩ := faithful.takeFailure heldSeen taken
                simp only [onSource, PartReader.scan, looked, taken]
                exact ⟨0, later, rfl, ⟨rest, rfl, heldRest, deep⟩, Nat.zero_le _, rfl, bytes, rfl⟩
              · obtain ⟨rfl, heldRest⟩ := faithful.ending heldSeen taken
                simp only [onSource, PartReader.scan, looked, taken]
                refine ⟨wanted + 1, failures, ?_, ?_, rfl, rfl⟩
                · rw [scan_end wanted rfl rfl]
                · rw [scan_end wanted rfl rfl]
                  exact ⟨rest, rfl, heldRest, deep⟩
              · obtain ⟨behind, rfl, heldRest⟩ := faithful.byte heldSeen taken
                simp only [onSource, PartReader.scan, looked, taken]
                have ahead : Mirrors account depth
                    ⟨rest, boundary, scanned, .content false, partsRead, finished, unbounded⟩
                    ⟨behind, boundary, scanned, .content false, partsRead, finished, unbounded⟩
                    failures := ⟨rest, rfl, heldRest, deep⟩
                exact (ih ahead).cons fun count => scan_byte count rfl rfl found_eq.symm

omit [ByteSource σ] in
theorem Mirrors.scanned_eq (mirrors : Mirrors account depth reader twin failures) :
    reader.scanned = twin.scanned := by
  obtain ⟨source, rfl, -⟩ := mirrors
  rfl

omit [ByteSource σ] in
theorem Mirrors.phase_eq (mirrors : Mirrors account depth reader twin failures) :
    reader.phase = twin.phase := by
  obtain ⟨source, rfl, -⟩ := mirrors
  rfl

omit [ByteSource σ] in
theorem Mirrors.partsRead_eq (mirrors : Mirrors account depth reader twin failures) :
    reader.partsRead = twin.partsRead := by
  obtain ⟨source, rfl, -⟩ := mirrors
  rfl

omit [ByteSource σ] in
theorem Mirrors.finished_eq (mirrors : Mirrors account depth reader twin failures) :
    reader.finished = twin.finished := by
  obtain ⟨source, rfl, -⟩ := mirrors
  rfl

omit [ByteSource σ] in
theorem Mirrors.holding (mirrors : Mirrors account depth reader twin failures) (scanned : Bytes) :
    Mirrors account depth { reader with scanned } { twin with scanned } failures := by
  obtain ⟨source, rfl, held, deep⟩ := mirrors
  exact ⟨source, rfl, held, deep⟩

theorem Mirrors.read (faithful : ByteSource.Faithful depth account) {limit : Nat} {block : Bytes}
    (mirrors : Mirrors account depth reader twin failures)
    (reading : reader.read limit = (.ok block, after)) :
    ∃ twinAfter, twin.read limit = (.ok block, twinAfter) ∧
      Mirrors account depth after twinAfter failures := by
  obtain ⟨count, later, bytes, mirrorsAfter, spent⟩ :=
    mirrors.scan faithful (limit - twin.scanned.length)
  simp only [PartReader.read, mirrors.scanned_eq] at reading
  generalize PartReader.scan (limit - twin.scanned.length) reader = found at *
  split at reading
  · simp at reading
  · next unfailing =>
    rw [unfailing] at spent
    obtain ⟨rfl, rfl⟩ := spent
    obtain ⟨rfl, rfl⟩ := by simpa using reading
    rw [bytes, read_eq]
    exact ⟨_, rfl, mirrorsAfter.holding _⟩

/-- A read that fails keeps what it has scanned. -/
theorem Mirrors.readFailure (faithful : ByteSource.Faithful depth account) {limit : Nat}
    {fault : Fault} (mirrors : Mirrors account depth reader twin failures)
    (reading : reader.read limit = (.error fault, after)) :
    ∃ place later count, failures = place :: later ∧
      Mirrors account depth after (twin.halted count) later ∧
      (twin.halted count).read limit = twin.read limit := by
  obtain ⟨count, later, bytes, mirrorsAfter, spent⟩ :=
    mirrors.scan faithful (limit - twin.scanned.length)
  simp only [PartReader.read, mirrors.scanned_eq] at reading
  generalize PartReader.scan (limit - twin.scanned.length) reader = found at *
  split at reading
  · next fault' failing =>
    rw [failing] at spent
    obtain ⟨bound, length, place, rfl⟩ := spent
    obtain ⟨rfl, rfl⟩ := by simpa using reading
    rw [bytes] at length ⊢
    exact ⟨place, later, count, rfl, mirrorsAfter.holding _, read_halted bound length⟩
  · simp at reading

theorem Mirrors.discard (faithful : ByteSource.Faithful depth account)
    (mirrors : Mirrors account depth reader twin failures)
    (discarded : BlockReader.discard reader = (none, after)) :
    Mirrors account depth after twin.exhausted failures := by
  fun_induction BlockReader.discard reader generalizing twin with
  | case1 reader after' reading ih => exact absurd reading read_steady
  | case2 => simp at discarded
  | case3 reader after' reading =>
      obtain rfl := by simpa using discarded
      obtain ⟨twinAfter, inMemory, mirrorsAfter⟩ := mirrors.read faithful reading
      obtain ⟨_, atOnce, -, -, reached⟩ := read_slice BlockReader.discardBlock twin
      have same := inMemory.symm.trans atOnce
      have nothing : twin.remaining = [] := by
        simpa [BlockReader.discardBlock] using congrArg Prod.fst same
      obtain rfl := congrArg Prod.snd same
      exact reached (by simp [nothing, BlockReader.discardBlock]) ▸ mirrorsAfter
  | case4 reader byte block after' reading ih =>
      obtain ⟨twinAfter, inMemory, mirrorsAfter⟩ := mirrors.read faithful reading
      obtain ⟨_, atOnce, -, sameEnd, -⟩ := read_slice BlockReader.discardBlock twin
      obtain ⟨-, rfl⟩ := by simpa using inMemory.symm.trans atOnce
      exact sameEnd ▸ ih mirrorsAfter discarded

theorem Mirrors.discardFailure (faithful : ByteSource.Faithful depth account) {fault : Fault}
    (mirrors : Mirrors account depth reader twin failures)
    (discarded : BlockReader.discard reader = (some fault, after)) :
    ∃ place later stopped, failures = place :: later ∧
      Mirrors account depth after stopped later ∧ stopped.exhausted = twin.exhausted := by
  fun_induction BlockReader.discard reader generalizing twin with
  | case1 reader after' reading ih => exact absurd reading read_steady
  | case2 reader fault' after' counted reading =>
      obtain ⟨rfl, rfl⟩ := by simpa using discarded
      obtain ⟨place, later, count, spent, mirrorsAfter, -⟩ := mirrors.readFailure faithful reading
      exact ⟨place, later, _, spent, mirrorsAfter, exhausted_halted count twin⟩
  | case3 => simp at discarded
  | case4 reader byte block after' reading ih =>
      obtain ⟨twinAfter, inMemory, mirrorsAfter⟩ := mirrors.read faithful reading
      obtain ⟨_, atOnce, -, sameEnd, -⟩ := read_slice BlockReader.discardBlock twin
      obtain ⟨-, rfl⟩ := by simpa using inMemory.symm.trans atOnce
      exact sameEnd ▸ ih mirrorsAfter discarded

theorem Mirrors.openPart (faithful : ByteSource.Faithful depth account)
    {result : Except Error Bool} (mirrors : Mirrors account depth reader twin failures)
    (opened : reader.openPart = (result, after))
    (answered : ∀ fault, result ≠ .error (.stream fault)) :
    ∃ twinAfter, twin.openPart = (result, twinAfter) ∧
      Mirrors account depth after twinAfter failures := by
  fun_induction PartReader.openPart reader generalizing twin with
  | case1 reader fault source taken =>
      cases opened
      exact absurd rfl (answered fault)
  | case2 reader line source taken reader' kind =>
      rename_i ih
      obtain ⟨_, rfl, held, deep⟩ := mirrors
      obtain ⟨rest, inMemory, heldRest⟩ := faithful.takeLine held taken
      change LineKind.of twin.boundary line = _ at kind
      rw [openPart_line inMemory, kind]
      exact ih ⟨source, rfl, heldRest, deep⟩ opened
  | case3 reader line source taken reader'
  | case4 reader line source taken reader'
  | case5 reader line source taken reader' =>
      rename_i kind
      obtain ⟨_, rfl, held, deep⟩ := mirrors
      obtain ⟨rest, inMemory, heldRest⟩ := faithful.takeLine held taken
      change LineKind.of twin.boundary line = _ at kind
      rw [openPart_line inMemory, kind]
      cases opened
      exact ⟨_, rfl, source, rfl, heldRest, deep⟩
  | case6 reader line source taken reader' kind early =>
      rename_i ih
      obtain ⟨_, rfl, held, deep⟩ := mirrors
      obtain ⟨rest, inMemory, heldRest⟩ := faithful.takeLine held taken
      change LineKind.of twin.boundary line = _ at kind
      rw [openPart_line inMemory, kind]
      exact if_pos early ▸ ih ⟨source, rfl, heldRest, deep⟩ opened
  | case7 reader line source taken reader' kind late =>
      obtain ⟨_, rfl, held, deep⟩ := mirrors
      obtain ⟨rest, inMemory, heldRest⟩ := faithful.takeLine held taken
      change LineKind.of twin.boundary line = _ at kind
      rw [openPart_line inMemory, kind]
      cases opened
      exact ⟨_, if_neg late, source, rfl, heldRest, deep⟩

/-- Opening the next part may stop inside a line.  The lines before it were passed over,
and the front of it is lost. -/
theorem Mirrors.openPartFailure (faithful : ByteSource.Faithful depth account) {fault : Fault}
    (mirrors : Mirrors account depth reader twin failures)
    (opened : reader.openPart = (.error (.stream fault), after)) :
    ∃ lost left later, Byte.lineFeed ∉ lost ∧ twin.PassesTo (lost ++ left) ∧
      failures = left :: later ∧
      twin.openPart = { twin with source := lost ++ left }.openPart ∧
      Mirrors account depth after { twin with source := left } later := by
  fun_induction PartReader.openPart reader generalizing twin with
  | case1 reader fault' source taken =>
      cases opened
      obtain ⟨_, rfl, held, deep⟩ := mirrors
      obtain ⟨lost, left, later, whole, unbroken, spent, heldLeft⟩ :=
        faithful.takeLineFailure held taken
      exact ⟨lost, left, later, unbroken, whole ▸ passesTo_source twin, spent, by rw [← whole],
        source, rfl, heldLeft, deep⟩
  | case2 reader line source taken reader' kind =>
      rename_i ih
      obtain ⟨_, rfl, held, deep⟩ := mirrors
      obtain ⟨rest, inMemory, heldRest⟩ := faithful.takeLine held taken
      have mirrorsRest : Mirrors account depth (twin.onSource source) { twin with source := rest }
          failures := ⟨source, rfl, heldRest, deep⟩
      obtain ⟨lost, left, later, unbroken, passes, spent, same, mirrorsAfter⟩ :=
        ih mirrorsRest opened
      change LineKind.of twin.boundary line = _ at kind
      refine ⟨lost, left, later, unbroken, .cons inMemory (.inl kind) passes, spent, ?_,
        mirrorsAfter⟩
      rw [openPart_line inMemory, kind]
      exact same
  | case3 => simp at opened
  | case4 => simp at opened
  | case5 => simp at opened
  | case6 reader line source taken reader' kind early =>
      rename_i ih
      obtain ⟨_, rfl, held, deep⟩ := mirrors
      obtain ⟨rest, inMemory, heldRest⟩ := faithful.takeLine held taken
      have mirrorsRest : Mirrors account depth (twin.onSource source) { twin with source := rest }
          failures := ⟨source, rfl, heldRest, deep⟩
      obtain ⟨lost, left, later, unbroken, passes, spent, same, mirrorsAfter⟩ :=
        ih mirrorsRest opened
      change LineKind.of twin.boundary line = _ at kind
      refine ⟨lost, left, later, unbroken, .cons inMemory (.inr ⟨early, kind⟩) passes, spent, ?_,
        mirrorsAfter⟩
      rw [openPart_line inMemory, kind]
      exact (if_pos early).trans same
  | case7 => simp at opened

omit [ByteSource σ] in
/-- Behind the open part, a reader and its twin are cleared alike. -/
theorem Mirrors.cleared (mirrors : Mirrors account depth reader twin failures) :
    Mirrors account depth { reader with phase := .between, scanned := [] }
      { twin with phase := .between, scanned := [] } failures := by
  obtain ⟨source, rfl, held, deep⟩ := mirrors
  exact ⟨source, rfl, held, deep⟩

theorem Mirrors.next (faithful : ByteSource.Faithful depth account)
    {result : Except Error Bool} (mirrors : Mirrors account depth reader twin failures)
    (moved : reader.next = (result, after)) (answered : ∀ fault, result ≠ .error (.stream fault)) :
    ∃ twinAfter, twin.next = (result, twinAfter) ∧
      Mirrors account depth after twinAfter failures := by
  rw [PartReader.next] at moved
  rw [PartReader.next]
  split at moved
  · next ended =>
    cases moved
    exact ⟨twin, if_pos (mirrors.finished_eq ▸ ended), mirrors⟩
  · next goesOn =>
    rw [if_neg (mirrors.finished_eq ▸ goesOn)]
    split at moved
    · next early =>
      rw [if_pos (mirrors.partsRead_eq ▸ early)]
      exact mirrors.cleared.openPart faithful moved answered
    · next late =>
      rw [if_neg (mirrors.partsRead_eq ▸ late), discard_slice]
      split at moved
      · next fault left discarded =>
        cases moved
        exact absurd rfl (answered fault)
      · next discarded =>
        exact (mirrors.discard faithful discarded).cleared.openPart faithful moved answered

/-- The twin of a reader whose call of `next` failed with the bytes `place` still to come:
the rest of the old part was being read away, or a line was being taken, the front of which
is lost. -/
inductive Setback (twin stopped : PartReader Bytes) (place : Bytes) : Prop where
  | discarding (opened : twin.partsRead ≠ 0) (samePlace : stopped.exhausted = twin.exhausted)
  | opening (lost : Bytes) (unbroken : Byte.lineFeed ∉ lost)
      (passes : twin.atLines.PassesTo (lost ++ place))
      (atOnce : twin.atLines.openPart = { twin.atLines with source := lost ++ place }.openPart)
      (stops : stopped = { twin.atLines with source := place })

theorem Mirrors.nextFailure (faithful : ByteSource.Faithful depth account) {fault : Fault}
    (mirrors : Mirrors account depth reader twin failures)
    (moved : reader.next = (.error (.stream fault), after)) :
    ∃ place later stopped, failures = place :: later ∧ twin.finished = false ∧
      Setback twin stopped place ∧ Mirrors account depth after stopped later := by
  rw [PartReader.next] at moved
  split at moved
  · simp at moved
  · next goesOn =>
    have openEnded : twin.finished = false := by simpa [mirrors.finished_eq] using goesOn
    split at moved
    · next early =>
      have inFront : twin.atLines = { twin with phase := .between, scanned := [] } :=
        if_pos (mirrors.partsRead_eq ▸ early)
      obtain ⟨lost, place, later, unbroken, passes, spent, atOnce, mirrorsAfter⟩ :=
        mirrors.cleared.openPartFailure faithful moved
      rw [← inFront] at passes atOnce mirrorsAfter
      exact ⟨place, later, _, spent, openEnded, .opening lost unbroken passes atOnce rfl,
        mirrorsAfter⟩
    · next late =>
      have opened : twin.partsRead ≠ 0 := mirrors.partsRead_eq ▸ late
      have behind : twin.atLines = { twin.exhausted with phase := .between, scanned := [] } :=
        if_neg opened
      split at moved
      · next fault' left discarded =>
        cases moved
        obtain ⟨place, later, stopped, spent, mirrorsAfter, samePlace⟩ :=
          mirrors.discardFailure faithful discarded
        exact ⟨place, later, stopped, spent, openEnded, .discarding opened samePlace, mirrorsAfter⟩
      · next left discarded =>
        obtain ⟨lost, place, later, unbroken, passes, spent, atOnce, mirrorsAfter⟩ :=
          (mirrors.discard faithful discarded).cleared.openPartFailure faithful moved
        rw [← behind] at passes atOnce mirrorsAfter
        exact ⟨place, later, _, spent, openEnded, .opening lost unbroken passes atOnce rfl,
          mirrorsAfter⟩

theorem Mirrors.standing (faithful : ByteSource.Faithful depth account)
    (mirrors : Mirrors account depth reader twin failures) {retries : Nat}
    (enough : failures.length ≤ retries) : reader.standing retries = twin.standing 0 := by
  obtain ⟨source, rfl, held, -⟩ := mirrors
  have inMemory := remainder_eq (ByteSource.faithful_inMemory 0)
    (show ByteSource.InMemory twin.source twin.source [] from ⟨rfl, rfl⟩) (Nat.le_refl 0)
  simp only [PartReader.standing, inMemory]
  simp only [onSource, remainder_eq faithful held enough]

theorem Mirrors.call (faithful : ByteSource.Faithful depth account)
    (mirrors : Mirrors account depth reader twin failures) {call : Call}
    (answered : (reader.call call).1.fault? = none) :
    (reader.call call).1 = (twin.call call).1 ∧
      Mirrors account depth (reader.call call).2 (twin.call call).2 failures := by
  cases call with
  | next =>
      have noFault (fault : Fault) : reader.next.1 ≠ .error (.stream fault) := by
        intro same
        simp [PartReader.call, same, Answer.fault?] at answered
      obtain ⟨twinAfter, moved, mirrorsAfter⟩ := mirrors.next faithful rfl noFault
      simp only [PartReader.call, moved]
      exact ⟨rfl, mirrorsAfter⟩
  | read limit =>
      rcases reading : reader.read limit with ⟨fault | block, after⟩
      · simp [PartReader.call, reading, Answer.fault?] at answered
      · obtain ⟨twinAfter, inMemory, mirrorsAfter⟩ := mirrors.read faithful reading
        simp only [PartReader.call, reading, inMemory]
        exact ⟨trivial, mirrorsAfter⟩

/-- The twin of a reader whose call failed with the bytes `place` still to come. -/
inductive Stopped (twin : PartReader Bytes) : PartReader Bytes → Bytes → Call → Prop where
  | next {stopped : PartReader Bytes} {place : Bytes} (goesOn : twin.finished = false)
      (back : Setback twin stopped place) : Stopped twin stopped place .next
  | read {limit count : Nat} {place : Bytes}
      (same : (twin.halted count).read limit = twin.read limit) :
      Stopped twin (twin.halted count) place (.read limit)

theorem next_of_fault (failed : (reader.call .next).1.fault?.isSome) :
    ∃ fault, reader.next = (.error (.stream fault), (reader.call .next).2) := by
  rcases moved : reader.next with ⟨(error | found), after⟩
  · cases error with
    | stream fault => exact ⟨fault, by rw [PartReader.call, moved]⟩
    | _ => simp [PartReader.call, moved, Answer.fault?] at failed
  · simp [PartReader.call, moved, Answer.fault?] at failed

/-- A call that fails takes a failure from the source. -/
theorem Mirrors.stopped (faithful : ByteSource.Faithful depth account)
    (mirrors : Mirrors account depth reader twin failures) {call : Call}
    (failed : (reader.call call).1.fault?.isSome) :
    ∃ place later stopped, failures = place :: later ∧
      Mirrors account depth (reader.call call).2 stopped later ∧
      Stopped twin stopped place call := by
  cases call with
  | next =>
      obtain ⟨fault, moved⟩ := next_of_fault failed
      obtain ⟨place, later, stopped, rfl, goesOn, back, mirrorsAfter⟩ :=
        mirrors.nextFailure faithful moved
      exact ⟨place, later, stopped, rfl, mirrorsAfter, .next goesOn back⟩
  | read limit =>
      rcases reading : reader.read limit with ⟨fault | block, after⟩
      · obtain ⟨place, later, count, rfl, mirrorsAfter, same⟩ :=
          mirrors.readFailure faithful reading
        simp only [PartReader.call, reading]
        exact ⟨place, later, _, rfl, mirrorsAfter, .read same⟩
      · simp [PartReader.call, reading, Answer.fault?] at failed

/-- A source that has no failure to give lets every call through. -/
theorem Mirrors.answered (faithful : ByteSource.Faithful depth account)
    (mirrors : Mirrors account depth reader twin []) (call : Call) :
    (reader.call call).1.fault? = none := by
  by_contra failed
  obtain ⟨place, later, stopped, impossible, -⟩ :=
    mirrors.stopped faithful (Option.isSome_iff_ne_none.mpr failed)
  contradiction

end PartReader

end Multipart

end LenientMime
