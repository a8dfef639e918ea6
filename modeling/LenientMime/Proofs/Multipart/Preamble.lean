import LenientMime.Proofs.Multipart.Chunked
import LenientMime.Proofs.Multipart.Walk

namespace LenientMime.Multipart.PartReader

open Bytes

/-! Reading the preamble.

Before the first call of `next` a reader hands out what stands in front of the first
boundary line, and `next` then goes on by lines from where the reads stopped.  This is the
same as going by lines from the front of the body if no boundary line stands at that front
and none is made by cutting a line in two.
-/

variable {boundary : Text} {reader : PartReader Bytes}

/-- A scan changes nothing but the place, the phase and the mark of an early end. -/
theorem scan_frame {σ : Type} [ByteSource σ] (wanted : Nat) (reader : PartReader σ) :
    ∃ source phase unbounded,
      (scan wanted reader).reader = { reader with source, phase, unbounded } := by
  fun_induction scan wanted reader with
  | case7 _ _ _ _ _ _ _ _ _ ih => exact ih
  | _ => exact ⟨_, _, _, rfl⟩

theorem length_scan_le {σ : Type} [ByteSource σ] (wanted : Nat) (reader : PartReader σ) :
    (scan wanted reader).bytes.length ≤ wanted := by
  fun_induction scan wanted reader with
  | case7 _ _ _ _ _ _ _ _ _ ih => exact Nat.succ_le_succ ih
  | _ => exact Nat.zero_le _

/-- Reads of any sizes are one scan. -/
theorem run_reads (reader : PartReader Bytes) (sizes : List Nat) (fresh : reader.scanned = []) :
    ∃ count, (reader.run (sizes.map .read)).2 = (scan count reader).reader ∧
      (reader.run (sizes.map .read)).1.flatMap (fun seen => seen.1.bytes) =
        (scan count reader).bytes ∧
      ∀ seen ∈ (reader.run (sizes.map .read)).1, seen.1.fault? = none := by
  induction sizes generalizing reader with
  | nil => exact ⟨0, rfl, rfl, by simp⟩
  | cons limit sizes ih =>
      have keptFresh : (scan limit reader).reader.scanned = [] := by
        obtain ⟨source, phase, unbounded, stands⟩ := scan_frame limit reader
        rw [stands, fresh]
      have short := length_scan_le limit reader
      have reading : reader.read limit =
          (.ok (scan limit reader).bytes, (scan limit reader).reader) := by
        rw [read_eq]
        simp only [fresh, List.nil_append, List.length_nil, Nat.sub_zero,
          List.take_of_length_le short, List.drop_of_length_le short]
        rw [← keptFresh]
      obtain ⟨count, final, delivered, unfailing⟩ := ih _ keptFresh
      refine ⟨limit + count, ?_⟩
      rw [List.map_cons, run_cons, scan_add]
      simp only [call, reading, List.flatMap_cons, List.forall_mem_cons]
      exact ⟨final, congrArg (_ ++ ·) delivered, rfl, unfailing⟩

theorem cutContent_append (boundary : Text) (atStart : Bool) (bytes : Bytes) :
    (cutContent boundary atStart bytes).1 ++ (cutContent boundary atStart bytes).2 = bytes := by
  induction bytes generalizing atStart with
  | nil => rfl
  | cons byte rest ih =>
      simp only [cutContent]
      split
      · rfl
      · exact congrArg (byte :: ·) (ih false)

theorem unscanned_append_exhausted (reader : PartReader Bytes) :
    reader.unscanned ++ reader.exhausted.source = reader.source := by
  obtain ⟨source, boundary, scanned, phase, partsRead, finished, unbounded⟩ := reader
  cases phase with
  | between => rfl
  | content atStart => exact cutContent_append boundary atStart source

theorem scan_source (count : Nat) (reader : PartReader Bytes) :
    (scan count reader).bytes ++ (scan count reader).reader.source = reader.source := by
  have sound := scan_slice count reader
  rw [← unscanned_append_exhausted, ← List.append_assoc, sound.nothingLost, sound.sameEnd,
    unscanned_append_exhausted]

/-- Where content was read up to a line feed, no boundary line follows. -/
theorem not_opensBoundary_of_content (unbroken : '\n' ∉ boundary) {atStart : Bool}
    {front rest source : Bytes}
    (content : (cutContent boundary atStart (front ++ source)).1 = front ++ rest)
    (fed : front.getLast? = some Byte.lineFeed) :
    opensBoundary boundary (lines source) = false := by
  induction front generalizing atStart with
  | nil => simp at fed
  | cons byte front ih =>
      rw [List.cons_append, cutContent] at content
      split at content
      · simp at content
      · next goesOn =>
        cases front with
        | nil =>
            obtain rfl : byte = Byte.lineFeed := by simpa using fed
            rw [List.nil_append, startsDelimiter_lineFeed unbroken] at goesOn
            simpa using goesOn
        | cons next front =>
            exact ih (List.cons.inj content).2 (by simpa [List.getLast?_cons] using fed)

theorem linesFrom_of_plain {bytes line : Bytes} {later : List Bytes}
    (cut : lines bytes = line :: later) (plain : opensBoundary boundary (lines bytes) = false) :
    linesFrom boundary (lines bytes) = linesFrom boundary later := by
  rw [cut]
  exact linesFrom_cons_of_plain later (by simpa [opensBoundary, cut] using plain)

/-- Reading away what is left of a part, or of the preamble, keeps the next boundary line. -/
theorem linesFrom_exhausted (reader : PartReader Bytes) (unbroken : '\n' ∉ reader.boundary)
    (plain : opensBoundary reader.boundary (lines reader.source) = false) :
    linesFrom reader.boundary (lines reader.exhausted.source) =
      linesFrom reader.boundary (lines reader.source) := by
  obtain ⟨source, boundary, scanned, phase, partsRead, finished, unbounded⟩ := reader
  cases phase with
  | between => rfl
  | content atStart =>
      cases atStart with
      | true => exact (linesFrom_of_leftBehind (cutContent_atStart unbroken source).2).1
      | false =>
          cases cut : lines source with
          | nil =>
              obtain rfl := eq_nil_of_lines cut
              rfl
          | cons line later =>
              rw [← cut, linesFrom_of_plain cut plain]
              exact (linesFrom_of_leftBehind (cutContent_inside unbroken cut).2).1

theorem cutContent_preamble (unbroken : '\n' ∉ boundary) {body : Bytes}
    (plain : opensBoundary boundary (lines body) = false) :
    (cutContent boundary false body).1 = contentOf boundary (lines body) := by
  rw [← (cutContent_atStart unbroken body).1]
  cases body with
  | nil => rfl
  | cons byte rest => simp only [cutContent, startsDelimiter_atStart unbroken, plain, Bool.false_or]

theorem next_early (unbroken : '\n' ∉ reader.boundary) (early : reader.partsRead = 0)
    (goesOn : reader.finished = false) :
    reader.next = { reader with phase := .between, scanned := [] }.opened := by
  rw [next_eq, if_neg (Bool.eq_false_iff.mp goesOn), atLines, if_pos early]
  exact openPart_slice { reader with phase := .between, scanned := [] } unbroken (.inl early)

theorem opened_of_sameLines (reader : PartReader Bytes) {source : Bytes} {unbounded : Bool}
    (sameLines : linesFrom reader.boundary (lines source) =
      linesFrom reader.boundary (lines reader.source))
    (sameMark : unbounded = reader.unbounded ∨
      linesFrom reader.boundary (lines reader.source) = []) :
    { reader with source, unbounded }.opened = reader.opened := by
  simp only [opened, sameLines]
  cases found : linesFrom reader.boundary (lines reader.source) with
  | nil => rfl
  | cons line later =>
      obtain rfl := sameMark.resolve_right (by simp [found])
      rfl

theorem exhausted_unbounded (reader : PartReader Bytes) (marked : reader.unbounded = true) :
    reader.exhausted.unbounded = true := by
  obtain ⟨source, boundary, scanned, phase, partsRead, finished, unbounded⟩ := reader
  cases phase with
  | between => exact marked
  | content atStart => exact (congrArg (· || _) marked).trans (Bool.true_or _)

section Front

variable {body : Bytes} {count : Nat}

/-- The reader that has scanned some of a body from its front. -/
def afterScan (boundary : Text) (body : Bytes) (count : Nat) : PartReader Bytes :=
  (scan count (atFront body boundary)).reader

theorem scan_atFront (boundary : Text) (body : Bytes) (count : Nat) :
    (scan count (atFront body boundary)).bytes ++ (afterScan boundary body count).unscanned =
        (cutContent boundary false body).1 ∧
      (scan count (atFront body boundary)).bytes ++ (afterScan boundary body count).source =
        body ∧
      (afterScan boundary body count).exhausted = (atFront body boundary).exhausted := by
  have sound := scan_slice count (atFront body boundary)
  exact ⟨sound.nothingLost, scan_source count (atFront body boundary), sound.sameEnd⟩

/-- The rest of a line in which a scan stopped counts as a line of its own. -/
theorem next_afterScan (unbroken : '\n' ∉ boundary)
    (plain : opensBoundary boundary (lines body) = false)
    (plainRest : opensBoundary boundary (lines (afterScan boundary body count).source) = false) :
    (afterScan boundary body count).next = (atFront body boundary).next := by
  obtain ⟨-, -, sameEnd⟩ := scan_atFront boundary body count
  obtain ⟨source, phase, unbounded, stands⟩ := scan_frame count (atFront body boundary)
  change afterScan boundary body count = _ at stands
  rw [stands] at plainRest sameEnd ⊢
  let after : PartReader Bytes := { atFront body boundary with source, phase, unbounded }
  have behindFront :
      linesFrom boundary (lines (atFront body boundary).exhausted.source) =
        linesFrom boundary (lines body) :=
    linesFrom_exhausted (atFront body boundary) unbroken plain
  have sameLines : linesFrom boundary (lines source) = linesFrom boundary (lines body) :=
    calc
      _ = linesFrom boundary (lines after.exhausted.source) :=
        (linesFrom_exhausted after unbroken plainRest).symm
      _ = _ := by rw [sameEnd, behindFront]
  -- only the end of the body sets the mark, and then there is no boundary line
  have sameMark : unbounded = false ∨ linesFrom boundary (lines body) = [] := by
    refine or_iff_not_imp_left.mpr fun marked => ?_
    have ended := exhausted_unbounded after (by simpa [after] using marked)
    rw [sameEnd] at ended
    have nothing : (atFront body boundary).exhausted.source = [] := by
      simpa [exhausted, atFront] using ended
    rw [← behindFront, nothing]
    rfl
  rw [next_early unbroken rfl rfl, next_early unbroken rfl rfl]
  exact opened_of_sameLines { atFront body boundary with phase := .between } sameLines sameMark

/-- What reads of any sizes deliver before the first call of `next` is a prefix of the
preamble.  They make no difference to what follows if they stop at the end of a line, or in
a line the rest of which is no boundary line. -/
theorem run_reads_preamble (unbroken : '\n' ∉ boundary)
    (plain : opensBoundary boundary (lines body) = false) (sizes : List Nat) :
    ∃ start, ofSource body boundary = .ok start ∧
      let seen := (start.run (sizes.map .read)).1
      let delivered := seen.flatMap fun call => call.1.bytes
      (∀ call ∈ seen, call.1.fault? = none) ∧ delivered <+: contentOf boundary (lines body) ∧
        (Complete delivered ∨
            opensBoundary boundary (lines (body.drop delivered.length)) = false →
          (start.run (sizes.map .read)).2.SameFromNext start) := by
  refine ⟨_, ofSource_slice body boundary, ?_⟩
  obtain ⟨count, final, delivered, unfailing⟩ := run_reads (atFront body boundary) sizes rfl
  obtain ⟨content, whole, -⟩ := scan_atFront boundary body count
  rw [cutContent_preamble unbroken plain] at content
  simp only [delivered]
  refine ⟨unfailing, ⟨_, content⟩, fun spared => ?_⟩
  generalize (scan count (atFront body boundary)).bytes = front at content whole spared
  have rest : body.drop front.length = (afterScan boundary body count).source :=
    (congrArg (List.drop front.length) whole).symm.trans List.drop_left
  have plainRest : opensBoundary boundary
      (lines (afterScan boundary body count).source) = false := by
    rcases spared with (rfl | fed) | plainRest
    · rw [← rest]
      exact plain
    · rw [← cutContent_preamble unbroken plain, ← whole] at content
      exact not_opensBoundary_of_content unbroken content.symm fed
    · rwa [← rest]
  rw [final]
  exact sameFromNext_of_next (next_afterScan unbroken plain plainRest)

theorem run_reads_preamble_midLine :
    '\n' ∉ "b".toList ∧
      opensBoundary "b".toList (lines (Text.utf8 "p\nqr\n--b\nx\n--b--\n".toList)) = false ∧
      ∃ start, ofSource (Text.utf8 "p\nqr\n--b\nx\n--b--\n".toList) "b".toList = .ok start ∧
        (start.run [.read 1, .read 2]).1.flatMap (fun call => call.1.bytes) =
          Text.utf8 "p\nq".toList ∧
        ((start.run [.read 1, .read 2]).2.run [.next, .read 8]).1.map Prod.fst =
          [.moved (.ok true), .block (.ok (Text.utf8 "x".toList))] := by
  have unbroken : '\n' ∉ "b".toList := by decide
  have plain : opensBoundary "b".toList
      (lines (Text.utf8 "p\nqr\n--b\nx\n--b--\n".toList)) = false := by decide
  obtain ⟨start, made, -, -, same⟩ := run_reads_preamble unbroken plain [1, 2]
  obtain rfl := Except.ok.inj ((ofSource_slice _ _).symm.trans made)
  refine ⟨unbroken, plain, _, made, by decide +kernel, ?_⟩
  refine (congrArg (List.map Prod.fst) (same (.inr (by decide +kernel)) [.read 8])).trans ?_
  decide +kernel

/-- Neither condition can be left out.  A boundary line at the front of the body is read as
preamble, and with it the part that it opens.  A read that stops in front of two dashes turns
the rest of a line into a boundary line. -/
theorem reads_reach_behind_boundary :
    (let start := atFront (Text.utf8 "--b\nx\n--b--\n".toList) "b".toList
     contentOf "b".toList (lines start.source) = [] ∧
       (start.run [.read 16]).1.flatMap (fun call => call.1.bytes) =
         Text.utf8 "--b\nx".toList ∧
       start.next.1 = .ok true ∧ (start.run [.read 16]).2.next.1 = .ok false) ∧
    (let start := atFront (Text.utf8 "x--b\ny\n--b--\n".toList) "b".toList
     start.next.1 = .ok false ∧ (start.run [.read 1]).2.next.1 = .ok true) := by
  decide +kernel

end Front

end LenientMime.Multipart.PartReader
