import LenientMime.Multipart.PartReader
import LenientMime.Proofs.Multipart.Content
import LenientMime.Proofs.Stream.Schedule

namespace LenientMime.Multipart.PartReader

open Bytes

/-- The content of the open part that was not taken from the source yet. -/
def unscanned (reader : PartReader Bytes) : Bytes :=
  match reader.phase with
  | .between => []
  | .content atStart => (cutContent reader.boundary atStart reader.source).1

/-- The content of the open part that was not handed out yet. -/
def remaining (reader : PartReader Bytes) : Bytes :=
  reader.scanned ++ reader.unscanned

/-- The reader behind the open part. -/
def exhausted (reader : PartReader Bytes) : PartReader Bytes :=
  match reader.phase with
  | .between => { reader with scanned := [] }
  | .content atStart =>
      let left := (cutContent reader.boundary atStart reader.source).2
      { reader with
        source := left, scanned := [], phase := .between
        unbounded := reader.unbounded || left.isEmpty }

variable {boundary : Text}

theorem leadOf?_cons (atStart : Bool) (byte : UInt8) (rest : Bytes) :
    leadOf? atStart (byte :: rest) =
      if byte = Byte.carriageReturn then some [Byte.carriageReturn, Byte.lineFeed]
      else if byte = Byte.lineFeed then some [Byte.lineFeed]
      else if atStart then some [] else none := by
  by_cases half : byte = Byte.carriageReturn
  · subst half
    rfl
  · by_cases feed : byte = Byte.lineFeed
    · subst feed
      rfl
    · simp [leadOf?, half, feed]

theorem leadOf?_take (atStart : Bool) (bytes : Bytes) :
    leadOf? atStart (bytes.take 1) = leadOf? atStart bytes := by
  cases bytes with
  | nil => rfl
  | cons byte rest => rw [List.take_succ_cons, leadOf?_cons, leadOf?_cons]

theorem take_nil : ByteSource.take ([] : Bytes) = (.ok none, []) :=
  rfl

theorem take_cons (byte : UInt8) (rest : Bytes) :
    ByteSource.take (byte :: rest) = (.ok (some byte), rest) :=
  rfl

theorem boundaryAhead_slice (boundary : Text) (atStart : Bool) (bytes : Bytes) :
    boundaryAhead boundary atStart bytes =
      (.ok (startsDelimiter boundary atStart bytes), bytes) := by
  simp only [boundaryAhead, ByteSource.peek, leadOf?_take, startsDelimiter]
  cases leadOf? atStart bytes with
  | none => rfl
  | some lead => simp only [showsDelimiter_take]

structure ScanSound (wanted : Nat) (reader : PartReader Bytes) (found : Scan Bytes) : Prop where
  unfailing : found.fault = none
  nothingLost : found.bytes ++ found.reader.unscanned = reader.unscanned
  stopped : found.bytes.length < wanted → found.reader.phase = .between
  sameEnd : found.reader.exhausted = reader.exhausted

theorem cutContent_of_startsDelimiter {atStart : Bool} {bytes : Bytes}
    (starts : startsDelimiter boundary atStart bytes = true) :
    cutContent boundary atStart bytes = ([], bytes) ∧ bytes ≠ [] := by
  cases bytes with
  | nil => simp [startsDelimiter, leadOf?] at starts
  | cons byte rest => exact ⟨by simp only [cutContent, starts, if_true], by simp⟩

theorem scan_slice (wanted : Nat) (reader : PartReader Bytes) :
    ScanSound wanted reader (scan wanted reader) := by
  induction wanted generalizing reader with
  | zero =>
      exact ⟨rfl, rfl, fun impossible => absurd impossible (Nat.lt_irrefl _), rfl⟩
  | succ wanted ih =>
      obtain ⟨source, boundary, scanned, phase, partsRead, finished, unbounded⟩ := reader
      cases phase with
      | between => exact ⟨rfl, rfl, fun _ => rfl, rfl⟩
      | content atStart =>
          simp only [scan, boundaryAhead_slice]
          cases starts : startsDelimiter boundary atStart source with
          | true =>
              obtain ⟨uncut, nonempty⟩ := cutContent_of_startsDelimiter starts
              refine ⟨rfl, ?_, fun _ => rfl, ?_⟩
              · simp [unscanned, uncut]
              · simp [exhausted, uncut, nonempty]
          | false =>
              cases source with
              | nil =>
                  simp only [take_nil]
                  exact ⟨rfl, rfl, fun _ => rfl, by simp [exhausted, cutContent]⟩
              | cons byte rest =>
                  have later := ih ⟨rest, boundary, scanned, .content false, partsRead, finished,
                    unbounded⟩
                  have cut : cutContent boundary atStart (byte :: rest) =
                      (byte :: (cutContent boundary false rest).1,
                        (cutContent boundary false rest).2) := by
                    simp only [cutContent, starts, Bool.false_eq_true, if_false]
                  simp only [take_cons, Scan.after]
                  refine ⟨later.unfailing, ?_, ?_, ?_⟩
                  · simp only [List.cons_append, later.nothingLost]
                    simp only [unscanned, cut]
                  · exact fun short => later.stopped (Nat.lt_of_succ_lt_succ short)
                  · rw [later.sameEnd]
                    simp only [exhausted, cut]

theorem exhausted_scanned (reader : PartReader Bytes) (scanned : Bytes) :
    { reader with scanned }.exhausted = reader.exhausted := by
  obtain ⟨source, boundary, held, phase, partsRead, finished, unbounded⟩ := reader
  cases phase <;> rfl

theorem exhausted_between {reader : PartReader Bytes} (behind : reader.phase = .between) :
    reader.exhausted = { reader with scanned := [] } ∧ reader.unscanned = [] := by
  constructor
  · rw [exhausted, behind]
  · rw [unscanned, behind]

/-- A read hands out the front of what remains, as much as it is asked for, and
reaches the reader behind the part when it is asked for more. -/
theorem read_slice (limit : Nat) (reader : PartReader Bytes) :
    ∃ after, read limit reader = (.ok (reader.remaining.take limit), after) ∧
      after.remaining = reader.remaining.drop limit ∧
      after.exhausted = reader.exhausted ∧
      (reader.remaining.length < limit → after = reader.exhausted) := by
  obtain ⟨unfailing, nothingLost, stopped, sameEnd⟩ :=
    scan_slice (limit - reader.scanned.length) reader
  simp only [read, unfailing]
  generalize scan (limit - reader.scanned.length) reader = found at *
  have whole : reader.remaining =
      (reader.scanned ++ found.bytes) ++ found.reader.unscanned := by
    rw [remaining, ← nothingLost, List.append_assoc]
  by_cases short : (reader.scanned ++ found.bytes).length < limit
  · have behind : found.reader.phase = .between := by
      refine stopped ?_
      rw [List.length_append] at short
      omega
    obtain ⟨atEnd, nothing⟩ := exhausted_between behind
    rw [nothing, List.append_nil] at whole
    rw [whole]
    refine ⟨_, rfl, ?_, ?_, fun _ => ?_⟩
    · show List.drop limit _ ++ found.reader.unscanned = _
      rw [nothing, List.append_nil]
    · rw [exhausted_scanned, sameEnd]
    · rw [← sameEnd, atEnd, List.drop_eq_nil_of_le (Nat.le_of_lt short)]
  · have long := Nat.le_of_not_lt short
    rw [whole, List.take_append_of_le_length long, List.drop_append_of_le_length long]
    refine ⟨_, rfl, rfl, ?_, fun impossible => ?_⟩
    · rw [exhausted_scanned, sameEnd]
    · rw [List.length_append] at impossible
      omega

theorem exhausted_read (limit : Nat) (reader : PartReader Bytes) :
    (reader.read limit).2.exhausted = reader.exhausted := by
  obtain ⟨after, reading, -, sameEnd, -⟩ := read_slice limit reader
  rw [reading]
  exact sameEnd

/-- Reading to the end hands out what remains, whatever the sizes of the reads. -/
theorem drainBy_slice (sizes : Nat → Nat) (positive : ∀ index, 0 < sizes index)
    (reader : PartReader Bytes) :
    BlockReader.drainBy sizes reader =
      { bytes := reader.remaining, fault := none, stream := reader.exhausted } := by
  induction length : reader.remaining.length using Nat.strongRecOn generalizing sizes reader with
  | ind length ih =>
      subst length
      obtain ⟨after, reading, left, sameEnd, reached⟩ := read_slice (sizes 0) reader
      have nonzero := positive 0
      change BlockReader.read (sizes 0) reader = _ at reading
      rw [BlockReader.drainBy, reading]
      cases block : reader.remaining.take (sizes 0) with
      | nil =>
          have nothing : reader.remaining = [] := by
            simpa [Nat.ne_of_gt nonzero] using block
          simp only [nothing, reached (by simpa [nothing] using nonzero)]
      | cons byte rest =>
          have shorter : after.remaining.length < reader.remaining.length :=
            left ▸ BlockReader.length_drop_lt block
          have later := ih _ shorter (fun index => sizes (index + 1))
            (fun index => positive (index + 1)) after rfl
          simp only [later, BlockReader.Drained.after, sameEnd, left, ← block,
            List.take_append_drop]

theorem discard_slice (reader : PartReader Bytes) :
    BlockReader.discard reader = (none, reader.exhausted) := by
  induction length : reader.remaining.length using Nat.strongRecOn generalizing reader with
  | ind length ih =>
      subst length
      obtain ⟨after, reading, left, sameEnd, reached⟩ :=
        read_slice BlockReader.discardBlock reader
      have nonzero : 0 < BlockReader.discardBlock := by decide
      change BlockReader.read BlockReader.discardBlock reader = _ at reading
      rw [BlockReader.discard, reading]
      cases block : reader.remaining.take BlockReader.discardBlock with
      | nil =>
          have nothing : reader.remaining = [] := by
            simpa [Nat.ne_of_gt nonzero] using block
          simp only [reached (by simpa [nothing] using nonzero)]
      | cons byte rest =>
          have shorter : after.remaining.length < reader.remaining.length :=
            left ▸ BlockReader.length_drop_lt block
          simp only [ih _ shorter after rfl, sameEnd]

end LenientMime.Multipart.PartReader
