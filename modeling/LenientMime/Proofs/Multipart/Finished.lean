import LenientMime.Proofs.Multipart.Chunked
import LenientMime.Stream.Script

namespace LenientMime.Multipart

/-! Readers that are finished.

A reader counts the parts that it opens and keeps two marks, that it is finished and that
its source ended early.  Both marks stay once they are set, whatever the source does and
whatever is done to it directly.  A finished reader stands behind its last part and holds
nothing back, so that no call changes it or touches what is left in its source.
-/

/-- What can be done with a reader: a call, or anything directly with its source. -/
inductive Use (σ : Type) where
  | call (call : Call)
  | direct (change : σ → σ)

/-- The parts that an answer opens. -/
def Answer.opened : Answer → Nat
  | .moved (.ok true) => 1
  | _ => 0

/-- The answer that says there is nothing more. -/
def Call.idle : Call → Answer
  | .next => .moved (.ok false)
  | .read _ => .block (.ok [])

/-- What the direct uses alone make of a source. -/
def Use.reach {σ : Type} (source : σ) (uses : List (Use σ)) : σ :=
  uses.foldl (fun source use =>
    match use with
    | .call _ => source
    | .direct change => change source) source

namespace PartReader

variable {σ : Type}

/-- What a finished reader leaves to be read: nothing. -/
def Closed (reader : PartReader σ) : Prop :=
  reader.finished = true → reader.phase = .between ∧ reader.scanned = []

/-- Reading content opens no part and ends nothing.  It can only find the source ended. -/
structure Stays (before after : PartReader σ) : Prop where
  partsRead : after.partsRead = before.partsRead
  finished : after.finished = before.finished
  unbounded : before.unbounded = true → after.unbounded = true

theorem Stays.refl (reader : PartReader σ) : reader.Stays reader :=
  ⟨rfl, rfl, id⟩

theorem Stays.trans {before middle after : PartReader σ} (first : before.Stays middle)
    (second : middle.Stays after) : before.Stays after :=
  ⟨second.partsRead.trans first.partsRead, second.finished.trans first.finished,
    second.unbounded ∘ first.unbounded⟩

variable [ByteSource σ]

/-- How many parts the use opens, and the reader behind it. -/
def use (reader : PartReader σ) : Use σ → Nat × PartReader σ
  | .call call => ((reader.call call).1.opened, (reader.call call).2)
  | .direct change => (0, { reader with source := change reader.source })

def usedBy (reader : PartReader σ) (uses : List (Use σ)) : PartReader σ :=
  uses.foldl (fun reader use => (reader.use use).2) reader

variable {reader after start : PartReader σ}

theorem stays_scan (wanted : Nat) (reader : PartReader σ) :
    reader.Stays (scan wanted reader).reader := by
  fun_induction scan wanted reader with
  | case6 => exact ⟨rfl, rfl, fun _ => rfl⟩
  | case7 _ _ _ _ _ _ _ _ _ ih => exact ⟨ih.partsRead, ih.finished, ih.unbounded⟩
  | _ => exact ⟨rfl, rfl, id⟩

theorem stays_read (limit : Nat) (reader : PartReader σ) :
    reader.Stays (reader.read limit).2 := by
  obtain ⟨partsRead, finished, unbounded⟩ :=
    stays_scan (limit - reader.scanned.length) reader
  rw [read]
  split
  · exact ⟨partsRead, finished, unbounded⟩
  · exact ⟨partsRead, finished, unbounded⟩

theorem stays_discard (reader : PartReader σ) :
    reader.Stays (BlockReader.discard reader).2 := by
  have stays (reader : PartReader σ) := stays_read BlockReader.discardBlock reader
  fun_induction BlockReader.discard reader with
  | case1 reader after reading ih => exact absurd reading read_steady
  | case2 reader fault after counted reading
  | case3 reader after reading =>
      have here := stays reader
      change reader.read _ = _ at reading
      rwa [reading] at here
  | case4 reader byte block after reading ih =>
      have here := stays reader
      change reader.read _ = _ at reading
      rw [reading] at here
      exact here.trans ih

/-- What any use does to the count and the marks of a reader. -/
structure Advances (before : PartReader σ) (opened : Nat) (after : PartReader σ) : Prop where
  partsRead : after.partsRead = before.partsRead + opened
  finished : before.finished = true → after.finished = true
  unbounded : before.unbounded = true → after.unbounded = true
  closed : after.Closed

omit [ByteSource σ] in
theorem Stays.advances (stays : reader.Stays after) (goesOn : reader.finished = false) :
    reader.Advances 0 after := by
  refine ⟨stays.partsRead, fun ended => ?_, stays.unbounded, fun ended => ?_⟩
  · rwa [stays.finished]
  · rw [stays.finished, goesOn] at ended
    contradiction

theorem openPart_advances (reader : PartReader σ) {result : Except Error Bool}
    (behind : reader.phase = .between) (fresh : reader.scanned = []) (goesOn : reader.finished = false)
    (opened : reader.openPart = (result, after)) :
    reader.Advances (Answer.moved result).opened after := by
  have latch {mark : Bool} : reader.finished = true → mark = true := by simp [goesOn]
  fun_induction openPart reader with
  | case1 reader fault source taken =>
      cases opened
      exact ⟨rfl, id, id, fun _ => ⟨behind, fresh⟩⟩
  | case2 reader line source taken reader' kind ih =>
      obtain ⟨partsRead, finished, unbounded, closed⟩ := ih behind fresh goesOn opened latch
      exact ⟨partsRead, finished, unbounded, closed⟩
  | case3 reader line source taken reader' kind =>
      cases opened
      exact ⟨rfl, latch, id, fun _ => ⟨behind, fresh⟩⟩
  | case4 reader line source taken reader' kind =>
      cases opened
      exact ⟨rfl, latch, id, fun ended => absurd ended (by simp [reader', goesOn])⟩
  | case5 reader line source taken reader' kind =>
      cases opened
      exact ⟨rfl, latch, fun _ => rfl, fun _ => ⟨behind, fresh⟩⟩
  | case6 reader line source taken reader' kind early ih =>
      obtain ⟨partsRead, finished, unbounded, closed⟩ := ih behind fresh goesOn opened latch
      exact ⟨partsRead, finished, unbounded, closed⟩
  | case7 reader line source taken reader' kind late shown =>
      cases opened
      exact ⟨rfl, latch, id, fun _ => ⟨behind, fresh⟩⟩

theorem next_advances (goesOn : reader.finished = false) :
    reader.Advances (Answer.moved reader.next.1).opened reader.next.2 := by
  rw [next, if_neg (by simp [goesOn])]
  split
  · obtain ⟨partsRead, finished, unbounded, closed⟩ :=
      openPart_advances { reader with phase := .between, scanned := [] } rfl rfl goesOn rfl
    exact ⟨partsRead, finished, unbounded, closed⟩
  · have stays := stays_discard reader
    cases discarded : BlockReader.discard reader with
    | mk fault left =>
        rw [discarded] at stays
        cases fault with
        | some fault => exact stays.advances goesOn
        | none =>
            have goesOnLeft : left.finished = false := stays.finished.trans goesOn
            obtain ⟨partsRead, finished, unbounded, closed⟩ :=
              openPart_advances { left with phase := .between, scanned := [] } rfl rfl goesOnLeft rfl
            exact ⟨partsRead.trans (congrArg (· + _) stays.partsRead),
              fun ended => absurd ended (by simp [goesOn]), unbounded ∘ stays.unbounded, closed⟩

/-- A finished reader answers every call that there is nothing more, and stays as it is. -/
theorem Closed.call (closed : reader.Closed) (ended : reader.finished = true) (call : Call) :
    reader.call call = (call.idle, reader) := by
  obtain ⟨behind, fresh⟩ := closed ended
  cases call with
  | next => simp only [PartReader.call, next, ended, if_true, Call.idle]
  | read limit =>
      have kept : { reader with scanned := [] } = reader := by rw [← fresh]
      have nothing : reader.read limit = (.ok [], reader) := by
        simp only [read, scan_between behind, fresh, List.nil_append, List.take_nil,
          List.drop_nil, kept]
      simp only [PartReader.call, nothing, Call.idle]

theorem Closed.use (closed : reader.Closed) (use : Use σ) :
    reader.Advances (reader.use use).1 (reader.use use).2 := by
  cases use with
  | direct change => exact ⟨rfl, id, id, closed⟩
  | call call =>
      cases ended : reader.finished with
      | true =>
          rw [PartReader.use, closed.call ended]
          cases call <;> exact ⟨rfl, id, id, closed⟩
      | false =>
          cases call with
          | next => exact next_advances ended
          | read limit =>
              have advances := (stays_read limit reader).advances ended
              rw [PartReader.use, PartReader.call]
              cases reading : (reader.read limit).1 <;> exact advances

theorem Closed.usedBy (closed : reader.Closed) (uses : List (Use σ)) :
    (reader.usedBy uses).Closed := by
  induction uses generalizing reader with
  | nil => exact closed
  | cons use later ih => exact ih (closed.use use).closed

/-- Only what is done directly to its source changes a finished reader. -/
theorem usedBy_of_finished (reader : PartReader σ) (closed : reader.Closed)
    (ended : reader.finished = true) (uses : List (Use σ)) :
    reader.usedBy uses = { reader with source := Use.reach reader.source uses } := by
  induction uses generalizing reader with
  | nil => rfl
  | cons use later ih =>
      cases use with
      | direct change => exact ih { reader with source := change reader.source } closed ended
      | call call =>
          have stays : (reader.use (.call call)).2 = reader := by
            rw [PartReader.use, closed.call ended]
          rw [PartReader.usedBy, List.foldl_cons, stays]
          exact ih reader closed ended

/-- The count of parts grows by one with every part that is opened and never otherwise, and
no mark is taken back.  Once a reader is finished, every call finds nothing more and leaves
the reader and its source as they are. -/
theorem usedBy_settles {source : σ} {boundary : Text}
    (made : ofSource source boundary = .ok start) (early : List (Use σ)) :
    let reader := start.usedBy early
    (∀ use, (reader.use use).2.partsRead = reader.partsRead + (reader.use use).1 ∧
      (reader.finished = true → (reader.use use).2.finished = true) ∧
      (reader.unbounded = true → (reader.use use).2.unbounded = true)) ∧
    (reader.finished = true → ∀ later,
      reader.usedBy later = { reader with source := Use.reach reader.source later } ∧
      ∀ call, (reader.usedBy later).call call = (call.idle, reader.usedBy later)) := by
  intro reader
  have closedStart : start.Closed := by
    rw [eq_atFront_of_ofSource made]
    exact fun ended => nomatch ended
  have closed : reader.Closed := closedStart.usedBy early
  refine ⟨fun use => ?_, fun ended later => ?_⟩
  · obtain ⟨partsRead, finished, unbounded, -⟩ := closed.use use
    exact ⟨partsRead, finished, unbounded⟩
  · have unchanged := usedBy_of_finished reader closed ended later
    refine ⟨unchanged, fun call => (closed.usedBy later).call ?_ call⟩
    rw [unchanged]
    exact ended

/-- A failure inside a part, and an epilogue. -/
def interruptedPart : Script :=
  ⟨[.data (Text.utf8 "--b\nx".toList), .fault (.failed "reset".toList),
    .data (Text.utf8 "y\n--b--\nend".toList)]⟩

/-- The epilogue stays for whoever takes it directly. -/
theorem usedBy_settles_interrupted :
    ∃ start, ofSource (Lookahead.ofCapacity 7 interruptedPart) "b".toList = .ok start ∧
      let reader := start.usedBy [.call .next, .call .next, .call (.read 1), .call .next]
      reader.partsRead = 1 ∧ reader.finished = true ∧
        (reader.call .next).1 = .moved (.ok false) ∧
        remainder 0 (reader.usedBy [.call .next, .call (.read 9)]).source =
          (Text.utf8 "end".toList, none) ∧
        remainder 0 (reader.usedBy [.call .next,
          .direct fun source => (ByteSource.take source).2, .call (.read 9)]).source =
          (Text.utf8 "nd".toList, none) := by
  have wide : peekDepth "b".toList ≤ 7 := by decide
  have made := ofSource_window interruptedPart wide
  refine ⟨_, made, ?_⟩
  intro reader
  have ended : reader.finished = true := by decide +kernel
  have settled := (usedBy_settles made
    [.call .next, .call .next, .call (.read 1), .call .next]).2 ended
  have nothing := (settled []).2 .next
  refine ⟨by decide +kernel, ended, congrArg Prod.fst nothing, ?_, ?_⟩
  · rw [(settled _).1]
    decide +kernel
  · rw [(settled _).1]
    decide +kernel

end PartReader

end LenientMime.Multipart
