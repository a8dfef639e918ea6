import LenientMime.Proofs.Multipart.Chunked

namespace LenientMime

/-! Reads that go on after failures.

A read that fails keeps the content it has found, in the reader or in the window below.
A caller that reads on gets the content of the part from where it stood, whatever the
sizes of its reads and wherever the failures strike, and it sees the end where the part
ends.
-/

/-- What is still to come out of a window over a script. -/
def Lookahead.unread (view : Lookahead Script) : Bytes :=
  view.window ++ view.inner.contents

namespace Multipart

def Answer.isBlock : Answer → Bool
  | .block _ => true
  | .moved _ => false

/-- The call came through, or it was a read of an open part that failed. -/
def Unharmed (seen : Answer × Standing) : Prop :=
  seen.1.fault? = none ∨ seen.1.isBlock = true ∧ seen.2.partsRead ≠ 0

instance : DecidablePred Unharmed :=
  fun seen => inferInstanceAs
    (Decidable (seen.1.fault? = none ∨ seen.1.isBlock = true ∧ seen.2.partsRead ≠ 0))

namespace PartReader

section Memory

variable {twin memory after : PartReader Bytes}

/-- The readers are one, or they stand in the same part and have the same behind it. -/
def Beside (twin memory : PartReader Bytes) : Prop :=
  twin = memory ∨ twin.partsRead ≠ 0 ∧ twin.exhausted = memory.exhausted

theorem Beside.next (beside : twin.Beside memory) :
    memory.next = twin.next ∨
      twin.next = (.ok false, twin) ∧ memory.next = (.ok false, memory) := by
  obtain rfl | ⟨opened, samePlace⟩ := beside
  · exact .inl rfl
  · cases ended : twin.finished with
    | false => exact .inl (next_of_exhausted samePlace.symm opened ended)
    | true =>
        have sameEnd := (finished_of_exhausted samePlace.symm).trans ended
        exact .inr ⟨by rw [PartReader.next, if_pos ended], by rw [PartReader.next, if_pos sameEnd]⟩

theorem Beside.read (beside : twin.Beside memory) (limit : Nat) :
    (twin.read limit).2.Beside (memory.read limit).2 := by
  obtain rfl | ⟨opened, samePlace⟩ := beside
  · exact .inl rfl
  · have sameEnd := exhausted_read limit twin
    refine .inr ⟨partsRead_of_exhausted sameEnd ▸ opened, ?_⟩
    rw [sameEnd, samePlace, exhausted_read]

theorem Beside.halted (beside : twin.Beside memory) (count limit : Nat)
    (opened : (twin.halted count).partsRead ≠ 0) :
    (twin.halted count).Beside (memory.read limit).2 := by
  have samePlace : twin.exhausted = memory.exhausted := by
    obtain rfl | ⟨-, samePlace⟩ := beside
    · rfl
    · exact samePlace
  exact .inr ⟨opened, by rw [exhausted_halted, samePlace, exhausted_read]⟩

end Memory

section Recovery

variable {σ : Type} [ByteSource σ] {account : σ → Bytes → List Bytes → Prop} {depth : Nat}
  {reader : PartReader σ} {twin memory : PartReader Bytes} {failures : List Bytes}

/-- No call ends the mirroring, and none brings failures back. -/
theorem Mirrors.goesOn (faithful : ByteSource.Faithful depth account)
    (mirrors : Mirrors account depth reader twin failures) (call : Call) :
    ∃ twinAfter later, Mirrors account depth (reader.call call).2 twinAfter later ∧
      later.length ≤ failures.length := by
  by_cases failed : (reader.call call).1.fault?.isSome
  · obtain ⟨place, later, stopped, rfl, mirrorsAfter, -⟩ := mirrors.stopped faithful failed
    exact ⟨stopped, later, mirrorsAfter, Nat.le_succ _⟩
  · have answered := Option.not_isSome_iff_eq_none.mp failed
    exact ⟨_, failures, (mirrors.call faithful answered).2, Nat.le_refl _⟩

theorem Mirrors.goesOnRun (faithful : ByteSource.Faithful depth account)
    (mirrors : Mirrors account depth reader twin failures) (calls : List Call) :
    ∃ twinAfter later, Mirrors account depth (reader.run calls).2 twinAfter later ∧
      later.length ≤ failures.length := by
  induction calls generalizing reader twin failures with
  | nil => exact ⟨twin, failures, mirrors, Nat.le_refl _⟩
  | cons call calls ih =>
      obtain ⟨middle, left, mirrorsMiddle, fewer⟩ := mirrors.goesOn faithful call
      obtain ⟨final, later, mirrorsFinal, fewerLeft⟩ := ih mirrorsMiddle
      exact ⟨final, later, mirrorsFinal, fewerLeft.trans fewer⟩

theorem Mirrors.besideCall (faithful : ByteSource.Faithful depth account)
    (mirrors : Mirrors account depth reader twin failures) (beside : twin.Beside memory)
    (call : Call)
    (unharmed : Unharmed ((reader.call call).1, (reader.call call).2.standing 0)) :
    ∃ twinAfter later, Mirrors account depth (reader.call call).2 twinAfter later ∧
      later.length ≤ failures.length ∧ twinAfter.Beside (memory.call call).2 := by
  by_cases failed : (reader.call call).1.fault?.isSome
  · obtain ⟨place, later, stopped, rfl, mirrorsAfter, stops⟩ := mirrors.stopped faithful failed
    have unanswered : ¬ (reader.call call).1.fault? = none := by
      simpa [Option.isSome_iff_ne_none] using failed
    obtain ⟨isBlock, opened⟩ := unharmed.resolve_left unanswered
    cases stops with
    | next goesOn back => simp [PartReader.call, Answer.isBlock] at isBlock
    | @read limit count place same =>
        have inPart : (twin.halted count).partsRead ≠ 0 := mirrorsAfter.partsRead_eq ▸ opened
        exact ⟨_, later, mirrorsAfter, Nat.le_succ _, beside.halted count limit inPart⟩
  · have answered := Option.not_isSome_iff_eq_none.mp failed
    refine ⟨_, failures, (mirrors.call faithful answered).2, Nat.le_refl _, ?_⟩
    cases call with
    | read limit => exact beside.read limit
    | next =>
        obtain same | ⟨ended, sameEnd⟩ := beside.next
        · exact .inl (by rw [PartReader.call, PartReader.call, same])
        · rwa [PartReader.call, PartReader.call, ended, sameEnd]

theorem Mirrors.besideRun (faithful : ByteSource.Faithful depth account)
    (mirrors : Mirrors account depth reader twin failures) (beside : twin.Beside memory)
    (calls : List Call) (unharmed : ∀ seen ∈ (reader.run calls).1, Unharmed seen) :
    ∃ twinAfter later, Mirrors account depth (reader.run calls).2 twinAfter later ∧
      later.length ≤ failures.length ∧ twinAfter.Beside (memory.run calls).2 := by
  induction calls generalizing reader twin memory failures with
  | nil => exact ⟨twin, failures, mirrors, Nat.le_refl _, beside⟩
  | cons call calls ih =>
      rw [run_cons, List.forall_mem_cons] at unharmed
      obtain ⟨middle, left, mirrorsMiddle, fewer, besideMiddle⟩ :=
        mirrors.besideCall faithful beside call unharmed.1
      obtain ⟨final, later, mirrorsFinal, fewerLeft, besideFinal⟩ :=
        ih mirrorsMiddle besideMiddle unharmed.2
      exact ⟨final, later, mirrorsFinal, fewerLeft.trans fewer, besideFinal⟩

/-- What a read hands out comes from the front of what remained.  A read for some bytes hands
out one at least, or uses a failure up, unless nothing remained. -/
theorem Mirrors.readOn (faithful : ByteSource.Faithful depth account)
    (mirrors : Mirrors account depth reader twin failures) (limit : Nat) :
    let block := (Answer.block (reader.read limit).1).bytes
    ∃ twinAfter later, Mirrors account depth (reader.read limit).2 twinAfter later ∧
      block ++ twinAfter.remaining = twin.remaining ∧
      (twinAfter.remaining = [] ∨ min limit 1 + later.length ≤ block.length + failures.length) := by
  intro block
  rcases reading : reader.read limit with ⟨fault | block, after⟩
  · obtain ⟨place, later, count, rfl, mirrorsAfter, -⟩ := mirrors.readFailure faithful reading
    simp only [block, reading, Answer.bytes, List.nil_append]
    refine ⟨_, later, mirrorsAfter, remaining_halted count twin, .inr ?_⟩
    simp only [List.length_nil, List.length_cons]
    omega
  · obtain ⟨twinAfter, inMemory, mirrorsAfter⟩ := mirrors.read faithful reading
    obtain ⟨twinAfter', atOnce, left, -, -⟩ := read_slice limit twin
    obtain ⟨rfl, rfl⟩ := by simpa using inMemory.symm.trans atOnce
    simp only [block, reading, Answer.bytes]
    refine ⟨twinAfter, failures, mirrorsAfter, by rw [left, List.take_append_drop], ?_⟩
    rw [left, List.drop_eq_nil_iff, List.length_take]
    omega

/-- What reads hand out one after the other. -/
def delivered (reader : PartReader σ) (limits : List Nat) : Bytes :=
  (reader.run (limits.map .read)).1.flatMap fun seen => seen.1.bytes

theorem Mirrors.delivered (faithful : ByteSource.Faithful depth account)
    (mirrors : Mirrors account depth reader twin failures) (limits : List Nat) :
    ∃ twinAfter later,
      Mirrors account depth (reader.run (limits.map .read)).2 twinAfter later ∧
      reader.delivered limits ++ twinAfter.remaining = twin.remaining ∧
      (twinAfter.remaining = [] ∨ limits.countP (0 < ·) + later.length ≤
        (reader.delivered limits).length + failures.length) := by
  induction limits generalizing reader twin failures with
  | nil => exact ⟨twin, failures, mirrors, rfl, .inr (by simp)⟩
  | cons limit limits ih =>
      obtain ⟨middle, left, mirrorsMiddle, here, paid⟩ := mirrors.readOn faithful limit
      obtain ⟨final, later, mirrorsFinal, behind, paidLater⟩ := ih mirrorsMiddle
      have whole : reader.delivered (limit :: limits) =
          (Answer.block (reader.read limit).1).bytes ++ (reader.read limit).2.delivered limits :=
        rfl
      refine ⟨final, later, mirrorsFinal, ?_, ?_⟩
      · rw [whole, List.append_assoc, behind, here]
      · rw [whole, List.length_append, List.countP_cons]
        rcases paid with nothing | paid
        · rw [nothing] at behind
          exact .inl (List.append_eq_nil_iff.mp behind).2
        · refine paidLater.imp_right fun paidLater => ?_
          have counted : (if decide (0 < limit) = true then 1 else 0) = min limit 1 := by
            cases limit with
            | zero => rfl
            | succ limit => simp
          omega

/-- Enough reads hand out all that remained. -/
theorem Mirrors.delivered_all (faithful : ByteSource.Faithful depth account)
    (mirrors : Mirrors account depth reader twin failures) {limits : List Nat}
    (enough : twin.remaining.length + failures.length ≤ limits.countP (0 < ·)) :
    reader.delivered limits = twin.remaining := by
  obtain ⟨final, later, -, whole, paid⟩ := mirrors.delivered faithful limits
  have nothing : final.remaining = [] := by
    rcases paid with nothing | paid
    · exact nothing
    · refine List.eq_nil_of_length_eq_zero ?_
      have total := congrArg List.length whole
      rw [List.length_append] at total
      omega
  rw [← whole, nothing, List.append_nil]

/-- Behind any reads, one that comes through hands out what comes next. -/
theorem Mirrors.read_delivered (faithful : ByteSource.Faithful depth account)
    (mirrors : Mirrors account depth reader twin failures) {limits : List Nat} {limit : Nat}
    {block : Bytes} {after : PartReader σ}
    (reading : (reader.run (limits.map .read)).2.read limit = (.ok block, after)) :
    block = (twin.remaining.drop (reader.delivered limits).length).take limit ∧
      (0 < limit → (block = [] ↔ reader.delivered limits = twin.remaining)) := by
  obtain ⟨final, later, mirrorsFinal, whole, -⟩ := mirrors.delivered faithful limits
  obtain ⟨finalAfter, inMemory, -⟩ := mirrorsFinal.read faithful reading
  obtain ⟨finalAfter', atOnce, -⟩ := read_slice limit final
  obtain ⟨rfl, -⟩ := by simpa using inMemory.symm.trans atOnce
  rw [← whole, List.drop_left]
  refine ⟨rfl, fun positive => ?_⟩
  rw [List.take_eq_nil_iff, or_iff_right (Nat.ne_of_gt positive), List.self_eq_append_right]

end Recovery

/-- A reader over a script, and what is still to come out of its source, in memory. -/
theorem Mirrors.twin_eq {depth : Nat} {reader : PartReader (Lookahead Script)}
    {twin : PartReader Bytes} {failures : List Bytes}
    (mirrors : Mirrors (Lookahead.Holds Script.Holds depth) depth reader twin failures) :
    twin = reader.onSource reader.source.unread := by
  obtain ⟨source, rfl, ⟨-, unread, whole, ⟨rfl, -⟩, -⟩, -⟩ := mirrors
  change twin = twin.onSource source.unread
  rw [Lookahead.unread, ← whole]
  rfl

/-- Whatever was done before a part was opened, and wherever the stream fails, reads of any
sizes hand out the content of the part in order and without a gap.  The content is what the
opened reader has over the bytes still to come, in memory, where nothing fails.  If before
this part only reads of parts failed, it is what the same calls open in memory.

Every read for some bytes brings the content on or uses up a failure, so that enough of them
bring all of it.  A read that comes through hands out what comes next, and nothing for a
block of some size just when all of the content was handed out. -/
theorem reads_recover {script : Script} (gapless : script.Gapless) {boundary : Text}
    {capacity : Nat} (wide : peekDepth boundary ≤ capacity) :
    ∃ start memory, ofSource (Lookahead.ofCapacity capacity script) boundary = .ok start ∧
      ofSource script.contents boundary = .ok memory ∧
      ∀ early opened, (start.run early).2.next = (.ok true, opened) →
        let part := opened.onSource opened.source.unread
        ((∀ seen ∈ (start.run early).1, Unharmed seen) →
          (memory.run early).2.next = (.ok true, part)) ∧
        ∃ content,
          (∀ sizes, (∀ index, 0 < sizes index) →
            (BlockReader.drainBy sizes part).bytes = content ∧
              (BlockReader.drainBy sizes part).fault = none) ∧
          ∀ limits, opened.delivered limits <+: content ∧
            (content.length + script.failures.length ≤ limits.countP (0 < ·) →
              opened.delivered limits = content) ∧
            ∀ limit block after,
              (opened.run (limits.map .read)).2.read limit = (.ok block, after) →
                block = (content.drop (opened.delivered limits).length).take limit ∧
                (0 < limit → (block = [] ↔ opened.delivered limits = content)) := by
  refine ⟨_, _, ofSource_window _ wide, ofSource_slice _ _, fun early opened moved => ?_⟩
  have held : script.Holds script.contents script.failures := ⟨rfl, rfl, gapless⟩
  have faithful := Lookahead.faithful_holds Script.faithful_holds (peekDepth boundary)
  have mirrorsStart := mirrors_window held wide
  have answered (fault : Fault) : (.ok true : Except Error Bool) ≠ .error (.stream fault) := nofun
  intro part
  refine ⟨fun unharmed => ?_, part.remaining, fun sizes positive => ?_, fun limits => ?_⟩
  · obtain ⟨twin, failures, mirrors, -, beside⟩ :=
      mirrorsStart.besideRun faithful (.inl rfl) early unharmed
    obtain ⟨twinOpened, inMemory, mirrorsOpened⟩ := mirrors.next faithful moved answered
    rw [mirrorsOpened.twin_eq] at inMemory
    rcases beside.next with same | ⟨ended, -⟩
    · exact same.trans inMemory
    · rw [ended] at inMemory
      simp at inMemory
  · rw [drainBy_slice sizes positive]
    exact ⟨rfl, rfl⟩
  · obtain ⟨twin, failures, mirrors, fewer⟩ := mirrorsStart.goesOnRun faithful early
    obtain ⟨twinOpened, -, mirrorsOpened⟩ := mirrors.next faithful moved answered
    obtain rfl : twinOpened = part := mirrorsOpened.twin_eq
    obtain ⟨final, -, -, whole, -⟩ := mirrorsOpened.delivered faithful limits
    refine ⟨⟨_, whole⟩, fun enough => mirrorsOpened.delivered_all faithful ?_,
      fun limit block after reading => mirrorsOpened.read_delivered faithful reading⟩
    omega

/-- Failures inside both parts and inside the line break and the boundary line behind them. -/
def shattered : Script :=
  ⟨[.data (Text.utf8 "--b\nw".toList), .fault (.failed "reset".toList),
    .data (Text.utf8 "\n--b\nxy".toList), .fault (.failed "reset".toList),
    .data (Text.utf8 "z\r".toList), .fault (.failed "reset".toList),
    .data (Text.utf8 "\n--".toList), .fault (.failed "reset".toList),
    .data (Text.utf8 "b--\n".toList)]⟩

theorem reads_recover_shattered :
    (shattered.Gapless ∧ peekDepth "b".toList ≤ 7) ∧
    ∃ start opened, ofSource (Lookahead.ofCapacity 7 shattered) "b".toList = .ok start ∧
      (start.run [.next, .read 9]).2.next = (.ok true, opened) ∧
      ((atFront shattered.contents "b".toList).run [.next, .read 9]).2.next =
        (.ok true, opened.onSource opened.source.unread) ∧
      opened.delivered [9, 0, 1, 9, 9, 1, 2, 9] = Text.utf8 "xyz".toList := by
  have gapless : shattered.Gapless := by decide
  have wide : peekDepth "b".toList ≤ 7 := by decide
  obtain ⟨start, memory, made, inMemory, recovers⟩ := reads_recover gapless wide
  obtain rfl := Except.ok.inj ((ofSource_window _ wide).symm.trans made)
  obtain rfl := Except.ok.inj ((ofSource_slice _ _).symm.trans inMemory)
  rcases moved : ((atFront (Lookahead.ofCapacity 7 shattered) "b".toList).run
      [.next, .read 9]).2.next with ⟨result, opened⟩
  obtain rfl : .ok true = result := by
    refine Eq.trans ?_ (congrArg Prod.fst moved)
    decide +kernel
  obtain ⟨same, content, drained, reads⟩ := recovers [.next, .read 9] opened moved
  have unharmed : ∀ seen ∈ ((atFront (Lookahead.ofCapacity 7 shattered) "b".toList).run
      [.next, .read 9]).1, Unharmed seen := by decide +kernel
  have content_eq : content = Text.utf8 "xyz".toList := by
    obtain rfl := congrArg Prod.snd moved
    rw [← (drained (fun _ => 1) fun _ => Nat.one_pos).1]
    decide +kernel
  refine ⟨⟨gapless, wide⟩, _, opened, made, moved, same unharmed, ?_⟩
  rw [(reads _).2.1 (by rw [content_eq]; decide), content_eq]

end PartReader

end Multipart

end LenientMime
