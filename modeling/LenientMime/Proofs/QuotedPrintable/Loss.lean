import LenientMime.Proofs.QuotedPrintable.Stream
import LenientMime.Proofs.Stream.Conservation

namespace LenientMime.QuotedPrintable

/-! What a failed read loses.

A read that fails drops what it had spelled out and what the read before had left over, and an
equals sign that it took but could not look behind.  Nothing of that comes again.  A read that
fails with empty hands drops nothing, and the reads behind it go on where it stood.
-/

section Lengths

variable {piece : Piece}

/-- A piece that is neither a line break nor belongs to one. -/
structure InLine (piece : Piece) : Prop where
  feed : piece ≠ .plain Byte.lineFeed
  kept : ¬ (piece = .plain Byte.carriageReturn ∨ piece = .softBreak)

theorem place_inLine (inLine : InLine piece) (length : Nat) :
    place length piece =
      if lineLimit < length + piece.spelling.length then
        (softLineBreak ++ piece.spelling, piece.spelling.length)
      else (piece.spelling, length + piece.spelling.length) := by
  rw [place, if_neg inLine.feed, if_neg inLine.kept]

theorem length_layOut_inLine (inLine : InLine piece) (length : Nat) (later : List Piece) :
    (layOut length (piece :: later)).length =
      if lineLimit < length + piece.spelling.length then
        3 + piece.spelling.length + (layOut piece.spelling.length later).length
      else
        piece.spelling.length + (layOut (length + piece.spelling.length) later).length := by
  rw [layOut, place_inLine inLine]
  split <;> simp only [softLineBreak, List.length_append, List.length_cons, List.length_nil]

/-- A longer line costs one soft line break more at most, and never one less. -/
theorem length_layOut_le (pieces : List Piece) (first second : Nat) :
    (layOut first pieces).length ≤ (layOut second pieces).length + 3 ∧
      (first ≤ second → (layOut first pieces).length ≤ (layOut second pieces).length) := by
  induction pieces generalizing first second with
  | nil => exact ⟨Nat.zero_le _, fun _ => Nat.le_refl _⟩
  | cons piece later ih =>
      by_cases feed : piece = .plain Byte.lineFeed
      · simp only [feed, layOut, place_lineFeed]
        exact ⟨Nat.le_add_right _ _, fun _ => Nat.le_refl _⟩
      by_cases kept : piece = .plain Byte.carriageReturn ∨ piece = .softBreak
      · have same := ih first second
        simp only [layOut, place, if_neg feed, if_pos kept, List.length_append]
        omega
      · have inLine : InLine piece := ⟨feed, kept⟩
        have bothGoOn := ih (first + piece.spelling.length) (second + piece.spelling.length)
        have firstGoesOn := ih (first + piece.spelling.length) piece.spelling.length
        have secondGoesOn := ih piece.spelling.length (second + piece.spelling.length)
        rw [length_layOut_inLine inLine, length_layOut_inLine inLine]
        split <;> split <;> omega

theorem ofByte_of_isHexDigit {byte : UInt8} (digit : Byte.isHexDigit byte = true) :
    Piece.ofByte byte = .plain byte ∧ InLine (.plain byte) ∧ byte ≠ Byte.equals := by
  have range := Byte.toNat_of_isHexDigit digit
  have printable : Byte.isPrintable byte = true := by
    rw [Byte.isPrintable, Bool.and_eq_true, decide_eq_true_eq, decide_eq_true_eq,
      UInt8.le_iff_toNat_le, UInt8.le_iff_toNat_le]
    change 0x20 ≤ byte.toNat ∧ byte.toNat ≤ 0x7E
    omega
  refine ⟨by simp [Piece.ofByte, printable], ⟨?_, ?_⟩, ?_⟩
  · rintro ⟨⟩
    exact absurd range (by decide)
  · rintro (⟨⟨⟩⟩ | ⟨⟨⟩⟩)
    exact absurd range (by decide)
  · rintro rfl
    exact absurd range (by decide)

/-- A spelling of three bytes costs these, whatever it does to the lines behind it. -/
theorem length_layOut_triple (inLine : InLine piece) (three : piece.spelling.length = 3)
    (length : Nat) (later : List Piece) :
    (layOut length later).length + 3 ≤ (layOut length (piece :: later)).length := by
  have goesOn := length_layOut_le later length (length + 3)
  have broken := length_layOut_le later length 3
  rw [length_layOut_inLine inLine, three]
  split <;> omega

/-- The digits of an escape cost less without its equals sign. -/
theorem length_layOut_digits {high low : UInt8} (upper : Byte.isHexDigit high = true)
    (lower : Byte.isHexDigit low = true) (length : Nat) (rest : Bytes) :
    (layOut length (pieces (high :: low :: rest))).length <
      (layOut length (.escape high low :: pieces rest)).length := by
  obtain ⟨plainHigh, inLineHigh, solidHigh⟩ := ofByte_of_isHexDigit upper
  obtain ⟨plainLow, inLineLow, solidLow⟩ := ofByte_of_isHexDigit lower
  have inLine : InLine (.escape high low) := ⟨by simp, by simp⟩
  have goesOn := length_layOut_le (pieces rest) (length + 2) (length + 3)
  have broken := length_layOut_le (pieces rest) (length + 2) 3
  have brokenLow := length_layOut_le (pieces rest) 1 3
  have brokenHigh := length_layOut_le (pieces rest) 2 3
  have limit : lineLimit = 995 := rfl
  rw [pieces_cons solidHigh, pieces_cons solidLow, plainHigh, plainLow,
    length_layOut_inLine inLine, length_layOut_inLine inLineHigh, length_layOut_inLine inLineLow,
    length_layOut_inLine inLineLow]
  simp only [Piece.spelling, List.length_cons, List.length_nil, Nat.zero_add, Nat.add_assoc,
    Nat.reduceAdd]
  split <;> split <;> split <;> omega

/-- An equals sign is never taken away for nothing. -/
theorem length_layOut_equals (length : Nat) (rest : Bytes) :
    (layOut length (pieces rest)).length <
      (layOut length (pieces (Byte.equals :: rest))).length := by
  rw [pieces_equals]
  have found := behindEquals_ofEquals rest
  generalize Piece.ofEquals rest = piece at found
  cases found with
  | lineFeed later =>
      rw [layOut, place_softBreak, List.length_append]
      exact Nat.lt_add_of_pos_left Nat.one_pos
  | crlf later =>
      rw [layOut, place_softBreak, List.length_append]
      exact Nat.lt_add_of_pos_left Nat.one_pos
  | escape later spelled =>
      obtain ⟨upper, lower⟩ := Byte.isHexDigit_of_ofHexPair? spelled
      exact length_layOut_digits upper lower length later
  | alone alone =>
      have inLine : InLine .stray := ⟨by simp, by simp⟩
      have cost := length_layOut_triple inLine rfl length (pieces rest)
      exact Nat.lt_of_lt_of_le (Nat.lt_add_of_pos_right (by decide)) cost

end Lengths

/-- What is given and left is the whole if nothing was to be lost, and shorter otherwise. -/
structure LosesUnless (spared : Prop) (left whole : Bytes) : Prop where
  nothing : spared → left = whole
  something : ¬ spared → left.length < whole.length

namespace LosesUnless

variable {spared sparedLater : Prop} {block middle rest left whole : Bytes}

theorem length_le (loses : LosesUnless spared left whole) : left.length ≤ whole.length := by
  by_cases kept : spared
  · exact Nat.le_of_eq (congrArg List.length (loses.nothing kept))
  · exact Nat.le_of_lt (loses.something kept)

theorem of_lt (lost : ¬ spared) (less : left.length < whole.length) :
    LosesUnless spared left whole :=
  ⟨fun kept => absurd kept lost, fun _ => less⟩

theorem trans (front : LosesUnless spared (block ++ middle) whole)
    (back : LosesUnless sparedLater rest middle) :
    LosesUnless (spared ∧ sparedLater) (block ++ rest) whole := by
  refine ⟨fun both => ?_, fun lost => ?_⟩
  · obtain ⟨kept, keptLater⟩ := both
    rw [back.nothing keptLater, front.nothing kept]
  · have before := front.length_le
    have behind := back.length_le
    rw [List.length_append] at before ⊢
    by_cases kept : spared
    · have less := back.something fun keptLater => lost ⟨kept, keptLater⟩
      omega
    · have less := front.something kept
      rw [List.length_append] at less
      omega

end LosesUnless

namespace Mender

variable {ρ : Type} [BlockReader ρ] {account : ρ → Bytes → List Bytes → Prop}
  {mender after : Mender ρ} {unread : Bytes} {failures : List Bytes}

/-- Nothing is left over, and the stream fails at the first byte that is taken from it. -/
def EmptyHanded (mender : Mender ρ) : Prop :=
  mender.overflow = [] ∧ mender.source.take.1.isOk = false

/-- A read of this size comes through or fails with empty hands. -/
def Spares (mender : Mender ρ) (size : Nat) : Prop :=
  (mender.read size).1.isOk = false → mender.EmptyHanded

/-- All reads of a caller that goes on after failures come through or fail with empty hands. -/
def Spared (mender : Mender ρ) : List Nat → Prop
  | [] => True
  | size :: later => mender.Spares size ∧ (mender.read size).2.Spared later

instance (mender : Mender ρ) : Decidable mender.EmptyHanded :=
  inferInstanceAs (Decidable (mender.overflow = [] ∧ mender.source.take.1.isOk = false))

instance (mender : Mender ρ) (size : Nat) : Decidable (mender.Spares size) :=
  inferInstanceAs (Decidable ((mender.read size).1.isOk = false → mender.EmptyHanded))

instance decidableSpared (mender : Mender ρ) : (sizes : List Nat) → Decidable (mender.Spared sizes)
  | [] => inferInstanceAs (Decidable True)
  | size :: later =>
      have := decidableSpared (mender.read size).2 later
      inferInstanceAs (Decidable (mender.Spares size ∧ (mender.read size).2.Spared later))

theorem take_of_takePiece {source after : Lookahead ρ} {piece : Piece}
    (taken : takePiece source = (.ok (some piece), after)) : source.take.1.isOk = true := by
  unfold takePiece at taken
  split at taken
  · cases taken
  · cases taken
  · next taking => rw [taking]; rfl

/-- A failed gathering leaves what the stream was to be laid out as, if it failed at the first
byte, and less otherwise. -/
theorem gather_failure (faithful : BlockReader.Faithful account) (room : Nat)
    (mender : Mender ρ) :
    ∀ unread, mender.source.Holds account 2 unread failures →
      ∀ fault, (gather room mender).fault = some fault →
      ∃ rest place later, failures = place :: later ∧
        (gather room mender).mender.source.Holds account 2 rest later ∧
        LosesUnless (mender.source.take.1.isOk = false)
          (layOut (gather room mender).mender.lineLength (pieces rest))
          (layOut mender.lineLength (pieces unread)) := by
  fun_induction gather room mender with
  | case1 =>
      intro _ _ _ failed
      cases failed
  | case2 room mender _ fault source taken =>
      intro unread holds _ _
      obtain ⟨place, later, failing, struck⟩ := takePiece_failure faithful holds taken
      rcases struck with ⟨failed, holdsAfter⟩ | ⟨rest, rfl, equals, holdsAfter⟩
      · refine ⟨unread, place, later, failing, holdsAfter, fun _ => rfl, fun came => ?_⟩
        exact absurd (by rw [failed]; rfl) came
      · exact ⟨rest, place, later, failing, holdsAfter,
          .of_lt (by rw [equals]; exact Bool.noConfusion) (length_layOut_equals _ rest)⟩
  | case3 =>
      intro _ _ _ failed
      cases failed
  | case4 room mender _ piece source taken placed ih =>
      intro unread holds fault failed
      obtain ⟨behind, cut, holdsBehind⟩ := takePiece_piece faithful holds taken
      obtain ⟨rest, place, later, failing, holdsRest, loses⟩ := ih behind holdsBehind fault failed
      refine ⟨rest, place, later, failing, holdsRest, .of_lt ?_ ?_⟩
      · rw [take_of_takePiece taken]
        exact Bool.noConfusion
      · have positive := length_place_pos mender.lineLength piece
        have bound := loses.length_le
        rw [cut, layOut, List.length_append]
        exact Nat.lt_of_le_of_lt bound (Nat.lt_add_of_pos_left positive)

theorem overflow_gather (room : Nat) (mender : Mender ρ) :
    (gather room mender).mender.overflow = mender.overflow := by
  fun_induction gather room mender with
  | case1 => rfl
  | case2 => rfl
  | case3 => rfl
  | case4 _ _ _ _ _ _ _ ih => exact ih

/-- What a failed read leaves. -/
theorem read_failure (faithful : BlockReader.Faithful account) {limit : Nat} {fault : Fault}
    (holds : mender.source.Holds account 2 unread failures)
    (reading : mender.read limit = (.error fault, after)) :
    ∃ rest place later, failures = place :: later ∧ after.source.Holds account 2 rest later ∧
      LosesUnless mender.EmptyHanded (after.due rest) (mender.due unread) := by
  have gathers := gather_failure faithful (limit - mender.overflow.length)
    { mender with overflow := [] } unread holds
  have emptied := overflow_gather (limit - mender.overflow.length)
    { mender with overflow := [] }
  rw [Mender.read] at reading
  generalize gather (limit - mender.overflow.length) { mender with overflow := [] } = gathered
    at gathers emptied reading
  cases failing : gathered.fault with
  | none => simp [failing] at reading
  | some reason =>
      obtain ⟨rest, place, later, struck, holdsRest, loses⟩ := gathers reason failing
      simp only [failing] at reading
      obtain ⟨-, rfl⟩ := by simpa using reading
      refine ⟨rest, place, later, struck, holdsRest, ?_⟩
      rw [due, due, emptied, List.nil_append]
      cases held : mender.overflow with
      | nil =>
          exact ⟨fun empty => loses.nothing empty.2,
            fun full => loses.something fun failed => full ⟨held, failed⟩⟩
      | cons byte overflow =>
          have bound : (layOut gathered.mender.lineLength (pieces rest)).length ≤
              (layOut mender.lineLength (pieces unread)).length := loses.length_le
          refine .of_lt (fun empty => List.cons_ne_nil _ _ (held.symm.trans empty.1)) ?_
          rw [List.length_append, List.length_cons]
          omega

/-- A read gives the front of what is due and leaves the rest, unless it fails with something in
its hands.  It brings the end closer, or it is a failure, or there was nothing due. -/
theorem read_step (faithful : BlockReader.Faithful account) {size : Nat} (positive : 0 < size)
    (holds : mender.source.Holds account 2 unread failures) :
    let answer := (mender.read size).1
    let after := (mender.read size).2
    ∃ rest later, after.source.Holds account 2 rest later ∧
      LosesUnless (mender.Spares size) (handedOver answer ++ after.due rest)
        (mender.due unread) ∧
      (answer = .ok [] → mender.due unread = []) ∧
      (answer = .ok [] ∨ 1 + later.length ≤ (handedOver answer).length + failures.length) := by
  cases reading : mender.read size with
  | mk answer after =>
      cases answer with
      | error fault =>
          obtain ⟨rest, place, later, rfl, holdsRest, loses⟩ :=
            read_failure faithful holds reading
          have same : mender.Spares size ↔ mender.EmptyHanded := by
            rw [Spares, reading]
            exact ⟨fun spares => spares rfl, fun empty _ => empty⟩
          rw [← same] at loses
          refine ⟨rest, later, holdsRest, loses, fun came => ?_, .inr ?_⟩
          · cases came
          · rw [List.length_cons, handedOver]
            exact Nat.le_of_eq (by rw [List.length_nil, Nat.zero_add, Nat.add_comm])
      | ok block =>
          obtain ⟨rest, holdsRest, given, left⟩ := read_due faithful holds reading
          have spares : mender.Spares size := by
            rw [Spares, reading]
            exact Bool.noConfusion
          have whole : block ++ after.due rest = mender.due unread := by
            rw [given, left, List.take_append_drop]
          refine ⟨rest, failures, holdsRest, ⟨fun _ => whole, fun lost => absurd spares lost⟩,
            fun nothing => ?_, ?_⟩
          · obtain rfl := Except.ok.inj nothing
            simpa [Nat.ne_of_gt positive] using given.symm
          · cases block with
            | nil => exact .inl rfl
            | cons byte block =>
                right
                simp only [handedOver, List.length_cons]
                omega

/-- What a caller that goes on after failures has been given, and what is left, after any number
of reads. -/
theorem readAll_due (faithful : BlockReader.Faithful account)
    (holds : mender.source.Holds account 2 unread failures) {sizes : List Nat}
    (positive : ∀ size ∈ sizes, 0 < size) :
    let answers := (BlockReader.readAll mender sizes).1
    let final := (BlockReader.readAll mender sizes).2
    ∃ rest later, final.source.Holds account 2 rest later ∧
      LosesUnless (mender.Spared sizes) (answers.flatMap handedOver ++ final.due rest)
        (mender.due unread) ∧
      (.ok [] ∈ answers → final.due rest = []) ∧
      (.ok [] ∈ answers ∨
        sizes.length + later.length ≤ (answers.flatMap handedOver).length + failures.length) := by
  induction sizes generalizing mender unread failures with
  | nil =>
      exact ⟨unread, failures, holds, ⟨fun _ => rfl, fun lost => absurd trivial lost⟩,
        fun member => absurd member List.not_mem_nil, .inr (Nat.le_refl _)⟩
  | cons size sizes ih =>
      rw [List.forall_mem_cons] at positive
      obtain ⟨middle, left, holdsMiddle, loses, nothing, paid⟩ :=
        read_step faithful positive.1 holds
      obtain ⟨rest, later, holdsRest, losesLater, ended, paidLater⟩ :=
        ih holdsMiddle positive.2
      have run : BlockReader.readAll mender (size :: sizes) =
          ((mender.read size).1 :: (BlockReader.readAll (mender.read size).2 sizes).1,
            (BlockReader.readAll (mender.read size).2 sizes).2) := rfl
      simp only [run, List.flatMap_cons, List.append_assoc]
      refine ⟨rest, later, holdsRest, loses.trans losesLater, fun member => ?_, ?_⟩
      · rcases List.mem_cons.mp member with here | behind
        · have before := loses.length_le
          have behind := losesLater.length_le
          rw [nothing here.symm, List.length_append, List.length_nil] at before
          rw [List.length_append] at behind
          exact List.eq_nil_of_length_eq_zero (by omega)
        · exact ended behind
      · rcases paid with here | paid
        · exact .inl (List.mem_cons.mpr (.inl here.symm))
        · refine paidLater.imp (List.mem_cons_of_mem _) fun paidLater => ?_
          rw [List.length_cons, List.length_append]
          omega

/-- Reads that go on after failures, over a stream that fails anywhere, come to an end.  They have
then given the mended text exactly if every read that failed failed with empty hands, and up to
there what they give is the front of it. -/
theorem readAll_eq_mend_iff {script : Script} (gapless : script.Gapless) {sizes : List Nat}
    (positive : ∀ size ∈ sizes, 0 < size) :
    let start := ofStream script
    let answers := (BlockReader.readAll start sizes).1
    let given := answers.flatMap handedOver
    ((mend script.contents).length + script.failures.length < sizes.length →
        .ok [] ∈ answers) ∧
      (.ok [] ∈ answers → (given = mend script.contents ↔ start.Spared sizes)) ∧
      (start.Spared sizes → given <+: mend script.contents) := by
  intro start answers given
  have holds : start.source.Holds Script.Holds 2 script.contents script.failures :=
    Lookahead.holds_ofCapacity ⟨rfl, rfl, gapless⟩ (by decide)
  obtain ⟨rest, later, -, loses, ended, paid⟩ :=
    readAll_due Script.faithful_holds holds positive
  have whole : start.due script.contents = mend script.contents := rfl
  rw [whole] at loses
  refine ⟨fun enough => paid.resolve_right fun paid => ?_, fun atEnd => ?_, fun spared => ?_⟩
  · have bound := loses.length_le
    rw [List.length_append] at bound
    omega
  · rw [ended atEnd, List.append_nil] at loses
    refine ⟨fun same => ?_, loses.nothing⟩
    apply Classical.byContradiction
    intro lost
    exact absurd (congrArg List.length same) (Nat.ne_of_lt (loses.something lost))
  · exact ⟨_, loses.nothing spared⟩

/-- A failure between two reads, and an interruption inside an escape. -/
def resumed : Script :=
  ⟨[.data (Text.utf8 "a".toList), .fault (.failed "reset".toList),
    .data (Text.utf8 "=4".toList), .fault .interrupted, .data (Text.utf8 "1".toList)]⟩

theorem readAll_eq_mend_iff_resumed :
    (resumed.Gapless ∧ ∀ size ∈ [1, 1, 2, 2, 2, 2], 0 < size) ∧
      (ofStream resumed).Spared [1, 1, 2, 2, 2, 2] ∧
      (BlockReader.readAll (ofStream resumed) [1, 1, 2, 2, 2, 2]).1.flatMap handedOver =
        Text.utf8 "a=41".toList := by
  have gapless : resumed.Gapless := by decide
  have positive : ∀ size ∈ [1, 1, 2, 2, 2, 2], 0 < size := by decide
  obtain ⟨ends, mended, -⟩ := readAll_eq_mend_iff gapless positive
  have spared : (ofStream resumed).Spared [1, 1, 2, 2, 2, 2] := by decide +kernel
  refine ⟨⟨gapless, positive⟩, spared, ?_⟩
  rw [(mended (ends (by decide +kernel))).mpr spared]
  decide +kernel

/-- A failure behind two bytes. -/
def snapped : Script :=
  ⟨[.data (Text.utf8 "ab".toList), .fault (.failed "reset".toList),
    .data (Text.utf8 "c".toList)]⟩

/-- A failure between an equals sign and its line break. -/
def parted : Script :=
  ⟨[.data (Text.utf8 "=".toList), .fault (.failed "reset".toList),
    .data (Text.utf8 "\n".toList)]⟩

/-- A failure while the spelling of a byte is left over. -/
def carried : Script :=
  ⟨[.data (Text.utf8 "é".toList), .fault (.failed "reset".toList),
    .data (Text.utf8 "b".toList)]⟩

/-- What a failed read had spelled out, an equals sign that it had taken, and what was left over
from the read before do not come again. -/
theorem readAll_loses_pieces :
    ((BlockReader.readAll (ofStream snapped) [4, 4, 4]).1.map Except.toOption =
        [none, some (Text.utf8 "c".toList), some []] ∧
      mend snapped.contents = Text.utf8 "abc".toList) ∧
    ((BlockReader.readAll (ofStream parted) [4, 4, 4]).1.map Except.toOption =
        [none, some (Text.utf8 "\n".toList), some []] ∧
      mend parted.contents = Text.utf8 "=\n".toList) ∧
    (BlockReader.readAll (ofStream carried) [4, 4, 4, 4]).1.map Except.toOption =
        [some (Text.utf8 "=C3=".toList), none, some (Text.utf8 "b".toList), some []] ∧
      mend carried.contents = Text.utf8 "=C3=A9b".toList := by
  decide +kernel

end Mender

end LenientMime.QuotedPrintable
