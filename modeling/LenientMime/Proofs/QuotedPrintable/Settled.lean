import LenientMime.Proofs.QuotedPrintable.LineLength
import LenientMime.Proofs.QuotedPrintable.Validity

namespace LenientMime.QuotedPrintable

/-! Text in which nothing is left to mend.

A mender leaves a text as it is if it reads every spelling in it as what it would write, and
counts no line as too long.  Both hold of what it wrote itself: a soft line break that it put in
is a soft line break when it is read again, and behind it, as behind every other spelling, the
second pass has counted as much content as the first.  Both hold of valid text on short lines.
-/

/-- Text that is laid out as it is, behind `length` bytes of content on its first line. -/
inductive Settled : Nat → Bytes → Prop where
  | nil {length : Nat} : Settled length []
  | softLineFeed {length : Nat} {rest : Bytes} : Settled 0 rest →
      Settled length (Byte.equals :: Byte.lineFeed :: rest)
  | softCrlf {length : Nat} {rest : Bytes} : Settled 0 rest →
      Settled length (Byte.equals :: Byte.carriageReturn :: Byte.lineFeed :: rest)
  | lineFeed {length : Nat} {rest : Bytes} : Settled 0 rest →
      Settled length (Byte.lineFeed :: rest)
  | carriageReturn {length : Nat} {rest : Bytes} : Settled length rest →
      Settled length (Byte.carriageReturn :: rest)
  | escape {length : Nat} {high low : UInt8} {rest : Bytes} : Byte.isHexDigit high = true →
      Byte.isHexDigit low = true → length + 3 ≤ lineLimit → Settled (length + 3) rest →
      Settled length (Byte.equals :: high :: low :: rest)
  | literal {length : Nat} {byte : UInt8} {rest : Bytes} : Literal byte → byte ≠ Byte.equals →
      byte ≠ Byte.lineFeed → byte ≠ Byte.carriageReturn → length + 1 ≤ lineLimit →
      Settled (length + 1) rest → Settled length (byte :: rest)

section Pieces

variable {byte high low : UInt8}

theorem pieces_softLineFeed (rest : Bytes) :
    pieces (Byte.equals :: Byte.lineFeed :: rest) =
      .softBreak :: .plain Byte.lineFeed :: pieces rest := by
  rw [pieces_equals]
  change Piece.softBreak :: pieces (Byte.lineFeed :: rest) = _
  rw [pieces_cons (by decide)]
  rfl

theorem pieces_softCrlf (rest : Bytes) :
    pieces (Byte.equals :: Byte.carriageReturn :: Byte.lineFeed :: rest) =
      .softBreak :: .plain Byte.carriageReturn :: .plain Byte.lineFeed :: pieces rest := by
  rw [pieces_equals]
  change Piece.softBreak :: pieces (Byte.carriageReturn :: Byte.lineFeed :: rest) = _
  rw [pieces_cons (by decide), pieces_cons (by decide)]
  rfl

theorem pieces_escape (upper : Byte.isHexDigit high = true) (lower : Byte.isHexDigit low = true)
    (rest : Bytes) :
    pieces (Byte.equals :: high :: low :: rest) = .escape high low :: pieces rest := by
  have noFeed : high ≠ Byte.lineFeed := by
    rintro rfl
    exact absurd upper (by decide)
  have noBreak : high = Byte.carriageReturn → low = Byte.lineFeed → False := by
    rintro rfl
    exact absurd upper (by decide)
  have piece : Piece.ofEquals (high :: low :: rest) = .escape high low := by
    rw [Piece.ofEquals.eq_3 high low rest noFeed noBreak, upper, lower]
    rfl
  rw [pieces_equals, piece]
  rfl

theorem ofByte_of_literal (literal : Literal byte) : Piece.ofByte byte = .plain byte := by
  refine if_pos ?_
  simp only [Bool.or_eq_true, Byte.isPrintable, Bool.and_eq_true, decide_eq_true_eq, beq_iff_eq]
  rcases literal with isTab | isReturn | isFeed | printable
  · exact .inl (.inl (.inr isTab))
  · exact .inl (.inr isReturn)
  · exact .inr isFeed
  · exact .inl (.inl (.inl printable))

theorem ofByte_lineFeed : Piece.ofByte Byte.lineFeed = .plain Byte.lineFeed :=
  rfl

theorem ofByte_return : Piece.ofByte Byte.carriageReturn = .plain Byte.carriageReturn :=
  rfl

end Pieces

section Layout

variable {piece : Piece} {pieces later : List Piece} {bytes : Bytes} {length : Nat}

/-- A piece for which there is room goes onto the line. -/
theorem layOut_of_room (inLine : InLine piece)
    (room : length + piece.spelling.length ≤ lineLimit) :
    layOut length (piece :: later) =
      piece.spelling ++ layOut (length + piece.spelling.length) later := by
  rw [layOut, place_inLine inLine, if_neg (Nat.not_lt.mpr room)]

theorem layOut_of_settled (settled : Settled length bytes) :
    layOut length (QuotedPrintable.pieces bytes) = bytes := by
  induction settled with
  | nil => exact layOut_end _
  | softLineFeed _ ih =>
      rw [pieces_softLineFeed, layOut, place_softBreak, layOut, place_lineFeed, ih]
      rfl
  | softCrlf _ ih =>
      rw [pieces_softCrlf, layOut, place_softBreak, layOut, place_return, layOut, place_lineFeed,
        ih]
      rfl
  | lineFeed _ ih =>
      rw [pieces_cons (by decide), ofByte_lineFeed, layOut, place_lineFeed, ih]
      rfl
  | carriageReturn _ ih =>
      rw [pieces_cons (by decide), ofByte_return, layOut, place_return, ih]
      rfl
  | escape upper lower room _ ih =>
      have inLine := (Level.escape upper lower).toInLine
      rw [pieces_escape upper lower, layOut_of_room inLine room]
      exact congrArg (_ ++ ·) ih
  | literal literal solid noFeed noReturn room _ ih =>
      have inLine := (Level.ofByte noFeed noReturn).toInLine
      rw [ofByte_of_literal literal] at inLine
      rw [pieces_cons solid, ofByte_of_literal literal, layOut_of_room inLine room]
      exact congrArg (_ ++ ·) ih

/-- A piece that does not fit goes behind a soft line break, where it has room. -/
theorem Settled.layOut_cons (inLine : InLine piece)
    (spelled : ∀ {length : Nat} {rest : Bytes}, length + piece.spelling.length ≤ lineLimit →
      Settled (length + piece.spelling.length) rest → Settled length (piece.spelling ++ rest))
    (settled : ∀ length, Settled length (layOut length later)) (length : Nat) :
    Settled length (layOut length (piece :: later)) := by
  rw [layOut, place_inLine inLine]
  split
  · -- read again, the soft line break sets the count back to nothing as it did when it was put in
    have small : 0 + piece.spelling.length ≤ lineLimit := by
      rw [Nat.zero_add]
      exact Nat.le_trans piece.length_spelling_le (by decide)
    have behind : Settled (0 + piece.spelling.length) (layOut piece.spelling.length later) := by
      rw [Nat.zero_add]
      exact settled _
    rw [List.append_assoc]
    exact .softCrlf (spelled small behind)
  · next room => exact spelled (Nat.le_of_not_lt room) (settled _)

/-- What is laid out once would be laid out the same again. -/
theorem settled_layOut (cut : Cut bytes pieces) (length : Nat) :
    Settled length (layOut length pieces) := by
  induction cut generalizing length with
  | nil => exact .nil
  | softLineFeed _ ih =>
      rw [layOut, place_softBreak, layOut, place_lineFeed]
      exact .softLineFeed (ih 0)
  | softCrlf _ ih =>
      rw [layOut, place_softBreak, layOut, place_return, layOut, place_lineFeed]
      exact .softCrlf (ih 0)
  | escape spelled _ ih =>
      obtain ⟨upper, lower⟩ := Byte.isHexDigit_of_ofHexPair? spelled
      exact .layOut_cons (Level.escape upper lower).toInLine (.escape upper lower) ih length
  | stray _ _ ih =>
      exact .layOut_cons Level.stray.toInLine (.escape (by decide) (by decide)) ih length
  | @ordinary byte _ _ solid _ ih =>
      by_cases feed : byte = Byte.lineFeed
      · subst feed
        rw [ofByte_lineFeed, layOut, place_lineFeed]
        exact .lineFeed (ih 0)
      · by_cases isReturn : byte = Byte.carriageReturn
        · subst isReturn
          rw [ofByte_return, layOut, place_return]
          exact .carriageReturn (ih length)
        · refine .layOut_cons (Level.ofByte feed isReturn).toInLine ?_ ih length
          intro length rest
          unfold Piece.ofByte
          split
          · next kept => exact .literal (literal_of_kept kept) solid feed isReturn
          · obtain ⟨upper, lower⟩ := Byte.isHexDigit_of_ofHexPair? (Byte.ofHexPair?_hexDigits byte)
            exact .escape upper lower

theorem mend_eq_self_iff : mend bytes = bytes ↔ Settled 0 bytes :=
  ⟨fun same => same ▸ settled_layOut (cut_pieces bytes) 0, layOut_of_settled⟩

/-- Mending twice is mending once. -/
theorem mend_mend (bytes : Bytes) : mend (mend bytes) = mend bytes :=
  mend_eq_self_iff.mpr (settled_layOut (cut_pieces bytes) 0)

end Layout

/-- No line holds more than the content of a line, its end left out. -/
def Narrow (bytes : Bytes) : Prop :=
  ∀ line ∈ Bytes.lines bytes, (Bytes.dropLineEnd line).length ≤ lineLimit

namespace Narrow

variable {front text rest : Bytes}

theorem behind_lineFeed (narrow : Narrow (front ++ Byte.lineFeed :: rest))
    (unbroken : Byte.lineFeed ∉ front) : Narrow rest := by
  rw [Narrow, Bytes.lines_line rest unbroken] at narrow
  exact fun line member => narrow line (List.mem_cons_of_mem _ member)

/-- A carriage return at the end may belong to the line end, so that it may be one too many. -/
theorem length_le (narrow : Narrow (text ++ rest)) (unbroken : Byte.lineFeed ∉ text)
    (noReturn : text.getLast? ≠ some Byte.carriageReturn) : text.length ≤ lineLimit := by
  by_cases nothing : text = []
  · rw [nothing]
    exact Nat.zero_le _
  · obtain ⟨more, later, cut⟩ := Bytes.exists_lines_append rest unbroken nothing
    have short := narrow (text ++ more) (cut ▸ List.mem_cons_self)
    exact Nat.le_trans (Bytes.length_le_dropLineEnd more unbroken noReturn) short

end Narrow

section Valid

variable {bytes rest written spelling : Bytes} {length : Nat}

theorem Valid.of_suffix (valid : Valid bytes) (suffix : rest <:+ bytes) : Valid rest :=
  ⟨fun byte member => valid.literal byte (suffix.subset member),
    fun later inside => valid.followed later (inside.trans suffix)⟩

theorem Valid.append_literals {front : Bytes} (valid : Valid rest)
    (literals : ∀ byte ∈ front, Literal byte ∧ byte ≠ Byte.equals) : Valid (front ++ rest) := by
  induction front with
  | nil => exact valid
  | cons byte front ih =>
      obtain ⟨⟨literal, solid⟩, others⟩ := List.forall_mem_cons.mp literals
      exact (ih others).plain literal solid

theorem Alone.not_followed (alone : Alone rest) : ¬ Followed rest := by
  intro followed
  cases followed with
  | digits later upper lower =>
      obtain ⟨byte, spelled⟩ := Byte.exists_ofHexPair? upper lower
      rw [alone.noEscape _ _ later rfl] at spelled
      contradiction
  | crlf later => exact alone.noBreak later rfl
  | lineFeed later => exact alone.noFeed later rfl

/-- The line `written`, on which `length` bytes of content are counted. -/
structure Counts (written : Bytes) (length : Nat) : Prop where
  unbroken : Byte.lineFeed ∉ written
  within : length ≤ written.length

namespace Counts

theorem nil : Counts [] 0 :=
  ⟨List.not_mem_nil, Nat.le_refl _⟩

theorem append (counts : Counts written length) (unbroken : Byte.lineFeed ∉ spelling) :
    Counts (written ++ spelling) (length + spelling.length) := by
  refine ⟨?_, ?_⟩
  · rw [List.mem_append, not_or]
    exact ⟨counts.unbroken, unbroken⟩
  · rw [List.length_append]
    exact Nat.add_le_add_right counts.within _

/-- The count stands still, and the line is longer. -/
theorem carriageReturn (counts : Counts written length) :
    Counts (written ++ [Byte.carriageReturn]) length := by
  have longer := counts.append (show Byte.lineFeed ∉ [Byte.carriageReturn] by decide)
  exact ⟨longer.unbroken, Nat.le_trans (Nat.le_add_right _ _) longer.within⟩

/-- On a narrow line there is room for what is written there. -/
theorem room {last : UInt8} (counts : Counts written length) (unbroken : Byte.lineFeed ∉ spelling)
    (ends : spelling.getLast? = some last) (noReturn : last ≠ Byte.carriageReturn)
    (narrow : Narrow (written ++ (spelling ++ rest))) :
    length + spelling.length ≤ lineLimit := by
  have longer := counts.append unbroken
  rw [← List.append_assoc] at narrow
  refine Nat.le_trans longer.within (narrow.length_le longer.unbroken ?_)
  rw [List.getLast?_append, ends]
  exact fun same => noReturn (Option.some.inj same)

end Counts

/-- Valid text on narrow lines is settled, whatever stands in front of it on its first line. -/
theorem settled_of_cut {pieces : List Piece} (cut : Cut bytes pieces) (valid : Valid bytes)
    (counts : Counts written length) (narrow : Narrow (written ++ bytes)) :
    Settled length bytes := by
  induction cut generalizing written length with
  | nil => exact .nil
  | @softLineFeed rest _ _ ih =>
      have front := counts.append (show Byte.lineFeed ∉ [Byte.equals] by decide)
      have behind : Narrow rest :=
        .behind_lineFeed (by rwa [List.append_assoc]) front.unbroken
      exact .softLineFeed (ih (valid.of_suffix ⟨[_, _], rfl⟩) .nil behind)
  | @softCrlf rest _ _ ih =>
      have front := counts.append
        (show Byte.lineFeed ∉ [Byte.equals, Byte.carriageReturn] by decide)
      have behind : Narrow rest :=
        .behind_lineFeed (by rwa [List.append_assoc]) front.unbroken
      exact .softCrlf (ih (valid.of_suffix ⟨[_, _, _], rfl⟩) .nil behind)
  | @escape high low _ rest _ spelled _ ih =>
      obtain ⟨upper, lower⟩ := Byte.isHexDigit_of_ofHexPair? spelled
      have level := Level.escape upper lower
      have noReturn : low ≠ Byte.carriageReturn := by
        rintro rfl
        exact absurd lower (by decide)
      have room := counts.room level.noFeed rfl noReturn narrow
      refine .escape upper lower room
        (ih (valid.of_suffix ⟨[_, _, _], rfl⟩) (counts.append level.noFeed) ?_)
      rwa [List.append_assoc]
  | stray alone _ _ => exact absurd (valid.followed _ List.suffix_rfl) alone.not_followed
  | @ordinary byte rest _ solid _ ih =>
      have validRest := valid.of_suffix (List.suffix_cons byte rest)
      by_cases feed : byte = Byte.lineFeed
      · subst feed
        exact .lineFeed (ih validRest .nil (narrow.behind_lineFeed counts.unbroken))
      · by_cases isReturn : byte = Byte.carriageReturn
        · subst isReturn
          refine .carriageReturn (ih validRest counts.carriageReturn ?_)
          rwa [List.append_assoc]
        · have noFeed : Byte.lineFeed ∉ [byte] := by simpa using Ne.symm feed
          have room := counts.room noFeed rfl isReturn narrow
          refine .literal (valid.literal byte List.mem_cons_self) solid feed isReturn room
            (ih validRest (counts.append noFeed) ?_)
          rwa [List.append_assoc]

end Valid

namespace Mender

/-- A second mender changes nothing in what comes out of a first one, and the first one changes
nothing in valid text whose lines hold 995 bytes at most. -/
theorem drainBy_settled {sizes again : Nat → Nat} (positive : ∀ index, 0 < sizes index)
    (positiveAgain : ∀ index, 0 < again index) (bytes : Bytes) :
    let once := BlockReader.drainBy sizes (ofStream bytes)
    let twice := BlockReader.drainBy again (ofStream once.bytes)
    once.fault = none ∧ twice.fault = none ∧ twice.bytes = once.bytes ∧
      (Valid bytes → (∀ line ∈ Bytes.lines bytes, (Bytes.dropLineEnd line).length ≤ 995) →
        once.bytes = bytes) := by
  intro once twice
  have held (text : Bytes) : ByteSource.InMemory text text [] := ⟨rfl, rfl⟩
  obtain ⟨unfailing, mended⟩ :=
    drainBy_ofStream BlockReader.faithful_inMemory positive (held bytes)
  obtain ⟨unfailingAgain, mendedAgain⟩ :=
    drainBy_ofStream BlockReader.faithful_inMemory positiveAgain (held once.bytes)
  refine ⟨unfailing, unfailingAgain, ?_, fun valid narrow => ?_⟩
  · calc twice.bytes = mend once.bytes := mendedAgain
      _ = mend (mend bytes) := by rw [mended]
      _ = mend bytes := mend_mend bytes
      _ = once.bytes := mended.symm
  · have settled := settled_of_cut (cut_pieces bytes) valid .nil narrow
    exact mended.trans (mend_eq_self_iff.mpr settled)

/-- A line whose content ends in an escape and is as long as it may be, an escape in lower case
and both soft line breaks. -/
def measured : Bytes :=
  List.replicate 992 0x61 ++
    [Byte.equals, 0x43, 0x33, Byte.carriageReturn, Byte.lineFeed, Byte.equals, 0x61, 0x39,
      Byte.equals, Byte.carriageReturn, Byte.lineFeed, 0x78, Byte.equals, Byte.lineFeed]

theorem valid_measured : Valid measured := by
  have last : Valid [0x78, Byte.equals, Byte.lineFeed] :=
    (Valid.nil.lineFeed.equals (.lineFeed [])).plain (.inr (.inr (.inr (by decide)))) (by decide)
  have second := (last.crlf.equals (.crlf _)).escape (show Byte.isHexDigit 0x61 = true by decide)
    (show Byte.isHexDigit 0x39 = true by decide)
  have first := second.crlf.escape (show Byte.isHexDigit 0x43 = true by decide)
    (show Byte.isHexDigit 0x33 = true by decide)
  refine first.append_literals fun byte member => ?_
  rw [List.eq_of_mem_replicate member]
  exact ⟨.inr (.inr (.inr (by decide))), by decide⟩

theorem drainBy_settled_measured :
    (∀ _ : Nat, 0 < 3) ∧ (∀ _ : Nat, 0 < 5) ∧ Valid measured ∧
      (∀ line ∈ Bytes.lines measured, (Bytes.dropLineEnd line).length ≤ 995) ∧
      (BlockReader.drainBy (fun _ => 3) (ofStream measured)).bytes = measured ∧
      (BlockReader.drainBy (fun _ => 5)
        (ofStream (BlockReader.drainBy (fun _ => 3) (ofStream measured)).bytes)).bytes =
          measured := by
  have positive : ∀ _ : Nat, 0 < 3 := fun _ => by decide
  have positiveAgain : ∀ _ : Nat, 0 < 5 := fun _ => by decide
  have narrow : ∀ line ∈ Bytes.lines measured, (Bytes.dropLineEnd line).length ≤ 995 := by
    decide +kernel
  obtain ⟨-, -, again, unchanged⟩ := drainBy_settled positive positiveAgain measured
  have once := unchanged valid_measured narrow
  exact ⟨positive, positiveAgain, valid_measured, narrow, once, again.trans once⟩

end Mender

end LenientMime.QuotedPrintable
