import LenientMime.Proofs.QuotedPrintable.Stream

namespace LenientMime.QuotedPrintable

/-! Text that a strict decoder accepts.

Quoted-printable is written in printable ASCII, tabs and line breaks, and an equals sign in it
begins an escape or stands before a line break.  What is mended has this form.  A soft line
break that is put in is whole and stands between two spellings, never inside one, and the line
break behind an equals sign that was there before is written directly behind it.
-/

/-- Bytes that stand for themselves in a body: a tab, both halves of a line break and
printable ASCII. -/
def Literal (byte : UInt8) : Prop :=
  byte = Byte.tab ∨ byte = Byte.carriageReturn ∨ byte = Byte.lineFeed ∨
    0x20 ≤ byte ∧ byte ≤ 0x7E

/-- What may stand behind an equals sign. -/
inductive Followed : Bytes → Prop where
  | digits {high low : UInt8} (later : Bytes) : Byte.isHexDigit high = true →
      Byte.isHexDigit low = true → Followed (high :: low :: later)
  | crlf (later : Bytes) : Followed (Byte.carriageReturn :: Byte.lineFeed :: later)
  | lineFeed (later : Bytes) : Followed (Byte.lineFeed :: later)

structure Valid (bytes : Bytes) : Prop where
  literal : ∀ byte ∈ bytes, Literal byte
  followed : ∀ rest, Byte.equals :: rest <:+ bytes → Followed rest

theorem literal_of_isHexDigit {byte : UInt8} (digit : Byte.isHexDigit byte = true) :
    Literal byte ∧ byte ≠ Byte.equals := by
  have range := Byte.toNat_of_isHexDigit digit
  refine ⟨.inr (.inr (.inr ?_)), ?_⟩
  · rw [UInt8.le_iff_toNat_le, UInt8.le_iff_toNat_le]
    simp only [UInt8.reduceToNat]
    omega
  · rintro rfl
    exact absurd range (by decide)

/-- What may stand as it is in mended text. -/
theorem literal_of_kept {byte : UInt8}
    (kept : (Byte.isPrintable byte || byte == Byte.tab || byte == Byte.carriageReturn ||
      byte == Byte.lineFeed) = true) : Literal byte := by
  simp only [Bool.or_eq_true, Byte.isPrintable, Bool.and_eq_true, decide_eq_true_eq,
    beq_iff_eq] at kept
  rcases kept with ((printable | isTab) | isReturn) | isFeed
  · exact .inr (.inr (.inr printable))
  · exact .inl isTab
  · exact .inr (.inl isReturn)
  · exact .inr (.inr (.inl isFeed))

namespace Valid

variable {byte high low : UInt8} {rest : Bytes}

theorem nil : Valid [] :=
  ⟨nofun, fun _ suffix => nomatch List.suffix_nil.mp suffix⟩

theorem cons (valid : Valid rest) (literal : Literal byte)
    (followed : byte = Byte.equals → Followed rest) : Valid (byte :: rest) := by
  refine ⟨List.forall_mem_cons.mpr ⟨literal, valid.literal⟩, fun later suffix => ?_⟩
  rcases List.suffix_cons_iff.mp suffix with whole | inside
  · obtain ⟨same, rfl⟩ := List.cons.inj whole
    exact followed same.symm
  · exact valid.followed later inside

theorem plain (valid : Valid rest) (literal : Literal byte) (solid : byte ≠ Byte.equals) :
    Valid (byte :: rest) :=
  valid.cons literal fun same => absurd same solid

theorem equals (valid : Valid rest) (followed : Followed rest) :
    Valid (Byte.equals :: rest) :=
  valid.cons (.inr (.inr (.inr (by decide)))) fun _ => followed

theorem lineFeed (valid : Valid rest) : Valid (Byte.lineFeed :: rest) :=
  valid.plain (.inr (.inr (.inl rfl))) (by decide)

theorem crlf (valid : Valid rest) : Valid (Byte.carriageReturn :: Byte.lineFeed :: rest) :=
  valid.lineFeed.plain (.inr (.inl rfl)) (by decide)

theorem escape (valid : Valid rest) (upper : Byte.isHexDigit high = true)
    (lower : Byte.isHexDigit low = true) : Valid (Byte.equals :: high :: low :: rest) := by
  obtain ⟨literalHigh, solidHigh⟩ := literal_of_isHexDigit upper
  obtain ⟨literalLow, solidLow⟩ := literal_of_isHexDigit lower
  exact ((valid.plain literalLow solidLow).plain literalHigh solidHigh).equals
    (.digits rest upper lower)

/-- The escape that is written for a byte. -/
theorem hexPair (valid : Valid rest) (byte : UInt8) :
    Valid (Byte.equals :: Byte.hexPair byte ++ rest) := by
  obtain ⟨upper, lower⟩ := Byte.isHexDigit_of_ofHexPair? (Byte.ofHexPair?_hexDigits byte)
  exact valid.escape upper lower

/-- A byte is written as it is or as an escape. -/
theorem ofByte (valid : Valid rest) (solid : byte ≠ Byte.equals) :
    Valid ((Piece.ofByte byte).spelling ++ rest) := by
  unfold Piece.ofByte
  split
  · next kept => exact valid.plain (literal_of_kept kept) solid
  · exact valid.hexPair byte

/-- Placing a piece puts a whole soft line break in front of it at most. -/
theorem layOut_cons (piece : Piece) {later : List Piece}
    (spelled : ∀ rest, Valid rest → Valid (piece.spelling ++ rest)) (length : Nat)
    (valid : Valid (layOut (place length piece).2 later)) :
    Valid (layOut length (piece :: later)) := by
  rw [layOut]
  rcases place_eq length piece with same | broken
  · rw [same]
    exact spelled _ valid
  · rw [broken, List.append_assoc]
    exact (spelled _ valid).crlf.equals (.crlf _)

end Valid

/-- On whatever line they begin, the pieces of a text are laid out as valid text. -/
theorem valid_layOut {bytes : Bytes} {pieces : List Piece} (cut : Cut bytes pieces)
    (length : Nat) : Valid (layOut length pieces) := by
  induction cut generalizing length with
  | nil => exact .nil
  | softLineFeed _ ih =>
      rw [layOut, place_softBreak, layOut, place_lineFeed]
      exact (ih 0).lineFeed.equals (.lineFeed _)
  | softCrlf _ ih =>
      rw [layOut, place_softBreak, layOut, place_return, layOut, place_lineFeed]
      exact (ih 0).crlf.equals (.crlf _)
  | escape spelled _ ih =>
      obtain ⟨upper, lower⟩ := Byte.isHexDigit_of_ofHexPair? spelled
      exact .layOut_cons (.escape _ _) (fun _ valid => valid.escape upper lower) length (ih _)
  | stray _ _ ih =>
      exact .layOut_cons .stray (fun _ valid => valid.hexPair Byte.equals) length (ih _)
  | ordinary solid _ ih =>
      exact .layOut_cons (Piece.ofByte _) (fun _ valid => valid.ofByte solid) length (ih _)

theorem valid_mend (bytes : Bytes) : Valid (mend bytes) :=
  valid_layOut (cut_pieces bytes) 0

/-- Whatever goes into a mender, and however it is read, what comes out is valid. -/
theorem Mender.valid_drainBy {sizes : Nat → Nat} (positive : ∀ index, 0 < sizes index)
    (bytes : Bytes) :
    (BlockReader.drainBy sizes (ofStream bytes)).fault = none ∧
      Valid (BlockReader.drainBy sizes (ofStream bytes)).bytes := by
  obtain ⟨unfailing, mended⟩ :=
    drainBy_ofStream BlockReader.faithful_inMemory positive ⟨rfl, rfl⟩
  exact ⟨unfailing, mended ▸ valid_mend bytes⟩

/-- Raw text, an equals sign in front of a bare carriage return, both soft line breaks, an
escape in lower case and an equals sign at the end. -/
def sloppy : Bytes :=
  Text.utf8 "é=\rx=\r\n=\n=e9=".toList

theorem Mender.valid_drainBy_sloppy :
    (∀ _ : Nat, 0 < 2) ∧
      (BlockReader.drainBy (fun _ => 2) (ofStream sloppy)).bytes =
        Text.utf8 "=C3=A9=3D\rx=\r\n=\n=e9=3D".toList ∧
      (BlockReader.drainBy (fun _ => 2) (ofStream sloppy)).fault = none ∧
      Valid (BlockReader.drainBy (fun _ => 2) (ofStream sloppy)).bytes := by
  have positive : ∀ _ : Nat, 0 < 2 := fun _ => Nat.two_pos
  have held : ByteSource.InMemory sloppy sloppy [] := ⟨rfl, rfl⟩
  have mended := (drainBy_ofStream BlockReader.faithful_inMemory positive held).2
  exact ⟨positive, mended.trans (by decide +kernel), valid_drainBy positive sloppy⟩

end LenientMime.QuotedPrintable
