import LenientMime.Proofs.Hexadecimal
import LenientMime.QuotedPrintable.Piece

namespace LenientMime.QuotedPrintable

/-- What stands behind an equals sign is no line break and no escape, so that the equals sign
stands alone. -/
structure Alone (rest : Bytes) : Prop where
  noFeed : ∀ later, rest ≠ Byte.lineFeed :: later
  noBreak : ∀ later, rest ≠ Byte.carriageReturn :: Byte.lineFeed :: later
  noEscape : ∀ high low later, rest = high :: low :: later → Byte.ofHexPair? high low = none

/-- A text and the pieces it is cut into. -/
inductive Cut : Bytes → List Piece → Prop where
  | nil : Cut [] []
  | softLineFeed {rest : Bytes} {later : List Piece} : Cut rest later →
      Cut (Byte.equals :: Byte.lineFeed :: rest)
        (.softBreak :: .plain Byte.lineFeed :: later)
  | softCrlf {rest : Bytes} {later : List Piece} : Cut rest later →
      Cut (Byte.equals :: Byte.carriageReturn :: Byte.lineFeed :: rest)
        (.softBreak :: .plain Byte.carriageReturn :: .plain Byte.lineFeed :: later)
  | escape {high low byte : UInt8} {rest : Bytes} {later : List Piece} :
      Byte.ofHexPair? high low = some byte → Cut rest later →
      Cut (Byte.equals :: high :: low :: rest) (.escape high low :: later)
  | stray {rest : Bytes} {later : List Piece} : Alone rest → Cut rest later →
      Cut (Byte.equals :: rest) (.stray :: later)
  | ordinary {byte : UInt8} {rest : Bytes} {later : List Piece} : byte ≠ Byte.equals →
      Cut rest later → Cut (byte :: rest) (Piece.ofByte byte :: later)

section Pieces

variable {byte : UInt8} {rest : Bytes}

theorem pieces_equals (rest : Bytes) :
    pieces (Byte.equals :: rest) =
      Piece.ofEquals rest :: pieces (rest.drop (Piece.ofEquals rest).extra) := by
  rw [pieces]
  rfl

theorem pieces_cons (solid : byte ≠ Byte.equals) (rest : Bytes) :
    pieces (byte :: rest) = Piece.ofByte byte :: pieces rest := by
  have extra : (Piece.ofByte byte).extra = 0 := by
    unfold Piece.ofByte
    split <;> rfl
  rw [pieces, if_neg (by simpa using solid), extra, List.drop_zero]

/-- The piece that an equals sign begins, with what is behind it. -/
inductive BehindEquals : Bytes → Piece → Prop where
  | lineFeed (later : Bytes) : BehindEquals (Byte.lineFeed :: later) .softBreak
  | crlf (later : Bytes) :
      BehindEquals (Byte.carriageReturn :: Byte.lineFeed :: later) .softBreak
  | escape {high low byte : UInt8} (later : Bytes) : Byte.ofHexPair? high low = some byte →
      BehindEquals (high :: low :: later) (.escape high low)
  | alone {rest : Bytes} : Alone rest → BehindEquals rest .stray

theorem behindEquals_ofEquals (rest : Bytes) : BehindEquals rest (Piece.ofEquals rest) := by
  fun_cases Piece.ofEquals rest with
  | case1 later => exact .lineFeed later
  | case2 later => exact .crlf later
  | case3 high low later noFeed noBreak digits =>
      obtain ⟨upper, lower⟩ := Bool.and_eq_true_iff.mp digits
      obtain ⟨byte, spelled⟩ := Byte.exists_ofHexPair? upper lower
      exact .escape later spelled
  | case4 high low later noFeed noBreak noDigits =>
      refine .alone ⟨fun _ same => noFeed (List.cons.inj same).1, fun _ same => ?_, ?_⟩
      · obtain ⟨isReturn, behind⟩ := List.cons.inj same
        exact noBreak isReturn (List.cons.inj behind).1
      · rintro _ _ _ ⟨⟩
        cases spelled : Byte.ofHexPair? high low with
        | none => rfl
        | some byte =>
            obtain ⟨upper, lower⟩ := Byte.isHexDigit_of_ofHexPair? spelled
            exact absurd (Bool.and_eq_true_iff.mpr ⟨upper, lower⟩) noDigits
  | case5 _ noFeed noBreak noPair =>
      exact .alone ⟨noFeed, noBreak, fun high low later same => absurd same (noPair high low later)⟩

theorem cut_pieces (bytes : Bytes) : Cut bytes (pieces bytes) := by
  induction size : bytes.length using Nat.strongRecOn generalizing bytes with
  | ind size ih =>
      subst size
      cases bytes with
      | nil =>
          rw [pieces]
          exact .nil
      | cons byte rest =>
          by_cases equals : byte = Byte.equals
          · subst equals
            have found := behindEquals_ofEquals rest
            rw [pieces_equals]
            generalize Piece.ofEquals rest = piece at found
            cases found with
            | lineFeed later =>
                have cut := ih _ (by simp only [List.length_cons]; omega) later rfl
                change Cut _ (.softBreak :: pieces (Byte.lineFeed :: later))
                rw [pieces_cons (by decide)]
                exact .softLineFeed cut
            | crlf later =>
                have cut := ih _ (by simp only [List.length_cons]; omega) later rfl
                change Cut _ (.softBreak :: pieces (Byte.carriageReturn :: Byte.lineFeed :: later))
                rw [pieces_cons (by decide), pieces_cons (by decide)]
                exact .softCrlf cut
            | escape later spelled =>
                exact .escape spelled (ih _ (by simp only [List.length_cons]; omega) later rfl)
            | alone alone => exact .stray alone (ih _ (by simp) rest rfl)
          · rw [pieces_cons equals]
            exact .ordinary equals (ih _ (by simp) rest rfl)

end Pieces

end LenientMime.QuotedPrintable
