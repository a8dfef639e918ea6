import LenientMime.Proofs.QuotedPrintable.Cutting

namespace LenientMime.QuotedPrintable

/-- The bytes that a text stands for.  An equals sign that begins nothing is kept. -/
def decode : Bytes → Bytes
  | [] => []
  | Byte.equals :: Byte.lineFeed :: rest => decode rest
  | Byte.equals :: Byte.carriageReturn :: Byte.lineFeed :: rest => decode rest
  | Byte.equals :: high :: low :: rest =>
      match Byte.ofHexPair? high low with
      | some byte => byte :: decode rest
      | none => Byte.equals :: decode (high :: low :: rest)
  | byte :: rest => byte :: decode rest

section Decode

variable {high low byte : UInt8} {rest : Bytes}

theorem decode_lineFeed (rest : Bytes) :
    decode (Byte.equals :: Byte.lineFeed :: rest) = decode rest :=
  rfl

theorem decode_crlf (rest : Bytes) :
    decode (Byte.equals :: Byte.carriageReturn :: Byte.lineFeed :: rest) = decode rest :=
  rfl

theorem decode_cons (solid : byte ≠ Byte.equals) (rest : Bytes) :
    decode (byte :: rest) = byte :: decode rest :=
  decode.eq_5 byte rest (fun _ same _ => solid same) (fun _ same _ => solid same)
    fun _ _ _ same _ => solid same

/-- Two bytes behind an equals sign that are no line break. -/
theorem decode_pair (noFeed : high ≠ Byte.lineFeed)
    (noBreak : high = Byte.carriageReturn → low ≠ Byte.lineFeed) (rest : Bytes) :
    decode (Byte.equals :: high :: low :: rest) =
      match Byte.ofHexPair? high low with
      | some byte => byte :: decode rest
      | none => Byte.equals :: decode (high :: low :: rest) :=
  decode.eq_4 high low rest noFeed noBreak

theorem decode_escape (spelled : Byte.ofHexPair? high low = some byte) (rest : Bytes) :
    decode (Byte.equals :: high :: low :: rest) = byte :: decode rest := by
  have digit := Byte.toNat_of_isHexDigit (Byte.isHexDigit_of_ofHexPair? spelled).1
  have noFeed : high ≠ Byte.lineFeed := by
    rintro rfl
    exact absurd digit (by decide)
  have noBreak : high = Byte.carriageReturn → low ≠ Byte.lineFeed := by
    rintro rfl
    exact absurd digit (by decide)
  have pair := decode_pair noFeed noBreak rest
  simpa only [spelled] using pair

theorem decode_alone (alone : Alone rest) :
    decode (Byte.equals :: rest) = Byte.equals :: decode rest := by
  match rest with
  | [] => rfl
  | [byte] =>
      refine decode.eq_5 Byte.equals [byte] (fun later _ => alone.noFeed later)
        (fun later _ => alone.noBreak later) ?_
      rintro _ _ _ - ⟨⟩
  | high :: low :: rest =>
      have noFeed : high ≠ Byte.lineFeed := by
        rintro rfl
        exact alone.noFeed _ rfl
      have noBreak : high = Byte.carriageReturn → low ≠ Byte.lineFeed := by
        rintro rfl rfl
        exact alone.noBreak _ rfl
      have pair := decode_pair noFeed noBreak rest
      simpa only [alone.noEscape high low rest rfl] using pair

end Decode

section Place

variable {piece : Piece} {value : Bytes}

theorem place_softBreak (length : Nat) : place length .softBreak = ([Byte.equals], length) := by
  simp [place, Piece.spelling]

theorem place_lineFeed (length : Nat) :
    place length (.plain Byte.lineFeed) = ([Byte.lineFeed], 0) := by
  simp [place, Piece.spelling]

theorem place_return (length : Nat) :
    place length (.plain Byte.carriageReturn) = ([Byte.carriageReturn], length) := by
  rw [place, if_neg (by decide), if_pos (by decide)]
  rfl

/-- A soft line break in front of a piece is all that placing it adds. -/
theorem place_eq (length : Nat) (piece : Piece) :
    (place length piece).1 = piece.spelling ∨
      (place length piece).1 = softLineBreak ++ piece.spelling := by
  unfold place
  split
  · exact .inl rfl
  · split
    · exact .inl rfl
    · split
      · exact .inr rfl
      · exact .inl rfl

theorem decode_place (length : Nat) (piece : Piece) (rest : Bytes) :
    decode ((place length piece).1 ++ rest) = decode (piece.spelling ++ rest) := by
  rcases place_eq length piece with same | broken
  · rw [same]
  · rw [broken, List.append_assoc]
    exact decode_crlf _

theorem decode_layOut_cons
    (spelled : ∀ rest, decode (piece.spelling ++ rest) = value ++ decode rest)
    (length : Nat) (later : List Piece) :
    decode (layOut length (piece :: later)) =
      value ++ decode (layOut (place length piece).2 later) := by
  rw [layOut, decode_place, spelled]

end Place

/-- A byte is decoded to itself, whether it is written as it is or as an escape. -/
theorem decode_ofByte {byte : UInt8} (solid : byte ≠ Byte.equals) (rest : Bytes) :
    decode ((Piece.ofByte byte).spelling ++ rest) = [byte] ++ decode rest := by
  unfold Piece.ofByte
  split
  · exact decode_cons solid rest
  · exact decode_escape (Byte.ofHexPair?_hexDigits byte) rest

/-- An equals sign that stands alone is written as the escape for itself. -/
theorem decode_stray (rest : Bytes) :
    decode (Piece.stray.spelling ++ rest) = [Byte.equals] ++ decode rest :=
  decode_escape (Byte.ofHexPair?_hexDigits Byte.equals) rest

/-- On whatever line they begin, the pieces of a text stand for what the text stood for. -/
theorem decode_layOut {bytes : Bytes} {pieces : List Piece} (cut : Cut bytes pieces)
    (length : Nat) : decode (layOut length pieces) = decode bytes := by
  induction cut generalizing length with
  | nil => rfl
  | softLineFeed _ ih =>
      rw [layOut, place_softBreak, layOut, place_lineFeed, decode_lineFeed]
      exact (decode_lineFeed _).trans (ih 0)
  | softCrlf _ ih =>
      rw [layOut, place_softBreak, layOut, place_return, layOut, place_lineFeed, decode_crlf]
      exact (decode_crlf _).trans (ih 0)
  | @escape high low byte _ _ spelled _ ih =>
      have kept (rest : Bytes) :
          decode ((Piece.escape high low).spelling ++ rest) = [byte] ++ decode rest :=
        decode_escape spelled rest
      rw [decode_layOut_cons kept, ih, decode_escape spelled]
      rfl
  | stray alone _ ih =>
      rw [decode_layOut_cons decode_stray, ih, decode_alone alone]
      rfl
  | ordinary solid _ ih =>
      rw [decode_layOut_cons (decode_ofByte solid), ih, decode_cons solid]
      rfl

/-- Mending keeps what the text stands for. -/
theorem decode_mend (bytes : Bytes) : decode (mend bytes) = decode bytes :=
  decode_layOut (cut_pieces bytes) 0

end LenientMime.QuotedPrintable
