import LenientMime.Proofs.Multipart.Line
import LenientMime.Proofs.QuotedPrintable.Loss

namespace LenientMime.QuotedPrintable

/-! How long the lines of mended text are.

The mender counts the content of the line that it writes, and not every byte is content: neither
half of a line break is, nor the equals sign of a soft line break.  A line break and its equals
sign therefore come on top of the content, once for a line.  Carriage returns that no line feed
follows come on top of it each, so that they can make a line of any length.
-/

/-- Every carriage return stands directly before a line feed. -/
def Paired (bytes : Bytes) : Prop :=
  ∀ rest, Byte.carriageReturn :: rest <:+ bytes → ∃ later, rest = Byte.lineFeed :: later

namespace Paired

variable {byte : UInt8} {front rest line : Bytes}

theorem nil : Paired [] :=
  fun _ suffix => nomatch List.suffix_nil.mp suffix

theorem of_suffix (paired : Paired rest) (suffix : line <:+ rest) : Paired line :=
  fun later inside => paired later (inside.trans suffix)

theorem cons (paired : Paired rest) (solid : byte ≠ Byte.carriageReturn) : Paired (byte :: rest) := by
  intro later suffix
  rcases List.suffix_cons_iff.mp suffix with whole | inside
  · exact absurd (List.cons.inj whole).1.symm solid
  · exact paired later inside

theorem lineFeed (paired : Paired rest) : Paired (Byte.lineFeed :: rest) :=
  paired.cons (by decide)

theorem crlf (paired : Paired rest) :
    Paired (Byte.carriageReturn :: Byte.lineFeed :: rest) := by
  intro later suffix
  rcases List.suffix_cons_iff.mp suffix with whole | inside
  · exact ⟨rest, (List.cons.inj whole).2⟩
  · exact paired.lineFeed later inside

theorem append (paired : Paired rest) (solid : Byte.carriageReturn ∉ front) :
    Paired (front ++ rest) := by
  induction front with
  | nil => exact paired
  | cons byte front ih =>
      obtain ⟨here, behind⟩ := List.ne_and_not_mem_of_not_mem_cons solid
      exact (ih behind).cons (Ne.symm here)

/-- Where a line feed is the last byte, one carriage return at most can stand. -/
theorem count_le (paired : Paired line)
    (last : ∀ rest, Byte.lineFeed :: rest <:+ line → rest = []) :
    line.count Byte.carriageReturn ≤ 1 := by
  induction line with
  | nil => exact Nat.zero_le _
  | cons byte rest ih =>
      by_cases isReturn : byte = Byte.carriageReturn
      · subst isReturn
        obtain ⟨later, rfl⟩ := paired rest List.suffix_rfl
        rw [last later (List.suffix_cons _ _)]
        decide
      · rw [List.count_cons_of_ne isReturn]
        exact ih (paired.of_suffix (List.suffix_cons _ _)) fun later suffix =>
          last later (suffix.trans (List.suffix_cons _ _))

end Paired

/-- A line feed ends its line. -/
theorem last_of_mem_lines {bytes line : Bytes} (member : line ∈ Bytes.lines bytes) :
    ∀ rest, Byte.lineFeed :: rest <:+ line → rest = [] := by
  obtain ⟨front, back, cut⟩ := List.append_of_mem member
  obtain ⟨-, text, unbroken, shape⟩ := Bytes.lines_eq_cons (Bytes.lines_flatten cut)
  intro rest suffix
  rcases shape with rfl | ⟨rfl, -, -⟩
  · obtain ⟨before, same⟩ := suffix
    rcases List.eq_nil_or_concat rest with nothing | ⟨inner, byte, rfl⟩
    · exact nothing
    · rw [List.concat_eq_append, ← List.cons_append, ← List.append_assoc] at same
      have inside := (List.append_inj' same rfl).1
      exact absurd (inside ▸ List.mem_append_right before List.mem_cons_self) unbroken
  · exact absurd (suffix.subset List.mem_cons_self) unbroken

/-- No carriage return is cut from its line feed. -/
theorem Paired.of_mem_lines {bytes line : Bytes} (paired : Paired bytes)
    (member : line ∈ Bytes.lines bytes) : Paired line := by
  obtain ⟨front, back, cut⟩ := List.append_of_mem member
  have whole : bytes = front.flatten ++ (line ++ back.flatten) := by
    rw [← Bytes.flatten_lines bytes, cut, List.flatten_append, List.flatten_cons]
  obtain ⟨-, text, unbroken, shape⟩ := Bytes.lines_eq_cons (Bytes.lines_flatten cut)
  intro rest suffix
  obtain ⟨before, same⟩ := suffix
  obtain ⟨later, shown⟩ := paired (rest ++ back.flatten)
    ⟨front.flatten ++ before, by rw [whole, ← same]; simp⟩
  cases rest with
  | cons byte rest => exact ⟨rest, by rw [(List.cons.inj shown).1]⟩
  | nil =>
      rcases shape with rfl | ⟨rfl, -, rfl⟩
      · exact absurd (List.append_inj' same rfl).2 (by decide)
      · cases shown

/-- The bytes on a line whose content is counted as `length`. -/
structure Fits (written : Bytes) (length : Nat) : Prop where
  unbroken : Byte.lineFeed ∉ written
  counted : written.length ≤ length + written.count Byte.carriageReturn
  limited : length ≤ lineLimit

/-- Content, an equals sign and a line feed, and carriage returns. -/
def Short (line : Bytes) : Prop :=
  line.length ≤ 997 + line.count Byte.carriageReturn

namespace Fits

variable {written spelling rest : Bytes} {length : Nat}

theorem nil : Fits [] 0 :=
  ⟨List.not_mem_nil, Nat.le_refl _, Nat.zero_le _⟩

theorem ofSpelling (unbroken : Byte.lineFeed ∉ spelling) (small : spelling.length ≤ lineLimit) :
    Fits spelling spelling.length :=
  ⟨unbroken, Nat.le_add_right _ _, small⟩

theorem append (fits : Fits written length) (unbroken : Byte.lineFeed ∉ spelling)
    (room : length + spelling.length ≤ lineLimit) :
    Fits (written ++ spelling) (length + spelling.length) := by
  have counted := fits.counted
  refine ⟨?_, ?_, room⟩
  · rw [List.mem_append, not_or]
    exact ⟨fits.unbroken, unbroken⟩
  · rw [List.length_append, List.count_append]
    omega

theorem carriageReturn (fits : Fits written length) :
    Fits (written ++ [Byte.carriageReturn]) length := by
  have counted := fits.counted
  refine ⟨?_, ?_, fits.limited⟩
  · rw [List.mem_append, not_or]
    exact ⟨fits.unbroken, by decide⟩
  · rw [List.length_append, List.count_append, List.count_singleton_self, List.length_singleton]
    omega

/-- The line is short when it ends, with an equals sign or without one. -/
theorem close (fits : Fits written length) (ending : Bytes) (unbroken : Byte.lineFeed ∉ ending)
    (little : ending.length ≤ 1 + ending.count Byte.carriageReturn)
    (later : ∀ line ∈ Bytes.lines rest, Short line) :
    ∀ line ∈ Bytes.lines (written ++ (ending ++ Byte.lineFeed :: rest)), Short line := by
  have whole : Byte.lineFeed ∉ written ++ ending := by
    rw [List.mem_append, not_or]
    exact ⟨fits.unbroken, unbroken⟩
  rw [← List.append_assoc, Bytes.lines_line rest whole]
  refine List.forall_mem_cons.mpr ⟨?_, later⟩
  have counted := fits.counted
  have limited : length ≤ 995 := fits.limited
  simp only [Short, List.length_append, List.count_append, List.length_singleton]
  omega

theorem short (fits : Fits written length) : ∀ line ∈ Bytes.lines written, Short line := by
  intro line member
  by_cases nothing : written = []
  · subst nothing
    contradiction
  · rw [Bytes.lines_unbroken fits.unbroken nothing, List.mem_singleton] at member
    have counted := fits.counted
    have limited : length ≤ 995 := fits.limited
    rw [member, Short]
    omega

end Fits

/-- A piece in whose spelling no half of a line break stands. -/
structure Level (piece : Piece) : Prop extends InLine piece where
  noFeed : Byte.lineFeed ∉ piece.spelling
  noReturn : Byte.carriageReturn ∉ piece.spelling

namespace Level

variable {byte high low : UInt8}

theorem escape (upper : Byte.isHexDigit high = true) (lower : Byte.isHexDigit low = true) :
    Level (.escape high low) := by
  have absent {byte : UInt8} (noDigit : Byte.isHexDigit byte = false)
      (noEquals : byte ≠ Byte.equals) : byte ∉ [Byte.equals, high, low] := by
    simp only [List.mem_cons, List.not_mem_nil, or_false, not_or]
    refine ⟨noEquals, ?_, ?_⟩
    · rintro rfl
      exact absurd upper (by rw [noDigit]; decide)
    · rintro rfl
      exact absurd lower (by rw [noDigit]; decide)
  exact ⟨⟨by simp, by simp⟩, absent (by decide) (by decide), absent (by decide) (by decide)⟩

theorem stray : Level .stray :=
  ⟨⟨by simp, by simp⟩, by decide, by decide⟩

/-- A byte is written as it is or as an escape. -/
theorem ofByte (noFeed : byte ≠ Byte.lineFeed) (noReturn : byte ≠ Byte.carriageReturn) :
    Level (Piece.ofByte byte) := by
  unfold Piece.ofByte
  split
  · refine ⟨⟨by simpa using noFeed, by simpa using noReturn⟩, ?_, ?_⟩
    · simpa [Piece.spelling] using Ne.symm noFeed
    · simpa [Piece.spelling] using Ne.symm noReturn
  · obtain ⟨upper, lower⟩ := Byte.isHexDigit_of_ofHexPair? (Byte.ofHexPair?_hexDigits byte)
    have digits := escape upper lower
    exact ⟨⟨by simp, by simp⟩, digits.noFeed, digits.noReturn⟩

end Level

section Lines

variable {piece : Piece} {pieces later : List Piece} {bytes rest : Bytes} {length : Nat}

/-- A piece is put onto the line if it fits, and otherwise behind a soft line break. -/
theorem short_layOut_cons (level : Level piece)
    (behind : ∀ {written : Bytes} {length : Nat}, Fits written length →
      ∀ line ∈ Bytes.lines (written ++ layOut length later), Short line)
    {written : Bytes} (fits : Fits written length) :
    ∀ line ∈ Bytes.lines (written ++ layOut length (piece :: later)), Short line := by
  have small : piece.spelling.length ≤ lineLimit :=
    Nat.le_trans piece.length_spelling_le (by decide)
  rw [layOut, place_inLine level.toInLine]
  split
  · exact fits.close [Byte.equals, Byte.carriageReturn] (by decide) (by decide)
      (behind (.ofSpelling level.noFeed small))
  · next room =>
    rw [← List.append_assoc]
    exact behind (fits.append level.noFeed (Nat.le_of_not_lt room))

/-- Whatever stands on the line already, the pieces of a text are laid out on short lines. -/
theorem short_layOut (cut : Cut bytes pieces) :
    ∀ {written : Bytes} {length : Nat}, Fits written length →
      ∀ line ∈ Bytes.lines (written ++ layOut length pieces), Short line := by
  induction cut with
  | nil =>
      intro written length fits
      rw [layOut, List.append_nil]
      exact fits.short
  | softLineFeed _ ih =>
      intro written length fits
      rw [layOut, place_softBreak, layOut, place_lineFeed]
      exact fits.close [Byte.equals] (by decide) (by decide) (ih .nil)
  | softCrlf _ ih =>
      intro written length fits
      rw [layOut, place_softBreak, layOut, place_return, layOut, place_lineFeed]
      exact fits.close [Byte.equals, Byte.carriageReturn] (by decide) (by decide)
        (ih .nil)
  | escape spelled _ ih =>
      obtain ⟨upper, lower⟩ := Byte.isHexDigit_of_ofHexPair? spelled
      exact short_layOut_cons (.escape upper lower) ih
  | stray _ _ ih => exact short_layOut_cons .stray ih
  | @ordinary byte _ _ _ _ ih =>
      intro written length fits
      by_cases feed : byte = Byte.lineFeed
      · subst feed
        change ∀ line ∈ Bytes.lines (written ++ layOut length (.plain Byte.lineFeed :: _)), _
        rw [layOut, place_lineFeed]
        exact fits.close [] (by decide) (by decide) (ih .nil)
      · by_cases isReturn : byte = Byte.carriageReturn
        · subst isReturn
          change ∀ line ∈ Bytes.lines (written ++ layOut length (.plain Byte.carriageReturn :: _)), _
          rw [layOut, place_return, ← List.append_assoc]
          exact ih fits.carriageReturn
        · exact short_layOut_cons (.ofByte feed isReturn) ih fits

/-- A soft line break that is put in is a pair. -/
theorem Paired.layOut_cons (level : Level piece)
    (paired : Paired (layOut (place length piece).2 later)) :
    Paired (layOut length (piece :: later)) := by
  have spelled := paired.append level.noReturn
  rw [layOut]
  rcases place_eq length piece with same | broken
  · rw [same]
    exact spelled
  · rw [broken, List.append_assoc]
    exact spelled.crlf.cons (by decide)

theorem exists_of_cut_lineFeed (cut : Cut bytes pieces) (begins : bytes = Byte.lineFeed :: rest) :
    ∃ later, pieces = .plain Byte.lineFeed :: later := by
  cases cut with
  | nil => cases begins
  | ordinary => exact ⟨_, by rw [(List.cons.inj begins).1]; rfl⟩
  | softLineFeed => exact absurd (List.cons.inj begins).1 (by decide)
  | softCrlf => exact absurd (List.cons.inj begins).1 (by decide)
  | escape => exact absurd (List.cons.inj begins).1 (by decide)
  | stray => exact absurd (List.cons.inj begins).1 (by decide)

/-- Where every carriage return has its line feed, it keeps it. -/
theorem paired_layOut (cut : Cut bytes pieces) (paired : Paired bytes) (length : Nat) :
    Paired (layOut length pieces) := by
  induction cut generalizing length with
  | nil => exact .nil
  | @softLineFeed rest _ _ ih =>
      have behind : Paired rest := paired.of_suffix ⟨[_, _], rfl⟩
      rw [layOut, place_softBreak, layOut, place_lineFeed]
      exact (ih behind 0).lineFeed.cons (by decide)
  | @softCrlf rest _ _ ih =>
      have behind : Paired rest := paired.of_suffix ⟨[_, _, _], rfl⟩
      rw [layOut, place_softBreak, layOut, place_return, layOut, place_lineFeed]
      exact (ih behind 0).crlf.cons (by decide)
  | @escape _ _ _ rest _ spelled _ ih =>
      have behind : Paired rest := paired.of_suffix ⟨[_, _, _], rfl⟩
      obtain ⟨upper, lower⟩ := Byte.isHexDigit_of_ofHexPair? spelled
      exact .layOut_cons (.escape upper lower) (ih behind _)
  | stray _ _ ih => exact .layOut_cons .stray (ih (paired.of_suffix (List.suffix_cons _ _)) _)
  | @ordinary byte rest later _ cut ih =>
      have behind := ih (paired.of_suffix (List.suffix_cons _ _))
      by_cases feed : byte = Byte.lineFeed
      · subst feed
        change Paired (layOut length (.plain Byte.lineFeed :: later))
        rw [layOut, place_lineFeed]
        exact (behind 0).lineFeed
      · by_cases isReturn : byte = Byte.carriageReturn
        · subst isReturn
          obtain ⟨_, begins⟩ := paired rest List.suffix_rfl
          obtain ⟨others, rfl⟩ := exists_of_cut_lineFeed cut begins
          have pair := behind length
          change Paired (layOut length (.plain Byte.carriageReturn :: .plain Byte.lineFeed :: others))
          rw [layOut, place_lineFeed] at pair
          rw [layOut, place_return, layOut, place_lineFeed]
          exact (pair.of_suffix (List.suffix_cons _ _)).crlf
        · exact .layOut_cons (.ofByte feed isReturn) (behind _)

/-- Carriage returns are laid out as they are, and the line is never broken between them. -/
theorem mend_returns (count : Nat) :
    mend (List.replicate count Byte.carriageReturn) = List.replicate count Byte.carriageReturn := by
  have all (length : Nat) : layOut length (QuotedPrintable.pieces
      (List.replicate count Byte.carriageReturn)) = List.replicate count Byte.carriageReturn := by
    induction count with
    | zero => exact layOut_end length
    | succ count ih =>
        rw [List.replicate_succ, pieces_cons (by decide)]
        change layOut length (.plain Byte.carriageReturn :: _) = _
        rw [layOut, place_return, ih]
        rfl
  exact all 0

end Lines

namespace Mender

/-- Whatever goes into a mender, and however it is read, no line of what comes out is longer than
997 bytes and its carriage returns.  If every carriage return that went in has its line feed, no
line is longer than 998 bytes. -/
theorem length_lines_drainBy {sizes : Nat → Nat} (positive : ∀ index, 0 < sizes index)
    (bytes : Bytes) :
    let output := (BlockReader.drainBy sizes (ofStream bytes)).bytes
    (BlockReader.drainBy sizes (ofStream bytes)).fault = none ∧
      (∀ line ∈ Bytes.lines output, line.length ≤ 997 + line.count Byte.carriageReturn) ∧
      (Paired bytes → ∀ line ∈ Bytes.lines output, line.length ≤ 998) := by
  have held : ByteSource.InMemory bytes bytes [] := ⟨rfl, rfl⟩
  obtain ⟨unfailing, mended⟩ := drainBy_ofStream BlockReader.faithful_inMemory positive held
  rw [mended]
  have short : ∀ line ∈ Bytes.lines (mend bytes), Short line :=
    short_layOut (cut_pieces bytes) .nil
  refine ⟨unfailing, short, fun paired line member => ?_⟩
  have kept : Paired line := (paired_layOut (cut_pieces bytes) paired 0).of_mem_lines member
  have once := kept.count_le (last_of_mem_lines member)
  have bound := short line member
  rw [Short] at bound
  omega

/-- A line that is full when a soft line break ends it. -/
def brimful : Bytes :=
  List.replicate 995 0x61 ++ [Byte.equals, Byte.carriageReturn, Byte.lineFeed]

theorem length_lines_drainBy_brimful :
    (∀ _ : Nat, 0 < 7) ∧ Paired brimful ∧
      (∃ line ∈ Bytes.lines (BlockReader.drainBy (fun _ => 7) (ofStream brimful)).bytes,
        line.length = 998) ∧
      ∀ line ∈ Bytes.lines (BlockReader.drainBy (fun _ => 7) (ofStream brimful)).bytes,
        line.length ≤ 998 := by
  have positive : ∀ _ : Nat, 0 < 7 := fun _ => by decide
  have paired : Paired brimful := (Paired.nil.crlf.cons (by decide)).append fun member =>
    absurd (List.eq_of_mem_replicate member) (by decide)
  have held : ByteSource.InMemory brimful brimful [] := ⟨rfl, rfl⟩
  obtain ⟨-, mended⟩ := drainBy_ofStream BlockReader.faithful_inMemory positive held
  refine ⟨positive, paired, ?_, (length_lines_drainBy positive brimful).2.2 paired⟩
  rw [mended]
  decide +kernel

/-- Carriage returns alone make a line that is too long. -/
theorem returns_outgrow_line :
    let returns := List.replicate 1000 Byte.carriageReturn
    let output := (BlockReader.drainBy (fun _ => 4096) (ofStream returns)).bytes
    output = returns ∧ ∃ line ∈ Bytes.lines output, 998 < line.length := by
  intro returns output
  have same : output = returns :=
    (drainBy_ofStream BlockReader.faithful_inMemory (fun _ => by decide) ⟨rfl, rfl⟩).2.trans
      (mend_returns 1000)
  have long : returns.length = 1000 := List.length_replicate
  have unbroken : Byte.lineFeed ∉ returns := fun member =>
    absurd (List.eq_of_mem_replicate member) (by decide)
  refine ⟨same, returns, ?_, by rw [long]; decide⟩
  rw [same, Bytes.lines_unbroken unbroken (List.ne_nil_of_length_pos (by rw [long]; decide))]
  exact List.mem_singleton_self _

end Mender

end LenientMime.QuotedPrintable
