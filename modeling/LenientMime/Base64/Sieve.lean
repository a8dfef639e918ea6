import LenientMime.Base64.Alphabet
import LenientMime.Stream.BlockReader

namespace LenientMime.Base64

/-- A byte that has no place in a base64 body, and its offset in the stream. -/
structure Foreign where
  byte : UInt8
  offset : Nat
deriving DecidableEq, Repr

def foreignFrom (offset : Nat) : Bytes → List Foreign
  | [] => []
  | byte :: rest =>
      if isForeign byte then { byte, offset } :: foreignFrom (offset + 1) rest
      else foreignFrom (offset + 1) rest

/-- A stream that lets the symbols through.  Of the foreign bytes it keeps the first. -/
structure Sieve (ρ : Type) where
  inner : ρ
  offset : Nat := 0
  report : List Foreign := []
  /-- All foreign bytes, reported or not. -/
  foreignCount : Nat := 0
deriving DecidableEq, Repr

namespace Sieve

def reportLimit : Nat := 64

def blockLimit : Nat := 1024

variable {ρ : Type} [BlockReader ρ]

def note (block : Bytes) (sieve : Sieve ρ) : Sieve ρ :=
  let found := foreignFrom sieve.offset block
  { sieve with
    offset := sieve.offset + block.length
    report := (sieve.report ++ found).take reportLimit
    foreignCount := sieve.foreignCount + found.length }

/-- One read.  A block of which nothing passes must not look like the end of the
stream, so the sieve goes on until something does. -/
def read (limit : Nat) (sieve : Sieve ρ) : Except Fault Bytes × Sieve ρ :=
  if limit = 0 then (.ok [], sieve)
  else
    match _ : BlockReader.read (min limit blockLimit) sieve.inner with
    | (.error fault, inner) => (.error fault, { sieve with inner })
    | (.ok [], inner) => (.ok [], { sieve with inner })
    | (.ok (byte :: block), inner) =>
        match sift (byte :: block) with
        | [] => read limit (note (byte :: block) { sieve with inner })
        | kept => (.ok kept, note (byte :: block) { sieve with inner })
termination_by BlockReader.extent sieve.inner
decreasing_by exact BlockReader.extent_lt_of_read ‹_›

instance : BlockReader (Sieve ρ) where
  read := read
  extent sieve := BlockReader.extent sieve.inner
  length_of_read := by
    intro limit sieve after block reading
    fun_induction read limit sieve with
    | case1 =>
        obtain ⟨rfl, -⟩ := by simpa using reading
        simp
    | case2 => simp at reading
    | case3 =>
        obtain ⟨rfl, -⟩ := by simpa using reading
        simp
    | case4 _ _ _ _ _ _ _ ih => exact ih reading
    | case5 _ _ byte bytes inner taken _ =>
        obtain ⟨rfl, -⟩ := by simpa using reading
        have := BlockReader.length_of_read taken
        have := List.length_filter_le isSymbol (byte :: bytes)
        simp only [sift] at *
        omega
  extent_of_read := by
    intro limit sieve after block reading
    fun_induction read limit sieve with
    | case1 =>
        obtain ⟨rfl, rfl⟩ := by simpa using reading
        simp
    | case2 => simp at reading
    | case3 _ _ inner taken =>
        obtain ⟨rfl, rfl⟩ := by simpa using reading
        simpa using BlockReader.extent_of_read taken
    | case4 _ _ _ _ inner taken _ ih =>
        have := BlockReader.extent_lt_of_read taken
        have := ih reading
        simp only [note] at this
        omega
    | case5 _ _ byte bytes inner taken _ =>
        obtain ⟨rfl, rfl⟩ := by simpa using reading
        have := BlockReader.extent_of_read taken
        have := List.length_filter_le isSymbol (byte :: bytes)
        simp only [note, sift] at *
        omega
  extent_of_interruption := by
    intro limit sieve after reading
    fun_induction read limit sieve with
    | case1 => simp at reading
    | case2 _ _ fault inner taken =>
        obtain ⟨rfl, rfl⟩ := by simpa using reading
        exact BlockReader.extent_of_interruption taken
    | case3 => simp at reading
    | case4 _ _ _ _ inner taken _ ih =>
        have := BlockReader.extent_lt_of_read taken
        have := ih reading
        simp only [note] at this
        omega
    | case5 => simp at reading

end Sieve

end LenientMime.Base64
