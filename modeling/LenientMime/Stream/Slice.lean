import LenientMime.Stream.BlockReader
import LenientMime.Stream.ByteSource

namespace LenientMime

instance : BlockReader Bytes where
  read limit bytes := (.ok (bytes.take limit), bytes.drop limit)
  extent bytes := bytes.length
  length_of_read := by
    intro limit bytes after block reading
    obtain ⟨rfl, -⟩ := by simpa using reading
    simp only [List.length_take]
    omega
  extent_of_read := by
    intro limit bytes after block reading
    obtain ⟨rfl, rfl⟩ := by simpa using reading
    simp only [List.length_take, List.length_drop]
    omega
  extent_of_interruption := by simp

instance : ByteSource Bytes where
  peek depth bytes := (.ok (bytes.take depth), bytes)
  take
    | [] => (.ok none, [])
    | byte :: rest => (.ok (some byte), rest)
  capacity _ := none
  extent bytes := bytes.length
  extent_of_peek := by
    intro depth bytes after window looking
    obtain ⟨-, rfl⟩ := by simpa using looking
    exact Nat.le_refl _
  extent_of_take := by
    intro bytes after byte taking
    cases bytes with
    | nil => simp at taking
    | cons first rest =>
        obtain ⟨-, rfl⟩ := by simpa using taking
        simp
  extent_of_end := by
    intro bytes after taking
    cases bytes with
    | nil =>
        obtain rfl := by simpa using taking
        exact Nat.le_refl _
    | cons first rest => simp at taking
  peek_steady := by simp
  take_steady := by
    intro bytes after
    cases bytes <;> simp

end LenientMime
