import LenientMime.Multipart.PartReader

namespace LenientMime.Multipart

/-- What walking a body gave: the content of every part, the error that stopped
the walk if one did, and the reader behind the last part. -/
structure Walk (σ : Type) where
  contents : List Bytes
  error : Option Error
  reader : PartReader σ

def Walk.after {σ : Type} (content : Bytes) (later : Walk σ) : Walk σ :=
  { later with contents := content :: later.contents }

namespace PartReader

variable {σ : Type} [ByteSource σ]

theorem extent_of_openPart {reader after : PartReader σ}
    (opened : reader.openPart = (.ok true, after)) : after.extent < reader.extent := by
  fun_induction openPart reader with
  | case1 => simp at opened
  | case2 reader line source taken reader' kind ih =>
      have := extent_of_wholeLine reader.boundary taken (by simp [kind])
      have := ih opened
      simp only [extent, reader'] at this ⊢
      omega
  | case3 => simp at opened
  | case4 reader line source taken reader' kind =>
      obtain rfl := by simpa using opened
      have := extent_of_wholeLine reader.boundary taken (by simp [kind])
      simp only [extent, reader']
      omega
  | case5 => simp at opened
  | case6 reader line source taken reader' kind _ ih =>
      have := extent_of_wholeLine reader.boundary taken (by simp [kind])
      have := ih opened
      simp only [extent, reader'] at this ⊢
      omega
  | case7 => simp at opened

theorem extent_of_next {reader after : PartReader σ}
    (opened : reader.next = (.ok true, after)) : after.extent < reader.extent := by
  simp only [next] at opened
  split at opened
  · simp at opened
  · split at opened
    · have := extent_of_openPart opened
      simp only [extent, List.length_nil] at this ⊢
      omega
    · split at opened
      · simp at opened
      · next discarded =>
        have := BlockReader.extent_of_discard discarded
        have := extent_of_openPart opened
        simp only [BlockReader.extent, extent, List.length_nil] at *
        omega

def walk (reader : PartReader σ) : Walk σ :=
  match _ : reader.next with
  | (.error error, reader) => { contents := [], error := some error, reader }
  | (.ok false, reader) => { contents := [], error := none, reader }
  | (.ok true, opened) =>
      let part := BlockReader.drain BlockReader.discardBlock opened
      match _ : part.fault with
      | some fault =>
          { contents := [part.bytes], error := some (.stream fault), reader := part.stream }
      | none => (walk part.stream).after part.bytes
termination_by reader.extent
decreasing_by
  exact Nat.lt_of_le_of_lt (BlockReader.extent_of_drain ‹_›) (extent_of_next ‹_›)

end PartReader

end LenientMime.Multipart
