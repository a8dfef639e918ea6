import LenientMime.Stream.BlockReader

namespace LenientMime

inductive Script.Event where
  /-- Bytes on offer.  An empty block is one read that returns nothing. -/
  | data (bytes : Bytes)
  | fault (fault : Fault)
deriving DecidableEq, Repr

structure Script where
  events : List Script.Event
deriving DecidableEq, Repr

namespace Script

def Event.extent : Event → Nat
  | .data bytes => bytes.length
  | .fault _ => 1

def Event.bytes : Event → Bytes
  | .data bytes => bytes
  | .fault _ => []

def contents (script : Script) : Bytes :=
  script.events.flatMap Event.bytes

/-- One read.  A fault is reported once.  A block offers what fits and stays first
with the rest; it goes when it is used up. -/
def read (limit : Nat) : Script → Except Fault Bytes × Script
  | ⟨[]⟩ => (.ok [], ⟨[]⟩)
  | ⟨.fault fault :: later⟩ => (.error fault, ⟨later⟩)
  | ⟨.data bytes :: later⟩ =>
      if bytes.length ≤ limit then (.ok bytes, ⟨later⟩)
      else (.ok (bytes.take limit), ⟨.data (bytes.drop limit) :: later⟩)

def extent (script : Script) : Nat :=
  script.events.foldr (fun event rest => event.extent + rest) 0

theorem contents_of_read {limit : Nat} {script after : Script} {block : Bytes}
    (reading : script.read limit = (.ok block, after)) :
    block ++ after.contents = script.contents := by
  obtain ⟨_ | ⟨_ | _, later⟩⟩ := script
  · obtain ⟨rfl, rfl⟩ := by simpa [read] using reading
    rfl
  · simp only [read] at reading
    split at reading <;> obtain ⟨rfl, rfl⟩ := by simpa using reading
    · simp [contents, Event.bytes]
    · simp [contents, Event.bytes, ← List.append_assoc]
  · simp [read] at reading

theorem contents_of_fault {limit : Nat} {script after : Script} {fault : Fault}
    (reading : script.read limit = (.error fault, after)) :
    after.contents = script.contents := by
  obtain ⟨_ | ⟨_ | _, later⟩⟩ := script
  · simp [read] at reading
  · simp only [read] at reading
    split at reading <;> simp at reading
  · obtain ⟨-, rfl⟩ := by simpa [read] using reading
    simp [contents, Event.bytes]

instance : BlockReader Script where
  read := read
  extent := extent
  length_of_read := by
    intro limit script after block reading
    obtain ⟨_ | ⟨_ | _, later⟩⟩ := script
    · obtain ⟨rfl, -⟩ := by simpa [read] using reading
      simp
    · simp only [read] at reading
      split at reading <;> obtain ⟨rfl, -⟩ := by simpa using reading
      · assumption
      · simp only [List.length_take]
        omega
    · simp [read] at reading
  extent_of_read := by
    intro limit script after block reading
    obtain ⟨_ | ⟨_ | _, later⟩⟩ := script
    · obtain ⟨rfl, rfl⟩ := by simpa [read] using reading
      simp
    · simp only [read] at reading
      split at reading <;> obtain ⟨rfl, rfl⟩ := by simpa using reading
      · simp only [extent, List.foldr_cons, Event.extent]
        omega
      · simp only [extent, List.foldr_cons, Event.extent, List.length_take, List.length_drop]
        omega
    · simp [read] at reading
  extent_of_interruption := by
    intro limit script after reading
    obtain ⟨_ | ⟨_ | _, later⟩⟩ := script
    · simp [read] at reading
    · simp only [read] at reading
      split at reading <;> simp at reading
    · obtain ⟨-, rfl⟩ := by simpa [read] using reading
      simp [extent, Event.extent]

end Script

end LenientMime
