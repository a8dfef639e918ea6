import LenientMime.Stream.BlockReader

namespace LenientMime.BlockReader

variable {σ : Type} [BlockReader σ]

/-- Reads until a block is empty or a read fails.  The first read has the size
`sizes 0`, the next one `sizes 1`, and so on. -/
def drainBy (sizes : Nat → Nat) (stream : σ) : Drained σ :=
  match _ : read (sizes 0) stream with
  | (.error fault, after) => { bytes := [], fault := some fault, stream := after }
  | (.ok [], after) => { bytes := [], fault := none, stream := after }
  | (.ok (byte :: block), after) =>
      (drainBy (fun index => sizes (index + 1)) after).after (byte :: block)
termination_by extent stream
decreasing_by exact extent_lt_of_read ‹_›

theorem extent_of_drainBy {sizes : Nat → Nat} {stream : σ}
    (unfailing : (drainBy sizes stream).fault = none) :
    extent (drainBy sizes stream).stream ≤ extent stream := by
  fun_induction drainBy sizes stream with
  | case1 => simp at unfailing
  | case2 _ _ _ reading => simpa using extent_of_read reading
  | case3 _ _ _ _ _ reading ih =>
      have := ih unfailing
      have := extent_lt_of_read reading
      simp only [Drained.after]
      omega

/-- Reads one after the other, whatever each of them answers. -/
def readAll (stream : σ) : List Nat → List (Except Fault Bytes) × σ
  | [] => ([], stream)
  | limit :: later =>
      ((read limit stream).1 :: (readAll (read limit stream).2 later).1,
        (readAll (read limit stream).2 later).2)

theorem drain_eq_drainBy (limit : Nat) (stream : σ) :
    drain limit stream = drainBy (fun _ => limit) stream := by
  fun_induction drain limit stream with
  | case1 _ _ _ reading => rw [drainBy, reading]
  | case2 _ _ reading => rw [drainBy, reading]
  | case3 _ _ _ _ reading ih => rw [drainBy, reading, ih]

theorem length_drop_lt {bytes rest : Bytes} {limit : Nat} {byte : UInt8}
    (block : bytes.take limit = byte :: rest) : (bytes.drop limit).length < bytes.length := by
  have held := congrArg List.length block
  simp only [List.length_take, List.length_cons] at held
  rw [List.length_drop]
  omega

/-- Every read hands out the front of what a stream holds, as much as it is asked for. -/
def Prompt (holds : σ → Bytes → Prop) : Prop :=
  ∀ stream bytes limit, holds stream bytes →
    ∃ after, read limit stream = (.ok (bytes.take limit), after) ∧ holds after (bytes.drop limit)

/-- Reading a prompt stream to the end gives what it holds, whatever the sizes of the reads. -/
theorem Prompt.drainBy {holds : σ → Bytes → Prop} (prompt : Prompt holds) {sizes : Nat → Nat}
    (positive : ∀ index, 0 < sizes index) {stream : σ} {bytes : Bytes}
    (held : holds stream bytes) :
    (drainBy sizes stream).fault = none ∧ (drainBy sizes stream).bytes = bytes := by
  induction length : bytes.length using Nat.strongRecOn generalizing sizes stream bytes with
  | ind length ih =>
      subst length
      obtain ⟨after, reading, left⟩ := prompt stream bytes (sizes 0) held
      rw [BlockReader.drainBy, reading]
      cases block : bytes.take (sizes 0) with
      | nil =>
          have nothing : bytes = [] := by
            simpa [Nat.ne_of_gt (positive 0)] using block
          exact ⟨rfl, nothing.symm⟩
      | cons byte rest =>
          obtain ⟨unfailing, later⟩ := ih _ (length_drop_lt block)
            (fun index => positive (index + 1)) left rfl
          refine ⟨unfailing, ?_⟩
          simp only [Drained.after, later, ← block, List.take_append_drop]

end LenientMime.BlockReader
