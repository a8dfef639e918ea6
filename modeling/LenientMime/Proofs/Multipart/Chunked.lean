import LenientMime.Proofs.Multipart.Mirror
import LenientMime.Proofs.Stream.Lookahead
import LenientMime.Settings.Basic

namespace LenientMime.Multipart.PartReader

/-! Part readers over streams that come in pieces.

However a body is cut into blocks, and wherever the stream is interrupted, a caller
cannot tell the part reader from one that has the body in memory.
-/

section Runs

variable {σ : Type} [ByteSource σ] {account : σ → Bytes → List Bytes → Prop} {depth : Nat}
  {reader : PartReader σ} {twin : PartReader Bytes}

/-- Without failures a caller sees over any source what it sees over the bytes in memory,
whatever calls it makes. -/
theorem Mirrors.run (faithful : ByteSource.Faithful depth account)
    (mirrors : Mirrors account depth reader twin []) (calls : List Call) :
    (reader.run calls).1 = (twin.run calls).1 ∧
      Mirrors account depth (reader.run calls).2 (twin.run calls).2 [] := by
  induction calls generalizing reader twin with
  | nil => exact ⟨rfl, mirrors⟩
  | cons call later ih =>
      obtain ⟨same, mirrorsAfter⟩ := mirrors.call faithful (mirrors.answered faithful call)
      obtain ⟨sameLater, mirrorsFinal⟩ := ih mirrorsAfter
      have standing := mirrorsAfter.standing faithful (Nat.le_refl 0)
      rw [run_cons, run_cons, same, standing, sameLater]
      exact ⟨rfl, mirrorsFinal⟩

theorem Mirrors.unfailing (faithful : ByteSource.Faithful depth account)
    (mirrors : Mirrors account depth reader twin []) (calls : List Call) :
    ∀ seen ∈ (reader.run calls).1, seen.1.fault? = none := by
  induction calls generalizing reader twin with
  | nil => simp
  | cons call later ih =>
      have answered := mirrors.answered faithful call
      rw [run_cons, List.forall_mem_cons]
      exact ⟨answered, ih (mirrors.call faithful answered).2⟩

theorem Mirrors.looksLike (faithful : ByteSource.Faithful depth account)
    (mirrors : Mirrors account depth reader twin []) : reader.LooksLike twin :=
  fun calls => ⟨(mirrors.run faithful calls).1, mirrors.unfailing faithful calls⟩

end Runs

theorem ofSource_slice (body : Bytes) (boundary : Text) :
    ofSource body boundary = .ok (atFront body boundary) :=
  rfl

section Window

variable {ρ : Type} [BlockReader ρ] {account : ρ → Bytes → List Bytes → Prop} {stream : ρ}
  {body : Bytes} {failures : List Bytes} {boundary : Text} {capacity : Nat}

theorem ofSource_window (stream : ρ) (enough : peekDepth boundary ≤ capacity) :
    ofSource (Lookahead.ofCapacity capacity stream) boundary =
      .ok (atFront (Lookahead.ofCapacity capacity stream) boundary) :=
  if_neg (Nat.not_lt_of_le (Nat.le_trans enough (Nat.le_max_left capacity 1)))

omit [BlockReader ρ] in
theorem mirrors_window (held : account stream body failures)
    (enough : peekDepth boundary ≤ capacity) :
    Mirrors (Lookahead.Holds account (peekDepth boundary)) (peekDepth boundary)
      (atFront (Lookahead.ofCapacity capacity stream) boundary) (atFront body boundary) failures :=
  ⟨_, rfl, Lookahead.holds_ofCapacity held enough, Nat.le_refl _⟩

end Window

/-- Over any cutting of a body, with interruptions anywhere and through a window of any
capacity that is enough for the boundary, a part reader looks like the one over the body in
memory.  Readers that size their window themselves take one that is enough. -/
theorem ofSource_looksLike_slice (boundary : Text) {script : Script} (calm : script.Calm) :
    ∃ memory, ofSource script.contents boundary = .ok memory ∧
      (∀ capacity, peekDepth boundary ≤ capacity → ∃ reader,
        ofSource (Lookahead.ofCapacity capacity script) boundary = .ok reader ∧
          reader.LooksLike memory) ∧
      (∃ reader, ofStream script boundary = .ok reader ∧ reader.LooksLike memory) ∧
      ∀ settings : Settings, ∃ reader,
        settings.partReader script boundary = .ok reader ∧ reader.LooksLike memory := by
  have held : script.Holds script.contents [] := ⟨rfl, calm.failures, calm.gapless⟩
  have looksLike (capacity : Nat) (enough : peekDepth boundary ≤ capacity) :
      ∃ reader, ofSource (Lookahead.ofCapacity capacity script) boundary = .ok reader ∧
        reader.LooksLike (atFront script.contents boundary) :=
    ⟨_, ofSource_window _ enough,
      (mirrors_window held enough).looksLike (Lookahead.faithful_holds Script.faithful_holds _)⟩
  exact ⟨_, ofSource_slice _ _, looksLike, looksLike _ (Nat.le_max_right _ _),
    fun settings => looksLike _ (Nat.le_max_right _ _)⟩

/-- A body cut inside its delimiters, and inside the line break in front of the last. -/
def torn : Script :=
  ⟨[.data (Text.utf8 "-".toList), .fault .interrupted, .data (Text.utf8 "-b\nx\r".toList),
    .data (Text.utf8 "\n--".toList), .fault .interrupted, .data (Text.utf8 "b--\ne".toList)]⟩

theorem ofSource_looksLike_slice_torn :
    torn.Calm ∧ peekDepth "b".toList ≤ 7 ∧ ∃ reader,
      ofSource (Lookahead.ofCapacity 7 torn) "b".toList = .ok reader ∧
        (reader.run [.next, .read 4, .next]).1 =
          [(.moved (.ok true),
              { partsRead := 1, finished := false, unbounded := false
                rest := (Text.utf8 "x\r\n--b--\ne".toList, none) }),
            (.block (.ok (Text.utf8 "x".toList)),
              { partsRead := 1, finished := false, unbounded := false
                rest := (Text.utf8 "\r\n--b--\ne".toList, none) }),
            (.moved (.ok false),
              { partsRead := 1, finished := true, unbounded := false
                rest := (Text.utf8 "e".toList, none) })] := by
  have calm : torn.Calm := by decide
  have deep : peekDepth "b".toList ≤ 7 := by decide
  obtain ⟨memory, opened, windows, -⟩ := ofSource_looksLike_slice "b".toList calm
  obtain ⟨reader, made, looksLike⟩ := windows 7 deep
  refine ⟨calm, deep, reader, made, (looksLike _).1.trans ?_⟩
  obtain rfl := by simpa [ofSource_slice] using opened
  decide +kernel

end LenientMime.Multipart.PartReader
