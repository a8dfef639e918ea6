import LenientMime.Proofs.QuotedPrintable.Stream
import LenientMime.Proofs.Stream.Conservation
import Mathlib

namespace LenientMime

/-! Reads of any sizes.

A spelling is longer than the byte it stands for, and what of it does not fit into a read waits
for the next one.  So no read has to leave room: each is filled to the last byte, the end of the
stream apart, and together they hand over the mended text, however the stream was cut and
interrupted below the window.
-/

/-- Reads one after the other hand over the front of what a prompt stream holds, as much as they
ask for together. -/
theorem BlockReader.Prompt.readAll {σ : Type} [BlockReader σ] {holds : σ → Bytes → Prop}
    (prompt : Prompt holds) (sizes : List Nat) {stream : σ} {bytes : Bytes}
    (held : holds stream bytes) :
    (BlockReader.readAll stream sizes).1.flatMap handedOver = bytes.take sizes.sum ∧
      holds (BlockReader.readAll stream sizes).2 (bytes.drop sizes.sum) := by
  induction sizes generalizing stream bytes with
  | nil => exact ⟨rfl, held⟩
  | cons size later ih =>
      obtain ⟨after, reading, left⟩ := prompt stream bytes size held
      obtain ⟨given, holdsLast⟩ := ih left
      rw [List.drop_drop] at holdsLast
      rw [BlockReader.readAll, reading, List.sum_cons]
      refine ⟨?_, holdsLast⟩
      rw [List.flatMap_cons, given, handedOver, List.take_add]

namespace QuotedPrintable.Mender

/-- However a text is cut into blocks and interrupted between them, its mender gives the mended
text: in reads of any sizes to the end, and in one read that has room for all of it.  No read
fails, and each is full unless it reaches the end. -/
theorem reads_fill {script : Script} (calm : script.Calm) :
    let start := ofStream script
    let output := mend script.contents
    (∀ sizes : Nat → Nat, (∀ index, 0 < sizes index) →
      (BlockReader.drainBy sizes start).fault = none ∧
        (BlockReader.drainBy sizes start).bytes = output) ∧
    (∀ room, output.length ≤ room → (start.read room).1 = .ok output) ∧
    (∀ (earlier : List Nat) (size : Nat),
      let given := (BlockReader.readAll start earlier).1.flatMap handedOver
      ∃ block, ((BlockReader.readAll start earlier).2.read size).1 = .ok block ∧
        given ++ block <+: output ∧ (block.length = size ∨ given ++ block = output)) := by
  intro start output
  have faithful := Script.faithful_holds
  have prompt := prompt_delivers faithful
  have held : Script.Holds script script.contents [] := ⟨rfl, calm.failures, calm.gapless⟩
  have delivers : Delivers Script.Holds start output :=
    ⟨script.contents, Lookahead.holds_ofCapacity held (by decide), rfl⟩
  refine ⟨fun sizes positive => drainBy_ofStream faithful positive held, fun room enough => ?_,
    fun earlier size => ?_⟩
  · obtain ⟨after, reading, -⟩ := prompt start output room delivers
    change start.read room = _ at reading
    rw [reading, List.take_of_length_le enough]
  · obtain ⟨given, left⟩ := prompt.readAll earlier delivers
    obtain ⟨after, reading, -⟩ := prompt _ _ size left
    change Mender.read size (BlockReader.readAll start earlier).2 = _ at reading
    refine ⟨_, by rw [reading], ?_⟩
    rw [given, ← List.take_add]
    refine ⟨List.take_prefix _ _, ?_⟩
    rw [List.length_take, List.length_drop]
    by_cases enough : earlier.sum + size ≤ output.length
    · left
      omega
    · right
      exact List.take_of_length_le (by omega)

/-- A block that ends behind an equals sign, one that ends inside an escape, one that ends between
both halves of a line break, and interruptions in front of them, between them and at the end. -/
def fitful : Script :=
  ⟨[.fault .interrupted, .data (Text.utf8 "é=".toList), .fault .interrupted,
    .fault .interrupted, .data (Text.utf8 "4".toList), .fault .interrupted,
    .data (Text.utf8 "1=\r".toList), .data (Text.utf8 "\nx=".toList), .fault .interrupted]⟩

theorem reads_fill_fitful :
    let mended := Text.utf8 "=C3=A9=41=\r\nx=3D".toList
    fitful.Calm ∧ mend fitful.contents = mended ∧ (∀ _ : Nat, 0 < 1) ∧
      (BlockReader.drainBy (fun _ => 1) (ofStream fitful)).fault = none ∧
      (BlockReader.drainBy (fun _ => 1) (ofStream fitful)).bytes = mended ∧
      mended.length ≤ 16 ∧ ((ofStream fitful).read 16).1 = .ok mended ∧
      ∃ block, ((BlockReader.readAll (ofStream fitful) [2, 3]).2.read 4).1 = .ok block ∧
        Text.utf8 "=C3=A".toList ++ block <+: mended ∧
        (block.length = 4 ∨ Text.utf8 "=C3=A".toList ++ block = mended) := by
  intro mended
  have calm : fitful.Calm := by decide
  have same : mend fitful.contents = mended := by decide +kernel
  have positive : ∀ _ : Nat, 0 < 1 := fun _ => Nat.one_pos
  have enough : mended.length ≤ 16 := by decide
  have given : (BlockReader.readAll (ofStream fitful) [2, 3]).1.flatMap handedOver =
      Text.utf8 "=C3=A".toList := by
    decide +kernel
  obtain ⟨drains, whole, fills⟩ := reads_fill calm
  rw [same] at drains whole fills
  have full := fills [2, 3] 4
  rw [given] at full
  obtain ⟨unfailing, bytes⟩ := drains (fun _ => 1) positive
  exact ⟨calm, same, positive, unfailing, bytes, enough, whole 16 enough, full⟩

end QuotedPrintable.Mender

end LenientMime
