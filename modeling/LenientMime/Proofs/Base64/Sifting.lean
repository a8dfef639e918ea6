import LenientMime.Base64.Sieve
import LenientMime.Proofs.Base64.Coding
import LenientMime.Proofs.Hexadecimal
import LenientMime.Proofs.Stream.Conservation
import LenientMime.Proofs.Stream.Schedule

namespace LenientMime.Base64

/-! A sieve in step with its stream.

What a sieve has let through, counted and reported is told by the bytes that it has taken from
its stream so far, whatever blocks they came in and whichever reads failed.  The stream is
recorded to say what these bytes are.
-/

/-- The symbols in the order of their values. -/
def alphabet : Bytes :=
  "ABCDEFGHIJKLMNOPQRSTUVWXYZabcdefghijklmnopqrstuvwxyz0123456789+/".toList.map
    fun letter => UInt8.ofNat letter.toNat

/-- Blanks, line breaks and padding. -/
def folding : Bytes :=
  [Byte.space, Byte.tab, Byte.carriageReturn, Byte.lineFeed, Byte.equals]

theorem alphabet_eq : alphabet = (List.range 64).map fun value => symbol (UInt8.ofNat value) := by
  decide +kernel

theorem symbol_of_value? {byte value : UInt8} (found : value? byte = some value) :
    symbol value = byte ∧ value.toNat < 64 := by
  have all : (value? byte).all (fun value => symbol value == byte && value.toNat < 64) = true :=
    Byte.of_all (p := fun byte => (value? byte).all
      (fun value => symbol value == byte && value.toNat < 64) = true) (by decide +kernel) byte
  simpa [found] using all

theorem isSymbol_eq (byte : UInt8) : isSymbol byte = decide (byte ∈ alphabet) := by
  rw [Bool.eq_iff_iff, decide_eq_true_iff, alphabet_eq, List.mem_map, isSymbol,
    Option.isSome_iff_exists]
  constructor
  · rintro ⟨value, found⟩
    obtain ⟨written, small⟩ := symbol_of_value? found
    exact ⟨value.toNat, List.mem_range.mpr small, by rw [UInt8.ofNat_toNat, written]⟩
  · rintro ⟨value, member, rfl⟩
    have bound := List.mem_range.mp member
    have small : (UInt8.ofNat value).toNat < 64 := by
      rwa [UInt8.toNat_ofNat_of_lt' (Nat.lt_trans bound (by decide))]
    exact ⟨_, (value?_symbol small).1⟩

theorem isForeign_eq (byte : UInt8) :
    isForeign byte = decide (byte ∉ alphabet ∧ byte ∉ folding) := by
  rw [Bool.eq_iff_iff]
  simp [isForeign, isIgnorable, Byte.isSpacing, isSymbol_eq, folding, and_assoc]

theorem sift_eq (bytes : Bytes) : sift bytes = bytes.filter (· ∈ alphabet) :=
  List.filter_congr fun byte _ => isSymbol_eq byte

theorem sift_append (front rest : Bytes) : sift (front ++ rest) = sift front ++ sift rest :=
  List.filter_append front rest

theorem foreignFrom_append (offset : Nat) (front rest : Bytes) :
    foreignFrom offset (front ++ rest) =
      foreignFrom offset front ++ foreignFrom (offset + front.length) rest := by
  induction front generalizing offset with
  | nil => rfl
  | cons byte front ih =>
      have next : offset + 1 + front.length = offset + (byte :: front).length := by
        simp only [List.length_cons]
        omega
      simp only [List.cons_append, foreignFrom, ih, next]
      split <;> rfl

/-- Each foreign byte stands in the report with the place it has. -/
theorem foreignFrom_eq_zipIdx (offset : Nat) (bytes : Bytes) :
    foreignFrom offset bytes =
      ((bytes.zipIdx offset).filter fun entry => isForeign entry.1).map fun entry =>
        { byte := entry.1, offset := entry.2 } := by
  induction bytes generalizing offset with
  | nil => rfl
  | cons byte rest ih =>
      rw [foreignFrom, List.zipIdx_cons, List.filter_cons]
      split
      · rw [List.map_cons, ih]
      · rw [ih]

namespace Sieve

section Unrecorded

variable {ρ : Type} [BlockReader ρ] {limit : Nat}

/-- What a read makes of an answer of the stream. -/
def readFrom (limit : Nat) (sieve : Sieve ρ) :
    Except Fault Bytes → ρ → Except Fault Bytes × Sieve ρ
  | .error fault, inner => (.error fault, { sieve with inner })
  | .ok [], inner => (.ok [], { sieve with inner })
  | .ok (byte :: block), inner =>
      if sift (byte :: block) = [] then read limit (note (byte :: block) { sieve with inner })
      else (.ok (sift (byte :: block)), note (byte :: block) { sieve with inner })

theorem read_eq_readFrom (sieve : Sieve ρ) {answer : Except Fault Bytes} {inner : ρ}
    (some : ¬ limit = 0)
    (taken : BlockReader.read (min limit blockLimit) sieve.inner = (answer, inner)) :
    sieve.read limit = sieve.readFrom limit answer inner := by
  rw [read, if_neg some]
  split <;> cases taken.symm.trans ‹_›
  · rfl
  · rfl
  · rw [readFrom]
    split
    · next nothing => rw [if_pos nothing]
    · next kept => rw [if_neg kept]

/-- The same sieve over the stream alone. -/
def unrecorded {ρ : Type} (sieve : Sieve (Recorded ρ)) : Sieve ρ :=
  { inner := sieve.inner.stream
    offset := sieve.offset
    report := sieve.report
    foreignCount := sieve.foreignCount }

theorem read_unrecorded (limit : Nat) (sieve : Sieve (Recorded ρ)) :
    sieve.unrecorded.read limit = ((sieve.read limit).1, (sieve.read limit).2.unrecorded) := by
  fun_induction read limit sieve with
  | case1 sieve zero => rw [read, if_pos zero]
  | case2 sieve some fault inner taken =>
      exact read_eq_readFrom sieve.unrecorded some (Recorded.stream_of_read taken).1
  | case3 sieve some inner taken =>
      exact read_eq_readFrom sieve.unrecorded some (Recorded.stream_of_read taken).1
  | case4 sieve some byte block inner taken nothing ih =>
      rw [read_eq_readFrom sieve.unrecorded some (Recorded.stream_of_read taken).1, readFrom,
        if_pos nothing]
      exact ih
  | case5 sieve some byte block inner taken kept =>
      rw [read_eq_readFrom sieve.unrecorded some (Recorded.stream_of_read taken).1, readFrom,
        if_neg kept]
      rfl

theorem readAll_unrecorded (sieve : Sieve (Recorded ρ)) (limits : List Nat) :
    BlockReader.readAll sieve.unrecorded limits =
      ((BlockReader.readAll sieve limits).1,
        (BlockReader.readAll sieve limits).2.unrecorded) := by
  induction limits generalizing sieve with
  | nil => rfl
  | cons limit later ih =>
      have first : BlockReader.read limit sieve.unrecorded =
          ((BlockReader.read limit sieve).1, (BlockReader.read limit sieve).2.unrecorded) :=
        read_unrecorded limit sieve
      simp only [BlockReader.readAll, first, ih]

end Unrecorded

/-- What the stream behind a sieve has handed over so far. -/
def taken {ρ : Type} (sieve : Sieve (Recorded ρ)) : Bytes :=
  sieve.inner.answers.flatMap handedOver

/-- The books of a sieve over a script, and the bytes that it has let through. -/
structure Balanced (script : Script) (sieve : Sieve (Recorded Script)) (passed : Bytes) :
    Prop where
  order : sieve.taken ++ sieve.inner.stream.contents = script.contents
  passed : passed = sift sieve.taken
  offset : sieve.offset = sieve.taken.length
  report : sieve.report = (foreignFrom 0 sieve.taken).take reportLimit
  foreignCount : sieve.foreignCount = (foreignFrom 0 sieve.taken).length

section Books

variable {script : Script} {limit size : Nat} {sieve after : Sieve (Recorded Script)}
  {answer : Except Fault Bytes} {passed : Bytes} {inner : Recorded Script}

/-- An answer of the stream is written into the books. -/
theorem Balanced.note (balanced : sieve.Balanced script passed)
    (reading : BlockReader.read size sieve.inner = (answer, inner)) :
    (Sieve.note (handedOver answer) { sieve with inner }).Balanced script
      (passed ++ sift (handedOver answer)) := by
  obtain ⟨order, rfl, offset, report, foreignCount⟩ := balanced
  have taken : (Sieve.note (handedOver answer) { sieve with inner }).taken =
      sieve.taken ++ handedOver answer := by
    change inner.answers.flatMap handedOver = _
    rw [(Recorded.stream_of_read reading).2, List.flatMap_append, List.flatMap_singleton]
    rfl
  have found : foreignFrom 0 (sieve.taken ++ handedOver answer) =
      foreignFrom 0 sieve.taken ++ foreignFrom sieve.offset (handedOver answer) := by
    rw [foreignFrom_append, Nat.zero_add, offset]
  have room (held : Nat) : reportLimit - min reportLimit held = reportLimit - held := by omega
  refine ⟨?_, ?_, ?_, ?_, ?_⟩ <;> rw [taken]
  · rw [← order, Recorded.contents_of_read reading, Sieve.note, List.append_assoc]
  · rw [sift_append]
  · rw [Sieve.note, offset, List.length_append]
  · rw [found, Sieve.note, report, List.take_append, List.take_append, List.take_take,
      Nat.min_self, List.length_take, room]
  · rw [found, Sieve.note, foreignCount, List.length_append]

theorem note_nil {ρ : Type} {sieve : Sieve ρ} (short : sieve.report.length ≤ reportLimit) :
    Sieve.note [] sieve = sieve := by
  simp only [Sieve.note, foreignFrom, List.append_nil, List.take_of_length_le short,
    List.length_nil, Nat.add_zero]

/-- An answer that hands over nothing leaves the books as they are. -/
theorem Balanced.wait (balanced : sieve.Balanced script passed)
    (reading : BlockReader.read size sieve.inner = (answer, inner))
    (nothing : handedOver answer = []) : { sieve with inner }.Balanced script passed := by
  have short : { sieve with inner }.report.length ≤ reportLimit :=
    balanced.report ▸ List.length_take_le _ _
  have noted := balanced.note reading
  rw [nothing, note_nil short] at noted
  simpa only [sift, List.filter_nil, List.append_nil] using noted

/-- A read keeps the books balanced, whether it comes through or fails. -/
theorem Balanced.read (balanced : sieve.Balanced script passed)
    (reading : sieve.read limit = (answer, after)) :
    after.Balanced script (passed ++ handedOver answer) := by
  fun_induction Sieve.read limit sieve generalizing passed with
  | case1 =>
      obtain ⟨rfl, rfl⟩ := by simpa using reading
      simpa only [handedOver, List.append_nil] using balanced
  | case2 sieve some fault inner taken =>
      obtain ⟨rfl, rfl⟩ := by simpa using reading
      simpa only [handedOver, List.append_nil] using balanced.wait taken rfl
  | case3 sieve some inner taken =>
      obtain ⟨rfl, rfl⟩ := by simpa using reading
      simpa only [handedOver, List.append_nil] using balanced.wait taken rfl
  | case4 sieve some byte block inner taken nothing ih =>
      have noted := balanced.note taken
      rw [handedOver, nothing, List.append_nil] at noted
      exact ih noted reading
  | case5 sieve some byte block inner taken kept =>
      obtain ⟨rfl, rfl⟩ := by simpa using reading
      exact balanced.note taken

theorem Balanced.readAll (balanced : sieve.Balanced script passed) (limits : List Nat) :
    (BlockReader.readAll sieve limits).2.Balanced script
      (passed ++ (BlockReader.readAll sieve limits).1.flatMap handedOver) := by
  induction limits generalizing sieve passed with
  | nil => simpa only [BlockReader.readAll, List.flatMap_nil, List.append_nil] using balanced
  | cons limit later ih =>
      have first : (sieve.read limit).2.Balanced script
          (passed ++ handedOver (sieve.read limit).1) := balanced.read rfl
      rw [BlockReader.readAll, List.flatMap_cons, ← List.append_assoc]
      exact ih first

/-- An empty block for a buffer with room means that the last block of the stream was empty. -/
theorem ended_of_read (positive : 0 < limit) (reading : sieve.read limit = (.ok [], after)) :
    ∃ earlier, after.inner.answers = sieve.inner.answers ++ earlier ++ [.ok []] := by
  fun_induction Sieve.read limit sieve with
  | case1 _ zero => exact absurd zero (Nat.ne_of_gt positive)
  | case2 => simp at reading
  | case3 sieve some inner taken =>
      obtain rfl := by simpa using reading
      exact ⟨[], by simpa using (Recorded.stream_of_read taken).2⟩
  | case4 sieve some byte block inner taken nothing ih =>
      obtain ⟨earlier, answers⟩ := ih reading
      have first : inner.answers = sieve.inner.answers ++ [.ok (byte :: block)] :=
        (Recorded.stream_of_read taken).2
      refine ⟨.ok (byte :: block) :: earlier, ?_⟩
      rw [answers, Sieve.note, first, List.append_assoc sieve.inner.answers]
      rfl
  | case5 sieve some byte block inner taken kept =>
      obtain ⟨nothing, -⟩ := by simpa using reading
      exact absurd nothing kept

end Books

/-- After any reads, also after reads that failed, over any stream: what came out are the
symbols among the bytes taken from the stream, in order, and the count and the report are
those of the foreign bytes among them, the report with their offsets and cut off after
sixty-four.  The bytes taken and the bytes left are the bytes of the stream.  A read into a
buffer with room gives an empty block only where the stream has just done so. -/
theorem readAll_balanced (script : Script) (limits : List Nat) :
    let start : Sieve (Recorded Script) := { inner := { stream := script } }
    let answers := (BlockReader.readAll start limits).1
    let sieve := (BlockReader.readAll start limits).2
    let foreign := sieve.taken.zipIdx.filter fun entry =>
      entry.1 ∉ alphabet ∧ entry.1 ∉ folding
    BlockReader.readAll ({ inner := script } : Sieve Script) limits = (answers, sieve.unrecorded) ∧
      sieve.taken ++ sieve.inner.stream.contents = script.contents ∧
      answers.flatMap handedOver = sieve.taken.filter (· ∈ alphabet) ∧
      sieve.foreignCount = foreign.length ∧
      sieve.report = (foreign.take 64).map (fun entry => ⟨entry.1, entry.2⟩) ∧
      ∀ limit after, 0 < limit → sieve.read limit = (.ok [], after) →
        ∃ earlier, after.inner.answers = sieve.inner.answers ++ earlier ++ [.ok []] := by
  intro start answers sieve foreign
  have books : start.Balanced script [] := ⟨rfl, rfl, rfl, rfl, rfl⟩
  obtain ⟨order, passed, -, report, foreignCount⟩ := books.readAll limits
  have listed : foreignFrom 0 sieve.taken =
      foreign.map fun entry => { byte := entry.1, offset := entry.2 } := by
    simp only [foreignFrom_eq_zipIdx, isForeign_eq, foreign]
  refine ⟨readAll_unrecorded start limits, order, ?_, ?_, ?_,
    fun limit after positive reading => ended_of_read positive reading⟩
  · exact passed.trans (sift_eq _)
  · exact foreignCount.trans ((congrArg List.length listed).trans (List.length_map _))
  · refine report.trans ?_
    change (foreignFrom 0 sieve.taken).take reportLimit = _
    rw [listed, List.map_take]
    rfl

end Sieve

end LenientMime.Base64
