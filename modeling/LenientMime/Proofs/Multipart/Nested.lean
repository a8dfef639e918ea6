import LenientMime.Proofs.Multipart.Chunked

namespace LenientMime.Multipart.PartReader

/-! Part readers inside parts.

A part may be a multipart body of its own.  A second part reader then reads through a
window over the first one, which hands out the content of its open part and nothing
behind it.  How far the inner reader has come, or how much its window has fetched,
makes no difference to where the outer reader goes on.
-/

open Bytes

section Lending

variable {σ : Type} [ByteSource σ] {account : σ → Bytes → List Bytes → Prop} {depth : Nat}
  {behind : PartReader Bytes}

/-- An open part as a stream: the content that is left of it is still to come, and the
reader that is reached at its end stays the same. -/
def Lends (account : σ → Bytes → List Bytes → Prop) (depth : Nat) (behind : PartReader Bytes)
    (reader : PartReader σ) (bytes : Bytes) (failures : List Bytes) : Prop :=
  failures = [] ∧ ∃ twin, Mirrors account depth reader twin [] ∧
    twin.remaining = bytes ∧ twin.exhausted = behind

theorem faithful_lends (faithful : ByteSource.Faithful depth account)
    (behind : PartReader Bytes) :
    BlockReader.Faithful (Lends account depth behind) where
  inside := by
    intro reader bytes failures held place member
    obtain ⟨rfl, -⟩ := held
    contradiction
  delivery := by
    intro limit reader after bytes block failures held positive reading
    obtain ⟨rfl, twin, mirrors, rfl, rfl⟩ := held
    obtain ⟨twinAfter, inMemory, mirrorsAfter⟩ := mirrors.read faithful reading
    obtain ⟨_, atOnce, left, sameEnd, -⟩ := read_slice limit twin
    obtain ⟨rfl, rfl⟩ := by simpa using inMemory.symm.trans atOnce
    refine ⟨twin.remaining.drop limit, (List.take_append_drop _ _).symm, fun nothing => ?_, rfl,
      _, mirrorsAfter, left, sameEnd⟩
    simp [(List.take_eq_nil_iff.mp nothing).resolve_left (Nat.ne_of_gt positive)]
  ending held _ _ := held.1
  interruption := fun _ _ reading => absurd reading read_steady
  failure := by
    intro limit reader after bytes failures fault held _ reading _
    obtain ⟨rfl, twin, mirrors, -, -⟩ := held
    obtain ⟨place, later, count, impossible, -⟩ := mirrors.readFailure faithful reading
    contradiction

theorem drain_lends (faithful : ByteSource.Faithful depth account) {limit : Nat}
    (positive : 0 < limit) {reader : PartReader σ} {content : Bytes}
    (lends : Lends account depth behind reader content []) :
    (BlockReader.drain limit reader).bytes = content ∧
      (BlockReader.drain limit reader).fault = none := by
  have keeps := faithful_lends faithful behind
  fun_induction BlockReader.drain limit reader generalizing content with
  | case1 reader fault after reading =>
      by_cases interrupted : fault = .interrupted
      · exact absurd (interrupted ▸ reading) read_steady
      · obtain ⟨later, impossible, -⟩ := keeps.failure lends positive reading interrupted
        contradiction
  | case2 reader after reading =>
      obtain ⟨rest, rfl, atEnd, -⟩ := keeps.delivery lends positive reading
      exact ⟨(atEnd rfl).symm, rfl⟩
  | case3 reader byte block after reading ih =>
      obtain ⟨rest, rfl, -, lendsAfter⟩ := keeps.delivery lends positive reading
      obtain ⟨bytes, unfailing⟩ := ih lendsAfter
      exact ⟨congrArg (byte :: block ++ ·) bytes, unfailing⟩

end Lending

theorem exhausted_run_reads (sizes : List Nat) (reader : PartReader Bytes) :
    (reader.run (sizes.map .read)).2.exhausted = reader.exhausted := by
  induction sizes generalizing reader with
  | nil => rfl
  | cons limit sizes ih =>
      rw [List.map_cons, run_cons]
      exact (ih (reader.read limit).2).trans (exhausted_read limit reader)

section Inner

variable {σ : Type} [ByteSource σ] {account : σ → Bytes → List Bytes → Prop} {depth : Nat}
  {source : σ} {body : Bytes} {outerBoundary innerBoundary : Text} {start opened : PartReader σ}

theorem mirrors_ofSource (held : account source body [])
    (deep : peekDepth outerBoundary ≤ depth) (made : ofSource source outerBoundary = .ok start) :
    Mirrors account depth start (atFront body outerBoundary) [] := by
  obtain rfl := eq_atFront_of_ofSource made
  exact ⟨source, rfl, held, deep⟩

theorem sameFromNext_of_mirrors (faithful : ByteSource.Faithful depth account)
    {reader : PartReader σ} {twin twinOpened : PartReader Bytes}
    (mirrors : Mirrors account depth reader twin [])
    (mirrorsOpened : Mirrors account depth opened twinOpened [])
    (inPart : twinOpened.partsRead ≠ 0) (goesOn : twinOpened.finished = false)
    (samePlace : twin.exhausted = twinOpened.exhausted) : reader.SameFromNext opened := by
  intro later
  have inMemory := sameFromNext_of_next (next_of_exhausted samePlace inPart goesOn) later
  exact ((mirrors.run faithful _).1.trans inMemory).trans (mirrorsOpened.run faithful _).1.symm

/-- A reader over a window on an open part is the reader over what is left of the part.
Wherever it is given up, the outer reader goes on as if the part had not been read. -/
theorem nested_looksLike_slice
    (presents : ByteSource.Presents (peekDepth outerBoundary) source body)
    (made : ofSource source outerBoundary = .ok start) (calls : List Call)
    (moved : (start.run calls).2.next = (.ok true, opened)) (sizes : List Nat)
    {capacity : Nat} (enough : peekDepth innerBoundary ≤ capacity) :
    let outer := (opened.run (sizes.map .read)).2
    ∃ content inner memory,
      (∀ limit, 0 < limit → (BlockReader.drain limit outer).bytes = content ∧
        (BlockReader.drain limit outer).fault = none) ∧
      ofSource (Lookahead.ofCapacity capacity outer) innerBoundary = .ok inner ∧
      ofSource content innerBoundary = .ok memory ∧ inner.LooksLike memory ∧
      ∀ innerCalls, (inner.run innerCalls).2.source.inner.SameFromNext opened := by
  intro outer
  obtain ⟨account, faithful, held⟩ := presents
  have mirrorsStart := mirrors_ofSource held (Nat.le_refl _) made
  obtain ⟨twinOpened, movedInMemory, mirrorsOpened⟩ :=
    (mirrorsStart.run faithful calls).2.next faithful moved (by simp)
  obtain ⟨inPart, goesOn⟩ := next_opened movedInMemory
  have mirrorsOuter := (mirrorsOpened.run faithful (sizes.map .read)).2
  have sameEnd := exhausted_run_reads sizes twinOpened
  generalize (twinOpened.run (sizes.map .read)).2 = twinOuter at mirrorsOuter sameEnd
  have lends : Lends account (peekDepth outerBoundary) twinOpened.exhausted outer
      twinOuter.remaining [] := ⟨rfl, twinOuter, mirrorsOuter, rfl, sameEnd⟩
  have innerFaithful := Lookahead.faithful_holds
    (faithful_lends faithful twinOpened.exhausted) (peekDepth innerBoundary)
  have mirrorsInner := mirrors_window lends enough
  refine ⟨twinOuter.remaining, _, _, fun limit positive => drain_lends faithful positive lends,
    ofSource_window _ enough, ofSource_slice _ _, mirrorsInner.looksLike innerFaithful,
    fun innerCalls => ?_⟩
  obtain ⟨window, sameReader, ⟨-, unread, -, ⟨-, twin, mirrors, -, samePlace⟩, -⟩, -⟩ :=
    (mirrorsInner.run innerFaithful innerCalls).2
  rw [sameReader]
  exact sameFromNext_of_mirrors faithful mirrors mirrorsOpened inPart goesOn samePlace

/-- A part with a part inside it and a part behind it, in three blocks. -/
def parcel : Script :=
  ⟨[.data (Text.utf8 "--o\na\n--i\nx\n--".toList), .fault .interrupted,
    .data (Text.utf8 "i--\n--o".toList), .data (Text.utf8 "\ny\n--o--\n".toList)]⟩

theorem nested_looksLike_slice_parcel :
    ∃ start opened, ofSource (Lookahead.ofCapacity 7 parcel) "o".toList = .ok start ∧
      ByteSource.Presents (peekDepth "o".toList) (Lookahead.ofCapacity 7 parcel)
        parcel.contents ∧
      (start.run []).2.next = (.ok true, opened) ∧ peekDepth "i".toList ≤ 7 ∧ ∃ inner,
        ofSource (Lookahead.ofCapacity 7 (opened.run [.read 1]).2) "i".toList = .ok inner ∧
        (inner.run [.next, .read 8, .next]).1.map Prod.fst =
          [.moved (.ok true), .block (.ok (Text.utf8 "x".toList)), .moved (.ok false)] ∧
        ((inner.run [.next]).2.source.inner.run [.next, .read 8]).1.map Prod.fst =
          [.moved (.ok true), .block (.ok (Text.utf8 "y".toList))] := by
  have calm : parcel.Calm := by decide
  have deep : peekDepth "i".toList ≤ 7 := by decide
  have wide : peekDepth "o".toList ≤ 7 := by decide
  have made := ofSource_window parcel wide
  have presents := Lookahead.presents_of_calm calm wide
  have found : (atFront (Lookahead.ofCapacity 7 parcel) "o".toList).next.1 = .ok true := by
    decide +kernel
  have moved : ((atFront (Lookahead.ofCapacity 7 parcel) "o".toList).run []).2.next =
      (.ok true, (atFront (Lookahead.ofCapacity 7 parcel) "o".toList).next.2) :=
    Prod.ext found rfl
  obtain ⟨content, inner, memory, drained, nested, inMemory, looksLike, goesOn⟩ :=
    nested_looksLike_slice presents made [] moved [1] deep
  obtain rfl : Text.utf8 "\n--i\nx\n--i--".toList = content :=
    Eq.trans (by decide +kernel) (drained 8 (by decide)).1
  obtain rfl := Except.ok.inj ((ofSource_slice _ _).symm.trans inMemory)
  refine ⟨_, _, made, presents, moved, deep, inner, nested, ?_, ?_⟩
  · rw [(looksLike _).1]
    decide +kernel
  · rw [goesOn [.next] [.read 8]]
    decide +kernel

end Inner

end LenientMime.Multipart.PartReader
