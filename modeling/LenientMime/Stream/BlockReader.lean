import LenientMime.Bytes
import LenientMime.Stream.Fault

namespace LenientMime

/-! Streams that are read a block at a time.

A read may return fewer bytes than were asked for, and an empty block says that
the stream has nothing to give now.  `extent` bounds what the stream can still do:
it shrinks by every byte delivered and by every interruption, so a loop that reads
until an empty block, and starts again after an interruption, comes to an end.
-/

class BlockReader (σ : Type) where
  read : Nat → σ → Except Fault Bytes × σ
  extent : σ → Nat
  length_of_read : ∀ {limit : Nat} {stream after : σ} {block : Bytes},
    read limit stream = (.ok block, after) → block.length ≤ limit
  extent_of_read : ∀ {limit : Nat} {stream after : σ} {block : Bytes},
    read limit stream = (.ok block, after) → extent after + block.length ≤ extent stream
  extent_of_interruption : ∀ {limit : Nat} {stream after : σ},
    read limit stream = (.error .interrupted, after) → extent after < extent stream

namespace BlockReader

variable {σ : Type} [BlockReader σ]

theorem extent_lt_of_read {limit : Nat} {stream after : σ} {byte : UInt8} {block : Bytes}
    (delivered : read limit stream = (.ok (byte :: block), after)) :
    extent after < extent stream := by
  have bound := extent_of_read delivered
  simp only [List.length_cons] at bound
  omega

/-- What reading to the end gave: the bytes, the fault that ended it if one did,
and the stream as it was left. -/
structure Drained (σ : Type) where
  bytes : Bytes
  fault : Option Fault
  stream : σ

def Drained.after (block : Bytes) (later : Drained σ) : Drained σ :=
  { later with bytes := block ++ later.bytes }

/-- Reads with one block size until a block is empty or a read fails.  Nothing is
tried again, an interruption ends it too. -/
def drain (limit : Nat) (stream : σ) : Drained σ :=
  match _ : read limit stream with
  | (.error fault, after) => { bytes := [], fault := some fault, stream := after }
  | (.ok [], after) => { bytes := [], fault := none, stream := after }
  | (.ok (byte :: block), after) => (drain limit after).after (byte :: block)
termination_by extent stream
decreasing_by exact extent_lt_of_read ‹_›

def discardBlock : Nat := 8192

/-- Reads everything away.  Interruptions are tried again; any other fault ends it. -/
def discard (stream : σ) : Option Fault × σ :=
  match _ : read discardBlock stream with
  | (.error .interrupted, after) => discard after
  | (.error fault, after) => (some fault, after)
  | (.ok [], after) => (none, after)
  | (.ok (_ :: _), after) => discard after
termination_by extent stream
decreasing_by
  · exact extent_of_interruption ‹_›
  · exact extent_lt_of_read ‹_›

theorem extent_of_drain {limit : Nat} {stream : σ}
    (unfailing : (drain limit stream).fault = none) :
    extent (drain limit stream).stream ≤ extent stream := by
  fun_induction drain limit stream with
  | case1 => simp at unfailing
  | case2 _ _ reading => simpa using extent_of_read reading
  | case3 _ _ _ _ reading ih =>
      have := ih unfailing
      have := extent_lt_of_read reading
      simp only [Drained.after]
      omega

theorem extent_of_discard {stream after : σ} (discarded : discard stream = (none, after)) :
    extent after ≤ extent stream := by
  fun_induction discard stream with
  | case1 _ _ reading ih =>
      have := extent_of_interruption reading
      have := ih discarded
      omega
  | case2 => simp at discarded
  | case3 _ _ reading =>
      obtain rfl := by simpa using discarded
      simpa using extent_of_read reading
  | case4 _ _ _ _ reading ih =>
      have := extent_lt_of_read reading
      have := ih discarded
      omega

end BlockReader

end LenientMime
