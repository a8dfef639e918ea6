import LenientMime.Stream.Lookahead

namespace LenientMime

/-- A stream with the answers it has given so far. -/
structure Recorded (ρ : Type) where
  stream : ρ
  answers : List (Except Fault Bytes) := []

namespace Recorded

/-- An empty block was among the answers, which is how a stream reports its end. -/
def EndReported {ρ : Type} (recorded : Recorded ρ) : Prop :=
  .ok [] ∈ recorded.answers

variable {ρ : Type} [BlockReader ρ]

def read (limit : Nat) (recorded : Recorded ρ) : Except Fault Bytes × Recorded ρ :=
  match BlockReader.read limit recorded.stream with
  | (answer, stream) => (answer, { stream, answers := recorded.answers ++ [answer] })

theorem stream_of_read {limit : Nat} {recorded after : Recorded ρ} {answer : Except Fault Bytes}
    (reading : recorded.read limit = (answer, after)) :
    BlockReader.read limit recorded.stream = (answer, after.stream) ∧
      after.answers = recorded.answers ++ [answer] := by
  cases answered : BlockReader.read limit recorded.stream with
  | mk result stream =>
      simp only [read, answered] at reading
      cases reading
      exact ⟨rfl, rfl⟩

instance : BlockReader (Recorded ρ) where
  read := read
  extent recorded := BlockReader.extent recorded.stream
  length_of_read reading := BlockReader.length_of_read (stream_of_read reading).1
  extent_of_read reading := BlockReader.extent_of_read (stream_of_read reading).1
  extent_of_interruption reading := BlockReader.extent_of_interruption (stream_of_read reading).1

end Recorded

namespace Lookahead

inductive Request where
  | peek (depth : Nat)
  | take
  | read (limit : Nat)
deriving DecidableEq, Repr

inductive Reply where
  | shown (result : Except Fault Bytes)
  | taken (result : Except Fault (Option UInt8))
  | block (result : Except Fault Bytes)

/-- What the reply hands out for good.  A look hands out nothing, and neither does a
request that failed. -/
def Reply.consumed : Reply → Bytes
  | .taken (.ok (some byte)) => [byte]
  | .block (.ok bytes) => bytes
  | _ => []

section Serving

variable {ρ : Type} [BlockReader ρ]

def serve (view : Lookahead ρ) : Request → Reply × Lookahead ρ
  | .peek depth => (.shown (view.peek depth).1, (view.peek depth).2)
  | .take => (.taken view.take.1, view.take.2)
  | .read limit => (.block (view.read limit).1, (view.read limit).2)

def serveAll (view : Lookahead ρ) : List Request → List Reply × Lookahead ρ
  | [] => ([], view)
  | request :: later =>
      ((view.serve request).1 :: ((view.serve request).2.serveAll later).1,
        ((view.serve request).2.serveAll later).2)

end Serving

section Fetching

variable {ρ : Type} [BlockReader ρ] {wanted : Nat}

/-- What a fetch makes of an answer of the stream. -/
def fillFrom (wanted : Nat) (view : Lookahead ρ) :
    Except Fault Bytes → ρ → Option Fault × Lookahead ρ
  | .error .interrupted, inner => fill wanted { view with inner }
  | .error fault, inner => (some fault, { view with inner })
  | .ok [], inner => (none, { view with inner, ended := true })
  | .ok (byte :: block), inner =>
      fill wanted { view with inner, window := view.window ++ byte :: block }

theorem fill_lacking (view : Lookahead ρ) {answer : Except Fault Bytes} {inner : ρ}
    (lacking : (view.window.length < wanted && !view.ended) = true)
    (reading : BlockReader.read (view.capacity - view.window.length) view.inner =
      (answer, inner)) : view.fill wanted = view.fillFrom wanted answer inner := by
  rw [fill, if_pos lacking]
  split <;> cases reading.symm.trans ‹_›
  · rfl
  · next fault counted _ =>
    cases fault with
    | interrupted => exact absurd rfl counted
    | _ => rfl
  · rfl
  · rfl

theorem fill_enough (view : Lookahead ρ)
    (enough : ¬ (view.window.length < wanted && !view.ended) = true) :
    view.fill wanted = (none, view) := by
  rw [fill, if_neg enough]

end Fetching

/-- The same window over the stream alone. -/
def unrecorded {ρ : Type} (view : Lookahead (Recorded ρ)) : Lookahead ρ :=
  { inner := view.inner.stream
    window := view.window
    capacity := view.capacity
    ended := view.ended }

section Recording

variable {ρ : Type}

@[simp] theorem unrecorded_window (view : Lookahead (Recorded ρ)) :
    view.unrecorded.window = view.window :=
  rfl

@[simp] theorem unrecorded_capacity (view : Lookahead (Recorded ρ)) :
    view.unrecorded.capacity = view.capacity :=
  rfl

variable [BlockReader ρ]

theorem fill_unrecorded (wanted : Nat) (view : Lookahead (Recorded ρ)) :
    view.unrecorded.fill wanted = ((view.fill wanted).1, (view.fill wanted).2.unrecorded) := by
  fun_induction fill wanted view with
  | case1 view lacking inner reading ih =>
      exact (fill_lacking view.unrecorded lacking (Recorded.stream_of_read reading).1).trans ih
  | case2 view lacking fault inner counted reading =>
      rw [fill_lacking view.unrecorded lacking (Recorded.stream_of_read reading).1]
      cases fault with
      | interrupted => exact absurd rfl counted
      | _ => rfl
  | case3 view lacking inner reading =>
      exact fill_lacking view.unrecorded lacking (Recorded.stream_of_read reading).1
  | case4 view lacking byte block inner reading ih =>
      exact (fill_lacking view.unrecorded lacking (Recorded.stream_of_read reading).1).trans ih
  | case5 view enough => exact fill_enough view.unrecorded enough

theorem peek_unrecorded (depth : Nat) (view : Lookahead (Recorded ρ)) :
    view.unrecorded.peek depth = ((view.peek depth).1, (view.peek depth).2.unrecorded) := by
  have same := fill_unrecorded depth view
  cases filled : view.fill depth with
  | mk fault after =>
      rw [filled] at same
      simp only [peek, same, filled, unrecorded_capacity]
      split
      · cases fault <;> rfl
      · rfl

theorem take_unrecorded (view : Lookahead (Recorded ρ)) :
    view.unrecorded.take = (view.take.1, view.take.2.unrecorded) := by
  have same := fill_unrecorded 1 view
  cases filled : view.fill 1 with
  | mk fault after =>
      rw [filled] at same
      simp only [take, same, filled]
      cases fault with
      | some fault => rfl
      | none =>
          simp only [unrecorded_window]
          split <;> rfl

theorem read_unrecorded (limit : Nat) (view : Lookahead (Recorded ρ)) :
    view.unrecorded.read limit = ((view.read limit).1, (view.read limit).2.unrecorded) := by
  have same := fill_unrecorded 1 view
  cases filled : view.fill 1 with
  | mk fault after =>
      rw [filled] at same
      simp only [read, same, filled, unrecorded_window, unrecorded_capacity]
      split
      · split
        · rfl
        · cases fault <;> rfl
      · rfl

theorem serve_unrecorded (view : Lookahead (Recorded ρ)) (request : Request) :
    view.unrecorded.serve request =
      ((view.serve request).1, (view.serve request).2.unrecorded) := by
  cases request with
  | peek depth => simp only [serve, peek_unrecorded]
  | take => simp only [serve, take_unrecorded]
  | read limit => simp only [serve, read_unrecorded]

theorem serveAll_unrecorded (view : Lookahead (Recorded ρ)) (requests : List Request) :
    view.unrecorded.serveAll requests =
      ((view.serveAll requests).1, (view.serveAll requests).2.unrecorded) := by
  induction requests generalizing view with
  | nil => rfl
  | cons request later ih => simp only [serveAll, serve_unrecorded, ih]

end Recording

end Lookahead

end LenientMime
