import LenientMime.Multipart.PartReader

namespace LenientMime.Multipart

inductive Call where
  | next
  | read (limit : Nat)
deriving DecidableEq, Repr

instance decidableEqResult {ε α : Type} [DecidableEq ε] [DecidableEq α] :
    DecidableEq (Except ε α)
  | .error left, .error right => decidable_of_iff (left = right) (by simp)
  | .ok left, .ok right => decidable_of_iff (left = right) (by simp)
  | .error _, .ok _ => isFalse (by simp)
  | .ok _, .error _ => isFalse (by simp)

inductive Answer where
  | moved (result : Except Error Bool)
  | block (result : Except Fault Bytes)
deriving DecidableEq

def Answer.fault? : Answer → Option Fault
  | .moved (.error (.stream fault)) => some fault
  | .block (.error fault) => some fault
  | _ => none

/-- The content that the answer hands out. -/
def Answer.bytes : Answer → Bytes
  | .block (.ok content) => content
  | _ => []

/-- How a reader stands between two calls. -/
structure Standing where
  partsRead : Nat
  finished : Bool
  unbounded : Bool
  /-- What the source would still give, and the fault that would end it. -/
  rest : Bytes × Option Fault
deriving DecidableEq, Repr

/-- A reader at the front of a body. -/
def PartReader.atFront {σ : Type} (source : σ) (boundary : Text) : PartReader σ :=
  { source, boundary }

variable {σ : Type} [ByteSource σ]

theorem PartReader.eq_atFront_of_ofSource {source : σ} {boundary : Text} {start : PartReader σ}
    (made : PartReader.ofSource source boundary = .ok start) : start = atFront source boundary := by
  rw [PartReader.ofSource] at made
  split at made
  · split at made
    · contradiction
    · exact (Except.ok.inj made).symm
  · exact (Except.ok.inj made).symm

/-- What can be taken from a source, going on behind the first `retries` faults. -/
def remainder : Nat → σ → Bytes × Option Fault
  | 0, source => ((ByteSource.takeAll source).1, (ByteSource.takeAll source).2.1)
  | retries + 1, source =>
      match ByteSource.takeAll source with
      | (bytes, none, _) => (bytes, none)
      | (bytes, some _, source) =>
          let (later, fault) := remainder retries source
          (bytes ++ later, fault)

namespace PartReader

def call (reader : PartReader σ) : Call → Answer × PartReader σ
  | .next => (.moved reader.next.1, reader.next.2)
  | .read limit => (.block (reader.read limit).1, (reader.read limit).2)

/-- Makes a call, and makes it again while the source fails, `retries` times at most. -/
def insist (call : Call) : Nat → PartReader σ → Answer × PartReader σ
  | 0, reader => reader.call call
  | retries + 1, reader =>
      if (reader.call call).1.fault?.isSome then insist call retries (reader.call call).2
      else reader.call call

def standing (retries : Nat) (reader : PartReader σ) : Standing :=
  { partsRead := reader.partsRead
    finished := reader.finished
    unbounded := reader.unbounded
    rest := remainder retries reader.source }

/-- Makes the calls one after the other.  Every answer is seen together with how the
reader stands behind it. -/
def runPatiently (retries : Nat) (reader : PartReader σ) :
    List Call → List (Answer × Standing) × PartReader σ
  | [] => ([], reader)
  | call :: later =>
      let (answer, after) := insist call retries reader
      let (seen, final) := runPatiently retries after later
      ((answer, after.standing retries) :: seen, final)

/-- The calls of a caller that takes every answer as it is. -/
def run (reader : PartReader σ) : List Call → List (Answer × Standing) × PartReader σ :=
  reader.runPatiently 0

@[simp] theorem run_nil (reader : PartReader σ) : reader.run [] = ([], reader) :=
  rfl

theorem run_cons (reader : PartReader σ) (call : Call) (later : List Call) :
    reader.run (call :: later) =
      (((reader.call call).1, (reader.call call).2.standing 0) ::
        ((reader.call call).2.run later).1, ((reader.call call).2.run later).2) :=
  rfl

/-- No caller can tell the readers apart, and the first never fails a caller. -/
def LooksLike {τ : Type} [ByteSource τ] (reader : PartReader σ) (other : PartReader τ) : Prop :=
  ∀ calls, (reader.run calls).1 = (other.run calls).1 ∧
    ∀ seen ∈ (reader.run calls).1, seen.1.fault? = none

/-- The readers have the same next part, and the same of all that comes behind it. -/
def SameFromNext (reader other : PartReader σ) : Prop :=
  ∀ later, (reader.run (.next :: later)).1 = (other.run (.next :: later)).1

theorem sameFromNext_of_next {reader other : PartReader σ} (same : reader.next = other.next) :
    reader.SameFromNext other := by
  intro later
  simp only [run_cons, call, same]

end PartReader

end LenientMime.Multipart
