import LenientMime.Stream.Lookahead
import LenientMime.Stream.Script
import LenientMime.Stream.Slice

namespace LenientMime

/-! Accounts of what a stream has still to give.

The same bytes may lie in memory, or come in pieces with interruptions and failures
between them.  An account says of a stream in any state which bytes are still to
come and where failures will strike.  What is proved from accounts alone holds
however the bytes are cut.

A failure is given by the bytes that are still to come when it strikes.
Interruptions are tried again below every reader of this library and are not
counted.
-/

namespace BlockReader

/-- No read loses a byte.  A block is the front of what is still to come, and it is
empty only at the end, behind the last failure. -/
structure Faithful {ρ : Type} [BlockReader ρ] (account : ρ → Bytes → List Bytes → Prop) :
    Prop where
  inside : ∀ {stream : ρ} {bytes : Bytes} {failures : List Bytes},
    account stream bytes failures → ∀ place ∈ failures, place <:+ bytes
  delivery : ∀ {limit : Nat} {stream after : ρ} {bytes block : Bytes} {failures : List Bytes},
    account stream bytes failures → 0 < limit → read limit stream = (.ok block, after) →
      ∃ rest, bytes = block ++ rest ∧ (block = [] → rest = []) ∧ account after rest failures
  ending : ∀ {limit : Nat} {stream after : ρ} {bytes : Bytes} {failures : List Bytes},
    account stream bytes failures → 0 < limit → read limit stream = (.ok [], after) →
      failures = []
  interruption : ∀ {limit : Nat} {stream after : ρ} {bytes : Bytes} {failures : List Bytes},
    account stream bytes failures → 0 < limit → read limit stream = (.error .interrupted, after) →
      account after bytes failures
  failure : ∀ {limit : Nat} {stream after : ρ} {bytes : Bytes} {failures : List Bytes}
    {fault : Fault}, account stream bytes failures → 0 < limit →
      read limit stream = (.error fault, after) → fault ≠ .interrupted →
      ∃ later, failures = bytes :: later ∧ account after bytes later

end BlockReader

namespace ByteSource

/-- Looks of at most `depth` bytes show what is still to come, and no request loses a
byte. -/
structure Faithful {σ : Type} [ByteSource σ] (depth : Nat)
    (account : σ → Bytes → List Bytes → Prop) : Prop where
  window : ∀ {wanted : Nat} {source after : σ} {bytes shown : Bytes} {failures : List Bytes},
    account source bytes failures → wanted ≤ depth → peek wanted source = (.ok shown, after) →
      shown = bytes.take wanted ∧ account after bytes failures
  lookFailure : ∀ {wanted : Nat} {source after : σ} {bytes : Bytes} {failures : List Bytes}
    {fault : Fault}, account source bytes failures → wanted ≤ depth →
      peek wanted source = (.error fault, after) →
      ∃ place later, failures = place :: later ∧ account after bytes later
  byte : ∀ {source after : σ} {bytes : Bytes} {failures : List Bytes} {taken : UInt8},
    account source bytes failures → take source = (.ok (some taken), after) →
      ∃ rest, bytes = taken :: rest ∧ account after rest failures
  ending : ∀ {source after : σ} {bytes : Bytes} {failures : List Bytes},
    account source bytes failures → take source = (.ok none, after) →
      bytes = [] ∧ account after [] failures
  takeFailure : ∀ {source after : σ} {bytes : Bytes} {failures : List Bytes} {fault : Fault},
    account source bytes failures → take source = (.error fault, after) →
      ∃ later, failures = bytes :: later ∧ account after bytes later

/-- Some account says that these bytes are still to come, and no failure. -/
def Presents {σ : Type} [ByteSource σ] (depth : Nat) (source : σ) (bytes : Bytes) : Prop :=
  ∃ account, Faithful depth account ∧ account source bytes []

def InMemory (source bytes : Bytes) (failures : List Bytes) : Prop :=
  source = bytes ∧ failures = []

theorem faithful_inMemory (depth : Nat) : Faithful depth InMemory where
  window := by
    intro wanted source after bytes shown failures held _ looking
    obtain ⟨rfl, rfl⟩ := held
    obtain ⟨rfl, rfl⟩ := by simpa [peek] using looking
    exact ⟨rfl, rfl, rfl⟩
  lookFailure := by simp [peek]
  byte := by
    intro source after bytes failures taken held taking
    obtain ⟨rfl, rfl⟩ := held
    cases source with
    | nil => simp [take] at taking
    | cons first rest =>
        obtain ⟨rfl, rfl⟩ := by simpa [take] using taking
        exact ⟨rest, rfl, rfl, rfl⟩
  ending := by
    intro source after bytes failures held taking
    obtain ⟨rfl, rfl⟩ := held
    cases source with
    | nil =>
        obtain rfl := by simpa [take] using taking
        exact ⟨rfl, rfl, rfl⟩
    | cons first rest => simp [take] at taking
  takeFailure := by
    intro source after bytes failures fault _ taking
    cases source <;> simp [take] at taking

theorem presents_slice (depth : Nat) (bytes : Bytes) : Presents depth bytes bytes :=
  ⟨InMemory, faithful_inMemory depth, rfl, rfl⟩

end ByteSource

theorem BlockReader.faithful_inMemory : Faithful ByteSource.InMemory where
  inside := by
    intro stream bytes failures held place member
    obtain ⟨rfl, rfl⟩ := held
    contradiction
  delivery := by
    intro limit stream after bytes block failures held positive reading
    obtain ⟨rfl, rfl⟩ := held
    obtain ⟨rfl, rfl⟩ := by simpa [read] using reading
    refine ⟨stream.drop limit, (List.take_append_drop limit stream).symm, fun nothing => ?_, rfl, rfl⟩
    rcases List.take_eq_nil_iff.mp nothing with zero | empty
    · omega
    · rw [empty, List.drop_nil]
  ending held _ _ := held.2
  interruption := by simp [read]
  failure := by simp [read]

namespace Script

/-- Where the failures strike. -/
def failuresOf : List Event → List Bytes
  | [] => []
  | .data _ :: later => failuresOf later
  | .fault .interrupted :: later => failuresOf later
  | .fault _ :: later => contents ⟨later⟩ :: failuresOf later

def failures (script : Script) : List Bytes :=
  failuresOf script.events

/-- Only the end of the script gives an empty block. -/
def Gapless (script : Script) : Prop :=
  .data [] ∉ script.events

/-- A block with a byte at least, or an interruption. -/
def Event.Calm : Event → Prop
  | .data bytes => bytes ≠ []
  | .fault reason => reason = .interrupted

def Calm (script : Script) : Prop :=
  ∀ event ∈ script.events, event.Calm

instance (script : Script) : Decidable script.Gapless :=
  inferInstanceAs (Decidable (.data [] ∉ script.events))

instance : DecidablePred Event.Calm
  | .data bytes => inferInstanceAs (Decidable (bytes ≠ []))
  | .fault reason => inferInstanceAs (Decidable (reason = .interrupted))

instance (script : Script) : Decidable script.Calm :=
  inferInstanceAs (Decidable (∀ event ∈ script.events, event.Calm))

theorem Calm.gapless {script : Script} (calm : script.Calm) : script.Gapless :=
  fun member => calm _ member rfl

theorem Calm.failures {script : Script} (calm : script.Calm) : script.failures = [] := by
  obtain ⟨events⟩ := script
  change failuresOf events = []
  induction events with
  | nil => rfl
  | cons event later ih =>
      have rest := ih fun other member => calm other (List.mem_cons_of_mem _ member)
      cases event with
      | data bytes => exact rest
      | fault fault =>
          obtain rfl : fault = .interrupted := calm (.fault fault) (by simp)
          exact rest

def Holds (script : Script) (bytes : Bytes) (failures : List Bytes) : Prop :=
  script.contents = bytes ∧ script.failures = failures ∧ script.Gapless

theorem suffix_of_mem_failures {script : Script} {place : Bytes}
    (member : place ∈ script.failures) : place <:+ script.contents := by
  obtain ⟨events⟩ := script
  change place ∈ failuresOf events at member
  induction events with
  | nil => contradiction
  | cons event later ih =>
      cases event with
      | data bytes => exact (ih member).trans (List.suffix_append bytes _)
      | fault reason =>
          cases reason with
          | interrupted => exact ih member
          | _ =>
              rcases List.mem_cons.mp member with rfl | behind
              · exact List.suffix_refl _
              · exact ih behind

theorem failures_of_read {limit : Nat} {script after : Script} {block : Bytes}
    (reading : script.read limit = (.ok block, after)) : after.failures = script.failures := by
  obtain ⟨_ | ⟨_ | _, later⟩⟩ := script
  · obtain ⟨-, rfl⟩ := by simpa [read] using reading
    rfl
  · simp only [read] at reading
    split at reading
    all_goals
      obtain ⟨-, rfl⟩ := by simpa using reading
      rfl
  · simp [read] at reading

theorem gapless_of_read {limit : Nat} {script after : Script} {block : Bytes}
    (gapless : script.Gapless) (reading : script.read limit = (.ok block, after)) :
    after.Gapless := by
  obtain ⟨_ | ⟨bytes | _, later⟩⟩ := script
  · obtain ⟨-, rfl⟩ := by simpa [read] using reading
    exact gapless
  · have others : .data [] ∉ later := fun member => gapless (List.mem_cons_of_mem _ member)
    simp only [read] at reading
    split at reading <;> obtain ⟨-, rfl⟩ := by simpa using reading
    · exact others
    · next long =>
      intro member
      rcases List.mem_cons.mp member with same | member
      · have nothing : bytes.drop limit = [] := by simpa using same.symm
        exact long (List.drop_eq_nil_iff.mp nothing)
      · exact others member
  · simp [read] at reading

/-- Only a script that is read to its end gives an empty block. -/
theorem events_of_read {limit : Nat} {script after : Script} (gapless : script.Gapless)
    (positive : 0 < limit) (reading : script.read limit = (.ok [], after)) :
    script.events = [] ∧ after = script := by
  obtain ⟨_ | ⟨bytes | _, later⟩⟩ := script
  · obtain rfl := by simpa [read] using reading
    exact ⟨rfl, rfl⟩
  · have some : bytes ≠ [] := by
      rintro rfl
      exact gapless (by simp)
    simp only [read] at reading
    split at reading
    · exact absurd (by simpa using congrArg Prod.fst reading) some
    · have nothing : bytes.take limit = [] := by simpa using congrArg Prod.fst reading
      rcases List.take_eq_nil_iff.mp nothing with zero | empty
      · exact absurd zero (Nat.ne_of_gt positive)
      · exact absurd empty some
  · simp [read] at reading

theorem faithful_holds : BlockReader.Faithful Holds where
  inside := by
    intro script bytes failures held place member
    obtain ⟨rfl, rfl, -⟩ := held
    exact suffix_of_mem_failures member
  delivery := by
    intro limit script after bytes block failures held positive reading
    obtain ⟨rfl, rfl, gapless⟩ := held
    refine ⟨after.contents, (contents_of_read reading).symm, fun nothing => ?_, rfl,
      failures_of_read reading, gapless_of_read gapless reading⟩
    subst nothing
    obtain ⟨atEnd, rfl⟩ := events_of_read gapless positive reading
    exact congrArg (fun events => contents ⟨events⟩) atEnd
  ending := by
    intro limit script after bytes failures held positive reading
    obtain ⟨-, rfl, gapless⟩ := held
    exact congrArg failuresOf (events_of_read gapless positive reading).1
  interruption := by
    intro limit script after bytes failures held _ reading
    obtain ⟨rfl, rfl, gapless⟩ := held
    obtain ⟨_ | ⟨_ | fault, later⟩⟩ := script
    · simp [BlockReader.read, read] at reading
    · simp only [BlockReader.read, read] at reading
      split at reading <;> simp at reading
    · obtain ⟨rfl, rfl⟩ := by simpa [BlockReader.read, read] using reading
      exact ⟨rfl, rfl, fun member => gapless (List.mem_cons_of_mem _ member)⟩
  failure := by
    intro limit script after bytes failures fault held _ reading counted
    obtain ⟨rfl, rfl, gapless⟩ := held
    obtain ⟨_ | ⟨_ | fault, later⟩⟩ := script
    · simp [BlockReader.read, read] at reading
    · simp only [BlockReader.read, read] at reading
      split at reading <;> simp at reading
    · obtain ⟨rfl, rfl⟩ := by simpa [BlockReader.read, read] using reading
      refine ⟨failures ⟨later⟩, ?_, rfl, rfl, fun member => gapless (List.mem_cons_of_mem _ member)⟩
      cases fault <;> first | rfl | contradiction

end Script

end LenientMime
