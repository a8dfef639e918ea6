import LenientMime.Proofs.Stream.Account
import LenientMime.Proofs.Stream.Requests

namespace LenientMime

namespace Script

/-- The bytes in front of the first empty block. -/
def frontOf : List Event → Bytes
  | [] => []
  | .data [] :: _ => []
  | .data (byte :: block) :: later => byte :: block ++ frontOf later
  | .fault _ :: later => frontOf later

def front (script : Script) : Bytes :=
  frontOf script.events

/-- How a script without failures answers a read, and what it then has in front of its
first empty block.  Nothing is said of that once an empty block was given. -/
inductive Answers (front later : Bytes) : Except Fault Bytes → Prop where
  | interruption : later = front → Answers front later (.error .interrupted)
  | ending : front = [] → Answers front later (.ok [])
  | block (byte : UInt8) (block : Bytes) : front = byte :: block ++ later →
      Answers front later (.ok (byte :: block))

theorem frontOf_data {bytes : Bytes} (some : bytes ≠ []) (later : List Event) :
    frontOf (.data bytes :: later) = bytes ++ frontOf later := by
  cases bytes with
  | nil => exact absurd rfl some
  | cons byte block => rfl

theorem answers_of_read {limit : Nat} {script after : Script} {answer : Except Fault Bytes}
    (unfailing : script.failures = []) (positive : 0 < limit)
    (reading : BlockReader.read limit script = (answer, after)) :
    Answers script.front after.front answer ∧ after.failures = [] := by
  change script.read limit = _ at reading
  obtain ⟨_ | ⟨event, later⟩⟩ := script
  · obtain ⟨rfl, rfl⟩ := by simpa [read] using reading
    exact ⟨.ending rfl, rfl⟩
  · cases event with
    | fault fault =>
        obtain ⟨rfl, rfl⟩ := by simpa [read] using reading
        cases fault with
        | interrupted => exact ⟨.interruption rfl, unfailing⟩
        | _ => cases unfailing
    | data bytes =>
        cases bytes with
        | nil =>
            obtain ⟨rfl, rfl⟩ := by simpa [read] using reading
            exact ⟨.ending rfl, unfailing⟩
        | cons byte block =>
            simp only [read] at reading
            split at reading
            · obtain ⟨rfl, rfl⟩ := by simpa using reading
              exact ⟨.block byte block rfl, unfailing⟩
            · next long =>
              obtain ⟨rfl, rfl⟩ := by simpa using reading
              obtain ⟨less, rfl⟩ := Nat.exists_eq_succ_of_ne_zero (Nat.ne_of_gt positive)
              have rest : block.drop less ≠ [] := fun nothing =>
                long (Nat.succ_le_succ (List.drop_eq_nil_iff.mp nothing))
              refine ⟨.block byte (block.take less) ?_, unfailing⟩
              simp only [front, List.drop_succ_cons, frontOf_data rest, frontOf,
                ← List.append_assoc, List.cons_append, List.take_append_drop]

end Script

namespace Lookahead

/-- What the stream has in front of its first empty block, and nothing once the end was
noted. -/
def ahead (view : Lookahead Script) : Bytes :=
  if view.ended then [] else view.inner.front

/-- What small reads will hand out. -/
def promised (view : Lookahead Script) : Bytes :=
  view.window ++ view.ahead

/-- A window over a script without failures gives bytes from the front of what it
promises. -/
structure Gives (view : Lookahead Script) (given : Bytes) (after : Lookahead Script) : Prop where
  capacity : after.capacity = view.capacity
  unfailing : after.inner.failures = []
  promised : view.promised = given ++ after.promised

variable {view middle after : Lookahead Script} {first second : Bytes} {limit wanted : Nat}

theorem Gives.refl (unfailing : view.inner.failures = []) : view.Gives [] view :=
  ⟨rfl, unfailing, rfl⟩

theorem Gives.trans (front : view.Gives first middle) (back : middle.Gives second after) :
    view.Gives (first ++ second) after :=
  ⟨back.capacity.trans front.capacity, back.unfailing, by
    rw [front.promised, back.promised, List.append_assoc]⟩

theorem gives_takeBlock (unfailing : view.inner.failures = []) (limit : Nat) :
    view.Gives (view.takeBlock limit).1 (view.takeBlock limit).2 := by
  refine ⟨rfl, unfailing, ?_⟩
  change view.window ++ view.ahead =
    view.window.take limit ++ (view.window.drop limit ++ view.ahead)
  rw [← List.append_assoc, List.take_append_drop]

theorem promised_going (going : view.ended = false) :
    view.promised = view.window ++ view.inner.front := by
  simp [promised, ahead, going]

theorem promised_ended (ended : view.ended = true) : view.promised = view.window := by
  simp [promised, ahead, ended]

theorem going_of_lacking (lacking : (view.window.length < wanted && !view.ended) = true)
    (fits : wanted ≤ view.capacity) :
    view.ended = false ∧ 0 < view.capacity - view.window.length := by
  simp only [Bool.and_eq_true, decide_eq_true_eq, Bool.not_eq_true'] at lacking
  exact ⟨lacking.2, by omega⟩

section Fetching

variable {inner : Script} (unfailing : view.inner.failures = []) (going : view.ended = false)
  (positive : 0 < limit)

include unfailing going positive

theorem gives_interruption
    (reading : BlockReader.read limit view.inner = (.error .interrupted, inner)) :
    view.Gives [] { view with inner } := by
  obtain ⟨answers, unfailingAfter⟩ := Script.answers_of_read unfailing positive reading
  cases answers with
  | interruption same =>
      have later : promised { view with inner } = view.window ++ inner.front :=
        promised_going going
      exact ⟨rfl, unfailingAfter, by rw [promised_going going, later, same, List.nil_append]⟩

theorem gives_ending (reading : BlockReader.read limit view.inner = (.ok [], inner)) :
    view.Gives [] { view with inner, ended := true } ∧ view.promised = view.window := by
  obtain ⟨answers, unfailingAfter⟩ := Script.answers_of_read unfailing positive reading
  cases answers with
  | ending nothing =>
      have kept : view.promised = view.window := by
        rw [promised_going going, nothing, List.append_nil]
      have later : promised { view with inner, ended := true } = view.window :=
        promised_ended rfl
      exact ⟨⟨rfl, unfailingAfter, by rw [kept, later, List.nil_append]⟩, kept⟩

theorem gives_fetched {byte : UInt8} {block : Bytes}
    (reading : BlockReader.read limit view.inner = (.ok (byte :: block), inner)) :
    view.Gives [] { view with inner, window := view.window ++ byte :: block } := by
  obtain ⟨answers, unfailingAfter⟩ := Script.answers_of_read unfailing positive reading
  cases answers with
  | block _ _ whole =>
      have later : promised { view with inner, window := view.window ++ byte :: block } =
          view.window ++ byte :: block ++ inner.front := promised_going going
      exact ⟨rfl, unfailingAfter, by
        rw [promised_going going, whole, later, List.nil_append, List.append_assoc]⟩

end Fetching

/-- A fetch comes through, and the window then begins as what is promised. -/
theorem gives_fill (unfailing : view.inner.failures = []) (fits : wanted ≤ view.capacity) :
    ∃ after, view.fill wanted = (none, after) ∧ view.Gives [] after ∧
      after.window.take wanted = view.promised.take wanted := by
  fun_induction fill wanted view with
  | case1 view lacking inner reading ih =>
      obtain ⟨going, room⟩ := going_of_lacking lacking fits
      have step := gives_interruption unfailing going room reading
      obtain ⟨after, filled, gives, shown⟩ := ih step.unfailing fits
      exact ⟨after, filled, step.trans gives, step.promised ▸ shown⟩
  | case2 view lacking fault inner counted reading =>
      obtain ⟨going, room⟩ := going_of_lacking lacking fits
      cases (Script.answers_of_read unfailing room reading).1 with
      | interruption => exact absurd rfl counted
  | case3 view lacking inner reading =>
      obtain ⟨going, room⟩ := going_of_lacking lacking fits
      obtain ⟨step, kept⟩ := gives_ending unfailing going room reading
      exact ⟨_, rfl, step, by rw [kept]⟩
  | case4 view lacking byte block inner reading ih =>
      obtain ⟨going, room⟩ := going_of_lacking lacking fits
      have step := gives_fetched unfailing going room reading
      obtain ⟨after, filled, gives, shown⟩ := ih step.unfailing fits
      exact ⟨after, filled, step.trans gives, step.promised ▸ shown⟩
  | case5 view enough =>
      refine ⟨view, rfl, .refl unfailing, ?_⟩
      by_cases long : wanted ≤ view.window.length
      · rw [promised, List.take_append_of_le_length long]
      · have ended : view.ended = true := by
          simpa [Nat.lt_of_not_le long] using enough
        rw [promised_ended ended]

/-- A read that is not passed on. -/
theorem gives_read (unfailing : view.inner.failures = [])
    (small : view.window = [] → limit < view.capacity) :
    ∃ block after, BlockReader.read limit view = (.ok block, after) ∧ view.Gives block after ∧
      (0 < limit → block = [] → view.promised = []) := by
  cases window : view.window with
  | nil =>
      have fits := small window
      obtain ⟨after, filled, gives, shown⟩ := gives_fill unfailing (Nat.zero_lt_of_lt fits)
      refine ⟨after.window.take limit, (after.takeBlock limit).2, ?_, ?_, fun positive none => ?_⟩
      · change view.read limit = _
        simp only [read, window, List.isEmpty_nil, if_true, Nat.not_le.mpr fits, if_false, filled]
        rfl
      · exact gives.trans (gives_takeBlock gives.unfailing limit)
      · have empty : after.window = [] :=
          (List.take_eq_nil_iff.mp none).resolve_left (Nat.ne_of_gt positive)
        simpa [empty] using shown.symm
  | cons byte window' =>
      refine ⟨view.window.take limit, (view.takeBlock limit).2, ?_,
        gives_takeBlock unfailing limit, fun positive none => ?_⟩
      · have waiting : ¬ view.window.isEmpty = true := by simp [window]
        change view.read limit = _
        rw [read, if_neg waiting]
        rfl
      · simp [window, Nat.ne_of_gt positive] at none

theorem gives_peek (unfailing : view.inner.failures = []) (depth : Nat) :
    ∃ after, view.Gives [] after ∧
      view.peek depth = (if depth ≤ view.capacity then .ok (view.promised.take depth)
        else .error (.peekTooDeep depth view.capacity), after) := by
  by_cases fits : depth ≤ view.capacity
  · obtain ⟨after, filled, gives, shown⟩ := gives_fill unfailing fits
    exact ⟨after, gives, by simp only [peek, fits, if_true, filled, shown]⟩
  · exact ⟨view, .refl unfailing, by simp only [peek, fits, if_false]⟩

theorem gives_take (unfailing : view.inner.failures = []) (room : 0 < view.capacity) :
    ∃ after, view.Gives (view.promised.take 1) after ∧
      view.take = (.ok view.promised.head?, after) := by
  obtain ⟨after, filled, gives, shown⟩ := gives_fill unfailing room
  cases window : after.window with
  | nil =>
      have nothing : view.promised = [] := by simpa [window] using shown.symm
      rw [nothing]
      exact ⟨after, gives, by simp only [take, filled, window, List.head?_nil]⟩
  | cons byte rest =>
      have step := gives.trans (gives_takeBlock gives.unfailing 1)
      have block : (after.takeBlock 1).1 = view.promised.take 1 := shown
      have first : view.promised.head? = some byte := by
        rw [List.head?_eq_getElem?, ← List.getElem?_take_of_lt Nat.one_pos, ← shown, window]
        rfl
      rw [List.nil_append, block] at step
      refine ⟨(after.takeBlock 1).2, step, ?_⟩
      rw [first]
      simp only [take, filled, window, takeBlock]
      rfl

end Lookahead

end LenientMime
