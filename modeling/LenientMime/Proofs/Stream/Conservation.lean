import LenientMime.Proofs.Stream.Requests
import LenientMime.Stream.Script

namespace LenientMime

/-! Nothing is lost in a window of lookahead.

Whatever a caller asks for, and whatever the stream answers, a request takes bytes from
the front of the window and puts bytes of the stream onto its end.  What was consumed,
what the window holds and what the stream has left are therefore the bytes of the stream
in their order, and a look shows the bytes that will be consumed next.
-/

/-- The bytes that an answer hands over. -/
def handedOver : Except Fault Bytes → Bytes
  | .ok block => block
  | .error _ => []

theorem Recorded.EndReported.of_read {ρ : Type} [BlockReader ρ] {limit : Nat}
    {recorded after : Recorded ρ} {answer : Except Fault Bytes}
    (reading : BlockReader.read limit recorded = (answer, after))
    (reported : recorded.EndReported ∨ answer = .ok []) : after.EndReported := by
  rw [EndReported, (stream_of_read reading).2, List.mem_append, List.mem_singleton]
  exact reported.imp_right Eq.symm

theorem Recorded.contents_of_read {limit : Nat} {recorded after : Recorded Script}
    {answer : Except Fault Bytes} (reading : BlockReader.read limit recorded = (answer, after)) :
    recorded.stream.contents = handedOver answer ++ after.stream.contents := by
  have answered := (stream_of_read reading).1
  cases answer with
  | error fault => exact (Script.contents_of_fault answered).symm
  | ok block => exact (Script.contents_of_read answered).symm

namespace Lookahead

/-- What a request can do to a window.  It consumes from the front and fetches onto the
end, never more than there is room for, and notes the end only when the stream reports it. -/
structure Moves (view : Lookahead (Recorded Script)) (consumed : Bytes)
    (after : Lookahead (Recorded Script)) : Prop where
  capacity : after.capacity = view.capacity
  room : view.window.length ≤ view.capacity → after.window.length ≤ after.capacity
  order : ∃ fetched, view.window ++ fetched = consumed ++ after.window ∧
    view.inner.stream.contents = fetched ++ after.inner.stream.contents
  ended : (view.ended = true → view.inner.EndReported) →
    after.ended = true → after.inner.EndReported

variable {view middle after : Lookahead (Recorded Script)} {first second : Bytes} {wanted : Nat}

theorem Moves.refl (view : Lookahead (Recorded Script)) : view.Moves [] view :=
  ⟨rfl, id, ⟨[], by simp, by simp⟩, id⟩

theorem Moves.trans (front : view.Moves first middle) (back : middle.Moves second after) :
    view.Moves (first ++ second) after := by
  obtain ⟨early, window, contents⟩ := front.order
  obtain ⟨late, windowAfter, contentsAfter⟩ := back.order
  refine ⟨back.capacity.trans front.capacity, back.room ∘ front.room, ⟨early ++ late, ?_, ?_⟩,
    back.ended ∘ front.ended⟩
  · rw [← List.append_assoc, window, List.append_assoc, windowAfter, List.append_assoc]
  · rw [contents, contentsAfter, List.append_assoc]

/-- One read of the stream, of as much as there is room for. -/
theorem moves_fetch {answer : Except Fault Bytes} {inner : Recorded Script}
    (reading : BlockReader.read (view.capacity - view.window.length) view.inner =
      (answer, inner)) :
    view.Moves [] { view with inner, window := view.window ++ handedOver answer } := by
  refine ⟨rfl, fun room => ?_, ⟨handedOver answer, rfl, Recorded.contents_of_read reading⟩,
    fun noted ended => .of_read reading (.inl (noted ended))⟩
  cases answer with
  | error fault => simpa [handedOver] using room
  | ok block =>
      have fits := BlockReader.length_of_read reading
      simp only [handedOver, List.length_append]
      omega

theorem moves_end {inner : Recorded Script}
    (reading : BlockReader.read (view.capacity - view.window.length) view.inner =
      (.ok [], inner)) : view.Moves [] { view with inner, ended := true } := by
  obtain ⟨capacity, room, order, -⟩ := moves_fetch reading
  rw [handedOver, List.append_nil] at room order
  exact ⟨capacity, room, order, fun _ _ => .of_read reading (.inr rfl)⟩

theorem moves_fill (wanted : Nat) (view : Lookahead (Recorded Script)) :
    view.Moves [] (view.fill wanted).2 := by
  fun_induction fill wanted view with
  | case1 view lacking inner reading ih =>
      have fetch := moves_fetch reading
      rw [handedOver, List.append_nil] at fetch
      exact fetch.trans ih
  | case2 view lacking fault inner counted reading =>
      have fetch := moves_fetch reading
      rwa [handedOver, List.append_nil] at fetch
  | case3 view lacking inner reading => exact moves_end reading
  | case4 view lacking byte block inner reading ih => exact (moves_fetch reading).trans ih
  | case5 view enough => exact .refl view

/-- A fetch that comes through falls short only where the end was noted. -/
theorem ended_of_fill {ρ : Type} [BlockReader ρ] {view after : Lookahead ρ} {wanted : Nat}
    (filled : view.fill wanted = (none, after)) (short : after.window.length < wanted) :
    after.ended = true := by
  fun_induction fill wanted view with
  | case1 view lacking inner reading ih => exact ih filled
  | case2 => simp at filled
  | case3 view lacking inner reading =>
      obtain rfl := by simpa using filled
      rfl
  | case4 view lacking byte block inner reading ih => exact ih filled
  | case5 view enough =>
      obtain rfl := by simpa using filled
      simpa [short] using enough

theorem moves_peek (depth : Nat) (view : Lookahead (Recorded Script)) :
    view.Moves [] (view.peek depth).2 := by
  have fill := moves_fill depth view
  rw [peek]
  split
  · cases filled : view.fill depth with
    | mk fault after =>
        rw [filled] at fill
        cases fault <;> exact fill
  · exact .refl view

theorem moves_takeBlock (limit : Nat) (view : Lookahead (Recorded Script)) :
    view.Moves (view.takeBlock limit).1 (view.takeBlock limit).2 := by
  refine ⟨rfl, fun room => ?_, ⟨[], ?_, rfl⟩, id⟩
  · exact Nat.le_trans (List.drop_sublist limit view.window).length_le room
  · rw [takeBlock, List.append_nil, List.take_append_drop]

theorem moves_take (view : Lookahead (Recorded Script)) :
    view.Moves (Reply.taken view.take.1).consumed view.take.2 := by
  have fill := moves_fill 1 view
  rw [take]
  cases filled : view.fill 1 with
  | mk fault after =>
      rw [filled] at fill
      cases fault with
      | some fault => exact fill
      | none =>
          have block := moves_takeBlock 1 after
          simp only
          cases shown : after.window with
          | nil => exact fill
          | cons byte window =>
              simp only [takeBlock, shown, List.take_succ_cons, List.take_zero,
                List.drop_succ_cons, List.drop_zero] at block
              exact fill.trans block

/-- A read that goes past the window to the stream. -/
theorem moves_pass {limit : Nat} {answer : Except Fault Bytes} {inner : Recorded Script}
    (nothing : view.window = []) (reading : BlockReader.read limit view.inner = (answer, inner)) :
    view.Moves (handedOver answer) { view with inner } := by
  refine ⟨rfl, id, ⟨handedOver answer, ?_, Recorded.contents_of_read reading⟩,
    fun noted ended => .of_read reading (.inl (noted ended))⟩
  simp [nothing]

theorem moves_read (limit : Nat) (view : Lookahead (Recorded Script)) :
    view.Moves (Reply.block (view.read limit).1).consumed (view.read limit).2 := by
  rw [read]
  split
  · next nothing =>
    split
    · cases passed : BlockReader.read limit view.inner with
      | mk answer inner =>
          have pass := moves_pass (List.isEmpty_iff.mp nothing) passed
          cases answer <;> exact pass
    · have fill := moves_fill 1 view
      cases filled : view.fill 1 with
      | mk fault after =>
          rw [filled] at fill
          cases fault with
          | some fault => exact fill
          | none => exact fill.trans (moves_takeBlock limit after)
  · exact moves_takeBlock limit view

theorem moves_serve (view : Lookahead (Recorded Script)) (request : Request) :
    view.Moves (view.serve request).1.consumed (view.serve request).2 := by
  cases request with
  | peek depth => exact moves_peek depth view
  | take => exact moves_take view
  | read limit => exact moves_read limit view

theorem moves_serveAll (view : Lookahead (Recorded Script)) (requests : List Request) :
    view.Moves ((view.serveAll requests).1.flatMap Reply.consumed)
      (view.serveAll requests).2 := by
  induction requests generalizing view with
  | nil => exact .refl view
  | cons request later ih => exact (moves_serve view request).trans (ih _)

/-- A look shows at most as much as was wanted, and less only where the end was noted. -/
theorem peek_shows {ρ : Type} [BlockReader ρ] {view looked : Lookahead ρ} {depth : Nat}
    {shown : Bytes} (looking : view.peek depth = (.ok shown, looked)) :
    shown = looked.window.take depth ∧ (shown.length < depth → looked.ended = true) := by
  rw [peek] at looking
  split at looking
  · split at looking
    · cases looking
    · next filled =>
      cases looking
      refine ⟨rfl, fun short => ended_of_fill filled ?_⟩
      rw [List.length_take] at short
      omega
  · cases looking

/-- After any requests over any stream the bytes consumed, the bytes held and the bytes
left in the stream are the bytes of the stream in order, whichever requests failed.  The
window holds no more than its capacity.  A look that comes through shows the front of what
later requests consume and the window then holds, and it falls short only if the stream has
reported its end. -/
theorem serveAll_conserves (script : Script) (capacity : Nat) (requests : List Request) :
    let start := ofCapacity capacity (Recorded.mk script [])
    let replies := (start.serveAll requests).1
    let view := (start.serveAll requests).2
    (ofCapacity capacity script).serveAll requests = (replies, view.unrecorded) ∧
      replies.flatMap Reply.consumed ++ view.window ++ view.inner.stream.contents =
        script.contents ∧
      view.window.length ≤ max capacity 1 ∧
      ∀ depth shown looked, view.peek depth = (.ok shown, looked) →
        shown.length ≤ depth ∧ (shown.length < depth → looked.inner.EndReported) ∧
        ∀ later, shown <+: (looked.serveAll later).1.flatMap Reply.consumed ++
          (looked.serveAll later).2.window := by
  intro start replies view
  have moves : start.Moves (replies.flatMap Reply.consumed) view := moves_serveAll start requests
  obtain ⟨fetched, window, contents⟩ := moves.order
  refine ⟨serveAll_unrecorded start requests, ?_, ?_, fun depth shown looked looking => ?_⟩
  · rw [← window]
    exact contents.symm
  · exact Nat.le_trans (moves.room (Nat.zero_le _)) (Nat.le_of_eq moves.capacity)
  · obtain ⟨rfl, short⟩ := peek_shows looking
    have look : view.Moves [] looked := by
      have look := moves_peek depth view
      rwa [looking] at look
    refine ⟨List.length_take_le depth looked.window, fun falls => ?_, fun later => ?_⟩
    · exact (moves.trans look).ended (fun ended => nomatch ended) (short falls)
    · obtain ⟨more, front, -⟩ := (moves_serveAll looked later).order
      rw [← front]
      exact (List.take_prefix depth looked.window).trans (List.prefix_append _ more)

/-- An empty block in the middle of a stream ends a look early, though the stream goes on. -/
example : (ofCapacity 4 (Script.mk [.data [1], .data [], .data [2, 3]])).serveAll
    [.peek 2, .take, .take, .read 4] =
      ([.shown (.ok [1]), .taken (.ok (some 1)), .taken (.ok none), .block (.ok [2, 3])],
        { inner := ⟨[]⟩, capacity := 4, ended := true }) := by
  cbv

end Lookahead

end LenientMime
