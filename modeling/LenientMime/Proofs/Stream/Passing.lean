import LenientMime.Proofs.Stream.Promise
import LenientMime.Proofs.Stream.Schedule

namespace LenientMime

/-! Reads that go past the window.

A large read on an empty window is passed on to the stream, where small reads would have
gone through the window.  The two agree while the stream gives bytes.  But a read that is
passed on reports an interruption, does not note the end that the stream shows it, and
does not ask whether the end was noted before.

Small reads give exactly what the window promises, so a caller with large reads sees the
same replies unless it is interrupted or is given bytes that were not promised.
-/

namespace BlockReader

variable {σ : Type} [BlockReader σ]

/-- Reads until `count` bytes have come or none come.  No read asks for more than is
missing, nor for more than the size that the schedule has for it. -/
def readUpTo (sizes : Nat → Nat) (count : Nat) (stream : σ) : Drained σ :=
  match _ : read (min (sizes 0) count) stream with
  | (.error fault, after) => { bytes := [], fault := some fault, stream := after }
  | (.ok [], after) => { bytes := [], fault := none, stream := after }
  | (.ok (byte :: block), after) =>
      if block.length + 1 < count then
        (readUpTo (fun index => sizes (index + 1)) (count - (block.length + 1)) after).after
          (byte :: block)
      else { bytes := byte :: block, fault := none, stream := after }
termination_by extent stream
decreasing_by exact extent_lt_of_read ‹_›

end BlockReader

namespace Lookahead

/-- What is handed out or shown. -/
def Reply.bytes : Reply → Bytes
  | .shown (.ok bytes) => bytes
  | reply => reply.consumed

/-- The replies give, in their order, only bytes from the front of `bytes`. -/
def Within (bytes : Bytes) : List Reply → Prop
  | [] => True
  | reply :: later => reply.bytes <+: bytes ∧ Within (bytes.drop reply.consumed.length) later

instance decidableWithin (bytes : Bytes) :
    (replies : List Reply) → Decidable (Within bytes replies)
  | [] => .isTrue trivial
  | reply :: later =>
      @instDecidableAnd (reply.bytes <+: bytes) (Within (bytes.drop reply.consumed.length) later)
        inferInstance (decidableWithin _ later)

/-- A byte or a block was asked for and there was none. -/
def TellsEnd : Request → Reply → Prop
  | .take, .taken (.ok none) => True
  | .read (_ + 1), .block (.ok []) => True
  | _, _ => False

/-- Once the end was told, no reply gives a byte. -/
def Latched (exchange : List (Request × Reply)) : Prop :=
  exchange.Pairwise fun earlier later => TellsEnd earlier.1 earlier.2 → later.2.bytes = []

/-- The reply over bytes that lie in memory.  A read is answered with `count` of them, or
with one if the count is zero, so that there are none only at the end. -/
def answerOver (capacity : Nat) (bytes : Bytes) : Request → Nat → Reply
  | .peek depth, _ =>
      .shown (if depth ≤ capacity then .ok (bytes.take depth)
        else .error (.peekTooDeep depth capacity))
  | .take, _ => .taken (.ok bytes.head?)
  | .read 0, _ => .block (.ok [])
  | .read (_ + 1), count => .block (.ok (bytes.take (max count 1)))

/-- The replies over bytes that lie in memory, with the counts of an exchange. -/
def answersOver (capacity : Nat) (bytes : Bytes) : List (Request × Reply) → List Reply
  | [] => []
  | (request, reply) :: later =>
      let answer := answerOver capacity bytes request reply.consumed.length
      answer :: answersOver capacity (bytes.drop answer.consumed.length) later

section Answers

variable {capacity count : Nat} {bytes : Bytes} {request : Request}

theorem front_of_answerOver : (answerOver capacity bytes request count).bytes <+: bytes := by
  cases request with
  | peek depth =>
      simp only [answerOver]
      split
      · exact List.take_prefix depth bytes
      · exact List.nil_prefix
  | take =>
      cases bytes with
      | nil => exact List.nil_prefix
      | cons byte rest => exact ⟨rest, rfl⟩
  | read limit =>
      cases limit with
      | zero => exact List.nil_prefix
      | succ limit => exact List.take_prefix _ bytes

theorem answerOver_steady :
    answerOver capacity bytes request count ≠ .block (.error .interrupted) := by
  cases request with
  | peek depth => nofun
  | take => nofun
  | read limit => cases limit <;> nofun

/-- An answer without bytes does not depend on the bytes. -/
theorem answerOver_nil (nothing : (answerOver capacity bytes request count).bytes = []) :
    answerOver capacity bytes request count = answerOver capacity [] request count := by
  cases request with
  | peek depth =>
      simp only [answerOver] at nothing ⊢
      split
      · next fits =>
        have none : bytes.take depth = [] := by
          rwa [if_pos fits] at nothing
        rw [none, List.take_nil]
      · rfl
  | take =>
      cases bytes with
      | nil => rfl
      | cons byte rest => cases nothing
  | read limit =>
      cases limit with
      | zero => rfl
      | succ limit =>
          have none : bytes.take (max count 1) = [] := nothing
          simp only [answerOver, none, List.take_nil]

theorem answerOver_given {block rest : Bytes} {limit : Nat} (whole : bytes = block ++ rest)
    (ending : block = [] → bytes = []) :
    answerOver capacity bytes (.read (limit + 1)) block.length = .block (.ok block) := by
  cases block with
  | nil =>
      rw [ending rfl]
      rfl
  | cons byte block =>
      have least : max (byte :: block).length 1 = (byte :: block).length :=
        Nat.max_eq_left (Nat.succ_pos block.length)
      rw [answerOver, least, whole, List.take_left]

theorem answerOver_tellsEnd (told : TellsEnd request (answerOver capacity bytes request count)) :
    bytes = [] := by
  cases bytes with
  | nil => rfl
  | cons byte rest =>
      cases request with
      | peek depth => cases told
      | take => cases told
      | read limit =>
          cases limit with
          | zero => cases told
          | succ limit =>
              obtain ⟨more, least⟩ : ∃ more, max count 1 = more + 1 := ⟨max count 1 - 1, by omega⟩
              simp only [answerOver, least, List.take_succ_cons, TellsEnd] at told

theorem answersOver_within (exchange : List (Request × Reply)) :
    Within bytes (answersOver capacity bytes exchange) ∧
      ∀ answer ∈ answersOver capacity bytes exchange, answer ≠ .block (.error .interrupted) := by
  induction exchange generalizing bytes with
  | nil => exact ⟨trivial, nofun⟩
  | cons first later ih =>
      refine ⟨⟨front_of_answerOver, ih.1⟩, fun answer member => ?_⟩
      cases member with
      | head => exact answerOver_steady
      | tail _ member => exact ih.2 answer member

theorem Within.nothing {replies : List Reply} (within : Within [] replies) :
    ∀ reply ∈ replies, reply.bytes = [] := by
  induction replies with
  | nil => nofun
  | cons reply later ih =>
      intro other member
      cases member with
      | head => exact List.prefix_nil.mp within.1
      | tail _ member => exact ih (List.drop_nil ▸ within.2) other member

theorem latched_answersOver (requests : List Request) (replies : List Reply) :
    Latched (requests.zip (answersOver capacity bytes (requests.zip replies))) := by
  induction requests generalizing bytes replies with
  | nil => exact .nil
  | cons request requests ih =>
      cases replies with
      | nil => exact .nil
      | cons reply replies =>
          refine .cons (fun later member told => ?_) (ih replies)
          obtain rfl := answerOver_tellsEnd told
          have within : Within [] (answersOver capacity [] (requests.zip replies)) :=
            (answersOver_within _).1
          rw [List.drop_nil] at member
          exact within.nothing later.2 (List.of_mem_zip member).2

end Answers

section InBlocks

variable {ρ : Type} [BlockReader ρ]

/-- One request, a read made up of small reads to the count that it has. -/
def serveInBlocks (sizes : Nat → Nat) (view : Lookahead ρ) :
    Request → Nat → Reply × Lookahead ρ
  | .peek depth, _ => view.serve (.peek depth)
  | .take, _ => view.serve .take
  | .read 0, _ => view.serve (.read 0)
  | .read (_ + 1), count =>
      let drained := BlockReader.readUpTo sizes (max count 1) view
      (.block (drained.fault.elim (.ok drained.bytes) .error), drained.stream)

/-- The replies to the requests of an exchange, every read made up of small reads until as
many bytes have come as it has in the exchange, or none come.  A read below the capacity is
made up like a large one: it may be cut short where the window happens to end, and the
windows of the two callers do not end at the same places. -/
def serveAllInBlocks (sizes : Nat → Nat → Nat) (view : Lookahead ρ) :
    List (Request × Reply) → List Reply
  | [] => []
  | (request, reply) :: later =>
      let served := view.serveInBlocks (sizes 0) request reply.consumed.length
      served.1 :: serveAllInBlocks (fun index => sizes (index + 1)) served.2 later

end InBlocks

variable {view after : Lookahead Script} {limit : Nat}

/-- One of the small reads that make up a larger one. -/
theorem gives_block {sizes : Nat → Nat} {count : Nat} (unfailing : view.inner.failures = [])
    (small : ∀ index, 0 < sizes index ∧ sizes index < view.capacity) (positive : 0 < count) :
    ∃ block after, BlockReader.read (min (sizes 0) count) view = (.ok block, after) ∧
      view.Gives block after ∧ (block = [] → view.promised = []) := by
  obtain ⟨someSize, smallSize⟩ := small 0
  obtain ⟨block, after, reading, gives, ending⟩ :=
    gives_read unfailing fun _ => Nat.lt_of_le_of_lt (Nat.min_le_left (sizes 0) count) smallSize
  exact ⟨block, after, reading, gives, ending (by omega)⟩

theorem gives_readUpTo {sizes : Nat → Nat} {count : Nat} (unfailing : view.inner.failures = [])
    (small : ∀ index, 0 < sizes index ∧ sizes index < view.capacity) (positive : 0 < count) :
    (BlockReader.readUpTo sizes count view).fault = none ∧
      (BlockReader.readUpTo sizes count view).bytes = view.promised.take count ∧
      view.Gives (BlockReader.readUpTo sizes count view).bytes
        (BlockReader.readUpTo sizes count view).stream := by
  fun_induction BlockReader.readUpTo sizes count view with
  | case1 sizes count view fault after reading =>
      obtain ⟨block, later, same, -⟩ := gives_block unfailing small positive
      cases reading.symm.trans same
  | case2 sizes count view after reading =>
      obtain ⟨block, later, same, gives, ending⟩ := gives_block unfailing small positive
      cases reading.symm.trans same
      exact ⟨rfl, by rw [ending rfl, List.take_nil], gives⟩
  | case3 sizes count view byte block after reading more ih =>
      obtain ⟨block', later, same, gives, -⟩ := gives_block unfailing small positive
      cases reading.symm.trans same
      obtain ⟨steady, bytes, givesMore⟩ := ih gives.unfailing
        (fun index => gives.capacity ▸ small (index + 1)) (by omega)
      have whole : (byte :: block).take count = byte :: block :=
        List.take_of_length_le (Nat.le_of_lt more)
      refine ⟨steady, ?_, gives.trans givesMore⟩
      rw [gives.promised, List.take_append, whole]
      exact congrArg (byte :: block ++ ·) bytes
  | case4 sizes count view byte block after reading enough =>
      obtain ⟨block', later, same, gives, -⟩ := gives_block unfailing small positive
      cases reading.symm.trans same
      have fits := BlockReader.length_of_read reading
      have whole : (byte :: block).length = count := by
        simp only [List.length_cons] at fits ⊢
        omega
      refine ⟨rfl, ?_, gives⟩
      rw [gives.promised, ← whole, List.take_left]

/-- Every request but a read with room goes through the window. -/
theorem gives_serve (unfailing : view.inner.failures = []) (room : 0 < view.capacity)
    {request : Request} (through : ∀ limit, request ≠ .read (limit + 1)) (count : Nat) :
    (view.serve request).1 = answerOver view.capacity view.promised request count ∧
      view.Gives (view.serve request).1.consumed (view.serve request).2 := by
  cases request with
  | peek depth =>
      obtain ⟨after, gives, looking⟩ := gives_peek unfailing depth
      simp only [serve, looking, answerOver]
      exact ⟨trivial, gives⟩
  | take =>
      obtain ⟨after, gives, taking⟩ := gives_take unfailing room
      have first : (Reply.taken (.ok view.promised.head?)).consumed = view.promised.take 1 := by
        cases view.promised <;> rfl
      simp only [serve, taking, answerOver, first]
      exact ⟨trivial, gives⟩
  | read limit =>
      cases limit with
      | zero =>
          obtain ⟨block, after, reading, gives, -⟩ := gives_read unfailing fun _ => room
          have nothing := Nat.le_zero.mp (BlockReader.length_of_read reading)
          obtain rfl := List.length_eq_zero_iff.mp nothing
          have same : view.read 0 = (.ok [], after) := reading
          simp only [serve, same]
          exact ⟨rfl, gives⟩
      | succ limit => exact absurd rfl (through limit)

/-- Small reads give what is promised, whatever interruptions come between them. -/
theorem gives_serveInBlocks {sizes : Nat → Nat} (unfailing : view.inner.failures = [])
    (small : ∀ index, 0 < sizes index ∧ sizes index < view.capacity) (request : Request)
    (count : Nat) :
    (view.serveInBlocks sizes request count).1 =
        answerOver view.capacity view.promised request count ∧
      view.Gives (view.serveInBlocks sizes request count).1.consumed
        (view.serveInBlocks sizes request count).2 := by
  have room := Nat.lt_trans (small 0).1 (small 0).2
  cases request with
  | peek depth => exact gives_serve unfailing room (by simp) count
  | take => exact gives_serve unfailing room (by simp) count
  | read limit =>
      cases limit with
      | zero => exact gives_serve unfailing room (by simp) count
      | succ limit =>
          have positive : 0 < max count 1 :=
            Nat.lt_of_lt_of_le Nat.one_pos (Nat.le_max_right count 1)
          obtain ⟨steady, bytes, gives⟩ := gives_readUpTo unfailing small positive
          simp only [serveInBlocks, steady, Option.elim, answerOver, ← bytes]
          exact ⟨trivial, gives⟩

theorem serveAllInBlocks_eq {sizes : Nat → Nat → Nat} (unfailing : view.inner.failures = [])
    (small : ∀ request index, 0 < sizes request index ∧ sizes request index < view.capacity)
    (exchange : List (Request × Reply)) :
    view.serveAllInBlocks sizes exchange = answersOver view.capacity view.promised exchange := by
  induction exchange generalizing view sizes with
  | nil => rfl
  | cons first later ih =>
      obtain ⟨request, reply⟩ := first
      cases served : view.serveInBlocks (sizes 0) request reply.consumed.length with
      | mk answer after =>
          obtain ⟨same, gives⟩ :=
            gives_serveInBlocks unfailing (small 0) request reply.consumed.length
          rw [served] at same gives
          have rest : view.promised.drop answer.consumed.length = after.promised := by
            rw [gives.promised, List.drop_left]
          have more := ih gives.unfailing fun index => gives.capacity ▸ small (index + 1)
          rw [serveAllInBlocks, served, answersOver, ← same, rest, more, gives.capacity]

/-- How a request turns out when large reads are passed on.  It is interrupted, or gives
bytes that are not promised, or is answered as it would be over the promised bytes. -/
inductive Outcome (view : Lookahead Script) (request : Request) (after : Lookahead Script) :
    Reply → Prop where
  | interrupted : Outcome view request after (.block (.error .interrupted))
  | beyond {reply : Reply} : view.promised = [] → reply.bytes ≠ [] →
      Outcome view request after reply
  | kept {reply : Reply} :
      reply = answerOver view.capacity view.promised request reply.consumed.length →
      (view.promised ≠ [] → view.promised = reply.consumed ++ after.promised) →
      Outcome view request after reply

theorem Gives.outcome {request : Request} {reply : Reply}
    (gives : view.Gives reply.consumed after)
    (answer : reply =
      answerOver view.capacity view.promised request reply.consumed.length) :
    after.capacity = view.capacity ∧ after.inner.failures = [] ∧
      view.Outcome request after reply :=
  ⟨gives.capacity, gives.unfailing, .kept answer fun _ => gives.promised⟩

theorem outcome_pass (unfailing : view.inner.failures = []) (window : view.window = [])
    {answer : Except Fault Bytes} {inner : Script}
    (reading : BlockReader.read (limit + 1) view.inner = (answer, inner)) :
    inner.failures = [] ∧
      view.Outcome (.read (limit + 1)) { view with inner } (.block answer) := by
  obtain ⟨answers, unfailingAfter⟩ :=
    Script.answers_of_read unfailing (Nat.succ_pos limit) reading
  refine ⟨unfailingAfter, ?_⟩
  cases answers with
  | interruption same => exact .interrupted
  | ending nothing =>
      have none : view.promised = [] := by simp [promised, ahead, window, nothing]
      exact .kept (by rw [none]; rfl) (absurd none)
  | block byte block whole =>
      by_cases ended : view.ended = true
      · exact .beyond ((promised_ended ended).trans window) (List.cons_ne_nil byte block)
      · have going := Bool.eq_false_iff.mpr ended
        have here : view.promised = byte :: block ++ inner.front := by
          rw [promised_going going, window, whole]
          rfl
        have later : promised { view with inner } = inner.front :=
          calc promised { view with inner }
            _ = view.window ++ inner.front := promised_going going
            _ = inner.front := by rw [window, List.nil_append]
        exact .kept (answerOver_given here (absurd · (List.cons_ne_nil byte block))).symm
          fun _ => later ▸ here

theorem outcome_read (unfailing : view.inner.failures = []) (limit : Nat) :
    (view.serve (.read (limit + 1))).2.capacity = view.capacity ∧
      (view.serve (.read (limit + 1))).2.inner.failures = [] ∧
      view.Outcome (.read (limit + 1)) (view.serve (.read (limit + 1))).2
        (view.serve (.read (limit + 1))).1 := by
  by_cases small : view.window = [] → limit + 1 < view.capacity
  · obtain ⟨block, after, reading, gives, ending⟩ := gives_read unfailing small
    have same : view.read (limit + 1) = (.ok block, after) := reading
    simp only [serve, same]
    exact gives.outcome (answerOver_given gives.promised (ending (Nat.succ_pos limit))).symm
  · obtain ⟨window, large⟩ := Classical.not_imp.mp small
    cases reading : BlockReader.read (limit + 1) view.inner with
    | mk answer inner =>
        have same : view.read (limit + 1) = (answer, { view with inner }) := by
          simp only [read, window, List.isEmpty_nil, if_true, Nat.not_lt.mp large, reading]
        simp only [serve, same]
        exact ⟨trivial, outcome_pass unfailing window reading⟩

theorem outcome_serve (unfailing : view.inner.failures = []) (room : 0 < view.capacity)
    (request : Request) :
    (view.serve request).2.capacity = view.capacity ∧
      (view.serve request).2.inner.failures = [] ∧
      view.Outcome request (view.serve request).2 (view.serve request).1 := by
  by_cases through : ∀ limit, request ≠ .read (limit + 1)
  · obtain ⟨answer, gives⟩ := gives_serve unfailing room through _
    exact gives.outcome answer
  · obtain ⟨limit, rfl⟩ : ∃ limit, request = .read (limit + 1) := by simpa using through
    exact outcome_read unfailing limit

/-- `rest` is what a caller may still be given: what is promised, or nothing once the end
was told. -/
theorem Outcome.answer {request : Request} {reply : Reply} {rest : Bytes}
    (outcome : view.Outcome request after reply) (place : rest = [] ∨ view.promised = rest)
    (steady : reply ≠ .block (.error .interrupted)) (front : reply.bytes <+: rest) :
    answerOver view.capacity rest request reply.consumed.length = reply ∧
      (rest.drop reply.consumed.length = [] ∨
        after.promised = rest.drop reply.consumed.length) := by
  cases outcome with
  | interrupted => exact absurd rfl steady
  | beyond none some =>
      have nothing : rest = [] := place.elim id (Eq.symm · |>.trans none)
      rw [nothing] at front
      exact absurd (List.prefix_nil.mp front) some
  | kept answer later =>
      rcases place with rfl | rfl
      · have nothing := List.prefix_nil.mp front
        rw [answer] at nothing
        exact ⟨(answerOver_nil nothing).symm.trans answer.symm, .inl List.drop_nil⟩
      · refine ⟨answer.symm, ?_⟩
        by_cases none : view.promised = []
        · exact .inl (by rw [none, List.drop_nil])
        · exact .inr (by rw [later none, List.drop_left])

/-- The replies are those over the bytes in front of the first empty block just when no
large read is interrupted and nothing comes from behind that block. -/
theorem answersOver_eq_iff (unfailing : view.inner.failures = []) (room : 0 < view.capacity)
    {rest : Bytes} (place : rest = [] ∨ view.promised = rest) (requests : List Request) :
    answersOver view.capacity rest (requests.zip (view.serveAll requests).1) =
        (view.serveAll requests).1 ↔
      (∀ reply ∈ (view.serveAll requests).1, reply ≠ .block (.error .interrupted)) ∧
        Within rest (view.serveAll requests).1 := by
  constructor
  · intro same
    obtain ⟨within, steady⟩ := answersOver_within (requests.zip (view.serveAll requests).1)
    exact ⟨same ▸ steady, same ▸ within⟩
  · rintro ⟨steady, within⟩
    induction requests generalizing view rest with
    | nil => rfl
    | cons request later ih =>
        obtain ⟨capacity, unfailingAfter, outcome⟩ := outcome_serve unfailing room request
        obtain ⟨answer, placeAfter⟩ := outcome.answer place (steady _ List.mem_cons_self) within.1
        have more := ih unfailingAfter (capacity ▸ room) placeAfter
          (fun reply member => steady reply (List.mem_cons_of_mem _ member)) within.2
        simp only [serveAll, List.zip_cons_cons, answersOver, answer]
        rw [capacity] at more
        rw [more]

/-- A caller with large reads and one with small reads, over a stream that has bytes, empty
blocks and interruptions.  With small reads no interruption is reported, the end is kept
once it was told, and all that is given comes from in front of the first empty block.  With
large reads the replies are the same just when they, too, report no interruption and give
nothing from behind that block. -/
theorem serveAllInBlocks_eq_iff {script : Script} {capacity : Nat} {sizes : Nat → Nat → Nat}
    (unfailing : script.failures = [])
    (small : ∀ request index, 0 < sizes request index ∧ sizes request index < capacity)
    (requests : List Request) :
    let start := ofCapacity capacity script
    let replies := (start.serveAll requests).1
    let inBlocks := start.serveAllInBlocks sizes (requests.zip replies)
    (∀ reply ∈ inBlocks, reply ≠ .block (.error .interrupted)) ∧
      Latched (requests.zip inBlocks) ∧ Within script.front inBlocks ∧
      (inBlocks = replies ↔
        (∀ reply ∈ replies, reply ≠ .block (.error .interrupted)) ∧
          Within script.front replies) := by
  intro start replies inBlocks
  have room : start.capacity = capacity :=
    Nat.max_eq_left (Nat.le_of_lt (Nat.lt_of_le_of_lt (small 0 0).1 (small 0 0).2))
  have here : start.promised = script.front := promised_going rfl
  have answers : inBlocks = answersOver start.capacity script.front (requests.zip replies) := by
    rw [← here]
    exact serveAllInBlocks_eq unfailing (room ▸ small) _
  rw [answers]
  obtain ⟨within, steady⟩ := answersOver_within (requests.zip replies)
  exact ⟨steady, latched_answersOver requests replies, within,
    answersOver_eq_iff unfailing (Nat.lt_of_lt_of_le Nat.one_pos (Nat.le_max_right _ _))
      (.inr here) requests⟩

theorem serveAllInBlocks_eq_retried :
    let script := Script.mk [.fault .interrupted, .data [1, 2, 3], .data [4, 5]]
    let start := ofCapacity 4 script
    let requests := [.take, .read 4, .read 4, .read 4]
    let replies := [.taken (.ok (some 1)), .block (.ok [2, 3]), .block (.ok [4, 5]),
      .block (.ok [])]
    script.failures = [] ∧ (start.serveAll requests).1 = replies ∧
      start.serveAllInBlocks (fun _ index => index % 3 + 1) (requests.zip replies) = replies := by
  intro script start requests replies
  have unfailing : script.failures = [] := rfl
  have small : ∀ _request index : Nat, 0 < index % 3 + 1 ∧ index % 3 + 1 < 4 := by omega
  -- The interruption is tried again, then there is a byte.
  have filled : start.fill 1 =
      (none, { start with inner := ⟨[.data [4, 5]]⟩, window := [1, 2, 3] }) :=
    (fill_lacking start rfl rfl).trans
      ((fill_lacking _ rfl rfl).trans (fill_enough _ (by decide)))
  have served : (start.serveAll requests).1 = replies := by
    simp only [requests, serveAll, serve, take, filled]
    rfl
  obtain ⟨-, -, -, agrees⟩ := serveAllInBlocks_eq_iff unfailing small requests
  rw [served] at agrees
  exact ⟨unfailing, served, agrees.mpr ⟨by simp [replies], by decide⟩⟩

/-- A large read reports an interruption, does not keep the end that it tells, and goes on
after the end was told. -/
theorem passing_disagrees :
    let interrupted := ofCapacity 4 (Script.mk [.fault .interrupted, .data [1, 2]])
    let paused := ofCapacity 4 (Script.mk [.data [], .data [1, 2]])
    (interrupted.serveAll [.read 4]).1 = [.block (.error .interrupted)] ∧
      interrupted.serveAllInBlocks (fun _ _ => 2) [(.read 4, .block (.error .interrupted))] =
        [.block (.ok [1])] ∧
      (paused.serveAll [.read 4, .read 4]).1 = [.block (.ok []), .block (.ok [1, 2])] ∧
      paused.serveAllInBlocks (fun _ _ => 2)
          [(.read 4, .block (.ok [])), (.read 4, .block (.ok [1, 2]))] =
        [.block (.ok []), .block (.ok [])] ∧
      (paused.serveAll [.take, .read 4]).1 = [.taken (.ok none), .block (.ok [1, 2])] ∧
      paused.serveAllInBlocks (fun _ _ => 2)
          [(.take, .taken (.ok none)), (.read 4, .block (.ok [1, 2]))] =
        [.taken (.ok none), .block (.ok [])] := by
  intro interrupted paused
  have small : ∀ _request _index : Nat, 0 < 2 ∧ 2 < 4 := by omega
  refine ⟨rfl, serveAllInBlocks_eq rfl small _, rfl, serveAllInBlocks_eq rfl small _, ?_,
    serveAllInBlocks_eq rfl small _⟩
  have filled : paused.fill 1 = (none, { paused with inner := ⟨[.data [1, 2]]⟩, ended := true }) :=
    fill_lacking paused rfl rfl
  simp only [serveAll, serve, take, filled]
  rfl

end Lookahead

end LenientMime
