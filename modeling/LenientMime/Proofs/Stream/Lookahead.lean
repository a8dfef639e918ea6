import LenientMime.Proofs.Stream.Account

namespace LenientMime.Lookahead

variable {ρ : Type} {account : ρ → Bytes → List Bytes → Prop} {depth wanted : Nat}
  {view after : Lookahead ρ} {bytes : Bytes} {failures : List Bytes}

/-- Looks of at most `depth` bytes are within the capacity, and the end was seen only
where it is, behind the last failure. -/
def Holds (account : ρ → Bytes → List Bytes → Prop) (depth : Nat) (view : Lookahead ρ)
    (bytes : Bytes) (failures : List Bytes) : Prop :=
  max depth 1 ≤ view.capacity ∧
    ∃ unread, bytes = view.window ++ unread ∧ account view.inner unread failures ∧
      (view.ended = true → unread = [] ∧ failures = [])

theorem holds_ofCapacity {stream : ρ} {capacity : Nat} (held : account stream bytes failures)
    (enough : depth ≤ capacity) : (ofCapacity capacity stream).Holds account depth bytes failures :=
  ⟨by simp only [ofCapacity]; omega, bytes, rfl, held, by simp [ofCapacity]⟩

theorem Holds.room (holds : view.Holds account depth bytes failures) (fits : wanted ≤ max depth 1)
    (lacking : (view.window.length < wanted && !view.ended) = true) :
    0 < view.capacity - view.window.length := by
  have room := holds.1
  simp only [Bool.and_eq_true, decide_eq_true_eq] at lacking
  omega

/-- Bytes that wait in the window are taken from the front of what is still to come. -/
theorem Holds.takeBlock {count : Nat} (holds : view.Holds account depth bytes failures)
    (enough : count ≤ view.window.length) :
    (view.takeBlock count).2.Holds account depth (bytes.drop count) failures := by
  obtain ⟨room, unread, rfl, held, ended⟩ := holds
  exact ⟨room, unread, List.drop_append_of_le_length enough, held, ended⟩

variable [BlockReader ρ]

theorem Holds.interrupted (faithful : BlockReader.Faithful account) {limit : Nat} {inner : ρ}
    (holds : view.Holds account depth bytes failures) (positive : 0 < limit)
    (reading : BlockReader.read limit view.inner = (.error .interrupted, inner)) :
    { view with inner }.Holds account depth bytes failures := by
  obtain ⟨room, unread, rfl, held, ended⟩ := holds
  exact ⟨room, unread, rfl, faithful.interruption held positive reading, ended⟩

theorem Holds.fetched (faithful : BlockReader.Faithful account) {limit : Nat} {inner : ρ}
    {byte : UInt8} {block : Bytes} (holds : view.Holds account depth bytes failures)
    (positive : 0 < limit)
    (reading : BlockReader.read limit view.inner = (.ok (byte :: block), inner)) :
    { view with inner, window := view.window ++ byte :: block }.Holds account depth bytes
      failures := by
  obtain ⟨room, unread, rfl, held, ended⟩ := holds
  obtain ⟨rest, rfl, -, heldAfter⟩ := faithful.delivery held positive reading
  exact ⟨room, rest, by simp, heldAfter, fun atEnd => absurd (ended atEnd).1 (by simp)⟩

/-- A fetch that comes through shows what was wanted, or all there is. -/
theorem Holds.fill (faithful : BlockReader.Faithful account) (fits : wanted ≤ max depth 1)
    (holds : view.Holds account depth bytes failures)
    (filled : view.fill wanted = (none, after)) :
    after.Holds account depth bytes failures ∧ after.window.take wanted = bytes.take wanted := by
  fun_induction Lookahead.fill wanted view with
  | case1 view lacking inner reading ih =>
      exact ih (holds.interrupted faithful (holds.room fits lacking) reading) filled
  | case2 => simp at filled
  | case3 view lacking inner reading =>
      have positive := holds.room fits lacking
      obtain ⟨room, unread, rfl, held, ended⟩ := holds
      obtain rfl := by simpa using filled
      obtain ⟨rest, rfl, atEnd, heldAfter⟩ := faithful.delivery held positive reading
      obtain rfl := atEnd rfl
      have noFailure := faithful.ending held positive reading
      exact ⟨⟨room, [], rfl, heldAfter, fun _ => ⟨rfl, noFailure⟩⟩, by simp⟩
  | case4 view lacking byte block inner reading ih =>
      exact ih (holds.fetched faithful (holds.room fits lacking) reading) filled
  | case5 view enough =>
      obtain rfl := by simpa using filled
      refine ⟨holds, ?_⟩
      obtain ⟨-, unread, rfl, -, ended⟩ := holds
      by_cases long : wanted ≤ view.window.length
      · rw [List.take_append_of_le_length long]
      · have atEnd : view.ended = true := by
          simpa [Nat.lt_of_not_le long] using enough
        rw [(ended atEnd).1, List.append_nil]

/-- A fetch that fails keeps what it has fetched, which is less than what was wanted. -/
theorem Holds.fillFailure (faithful : BlockReader.Faithful account) {fault : Fault}
    (fits : wanted ≤ max depth 1) (holds : view.Holds account depth bytes failures)
    (filled : view.fill wanted = (some fault, after)) :
    ∃ unread later, bytes = after.window ++ unread ∧ after.window.length < wanted ∧
      failures = unread :: later ∧ after.Holds account depth bytes later := by
  fun_induction Lookahead.fill wanted view with
  | case1 view lacking inner reading ih =>
      exact ih (holds.interrupted faithful (holds.room fits lacking) reading) filled
  | case2 view lacking fault inner counted reading =>
      have positive := holds.room fits lacking
      obtain ⟨room, unread, rfl, held, ended⟩ := holds
      obtain ⟨rfl, rfl⟩ := by simpa using filled
      obtain ⟨later, rfl, heldAfter⟩ := faithful.failure held positive reading counted
      simp only [Bool.and_eq_true, decide_eq_true_eq] at lacking
      exact ⟨unread, later, rfl, lacking.1, rfl, room, unread, rfl, heldAfter,
        fun atEnd => absurd (ended atEnd).2 (by simp)⟩
  | case3 => simp at filled
  | case4 view lacking byte block inner reading ih =>
      exact ih (holds.fetched faithful (holds.room fits lacking) reading) filled
  | case5 => simp at filled

/-- A look leaves in the window what it has shown. -/
theorem Holds.look (faithful : BlockReader.Faithful account) {shown : Bytes}
    (fits : wanted ≤ depth) (holds : view.Holds account depth bytes failures)
    (looking : view.peek wanted = (.ok shown, after)) :
    shown = bytes.take wanted ∧ after.window.take wanted = shown ∧
      after.Holds account depth bytes failures := by
  have room := Nat.le_trans fits (Nat.le_trans (Nat.le_max_left depth 1) holds.1)
  simp only [peek, room, if_true] at looking
  split at looking
  · simp at looking
  · next filled =>
    obtain ⟨rfl, rfl⟩ := by simpa using looking
    obtain ⟨holdsAfter, same⟩ := holds.fill faithful (by omega) filled
    exact ⟨same, rfl, holdsAfter⟩

/-- A look this deep takes nothing more from the stream. -/
def Sees (wanted : Nat) (view : Lookahead ρ) : Prop :=
  wanted ≤ view.window.length ∨ view.ended = true

theorem sees_of_fill (filled : view.fill wanted = (none, after)) : after.Sees wanted := by
  fun_induction Lookahead.fill wanted view with
  | case1 view lacking inner reading ih => exact ih filled
  | case2 => simp at filled
  | case3 =>
      obtain rfl := by simpa using filled
      exact .inr rfl
  | case4 view lacking byte block inner reading ih => exact ih filled
  | case5 view enough =>
      obtain rfl := by simpa using filled
      rw [Sees]
      cases ended : view.ended with
      | true => exact .inr rfl
      | false => exact .inl (by simpa [ended] using enough)

theorem sees_of_peek {shown : Bytes} (looking : view.peek wanted = (.ok shown, after)) :
    shown = after.window.take wanted ∧ after.Sees wanted := by
  rw [peek] at looking
  split at looking
  · split at looking
    · simp at looking
    · next view' filled =>
      obtain ⟨rfl, rfl⟩ := by simpa using looking
      exact ⟨rfl, sees_of_fill filled⟩
  · simp at looking

theorem ended_of_take (taken : view.take = (.ok none, after)) : after.ended = true := by
  rw [take] at taken
  split at taken
  · simp at taken
  · next view' filled =>
    split at taken
    · next nothing =>
      obtain rfl := by simpa using taken
      exact (sees_of_fill filled).resolve_left (by simp [nothing])
    · simp at taken

/-- No failure strikes among the bytes that are in the window already. -/
theorem Holds.ahead (faithful : BlockReader.Faithful account)
    (holds : view.Holds account depth bytes failures) (sees : view.Sees wanted) :
    ∀ place ∈ failures, ∃ seen, wanted ≤ seen.length ∧ bytes = seen ++ place := by
  obtain ⟨-, unread, rfl, held, ended⟩ := holds
  intro place member
  rcases sees with enough | atEnd
  · obtain ⟨front, rfl⟩ := faithful.inside held place member
    refine ⟨view.window ++ front, ?_, (List.append_assoc _ _ _).symm⟩
    rw [List.length_append]
    omega
  · rw [(ended atEnd).2] at member
    contradiction

theorem faithful_holds (faithful : BlockReader.Faithful account) (depth : Nat) :
    ByteSource.Faithful depth (Holds account depth) where
  window := by
    intro wanted view after bytes shown failures holds fits looking
    obtain ⟨same, -, holdsAfter⟩ := holds.look faithful fits looking
    exact ⟨same, holdsAfter⟩
  lookFailure := by
    intro wanted view after bytes failures fault holds fits looking
    change view.peek wanted = _ at looking
    have room := Nat.le_trans fits (Nat.le_trans (Nat.le_max_left depth 1) holds.1)
    simp only [peek, room, if_true] at looking
    split at looking
    · next filled =>
      obtain ⟨rfl, rfl⟩ := by simpa using looking
      obtain ⟨place, later, -, -, spent, holdsAfter⟩ := holds.fillFailure faithful (by omega) filled
      exact ⟨place, later, spent, holdsAfter⟩
    · simp at looking
  byte := by
    intro view after bytes failures taken holds taking
    change view.take = _ at taking
    simp only [take] at taking
    split at taking
    · simp at taking
    · next view' filled =>
      obtain ⟨⟨room, unread, rfl, held, ended⟩, -⟩ :=
        holds.fill faithful (Nat.le_max_right depth 1) filled
      split at taking
      · simp at taking
      · next first rest shown =>
        obtain ⟨rfl, rfl⟩ := by simpa using taking
        exact ⟨rest ++ unread, by simp [shown], room, unread, rfl, held, ended⟩
  ending := by
    intro view after bytes failures holds taking
    change view.take = _ at taking
    simp only [take] at taking
    split at taking
    · simp at taking
    · next view' filled =>
      obtain ⟨holdsAfter, same⟩ := holds.fill faithful (Nat.le_max_right depth 1) filled
      split at taking
      · next nothing =>
        obtain rfl := by simpa using taking
        obtain rfl : bytes = [] := by
          rw [nothing] at same
          simpa using same.symm
        exact ⟨rfl, holdsAfter⟩
      · simp at taking
  takeFailure := by
    intro view after bytes failures fault holds taking
    change view.take = _ at taking
    simp only [take] at taking
    split at taking
    · next filled =>
      obtain ⟨rfl, rfl⟩ := by simpa using taking
      obtain ⟨unread, later, whole, short, spent, holdsAfter⟩ :=
        holds.fillFailure faithful (Nat.le_max_right depth 1) filled
      have nothing := List.eq_nil_of_length_eq_zero (Nat.lt_one_iff.mp short)
      rw [nothing, List.nil_append] at whole
      exact ⟨later, whole ▸ spent, holdsAfter⟩
    · split at taking <;> simp at taking

/-- A window that is wide enough presents what the blocks of its stream hold. -/
theorem presents_of_calm {script : Script} (calm : script.Calm) {capacity : Nat}
    (enough : depth ≤ capacity) :
    ByteSource.Presents depth (ofCapacity capacity script) script.contents :=
  ⟨_, faithful_holds Script.faithful_holds depth,
    holds_ofCapacity ⟨rfl, calm.failures, calm.gapless⟩ enough⟩

end LenientMime.Lookahead
