import LenientMime.Proofs.Multipart.Line
import LenientMime.Proofs.Stream.Account

namespace LenientMime

namespace ByteSource

theorem suffix_of_takeLine {bytes line rest : Bytes}
    (taken : takeLine bytes = (.ok line, rest)) : rest <:+ bytes := by
  rw [takeLine_slice] at taken
  obtain ⟨-, rfl⟩ := by simpa using taken
  have whole := Bytes.flatten_lines bytes
  cases cut : bytes.lines with
  | nil => exact List.nil_suffix
  | cons first later =>
      rw [cut] at whole
      exact ⟨first, whole⟩

variable {σ : Type} [ByteSource σ] {account : σ → Bytes → List Bytes → Prop} {depth : Nat}
  {source after : σ} {bytes : Bytes} {failures : List Bytes}

theorem Faithful.takeLine (faithful : Faithful depth account) {line : Bytes}
    (held : account source bytes failures)
    (taken : ByteSource.takeLine source = (.ok line, after)) :
    ∃ rest, ByteSource.takeLine bytes = (.ok line, rest) ∧ account after rest failures := by
  fun_induction ByteSource.takeLine source generalizing bytes line after with
  | case1 => simp at taken
  | case2 source after' taking =>
      obtain ⟨rfl, rfl⟩ := by simpa using taken
      obtain ⟨rfl, heldAfter⟩ := faithful.ending held taking
      exact ⟨[], by rw [ByteSource.takeLine_slice]; rfl, heldAfter⟩
  | case3 source byte after' taking isLineFeed =>
      obtain ⟨rfl, rfl⟩ := by simpa using taken
      obtain ⟨rest, rfl, heldAfter⟩ := faithful.byte held taking
      obtain rfl : byte = Byte.lineFeed := by simpa using isLineFeed
      exact ⟨rest, by simp [ByteSource.takeLine_slice, Bytes.flatten_lines], heldAfter⟩
  | case4 source byte after' taking notLineFeed line' rest remainder ih =>
      obtain ⟨rfl, rfl⟩ := by simpa using taken
      obtain ⟨behind, rfl, heldAfter⟩ := faithful.byte held taking
      obtain ⟨left, inMemory, heldLeft⟩ := ih heldAfter remainder
      refine ⟨left, ?_, heldLeft⟩
      rw [ByteSource.takeLine]
      simp only [ByteSource.take, inMemory, notLineFeed, Bool.false_eq_true, if_false]
  | case5 => simp at taken

/-- A line that fails half-way is lost up to the place of the failure. -/
theorem Faithful.takeLineFailure (faithful : Faithful depth account) {fault : Fault}
    (held : account source bytes failures)
    (taken : ByteSource.takeLine source = (.error fault, after)) :
    ∃ text left later, bytes = text ++ left ∧ Byte.lineFeed ∉ text ∧ failures = left :: later ∧
      account after left later := by
  fun_induction ByteSource.takeLine source generalizing bytes after with
  | case1 source fault' after' taking =>
      obtain ⟨rfl, rfl⟩ := by simpa using taken
      obtain ⟨later, spent, heldAfter⟩ := faithful.takeFailure held taking
      exact ⟨[], bytes, later, rfl, by simp, spent, heldAfter⟩
  | case2 => simp at taken
  | case3 => simp at taken
  | case4 => simp at taken
  | case5 source byte after' taking notLineFeed fault' rest failed ih =>
      obtain ⟨rfl, rfl⟩ := by simpa using taken
      obtain ⟨behind, rfl, heldAfter⟩ := faithful.byte held taking
      obtain ⟨text, left, later, rfl, unbroken, spent, heldLeft⟩ := ih heldAfter failed
      have distinct : Byte.lineFeed ≠ byte := Ne.symm (by simpa using notLineFeed)
      exact ⟨byte :: text, left, later, rfl, by simp [distinct, unbroken], spent, heldLeft⟩

theorem Faithful.takeAll (faithful : Faithful depth account) {front : Bytes}
    (held : account source bytes failures)
    (taken : ByteSource.takeAll source = (front, none, after)) : front = bytes := by
  fun_induction ByteSource.takeAll source generalizing bytes front with
  | case1 => simp at taken
  | case2 source after' taking =>
      obtain ⟨rfl, rfl⟩ := by simpa using taken
      exact (faithful.ending held taking).1.symm
  | case3 source byte after' taking rest fault left recursive ih =>
      obtain ⟨rfl, rfl, rfl⟩ := by simpa using taken
      obtain ⟨behind, rfl, heldAfter⟩ := faithful.byte held taking
      rw [ih heldAfter recursive]

theorem Faithful.takeAllFailure (faithful : Faithful depth account) {front : Bytes}
    {fault : Fault} (held : account source bytes failures)
    (taken : ByteSource.takeAll source = (front, some fault, after)) :
    ∃ left later, bytes = front ++ left ∧ failures = left :: later ∧ account after left later := by
  fun_induction ByteSource.takeAll source generalizing bytes front with
  | case1 source fault' after' taking =>
      obtain ⟨rfl, rfl, rfl⟩ := by simpa using taken
      obtain ⟨later, spent, heldAfter⟩ := faithful.takeFailure held taking
      exact ⟨bytes, later, rfl, spent, heldAfter⟩
  | case2 => simp at taken
  | case3 source byte after' taking rest fault' left recursive ih =>
      obtain ⟨rfl, rfl, rfl⟩ := by simpa using taken
      obtain ⟨behind, rfl, heldAfter⟩ := faithful.byte held taking
      obtain ⟨unread, later, rfl, spent, heldLeft⟩ := ih heldAfter recursive
      exact ⟨unread, later, rfl, spent, heldLeft⟩

end ByteSource

end LenientMime
