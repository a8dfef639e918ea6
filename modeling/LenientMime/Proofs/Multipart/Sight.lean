import LenientMime.Proofs.Multipart.Preamble

namespace LenientMime.Multipart

open Bytes

/-- What may stand between content and a boundary line: the line break that belongs to it, or
nothing. -/
def IsLead (lead : Bytes) : Prop :=
  lead = [] ∨ lead = [Byte.lineFeed] ∨ lead = [Byte.carriageReturn, Byte.lineFeed]

/-- What a part leaves behind: nothing, or the body from a boundary line on. -/
def Awaits (boundary : Text) (body bytes : Bytes) : Prop :=
  bytes = [] ∨ ∃ lead tail, bytes = lead ++ tail ∧ IsLead lead ∧
    Byte.lineFeed :: tail <:+ body ∧ opensBoundary boundary (lines tail) = true

/-- How far a reader looks that stops in front of these bytes: at a line break, at the
delimiter and at two bytes more. -/
def sight (boundary : Text) (bytes : Bytes) : Nat :=
  ((leadOf? true bytes).getD []).length + (delimiter boundary).length + 2

section Bytes

variable {boundary : Text} {body bytes lead tail : Bytes} {atStart : Bool}

theorem IsLead.complete (isLead : IsLead lead) : Complete lead := by
  rcases isLead with rfl | rfl | rfl
  · exact .inl rfl
  · exact .inr rfl
  · exact .inr rfl

theorem isLead_of_leadOf? (found : leadOf? atStart bytes = some lead) :
    IsLead lead ∧ (lead = [] → atStart = true) := by
  cases bytes with
  | nil => simp [leadOf?] at found
  | cons byte rest =>
      rw [PartReader.leadOf?_cons] at found
      grind [IsLead]

theorem sight_delimiter (isLead : IsLead lead) (rest : Bytes) :
    sight boundary (lead ++ delimiter boundary ++ rest) =
      lead.length + (delimiter boundary).length + 2 := by
  rcases isLead with rfl | rfl | rfl <;> rfl

theorem sight_append {byte : UInt8} (front back : Bytes) :
    sight boundary (byte :: front ++ back) = sight boundary (byte :: front) := by
  rw [sight, sight, List.cons_append, PartReader.leadOf?_cons, PartReader.leadOf?_cons]

theorem exists_delimiter_of_opensBoundary (unbroken : '\n' ∉ boundary)
    (opens : opensBoundary boundary (lines tail) = true) :
    ∃ rest, tail = delimiter boundary ++ rest := by
  rw [← showsDelimiter_eq_opensBoundary unbroken] at opens
  obtain ⟨rest, same, -⟩ := showsDelimiter_iff.mp opens
  exact ⟨rest, same⟩

theorem awaits_of_startsDelimiter (unbroken : '\n' ∉ boundary) (within : bytes <:+ body)
    (front : atStart = true → Byte.lineFeed :: bytes <:+ body)
    (starts : startsDelimiter boundary atStart bytes = true) : Awaits boundary body bytes := by
  rw [startsDelimiter] at starts
  split at starts
  · contradiction
  · next lead found =>
    obtain ⟨rest, rfl, ends⟩ := showsDelimiter_iff.mp starts
    rw [List.append_assoc] at *
    have opens : opensBoundary boundary (lines (delimiter boundary ++ rest)) = true := by
      rw [← showsDelimiter_eq_opensBoundary unbroken]
      exact showsDelimiter_iff.mpr ⟨rest, rfl, ends⟩
    obtain ⟨isLead, fresh⟩ := isLead_of_leadOf? found
    refine .inr ⟨lead, _, rfl, isLead, ?_, opens⟩
    rcases isLead with rfl | rfl | rfl
    · exact front (fresh rfl)
    · exact within
    · exact (List.suffix_cons _ _).trans within

/-- Content is cut in front of a boundary line of the body. -/
theorem awaits_cutContent (unbroken : '\n' ∉ boundary) (within : bytes <:+ body)
    (front : atStart = true → Byte.lineFeed :: bytes <:+ body) :
    Awaits boundary body (cutContent boundary atStart bytes).2 := by
  induction bytes generalizing atStart with
  | nil => exact .inl rfl
  | cons byte rest ih =>
      rw [cutContent]
      split
      · next starts => exact awaits_of_startsDelimiter unbroken within front starts
      · exact ih ((List.suffix_cons _ _).trans within) (by simp)

/-- No boundary line behind a line feed is cut off with content. -/
theorem suffix_cutContent (unbroken : '\n' ∉ boundary)
    (opens : opensBoundary boundary (lines tail) = true)
    (inside : Byte.lineFeed :: tail <:+ bytes) :
    Byte.lineFeed :: tail <:+ (cutContent boundary atStart bytes).2 := by
  induction bytes generalizing atStart with
  | nil => simp at inside
  | cons byte rest ih =>
      rw [cutContent]
      split
      · exact inside
      · next goesOn =>
        rcases List.suffix_cons_iff.mp inside with same | behind
        · obtain ⟨rfl, rfl⟩ := List.cons.inj same
          rw [startsDelimiter_lineFeed unbroken] at goesOn
          contradiction
        · exact ih behind

end Bytes

namespace PartReader

section Window

variable {ρ : Type} [BlockReader ρ] {reader : PartReader (Lookahead ρ)} {boundary : Text}
  {atStart : Bool} {view after : Lookahead ρ}

theorem boundaryAhead_sees (looked : boundaryAhead boundary atStart view = (.ok true, after)) :
    after.Sees (sight boundary after.window) := by
  simp only [boundaryAhead] at looked
  split at looked
  · simp at looked
  · split at looked
    · simp at looked
    · next lead found =>
      split at looked
      · simp at looked
      · next shown view' looking =>
        obtain ⟨shows, rfl⟩ := by simpa using looked
        obtain ⟨rfl, sees⟩ := Lookahead.sees_of_peek looking
        rw [showsDelimiter_take] at shows
        obtain ⟨rest, whole, -⟩ := showsDelimiter_iff.mp shows
        rw [whole, sight_delimiter (isLead_of_leadOf? found).1]
        exact sees

/-- A reader that stands behind content has its window reach behind the next delimiter. -/
def Watches (reader : PartReader (Lookahead ρ)) : Prop :=
  reader.phase = .between → reader.source.Sees (sight reader.boundary reader.source.window)

theorem Watches.scan (watches : reader.Watches) (wanted : Nat) :
    (PartReader.scan wanted reader).reader.Watches := by
  fun_induction PartReader.scan wanted reader with
  | case1 reader => exact watches
  | case2 wanted reader behind => exact watches
  | case3 wanted reader atStart inside fault source looked
  | case5 wanted reader atStart inside source looked fault after taken =>
      intro behind
      exact absurd (inside.symm.trans behind) (by simp)
  | case4 wanted reader atStart inside source looked => exact fun _ => boundaryAhead_sees looked
  | case6 wanted reader atStart inside source looked after taken =>
      exact fun _ => .inr (Lookahead.ended_of_take taken)
  | case7 wanted reader atStart inside source looked byte after taken ih =>
      exact ih fun behind => absurd behind (by simp)

theorem Watches.read {limit : Nat} {result : Except Fault Bytes}
    {after : PartReader (Lookahead ρ)} (watches : reader.Watches)
    (reading : reader.read limit = (result, after)) : after.Watches := by
  have scanned := watches.scan (limit - reader.scanned.length)
  simp only [PartReader.read] at reading
  split at reading
  · obtain ⟨-, rfl⟩ := Prod.mk.inj reading
    exact scanned
  · obtain ⟨-, rfl⟩ := Prod.mk.inj reading
    exact scanned

theorem Watches.discard {fault : Option Fault} {after : PartReader (Lookahead ρ)}
    (watches : reader.Watches) (discarded : BlockReader.discard reader = (fault, after)) :
    after.Watches := by
  fun_induction BlockReader.discard reader with
  | case1 reader after reading ih => exact ih (watches.read reading) discarded
  | case2 reader fault after counted reading | case3 reader after reading =>
      obtain ⟨-, rfl⟩ := Prod.mk.inj discarded
      exact watches.read reading
  | case4 reader byte block after reading ih => exact ih (watches.read reading) discarded

/-- Between parts no failure strikes before the delimiter is passed. -/
theorem Mirrors.ahead {account : ρ → Bytes → List Bytes → Prop} {depth : Nat}
    {twin : PartReader Bytes} {failures : List Bytes} (faithful : BlockReader.Faithful account)
    (mirrors : Mirrors (Lookahead.Holds account depth) depth reader twin failures)
    (watches : reader.Watches) (behind : twin.phase = .between) :
    ∀ place ∈ failures, ∃ seen, sight twin.boundary twin.source ≤ seen.length ∧
      twin.source = seen ++ place := by
  obtain ⟨view, rfl, holds, -⟩ := mirrors
  have sees : view.Sees (sight twin.boundary view.window) := watches behind
  have enough : view.Sees (sight twin.boundary twin.source) := by
    obtain ⟨-, unread, whole, -⟩ := holds
    refine sees.imp_left fun wide => ?_
    cases shown : view.window with
    | nil => simp [shown, sight] at wide
    | cons byte front =>
        rw [whole, shown, sight_append]
        rwa [shown] at wide
  exact holds.ahead faithful enough

end Window

end PartReader

end LenientMime.Multipart
