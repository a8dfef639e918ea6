import LenientMime.Stream.Slice

namespace LenientMime.Bytes

/-- The lines, each with its line feed. -/
def lines : Bytes → List Bytes
  | [] => []
  | byte :: rest =>
      if byte == Byte.lineFeed then [byte] :: lines rest
      else
        match lines rest with
        | [] => [[byte]]
        | first :: later => (byte :: first) :: later

def Complete (bytes : Bytes) : Prop :=
  bytes = [] ∨ bytes.getLast? = some Byte.lineFeed

/-- The bytes without one line break at their end. -/
def dropLineEnd : Bytes → Bytes
  | [] => []
  | [Byte.lineFeed] => []
  | [Byte.carriageReturn, Byte.lineFeed] => []
  | byte :: rest => byte :: dropLineEnd rest

theorem dropLineEnd_cons {byte : UInt8} {bytes : Bytes} (nonempty : bytes ≠ [])
    (noBreak : byte = Byte.carriageReturn → bytes ≠ [Byte.lineFeed]) :
    dropLineEnd (byte :: bytes) = byte :: dropLineEnd bytes := by
  cases bytes with
  | nil => contradiction
  | cons next rest =>
      rw [dropLineEnd]
      · simp
      · intro half same
        exact noBreak half (by simpa using same)

/-- What stands in front of a line end stays. -/
theorem length_le_dropLineEnd {text : Bytes} (rest : Bytes) (unbroken : Byte.lineFeed ∉ text)
    (noReturn : text.getLast? ≠ some Byte.carriageReturn) :
    text.length ≤ (dropLineEnd (text ++ rest)).length := by
  induction text with
  | nil => exact Nat.zero_le _
  | cons byte text ih =>
      obtain ⟨here, behind⟩ := List.ne_and_not_mem_of_not_mem_cons unbroken
      cases text with
      | nil =>
          have solid : byte ≠ Byte.carriageReturn := fun same => noReturn (same ▸ rfl)
          cases rest with
          | nil => simp [dropLineEnd, Ne.symm here]
          | cons next rest =>
              rw [List.cons_append, dropLineEnd_cons (by simp) fun half => absurd half solid]
              simp
      | cons next text =>
          have later := ih behind (by simpa [List.getLast?_cons] using noReturn)
          have noFeed : next ≠ Byte.lineFeed := fun same => behind (same ▸ List.mem_cons_self)
          have goesOn : dropLineEnd (byte :: (next :: text ++ rest)) =
              byte :: dropLineEnd (next :: text ++ rest) :=
            dropLineEnd_cons (by simp) fun _ same => noFeed (List.cons.inj same).1
          rw [List.cons_append, goesOn]
          exact Nat.succ_le_succ later

@[simp] theorem lines_nil : lines [] = [] :=
  rfl

@[simp] theorem lines_lineFeed (rest : Bytes) :
    lines (Byte.lineFeed :: rest) = [Byte.lineFeed] :: lines rest := by
  simp [lines]

theorem lines_cons {byte : UInt8} {rest line : Bytes} {later : List Bytes}
    (distinct : byte ≠ Byte.lineFeed) (cut : lines rest = line :: later) :
    lines (byte :: rest) = (byte :: line) :: later := by
  simp [lines, distinct, cut]

theorem lines_singleton {byte : UInt8} (distinct : byte ≠ Byte.lineFeed) :
    lines [byte] = [[byte]] := by
  simp [lines, distinct]

theorem lines_ne_nil {bytes : Bytes} (nonempty : bytes ≠ []) : lines bytes ≠ [] := by
  cases bytes with
  | nil => contradiction
  | cons byte rest =>
      simp only [lines]
      split
      · simp
      · split <;> simp

theorem flatten_lines (bytes : Bytes) : (lines bytes).flatten = bytes := by
  induction bytes with
  | nil => rfl
  | cons byte rest ih =>
      simp only [lines]
      split
      · simp [ih]
      · cases cut : lines rest with
        | nil => simpa [cut] using ih
        | cons first later => simpa [cut] using ih

theorem lines_line {text : Bytes} (rest : Bytes) (unbroken : Byte.lineFeed ∉ text) :
    lines (text ++ Byte.lineFeed :: rest) = (text ++ [Byte.lineFeed]) :: lines rest := by
  induction text with
  | nil => simp
  | cons byte text ih =>
      obtain ⟨here, later⟩ := List.ne_and_not_mem_of_not_mem_cons unbroken
      exact lines_cons (Ne.symm here) (ih later)

theorem lines_unbroken {text : Bytes} (unbroken : Byte.lineFeed ∉ text) (nonempty : text ≠ []) :
    lines text = [text] := by
  induction text with
  | nil => contradiction
  | cons byte text ih =>
      obtain ⟨here, later⟩ := List.ne_and_not_mem_of_not_mem_cons unbroken
      cases text with
      | nil => exact lines_singleton (Ne.symm here)
      | cons next text => exact lines_cons (Ne.symm here) (ih later (by simp))

/-- Text without a line feed stands at the front of one line. -/
theorem exists_lines_append {text : Bytes} (rest : Bytes) (unbroken : Byte.lineFeed ∉ text)
    (nonempty : text ≠ []) : ∃ more later, lines (text ++ rest) = (text ++ more) :: later := by
  induction text with
  | nil => contradiction
  | cons byte text ih =>
      obtain ⟨here, behind⟩ := List.ne_and_not_mem_of_not_mem_cons unbroken
      cases text with
      | nil =>
          cases cut : lines rest with
          | nil => exact ⟨[], [], by simp [lines, Ne.symm here, cut]⟩
          | cons first later => exact ⟨first, later, lines_cons (Ne.symm here) cut⟩
      | cons next text =>
          obtain ⟨more, later, cut⟩ := ih behind (by simp)
          exact ⟨more, later, lines_cons (Ne.symm here) cut⟩

theorem exists_complete_append (bytes : Bytes) :
    ∃ whole text, bytes = whole ++ text ∧ Complete whole ∧ Byte.lineFeed ∉ text := by
  induction bytes with
  | nil => exact ⟨[], [], rfl, .inl rfl, by simp⟩
  | cons byte rest ih =>
      obtain ⟨whole, text, rfl, complete, unbroken⟩ := ih
      by_cases ends : whole = [] ∧ byte ≠ Byte.lineFeed
      · obtain ⟨rfl, distinct⟩ := ends
        exact ⟨[], byte :: text, rfl, .inl rfl, by simp [unbroken, Ne.symm distinct]⟩
      · refine ⟨byte :: whole, text, rfl, .inr ?_, unbroken⟩
        rcases complete with rfl | last
        · simpa using ends
        · simp [List.getLast?_cons, last]

theorem lines_append {whole : Bytes} (rest : Bytes) (complete : Complete whole) :
    lines (whole ++ rest) = lines whole ++ lines rest := by
  induction whole with
  | nil => rfl
  | cons byte whole ih =>
      rcases complete with impossible | last
      · contradiction
      · cases whole with
        | nil =>
            obtain rfl : byte = Byte.lineFeed := by simpa using last
            simp
        | cons next whole =>
            have tail := ih (.inr (by simpa [List.getLast?_cons] using last))
            have shown := lines_ne_nil (show next :: whole ≠ [] by simp)
            rw [List.cons_append, lines, tail]
            rw [lines.eq_2 byte (next :: whole)]
            split
            · rfl
            · cases cut : lines (next :: whole) with
              | nil => contradiction
              | cons first later => rfl

theorem Complete.tail {byte : UInt8} {bytes : Bytes} (complete : Complete (byte :: bytes)) :
    Complete bytes := by
  rcases complete with impossible | last
  · contradiction
  · cases bytes with
    | nil => exact .inl rfl
    | cons next bytes => exact .inr (by simpa [List.getLast?_cons] using last)

theorem closed_of_complete {bytes : Bytes} (complete : Complete bytes) :
    ∀ line ∈ lines bytes, line.getLast? = some Byte.lineFeed := by
  induction bytes with
  | nil => simp
  | cons byte rest ih =>
      have later := ih complete.tail
      by_cases feed : byte = Byte.lineFeed
      · subst feed
        simpa using later
      · cases cut : lines rest with
        | nil =>
            rw [show rest = [] by simpa [cut] using (flatten_lines rest).symm] at complete
            rcases complete with impossible | last
            · contradiction
            · exact absurd (by simpa using last) feed
        | cons first others =>
            rw [cut] at later
            rw [lines_cons feed cut]
            have closed := later first (by simp)
            intro line member
            rcases List.mem_cons.mp member with rfl | member
            · rw [List.getLast?_cons, closed]
              rfl
            · exact later line (by simp [member])

/-- The first line ends at the first line feed, or holds none and is the last. -/
theorem lines_eq_cons {bytes line : Bytes} {later : List Bytes}
    (cut : lines bytes = line :: later) :
    lines later.flatten = later ∧ ∃ text, Byte.lineFeed ∉ text ∧
      (line = text ++ [Byte.lineFeed] ∨ line = text ∧ text ≠ [] ∧ later = []) := by
  induction bytes generalizing line with
  | nil => simp at cut
  | cons byte rest ih =>
      simp only [lines] at cut
      split at cut
      · next ends =>
        obtain ⟨rfl, rfl⟩ := by simpa using cut
        obtain rfl : byte = Byte.lineFeed := by simpa using ends
        exact ⟨by rw [flatten_lines], [], by simp, .inl rfl⟩
      · next goesOn =>
        have distinct : Byte.lineFeed ≠ byte := by simpa using Ne.symm (by simpa using goesOn)
        cases inner : lines rest with
        | nil =>
            obtain ⟨rfl, rfl⟩ := by simpa [inner] using cut
            exact ⟨rfl, [byte], by simpa using distinct, .inr ⟨rfl, by simp, rfl⟩⟩
        | cons first others =>
            obtain ⟨rfl, rfl⟩ := by simpa [inner] using cut
            obtain ⟨kept, text, unbroken, shape⟩ := ih inner
            refine ⟨kept, byte :: text, by simp [distinct, unbroken], ?_⟩
            rcases shape with rfl | ⟨rfl, -, rfl⟩
            · exact .inl rfl
            · exact .inr ⟨rfl, by simp, rfl⟩

theorem lines_flatten {bytes : Bytes} {front back : List Bytes}
    (cut : lines bytes = front ++ back) : lines back.flatten = back := by
  induction front generalizing bytes with
  | nil =>
      obtain rfl : lines bytes = back := cut
      rw [flatten_lines]
  | cons line front ih => exact ih (lines_eq_cons cut).1

theorem eq_nil_of_openLine {bytes line : Bytes} {later : List Bytes}
    (cut : lines bytes = line :: later) (opened : line.getLast? ≠ some Byte.lineFeed) :
    later = [] := by
  obtain ⟨-, text, -, rfl | ⟨-, -, last⟩⟩ := lines_eq_cons cut
  · simp at opened
  · exact last

end LenientMime.Bytes

namespace LenientMime.ByteSource

theorem takeLine_slice (bytes : Bytes) :
    takeLine bytes = (.ok (bytes.lines.headD []), bytes.lines.tail.flatten) := by
  induction bytes with
  | nil =>
      rw [takeLine]
      rfl
  | cons byte rest ih =>
      rw [takeLine]
      simp only [take, ih, Bytes.lines]
      split
      · simp [Bytes.flatten_lines]
      · cases cut : Bytes.lines rest <;> simp

end LenientMime.ByteSource
