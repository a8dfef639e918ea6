import LenientMime.Proofs.EncodedWord.Scan

namespace LenientMime.EncodedWord

/-! The turns of the scanner.

The reading position goes back when a candidate fails, to the text behind the first two
characters of the candidate.  Still no character is read more than twice: what was read of
a candidate holds no start of another one, so what is read again is plain throughout.  And
where a candidate begins is passed for good with it: the text from there on is never whole
again in front of the scanner.
-/

variable {codec : Codec} {form : Form} {text : Text}

theorem Place.rank_cases (place : Place) : place.rank = 2 ∨ place.rank = 1 ∨ place.rank = 0 := by
  cases place <;> simp [rank]

namespace Scanner

variable {scanner next : Scanner}

/-- What one turn can do. -/
inductive Moves (scanner next : Scanner) : Prop where
  | reads (c : Char) (between : scanner.place.rank = 2) (goesOn : next.place.rank = 2)
      (shown : scanner.ahead = c :: next.ahead)
  | begins (between : scanner.place.rank = 2) (opened : next.place = .charset [])
      (shown : scanner.ahead = '=' :: '?' :: next.ahead)
  | readsOn (inside : scanner.place.rank = 1) (goesOn : next.place.rank = 1)
      (same : next.start = scanner.start) (shorter : next.ahead.length < scanner.ahead.length)
  | fails (inside : scanner.place.rank = 1) (failed : next.place = .failed scanner.place.seen)
      (same : next.ahead = scanner.ahead)
  | ends (inside : scanner.place.rank = 1) (behind : next.place = .behindWord)
      (shown : scanner.ahead = '?' :: '=' :: next.ahead)
  | recovers (failed : scanner.place.rank = 0) (plain : next.place = .plain)
      (again : next.ahead = scanner.place.seen.reverse ++ scanner.ahead)

section Steps

variable {held rest label : Text} {afterWord : Bool} {place stay : Place} {c : Char}

theorem atGap_moves (candidateAfterWord : Bool) (between : place.rank = 2)
    (stays : stay.rank = 2) :
    Moves ⟨place, held, afterWord, c :: rest⟩
      (atGap stay candidateAfterWord ⟨place, held, afterWord, c :: rest⟩ c rest) := by
  unfold atGap
  split
  · exact .reads c between stays rfl
  · split
    · exact .begins between rfl rfl
    · exact .reads c between rfl rfl

theorem atCharset_moves :
    Moves ⟨.charset label, held, afterWord, c :: rest⟩
      (atCharset label ⟨.charset label, held, afterWord, c :: rest⟩ c rest) := by
  unfold atCharset
  split
  · next mark =>
    obtain ⟨rfl, -⟩ : c = '?' ∧ label ≠ [] := by simpa using mark
    exact .readsOn rfl rfl (by simp [start, Place.candidate, Place.seen]) (by simp)
  · split
    · exact .readsOn rfl rfl (by simp [start, Place.candidate, Place.seen]) (by simp)
    · exact .fails rfl rfl rfl

theorem atEncoding_moves :
    Moves ⟨.encoding label, held, afterWord, c :: rest⟩
      (atEncoding label ⟨.encoding label, held, afterWord, c :: rest⟩ c rest) := by
  unfold atEncoding
  split
  · refine .readsOn rfl rfl (by simp [start, Place.candidate, Place.seen]) ?_
    exact Nat.lt_succ_of_lt (Nat.lt_succ_self _)
  · exact .fails rfl rfl rfl

theorem atPayload_moves (codec : Codec) (form : Form) {letter : Char} {encoding : Encoding}
    {text : Text} :
    Moves ⟨.payload label letter encoding text, held, afterWord, c :: rest⟩
      (atPayload codec form label letter encoding text
        ⟨.payload label letter encoding text, held, afterWord, c :: rest⟩ c rest).2 := by
  unfold atPayload
  split
  · unfold finish
    split
    · exact .ends rfl rfl rfl
    · exact .fails rfl rfl rfl
  · split
    · exact .readsOn rfl rfl (by simp [start, Place.candidate, Place.seen]) (by simp)
    · exact .fails rfl rfl rfl

theorem step_moves (codec : Codec) (form : Form) (shown : scanner.ahead = c :: rest) :
    scanner.Moves (scanner.step codec form c rest).2 := by
  obtain ⟨place, held, afterWord, ahead⟩ := scanner
  subst shown
  cases place with
  | blank => exact atGap_moves false rfl rfl
  | plain =>
      refine .reads c rfl ?_ rfl
      change (if isSpacing c then Place.blank else Place.plain).rank = 2
      split <;> rfl
  | charset label => exact atCharset_moves
  | encoding label => exact atEncoding_moves
  | payload label letter encoding text => exact atPayload_moves codec form
  | behindWord => exact atGap_moves true rfl rfl
  | failed seen => exact .recovers rfl rfl rfl

end Steps

theorem start_of_between (between : scanner.place.rank = 2) : scanner.start = scanner.ahead := by
  rw [start, Place.candidate_of_between between, List.nil_append]

theorem start_of_candidate (candidate : scanner.place.rank ≠ 2) :
    scanner.start = '=' :: '?' :: (scanner.place.seen.reverse ++ scanner.ahead) := by
  obtain ⟨place, held, afterWord, ahead⟩ := scanner
  cases place <;> first | rfl | exact absurd rfl candidate

theorem length_start (scanner : Scanner) : scanner.start.length = scanner.extent :=
  List.length_append

theorem run_of_ended (ended : scanner.ahead = []) :
    scanner.run codec form = scanner.unwritten := by
  rw [run]
  split
  · rfl
  · next shown => exact absurd (ended.symm.trans shown) (List.cons_ne_nil _ _).symm

theorem run_of_shown {c : Char} {rest : Text} (shown : scanner.ahead = c :: rest) :
    scanner.run codec form = (scanner.step codec form c rest).1 ++
      (scanner.step codec form c rest).2.run codec form := by
  rw [run]
  split
  · next ended => exact absurd (shown.symm.trans ended) (List.cons_ne_nil _ _)
  · next again =>
    obtain ⟨rfl, rfl⟩ := List.cons.inj (shown.symm.trans again)
    rfl

theorem Moves.inside_of_between (moves : scanner.Moves next)
    (between : scanner.place.rank = 2) (candidate : next.place.rank ≠ 2) :
    next.place.rank = 1 := by
  cases moves with
  | reads c between goesOn shown => exact absurd goesOn candidate
  | begins between opened shown => exact congrArg Place.rank opened
  | readsOn inside goesOn same shorter => exact goesOn
  | fails inside failed same => exact absurd (between.symm.trans inside) (by decide)
  | ends inside behind shown => exact absurd (congrArg Place.rank behind) candidate
  | recovers failed plain again => exact absurd (congrArg Place.rank plain) candidate

/-- A candidate that is not at its end begins where it began. -/
theorem Moves.start_eq (moves : scanner.Moves next) (candidate : next.place.rank ≠ 2) :
    next.start = scanner.start := by
  cases moves with
  | reads c between goesOn shown => exact absurd goesOn candidate
  | begins between opened shown =>
      rw [start_of_between between, start, opened, shown]
      rfl
  | readsOn inside goesOn same shorter => exact same
  | fails inside failed same =>
      have same : next.start = '=' :: '?' :: (scanner.place.seen.reverse ++ scanner.ahead) := by
        rw [start, failed, same]
        rfl
      rw [same, start_of_candidate (by omega)]
  | ends inside behind shown => exact absurd (congrArg Place.rank behind) candidate
  | recovers failed plain again => exact absurd (congrArg Place.rank plain) candidate

theorem Moves.start_suffix (moves : scanner.Moves next) : next.start <:+ scanner.start := by
  by_cases candidate : next.place.rank = 2
  · rw [start_of_between candidate]
    cases moves with
    | reads c between goesOn shown =>
        rw [start_of_between between, shown]
        exact List.suffix_cons c next.ahead
    | begins between opened shown =>
        rw [start_of_between between, shown]
        exact ⟨['=', '?'], rfl⟩
    | readsOn inside goesOn same shorter => exact absurd (candidate.symm.trans goesOn) (by decide)
    | fails inside failed same =>
        rw [same]
        exact List.suffix_append scanner.place.candidate scanner.ahead
    | ends inside behind shown =>
        rw [start, shown]
        exact ⟨scanner.place.candidate ++ ['?', '='], by simp⟩
    | recovers failed plain again =>
        rw [start_of_candidate (by omega), again]
        exact ⟨['=', '?'], rfl⟩
  · exact ⟨[], moves.start_eq candidate⟩

/-- The turns that may still come: two for a character that was not read yet, and one for
a character that is read again. -/
def Due (scanner : Scanner) (count : Nat) : Prop :=
  match scanner.place.rank with
  | 0 => ¬ ['=', '?'] <:+: scanner.place.seen.reverse ∧
      1 + scanner.place.seen.length + 2 * scanner.ahead.length ≤ count
  | 1 => 2 + scanner.place.seen.length + 2 * scanner.ahead.length ≤ count
  | _ => ∃ again fresh : Text, scanner.ahead = again ++ fresh ∧ ¬ ['=', '?'] <:+: again ∧
      again.length + 2 * fresh.length ≤ count

section Due

variable {count : Nat}

theorem due_failed_iff (failed : scanner.place.rank = 0) :
    scanner.Due count ↔ ¬ ['=', '?'] <:+: scanner.place.seen.reverse ∧
      1 + scanner.place.seen.length + 2 * scanner.ahead.length ≤ count := by
  simp only [Due, failed]

theorem due_inside_iff (inside : scanner.place.rank = 1) :
    scanner.Due count ↔
      2 + scanner.place.seen.length + 2 * scanner.ahead.length ≤ count := by
  simp only [Due, inside]

theorem due_between_iff (between : scanner.place.rank = 2) :
    scanner.Due count ↔ ∃ again fresh : Text, scanner.ahead = again ++ fresh ∧
      ¬ ['=', '?'] <:+: again ∧ again.length + 2 * fresh.length ≤ count := by
  simp only [Due, between]

theorem due_of_between (between : scanner.place.rank = 2)
    (enough : 2 * scanner.ahead.length ≤ count) : scanner.Due count :=
  (due_between_iff between).mpr ⟨[], scanner.ahead, rfl, by decide, by simpa using enough⟩

theorem Due.ended (due : scanner.Due 0) : scanner.ahead = [] := by
  rcases scanner.place.rank_cases with between | inside | failed
  · obtain ⟨again, fresh, parts, -, enough⟩ := (due_between_iff between).mp due
    rw [parts, List.append_eq_nil_iff]
    exact ⟨List.length_eq_zero_iff.mp (by omega), List.length_eq_zero_iff.mp (by omega)⟩
  · have enough := (due_inside_iff inside).mp due
    omega
  · have enough := ((due_failed_iff failed).mp due).2
    omega

theorem Due.reads {c : Char} (due : scanner.Due (count + 1)) (between : scanner.place.rank = 2)
    (goesOn : next.place.rank = 2) (shown : scanner.ahead = c :: next.ahead) : next.Due count := by
  obtain ⟨again, fresh, parts, quiet, enough⟩ := (due_between_iff between).mp due
  rw [shown] at parts
  cases again with
  | nil =>
      obtain rfl : c :: next.ahead = fresh := parts
      simp only [List.length_cons, List.length_nil] at enough
      exact due_of_between goesOn (by omega)
  | cons first again =>
      obtain ⟨-, parts⟩ := List.cons.inj parts
      rw [List.length_cons] at enough
      exact (due_between_iff goesOn).mpr
        ⟨again, fresh, parts, fun inner => quiet (List.infix_cons inner), by omega⟩

/-- A candidate begins in text that was not read yet, but for its first character. -/
theorem Due.begins (due : scanner.Due (count + 1)) (between : scanner.place.rank = 2)
    (opened : next.place = .charset []) (shown : scanner.ahead = '=' :: '?' :: next.ahead) :
    next.Due count := by
  obtain ⟨again, fresh, parts, quiet, enough⟩ := (due_between_iff between).mp due
  have short : again.length < 2 := by
    refine Nat.lt_of_not_le fun long => quiet (List.IsPrefix.isInfix ?_)
    exact List.prefix_of_prefix_length_le ⟨next.ahead, shown.symm⟩ ⟨fresh, parts.symm⟩ long
  have length := congrArg List.length (shown.symm.trans parts)
  simp only [List.length_cons, List.length_append] at length
  refine (due_inside_iff (congrArg Place.rank opened)).mpr ?_
  rw [opened, Place.seen, List.length_nil]
  omega

/-- Every turn is paid for. -/
theorem Moves.due (moves : scanner.Moves next) (sound : scanner.Sound codec)
    (due : scanner.Due (count + 1)) : next.Due count := by
  cases moves with
  | reads c between goesOn shown => exact due.reads between goesOn shown
  | begins between opened shown => exact due.begins between opened shown
  | readsOn inside goesOn same shorter =>
      have enough := (due_inside_iff inside).mp due
      rw [start_of_candidate (by omega), start_of_candidate (by omega)] at same
      have length := congrArg List.length same
      simp only [List.length_cons, List.length_append, List.length_reverse] at length
      exact (due_inside_iff goesOn).mpr (by omega)
  | fails inside failed same =>
      -- Nothing begins in what was read, so that reading it again takes one turn for a character.
      have enough := (due_inside_iff inside).mp due
      refine (due_failed_iff (congrArg Place.rank failed)).mpr ?_
      rw [failed, Place.seen, same]
      exact ⟨quiet_seen inside sound.place, by omega⟩
  | ends inside behind shown =>
      have enough := (due_inside_iff inside).mp due
      simp only [shown, List.length_cons] at enough
      exact due_of_between (congrArg Place.rank behind) (by omega)
  | recovers failed plain again =>
      obtain ⟨quiet, enough⟩ := (due_failed_iff failed).mp due
      refine (due_between_iff (congrArg Place.rank plain)).mpr ⟨_, _, again, quiet, ?_⟩
      rw [List.length_reverse]
      omega

end Due

end Scanner

/-- What is written and where the scanner stands after one more turn of its loop. -/
def turn (codec : Codec) (form : Form) (state : Text × Scanner) : Text × Scanner :=
  match state.2.ahead with
  | [] => state
  | c :: rest =>
      let stepped := state.2.step codec form c rest
      (state.1 ++ stepped.1, stepped.2)

def turns (codec : Codec) (form : Form) (text : Text) : Nat → Text × Scanner
  | 0 => ([], { ahead := text })
  | count + 1 => turn codec form (turns codec form text count)

/-- The scanner after so many turns. -/
def reached (codec : Codec) (form : Form) (text : Text) (count : Nat) : Scanner :=
  (turns codec form text count).2

/-- How much of the text lies behind the reading position after so many turns. -/
def position (codec : Codec) (form : Form) (text : Text) (count : Nat) : Nat :=
  text.length - (reached codec form text count).ahead.length

/-- The next turn takes up a candidate. -/
def TakesUp (codec : Codec) (form : Form) (text : Text) (count : Nat) : Prop :=
  (reached codec form text count).place.rank = 2 ∧
    (reached codec form text (count + 1)).place.rank = 1

section Turns

variable {count first later : Nat}

theorem turn_ended {state : Text × Scanner} (ended : state.2.ahead = []) :
    turn codec form state = state := by
  simp only [turn, ended]

theorem turn_shown {state : Text × Scanner} {c : Char} {rest : Text}
    (shown : state.2.ahead = c :: rest) :
    turn codec form state = (state.1 ++ (state.2.step codec form c rest).1,
      (state.2.step codec form c rest).2) := by
  simp only [turn, shown]

theorem turn_run (state : Text × Scanner) :
    (turn codec form state).1 ++ (turn codec form state).2.run codec form =
      state.1 ++ state.2.run codec form := by
  cases shown : state.2.ahead with
  | nil => rw [turn_ended shown]
  | cons c rest => rw [turn_shown shown, Scanner.run_of_shown shown, List.append_assoc]

theorem turns_run (codec : Codec) (form : Form) (text : Text) (count : Nat) :
    rewrite codec form text = (turns codec form text count).1 ++
      (reached codec form text count).run codec form := by
  induction count with
  | zero => rfl
  | succ count ih => exact ih.trans (turn_run (turns codec form text count)).symm

theorem reached_ended (ended : (reached codec form text count).ahead = []) :
    reached codec form text (count + 1) = reached codec form text count :=
  congrArg Prod.snd (turn_ended ended)

theorem reached_step (unread : (reached codec form text count).ahead ≠ []) :
    ∃ c rest, (reached codec form text count).ahead = c :: rest ∧
      reached codec form text (count + 1) =
        ((reached codec form text count).step codec form c rest).2 := by
  obtain ⟨c, rest, shown⟩ := List.exists_cons_of_ne_nil unread
  refine ⟨c, rest, shown, ?_⟩
  rw [reached, turns, turn_shown shown]
  rfl

theorem reached_precedes (unread : (reached codec form text count).ahead ≠ []) :
    (reached codec form text (count + 1)).Precedes (reached codec form text count) := by
  obtain ⟨c, rest, shown, same⟩ := reached_step unread
  rw [same]
  exact Scanner.step_precedes codec form shown

theorem reached_moves (unread : (reached codec form text count).ahead ≠ []) :
    (reached codec form text count).Moves (reached codec form text (count + 1)) := by
  obtain ⟨c, rest, shown, same⟩ := reached_step unread
  rw [same]
  exact Scanner.step_moves codec form shown

theorem reached_sound (codec : Codec) (form : Form) (text : Text) (count : Nat) :
    (reached codec form text count).Sound codec := by
  induction count with
  | zero => exact ⟨nofun, trivial⟩
  | succ count ih =>
      by_cases ended : (reached codec form text count).ahead = []
      · rwa [reached_ended ended]
      · obtain ⟨c, rest, shown, same⟩ := reached_step ended
        obtain ⟨segments, found⟩ := Segmented.exists_segments codec
          (reached codec form text count).place.mayStart (reached codec form text count).start
        have kept : Scanner.Keeps codec form _ segments
            ((reached codec form text count).step codec form c rest) :=
          Scanner.step_keeps ih shown found
        obtain ⟨_, sound, -⟩ := kept
        rwa [same]

theorem unread_of_failed {seen : Text}
    (failed : (reached codec form text count).place = .failed seen) :
    (reached codec form text count).ahead ≠ [] := by
  have sound := (reached_sound codec form text count).place
  rw [failed] at sound
  exact sound.1

/-- Nothing is in front of the scanner that was not there before. -/
theorem start_suffix (le : first ≤ later) :
    (reached codec form text later).start <:+ (reached codec form text first).start := by
  induction le with
  | refl => exact List.suffix_refl _
  | @step later le ih =>
      by_cases ended : (reached codec form text later).ahead = []
      · rwa [reached_ended ended]
      · exact (reached_moves ended).start_suffix.trans ih

theorem ahead_suffix (codec : Codec) (form : Form) (text : Text) (count : Nat) :
    (reached codec form text count).ahead <:+ text :=
  (List.suffix_append _ _).trans (start_suffix (Nat.zero_le count))

theorem reached_due {left : Nat} (all : count + left = 2 * text.length) :
    (reached codec form text count).ahead = [] ∨ (reached codec form text count).Due left := by
  induction count generalizing left with
  | zero =>
      have enough : 2 * text.length ≤ left := by omega
      exact .inr (Scanner.due_of_between rfl enough)
  | succ count ih =>
      by_cases ended : (reached codec form text count).ahead = []
      · exact .inl (by rwa [reached_ended ended])
      · have before : count + (left + 1) = 2 * text.length := by omega
        have due := (ih before).resolve_left ended
        exact .inr ((reached_moves ended).due (reached_sound codec form text count) due)

theorem reached_end (codec : Codec) (form : Form) (text : Text) :
    (reached codec form text (2 * text.length)).ahead = [] :=
  (reached_due (Nat.add_zero _)).elim id Scanner.Due.ended

/-- A candidate was taken up where it stands. -/
theorem exists_takesUp (candidate : (reached codec form text count).place.rank ≠ 2) :
    ∃ first < count, TakesUp codec form text first ∧
      (reached codec form text first).ahead = (reached codec form text count).start := by
  induction count with
  | zero => exact absurd rfl candidate
  | succ count ih =>
      by_cases ended : (reached codec form text count).ahead = []
      · rw [reached_ended ended] at candidate ⊢
        obtain ⟨first, before, takesUp, same⟩ := ih candidate
        exact ⟨first, Nat.lt_succ_of_lt before, takesUp, same⟩
      · have moves := reached_moves ended
        rw [moves.start_eq candidate]
        by_cases between : (reached codec form text count).place.rank = 2
        · exact ⟨count, Nat.lt_succ_self count, ⟨between, moves.inside_of_between between candidate⟩,
            (Scanner.start_of_between between).symm⟩
        · obtain ⟨first, before, takesUp, same⟩ := ih between
          exact ⟨first, Nat.lt_succ_of_lt before, takesUp, same⟩

/-- Once a candidate is taken up, the text from there on is in front of the scanner only
as long as the candidate lasts. -/
theorem TakesUp.passes (takesUp : TakesUp codec form text first) (after : first < later) :
    (reached codec form text later).extent < (reached codec form text first).ahead.length ∨
      (reached codec form text later).extent = (reached codec form text first).ahead.length ∧
        (reached codec form text later).place.rank < 2 := by
  obtain ⟨between, inside⟩ := takesUp
  obtain ⟨gap, rfl⟩ := Nat.exists_eq_add_of_lt after
  clear after
  induction gap with
  | zero =>
      rw [Nat.add_zero]
      have unread : (reached codec form text first).ahead ≠ [] := by
        intro ended
        rw [reached_ended ended, between] at inside
        exact absurd inside (by decide)
      have same := (reached_moves unread).start_eq (by omega)
      rw [Scanner.start_of_between between] at same
      refine .inr ⟨?_, by omega⟩
      rw [← Scanner.length_start, same]
  | succ gap ih =>
      by_cases ended : (reached codec form text (first + gap + 1)).ahead = []
      · rwa [← Nat.add_assoc, reached_ended ended]
      · have precedes := reached_precedes ended
        rw [Scanner.Precedes] at precedes
        rw [← Nat.add_assoc]
        omega

theorem extent_of_between (between : (reached codec form text count).place.rank = 2) :
    (reached codec form text count).extent = (reached codec form text count).ahead.length := by
  rw [← Scanner.length_start, Scanner.start_of_between between]

/-- No candidate is taken up twice. -/
theorem TakesUp.unique (up : TakesUp codec form text first) (again : TakesUp codec form text later)
    (same : position codec form text first = position codec form text later) : first = later := by
  have distinct {i j : Nat} (up : TakesUp codec form text i) (again : TakesUp codec form text j)
      (before : i < j) : position codec form text i < position codec form text j := by
    have passed := up.passes before
    have here := (ahead_suffix codec form text i).length_le
    rw [extent_of_between again.1] at passed
    have between := again.1
    unfold position
    omega
  rcases Nat.lt_trichotomy first later with before | same | behind
  · exact absurd same (Nat.ne_of_lt (distinct up again before))
  · exact same
  · exact absurd same.symm (Nat.ne_of_lt (distinct again up behind))

/-- Behind a candidate that fails, the text from its third character on is read as plain
text. -/
theorem reached_recovered {seen : Text}
    (failed : (reached codec form text count).place = .failed seen) :
    (reached codec form text (count + 1)).place = .plain ∧
      (reached codec form text (count + 1)).ahead =
        seen.reverse ++ (reached codec form text count).ahead := by
  obtain ⟨c, rest, -, same⟩ := reached_step (unread_of_failed failed)
  rw [same, Scanner.step, failed]
  exact ⟨rfl, rfl⟩

/-- The loop ends after two turns for each character at the most, and writes what the
rewriting is.  No position starts a candidate twice; and behind a candidate that fails,
plain text is read from its third character on and no turn goes back in front of that. -/
theorem turns_end (codec : Codec) (form : Form) (text : Text) :
    (reached codec form text (2 * text.length)).ahead = [] ∧
      rewrite codec form text = (turns codec form text (2 * text.length)).1 ++
        (reached codec form text (2 * text.length)).unwritten ∧
      (∀ count, (reached codec form text count).ahead <:+ text) ∧
      (∀ first later, TakesUp codec form text first → TakesUp codec form text later →
        position codec form text first = position codec form text later → first = later) ∧
      ∀ count seen, (reached codec form text count).place = .failed seen →
        ∃ first < count, TakesUp codec form text first ∧
          (reached codec form text first).ahead =
            '=' :: '?' :: (seen.reverse ++ (reached codec form text count).ahead) ∧
          (reached codec form text (count + 1)).place = .plain ∧
          position codec form text (count + 1) = position codec form text first + 2 ∧
          ∀ later > count,
            position codec form text first + 2 ≤ position codec form text later := by
  refine ⟨reached_end codec form text, ?_, ahead_suffix codec form text,
    fun first later up again same => up.unique again same, fun count seen failed => ?_⟩
  · rw [turns_run codec form text (2 * text.length),
      Scanner.run_of_ended (reached_end codec form text)]
  · have candidate : (reached codec form text count).place.rank ≠ 2 := by simp [failed, Place.rank]
    obtain ⟨first, before, takesUp, same⟩ := exists_takesUp candidate
    obtain ⟨plain, again⟩ := reached_recovered failed
    have whole : (reached codec form text first).ahead =
        '=' :: '?' :: (reached codec form text (count + 1)).ahead := by
      rw [same, again, Scanner.start, failed]
      rfl
    have within := (ahead_suffix codec form text first).length_le
    rw [whole, List.length_cons, List.length_cons] at within
    refine ⟨first, before, takesUp, by rw [whole, again], plain, ?_, fun later behind => ?_⟩
    · unfold position
      rw [whole, List.length_cons, List.length_cons]
      omega
    · have passed : (reached codec form text later).start <:+
          (reached codec form text (count + 1)).start := start_suffix behind
      rw [Scanner.start_of_between (congrArg Place.rank plain)] at passed
      have shorter := ((List.suffix_append _ _).trans passed).length_le
      unfold position
      rw [whole, List.length_cons, List.length_cons]
      omega

/-- Both candidates begin behind a blank or at the start; the first one fails at the blank. -/
def reread : Text := "=?a =?b".toList

theorem turns_end_reread :
    (reached .standard .decoded reread 3).place = .failed ['a'] ∧
      (∃ first < 3, TakesUp .standard .decoded reread first ∧
        ∀ later > 3, position .standard .decoded reread first + 2 ≤
          position .standard .decoded reread later) ∧
      TakesUp .standard .decoded reread 6 ∧ position .standard .decoded reread 6 = 4 ∧
      ∀ later, TakesUp .standard .decoded reread later →
        position .standard .decoded reread later = 4 → later = 6 := by
  obtain ⟨-, -, -, once, passes⟩ := turns_end .standard .decoded reread
  have failed : (reached .standard .decoded reread 3).place = .failed ['a'] := by decide
  have takesUp : TakesUp .standard .decoded reread 6 := by
    constructor <;> decide
  have stands : position .standard .decoded reread 6 = 4 := by decide
  obtain ⟨first, before, up, -, -, -, behind⟩ := passes 3 ['a'] failed
  exact ⟨failed, ⟨first, before, up, behind⟩, takesUp, stands,
    fun later again same => once later 6 again takesUp (same.trans stands.symm)⟩

end Turns

end LenientMime.EncodedWord
