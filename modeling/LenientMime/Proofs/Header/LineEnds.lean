import LenientMime.Header.Field
import LenientMime.Proofs.Header.Block
import LenientMime.Proofs.Text.Lines
import LenientMime.Proofs.Text.Token
import LenientMime.Text.Utf8
import Mathlib.Data.List.Forall2

namespace LenientMime

/-! Headers under both styles of line ends.

A message may end its lines in bare line feeds or in pairs of a carriage return and a line feed.
Going over from the first style to the second changes the bytes of the header as it changes the
message, moves nothing between header and body, and leaves the fields that are read as they are.
-/

/-- Puts a carriage return in front of every line feed. -/
def withReturns {α : Type} [DecidableEq α] (carriageReturn lineFeed : α) (items : List α) : List α :=
  items.flatMap fun item => if item = lineFeed then [carriageReturn, item] else [item]

def Bytes.toCrlf (bytes : Bytes) : Bytes :=
  withReturns Byte.carriageReturn Byte.lineFeed bytes

def Text.toCrlf (text : Text) : Text :=
  withReturns '\r' '\n' text

section WithReturns

variable {α : Type} [DecidableEq α] {carriageReturn lineFeed item : α}

theorem withReturns_lineFeed (rest : List α) :
    withReturns carriageReturn lineFeed (lineFeed :: rest) =
      carriageReturn :: lineFeed :: withReturns carriageReturn lineFeed rest := by
  simp [withReturns]

theorem withReturns_cons (noFeed : item ≠ lineFeed) (rest : List α) :
    withReturns carriageReturn lineFeed (item :: rest) =
      item :: withReturns carriageReturn lineFeed rest := by
  simp [withReturns, noFeed]

/-- No line feed is left without its carriage return. -/
theorem head?_withReturns (distinct : carriageReturn ≠ lineFeed) (items : List α) :
    (withReturns carriageReturn lineFeed items).head? ≠ some lineFeed := by
  cases items with
  | nil => simp [withReturns]
  | cons item rest =>
      by_cases feed : item = lineFeed
      · subst feed
        rw [withReturns_lineFeed]
        exact fun same => distinct (Option.some.inj same)
      · rw [withReturns_cons feed]
        exact fun same => feed (Option.some.inj same)

end WithReturns

namespace Header

section Block

variable {bytes : Bytes}

/-- Header and body change as their message does. -/
theorem splitFrom_toCrlf (noReturn : Byte.carriageReturn ∉ bytes) (atStart : Bool) :
    splitFrom atStart bytes.toCrlf =
      ((splitFrom atStart bytes).1.toCrlf, (splitFrom atStart bytes).2.toCrlf) := by
  induction bytes generalizing atStart with
  | nil => cases atStart <;> rfl
  | cons byte rest ih =>
      obtain ⟨here, behind⟩ := List.ne_and_not_mem_of_not_mem_cons noReturn
      by_cases feed : byte = Byte.lineFeed
      · subst feed
        rw [Bytes.toCrlf, withReturns_lineFeed, ← Bytes.toCrlf]
        cases atStart with
        | true => rfl
        | false =>
            -- the line ends one byte later, and the next one starts behind the same line feed
            have ended : (Byte.carriageReturn == Byte.lineFeed) = false := beq_lineFeed (by decide)
            rw [splitFrom_within, ended, splitFrom_within, splitFrom_within, beq_self_eq_true,
              ih behind]
            simp only [Bytes.toCrlf, withReturns_lineFeed]
      · rw [Bytes.toCrlf, withReturns_cons feed, ← Bytes.toCrlf,
          splitFrom_cons (fun _ => feed) fun _ same => absurd same (Ne.symm here),
          splitFrom_cons (fun _ => feed) fun _ same => absurd same (Ne.symm here),
          beq_lineFeed feed, ih behind]
        simp only [Bytes.toCrlf, withReturns_cons feed]

end Block

section Fields

variable {c : Char} {rest line other : Text}

/-- The same line, but for a carriage return at its end. -/
def Alike (line other : Text) : Prop :=
  other = line ∨ other = line ++ ['\r']

theorem Alike.cons (alike : Alike line other) (c : Char) : Alike (c :: line) (c :: other) := by
  rcases alike with rfl | rfl
  · exact .inl rfl
  · exact .inr rfl

theorem lines_toCrlf_cons (noFeed : c ≠ '\n') (rest : Text) :
    (Text.toCrlf (c :: rest)).lines =
      (c :: (Text.toCrlf rest).lines.headD []) :: (Text.toCrlf rest).lines.tail := by
  have goesOn : c = '\r' → (Text.toCrlf rest).head? ≠ some '\n' :=
    fun _ => head?_withReturns (by decide) rest
  rw [Text.toCrlf, withReturns_cons noFeed, ← Text.toCrlf, Text.lines_cons noFeed goesOn]

theorem lines_toCrlf_lineFeed (rest : Text) :
    (Text.toCrlf ('\n' :: rest)).lines = [] :: (Text.toCrlf rest).lines := by
  rw [Text.toCrlf, withReturns_lineFeed, Text.lines_crlf, ← Text.toCrlf]

/-- The same lines come out.  A carriage return that was part of a line end stays with its line,
since the new line end has one of its own. -/
theorem alike_lines (text : Text) : List.Forall₂ Alike text.lines text.toCrlf.lines := by
  fun_induction Text.lines text with
  | case1 => exact .nil
  | case2 rest ih =>
      rw [lines_toCrlf_lineFeed]
      exact .cons (.inl rfl) ih
  | case3 rest ih =>
      rw [lines_toCrlf_cons (by decide), lines_toCrlf_lineFeed]
      exact .cons (.inr rfl) ih
  | case4 c rest noFeed _ nothing ih =>
      rw [nothing] at ih
      rw [lines_toCrlf_cons noFeed, List.forall₂_nil_left_iff.mp ih]
      exact .cons (.inl rfl) .nil
  | case5 c rest noFeed _ first later cut ih =>
      rw [cut] at ih
      obtain ⟨other, others, alike, alikeLater, shown⟩ := List.forall₂_cons_left_iff.mp ih
      rw [lines_toCrlf_cons noFeed, shown]
      exact .cons (alike.cons c) alikeLater

theorem isContinuation_append_return (line : Text) :
    isContinuation (line ++ ['\r']) = isContinuation line := by
  cases line <;> rfl

theorem cut?_append_return (line : Text) :
    (line ++ ['\r']).cut? ':' = (line.cut? ':').map fun parts => (parts.1, parts.2 ++ ['\r']) := by
  by_cases present : ':' ∈ line
  · obtain ⟨name, value, rfl, absent⟩ := List.eq_append_cons_of_mem present
    rw [List.append_assoc, List.cons_append, Text.cut?_append _ absent, Text.cut?_append _ absent]
    rfl
  · rw [Text.cut?_of_absent present, Text.cut?_of_absent (by simpa using present)]
    rfl

theorem addLine_alike (fields : List Field) (alike : Alike line other) :
    addLine fields other = addLine fields line := by
  rcases alike with rfl | rfl
  · rfl
  · have blank : Text.Blank ['\r'] := by decide
    unfold addLine
    rw [isContinuation_append_return, cut?_append_return, blank.trim_append]
    cases line.cut? ':' with
    | none => rfl
    | some parts => simp only [Option.map_some, blank.trim_append]

theorem foldl_addLine_alike {lines others : List Text} (alike : List.Forall₂ Alike lines others)
    (fields : List Field) : others.foldl addLine fields = lines.foldl addLine fields := by
  induction alike generalizing fields with
  | nil => rfl
  | cons alike _ ih => rw [List.foldl_cons, List.foldl_cons, addLine_alike fields alike, ih]

end Fields

/-- With carriage returns in front of its line feeds a message has the same header and body, with
carriage returns in front of theirs, and the text of a header has the same fields. -/
theorem lineEnds_immaterial {bytes : Bytes} (noReturn : Byte.carriageReturn ∉ bytes)
    (text : Text) :
    (splitBlock bytes.toCrlf).1 = (splitBlock bytes).1.toCrlf ∧
      bytes.toCrlf.drop (splitBlock bytes.toCrlf).2 =
        Bytes.toCrlf (bytes.drop (splitBlock bytes).2) ∧
      fields text.toCrlf = fields text := by
  have split := splitFrom_toCrlf noReturn true
  refine ⟨congrArg Prod.fst split, ?_, ?_⟩
  · rw [drop_splitBlock, drop_splitBlock, split]
  · rw [fields, foldl_addLine_alike (alike_lines text), ← fields]

/-- A message with an empty line in its body too and no line feed at its end, and a text with both
line ends, bare carriage returns and a fold. -/
theorem lineEnds_immaterial_mixed :
    let message := Text.utf8 "A: 1\n b\n\nbody\n\nend".toList
    let text := "A: 1\r\n b\r\r\nskipped\rB: 2\nC:\r3".toList
    Byte.carriageReturn ∉ message ∧
      splitBlock (Bytes.toCrlf message) = (Text.utf8 "A: 1\r\n b\r\n".toList, 12) ∧
      (splitBlock (Bytes.toCrlf message)).1 = Bytes.toCrlf (splitBlock message).1 ∧
      (Bytes.toCrlf message).drop (splitBlock (Bytes.toCrlf message)).2 =
        Bytes.toCrlf (message.drop (splitBlock message).2) ∧
      Text.toCrlf text = "A: 1\r\r\n b\r\r\r\nskipped\rB: 2\r\nC:\r3".toList ∧
      fields (Text.toCrlf text) = fields text ∧
      fields text = [{ name := "a".toList, value := "1 b".toList },
        { name := "skipped\rb".toList, value := "2".toList },
        { name := "c".toList, value := "3".toList }] := by
  intro message text
  have noReturn : Byte.carriageReturn ∉ message := by decide
  obtain ⟨header, body, same⟩ := lineEnds_immaterial noReturn text
  exact ⟨noReturn, by decide +kernel, header, body, by decide, same, by decide +kernel⟩

end Header

end LenientMime
