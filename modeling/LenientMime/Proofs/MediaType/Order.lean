import LenientMime.Proofs.MediaType.Division

namespace LenientMime

/-! The order of parameters.

A name is entered with one value only, so what is held when all parameters are entered is told by
which of them were written, and not by their order.  Extended values are assembled after that.
They are found under their names and numbers and take the place of plain ones, wherever among the
parameters these stood.
-/

theorem Param.Consistent.perm {given other : List Param} (consistent : Param.Consistent given)
    (reordered : given.Perm other) : Param.Consistent other :=
  fun first isFirst second isSecond =>
    consistent first (reordered.mem_iff.mpr isFirst) second (reordered.mem_iff.mpr isSecond)

namespace Params

variable {params other : Params} {name value : Text}

theorem Ordered.nodup (ordered : params.Ordered) : params.Nodup := by
  refine ordered.imp ?_
  rintro param _ less rfl
  exact List.lt_irrefl param.1 less

theorem Ordered.get?_eq_some_iff (ordered : params.Ordered) :
    params.get? name = some value ↔ (name, value) ∈ params := by
  refine ⟨mem_of_get?, fun member => ?_⟩
  induction params with
  | nil => contradiction
  | cons param later ih =>
      obtain ⟨below, orderedLater⟩ := List.pairwise_cons.mp ordered
      obtain ⟨key, old⟩ := param
      rcases List.mem_cons.mp member with here | behind
      · obtain ⟨rfl, rfl⟩ := Prod.mk.inj here
        simp [get?]
      · have passed : (name == key) = false := by
          simpa using fun same : name = key => List.lt_irrefl key (same ▸ below _ behind)
        have found := ih orderedLater behind
        simpa [get?, List.lookup_cons, passed] using found

/-- Parameters in order are told by what they hold. -/
theorem Ordered.ext (ordered : params.Ordered) (orderedToo : other.Ordered)
    (same : ∀ name value, params.get? name = some value ↔ other.get? name = some value) :
    params = other := by
  have alike : params.Perm other := by
    refine (List.perm_ext_iff_of_nodup ordered.nodup orderedToo.nodup).mpr fun (name, value) => ?_
    rw [← ordered.get?_eq_some_iff, same, orderedToo.get?_eq_some_iff]
  exact alike.eq_of_pairwise
    (fun _ _ _ _ less greater => absurd greater (List.lt_asymm less)) ordered orderedToo

/-- Parameters that are not in conflict may be entered in any order. -/
theorem ofList_perm {given others : List Param} (consistent : Param.Consistent given)
    (reordered : given.Perm others) :
    ofList (given.map Param.entry) = ofList (others.map Param.entry) :=
  (ordered_ofList _).ext (ordered_ofList _) fun name value => by
    rw [get?_ofList consistent, get?_ofList (consistent.perm reordered), reordered.mem_iff]

end Params

namespace WrittenMediaType

variable {codec : Codec} {written other : WrittenMediaType}

theorem Consistent.perm (consistent : written.Consistent)
    (reordered : (written.params.map WrittenParam.param).Perm
      (other.params.map WrittenParam.param)) :
    other.Consistent ∧ written.entries = other.entries := by
  have same := Params.ofList_perm consistent reordered
  rw [List.map_map, List.map_map] at same
  exact ⟨Param.Consistent.perm consistent reordered, same⟩

/-- What is written is a media type in one order of its parameters if it is in another. -/
theorem media?_of_perm {media : MediaType} (type : written.essence.lower = other.essence.lower)
    (reordered : (written.params.map WrittenParam.param).Perm
      (other.params.map WrittenParam.param))
    (reads : written.media? codec = some media) : other.media? codec = some media := by
  obtain ⟨consistent, rfl⟩ := media?_eq_some_iff.mp reads
  obtain ⟨consistentToo, same⟩ := consistent.perm reordered
  exact media?_eq_some_iff.mpr ⟨consistentToo, by rw [type, same]⟩

end WrittenMediaType

namespace MediaType

/-- A type with its parameters in one order is read just if it is with its parameters in another,
and as the same media type, with blanks, letter case and quotes as they may be.  A name that has
an extended value stands for that, whether its plain parameter comes before or behind the pieces
or between them. -/
theorem readStrict_reordered (codec : Codec) (written other : WrittenMediaType)
    (type : written.essence.lower = other.essence.lower)
    (reordered : (written.params.map WrittenParam.param).Perm
      (other.params.map WrittenParam.param)) (media : MediaType) :
    (readStrict written.text codec = .ok media ↔ readStrict other.text codec = .ok media) ∧
      (readStrict written.text codec = .ok media → ∀ base, base ≠ [] → '*' ∉ base →
        media.params.get? base =
          (written.entries.extended? codec base).or (written.entries.get? base)) := by
  rw [written.readStrict_text_eq_ok_iff, other.readStrict_text_eq_ok_iff]
  refine ⟨⟨WrittenMediaType.media?_of_perm type reordered,
    WrittenMediaType.media?_of_perm type.symm reordered.symm⟩, ?_⟩
  intro reads base nonempty plain
  obtain ⟨-, rfl⟩ := WrittenMediaType.media?_eq_some_iff.mp reads
  exact Params.get?_assemble_eq nonempty plain

/-- A plain parameter in front of the pieces of its name, which are in order, and a parameter that
is given twice. -/
def plainFirst : WrittenMediaType :=
  quotedAttachment [("filename", "old"), ("size", "3"), ("filename*0*", "UTF-8''%C3"),
    ("filename*1*", "%A9"), ("filename*2", " b"), ("size", "3")]

/-- The plain parameter behind some of the pieces, and names in other letter case. -/
def plainBetween : WrittenMediaType :=
  quotedAttachment [("filename*2", " b"), ("Filename*0*", "UTF-8''%C3"), ("size", "3"),
    ("Size", "3"), ("FileName", "old"), ("filename*1*", "%A9")]

theorem readStrict_reordered_between :
    let media : MediaType := {
      essence := "attachment".toList
      params := [("filename".toList, "é b".toList), ("size".toList, "3".toList)] }
    plainFirst.essence.lower = plainBetween.essence.lower ∧
      (plainFirst.params.map WrittenParam.param).Perm
        (plainBetween.params.map WrittenParam.param) ∧
      readStrict plainFirst.text .standard = .ok media ∧
      readStrict plainBetween.text .standard = .ok media ∧
      "filename".toList ≠ [] ∧ '*' ∉ "filename".toList ∧
      (plainFirst.entries.extended? .standard "filename".toList).or
        (plainFirst.entries.get? "filename".toList) = some "é b".toList := by
  intro media
  have type : plainFirst.essence.lower = plainBetween.essence.lower := by decide
  have reordered : (plainFirst.params.map WrittenParam.param).Perm
      (plainBetween.params.map WrittenParam.param) := by
    decide +kernel
  have read : readStrict plainFirst.text .standard = .ok media := by decide +kernel
  have nonempty : "filename".toList ≠ [] := by decide
  have plain : '*' ∉ "filename".toList := by decide
  obtain ⟨same, extended⟩ :=
    readStrict_reordered .standard plainFirst plainBetween type reordered media
  exact ⟨type, reordered, read, same.mp read, nonempty, plain,
    (extended read _ nonempty plain).symm⟩

end MediaType

end LenientMime
