import Mathlib.Data.List.Induction
import TypeAtlas.Proofs.Tag.Read

/-! # Tags accounted for

Every tag of a comment is kept or reported, in textual order. A recognised name keeps its first tag that
meets the grammar of the name, and a name that is not recognised keeps all of its tags, each of which is
reported as well.
-/

namespace TypeAtlas

variable {v : Vocabulary} {g : Grammar} {raw : RawTag} {raws : List RawTag} {name : String}

/-- A payload stands where one must and only where one may, has the right shape and can be read. -/
structure Grammar.Meets (g : Grammar) (payload : String) : Prop where
  required : g.arity = .required → payload ≠ ""
  forbidden : g.arity = .forbidden → payload = ""
  accepted : payload ≠ "" → g.accepts payload.toList
  read : ∃ fields, g.read payload.toList = .ok (some fields)

theorem Grammar.admits_iff {payload : String} : g.admits payload.toList ↔
    (g.arity = .required → payload ≠ "") ∧ (g.arity = .forbidden → payload = "") ∧
      (payload ≠ "" → g.accepts payload.toList) := by
  have hempty : payload.toList.isEmpty = true ↔ payload = "" := by
    rw [List.isEmpty_iff, String.toList_eq_nil_iff]
  unfold admits
  rw [Bool.and_eq_true, Bool.or_eq_true, hempty, or_iff_not_imp_left]
  cases g.arity with
  | required => simp
  | forbidden => simp
  | optional => simp

/-- The fields that a payload is read as. -/
def Grammar.fields? (g : Grammar) (payload : String) : Option (List (String × Datum)) :=
  (g.read payload.toList).toOption.join

theorem Grammar.fields?_eq_some {payload : String} {fields : List (String × Datum)} :
    g.fields? payload = some fields ↔ g.read payload.toList = .ok (some fields) := by
  unfold fields?
  cases g.read payload.toList <;> simp [Except.toOption]

theorem Grammar.tag?_eq_some_iff {tag : Tag} : g.tag? raw = .ok (some tag) ↔
    g.Meets raw.payload ∧ tag = ⟨raw.name, raw.payload, g.fields? raw.payload⟩ := by
  constructor
  · intro h
    obtain ⟨fields, hread, rfl⟩ := tag?_eq_some h
    unfold tag? at h
    split at h
    · next hadmits =>
      obtain ⟨hrequired, hforbidden, haccepted⟩ := admits_iff.1 hadmits
      exact ⟨⟨hrequired, hforbidden, haccepted, fields, hread⟩, by rw [fields?_eq_some.2 hread]⟩
    · cases h
  · rintro ⟨⟨hrequired, hforbidden, haccepted, fields, hread⟩, rfl⟩
    rw [tag?, if_pos (admits_iff.2 ⟨hrequired, hforbidden, haccepted⟩), hread, fields?_eq_some.2 hread]
    rfl

namespace Vocabulary

/-- The name is recognised, and the payload meets its grammar. -/
def Valid (v : Vocabulary) (raw : RawTag) : Prop :=
  ∃ g, v.get? raw.name = some g ∧ g.Meets raw.payload

instance (v : Vocabulary) : DecidablePred v.Valid := fun raw =>
  decidable_of_iff ((v.get? raw.name).any fun g =>
      g.admits raw.payload.toList && (g.fields? raw.payload).isSome) <| by
    simp only [Option.any_eq_true, Bool.and_eq_true, Option.isSome_iff_exists, Grammar.admits_iff,
      Grammar.fields?_eq_some, Valid]
    constructor
    · rintro ⟨g, hg, ⟨hrequired, hforbidden, haccepted⟩, hread⟩
      exact ⟨g, hg, hrequired, hforbidden, haccepted, hread⟩
    · rintro ⟨g, hg, hmeets⟩
      exact ⟨g, hg, ⟨hmeets.required, hmeets.forbidden, hmeets.accepted⟩, hmeets.read⟩

/-- A tag as it is kept; the payload is read if the name is recognised. -/
def tag (v : Vocabulary) (raw : RawTag) : Tag :=
  ⟨raw.name, raw.payload, (v.get? raw.name).bind fun g => g.fields? raw.payload⟩

end Vocabulary

/-- What can become of a tag. -/
inductive Fate where
  | unknown
  | kept
  | repeated
  | malformed
deriving DecidableEq

namespace Fate

/-- The tag is among those that are read. -/
def remains : Fate → Bool
  | unknown | kept => true
  | repeated | malformed => false

def report? (raw : RawTag) : Fate → Option (DiagnosticKey × String)
  | unknown => some (.tagUnknown, "@" ++ raw.name)
  | kept => none
  | repeated => some (.tagDuplicate, "@" ++ raw.name)
  | malformed => some (.tagMalformed, raw.render)

end Fate

namespace Vocabulary

/-- A valid tag of the name is among the given ones. -/
def Settled (v : Vocabulary) (earlier : List RawTag) (name : String) : Prop :=
  ∃ e ∈ earlier, e.name = name ∧ v.Valid e

instance (v : Vocabulary) (earlier : List RawTag) (name : String) : Decidable (v.Settled earlier name) :=
  inferInstanceAs (Decidable (∃ e ∈ earlier, e.name = name ∧ v.Valid e))

theorem settled_append : v.Settled (raws ++ [raw]) name ↔
    v.Settled raws name ∨ raw.name = name ∧ v.Valid raw := by
  simp only [Settled, List.mem_append, List.mem_singleton, or_and_right, exists_or, exists_eq_left]

/-- What becomes of a tag that stands after the given ones. -/
def fate (v : Vocabulary) (earlier : List RawTag) (raw : RawTag) : Fate :=
  if (v.get? raw.name).isNone then .unknown
  else if v.Settled earlier raw.name then .repeated
  else if v.Valid raw then .kept
  else .malformed

theorem fate_cases (v : Vocabulary) (earlier : List RawTag) (raw : RawTag) :
    (v.get? raw.name = none ∧ v.fate earlier raw = .unknown) ∨
    ((v.get? raw.name).isSome ∧ v.Settled earlier raw.name ∧ v.fate earlier raw = .repeated) ∨
    (v.Valid raw ∧ ¬ v.Settled earlier raw.name ∧ v.fate earlier raw = .kept) ∨
    ((v.get? raw.name).isSome ∧ ¬ v.Valid raw ∧ ¬ v.Settled earlier raw.name ∧
      v.fate earlier raw = .malformed) := by
  unfold fate
  cases hg : v.get? raw.name with
  | none => exact .inl ⟨rfl, rfl⟩
  | some g =>
    right
    by_cases hsettled : v.Settled earlier raw.name
    · exact .inl ⟨rfl, hsettled, if_pos hsettled⟩
    · by_cases hvalid : v.Valid raw
      · exact .inr (.inl ⟨hvalid, hsettled, (if_neg hsettled).trans (if_pos hvalid)⟩)
      · exact .inr (.inr ⟨rfl, hvalid, hsettled, (if_neg hsettled).trans (if_neg hvalid)⟩)

/-- The tags of a comment, each with what becomes of it. -/
def fates (v : Vocabulary) (raws : List RawTag) : List (RawTag × Fate) :=
  raws.zipIdx.map fun p => (p.1, v.fate (raws.take p.2) p.1)

theorem fates_append (v : Vocabulary) (raws : List RawTag) (raw : RawTag) :
    v.fates (raws ++ [raw]) = v.fates raws ++ [(raw, v.fate raws raw)] := by
  have hearlier : raws.zipIdx.map (fun p => (p.1, v.fate ((raws ++ [raw]).take p.2) p.1)) = v.fates raws := by
    refine List.map_congr_left fun p hp => ?_
    have hlt : p.2 < raws.length := by simpa using List.snd_lt_of_mem_zipIdx hp
    rw [List.take_append_of_le_length (Nat.le_of_lt hlt)]
  rw [fates, List.zipIdx_append, List.map_append, hearlier]
  simp

/-- The tags that are left of a comment. -/
def remaining (v : Vocabulary) (raws : List RawTag) : List Tag :=
  ((v.fates raws).filter fun p => p.2.remains).map fun p => v.tag p.1

def reports (v : Vocabulary) (raws : List RawTag) : List (DiagnosticKey × String) :=
  (v.fates raws).filterMap fun p => p.2.report? p.1

theorem remaining_append (v : Vocabulary) (raws : List RawTag) (raw : RawTag) :
    v.remaining (raws ++ [raw]) =
      v.remaining raws ++ if (v.fate raws raw).remains then [v.tag raw] else [] := by
  rw [remaining, fates_append, List.filter_append, List.map_append, ← remaining]
  cases h : (v.fate raws raw).remains <;> simp [h]

theorem reports_append (v : Vocabulary) (raws : List RawTag) (raw : RawTag) :
    v.reports (raws ++ [raw]) = v.reports raws ++ ((v.fate raws raw).report? raw).toList := by
  rw [reports, fates_append, List.filterMap_append, ← reports]
  cases h : (v.fate raws raw).report? raw <;> simp [h]

theorem tag?_of_get? (hg : v.get? raw.name = some g) (hbrief : Payload.Brief raw.payload.toList) :
    g.tag? raw = .ok (if v.Valid raw then some (v.tag raw) else none) := by
  split
  · next hvalid =>
    obtain ⟨g', hg', hmeets⟩ := hvalid
    obtain rfl := Option.some.inj (hg.symm.trans hg')
    refine Grammar.tag?_eq_some_iff.2 ⟨hmeets, ?_⟩
    rw [tag, hg, Option.bind_some]
  · next hvalid =>
    obtain ⟨r, hr⟩ := g.exists_tag? hbrief
    cases r with
    | none => exact hr
    | some t => exact absurd ⟨g, hg, (Grammar.tag?_eq_some_iff.1 hr).1⟩ hvalid

end Vocabulary

namespace TagReading

variable {report : DiagnosticKey → String → Diagnostic} {s : State}

/-- A reading has accounted for the given tags. -/
structure Accounts (v : Vocabulary) (report : DiagnosticKey → String → Diagnostic) (raws : List RawTag)
    (s : State) : Prop where
  tags : s.tags = v.remaining raws
  diagnostics : s.diagnostics = (v.reports raws).map (Function.uncurry report)
  seen : ∀ name, name ∈ s.seen ↔ v.Settled raws name

/-- What becomes of a tag is decided by the valid tags before it. -/
theorem verdict_eq (hseen : ∀ name, name ∈ s.seen ↔ v.Settled raws name)
    (hbrief : Payload.Brief raw.payload.toList) :
    verdict v s.seen raw = .ok (match v.fate raws raw with
      | .unknown => .unknown
      | .kept => .kept (v.tag raw)
      | .repeated => .duplicate
      | .malformed => .malformed) := by
  unfold verdict Vocabulary.fate
  cases hg : v.get? raw.name with
  | none => rfl
  | some g =>
    have hcontains : s.seen.contains raw.name = true ↔ v.Settled raws raw.name :=
      List.contains_iff_mem.trans (hseen raw.name)
    simp only [Option.isNone_some, Bool.false_eq_true, if_false, v.tag?_of_get? hg hbrief]
    by_cases hsettled : v.Settled raws raw.name
    · rw [if_pos (hcontains.2 hsettled), if_pos hsettled]
    · rw [if_neg (mt hcontains.1 hsettled), if_neg hsettled]
      by_cases hvalid : v.Valid raw
      · simp only [if_pos hvalid]
        rfl
      · simp only [if_neg hvalid]
        rfl

/-- A state that has gone on from another one has accounted for one more tag. -/
theorem Accounts.append {s' : State} (h : Accounts v report raws s)
    (htags : s'.tags = s.tags ++ if (v.fate raws raw).remains then [v.tag raw] else [])
    (hdiagnostics : s'.diagnostics =
      s.diagnostics ++ ((v.fate raws raw).report? raw).toList.map (Function.uncurry report))
    (hseen : ∀ name, name ∈ s'.seen ↔ name ∈ s.seen ∨ raw.name = name ∧ v.Valid raw) :
    Accounts v report (raws ++ [raw]) s' := by
  refine ⟨?_, ?_, fun name => ?_⟩
  · rw [htags, h.tags, v.remaining_append]
  · rw [hdiagnostics, h.diagnostics, v.reports_append, List.map_append]
  · rw [hseen, h.seen, Vocabulary.settled_append]

theorem Accounts.step (h : Accounts v report raws s) (hbrief : Payload.Brief raw.payload.toList) :
    ∃ s', step v report s raw = .ok s' ∧ Accounts v report (raws ++ [raw]) s' := by
  refine ⟨_, congrArg (Except.map _) (verdict_eq h.seen hbrief), ?_⟩
  rcases v.fate_cases raws raw with ⟨hunknown, hfate⟩ | ⟨-, hsettled, hfate⟩ | ⟨hvalid, -, hfate⟩ |
    ⟨-, hinvalid, -, hfate⟩
  · have htag : v.tag raw = ⟨raw.name, raw.payload, none⟩ := by rw [Vocabulary.tag, hunknown, Option.bind_none]
    have hinvalid : ¬ v.Valid raw := fun ⟨_, hg, _⟩ => by simp [hunknown] at hg
    simp only [hfate, take]
    refine h.append ?_ ?_ fun name => ?_
    · simp [hfate, Fate.remains, htag]
    · simp [hfate, Fate.report?]
    · simp [hinvalid]
  · simp only [hfate, take]
    refine h.append ?_ ?_ fun name => ?_
    · simp [hfate, Fate.remains]
    · simp [hfate, Fate.report?]
    · refine (or_iff_left_of_imp fun hname => ?_).symm
      exact hname.1 ▸ (h.seen raw.name).2 hsettled
  · simp only [hfate, take]
    refine h.append ?_ ?_ fun name => ?_
    · simp [hfate, Fate.remains]
    · simp [hfate, Fate.report?]
    · simp [hvalid, or_comm, eq_comm]
  · simp only [hfate, take]
    refine h.append ?_ ?_ fun name => ?_
    · simp [hfate, Fate.remains]
    · simp [hfate, Fate.report?]
    · simp [hinvalid]

theorem accounts_foldlM (v : Vocabulary) (report : DiagnosticKey → String → Diagnostic)
    (hbrief : ∀ raw ∈ raws, Payload.Brief raw.payload.toList) :
    ∃ s, raws.foldlM (TagReading.step v report) {} = .ok s ∧ Accounts v report raws s := by
  induction raws using List.reverseRecOn with
  | nil => exact ⟨{}, rfl, rfl, rfl, by simp [Vocabulary.Settled]⟩
  | append_singleton raws raw ih =>
    rw [List.forall_mem_append, List.forall_mem_singleton] at hbrief
    obtain ⟨s, hs, haccounts⟩ := ih hbrief.1
    obtain ⟨s', hstep, haccounts'⟩ := haccounts.step hbrief.2
    refine ⟨s', ?_, haccounts'⟩
    rw [List.foldlM_append, hs]
    exact bind_eq_ok.2 ⟨s, rfl, bind_eq_ok.2 ⟨s', hstep, rfl⟩⟩

end TagReading

namespace Vocabulary

/-- The first valid tag of a name. -/
def firstValid? (v : Vocabulary) (raws : List RawTag) (name : String) : Option RawTag :=
  raws.find? fun raw => raw.name = name ∧ v.Valid raw

theorem isSome_firstValid? : (v.firstValid? raws name).isSome ↔ v.Settled raws name := by
  simp [firstValid?, Settled, List.find?_isSome]

theorem firstValid?_append : v.firstValid? (raws ++ [raw]) name =
    (v.firstValid? raws name).or (if raw.name = name ∧ v.Valid raw then some raw else none) := by
  rw [firstValid?, List.find?_append, ← firstValid?, List.find?_singleton]
  simp only [decide_eq_true_eq]

theorem filter_remaining_append (v : Vocabulary) (raws : List RawTag) (raw : RawTag) (name : String) :
    (v.remaining (raws ++ [raw])).filter (fun t => t.name = name) =
      (v.remaining raws).filter (fun t => t.name = name) ++
        if raw.name = name ∧ (v.fate raws raw).remains then [v.tag raw] else [] := by
  rw [v.remaining_append, List.filter_append]
  by_cases hremains : (v.fate raws raw).remains
  · by_cases hname : raw.name = name <;> simp [hremains, tag, hname]
  · simp [hremains]

theorem filter_remaining (hname : (v.get? name).isSome) (raws : List RawTag) :
    (v.remaining raws).filter (fun t => t.name = name) = ((v.firstValid? raws name).map v.tag).toList := by
  induction raws using List.reverseRecOn with
  | nil => rfl
  | append_singleton raws raw ih =>
    rw [v.filter_remaining_append, ih, firstValid?_append]
    by_cases hraw : raw.name = name
    · subst hraw
      rcases v.fate_cases raws raw with ⟨hunknown, -⟩ | ⟨-, h, hfate⟩ | ⟨hvalid, h, hfate⟩ |
        ⟨-, hinvalid, h, hfate⟩
      · simp [hunknown] at hname
      · obtain ⟨first, hfirst⟩ := Option.isSome_iff_exists.1 (isSome_firstValid?.2 h)
        simp [hfate, Fate.remains, hfirst]
      · have hnone := Option.not_isSome_iff_eq_none.1 (mt isSome_firstValid?.1 h)
        simp [hfate, Fate.remains, hnone, hvalid]
      · have hnone := Option.not_isSome_iff_eq_none.1 (mt isSome_firstValid?.1 h)
        simp [hfate, Fate.remains, hnone, hinvalid]
    · simp [hraw]

theorem filter_remaining_unknown (hname : v.get? name = none) (raws : List RawTag) :
    (v.remaining raws).filter (fun t => t.name = name) =
      (raws.filter fun raw => raw.name = name).map fun raw => ⟨raw.name, raw.payload, none⟩ := by
  induction raws using List.reverseRecOn with
  | nil => rfl
  | append_singleton raws raw ih =>
    rw [v.filter_remaining_append, ih, List.filter_append, List.map_append]
    by_cases hraw : raw.name = name
    · subst hraw
      simp [fate, Fate.remains, tag, hname]
    · simp [hraw]

/-- A recognised tag is kept or reported, and any other one is both. -/
theorem length_raws (v : Vocabulary) (raws : List RawTag) : raws.length =
    ((v.remaining raws).filter fun t => (v.get? t.name).isSome).length + (v.reports raws).length := by
  induction raws using List.reverseRecOn with
  | nil => rfl
  | append_singleton raws raw ih =>
    have hone : ((if (v.fate raws raw).remains then [v.tag raw] else []).filter
        fun t => (v.get? t.name).isSome).length + ((v.fate raws raw).report? raw).toList.length = 1 := by
      rcases v.fate_cases raws raw with ⟨hunknown, hfate⟩ | ⟨-, -, hfate⟩ | ⟨⟨g, hg, -⟩, -, hfate⟩ |
        ⟨-, -, -, hfate⟩
      · simp [hfate, Fate.remains, Fate.report?, tag, hunknown]
      · simp [hfate, Fate.remains, Fate.report?]
      · simp [hfate, Fate.remains, Fate.report?, tag, hg]
      · simp [hfate, Fate.remains, Fate.report?]
    rw [v.remaining_append, v.reports_append, List.filter_append, List.length_append, List.length_append,
      List.length_append, List.length_singleton, ih]
    omega

end Vocabulary

/-- A comment whose payloads have no run of digits that is too long is read, and the tags read are those
of its raw tags that have an unknown name or are the first valid ones of their names. Everything else about
the raw tags is reported, so that each of them is accounted for. -/
theorem readTags_accounted (comment : Option String) (v : Vocabulary) (entity field : Option String)
    (location : Option Place)
    (hbrief : ∀ raw ∈ comment.elim [] Comment.splitTags, Payload.Brief raw.payload.toList) :
    let raws := comment.elim [] Comment.splitTags
    let context : Option Context :=
      if entity.isNone && field.isNone then none else some { entity, field }
    ∃ o, readTags comment v entity field location = .ok o ∧
      o.value = some (v.remaining raws) ∧
      o.diagnostics = (v.reports raws).map (fun p => .make p.1 [.text p.2] location context) ∧
      (∀ name, (v.get? name).isSome → (v.remaining raws).filter (fun t => t.name = name) =
        ((v.firstValid? raws name).map v.tag).toList) ∧
      (∀ name, v.get? name = none → (v.remaining raws).filter (fun t => t.name = name) =
        (raws.filter fun raw => raw.name = name).map fun raw => ⟨raw.name, raw.payload, none⟩) ∧
      raws.length = ((v.remaining raws).filter fun t => (v.get? t.name).isSome).length +
        o.diagnostics.length := by
  intro raws context
  have haccounts : ∃ o, readTags comment v entity field location = .ok o ∧
      o.value = some (v.remaining raws) ∧
      o.diagnostics = (v.reports raws).map (fun p => .make p.1 [.text p.2] location context) := by
    cases comment with
    | none => exact ⟨.success [], rfl, rfl, rfl⟩
    | some text =>
      obtain ⟨s, hs, h⟩ := TagReading.accounts_foldlM v
        (fun key arg => Diagnostic.make key [.text arg] location context) hbrief
      have hread : readTags (some text) v entity field location = .ok ⟨some s.tags, s.diagnostics⟩ := by
        rw [Option.elim_some] at hs
        rw [readTags, hs]
        rfl
      exact ⟨_, hread, congrArg some h.tags, h.diagnostics⟩
  obtain ⟨o, ho, hvalue, hdiagnostics⟩ := haccounts
  refine ⟨o, ho, hvalue, hdiagnostics, fun name hname => Vocabulary.filter_remaining hname raws,
    fun name hname => Vocabulary.filter_remaining_unknown hname raws, ?_⟩
  rw [hdiagnostics, List.length_map]
  exact v.length_raws raws

theorem readTags_accounted_repeated :
    ∃ o, readTags (some "/**\n * @min low\n * @min 1\n * @max 2\n * @min 3\n * @mni 4\n */") .standard none none none = .ok o ∧
      o.value = some [⟨"min", "1", some [("value", .int 1)]⟩, ⟨"max", "2", some [("value", .int 2)]⟩,
        ⟨"mni", "4", none⟩] ∧
      o.diagnostics.map Diagnostic.code =
        [DiagnosticKey.tagMalformed.code, DiagnosticKey.tagDuplicate.code, DiagnosticKey.tagUnknown.code] := by
  have hsplit : Comment.splitTags "/**\n * @min low\n * @min 1\n * @max 2\n * @min 3\n * @mni 4\n */" =
      [⟨"min", "low"⟩, ⟨"min", "1"⟩, ⟨"max", "2"⟩, ⟨"min", "3"⟩, ⟨"mni", "4"⟩] := by decide +kernel
  have hbrief : ∀ raw ∈ Comment.splitTags "/**\n * @min low\n * @min 1\n * @max 2\n * @min 3\n * @mni 4\n */",
      Payload.Brief raw.payload.toList := by
    rw [hsplit]
    intro raw hraw
    apply Payload.brief_of_length_le
    revert raw
    decide +kernel
  obtain ⟨o, ho, hvalue, hdiagnostics, -⟩ :=
    readTags_accounted (some "/**\n * @min low\n * @min 1\n * @max 2\n * @min 3\n * @mni 4\n */") .standard none none none hbrief
  rw [Option.elim_some, hsplit] at hvalue hdiagnostics
  refine ⟨o, ho, hvalue.trans (by decide +kernel), ?_⟩
  rw [hdiagnostics]
  decide +kernel

end TypeAtlas
