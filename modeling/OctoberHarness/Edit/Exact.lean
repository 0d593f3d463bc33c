import OctoberHarness.Edit.Diff

/-! Edits that are all found exactly: what is replaced. -/
namespace OctoberHarness.Edit

open List

/-- Where a text occurs, overlaps included. -/
def occurrences (text pattern : JsString) : List Nat :=
  (range (text.length + 1)).filter fun index => pattern.isPrefixOf (text.drop index)

/-- Two edits whose places do not meet. -/
def Apart (content : JsString) (a b : TextEdit) : Prop :=
  ∀ i ∈ occurrences content a.toLF.oldText, ∀ j ∈ occurrences content b.toLF.oldText,
    i + a.toLF.oldText.length ≤ j ∨ j + b.toLF.oldText.length ≤ i

/-- A content cut at the edits, each with the text before it. -/
structure Cut (content newContent : JsString) (edits : List TextEdit) where
  pieces : List (JsString × TextEdit)
  last : JsString
  edits : (pieces.map Prod.snd).Perm edits
  old : content = pieces.flatMap (fun piece => piece.1 ++ piece.2.toLF.oldText) ++ last
  new : newContent = pieces.flatMap (fun piece => piece.1 ++ piece.2.toLF.newText) ++ last

/-- What an application does that was not ambiguous, in any order of its edits. -/
structure Unambiguous (nfkc : JsString → JsString) (content newContent : JsString) (edits : List TextEdit) : Prop where
  once : ∀ edit ∈ edits, ∃ index, occurrences content edit.toLF.oldText = [index]
  apart : edits.Pairwise (Apart content)
  replaced : Nonempty (Cut content newContent edits)
  order : ∀ edits', edits'.Perm edits → applyEdits nfkc content edits' = .ok newContent

section

variable {nfkc : JsString → JsString} {content newContent text pattern : JsString} {edits : List TextEdit} {edit : TextEdit}
    {index : Nat}

theorem mem_occurrences : index ∈ occurrences text pattern ↔ index ≤ text.length ∧ pattern <+: text.drop index := by
  rw [occurrences, mem_filter, mem_range, isPrefixOf_iff_prefix, Nat.lt_succ_iff]

theorem indexOf_some (h : indexOf pattern text = some index) : index ∈ occurrences text pattern := by
  rw [mem_occurrences]
  induction text generalizing index with
  | nil =>
    rw [indexOf] at h
    split_ifs at h with hNil
    rw [hNil, ← Option.some.inj h]
    exact ⟨Nat.le_refl _, nil_prefix⟩
  | cons unit rest ih =>
    rw [indexOf] at h
    split_ifs at h with hPrefix
    · rw [← Option.some.inj h]
      exact ⟨Nat.zero_le _, isPrefixOf_iff_prefix.mp hPrefix⟩
    · obtain ⟨before, hBefore, rfl⟩ := Option.map_eq_some_iff.mp h
      obtain ⟨hLe, hFound⟩ := ih hBefore
      exact ⟨Nat.succ_le_succ hLe, hFound⟩

theorem split_at_occurrence (h : index ∈ occurrences text pattern) :
    text.drop index = pattern ++ text.drop (index + pattern.length) ∧ index + pattern.length ≤ text.length := by
  obtain ⟨hLe, after, hAfter⟩ := mem_occurrences.mp h
  have hLength := congrArg length hAfter
  rw [length_append, length_drop] at hLength
  rw [← drop_drop, ← hAfter, drop_left]
  exact ⟨rfl, by omega⟩

/-- Where an edit is found exactly. -/
def site (content : JsString) (edit : TextEdit) : TextReplacement :=
  ⟨(indexOf edit.toLF.oldText content).getD 0, edit.toLF.oldText.length, edit.toLF.newText⟩

def SitesApart (a b : TextReplacement) : Prop :=
  a.matchIndex + a.matchLength ≤ b.matchIndex ∨ b.matchIndex + b.matchLength ≤ a.matchIndex

instance : Std.Symm SitesApart :=
  ⟨fun _ _ => Or.symm⟩

/-- The edits pass on their own: none is empty, each is found exactly and counted at most once. -/
def Found (nfkc : JsString → JsString) (content : JsString) (edits : List TextEdit) : Prop :=
  ∀ edit ∈ edits, edit.toLF.oldText ≠ [] ∧ (indexOf edit.toLF.oldText content).isSome ∧
    countOccurrences nfkc content edit.toLF.oldText ≤ 1

theorem matchEdit_exact {place : Nat} {matched : MatchedEdit} (hExact : usedFuzzyMatch nfkc content edits = false)
    (hEdit : edit ∈ edits) : matchEdit nfkc content (edit, place) = .ok matched ↔
      (indexOf edit.toLF.oldText content).isSome ∧ countOccurrences nfkc content edit.toLF.oldText ≤ 1 ∧
        matched = ⟨site content edit, place⟩ := by
  have hNotFuzzy : ¬ (fuzzyFindText nfkc content edit.toLF.oldText).any (fun found => found.2.2) := by
    intro hFuzzy
    rw [usedFuzzyMatch, any_eq_false] at hExact
    exact hExact edit hEdit hFuzzy
  rw [matchEdit, site]
  cases hIndex : indexOf edit.toLF.oldText content with
  | some index =>
    simp only [fuzzyFindText, hIndex, Option.isSome_some, true_and, Option.getD_some]
    split_ifs with hCount
    · exact ⟨fun h => by simp at h, fun h => absurd h.1 (by omega)⟩
    · exact ⟨fun h => ⟨by omega, (Except.ok.inj h).symm⟩, fun h => by rw [h.2]⟩
  | none =>
    have hNone : fuzzyFindText nfkc content edit.toLF.oldText = none := by
      rw [fuzzyFindText, hIndex] at hNotFuzzy ⊢
      cases hFound : indexOf (normalizeForFuzzyMatch nfkc edit.toLF.oldText) (normalizeForFuzzyMatch nfkc content) with
      | none => rfl
      | some found => simp [hFound] at hNotFuzzy
    simp [hNone]

theorem mapM_exact {matched : List MatchedEdit} (hExact : usedFuzzyMatch nfkc content edits = false) :
    edits.zipIdx.mapM (matchEdit nfkc content) = .ok matched ↔
      (∀ edit ∈ edits, (indexOf edit.toLF.oldText content).isSome ∧ countOccurrences nfkc content edit.toLF.oldText ≤ 1) ∧
        matched = edits.zipIdx.map fun edit => ⟨site content edit.1, edit.2⟩ := by
  have hMem : ∀ found ∈ edits.zipIdx, found.1 ∈ edits := by
    intro found hFound
    exact fst_mem_of_mem_zipIdx hFound
  rw [Outcome.mapM_eq_ok (fun edit : TextEdit × Nat => ⟨site content edit.1, edit.2⟩) fun found hFound matched hMatched =>
    ((matchEdit_exact hExact (hMem found hFound)).mp hMatched).2.2]
  refine and_congr_left fun _ => ⟨fun hAll edit hEdit => ?_, fun hAll found hFound => ?_⟩
  · obtain ⟨place, hPlace⟩ := getElem?_of_mem hEdit
    obtain ⟨matched, hMatched⟩ := hAll (edit, place) (mk_mem_zipIdx_iff_getElem?.mpr hPlace)
    obtain ⟨hSome, hCount, -⟩ := (matchEdit_exact hExact hEdit).mp hMatched
    exact ⟨hSome, hCount⟩
  · obtain ⟨hSome, hCount⟩ := hAll found.1 (hMem found hFound)
    exact ⟨_, (matchEdit_exact hExact (hMem found hFound)).mpr ⟨hSome, hCount, rfl⟩⟩

def Before (a b : TextReplacement) : Prop :=
  a.matchIndex + a.matchLength ≤ b.matchIndex

def byIndex (a b : TextReplacement) : Prop :=
  a.matchIndex ≤ b.matchIndex

instance : DecidableRel byIndex :=
  fun a b => inferInstanceAs (Decidable (a.matchIndex ≤ b.matchIndex))

/-- The edits in the order of their sites. -/
def ordered (content : JsString) (edits : List TextEdit) : List TextEdit :=
  edits.insertionSort fun a b => (site content a).matchIndex ≤ (site content b).matchIndex

theorem sites_sorted (content : JsString) (edits : List TextEdit) :
    (sortMatches (edits.zipIdx.map fun edit => ⟨site content edit.1, edit.2⟩)).map MatchedEdit.toTextReplacement =
      (ordered content edits).map (site content) := by
  have hSites : (edits.zipIdx.map fun edit => site content edit.1) = edits.map (site content) := by
    conv_rhs => rw [← zipIdx_map_fst 0 edits, map_map]
    rfl
  rw [sortMatches, ordered,
    map_insertionSort (fun a b : MatchedEdit => a.matchIndex ≤ b.matchIndex) byIndex _ _ fun _ _ _ _ => Iff.rfl,
    map_insertionSort (fun a b => (site content a).matchIndex ≤ (site content b).matchIndex) byIndex _ _
      fun _ _ _ _ => Iff.rfl, map_map]
  exact congrArg _ hSites

theorem checkOverlap_eq_ok (matched : List MatchedEdit) :
    checkOverlap matched = .ok () ↔ (matched.map MatchedEdit.toTextReplacement).Pairwise Before := by
  induction matched with
  | nil => simp [checkOverlap]
  | cons first rest ih =>
    cases rest with
    | nil => simp [checkOverlap]
    | cons second rest =>
      rw [checkOverlap]
      split_ifs with hOverlap
      · refine ⟨fun h => by simp at h, fun h => ?_⟩
        have hBefore := (pairwise_cons.mp h).1 _ mem_cons_self
        rw [Before] at hBefore
        omega
      · rw [ih, map_cons, map_cons, pairwise_cons (a := first.toTextReplacement)]
        refine ⟨fun h => ⟨fun later hLater => ?_, h⟩, fun h => h.2⟩
        rcases mem_cons.mp hLater with rfl | hRest
        · exact Nat.not_lt.mp hOverlap
        · have hBefore := (pairwise_cons.mp h).1 later hRest
          rw [Before] at hBefore ⊢
          omega

theorem before_of_apart (hFound : Found nfkc content edits) (h : (edits.map (site content)).Pairwise SitesApart) :
    ((ordered content edits).map (site content)).Pairwise Before := by
  have hPerm : (ordered content edits).Perm edits := perm_insertionSort _ _
  have hSorted : (ordered content edits).Pairwise fun a b => (site content a).matchIndex ≤ (site content b).matchIndex :=
    @pairwise_insertionSort _ (fun a b => (site content a).matchIndex ≤ (site content b).matchIndex) _
      ⟨fun _ _ => Nat.le_total _ _⟩ ⟨fun _ _ _ => Nat.le_trans⟩ edits
  have hApart : (ordered content edits).Pairwise fun a b => SitesApart (site content a) (site content b) := by
    exact (hPerm.pairwise_iff Or.symm).mpr (pairwise_map.mp h)
  rw [pairwise_map]
  refine (hSorted.and hApart).imp_of_mem fun {a b} ha hb hBoth => ?_
  rcases hBoth.2 with hBefore | hAfter
  · exact hBefore
  · have hPos : 0 < (site content b).matchLength := length_pos_iff.mpr (hFound b (hPerm.mem_iff.mp hb)).1
    rw [Before]
    omega

theorem apart_of_before (h : ((ordered content edits).map (site content)).Pairwise Before) :
    (edits.map (site content)).Pairwise SitesApart := by
  have hPerm : (ordered content edits).Perm edits := perm_insertionSort _ _
  exact ((hPerm.map _).pairwise_iff Or.symm).mp (h.imp fun hBefore => .inl hBefore)

/-- When edits that are found exactly are applied, and what comes out. -/
theorem applyEdits_exact (hExact : usedFuzzyMatch nfkc content edits = false) :
    applyEdits nfkc content edits = .ok newContent ↔
      Found nfkc content edits ∧ (edits.map (site content)).Pairwise SitesApart ∧
        newContent = applyReplacements content ((ordered content edits).map (site content)) 0 ∧ content ≠ newContent := by
  have hBase : replacementBaseContent nfkc content edits = content := by rw [replacementBaseContent, if_neg (by rw [hExact]; simp)]
  rw [applyEdits]
  cases hEmpty : edits.findIdx? fun edit => edit.toLF.oldText = [] with
  | some index =>
    refine ⟨fun h => by simp [throw, throwThe, MonadExceptOf.throw] at h, fun h => ?_⟩
    obtain ⟨hLt, hNil, -⟩ := findIdx?_eq_some_iff_getElem.mp hEmpty
    exact absurd (of_decide_eq_true hNil) (h.1 _ (getElem_mem hLt)).1
  | none =>
    have hNonempty : ∀ edit ∈ edits, edit.toLF.oldText ≠ [] := by
      intro edit hEdit
      simpa using findIdx?_eq_none_iff.mp hEmpty edit hEdit
    simp only [hBase, hExact, Bool.false_eq_true, if_false, Outcome.bind_eq_ok, mapM_exact hExact]
    constructor
    · rintro ⟨matched, ⟨hAll, rfl⟩, ⟨⟩, hOverlap, replaced, hReplaced, hEnd⟩
      rw [checkOverlap_eq_ok, sites_sorted] at hOverlap
      rw [sites_sorted] at hReplaced
      split_ifs at hEnd with hSame
      obtain rfl := Except.ok.inj hEnd
      exact ⟨fun edit hEdit => ⟨hNonempty edit hEdit, hAll edit hEdit⟩, apart_of_before hOverlap,
        (Except.ok.inj hReplaced).symm, hSame⟩
    · rintro ⟨hFound, hApart, rfl, hChanged⟩
      refine ⟨_, ⟨fun edit hEdit => (hFound edit hEdit).2, rfl⟩, ⟨⟩, ?_, _, rfl, ?_⟩
      · rw [checkOverlap_eq_ok, sites_sorted]
        exact before_of_apart hFound hApart
      · rw [sites_sorted, if_neg hChanged]
        rfl

theorem ordered_perm {edits' : List TextEdit} (hPerm : edits'.Perm edits) (hFound : Found nfkc content edits)
    (hApart : (edits.map (site content)).Pairwise SitesApart) :
    (ordered content edits').map (site content) = (ordered content edits).map (site content) := by
  have hSame : ∀ edits : List TextEdit, ((ordered content edits).map (site content)).Perm (edits.map (site content)) :=
    fun edits => (perm_insertionSort _ edits).map _
  have hSorted : ∀ edits : List TextEdit, ((ordered content edits).map (site content)).Pairwise byIndex := by
    intro edits
    rw [pairwise_map]
    exact @pairwise_insertionSort _ (fun a b => (site content a).matchIndex ≤ (site content b).matchIndex) _
      ⟨fun _ _ => Nat.le_total _ _⟩ ⟨fun _ _ _ => Nat.le_trans⟩ edits
  have hMem : ∀ {a}, a ∈ (ordered content edits').map (site content) → a ∈ edits.map (site content) :=
    fun h => ((hSame edits').trans (hPerm.map _)).mem_iff.mp h
  have hPos : ∀ a ∈ edits.map (site content), 0 < a.matchLength := by
    intro a ha
    obtain ⟨edit, hEdit, rfl⟩ := mem_map.mp ha
    exact length_pos_iff.mpr (hFound edit hEdit).1
  apply Perm.eq_of_pairwise _ (hSorted edits') (hSorted edits) ((hSame edits').trans ((hPerm.map _).trans (hSame edits).symm))
  intro a b ha hb hab hba
  by_contra hNe
  have hLengthA := hPos a (hMem ha)
  have hLengthB := hPos b ((hSame edits).mem_iff.mp hb)
  have hBoth := hApart.forall (hMem ha) ((hSame edits).mem_iff.mp hb) hNe
  rw [byIndex] at hab hba
  rw [SitesApart] at hBoth
  omega

/-! The new content. -/

theorem cut_from {start : Nat} (hStart : ∀ edit ∈ edits, start ≤ (site content edit).matchIndex)
    (hSome : ∀ edit ∈ edits, (indexOf edit.toLF.oldText content).isSome)
    (hBefore : (edits.map (site content)).Pairwise Before) :
    ∃ (pieces : List (JsString × TextEdit)) (last : JsString), pieces.map Prod.snd = edits ∧
      content.drop start = pieces.flatMap (fun piece => piece.1 ++ piece.2.toLF.oldText) ++ last ∧
      applyReplacements content (edits.map (site content)) 0 =
        content.take start ++ pieces.flatMap (fun piece => piece.1 ++ piece.2.toLF.newText) ++ last := by
  induction edits generalizing start with
  | nil =>
    refine ⟨[], content.drop start, rfl, rfl, ?_⟩
    rw [flatMap_nil, append_nil, take_append_drop]
    rfl
  | cons edit rest ih =>
    obtain ⟨index, hIndex⟩ := Option.isSome_iff_exists.mp (hSome edit mem_cons_self)
    have hSite : site content edit = ⟨index, edit.toLF.oldText.length, edit.toLF.newText⟩ := by rw [site, hIndex]; rfl
    obtain ⟨hSplit, hEnd⟩ := split_at_occurrence (indexOf_some hIndex)
    obtain ⟨hFirst, hRest⟩ := pairwise_cons.mp hBefore
    have hFrom : start ≤ index := by
      have hLe := hStart edit mem_cons_self
      rwa [hSite] at hLe
    obtain ⟨pieces, last, hEdits, hOld, hNew⟩ := @ih (index + edit.toLF.oldText.length)
      (fun other hOther => by
        have hAfter := hFirst _ (mem_map_of_mem hOther)
        rwa [Before, hSite] at hAfter)
      (fun other hOther => hSome other (mem_cons_of_mem _ hOther)) hRest
    have hGap : start + (index - start) = index := by omega
    refine ⟨((content.drop start).take (index - start), edit) :: pieces, last, by rw [map_cons, hEdits], ?_, ?_⟩
    · rw [flatMap_cons, append_assoc, append_assoc, ← hOld, ← hSplit]
      conv_lhs => rw [← take_append_drop (index - start) (content.drop start), drop_drop, hGap]
    · have hTake : (content.take (index + edit.toLF.oldText.length)).length = index + edit.toLF.oldText.length := by
        rw [length_take]
        omega
      have hBegin : content.take index = content.take start ++ (content.drop start).take (index - start) := by
        rw [← take_add, hGap]
      have hCut : ∀ more : JsString, (content.take (index + edit.toLF.oldText.length) ++ more).take index =
          content.take index := by
        intro more
        rw [take_append_of_le_length (by rw [hTake]; omega), take_take, Nat.min_eq_left (Nat.le_add_right _ _)]
      rw [map_cons, applyReplacements, foldr_cons, ← applyReplacements, hNew, hSite, Nat.sub_zero,
        append_assoc (content.take _), drop_left' hTake, hCut, hBegin, flatMap_cons]
      simp only [append_assoc]

/-- An edit whose text occurs several times and is counted at most once. -/
def Hidden (nfkc : JsString → JsString) (content : JsString) (edit : TextEdit) : Prop :=
  1 < (occurrences content edit.toLF.oldText).length ∧ countOccurrences nfkc content edit.toLF.oldText ≤ 1

/-- Edits that are applied without fuzzy matching are unambiguous when the count hides no
occurrence, and only then. -/
theorem edits_unambiguous_iff (hExact : usedFuzzyMatch nfkc content edits = false)
    (hApplied : applyEdits nfkc content edits = .ok newContent) :
    Unambiguous nfkc content newContent edits ↔ ∀ edit ∈ edits, ¬ Hidden nfkc content edit := by
  obtain ⟨hFound, hApart, rfl, hChanged⟩ := (applyEdits_exact hExact).mp hApplied
  constructor
  · intro h edit hEdit hHidden
    obtain ⟨index, hOnce⟩ := h.once edit hEdit
    rw [Hidden, hOnce] at hHidden
    exact Nat.lt_irrefl _ hHidden.1
  · intro hSeen
    have hOnce : ∀ edit ∈ edits, occurrences content edit.toLF.oldText = [(site content edit).matchIndex] := by
      intro edit hEdit
      obtain ⟨index, hIndex⟩ := Option.isSome_iff_exists.mp (hFound edit hEdit).2.1
      have hLength : (occurrences content edit.toLF.oldText).length ≤ 1 := by
        have hNot := hSeen edit hEdit
        rw [Hidden, not_and] at hNot
        exact Nat.not_lt.mp fun hMore => hNot hMore (hFound edit hEdit).2.2
      rw [site, hIndex]
      obtain ⟨only, hOnly⟩ := length_eq_one_iff.mp
        (Nat.le_antisymm hLength (length_pos_of_mem (indexOf_some hIndex)))
      have hMem := indexOf_some hIndex
      rw [hOnly] at hMem ⊢
      rw [mem_singleton.mp hMem]
      rfl
    have hPerm : (ordered content edits).Perm edits := perm_insertionSort _ _
    refine ⟨fun edit hEdit => ⟨_, hOnce edit hEdit⟩, ?_, ?_, ?_⟩
    · refine (pairwise_map.mp hApart).imp_of_mem fun {a b} ha hb hSites i hi j hj => ?_
      rw [hOnce a ha, mem_singleton] at hi
      rw [hOnce b hb, mem_singleton] at hj
      rw [hi, hj]
      exact hSites
    · obtain ⟨pieces, last, hEdits, hOld, hNew⟩ := cut_from (fun _ _ => Nat.zero_le _)
        (fun edit hEdit => (hFound edit (hPerm.mem_iff.mp hEdit)).2.1) (before_of_apart hFound hApart)
      exact ⟨⟨pieces, last, hEdits ▸ hPerm, hOld, hNew⟩⟩
    · intro edits' hSame
      have hExact' : usedFuzzyMatch nfkc content edits' = false := by
        rw [usedFuzzyMatch, any_eq_false] at hExact ⊢
        exact fun edit hEdit => hExact edit (hSame.mem_iff.mp hEdit)
      rw [applyEdits_exact hExact', ordered_perm hSame hFound hApart]
      exact ⟨fun edit hEdit => hFound edit (hSame.mem_iff.mp hEdit),
        ((hSame.map _).pairwise_iff Or.symm).mpr hApart, rfl, hChanged⟩

end

/-- A text that is there once is replaced. -/
theorem edit_unambiguous :
    Unambiguous id (js "abc") (js "adc") [⟨js "b", js "d"⟩] :=
  (edits_unambiguous_iff (by decide) rfl).mpr (by
    intro edit hEdit
    rw [mem_singleton.mp hEdit, Hidden]
    decide)

/-- The two places of `aa` in `aaa` overlap and count as one. -/
theorem overlapping_places_applied :
    usedFuzzyMatch id (js "aaa") [⟨js "aa", js "b"⟩] = false ∧
      applyEdits id (js "aaa") [⟨js "aa", js "b"⟩] = .ok (js "ba") ∧
      ¬ Unambiguous id (js "aaa") (js "ba") [⟨js "aa", js "b"⟩] := by
  refine ⟨by decide, rfl, fun h => ?_⟩
  obtain ⟨index, hOnce⟩ := h.once _ (mem_singleton_self _)
  have hLength : (occurrences (js "aaa") (js "aa")).length = 1 := congrArg length hOnce
  exact absurd hLength (by decide)

end OctoberHarness.Edit
