import Mathlib.Tactic

/-! Lists that are read page by page, each page with the cursor of the next one. -/
namespace Paging

open List Option

variable {ε α γ : Type}

/-- What the pages of a scan hold from a cursor on, up to the page without a next
cursor. -/
inductive Followed (scan : Option γ → Except ε (List α × Option γ)) : Option γ → List α → Prop where
  | last {cursor : Option γ} {items : List α} (hPage : scan cursor = .ok (items, none)) : Followed scan cursor items
  | more {cursor : Option γ} {items rest : List α} {next : γ} (hPage : scan cursor = .ok (items, some next))
      (hRest : Followed scan (some next) rest) : Followed scan cursor (items ++ rest)

variable {scan : Option γ → Except ε (List α × Option γ)}

/-- The pages of a scan hold one list only. -/
theorem Followed.unique {cursor : Option γ} {first second : List α}
    (hFirst : Followed scan cursor first) (hSecond : Followed scan cursor second) : first = second := by
  induction hFirst generalizing second with
  | last hPage =>
    cases hSecond with
    | last hOther => exact (Prod.mk.inj (Except.ok.inj (hPage.symm.trans hOther))).1
    | more hOther hRest => exact absurd (Prod.mk.inj (Except.ok.inj (hPage.symm.trans hOther))).2 (by simp)
  | more hPage hRest ih =>
    cases hSecond with
    | last hOther => exact absurd (Prod.mk.inj (Except.ok.inj (hPage.symm.trans hOther))).2 (by simp)
    | more hOther hOtherRest =>
      obtain ⟨hItems, hNext⟩ := Prod.mk.inj (Except.ok.inj (hPage.symm.trans hOther))
      obtain rfl := some.inj hNext
      rw [hItems, ih hOtherRest]

/-- A scan that goes on after the last value of what was read, a page at a time,
reads everything. -/
theorem followed_of_resumes {all : List α} (cursorOf : α → γ)
    {limit : Nat} (hLimit : 1 ≤ limit) (hScan : ∀ done rest, all = done ++ rest →
      scan (done.getLast?.map cursorOf) =
        .ok (rest.take limit, if rest.length ≤ limit then none else (rest.take limit).getLast?.map cursorOf)) :
    Followed scan none all := by
  suffices h : ∀ n done rest, rest.length ≤ n → all = done ++ rest → Followed scan (done.getLast?.map cursorOf) rest from
    h all.length [] all (Nat.le_refl _) rfl
  intro n
  induction n with
  | zero =>
    intro done rest hLength hAll
    have hPage := hScan done rest hAll
    have hEmpty : rest = [] := length_eq_zero_iff.mp (Nat.le_zero.mp hLength)
    rw [hEmpty] at hPage ⊢
    exact .last (by simpa using hPage)
  | succ n ih =>
    intro done rest hLength hAll
    have hPage := hScan done rest hAll
    by_cases hLast : rest.length ≤ limit
    · rw [if_pos hLast, take_of_length_le hLast] at hPage
      exact .last hPage
    · rw [if_neg hLast] at hPage
      have hTake : (rest.take limit).length = limit := length_take_of_le (by omega)
      obtain ⟨value, hValue⟩ : ∃ value, (rest.take limit).getLast? = some value := by
        cases hSome : (rest.take limit).getLast? with
        | some value => exact ⟨value, rfl⟩
        | none =>
          rw [getLast?_eq_none_iff.mp hSome, length_nil] at hTake
          omega
      have hNext := ih (done ++ rest.take limit) (rest.drop limit) (by rw [length_drop]; omega)
        (by rw [append_assoc, take_append_drop, hAll])
      rw [getLast?_append, hValue, some_or, map_some] at hNext
      rw [hValue, map_some] at hPage
      have hFollowed := Followed.more hPage hNext
      rwa [take_append_drop] at hFollowed

/-- A cursor that some page had, and what was read up to it. -/
inductive Reached (scan : Option γ → Except ε (List α × Option γ)) : Option γ → List α → Prop where
  | start : Reached scan none []
  | next {cursor : Option γ} {done items : List α} {next : γ} (hDone : Reached scan cursor done)
      (hPage : scan cursor = .ok (items, some next)) : Reached scan (some next) (done ++ items)

/-- A scan that goes on after the last value of what was read stands there at every cursor. -/
theorem reached_of_resumes {all : List α} (cursorOf : α → γ)
    {limit : Nat} (hLimit : 1 ≤ limit) (hScan : ∀ done rest, all = done ++ rest →
      scan (done.getLast?.map cursorOf) =
        .ok (rest.take limit, if rest.length ≤ limit then none else (rest.take limit).getLast?.map cursorOf))
    {cursor : Option γ} {done : List α} (h : Reached scan cursor done) :
    cursor = done.getLast?.map cursorOf ∧ ∃ rest, all = done ++ rest := by
  induction h with
  | start => exact ⟨rfl, all, rfl⟩
  | @next cursor done items next hDone hPage ih =>
    obtain ⟨rfl, rest, hAll⟩ := ih
    obtain ⟨hItems, hNext⟩ := Prod.mk.inj (Except.ok.inj ((hScan done rest hAll).symm.trans hPage))
    split_ifs at hNext with hLast
    have hFilled : (rest.take limit).getLast? ≠ none := by
      rw [ne_eq, getLast?_eq_none_iff, take_eq_nil_iff]
      rintro (hZero | rfl)
      · omega
      · exact hLast (Nat.zero_le _)
    obtain ⟨value, hValue⟩ := ne_none_iff_exists'.mp hFilled
    constructor
    · rw [← hItems, getLast?_append, hValue, some_or, ← hNext, hValue]
    · exact ⟨rest.drop limit, by rw [← hItems, append_assoc, take_append_drop, hAll]⟩

/-- In a list in order, the values after the last one of a first part are the
others. -/
theorem filter_after {done rest : List α} {after : α → α → Bool} (hOrder : (done ++ rest).Pairwise fun a b => after a b = true)
    (hAsymm : ∀ a b, after a b = true → after b a = false) (hIrrefl : ∀ a, after a a = false) {last : α}
    (hLast : done.getLast? = some last) : (done ++ rest).filter (after last) = rest := by
  obtain ⟨hDone, hRest, hBoth⟩ := pairwise_append.mp hOrder
  have hMem := mem_of_getLast? hLast
  have hBefore : done.filter (after last) = [] := by
    refine filter_eq_nil_iff.mpr fun x hx => ?_
    obtain ⟨init, rfl⟩ := getLast?_eq_some_iff.mp hLast
    rcases mem_append.mp hx with hInit | hSame
    · rw [hAsymm x last ((pairwise_append.mp hDone).2.2 x hInit last (mem_singleton_self last))]
      exact Bool.false_ne_true
    · rw [mem_singleton.mp hSame, hIrrefl]
      exact Bool.false_ne_true
  rw [filter_append, hBefore, nil_append]
  exact filter_eq_self.mpr fun x hx => hBoth last hMem x hx

end Paging
