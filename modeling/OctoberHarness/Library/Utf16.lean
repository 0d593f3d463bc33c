import Mathlib.Data.Char
import Mathlib.Data.List.Lex
import OctoberHarness.Library.Utf8

/-! Text as UTF-16 code units and as UTF-8 bytes: reading units back, and the two orders of
encoded text, which are the order of its code points. -/

/-! Lexicographic order under an encoding of the elements. -/
namespace LexOrder

open List

variable {α β : Type*} [LinearOrder α] [LinearOrder β]

variable {u v : β}

/-- The first place where two lists differ decides. -/
theorem append_cons_lt (first : List β) (h : u < v) (s t : List β) : first ++ u :: s < first ++ v :: t := by
  induction first with
  | nil => exact cons_lt_cons_iff.mpr (.inl h)
  | cons x rest ih => exact cons_lt_cons_iff.mpr (.inr ⟨rfl, ih⟩)

theorem append_lt_append (first : List β) {s t : List β} (h : s < t) : first ++ s < first ++ t := by
  induction first with
  | nil => exact h
  | cons x rest ih => exact cons_lt_cons_iff.mpr (.inr ⟨rfl, ih⟩)

/-- Two lists differ at some place, and the first is less there. -/
def Differ (a b : List β) : Prop :=
  ∃ first u v s t, a = first ++ u :: s ∧ b = first ++ v :: t ∧ u < v

theorem Differ.head (h : u < v) (s t : List β) : Differ (u :: s) (v :: t) :=
  ⟨[], u, v, s, t, rfl, rfl, h⟩

theorem Differ.cons (hSame : u = v) {s t : List β} (h : Differ s t) : Differ (u :: s) (v :: t) := by
  obtain ⟨first, x, y, s', t', rfl, rfl, hLess⟩ := h
  exact ⟨u :: first, x, y, s', t', rfl, by rw [hSame]; rfl, hLess⟩

/-- Codes of different elements differ like the elements. -/
def Keeps (code : α → List β) : Prop :=
  ∀ c d, c < d → Differ (code c) (code d)

theorem flatMap_lt {code : α → List β} (hKeeps : Keeps code) (hNe : ∀ c, code c ≠ []) {a b : List α} (h : a < b) :
    a.flatMap code < b.flatMap code := by
  induction a generalizing b with
  | nil =>
    cases b with
    | nil => exact absurd h (lt_irrefl _)
    | cons d b =>
      obtain ⟨v, t, hCode⟩ := exists_cons_of_ne_nil (hNe d)
      rw [flatMap_nil, List.flatMap_cons, hCode]
      exact nil_lt_cons _ _
  | cons c a ih =>
    cases b with
    | nil => exact absurd h (not_lt_nil _)
    | cons d b =>
      rw [List.flatMap_cons, List.flatMap_cons]
      rcases cons_lt_cons_iff.mp h with hLess | ⟨rfl, hRest⟩
      · obtain ⟨first, u, v, s, t, hFirst, hSecond, hUnits⟩ := hKeeps c d hLess
        rw [hFirst, hSecond, append_assoc, append_assoc]
        exact append_cons_lt first hUnits _ _
      · exact append_lt_append _ (ih hRest)

/-- Encoded lists are ordered as the lists are. -/
theorem flatMap_lt_iff {code : α → List β} (hKeeps : Keeps code) (hNe : ∀ c, code c ≠ []) (a b : List α) :
    a.flatMap code < b.flatMap code ↔ a < b := by
  refine ⟨fun h => ?_, flatMap_lt hKeeps hNe⟩
  rcases lt_trichotomy a b with hLess | rfl | hGreater
  · exact hLess
  · exact absurd h (lt_irrefl _)
  · exact absurd h (lt_asymm (flatMap_lt hKeeps hNe hGreater))

end LexOrder

namespace Utf8

/-- The bytes of a character, as numbers. -/
def charCode (c : Char) : List Nat :=
  (String.utf8EncodeChar c).map UInt8.toNat

/-- `memcmp`: bytes as unsigned numbers. -/
def bytesLess (first second : List UInt8) : Bool :=
  decide (first.map UInt8.toNat < second.map UInt8.toNat)

/-- The bytes of a code point: a leading byte and digits to base 64. -/
def digits (n : Nat) : List Nat :=
  if n ≤ 0x7f then [n]
  else if n ≤ 0x7ff then [n / 64 % 0x20 + 0xc0, n % 0x40 + 0x80]
  else if n ≤ 0xffff then [n / 4096 % 0x10 + 0xe0, n / 64 % 0x40 + 0x80, n % 0x40 + 0x80]
  else [n / 262144 % 0x08 + 0xf0, n / 4096 % 0x40 + 0x80, n / 64 % 0x40 + 0x80, n % 0x40 + 0x80]

theorem charCode_eq (c : Char) : charCode c = digits c.val.toNat := by
  have hByte : ∀ n < 256, (UInt8.ofNat n).toNat = n := fun n hn => Nat.mod_eq_of_lt hn
  rw [charCode, String.utf8EncodeChar, digits]
  show List.map _ (if _ then _ else if _ then _ else if _ then _ else _) = _
  split_ifs
  · rw [List.map_cons, List.map_nil, hByte _ (by omega)]
  · rw [List.map_cons, List.map_cons, List.map_nil, hByte _ (by omega), hByte _ (by omega)]
  · rw [List.map_cons, List.map_cons, List.map_cons, List.map_nil, hByte _ (by omega), hByte _ (by omega),
      hByte _ (by omega)]
  · rw [List.map_cons, List.map_cons, List.map_cons, List.map_cons, List.map_nil, hByte _ (by omega),
      hByte _ (by omega), hByte _ (by omega), hByte _ (by omega)]

theorem charCode_ne_nil (c : Char) : charCode c ≠ [] := by
  rw [charCode_eq, digits]
  split_ifs <;> exact List.cons_ne_nil _ _

/-- The leading byte of a longer code is greater; codes of one length differ like their
digits. -/
theorem differ_digits {n m : Nat} (hLess : n < m) (hBound : m < 0x110000) : LexOrder.Differ (digits n) (digits m) := by
  rw [digits, digits]
  by_cases hOne : n ≤ 0x7f
  · rw [if_pos hOne]
    split_ifs <;> exact .head (by omega) _ _
  · rw [if_neg hOne, if_neg (show ¬ m ≤ 0x7f by omega)]
    by_cases hTwo : n ≤ 0x7ff
    · rw [if_pos hTwo]
      split_ifs
      · rcases Nat.lt_or_ge (n / 64) (m / 64) with hHead | hHead
        · exact .head (by omega) _ _
        · exact .cons (by omega) (.head (by omega) _ _)
      · exact .head (by omega) _ _
      · exact .head (by omega) _ _
    · rw [if_neg hTwo, if_neg (show ¬ m ≤ 0x7ff by omega)]
      by_cases hThree : n ≤ 0xffff
      · rw [if_pos hThree]
        split_ifs
        · rcases Nat.lt_or_ge (n / 4096) (m / 4096) with hHead | hHead
          · exact .head (by omega) _ _
          · rcases Nat.lt_or_ge (n / 64) (m / 64) with hSecond | hSecond
            · exact .cons (by omega) (.head (by omega) _ _)
            · exact .cons (by omega) (.cons (by omega) (.head (by omega) _ _))
        · exact .head (by omega) _ _
      · rw [if_neg hThree, if_neg (show ¬ m ≤ 0xffff by omega)]
        rcases Nat.lt_or_ge (n / 262144) (m / 262144) with hHead | hHead
        · exact .head (by omega) _ _
        · rcases Nat.lt_or_ge (n / 4096) (m / 4096) with hSecond | hSecond
          · exact .cons (by omega) (.head (by omega) _ _)
          · rcases Nat.lt_or_ge (n / 64) (m / 64) with hThird | hThird
            · exact .cons (by omega) (.cons (by omega) (.head (by omega) _ _))
            · exact .cons (by omega) (.cons (by omega) (.cons (by omega) (.head (by omega) _ _)))

theorem keeps_charCode : LexOrder.Keeps charCode := by
  intro c d hLess
  have hBound : d.val.toNat < 0x110000 := by
    rcases d.valid with hLow | ⟨-, hHigh⟩
    · exact Nat.lt_trans hLow (by decide)
    · exact hHigh
  rw [charCode_eq, charCode_eq]
  exact differ_digits hLess hBound

theorem bytesLess_encode (a b : List Char) : bytesLess (encode a) (encode b) = true ↔ a < b := by
  have hMap : ∀ text, (encode text).map UInt8.toNat = text.flatMap charCode := fun text => List.map_flatMap
  rw [bytesLess, decide_eq_true_eq, hMap, hMap]
  exact LexOrder.flatMap_lt_iff keeps_charCode charCode_ne_nil a b

end Utf8

namespace Utf16

/-- The code units of a character. -/
def units (c : Char) : List UInt16 :=
  if c.toNat < 0x10000 then [UInt16.ofNat c.toNat]
  else [UInt16.ofNat (0xD800 + (c.toNat - 0x10000) / 0x400), UInt16.ofNat (0xDC00 + (c.toNat - 0x10000) % 0x400)]

/-- A well-formed string. -/
def encode (text : List Char) : List UInt16 :=
  text.flatMap units

def isHigh (unit : UInt16) : Bool :=
  0xD800 ≤ unit && unit ≤ 0xDBFF

def isLow (unit : UInt16) : Bool :=
  0xDC00 ≤ unit && unit ≤ 0xDFFF

def pairChar (high low : UInt16) : Char :=
  .ofNat (0x10000 + (high.toNat - 0xD800) * 0x400 + (low.toNat - 0xDC00))

/-- The character of a unit outside a pair: the replacement character for a lone surrogate. -/
def unitChar (unit : UInt16) : Char :=
  if isHigh unit || isLow unit then .ofNat 0xFFFD else .ofNat unit.toNat

/-- The code points of a string, made well-formed. -/
def decode : List UInt16 → List Char
  | [] => []
  | [unit] => [unitChar unit]
  | unit :: next :: rest =>
    if isHigh unit && isLow next then pairChar unit next :: decode rest
    else unitChar unit :: decode (next :: rest)

theorem units_cases (c : Char) :
    (∃ unit, units c = [unit] ∧ isHigh unit = false ∧ isLow unit = false ∧ unit.toNat = c.toNat) ∨
      ∃ high low, units c = [high, low] ∧ isHigh high = true ∧ isLow low = true ∧ pairChar high low = c ∧
        c.toNat = 0x10000 + (high.toNat - 0xD800) * 0x400 + (low.toNat - 0xDC00) := by
  have hBound : c.toNat < 0x110000 ∧ ¬ (0xD800 ≤ c.toNat ∧ c.toNat < 0xE000) := by
    rcases c.valid with hLow | ⟨hMiddle, hHigh⟩
    · have hLow : c.toNat < 0xD800 := hLow
      omega
    · have hMiddle : 0xDFFF < c.toNat := hMiddle
      have hHigh : c.toNat < 0x110000 := hHigh
      omega
  have hUnit : ∀ n < 0x10000, (UInt16.ofNat n).toNat = n := fun n hn => Nat.mod_eq_of_lt hn
  rw [units]
  split_ifs with hPlane
  · have hValue := hUnit c.toNat hPlane
    left
    refine ⟨_, rfl, ?_, ?_, hValue⟩
    · simp only [isHigh, Bool.and_eq_false_iff, decide_eq_false_iff_not, UInt16.le_iff_toNat_le, hValue]
      simp only [UInt16.reduceToNat]
      omega
    · simp only [isLow, Bool.and_eq_false_iff, decide_eq_false_iff_not, UInt16.le_iff_toNat_le, hValue]
      simp only [UInt16.reduceToNat]
      omega
  · have hFirst := hUnit (0xD800 + (c.toNat - 0x10000) / 0x400) (by omega)
    have hSecond := hUnit (0xDC00 + (c.toNat - 0x10000) % 0x400) (by omega)
    right
    refine ⟨_, _, rfl, ?_, ?_, ?_, ?_⟩
    · simp only [isHigh, Bool.and_eq_true, decide_eq_true_eq, UInt16.le_iff_toNat_le, hFirst]
      simp only [UInt16.reduceToNat]
      omega
    · simp only [isLow, Bool.and_eq_true, decide_eq_true_eq, UInt16.le_iff_toNat_le, hSecond]
      simp only [UInt16.reduceToNat]
      omega
    · rw [pairChar, hFirst, hSecond]
      have hSum : 0x10000 + (0xD800 + (c.toNat - 0x10000) / 0x400 - 0xD800) * 0x400 +
          (0xDC00 + (c.toNat - 0x10000) % 0x400 - 0xDC00) = c.toNat := by omega
      rw [hSum, Char.ofNat_toNat]
    · rw [hFirst, hSecond]
      omega

theorem unitChar_of_plain {unit : UInt16} {c : Char} (hHigh : isHigh unit = false) (hLow : isLow unit = false)
    (hValue : unit.toNat = c.toNat) : unitChar unit = c := by
  rw [unitChar, hHigh, hLow, Bool.or_self, if_neg Bool.false_ne_true, hValue, Char.ofNat_toNat]

/-- A well-formed string is read back. -/
theorem decode_encode (text : List Char) : decode (encode text) = text := by
  induction text with
  | nil => rfl
  | cons c rest ih =>
    rw [encode, List.flatMap_cons]
    rcases units_cases c with ⟨unit, hUnits, hHigh, hLow, hValue⟩ | ⟨high, low, hUnits, hHigh, hLow, hPair, -⟩
    · have hChar := unitChar_of_plain hHigh hLow hValue
      rw [hUnits, List.singleton_append]
      cases hRest : rest.flatMap units with
      | nil =>
        have hDone : decode (encode rest) = [] := by rw [encode, hRest, decode]
        rw [decode, hChar, ← ih, hDone]
      | cons next others =>
        rw [decode, hHigh, Bool.false_and, if_neg Bool.false_ne_true, hChar, ← hRest]
        exact congrArg _ ih
    · rw [hUnits, List.cons_append, List.singleton_append, decode, hHigh, hLow, Bool.and_self, if_pos rfl, hPair]
      exact congrArg _ ih

end Utf16
