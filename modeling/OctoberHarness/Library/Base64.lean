import Mathlib.Tactic

/-! Base64 as `btoa` and `atob` have it, over UTF-16 code units, and its URL form without
padding. -/
namespace Base64

open List

/-- The digits of bytes to base 64. -/
def sextets : List UInt8 → List Nat
  | a :: b :: c :: rest =>
    a.toNat / 4 :: (a.toNat % 4 * 16 + b.toNat / 16) :: (b.toNat % 16 * 4 + c.toNat / 64) :: c.toNat % 64 :: sextets rest
  | [a, b] => [a.toNat / 4, a.toNat % 4 * 16 + b.toNat / 16, b.toNat % 16 * 4]
  | [a] => [a.toNat / 4, a.toNat % 4 * 16]
  | [] => []

def letter (n : Nat) : UInt16 :=
  if n < 26 then UInt16.ofNat (65 + n)
  else if n < 52 then UInt16.ofNat (71 + n)
  else if n < 62 then UInt16.ofNat (n - 4)
  else if n = 62 then 43
  else 47

def digit (unit : UInt16) : Option Nat :=
  let n := unit.toNat
  if 65 ≤ n ∧ n ≤ 90 then some (n - 65)
  else if 97 ≤ n ∧ n ≤ 122 then some (n - 71)
  else if 48 ≤ n ∧ n ≤ 57 then some (n + 4)
  else if n = 43 then some 62
  else if n = 47 then some 63
  else none

/-- `btoa` of the binary string of bytes. -/
def btoa (bytes : List UInt8) : List UInt16 :=
  (sextets bytes).map letter ++ replicate ((3 - bytes.length % 3) % 3) 61

/-- The bytes of digits; bits of no whole byte are dropped. -/
def bytesOf : List Nat → List UInt8
  | a :: b :: c :: d :: rest =>
    UInt8.ofNat (a * 4 + b / 16) :: UInt8.ofNat (b % 16 * 16 + c / 4) :: UInt8.ofNat (c % 4 * 64 + d) :: bytesOf rest
  | [a, b, c] => [UInt8.ofNat (a * 4 + b / 16), UInt8.ofNat (b % 16 * 16 + c / 4)]
  | [a, b] => [UInt8.ofNat (a * 4 + b / 16)]
  | _ => []

def isSpace (unit : UInt16) : Bool :=
  unit = 9 || unit = 10 || unit = 12 || unit = 13 || unit = 32

/-- One or two `=` at the end. -/
def dropPadding (text : List UInt16) : List UInt16 :=
  if text.getLast? = some 61 then
    if text.dropLast.getLast? = some 61 then text.dropLast.dropLast else text.dropLast
  else text

/-- `atob`, as the bytes of its binary string. -/
def atob (text : List UInt16) : Option (List UInt8) :=
  let text := text.filter fun unit => !isSpace unit
  let text := if text.length % 4 = 0 then dropPadding text else text
  if text.length % 4 = 1 then none else (text.mapM digit).map bytesOf

/-- `replaceAll` of a unit. -/
def replaceUnit (unit new : UInt16) (text : List UInt16) : List UInt16 :=
  text.map fun other => if other = unit then new else other

/-- `replace(/=+$/, "")`. -/
def stripPadding (text : List UInt16) : List UInt16 :=
  (text.reverse.dropWhile fun unit => unit = 61).reverse

/-- The URL form: `-` and `_` for `+` and `/`, and no padding. -/
def encodeUrl (bytes : List UInt8) : List UInt16 :=
  stripPadding (replaceUnit 47 95 (replaceUnit 43 45 (btoa bytes)))

def decodeUrl (text : List UInt16) : Option (List UInt8) :=
  atob (replaceUnit 95 47 (replaceUnit 45 43 text))

variable (bytes : List UInt8)

theorem sextets_lt : ∀ n ∈ sextets bytes, n < 64 := by
  induction bytes using sextets.induct with
  | case1 a b c rest ih =>
    have hBytes := And.intro a.toNat_lt (And.intro b.toNat_lt c.toNat_lt)
    intro n hn
    rw [sextets] at hn
    simp only [mem_cons] at hn
    rcases hn with rfl | rfl | rfl | rfl | hRest
    · omega
    · omega
    · omega
    · omega
    · exact ih n hRest
  | case2 a b =>
    have hBytes := And.intro a.toNat_lt b.toNat_lt
    intro n hn
    simp only [sextets, mem_cons, not_mem_nil, or_false] at hn
    rcases hn with rfl | rfl | rfl <;> omega
  | case3 a =>
    have hByte := a.toNat_lt
    intro n hn
    simp only [sextets, mem_cons, not_mem_nil, or_false] at hn
    rcases hn with rfl | rfl <;> omega
  | case4 => exact fun n hn => absurd hn not_mem_nil

theorem length_sextets : (sextets bytes).length % 4 ≠ 1 := by
  induction bytes using sextets.induct with
  | case1 a b c rest ih =>
    rw [sextets]
    simp only [length_cons]
    omega
  | case2 a b => exact (by decide : 3 % 4 ≠ 1)
  | case3 a => exact (by decide : 2 % 4 ≠ 1)
  | case4 => decide

theorem bytesOf_sextets : bytesOf (sextets bytes) = bytes := by
  have hByte : ∀ (byte : UInt8) n, n = byte.toNat → UInt8.ofNat n = byte := fun byte n hn => by
    rw [hn, UInt8.ofNat_toNat]
  induction bytes using sextets.induct with
  | case1 a b c rest ih =>
    have hBytes := And.intro a.toNat_lt (And.intro b.toNat_lt c.toNat_lt)
    rw [sextets, bytesOf, ih, hByte a _ (by omega), hByte b _ (by omega), hByte c _ (by omega)]
  | case2 a b =>
    have hBytes := And.intro a.toNat_lt b.toNat_lt
    rw [sextets, bytesOf, hByte a _ (by omega), hByte b _ (by omega)]
  | case3 a =>
    have hLess := a.toNat_lt
    rw [sextets, bytesOf, hByte a _ (by omega)]
  | case4 => rfl

def urlLetter (n : Nat) : UInt16 :=
  if n = 62 then 45 else if n = 63 then 95 else letter n

theorem url_letters : ∀ n < 64,
    (if (if letter n = 43 then 45 else letter n) = 47 then 95 else if letter n = 43 then 45 else letter n) = urlLetter n ∧
      urlLetter n ≠ 61 ∧
      (if (if urlLetter n = 45 then 43 else urlLetter n) = 95 then 47
        else if urlLetter n = 45 then 43 else urlLetter n) = letter n ∧
      isSpace (letter n) = false ∧ letter n ≠ 61 ∧ digit (letter n) = some n := by
  decide +kernel

theorem encodeUrl_eq : encodeUrl bytes = (sextets bytes).map urlLetter := by
  have hLetters : (sextets bytes).map ((fun other => if other = 47 then 95 else other) ∘
      (fun other => if other = 43 then 45 else other) ∘ letter) = (sextets bytes).map urlLetter :=
    map_congr_left fun n hn => (url_letters n (sextets_lt bytes n hn)).1
  have hPadding : ∀ count, (replicate count (61 : UInt16)).map ((fun other => if other = 47 then 95 else other) ∘
      fun other => if other = 43 then 45 else other) = replicate count 61 := by
    intro count
    rw [map_replicate]
    rfl
  have hStrip : ∀ count, (replicate count (61 : UInt16) ++ ((sextets bytes).map urlLetter).reverse).dropWhile
      (fun unit => unit = 61) = ((sextets bytes).map urlLetter).reverse := by
    intro count
    induction count with
    | zero =>
      rw [replicate_zero, nil_append]
      cases hReverse : ((sextets bytes).map urlLetter).reverse with
      | nil => rfl
      | cons unit rest =>
        have hMem : unit ∈ (sextets bytes).map urlLetter := by
          rw [← mem_reverse, hReverse]
          exact mem_cons_self
        obtain ⟨n, hn, rfl⟩ := List.mem_map.mp hMem
        rw [dropWhile_cons_of_neg]
        simpa using (url_letters n (sextets_lt bytes n hn)).2.1
    | succ count ih =>
      rw [replicate_succ, cons_append, dropWhile_cons_of_pos (by decide), ih]
  rw [encodeUrl, stripPadding, replaceUnit, replaceUnit, btoa, map_map, map_append, map_map,
    hPadding, Function.comp_assoc, hLetters, reverse_append, reverse_replicate, hStrip, reverse_reverse]

theorem decodeUrl_encodeUrl : decodeUrl (encodeUrl bytes) = some bytes := by
  have hText : replaceUnit 95 47 (replaceUnit 45 43 ((sextets bytes).map urlLetter)) = (sextets bytes).map letter := by
    rw [replaceUnit, replaceUnit, map_map, map_map]
    exact map_congr_left fun n hn => (url_letters n (sextets_lt bytes n hn)).2.2.1
  have hUnits : ∀ unit ∈ (sextets bytes).map letter, isSpace unit = false ∧ unit ≠ 61 := by
    intro unit hUnit
    obtain ⟨n, hn, rfl⟩ := List.mem_map.mp hUnit
    have hLetter := url_letters n (sextets_lt bytes n hn)
    exact ⟨hLetter.2.2.2.1, hLetter.2.2.2.2.1⟩
  have hFilter : ((sextets bytes).map letter).filter (fun unit => !isSpace unit) = (sextets bytes).map letter := by
    rw [filter_eq_self]
    intro unit hUnit
    rw [(hUnits unit hUnit).1]
    rfl
  have hPadding : dropPadding ((sextets bytes).map letter) = (sextets bytes).map letter := by
    rw [dropPadding, if_neg]
    intro hLast
    exact (hUnits 61 (mem_of_getLast? hLast)).2 rfl
  have hDigits : ((sextets bytes).map letter).mapM digit = some (sextets bytes) := by
    rw [mapM_map]
    have hAll : ∀ digits : List Nat, (∀ n ∈ digits, n < 64) → digits.mapM (digit ∘ letter) = some digits := by
      intro digits hLess
      induction digits with
      | nil => rfl
      | cons n rest ih =>
        rw [mapM_cons, Function.comp_apply, (url_letters n (hLess n mem_cons_self)).2.2.2.2.2,
          ih fun m hm => hLess m (mem_cons_of_mem _ hm)]
        rfl
    exact hAll (sextets bytes) (sextets_lt bytes)
  rw [decodeUrl, encodeUrl_eq, hText, atob, hFilter, hPadding, ite_self, length_map,
    if_neg (length_sextets bytes), hDigits, Option.map_some, bytesOf_sextets]

end Base64
