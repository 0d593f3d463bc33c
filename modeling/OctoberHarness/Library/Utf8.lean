import Mathlib.Data.List.Count
import Mathlib.Tactic

/-! Text and its UTF-8 bytes: where characters start among the bytes, and which cuts of
the bytes are cuts of the text. -/
namespace Utf8

open List

def newline : UInt8 :=
  10

/-- The bytes of a text. -/
def encode (text : List Char) : List UInt8 :=
  text.flatMap String.utf8EncodeChar

/-- The text of bytes that are UTF-8. -/
def decode (bytes : List UInt8) : List Char :=
  (bytes.toByteArray.utf8Decode?.getD #[]).toList

/-- Whether a byte goes on with a character. -/
def isContinuation (byte : UInt8) : Bool :=
  byte &&& 0xc0 = 0x80

theorem isContinuation_iff (byte : UInt8) : isContinuation byte = true ↔ 0x80 ≤ byte.toNat ∧ byte.toNat < 0xc0 := by
  have hAll : ∀ n < 256, isContinuation (UInt8.ofNat n) = true ↔ 0x80 ≤ n ∧ n < 0xc0 := by decide +kernel
  have hByte := hAll byte.toNat byte.toNat_lt
  rwa [UInt8.ofNat_toNat] at hByte

theorem encode_cons (c : Char) (text : List Char) : encode (c :: text) = String.utf8EncodeChar c ++ encode text :=
  flatMap_cons

theorem encode_append (first second : List Char) : encode (first ++ second) = encode first ++ encode second :=
  flatMap_append

theorem decode_encode (text : List Char) : decode (encode text) = text := by
  rw [decode, show (encode text).toByteArray = text.utf8Encode from rfl, utf8Decode?_utf8Encode]
  rfl

theorem encodeChar_cons (c : Char) : ∃ first rest, String.utf8EncodeChar c = first :: rest ∧ isContinuation first = false ∧
    ∀ byte ∈ rest, isContinuation byte = true := by
  have hFirst : ∀ n < 256, n < 0x80 ∨ 0xc0 ≤ n → isContinuation (UInt8.ofNat n) = false := by
    intro n hByte hOut
    rw [Bool.eq_false_iff, Ne, isContinuation_iff, UInt8.toNat_ofNat', Nat.mod_eq_of_lt hByte]
    omega
  have hLater : ∀ n, isContinuation (UInt8.ofNat (n % 0x40 + 0x80)) = true := by
    intro n
    rw [isContinuation_iff, UInt8.toNat_ofNat', Nat.mod_eq_of_lt (by omega)]
    omega
  rw [String.utf8EncodeChar]
  split_ifs with hOne hTwo hThree
  · exact ⟨_, _, rfl, hFirst _ (by omega) (by omega), fun _ hByte => absurd hByte not_mem_nil⟩
  · refine ⟨_, _, rfl, hFirst _ (by omega) (by omega), fun byte hByte => ?_⟩
    rw [List.mem_singleton.mp hByte]
    exact hLater _
  · refine ⟨_, _, rfl, hFirst _ (by omega) (by omega), fun byte hByte => ?_⟩
    rcases List.mem_cons.mp hByte with rfl | hByte
    · exact hLater _
    · rw [List.mem_singleton.mp hByte]
      exact hLater _
  · refine ⟨_, _, rfl, hFirst _ (by omega) (by omega), fun byte hByte => ?_⟩
    rcases List.mem_cons.mp hByte with rfl | hByte
    · exact hLater _
    · rcases List.mem_cons.mp hByte with rfl | hByte
      · exact hLater _
      · rw [List.mem_singleton.mp hByte]
        exact hLater _

theorem encodeChar_newline : String.utf8EncodeChar '\n' = [newline] := by
  decide

theorem newline_notMem_encodeChar {c : Char} (h : c ≠ '\n') : newline ∉ String.utf8EncodeChar c := by
  obtain ⟨first, rest, hBytes, -, hRest⟩ := encodeChar_cons c
  have hLater : newline ∉ rest := fun hMem => nomatch hRest newline hMem
  rw [hBytes, mem_cons, not_or]
  refine ⟨fun hFirst => h ?_, hLater⟩
  subst hFirst
  rw [String.utf8EncodeChar] at hBytes
  have hSame : ∀ n < 256, UInt8.ofNat n = newline → n = 10 := by decide +kernel
  have hValue : c.val.toNat = 10 := by
    split_ifs at hBytes with hOne hTwo hThree
    · exact hSame _ (by omega) (cons.inj hBytes).1
    · have hHead := hSame _ (by omega) (cons.inj hBytes).1
      omega
    · have hHead := hSame _ (by omega) (cons.inj hBytes).1
      omega
    · have hHead := hSame _ (by omega) (cons.inj hBytes).1
      omega
  exact Char.ext (UInt32.toNat_inj.mp hValue)

theorem count_newline (text : List Char) : (encode text).count newline = text.count '\n' := by
  induction text with
  | nil => rfl
  | cons c rest ih =>
    rw [encode_cons, count_append, ih, count_cons]
    by_cases hChar : c = '\n'
    · subst hChar
      rw [encodeChar_newline]
      simp [Nat.add_comm]
    · rw [List.count_eq_zero.mpr (newline_notMem_encodeChar hChar)]
      simp [hChar]

/-- Where a character may be cut off: before a byte that starts one, or at the end. -/
def IsBoundary (bytes : List UInt8) (index : Nat) : Prop :=
  index = bytes.length ∨ ∃ byte, bytes[index]? = some byte ∧ isContinuation byte = false

theorem split_of_boundary {text : List Char} {index : Nat} (h : IsBoundary (encode text) index) :
    ∃ before after, text = before ++ after ∧ (encode before).length = index := by
  induction text generalizing index with
  | nil =>
    rcases h with rfl | ⟨byte, hByte, -⟩
    · exact ⟨[], [], rfl, rfl⟩
    · exact nomatch hByte
  | cons c rest ih =>
    obtain ⟨first, later, hChar, hFirst, hLater⟩ := encodeChar_cons c
    cases hIndex : index with
    | zero => exact ⟨[], c :: rest, rfl, rfl⟩
    | succ n =>
      by_cases hInside : n < later.length
      · exfalso
        subst hIndex
        rcases h with hEnd | ⟨byte, hByte, hStarts⟩
        · rw [encode_cons, hChar, length_append, length_cons] at hEnd
          omega
        · rw [encode_cons, hChar, cons_append, getElem?_cons_succ, getElem?_append_left hInside] at hByte
          rw [hLater byte (mem_of_getElem? hByte)] at hStarts
          exact nomatch hStarts
      · have hRest : IsBoundary (encode rest) (n - later.length) := by
          subst hIndex
          rcases h with hEnd | ⟨byte, hByte, hStarts⟩
          · left
            rw [encode_cons, hChar, length_append, length_cons] at hEnd
            omega
          · right
            rw [encode_cons, hChar, cons_append, getElem?_cons_succ, getElem?_append_right (by omega)] at hByte
            exact ⟨byte, hByte, hStarts⟩
        obtain ⟨before, after, hSplit, hLength⟩ := ih hRest
        refine ⟨c :: before, after, by rw [hSplit]; rfl, ?_⟩
        rw [encode_cons, hChar, length_append, length_cons, hLength]
        omega

/-- What is behind a boundary is text again. -/
theorem decode_drop {text before after : List Char} (h : text = before ++ after) :
    decode ((encode text).drop (encode before).length) = after := by
  rw [h, encode_append, drop_left, decode_encode]

end Utf8
