import Mathlib.Data.List.Basic

/-!
# Bytes, strings and hashes

Go strings are byte sequences, and the code moves freely between `string` and `[]byte`, so both
are `Bytes` here.  `hexEncode` is `hex.EncodeToString`.  `sha256.Sum256` returns an array of 32
bytes; the function itself stays a parameter wherever it is used.
-/

namespace Peerster

abbrev Bytes := List UInt8

/-- A Go `string`. -/
abbrev GoString := Bytes

/-- The bytes of a literal. -/
def str (s : String) : GoString := s.toUTF8.toList

/-- A `[32]byte`, the result type of `sha256.Sum256`. -/
abbrev Digest := { bytes : Bytes // bytes.length = 32 }

/-- The type of `sha256.Sum256`. -/
abbrev Sha256 := Bytes → Digest

/-- The lower-case hex digit of a value below 16. -/
def hexDigit (n : UInt8) : UInt8 := if n < 10 then 48 + n else 87 + n

/-- `hex.EncodeToString`. -/
def hexEncode (bytes : Bytes) : GoString :=
  bytes.flatMap fun b => [hexDigit (b / 16), hexDigit (b % 16)]

/-- `strconv.Itoa`. -/
def itoa (i : Int) : GoString := str (toString i)

/-- `getRandom`: an element of the slice, picked by a random number. -/
def getRandom (slice : List GoString) (random : Nat) : GoString :=
  if slice.length = 0 then [] else slice.getD (random % slice.length) []

example : hexEncode [0, 255, 26] = str "00ff1a" := by decide +kernel

example : itoa (-120) = [45, 49, 50, 48] := by decide +kernel

/-! ## Hex -/

theorem toNat_hexDigit {n : UInt8} (small : n.toNat < 16) :
    (hexDigit n).toNat = if n.toNat < 10 then 48 + n.toNat else 87 + n.toNat := by
  have decimal : n < 10 ↔ n.toNat < 10 := Iff.rfl
  unfold hexDigit
  simp only [decimal]
  split
  · rw [UInt8.toNat_add]
    show (48 + n.toNat) % 256 = _
    omega
  · rw [UInt8.toNat_add]
    show (87 + n.toNat) % 256 = _
    omega

theorem hexDigit_injective {m n : UInt8} (small : m.toNat < 16) (small' : n.toNat < 16)
    (same : hexDigit m = hexDigit n) : m.toNat = n.toNat := by
  have values := congrArg UInt8.toNat same
  rw [toNat_hexDigit small, toNat_hexDigit small'] at values
  split at values <;> split at values <;> omega

/-- Different byte strings have different hex texts. -/
theorem hexEncode_injective {bytes bytes' : Bytes} (same : hexEncode bytes = hexEncode bytes') :
    bytes = bytes' := by
  induction bytes generalizing bytes' with
  | nil =>
      cases bytes' with
      | nil => rfl
      | cons b' bytes' => cases same
  | cons b bytes ih =>
      cases bytes' with
      | nil => cases same
      | cons b' bytes' =>
          simp only [hexEncode, List.flatMap_cons, List.cons_append, List.nil_append,
            List.cons.injEq] at same
          obtain ⟨high, low, rest⟩ := same
          have upper : ∀ c : UInt8, (c / 16).toNat = c.toNat / 16 := fun c => UInt8.toNat_div c 16
          have lower : ∀ c : UInt8, (c % 16).toNat = c.toNat % 16 := fun c => UInt8.toNat_mod c 16
          have range : ∀ c : UInt8, c.toNat < 256 := UInt8.toNat_lt
          have left := range b
          have right := range b'
          have highs := hexDigit_injective (by rw [upper]; omega) (by rw [upper]; omega) high
          have lows := hexDigit_injective (by rw [lower]; omega) (by rw [lower]; omega) low
          rw [upper, upper] at highs
          rw [lower, lower] at lows
          have first : b = b' := UInt8.toNat_inj.mp (by omega)
          rw [first, ih rest]

theorem length_hexEncode (bytes : Bytes) : (hexEncode bytes).length = 2 * bytes.length := by
  induction bytes with
  | nil => rfl
  | cons b bytes ih =>
      simp only [hexEncode, List.flatMap_cons, List.length_append, List.length_cons] at ih ⊢
      simp only [List.length_nil]
      omega

/-- The bytes of a hex text are digits and letters. -/
theorem le_of_mem_hexEncode {bytes : Bytes} {byte : UInt8} (mem : byte ∈ hexEncode bytes) :
    48 ≤ byte.toNat := by
  have digit : ∀ n : UInt8, n.toNat < 16 → 48 ≤ (hexDigit n).toNat := by
    intro n small
    rw [toNat_hexDigit small]
    split <;> omega
  obtain ⟨b, -, pair⟩ := List.mem_flatMap.mp mem
  have range : b.toNat < 256 := UInt8.toNat_lt b
  rcases List.mem_cons.mp pair with rfl | pair
  · refine digit _ ?_
    rw [UInt8.toNat_div]
    show b.toNat / 16 < 16
    omega
  · rw [List.mem_singleton.mp pair]
    refine digit _ ?_
    rw [UInt8.toNat_mod]
    show b.toNat % 16 < 16
    omega

/-! ## The bytes of a decimal number -/

theorem toList_loop_eq (bytes : ByteArray) (i : Nat) (seen : List UInt8) :
    ByteArray.toList.loop bytes i seen = seen.reverse ++ bytes.data.toList.drop i := by
  fun_induction ByteArray.toList.loop bytes i seen with
  | case1 i seen inside ih =>
      have lt : i < bytes.data.toList.length := inside
      have here : bytes.get! i = bytes.data[i] := getElem!_pos bytes.data i inside
      rw [ih, List.drop_eq_getElem_cons lt, here, List.reverse_cons, List.append_assoc,
        Array.getElem_toList]
      rfl
  | case2 i seen done =>
      have le : bytes.data.toList.length ≤ i := Nat.le_of_not_lt done
      rw [List.drop_eq_nil_of_le le, List.append_nil]

/-- The bytes of a literal are those of its UTF-8 encoding. -/
theorem str_eq (s : String) : str s = s.toByteArray.data.toList := by
  rw [str, ByteArray.toList, toList_loop_eq]
  rfl

/-- Different literals have different bytes. -/
theorem str_injective {s s' : String} (same : str s = str s') : s = s' := by
  rw [str_eq, str_eq, Array.toList_inj] at same
  exact String.toByteArray_inj.mp (ByteArray.ext same)

/-- A byte of a literal belongs to the encoding of one of its characters. -/
theorem exists_char_of_mem_str {s : String} {b : UInt8} (mem : b ∈ str s) :
    ∃ c ∈ s.toList, b ∈ String.utf8EncodeChar c := by
  rw [str_eq, ← String.utf8Encode_toList] at mem
  simpa [List.utf8Encode] using mem

theorem toDigits_injective {m n : Nat} (same : Nat.toDigits 10 m = Nat.toDigits 10 n) : m = n := by
  rw [← Nat.ofDigitChars_ten_toDigits (n := m), same, Nat.ofDigitChars_ten_toDigits]

/-- The text of a number is that of its absolute value, after a sign if it is negative. -/
theorem toList_toString_int (i : Int) :
    (toString i).toList =
      if i < 0 then '-' :: Nat.toDigits 10 i.natAbs else Nat.toDigits 10 i.natAbs := by
  cases i with
  | ofNat n => exact Nat.toList_repr
  | negSucc n =>
      rw [if_pos (Int.negSucc_lt_zero n)]
      show (Int.repr (.negSucc n)).toList = _
      simp [Int.repr]

theorem minus_not_mem_toDigits (n : Nat) : '-' ∉ Nat.toDigits 10 n := by
  intro mem
  have digit := Nat.isDigit_of_mem_toDigits (by decide) (by decide) mem
  exact absurd digit (by decide)

theorem toString_int_injective {i i' : Int} (same : toString i = toString i') : i = i' := by
  have texts := congrArg String.toList same
  rw [toList_toString_int, toList_toString_int] at texts
  split at texts <;> split at texts
  · have abs := toDigits_injective (List.cons.inj texts).2
    omega
  · exact (minus_not_mem_toDigits _ (texts ▸ List.mem_cons_self)).elim
  · exact (minus_not_mem_toDigits _ (texts ▸ List.mem_cons_self)).elim
  · have abs := toDigits_injective texts
    omega

/-- Different numbers have different decimal texts. -/
theorem itoa_injective {i i' : Int} (same : itoa i = itoa i') : i = i' :=
  toString_int_injective (str_injective same)

theorem brace_not_mem_utf8EncodeChar {c : Char} (plain : c = '-' ∨ c.isDigit = true) :
    123 ∉ String.utf8EncodeChar c := by
  have small : c.val.toNat ≤ 57 := by
    rcases plain with rfl | digit
    · decide
    · simp only [Char.isDigit, Bool.and_eq_true, decide_eq_true_eq] at digit
      exact digit.2
  simp only [String.utf8EncodeChar]
  rw [if_pos (by omega), List.mem_singleton]
  intro same
  have value : 123 = c.val.toNat % 256 := by simpa using congrArg UInt8.toNat same
  omega

/-- No brace, the first byte of a JSON object, is among the bytes of a number. -/
theorem brace_not_mem_itoa (i : Int) : 123 ∉ itoa i := by
  intro mem
  obtain ⟨c, inside, byte⟩ := exists_char_of_mem_str mem
  have digits : ∀ n : Nat, c ∈ Nat.toDigits 10 n → c.isDigit = true := fun n mem =>
    Nat.isDigit_of_mem_toDigits (by decide) (by decide) mem
  rw [toList_toString_int] at inside
  refine brace_not_mem_utf8EncodeChar ?_ byte
  split at inside
  · rcases List.mem_cons.mp inside with sign | digit
    · exact .inl sign
    · exact .inr (digits _ digit)
  · exact .inr (digits _ inside)

end Peerster
