import Mathlib.Algebra.Ring.Nat
import ShaderPass.Murmur

/-! Every step of the hash can be undone, so a state remembers all of the word that was folded into it last.
Two byte sequences that differ in one byte reach different states there and never meet again. -/
namespace ShaderPass.Murmur

section Steps

variable {x y h h' k k' : UInt32}

theorem mul_multiplier_inj : x * multiplier = y * multiplier ↔ x = y := by
  refine ⟨fun same => ?_, fun same => same ▸ rfl⟩
  have unit : multiplier * 0xe59b19bd = 1 := by decide
  have scaled := congrArg (· * (0xe59b19bd : UInt32)) same
  simpa only [UInt32.mul_assoc, unit, UInt32.mul_one] using scaled

theorem eq_zero_of_shiftRight_eq {n : UInt32} (moves : 0 < n.toNat % 32) (fixed : x >>> n = x) :
    x = 0 := by
  apply UInt32.toNat_inj.1
  have divided : x.toNat / 2 ^ (n.toNat % 32) = x.toNat := by
    rw [← Nat.shiftRight_eq_div_pow, ← UInt32.toNat_shiftRight, fixed]
  rcases Nat.eq_zero_or_pos x.toNat with zero | positive
  · exact zero
  · have smaller := Nat.div_lt_self positive (Nat.one_lt_two_pow (Nat.ne_of_gt moves))
    omega

theorem xorShift_inj {n : UInt32} (moves : 0 < n.toNat % 32) : xorShift n x = xorShift n y ↔ x = y := by
  refine ⟨fun same => ?_, fun same => same ▸ rfl⟩
  -- The difference of the words is what its own shift is.
  have fixed : (x ^^^ y) >>> n = x ^^^ y := by
    have shift (z : UInt32) : z >>> n = z ^^^ xorShift n z := by
      rw [xorShift, ← UInt32.xor_assoc, UInt32.xor_self, UInt32.zero_xor]
    calc (x ^^^ y) >>> n
      _ = (x ^^^ xorShift n y) ^^^ (y ^^^ xorShift n y) := by
        rw [UInt32.shiftRight_xor, shift x, shift y, same]
      _ = x ^^^ y := by
        rw [UInt32.xor_comm y, UInt32.xor_assoc, ← UInt32.xor_assoc (xorShift n y), UInt32.xor_self,
          UInt32.zero_xor]
  exact UInt32.xor_eq_zero_iff.1 (eq_zero_of_shiftRight_eq moves fixed)

theorem mix_left_inj : mix h k = mix h' k ↔ h = h' := by
  rw [mix, mix, UInt32.xor_left_inj, mul_multiplier_inj]

theorem mix_right_inj : mix h k = mix h k' ↔ k = k' := by
  rw [mix, mix, UInt32.xor_right_inj, mul_multiplier_inj, xorShift_inj (by decide), mul_multiplier_inj]

theorem finish_inj : finish h = finish h' ↔ h = h' := by
  rw [finish, finish, xorShift_inj (by decide), mul_multiplier_inj, xorShift_inj (by decide)]

end Steps

section Words

theorem two_pow_mul_xor_of_lt {i b : Nat} (small : b < 2 ^ i) (a : Nat) :
    2 ^ i * a ^^^ b = 2 ^ i * a + b := by
  rw [Nat.two_pow_add_eq_or_of_lt small]
  apply Nat.eq_of_testBit_eq
  intro j
  rw [Nat.testBit_xor, Nat.testBit_or, Nat.testBit_two_pow_mul]
  rcases Nat.lt_or_ge j i with low | high
  · simp [Nat.not_le.2 low]
  · have clear : b.testBit j = false :=
      Nat.testBit_lt_two_pow (Nat.lt_of_lt_of_le small (Nat.pow_le_pow_right (by decide) high))
    simp [clear]

theorem toNat_shiftLeft_byte (a : UInt8) {n : UInt32} (fits : n.toNat ≤ 24) :
    (a.toUInt32 <<< n).toNat = 2 ^ n.toNat * a.toNat := by
  have small : a.toNat * 2 ^ n.toNat < 2 ^ 32 := by
    calc a.toNat * 2 ^ n.toNat
      _ < 2 ^ 8 * 2 ^ n.toNat := Nat.mul_lt_mul_of_pos_right a.toNat_lt (Nat.two_pow_pos _)
      _ = 2 ^ (8 + n.toNat) := (Nat.pow_add ..).symm
      _ ≤ 2 ^ 32 := Nat.pow_le_pow_right (by decide) (by omega)
  have amount : n.toNat % 32 = n.toNat := Nat.mod_eq_of_lt (by omega)
  rw [UInt32.toNat_shiftLeft, UInt8.toNat_toUInt32, amount, Nat.shiftLeft_eq, Nat.mod_eq_of_lt small,
    Nat.mul_comm]

theorem toNat_word (a b c d : UInt8) : (word a b c d).toNat =
    2 ^ 24 * d.toNat + (2 ^ 16 * c.toNat + (2 ^ 8 * b.toNat + a.toNat)) := by
  have ha := a.toNat_lt
  have hb := b.toNat_lt
  have hc := c.toNat_lt
  have second : (b.toUInt32 <<< 8).toNat = 2 ^ 8 * b.toNat := toNat_shiftLeft_byte b (by decide)
  have third : (c.toUInt32 <<< 16).toNat = 2 ^ 16 * c.toNat := toNat_shiftLeft_byte c (by decide)
  have fourth : (d.toUInt32 <<< 24).toNat = 2 ^ 24 * d.toNat := toNat_shiftLeft_byte d (by decide)
  rw [Nat.two_pow_add_eq_or_of_lt (by omega), Nat.two_pow_add_eq_or_of_lt (by omega),
    Nat.two_pow_add_eq_or_of_lt (by omega), word, UInt32.toNat_or, UInt32.toNat_or, UInt32.toNat_or,
    second, third, fourth, UInt8.toNat_toUInt32, Nat.or_comm (2 ^ 24 * _), Nat.or_comm (2 ^ 16 * _),
    Nat.or_comm (2 ^ 8 * _)]

theorem xor_bytes_eq_word (a b c : UInt8) :
    (c.toUInt32 <<< 16) ^^^ ((b.toUInt32 <<< 8) ^^^ a.toUInt32) = word a b c 0 := by
  have ha := a.toNat_lt
  have hb := b.toNat_lt
  have second : (b.toUInt32 <<< 8).toNat = 2 ^ 8 * b.toNat := toNat_shiftLeft_byte b (by decide)
  have third : (c.toUInt32 <<< 16).toNat = 2 ^ 16 * c.toNat := toNat_shiftLeft_byte c (by decide)
  apply UInt32.toNat_inj.1
  rw [toNat_word, UInt32.toNat_xor, UInt32.toNat_xor, second, third, UInt8.toNat_toUInt32,
    two_pow_mul_xor_of_lt ha, two_pow_mul_xor_of_lt (by omega)]
  simp

theorem word_inj {a b c d a' b' c' d' : UInt8} :
    word a b c d = word a' b' c' d' ↔ a = a' ∧ b = b' ∧ c = c' ∧ d = d' := by
  constructor
  · intro same
    have digits := congrArg UInt32.toNat same
    rw [toNat_word, toNat_word] at digits
    have small (e : UInt8) : e.toNat < 2 ^ 8 := e.toNat_lt
    have ha := small a
    have hb := small b
    have hc := small c
    have ha' := small a'
    have hb' := small b'
    have hc' := small c'
    simp only [← UInt8.toNat_inj]
    omega
  · rintro ⟨rfl, rfl, rfl, rfl⟩
    rfl

def leadingWord (bytes : List UInt8) : UInt32 :=
  word (bytes.getD 0 0) (bytes.getD 1 0) (bytes.getD 2 0) (bytes.getD 3 0)

theorem getD_eq_of_leadingWord_eq {bytes bytes' : List UInt8}
    (same : leadingWord bytes = leadingWord bytes') {i : Nat} (inside : i < 4) :
    bytes.getD i 0 = bytes'.getD i 0 := by
  obtain ⟨first, second, third, fourth⟩ := word_inj.1 same
  match i, inside with
  | 0, _ => exact first
  | 1, _ => exact second
  | 2, _ => exact third
  | 3, _ => exact fourth

end Words

section Bytes

theorem absorb_of_four_le {bytes : List UInt8} (long : 4 ≤ bytes.length) (h : UInt32) :
    absorb h bytes = absorb (mix h (leadingWord bytes)) (bytes.drop 4) := by
  match bytes with
  | a :: b :: c :: d :: rest => rfl

theorem absorb_of_lt_four {bytes : List UInt8} (some_byte : bytes ≠ []) (short : bytes.length < 4)
    (h : UInt32) : absorb h bytes = (h ^^^ leadingWord bytes) * multiplier := by
  have shifted_zero (n : UInt32) : (0 : UInt8).toUInt32 <<< n = 0 := UInt32.zero_shiftLeft
  match bytes with
  | [a, b, c] =>
    show _ = (h ^^^ word a b c 0) * multiplier
    rw [absorb, ← xor_bytes_eq_word, UInt32.xor_assoc, UInt32.xor_assoc]
  | [a, b] =>
    show _ = (h ^^^ word a b 0 0) * multiplier
    rw [absorb, ← xor_bytes_eq_word, shifted_zero, UInt32.zero_xor, UInt32.xor_assoc]
  | [a] =>
    show _ = (h ^^^ word a 0 0 0) * multiplier
    rw [absorb, ← xor_bytes_eq_word, shifted_zero, shifted_zero, UInt32.zero_xor, UInt32.zero_xor]

theorem absorb_left_inj {h h' : UInt32} (bytes : List UInt8) :
    absorb h bytes = absorb h' bytes ↔ h = h' := by
  induction size : bytes.length using Nat.strongRecOn generalizing bytes h h' with
  | ind n ih =>
    rcases Nat.lt_or_ge bytes.length 4 with short | long
    · by_cases empty : bytes = []
      · rw [empty, absorb, absorb]
      · rw [absorb_of_lt_four empty short, absorb_of_lt_four empty short, mul_multiplier_inj,
          UInt32.xor_left_inj]
    · rw [absorb_of_four_le long, absorb_of_four_le long,
        ih (bytes.drop 4).length (by rw [List.length_drop]; omega) _ rfl, mix_left_inj]

section Byte

variable {front : List UInt8} (e : UInt8) (back : List UInt8)

theorem length_around_byte : (front ++ e :: back).length = front.length + (back.length + 1) := by
  rw [List.length_append, List.length_cons]

theorem getD_around_byte : (front ++ e :: back).getD front.length 0 = e := by
  simp [List.getD_eq_getElem?_getD]

theorem drop_around_byte (here : front.length < 4) :
    (front ++ e :: back).drop 4 = back.drop (3 - front.length) := by
  have behind : 4 - front.length = (3 - front.length) + 1 := by omega
  rw [List.drop_append, List.drop_eq_nil_of_le (Nat.le_of_lt here), behind, List.drop_succ_cons,
    List.nil_append]

theorem leadingWord_append {bytes : List UInt8} (long : 4 ≤ front.length) :
    leadingWord (front ++ bytes) = leadingWord front := by
  have inside {i : Nat} (small : i < 4) : (front ++ bytes).getD i 0 = front.getD i 0 := by
    rw [List.getD_eq_getElem?_getD, List.getD_eq_getElem?_getD, List.getElem?_append_left (by omega)]
  rw [leadingWord, leadingWord, inside (by decide), inside (by decide), inside (by decide),
    inside (by decide)]

end Byte

theorem absorb_byte_inj {a b : UInt8} (h : UInt32) (front back : List UInt8) :
    absorb h (front ++ a :: back) = absorb h (front ++ b :: back) ↔ a = b := by
  refine ⟨fun same => ?_, fun same => same ▸ rfl⟩
  induction size : front.length using Nat.strongRecOn generalizing front h with
  | ind n ih =>
    rcases Nat.lt_or_ge front.length 4 with here | later
    · -- The byte belongs to the word that is read next.
      have differs (word_eq : leadingWord (front ++ a :: back) = leadingWord (front ++ b :: back)) :
          a = b := by
        have at_byte := getD_eq_of_leadingWord_eq word_eq here
        rwa [getD_around_byte, getD_around_byte] at at_byte
      apply differs
      rcases Nat.lt_or_ge (front.length + (back.length + 1)) 4 with short | long
      · have short_around (e : UInt8) : (front ++ e :: back).length < 4 := by
          rwa [length_around_byte]
        rwa [absorb_of_lt_four (by simp) (short_around a), absorb_of_lt_four (by simp) (short_around b),
          mul_multiplier_inj, UInt32.xor_right_inj] at same
      · have long_around (e : UInt8) : 4 ≤ (front ++ e :: back).length := by
          rwa [length_around_byte]
        rwa [absorb_of_four_le (long_around a), absorb_of_four_le (long_around b),
          drop_around_byte a back here, drop_around_byte b back here, absorb_left_inj,
          mix_right_inj] at same
    · have long_around (e : UInt8) : 4 ≤ (front ++ e :: back).length := by
        rw [length_around_byte]
        omega
      rw [absorb_of_four_le (long_around a), absorb_of_four_le (long_around b), leadingWord_append later,
        leadingWord_append later, List.drop_append_of_le_length later,
        List.drop_append_of_le_length later] at same
      exact ih (front.drop 4).length (by rw [List.length_drop]; omega) _ _ same rfl

/-- Sources whose bytes, taken together, differ in a single one have different hashes. -/
theorem hashSources_ne_of_byte {sources sources' : List Text} {front back : List UInt8} {a b : UInt8}
    (bytes : utf8 sources.flatten = front ++ a :: back)
    (bytes' : utf8 sources'.flatten = front ++ b :: back) (apart : a ≠ b) :
    hashSources sources ≠ hashSources sources' := by
  intro same
  have length : (front ++ a :: back).length = (front ++ b :: back).length := by
    rw [List.length_append, List.length_append, List.length_cons, List.length_cons]
  rw [hashSources, hashSources, hash, hash, finish_inj, bytes, bytes', length, absorb_byte_inj] at same
  exact apart same

theorem hashSources_ne_of_byte_accent :
    utf8 [['a', 'b'], ['c', 'é']].flatten = [0x61, 0x62, 0x63, 0xc3] ++ 0xa9 :: [] ∧
      utf8 [['a', 'b', 'c'], ['è']].flatten = [0x61, 0x62, 0x63, 0xc3] ++ 0xa8 :: [] ∧
      (0xa9 : UInt8) ≠ 0xa8 ∧
      hashSources [['a', 'b'], ['c', 'é']] ≠ hashSources [['a', 'b', 'c'], ['è']] := by
  have bytes : utf8 [['a', 'b'], ['c', 'é']].flatten = [0x61, 0x62, 0x63, 0xc3] ++ 0xa9 :: [] := by
    decide
  have bytes' : utf8 [['a', 'b', 'c'], ['è']].flatten = [0x61, 0x62, 0x63, 0xc3] ++ 0xa8 :: [] := by
    decide
  exact ⟨bytes, bytes', by decide, hashSources_ne_of_byte bytes bytes' (by decide)⟩

end Bytes

end ShaderPass.Murmur
