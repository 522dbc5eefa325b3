/-
# ClassTree.Proofs.Bytes — fields read back

A number that has a field is read back from it, and every byte string is the field of the number
that it holds. So a field and its number determine each other.
-/
import ClassTree.Bytes
import Mathlib.Data.List.Induction

namespace ClassTree.Bytes

/-! ## Big-endian numbers -/

/-- The number of some bytes is below the size of their field. -/
theorem toNat_lt (bytes : Bytes) : bytes.toNat < 256 ^ bytes.length := by
  induction bytes using List.reverseRecOn with
  | nil => simp [toNat]
  | append_singleton bytes b ih =>
    rw [toNat_append_singleton, List.length_append, List.length_singleton, Nat.pow_succ]
    have hb : b.toNat < 256 := b.toNat_lt
    omega

/-- Bytes are those of the number they hold. -/
theorem ofNat_toNat (bytes : Bytes) : ofNat bytes.length bytes.toNat = bytes := by
  induction bytes using List.reverseRecOn with
  | nil => rfl
  | append_singleton bytes b ih =>
    have hb : b.toNat < 256 := b.toNat_lt
    rw [List.length_append, List.length_singleton, ofNat, toNat_append_singleton,
      show (toNat bytes * 256 + b.toNat) / 256 = toNat bytes by omega, ih]
    congr 2
    rw [← UInt8.toNat_inj, UInt8.toNat_ofNat']
    omega

theorem cast_size (width : Nat) : ((256 ^ width : Nat) : Int) = 256 ^ width :=
  Int.natCast_pow 256 width

/-! ## Unsigned fields -/

/-- An unsigned field holds the number that it was written for. -/
theorem unsigned?_eq_some_iff {width : Nat} {n : Int} {bytes : Bytes} :
    unsigned? width n = some bytes ↔ bytes.length = width ∧ n = bytes.toNat := by
  unfold unsigned?
  constructor
  · intro h
    split at h
    · next hn =>
      simp only [Option.some.injEq] at h
      subst h
      have hfit : n.toNat < 256 ^ width := by
        have hlt := hn.2
        rw [← cast_size] at hlt
        omega
      refine ⟨length_ofNat width _, ?_⟩
      rw [toNat_ofNat, Nat.mod_eq_of_lt hfit]
      omega
    · cases h
  · rintro ⟨rfl, rfl⟩
    have hlt := toNat_lt bytes
    rw [if_pos ⟨by omega, by rw [← cast_size]; omega⟩, Int.toNat_natCast, ofNat_toNat]

theorem toNat_singleton (b : UInt8) : toNat [b] = b.toNat := by
  rw [toNat, List.foldl_cons, List.foldl_nil, Nat.zero_mul, Nat.zero_add]

/-- A number in one byte is that of the byte. -/
theorem unsigned?_one_eq_some_iff {n : Int} {bytes : Bytes} :
    unsigned? 1 n = some bytes ↔ ∃ b : UInt8, bytes = [b] ∧ n = b.toNat := by
  rw [unsigned?_eq_some_iff, List.length_eq_one_iff]
  constructor
  · rintro ⟨⟨b, rfl⟩, hn⟩
    rw [toNat_singleton] at hn
    exact ⟨b, rfl, hn⟩
  · rintro ⟨b, rfl, hn⟩
    rw [toNat_singleton]
    exact ⟨⟨b, rfl⟩, hn⟩

/-! ## Two's complement fields -/

/-- The balanced remainder is the number in the middle range that leaves the same remainder. -/
theorem eq_bmod_iff {half : Nat} (hpos : 0 < half) {n : Int} {m : Nat} (hm : m < 2 * half) :
    n = Int.bmod m (2 * half) ↔
      (-(half : Int) ≤ n ∧ n < half) ∧ (n % (2 * half)).toNat = m := by
  have hsplit : Int.bmod m (2 * half) = if m < half then (m : Int) else m - 2 * half := by
    rw [Int.bmod_def]
    have hmod : (m : Int) % ((2 * half : Nat) : Int) = m := Int.emod_eq_of_lt (by omega) (by omega)
    rw [hmod]
    split <;> split <;> omega
  rw [hsplit]
  constructor
  · rintro rfl
    split
    · refine ⟨by omega, ?_⟩
      rw [Int.emod_eq_of_lt (by omega) (by omega), Int.toNat_natCast]
    · refine ⟨by omega, ?_⟩
      rw [Int.sub_emod_right, Int.emod_eq_of_lt (by omega) (by omega), Int.toNat_natCast]
  · rintro ⟨hrange, rfl⟩
    by_cases hneg : n < 0
    · have hmod : n % (2 * half : Int) = n + 2 * half := by
        rw [← Int.add_emod_right, Int.emod_eq_of_lt (by omega) (by omega)]
      rw [hmod, if_neg (by omega)]
      omega
    · rw [Int.emod_eq_of_lt (by omega) (by omega), if_pos (by omega)]
      omega

/-- A two's complement field holds the number that it was written for. -/
theorem signed?_eq_some_iff {width : Nat} {n : Int} {bytes : Bytes} :
    signed? (width + 1) n = some bytes ↔ bytes.length = width + 1 ∧ n = bytes.toInt := by
  have hpos : 0 < 256 ^ width := Nat.pow_pos (by decide)
  have hhalf : 256 ^ (width + 1) = 2 * (256 ^ width * 128) := by rw [Nat.pow_succ]; omega
  have hsize : (256 : Int) ^ (width + 1) = 2 * ((256 ^ width * 128 : Nat) : Int) := by
    rw [← cast_size, hhalf, Int.natCast_mul]
    rfl
  unfold signed? toInt
  rw [hsize]
  generalize 256 ^ width * 128 = half at *
  constructor
  · intro h
    split at h
    · next hn =>
      simp only [Option.some.injEq] at h
      subst h
      have hlt : (n % (2 * half)).toNat < 2 * half := by
        have := Int.emod_lt_of_pos n (show (0 : Int) < 2 * half by omega)
        omega
      refine ⟨length_ofNat _ _, ?_⟩
      rw [length_ofNat, toNat_ofNat, hhalf, Nat.mod_eq_of_lt hlt, eq_bmod_iff (by omega) hlt]
      exact ⟨by omega, rfl⟩
    · cases h
  · rintro ⟨hlength, hn⟩
    have hlt := toNat_lt bytes
    rw [hlength, hhalf] at hlt hn
    obtain ⟨hrange, hmod⟩ := (eq_bmod_iff (by omega) hlt).1 hn
    rw [if_pos (by omega), hmod, ← hlength, ofNat_toNat]

/-- The number of a two's complement field is in the range of the field. -/
theorem toInt_bounds {width : Nat} {bytes : Bytes} (h : bytes.length = width + 1) :
    -(256 ^ width * 128) ≤ bytes.toInt ∧ bytes.toInt < 256 ^ width * 128 := by
  have hpos : 0 < 256 ^ width := Nat.pow_pos (by decide)
  have hhalf : 256 ^ (width + 1) = 2 * (256 ^ width * 128) := by rw [Nat.pow_succ]; omega
  have hlt := toNat_lt bytes
  rw [h, hhalf] at hlt
  have hint : bytes.toInt = Int.bmod bytes.toNat (2 * (256 ^ width * 128)) := by
    unfold toInt
    rw [h, hhalf]
  have hbounds := ((eq_bmod_iff (by omega) hlt).1 hint).1
  rwa [Int.natCast_mul, cast_size] at hbounds

/-- A number in the range of its field has one. -/
theorem exists_unsigned? (width : Nat) (n : Int) (h : 0 ≤ n ∧ n < 256 ^ width) :
    ∃ bytes, unsigned? width n = some bytes := ⟨_, if_pos h⟩

/-- A number in the range of its two's complement field has one. -/
theorem exists_signed? (width : Nat) (n : Int)
    (h : -(256 ^ width / 2) ≤ n ∧ n < 256 ^ width / 2) :
    ∃ bytes, signed? width n = some bytes := ⟨_, if_pos h⟩

/-! ## Lengths -/

end ClassTree.Bytes
