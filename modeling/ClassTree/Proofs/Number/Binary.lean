/-
# ClassTree.Proofs.Number.Binary — from single to double precision and back

Every single precision number is a double precision number, and narrowing that one gives it back.
Only a not-a-number that is signaling changes, for widening makes it quiet; but narrowing never
gives a signaling one.
-/
import ClassTree.Number.Binary
import Mathlib.Data.Nat.Log
import Mathlib.Tactic.NormNum

namespace ClassTree.Number

namespace Format

/-! ## Rounding -/

theorem roundShift_mul (m shift : Nat) : roundShift (m * 2 ^ shift) shift = m := by
  have hpos : 0 < 2 ^ shift := Nat.two_pow_pos shift
  unfold roundShift
  rw [Nat.mul_div_cancel m hpos, Nat.mul_mod_left]
  simp [hpos]

theorem log2_mul_two_pow {m : Nat} (hm : m ≠ 0) (shift : Nat) :
    (m * 2 ^ shift).log2 = m.log2 + shift := by
  rw [Nat.log2_eq_log_two, Nat.log2_eq_log_two]
  induction shift with
  | zero => rw [Nat.pow_zero, Nat.mul_one, Nat.add_zero]
  | succ shift ih =>
    have hne : m * 2 ^ shift ≠ 0 := Nat.mul_ne_zero hm (Nat.two_pow_pos shift).ne'
    rw [Nat.pow_succ, ← Nat.mul_assoc, Nat.log_mul_base Nat.one_lt_two hne, ih]
    rfl

/-- A number that has been rounded to a significand `s` with the exponent `e`. -/
theorem round?_eq_some {f : Format} {m s : Nat} {q e : Int} (hm : m ≠ 0)
    (he : max (q + (m.log2 + 1 : Nat) - f.precision) f.leastExponent = e)
    (hs : (if e - q ≤ 0 then m * 2 ^ (-(e - q)).toNat else roundShift m (e - q).toNat) = s)
    (hlt : (e - f.leastExponent).toNat * 2 ^ (f.precision - 1) + s < f.infinity) :
    f.round? m q = some ((e - f.leastExponent).toNat * 2 ^ (f.precision - 1) + s) := by
  subst he hs
  unfold round?
  rw [if_neg hm]
  exact if_pos hlt

theorem lt_infinity_of_round? {f : Format} {m n : Nat} {q : Int} (hf : 0 < f.infinity)
    (h : f.round? m q = some n) : n < f.infinity := by
  unfold round? at h
  split at h
  · exact Option.some.inj h ▸ hf
  · dsimp only at h
    rw [Option.ite_none_right_eq_some] at h
    obtain ⟨hlt, hn⟩ := h
    exact Option.some.inj hn ▸ hlt

/-! ## Fields -/

theorem infinity_single : single.infinity = 255 * 2 ^ 23 := by decide

theorem decode_double_eq (bits : Nat) : double.decode bits =
    if bits / 2 ^ 52 % 2 ^ 11 = 2 ^ 11 - 1 then
      if bits % 2 ^ 52 = 0 then .infinite (bits / 2 ^ 63 % 2 = 1)
      else .nan (bits / 2 ^ 63 % 2 = 1) (bits % 2 ^ 52)
    else if bits / 2 ^ 52 % 2 ^ 11 = 0 then
      .finite (bits / 2 ^ 63 % 2 = 1) (bits % 2 ^ 52) (-1074)
    else .finite (bits / 2 ^ 63 % 2 = 1) (2 ^ 52 + bits % 2 ^ 52)
      (-1074 + ((bits / 2 ^ 52 % 2 ^ 11 : Nat) - 1)) := rfl

theorem decode_single_eq (bits : Nat) : single.decode bits =
    if bits / 2 ^ 23 % 2 ^ 8 = 2 ^ 8 - 1 then
      if bits % 2 ^ 23 = 0 then .infinite (bits / 2 ^ 31 % 2 = 1)
      else .nan (bits / 2 ^ 31 % 2 = 1) (bits % 2 ^ 23)
    else if bits / 2 ^ 23 % 2 ^ 8 = 0 then
      .finite (bits / 2 ^ 31 % 2 = 1) (bits % 2 ^ 23) (-149)
    else .finite (bits / 2 ^ 31 % 2 = 1) (2 ^ 23 + bits % 2 ^ 23)
      (-149 + ((bits / 2 ^ 23 % 2 ^ 8 : Nat) - 1)) := rfl

theorem signed_double_eq (negative : Bool) (magnitude : Nat) :
    double.signed negative magnitude = (if negative then 2 ^ 63 else 0) + magnitude := by
  cases negative with
  | false => exact (Nat.zero_add magnitude).symm
  | true => rfl

theorem signed_single_eq (negative : Bool) (magnitude : Nat) :
    single.signed negative magnitude = (if negative then 2 ^ 31 else 0) + magnitude := by
  cases negative with
  | false => exact (Nat.zero_add magnitude).symm
  | true => rfl

/-- The sign and the magnitude of a double precision number. -/
theorem fields_double (negative : Bool) {magnitude : Nat} (h : magnitude < 2 ^ 63) :
    (double.signed negative magnitude / 2 ^ 63 % 2 = 1 ↔ negative = true) ∧
      double.signed negative magnitude / 2 ^ 52 % 2 ^ 11 = magnitude / 2 ^ 52 ∧
      double.signed negative magnitude % 2 ^ 52 = magnitude % 2 ^ 52 := by
  rw [signed_double_eq]
  cases negative <;> simp only [if_true, if_false, Bool.false_eq_true, iff_true, iff_false] <;> omega

theorem decode_signed_double (negative : Bool) {e m : Nat} (hm : 2 ^ 52 ≤ m) (hm' : m < 2 ^ 53)
    (he : e < 2046) :
    double.decode (double.signed negative (e * 2 ^ 52 + m)) = .finite negative m (e - 1074) := by
  obtain ⟨hsign, hexponent, hfraction⟩ :=
    fields_double negative (show e * 2 ^ 52 + m < 2 ^ 63 by omega)
  have hunit : (e * 2 ^ 52 + m) / 2 ^ 52 = e + 1 := by omega
  have hrest : (e * 2 ^ 52 + m) % 2 ^ 52 = m - 2 ^ 52 := by omega
  rw [decode_double_eq, hexponent, hfraction, hunit, hrest, if_neg (by omega), if_neg (by omega)]
  simp only [hsign, Decoded.finite.injEq, Bool.decide_eq_true, true_and]
  omega

/-! ## Numbers of single precision -/

/-- Significand and exponent as they are in single precision: the significand is full, or the
exponent is the least one. -/
structure IsSingle (m : Nat) (q : Int) : Prop where
  pos : 0 < m
  le : m < 2 ^ 24
  least : -149 ≤ q
  greatest : q ≤ 104
  full : 2 ^ 23 ≤ m ∨ q = -149

/-- The room that is left in a significand of double precision. -/
def spare (m : Nat) : Nat := 52 - m.log2

/-- A significand with the room filled up. -/
def filled (m : Nat) : Nat := m * 2 ^ spare m

namespace IsSingle

variable {m : Nat} {q : Int} (h : IsSingle m q)
include h

theorem log2_le : m.log2 ≤ 23 := by
  have := (Nat.log2_lt h.pos.ne').2 h.le
  omega

theorem filled_bounds : 2 ^ 52 ≤ filled m ∧ filled m < 2 ^ 53 := by
  have hlog := h.log2_le
  have hlow : 2 ^ m.log2 ≤ m := Nat.log2_self_le h.pos.ne'
  have hhigh : m < 2 ^ (m.log2 + 1) := Nat.lt_log2_self
  have hpow : 2 ^ 52 = 2 ^ m.log2 * 2 ^ spare m := by
    rw [← Nat.pow_add, spare]
    congr 1
    omega
  have hpow' : 2 ^ 53 = 2 ^ (m.log2 + 1) * 2 ^ spare m := by
    rw [← Nat.pow_add, spare]
    congr 1
    omega
  rw [hpow, hpow']
  exact ⟨Nat.mul_le_mul_right _ hlow, Nat.mul_lt_mul_of_pos_right hhigh (Nat.two_pow_pos _)⟩

theorem round_double : double.round? m q =
    some ((q + m.log2 + 1022).toNat * 2 ^ 52 + filled m) := by
  have hlog := h.log2_le
  have hleast := h.least
  have hgreatest := h.greatest
  obtain ⟨-, hfilled⟩ := h.filled_bounds
  have hmin : double.leastExponent = -1074 := by decide
  have hprecision : (double.precision : Int) = 53 := rfl
  have hinfinity : double.infinity = 2047 * 2 ^ 52 := by decide
  have hbase : (q + m.log2 - 52 - double.leastExponent).toNat = (q + m.log2 + 1022).toNat := by
    rw [hmin]
    omega
  rw [← hbase]
  refine round?_eq_some h.pos.ne' ?_ ?_ ?_
  · rw [hmin, hprecision]
    omega
  · have hshift : (-(q + (m.log2 : Int) - 52 - q)).toNat = spare m := by
      unfold spare
      omega
    rw [if_pos (by omega), hshift, filled]
  · rw [hbase, hinfinity]
    show (q + (m.log2 : Int) + 1022).toNat * 2 ^ 52 + filled m < 2047 * 2 ^ 52
    omega

/-- The number in double precision, back in single precision. -/
theorem round_single : single.round? (filled m) ((q + m.log2 + 1022).toNat - 1074) =
    some ((q + 149).toNat * 2 ^ 23 + m) := by
  have hlog := h.log2_le
  have hleast := h.least
  have hgreatest := h.greatest
  have hlt := h.le
  obtain ⟨hfilled, -⟩ := h.filled_bounds
  have hmin : single.leastExponent = -149 := by decide
  have hprecision : (single.precision : Int) = 24 := rfl
  have hinfinity : single.infinity = 255 * 2 ^ 23 := by decide
  have hlength : (filled m).log2 = 52 := by
    unfold filled
    rw [log2_mul_two_pow h.pos.ne', spare]
    omega
  have hfull : 23 ≤ m.log2 ∨ q = -149 :=
    h.full.imp_left fun hle => (Nat.le_log2 h.pos.ne').2 hle
  have hbase : (q - single.leastExponent).toNat = (q + 149).toNat := by
    rw [hmin]
    omega
  rw [← hbase]
  refine round?_eq_some (by omega) ?_ ?_ ?_
  · rw [hmin, hprecision, hlength]
    omega
  · have hshift : (q - ((q + (m.log2 : Int) + 1022).toNat - 1074 : Int)).toNat = spare m := by
      unfold spare
      omega
    rw [if_neg (by omega), hshift, filled, roundShift_mul]
  · rw [hbase, hinfinity]
    show (q + 149).toNat * 2 ^ 23 + m < 255 * 2 ^ 23
    omega

end IsSingle

end Format

open Format

/-! ## Widening and narrowing -/

/-- A single precision number that is no signaling not-a-number. -/
def Single.IsQuiet (x : Single) : Prop :=
  ∀ negative payload, x.decode = .nan negative payload → 2 ^ 22 ≤ payload

/-- The bits of a double precision number below its width. -/
theorem Double.toNat_bits_ofNat {n : Nat} (h : n < 2 ^ 64) :
    (⟨UInt64.ofNat n⟩ : Double).bits.toNat = n := UInt64.toNat_ofNat_of_lt h

/-- The bits of a single precision number make the number. -/
theorem Single.ofNat_bits {x : Single} {n : Nat} (h : n = x.bits.toNat) :
    (⟨UInt32.ofNat n⟩ : Single) = x := by
  subst h
  rw [UInt32.ofNat_toNat]

namespace Single

variable {x : Single}

/-- The sign bit goes on top of the rest. -/
theorem signed_decode (x : Single) : single.signed (decide (x.bits.toNat / 2 ^ 31 % 2 = 1))
    (x.bits.toNat % 2 ^ 31) = x.bits.toNat := by
  have hlt : x.bits.toNat < 2 ^ 32 := x.bits.toNat_lt
  rw [signed_single_eq]
  by_cases hsign : x.bits.toNat / 2 ^ 31 % 2 = 1
  · rw [decide_eq_true hsign, if_pos rfl]
    omega
  · rw [decide_eq_false hsign]
    simp only [Bool.false_eq_true, if_false]
    omega

theorem signed_double_lt {negative : Bool} {magnitude : Nat} (h : magnitude < 2 ^ 63) :
    double.signed negative magnitude < 2 ^ 64 := by
  rw [signed_double_eq]
  cases negative <;> simp only [if_true, if_false, Bool.false_eq_true] <;> omega

/-- A finite number other than zero is narrowed to what it was. -/
theorem toSingle?_toDouble_of_finite {negative : Bool} {m : Nat} {q : Int}
    (hx : x.decode = .finite negative m q) (h : IsSingle m q) :
    x.toDouble.toSingle? =
      some ⟨UInt32.ofNat (single.signed negative ((q + 149).toNat * 2 ^ 23 + m))⟩ := by
  obtain ⟨hlow, hhigh⟩ := h.filled_bounds
  have hlog := h.log2_le
  have hleast := h.least
  have hgreatest := h.greatest
  have hbits : x.toDouble.bits.toNat =
      double.signed negative ((q + m.log2 + 1022).toNat * 2 ^ 52 + filled m) := by
    unfold toDouble
    rw [hx]
    dsimp only
    rw [h.round_double]
    exact Double.toNat_bits_ofNat (signed_double_lt (by rw [Option.getD_some]; omega))
  have hdecode : x.toDouble.decode = .finite negative (filled m) ((q + m.log2 + 1022).toNat - 1074) := by
    unfold Double.decode
    rw [hbits, decode_signed_double negative hlow hhigh (by omega)]
  unfold Double.toSingle?
  rw [hdecode]
  dsimp only
  rw [h.round_single]
  rfl

/-- What is not finite keeps its sign and its fraction in double precision. -/
theorem decode_double_of_full (negative : Bool) {fraction : Nat} (h : fraction < 2 ^ 52) :
    double.decode (double.signed negative (double.infinity + fraction)) =
      if fraction = 0 then .infinite negative else .nan negative fraction := by
  have hinfinity : double.infinity = 2047 * 2 ^ 52 := by decide
  rw [hinfinity]
  obtain ⟨hsign, hexponent, hfraction⟩ :=
    fields_double negative (show 2047 * 2 ^ 52 + fraction < 2 ^ 63 by omega)
  have hunit : (2047 * 2 ^ 52 + fraction) / 2 ^ 52 = 2 ^ 11 - 1 := by omega
  have hrest : (2047 * 2 ^ 52 + fraction) % 2 ^ 52 = fraction := by omega
  rw [decode_double_eq, hexponent, hfraction, hunit, hrest, if_pos rfl]
  simp only [hsign, Bool.decide_eq_true]

theorem toSingle?_toDouble_of_infinite {negative : Bool} (hx : x.decode = .infinite negative) :
    x.toDouble.toSingle? = some ⟨UInt32.ofNat (single.signed negative (255 * 2 ^ 23))⟩ := by
  have hbits : x.toDouble.bits.toNat = double.signed negative (double.infinity + 0) := by
    unfold toDouble
    rw [hx]
    exact Double.toNat_bits_ofNat (signed_double_lt (by decide))
  have hdecode : x.toDouble.decode = .infinite negative := by
    unfold Double.decode
    rw [hbits, decode_double_of_full negative (by omega), if_pos rfl]
  unfold Double.toSingle?
  rw [hdecode]
  rfl

/-- A quiet not-a-number is narrowed to itself. -/
theorem toSingle?_toDouble_of_nan {negative : Bool} {payload : Nat}
    (hx : x.decode = .nan negative payload) (hlow : 2 ^ 22 ≤ payload) (hhigh : payload < 2 ^ 23) :
    x.toDouble.toSingle? =
      some ⟨UInt32.ofNat (single.signed negative (255 * 2 ^ 23 + payload))⟩ := by
  have hwide : double.quiet (payload * payloadScale) = double.infinity + payload * 2 ^ 29 := by
    show double.infinity + 2 ^ 51 + payload * 2 ^ 29 % 2 ^ 51 = _
    omega
  have hbits : x.toDouble.bits.toNat =
      double.signed negative (double.infinity + payload * 2 ^ 29) := by
    have hinfinity : double.infinity = 2047 * 2 ^ 52 := by decide
    unfold toDouble
    rw [hx]
    dsimp only
    rw [hwide]
    exact Double.toNat_bits_ofNat (signed_double_lt (by omega))
  have hdecode : x.toDouble.decode = .nan negative (payload * 2 ^ 29) := by
    unfold Double.decode
    rw [hbits, decode_double_of_full negative (by omega), if_neg (by omega)]
  have hnarrow : single.quiet (payload * 2 ^ 29 / payloadScale) = 255 * 2 ^ 23 + payload := by
    show 255 * 2 ^ 23 + 2 ^ 22 + payload * 2 ^ 29 / 2 ^ 29 % 2 ^ 22 = _
    omega
  unfold Double.toSingle?
  rw [hdecode]
  dsimp only
  rw [hnarrow]
  rfl

/-- A not-a-number stays one when it is widened. -/
theorem isNaN_toDouble {negative : Bool} {payload : Nat} (hx : x.decode = .nan negative payload) :
    x.toDouble.isNaN = true := by
  have hquiet : double.quiet (payload * payloadScale) =
      double.infinity + (2 ^ 51 + payload * payloadScale % 2 ^ 51) := by
    show double.infinity + 2 ^ 51 + payload * payloadScale % 2 ^ 51 = _
    omega
  have hmod := Nat.mod_lt (payload * payloadScale) (Nat.two_pow_pos 51)
  have hinfinity : double.infinity = 2047 * 2 ^ 52 := by decide
  have hbits : x.toDouble.bits.toNat = double.signed negative
      (double.infinity + (2 ^ 51 + payload * payloadScale % 2 ^ 51)) := by
    unfold toDouble
    rw [hx]
    dsimp only
    rw [hquiet]
    exact Double.toNat_bits_ofNat (signed_double_lt (by omega))
  unfold Double.isNaN Double.decode
  rw [hbits, decode_double_of_full negative (by omega), if_neg (by omega)]

/-- What is a number in double precision is no signaling not-a-number. -/
theorem isQuiet_of_isNaN_toDouble (h : x.toDouble.isNaN = false) : x.IsQuiet := by
  intro negative payload hx
  rw [isNaN_toDouble hx] at h
  cases h

theorem toSingle?_toDouble_of_zero {negative : Bool} {q : Int}
    (hx : x.decode = .finite negative 0 q) :
    x.toDouble.toSingle? = some ⟨UInt32.ofNat (single.signed negative 0)⟩ := by
  have hround : double.round? 0 q = some 0 := by
    unfold round?
    exact if_pos rfl
  have hbits : x.toDouble.bits.toNat = double.signed negative 0 := by
    unfold toDouble
    rw [hx]
    dsimp only
    rw [hround]
    exact Double.toNat_bits_ofNat (signed_double_lt (by decide))
  have hdecode : x.toDouble.decode = .finite negative 0 (-1074) := by
    unfold Double.decode
    rw [hbits]
    cases negative <;> decide
  unfold Double.toSingle?
  rw [hdecode]
  rfl

/-- Narrowing undoes widening, but for a signaling not-a-number. Each number in single precision is
one in double precision, whose distance to the next ones leaves nothing to round; a quiet
not-a-number keeps its sign and its payload. -/
theorem toSingle?_toDouble (h : x.IsQuiet) : x.toDouble.toSingle? = some x := by
  have hlt : x.bits.toNat < 2 ^ 32 := x.bits.toNat_lt
  have hsigned := signed_decode x
  have hdecode : x.decode = _ := decode_single_eq x.bits.toNat
  generalize hsign : decide (x.bits.toNat / 2 ^ 31 % 2 = 1) = negative at hsigned hdecode
  split at hdecode
  · split at hdecode
    · rw [toSingle?_toDouble_of_infinite hdecode, ofNat_bits]
      rw [← hsigned]
      congr 1
      omega
    · rw [toSingle?_toDouble_of_nan hdecode (h _ _ hdecode) (by omega), ofNat_bits]
      rw [← hsigned]
      congr 1
      omega
  · split at hdecode
    · by_cases hzero : x.bits.toNat % 2 ^ 23 = 0
      · rw [hzero] at hdecode
        rw [toSingle?_toDouble_of_zero hdecode, ofNat_bits]
        rw [← hsigned]
        congr 1
        omega
      · rw [toSingle?_toDouble_of_finite hdecode ⟨by omega, by omega, by omega, by omega, .inr rfl⟩,
          ofNat_bits]
        rw [← hsigned]
        congr 1
        omega
    · rw [toSingle?_toDouble_of_finite hdecode ⟨by omega, by omega, by omega, by omega, .inl (by omega)⟩,
        ofNat_bits]
      rw [← hsigned]
      congr 1
      omega

theorem isQuiet_of_toSingle? {y : Double} (h : y.toSingle? = some x) : x.IsQuiet := by
  -- the patterns that are not quiet lie between infinity and the first quiet one
  have hquiet {negative : Bool} {n : Nat} (hlt : n < 2 ^ 31)
      (hn : n ≤ 255 * 2 ^ 23 ∨ 255 * 2 ^ 23 + 2 ^ 22 ≤ n) :
      IsQuiet ⟨UInt32.ofNat (single.signed negative n)⟩ := by
    intro negative' payload hnan
    have hbits : (⟨UInt32.ofNat (single.signed negative n)⟩ : Single).bits.toNat =
        single.signed negative n := by
      refine UInt32.toNat_ofNat_of_lt ?_
      rw [signed_single_eq]
      show _ < 2 ^ 32
      split <;> omega
    have hfields : single.signed negative n / 2 ^ 23 % 2 ^ 8 = n / 2 ^ 23 ∧
        single.signed negative n % 2 ^ 23 = n % 2 ^ 23 := by
      rw [signed_single_eq]
      split <;> omega
    unfold decode at hnan
    rw [hbits, decode_single_eq, hfields.1, hfields.2] at hnan
    split at hnan
    · split at hnan
      · cases hnan
      · cases hnan
        omega
    · split at hnan <;> cases hnan
  unfold Double.toSingle? at h
  obtain ⟨bits, hbits, rfl⟩ := Option.map_eq_some_iff.1 h
  split at hbits
  · obtain ⟨n, hn, rfl⟩ := Option.map_eq_some_iff.1 hbits
    have hlt := lt_infinity_of_round? (by decide) hn
    rw [infinity_single] at hlt
    exact hquiet (by omega) (.inl (by omega))
  · cases hbits
    rw [infinity_single]
    exact hquiet (by omega) (.inl (by omega))
  · cases hbits
    next payload _ =>
    have hpayload : single.quiet (payload / payloadScale) =
        255 * 2 ^ 23 + 2 ^ 22 + payload / payloadScale % 2 ^ 22 := rfl
    have hmod := Nat.mod_lt (payload / payloadScale) (Nat.two_pow_pos 22)
    rw [hpayload]
    exact hquiet (by omega) (.inr (by omega))

end Single

end ClassTree.Number
