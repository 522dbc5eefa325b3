/-
# ClassTree.Proofs.Text.Numeral — pieces and numerals read back

What has been joined with a separator is cut apart at it again, as long as the separator is in none
of the pieces. Bytes in hexadecimal are read back that way: they are joined with spaces, and no
digit is one. The decimal numeral of a number determines it, and it is read back as well, as long as
it is no longer than numerals may be.
-/
import ClassTree.Text.Digits
import Mathlib.Data.List.Basic
import Mathlib.Tactic.IntervalCases

namespace ClassTree

namespace Text

/-! ## At a separator -/

variable {separator : CodePoint} {piece t : Text}

/-- What follows on a separator is cut on its own. -/
theorem splitOn_cons_self : splitOn separator (separator :: t) = [] :: splitOn separator t := by
  unfold splitOn
  simp [List.foldr_cons]

/-- A code point that does not separate goes to the first part. -/
theorem splitOn_cons_of_ne {c : CodePoint} (h : c ≠ separator) :
    ∃ part parts, splitOn separator t = part :: parts ∧
      splitOn separator (c :: t) = (c :: part) :: parts := by
  refine ⟨_, _, rfl, ?_⟩
  unfold splitOn
  simp [List.foldr_cons, h]

/-- A text without the separator is one part. -/
theorem splitOn_of_notMem (h : separator ∉ piece) : splitOn separator piece = [piece] := by
  induction piece with
  | nil => rfl
  | cons c piece ih =>
    have hne : c ≠ separator := fun heq => h (by simp [heq])
    obtain ⟨part, parts, hsplit, heq⟩ := splitOn_cons_of_ne (t := piece) hne
    rw [ih fun hmem => h (List.mem_cons_of_mem _ hmem)] at hsplit
    cases hsplit
    exact heq

/-- A piece without the separator ends at the next one. -/
theorem splitOn_append_cons (h : separator ∉ piece) :
    splitOn separator (piece ++ separator :: t) = piece :: splitOn separator t := by
  induction piece with
  | nil => exact splitOn_cons_self
  | cons c piece ih =>
    have hne : c ≠ separator := fun heq => h (by simp [heq])
    obtain ⟨part, parts, hsplit, heq⟩ := splitOn_cons_of_ne (t := piece ++ separator :: t) hne
    rw [ih fun hmem => h (List.mem_cons_of_mem _ hmem)] at hsplit
    cases hsplit
    exact heq

/-! ## At white space -/

/-- The run at the front of a text and the runs behind it. -/
def runs (t : Text) : Text × List Text :=
  t.foldr
    (fun c (run, runs) =>
      if isBlank c then ([], if run.isEmpty then runs else run :: runs) else (c :: run, runs))
    ([], [])

theorem words_eq : words t = if (runs t).1.isEmpty then (runs t).2 else (runs t).1 :: (runs t).2 :=
  rfl

/-- A word is followed by the runs of the rest. -/
theorem runs_append (h : ∀ c ∈ piece, isBlank c = false) :
    runs (piece ++ t) = (piece ++ (runs t).1, (runs t).2) := by
  induction piece with
  | nil => rfl
  | cons c piece ih =>
    unfold runs at ih ⊢
    rw [List.cons_append, List.foldr_cons, ih fun c hc => h c (List.mem_cons_of_mem _ hc)]
    simp [h c (by simp)]

theorem runs_cons {blank : CodePoint} (h : isBlank blank = true) (t : Text) :
    runs (blank :: t) = ([], words t) := by
  rw [words_eq]
  unfold runs
  rw [List.foldr_cons]
  simp [h]

theorem words_of_word (h : ∀ c ∈ piece, isBlank c = false) (hne : piece ≠ []) :
    words piece = [piece] := by
  have hruns := runs_append (t := []) h
  rw [List.append_nil] at hruns
  rw [words_eq, hruns]
  simp [runs, hne]

theorem words_append_cons {blank : CodePoint} (hblank : isBlank blank = true)
    (h : ∀ c ∈ piece, isBlank c = false) (hne : piece ≠ []) :
    words (piece ++ blank :: t) = piece :: words t := by
  rw [words_eq, runs_append h, runs_cons hblank]
  simp [hne]

end Text

namespace Hex

/-! ## Bytes in hexadecimal -/

/-- A digit stands for its number and is not blank. -/
theorem digitValue?_digit : ∀ n < 16, digitValue? (digit n) = some n ∧
    Text.isBlank (digit n) = false := by
  decide +kernel

theorem byteOf_ofByte (b : UInt8) : byteOf (ofByte b) = .ok b := by
  have hb := UInt8.toNat_lt b
  unfold byteOf ofByte
  simp only [(digitValue?_digit (b.toNat / 16) (by omega)).1,
    (digitValue?_digit (b.toNat % 16) (by omega)).1]
  rw [show b.toNat / 16 * 16 + b.toNat % 16 = b.toNat by omega, UInt8.ofNat_toNat]

/-- The digits of a byte are a word. -/
theorem isBlank_of_mem_ofByte {b : UInt8} {c : CodePoint} (h : c ∈ ofByte b) :
    Text.isBlank c = false := by
  have hb := UInt8.toNat_lt b
  rcases List.mem_cons.1 h with rfl | h
  · exact (digitValue?_digit (b.toNat / 16) (by omega)).2
  · rw [List.mem_singleton.1 h]
    exact (digitValue?_digit (b.toNat % 16) (by omega)).2

/-- The words of rendered bytes are those of the single bytes. -/
theorem words_render (bytes : Bytes) : Text.words (render bytes) = bytes.map ofByte := by
  have hne (b : UInt8) : ofByte b ≠ [] := by simp [ofByte]
  unfold render
  induction bytes with
  | nil => rfl
  | cons b bytes ih =>
    cases bytes with
    | nil =>
      have hone : Text.join " " ([b].map ofByte) = ofByte b := by simp [Text.join]
      rw [hone, Text.words_of_word (fun c => isBlank_of_mem_ofByte) (hne b)]
      rfl
    | cons b' bytes =>
      have hjoin : Text.join " " ((b :: b' :: bytes).map ofByte) =
          ofByte b ++ 0x20 :: Text.join " " ((b' :: bytes).map ofByte) := by
        simp only [Text.join, List.map_cons, List.intersperse_cons_cons, List.flatten_cons]
        rfl
      rw [hjoin, Text.words_append_cons (by decide +kernel) (fun c => isBlank_of_mem_ofByte) (hne b), ih]
      rfl

theorem read_render (bytes : Bytes) : read (render bytes) = .ok bytes := by
  unfold read
  rw [words_render]
  induction bytes with
  | nil => rfl
  | cons b bytes ih =>
    rw [List.map_cons, List.mapM_cons, byteOf_ofByte, ih]
    rfl

/-! ## One spelling but for case and spacing -/

/-- A letter in upper case. -/
def upper (c : CodePoint) : CodePoint :=
  if 0x61 ≤ c.val ∧ c.val ≤ 0x7A then Fin.ofNat _ (c.val - 0x20) else c

/-- The digits of hexadecimal text, whatever their case and the white space around them. -/
def digits (t : Text) : Text := (t.filter fun c => !Text.isBlank c).map upper

end Hex

/-! ## Numerals -/

theorem CodePoint.ofChar_injective : Function.Injective CodePoint.ofChar := by
  intro a b h
  have hval : a.val.toNat = b.val.toNat := congrArg (fun c : CodePoint => c.val) h
  exact Char.ext (UInt32.toNat_inj.1 hval)

namespace Text

theorem ofNat_injective : Function.Injective Text.ofNat := by
  intro m n h
  have hdigits := List.map_injective_iff.2 CodePoint.ofChar_injective h
  rw [← Nat.ofDigitChars_ten_toDigits (n := m), hdigits, Nat.ofDigitChars_ten_toDigits]

/-! ## Reading numerals -/

/-- A decimal digit of a numeral: it is read as a digit, and it is none of the signs that stand in
or between numerals. -/
structure IsDecimal (c : CodePoint) : Prop where
  value : digitValue? c = some (c.val - 0x30)
  isDigit : isDigit c = true
  isBlank : isBlank c = false
  range : 0x30 ≤ c.val ∧ c.val ≤ 0x39

theorem isDecimal_ofChar {c : Char} (h : c.isDigit = true) : IsDecimal (CodePoint.ofChar c) := by
  have hall : ∀ n : Fin 10, let c : CodePoint := Fin.ofNat _ (0x30 + n)
      digitValue? c = some (c.val - 0x30) ∧ isDigit c = true ∧ isBlank c = false := by
    decide +kernel
  rw [Char.isDigit, Bool.and_eq_true, decide_eq_true_eq, decide_eq_true_eq] at h
  have hlow : 0x30 ≤ c.val.toNat := h.1
  have hhigh : c.val.toNat ≤ 0x39 := h.2
  have hval : (CodePoint.ofChar c).val = c.val.toNat := rfl
  have heq : CodePoint.ofChar c =
      Fin.ofNat 0x110000 (0x30 + (⟨c.val.toNat - 0x30, by omega⟩ : Fin 10)) := by
    refine Fin.ext ?_
    rw [hval, Fin.val_ofNat, Nat.mod_eq_of_lt (by dsimp only; omega)]
    dsimp only
    omega
  obtain ⟨hvalue, hdigit, hblank⟩ := hall ⟨c.val.toNat - 0x30, by omega⟩
  rw [← heq] at hvalue hdigit hblank
  exact ⟨hvalue, hdigit, hblank, hval ▸ hlow, hval ▸ hhigh⟩

theorem isDecimal_of_mem_ofNat {n : Nat} {c : CodePoint} (h : c ∈ ofNat n) : IsDecimal c := by
  obtain ⟨d, hd, rfl⟩ := List.mem_map.1 h
  exact isDecimal_ofChar (Nat.isDigit_of_mem_toDigits (by decide) (by decide) hd)

theorem ofNat_ne_nil (n : Nat) : ofNat n ≠ [] := by
  unfold ofNat
  simp [Nat.toDigits_ne_nil]

theorem isNumeric_ofNat (n : Nat) : isNumeric (ofNat n) = true := by
  unfold isNumeric
  rw [Bool.and_eq_true]
  refine ⟨by simp [ofNat_ne_nil], List.all_eq_true.2 fun c hc => ?_⟩
  exact (isDecimal_of_mem_ofNat hc).isDigit

/-- The values of the digits of a numeral. -/
theorem mapM_digitValue?_ofNat (n : Nat) :
    (ofNat n).mapM digitValue? = some ((ofNat n).map fun c => c.val - 0x30) := by
  have hall {t : Text} (h : ∀ c ∈ t, IsDecimal c) :
      t.mapM digitValue? = some (t.map fun c => c.val - 0x30) := by
    induction t with
    | nil => rfl
    | cons c t ih =>
      rw [List.mapM_cons, (h c (by simp)).value, ih fun c hc => h c (List.mem_cons_of_mem _ hc)]
      rfl
  exact hall fun c => isDecimal_of_mem_ofNat

/-- The digits of a numeral make up its number. -/
theorem foldl_ofNat (n : Nat) :
    ((ofNat n).map fun c => c.val - 0x30).foldl (fun n d => n * 10 + d) 0 = n := by
  have hdigits := Nat.ofDigitChars_ten_toDigits (n := n)
  rw [Nat.ofDigitChars_eq_foldl] at hdigits
  conv_rhs => rw [← hdigits]
  rw [List.foldl_map, ofNat, List.foldl_map]
  simp only [Nat.mul_comm]
  rfl

/-- A numeral that is not too long is read back. -/
theorem toNat?_ofNat {n : Nat} (h : n < 10 ^ maxNumeralLength) : toNat? (ofNat n) = some n := by
  have hunderscore : (0x5F : CodePoint) ∉ ofNat n := by
    intro hmem
    have hrange := (isDecimal_of_mem_ofNat hmem).range
    omega
  have hlength : (ofNat n).length ≤ maxNumeralLength := by
    rw [ofNat, List.length_map]
    exact (Nat.length_toDigits_le_iff (by decide) (by decide)).2 h
  unfold toNat?
  rw [splitOn_of_notMem hunderscore]
  simp only [List.any_cons, List.any_nil, List.isEmpty_eq_false_iff.2 (ofNat_ne_nil n),
    List.flatten_singleton, mapM_digitValue?_ofNat]
  simp [hlength, foldl_ofNat]

/-- Digits of base ten make a number below a power of ten. -/
theorem foldl_lt {digits : List Nat} (h : ∀ d ∈ digits, d < 10) (start : Nat) :
    digits.foldl (fun n d => n * 10 + d) start < (start + 1) * 10 ^ digits.length := by
  induction digits generalizing start with
  | nil => simp
  | cons d digits ih =>
    have hd := h d (by simp)
    have hrest := ih (fun e he => h e (List.mem_cons_of_mem _ he)) (start * 10 + d)
    have hle : (start * 10 + d + 1) * 10 ^ digits.length ≤
        (start + 1) * 10 * 10 ^ digits.length := Nat.mul_le_mul_right _ (by omega)
    rw [List.foldl_cons, List.length_cons, Nat.pow_succ', ← Nat.mul_assoc]
    omega

theorem lt_of_mapM_digitValue? {t : Text} {digits : List Nat}
    (h : t.mapM digitValue? = some digits) : ∀ d ∈ digits, d < 10 := by
  induction t generalizing digits with
  | nil =>
    cases h
    simp
  | cons c t ih =>
    rw [List.mapM_cons] at h
    obtain ⟨d, hd, h⟩ := Option.bind_eq_some_iff.1 h
    obtain ⟨rest, hrest, h⟩ := Option.bind_eq_some_iff.1 h
    cases h
    obtain ⟨range, -, rfl⟩ := Option.map_eq_some_iff.1 hd
    exact List.forall_mem_cons.2 ⟨Nat.mod_lt _ (by decide), ih hrest⟩

/-- What is read of a numeral is no longer than numerals may be. -/
theorem lt_of_toNat? {t : Text} {n : Nat} (h : toNat? t = some n) : n < 10 ^ maxNumeralLength := by
  unfold toNat? at h
  simp only [Option.bind_eq_bind] at h
  split at h
  · cases h
  · obtain ⟨digits, hdigits, h⟩ := Option.bind_eq_some_iff.1 h
    split at h
    · cases h
    · next hlength =>
      cases h
      have hlt := foldl_lt (lt_of_mapM_digitValue? hdigits) 0
      have hle := Nat.pow_le_pow_right (n := 10) (by decide) (Nat.le_of_not_gt hlength)
      omega

/-- A numeral that is too long is not read. -/
theorem toNat?_ofNat_eq_none {n : Nat} (h : 10 ^ maxNumeralLength ≤ n) : toNat? (ofNat n) = none := by
  have hunderscore : (0x5F : CodePoint) ∉ ofNat n := by
    intro hmem
    have hrange := (isDecimal_of_mem_ofNat hmem).range
    omega
  have hlength : maxNumeralLength < (ofNat n).length := by
    rw [ofNat, List.length_map]
    by_contra hle
    exact absurd ((Nat.length_toDigits_le_iff (by decide) (by decide)).1 (not_lt.1 hle)) (not_lt.2 h)
  unfold toNat?
  rw [splitOn_of_notMem hunderscore]
  simp only [List.any_cons, List.any_nil, List.isEmpty_eq_false_iff.2 (ofNat_ne_nil n),
    List.flatten_singleton, mapM_digitValue?_ofNat]
  simp [hlength]

/-! ## Integers -/

/-- A text without anything to drop stays as it is. -/
theorem strip_eq_self {drop : CodePoint → Bool} {t : Text} (h : ∀ c ∈ t, drop c = false) :
    strip drop t = t := by
  have hkeep {t : Text} (h : ∀ c ∈ t, drop c = false) : t.dropWhile drop = t := by
    cases t with
    | nil => rfl
    | cons c t => exact List.dropWhile_cons_of_neg (by simp [h c (by simp)])
  unfold strip
  rw [hkeep h, hkeep fun c hc => h c (List.mem_reverse.1 hc), List.reverse_reverse]

/-- A numeral that is not too long is read back as an integer. -/
theorem toInt?_ofNat {n : Nat} (h : n < 10 ^ maxNumeralLength) :
    toInt? (ofNat n) = some (n : Int) := by
  have hstrip : strip (fun c => isBlank c && !isSeparator c) (ofNat n) = ofNat n :=
    strip_eq_self fun c hc => by simp [(isDecimal_of_mem_ofNat hc).isBlank]
  unfold toInt?
  rw [hstrip]
  cases hdigits : ofNat n with
  | nil => exact absurd hdigits (ofNat_ne_nil n)
  | cons c rest =>
    have hrange := (isDecimal_of_mem_ofNat (n := n) (c := c) (by simp [hdigits])).range
    have hplus : c ≠ 0x2B := by rintro rfl; omega
    have hminus : c ≠ 0x2D := by rintro rfl; omega
    dsimp only
    rw [if_neg hplus, if_neg hminus, ← hdigits, toNat?_ofNat h]
    rfl

end Text

end ClassTree
