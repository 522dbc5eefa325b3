/-
# ClassTree.Proofs.Text.Base64 — bytes read back from base64

The base64 text of bytes is a row of digits, for the groups of six bits, with up to two pads behind
it. Both are read back, and neither is a hyphen.
-/
import ClassTree.Text.Digits
import Mathlib.Data.List.Basic

namespace ClassTree.Base64

/-- The numbers that the digits of bytes stand for. -/
def values : Bytes → List Nat
  | a :: b :: c :: rest =>
    let n := a.toNat * 0x10000 + b.toNat * 0x100 + c.toNat
    n / 262144 :: n / 4096 % 64 :: n / 64 % 64 :: n % 64 :: values rest
  | [a, b] =>
    let n := a.toNat * 0x100 + b.toNat
    [n / 1024, n / 16 % 64, n * 4 % 64]
  | [a] => [a.toNat / 4, a.toNat * 16 % 64]
  | [] => []

/-- How many pads stand behind the digits of bytes. -/
def pads : Bytes → Nat
  | _ :: _ :: _ :: rest => pads rest
  | [_, _] => 1
  | [_] => 2
  | [] => 0

/-- A digit stands for its number. It belongs to ASCII, and it is neither a pad nor a hyphen. -/
theorem digitValue?_digit : ∀ n < 64, digitValue? (digit n) = some n ∧ digit n ≠ pad ∧
    (digit n).val < 0x80 ∧ digit n ≠ 0x2D := by
  decide +kernel

/-- The text of bytes is that of their digits and pads. -/
theorem render_eq (bytes : Bytes) :
    render bytes = (values bytes).map digit ++ List.replicate (pads bytes) pad := by
  have honto (acc : Text) : renderFrom bytes acc =
      acc.reverse ++ ((values bytes).map digit ++ List.replicate (pads bytes) pad) := by
    induction bytes, acc using renderFrom.induct with
    | case1 acc a b c rest n ih =>
      rw [renderFrom, ih]
      simp [values, pads, n]
    | case2 acc a b => simp [renderFrom, values, pads]
    | case3 acc a => simp [renderFrom, values, pads]
    | case4 acc => simp [renderFrom, values, pads]
  exact honto []

theorem value_lt {bytes : Bytes} {n : Nat} (h : n ∈ values bytes) : n < 64 := by
  induction bytes using values.induct with
  | case1 a b c rest ih =>
    have ha := UInt8.toNat_lt a
    have hb := UInt8.toNat_lt b
    have hc := UInt8.toNat_lt c
    simp only [values, List.mem_cons] at h
    rcases h with rfl | rfl | rfl | rfl | h
    · omega
    · omega
    · omega
    · omega
    · exact ih h
  | case2 a b =>
    have ha := UInt8.toNat_lt a
    have hb := UInt8.toNat_lt b
    simp only [values, List.mem_cons, List.not_mem_nil, or_false] at h
    omega
  | case3 a =>
    have ha := UInt8.toNat_lt a
    simp only [values, List.mem_cons, List.not_mem_nil, or_false] at h
    omega
  | case4 => cases h

/-- The numbers of the digits make up the bytes. -/
theorem bytesFrom_values (bytes acc : Bytes) :
    bytesFrom (values bytes) acc = acc.reverse ++ bytes := by
  have hbyte {n : Nat} {b : UInt8} (h : n % 256 = b.toNat) : UInt8.ofNat n = b := by
    refine UInt8.toNat_inj.1 ?_
    rw [UInt8.toNat_ofNat']
    exact h
  induction bytes using values.induct generalizing acc with
  | case1 a b c rest ih =>
    have ha := UInt8.toNat_lt a
    have hb := UInt8.toNat_lt b
    have hc := UInt8.toNat_lt c
    simp only [values, bytesFrom]
    rw [ih, hbyte (b := c) (by omega), hbyte (b := b) (by omega), hbyte (b := a) (by omega)]
    simp
  | case2 a b =>
    have ha := UInt8.toNat_lt a
    have hb := UInt8.toNat_lt b
    simp only [values, bytesFrom]
    rw [hbyte (b := b) (by omega), hbyte (b := a) (by omega)]
    simp
  | case3 a =>
    have ha := UInt8.toNat_lt a
    simp only [values, bytesFrom]
    rw [hbyte (b := a) (by omega)]
    simp
  | case4 => simp [values, bytesFrom]

/-- The pads are those that the digits need. -/
theorem padded_values (bytes : Bytes) : padded (values bytes).length (pads bytes) = true := by
  have hlength : ((values bytes).length % 4 = 0 ∧ pads bytes = 0) ∨
      ((values bytes).length % 4 = 3 ∧ pads bytes = 1) ∨
      ((values bytes).length % 4 = 2 ∧ pads bytes = 2) := by
    induction bytes using values.induct with
    | case1 a b c rest ih =>
      simp only [values, pads, List.length_cons]
      omega
    | case2 a b => exact .inr (.inl ⟨rfl, rfl⟩)
    | case3 a => exact .inr (.inr ⟨rfl, rfl⟩)
    | case4 => exact .inl ⟨rfl, rfl⟩
  unfold padded
  rcases hlength with ⟨h, h'⟩ | ⟨h, h'⟩ | ⟨h, h'⟩ <;> rw [h, h'] <;> rfl

/-- The digits of a text end where its pads begin. -/
theorem takeWhile_dropWhile_render (bytes : Bytes) :
    (render bytes).takeWhile (· ≠ pad) = (values bytes).map digit ∧
      (render bytes).dropWhile (· ≠ pad) = List.replicate (pads bytes) pad := by
  have hdigits : ∀ c ∈ (values bytes).map digit, decide (c ≠ pad) = true := by
    intro c hc
    obtain ⟨n, hn, rfl⟩ := List.mem_map.1 hc
    exact decide_eq_true (digitValue?_digit n (value_lt hn)).2.1
  have hpads : ∀ count : Nat, (List.replicate count pad).takeWhile (· ≠ pad) = [] ∧
      (List.replicate count pad).dropWhile (· ≠ pad) = List.replicate count pad := by
    intro count
    cases count with
    | zero => exact ⟨rfl, rfl⟩
    | succ count => simp [List.replicate_succ]
  rw [render_eq, List.takeWhile_append_of_pos hdigits, List.dropWhile_append_of_pos hdigits,
    (hpads _).1, (hpads _).2, List.append_nil]
  exact ⟨rfl, rfl⟩

theorem read?_render (bytes : Bytes) : read? (render bytes) = some bytes := by
  have hvalues : ((values bytes).map digit).mapM digitValue? = some (values bytes) := by
    have hall {ns : List Nat} (h : ∀ n ∈ ns, n < 64) :
        (ns.map digit).mapM digitValue? = some ns := by
      induction ns with
      | nil => rfl
      | cons n ns ih =>
        rw [List.map_cons, List.mapM_cons, (digitValue?_digit n (h n (by simp))).1,
          ih fun m hm => h m (List.mem_cons_of_mem _ hm)]
        rfl
    exact hall fun n => value_lt
  obtain ⟨hdigits, hrest⟩ := takeWhile_dropWhile_render bytes
  unfold read?
  simp only [hdigits, hrest, List.length_map, List.length_replicate, padded_values, hvalues]
  simp [bytesFrom_values]

/-- Rendered bytes belong to ASCII and have no hyphen. -/
theorem of_mem_render {bytes : Bytes} {c : CodePoint} (h : c ∈ render bytes) :
    c.val < 0x80 ∧ c ≠ 0x2D := by
  rw [render_eq, List.mem_append] at h
  rcases h with h | h
  · obtain ⟨n, hn, rfl⟩ := List.mem_map.1 h
    exact (digitValue?_digit n (value_lt hn)).2.2
  · rw [List.eq_of_mem_replicate h]
    decide

end ClassTree.Base64
