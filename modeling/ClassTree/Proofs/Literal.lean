/-
# ClassTree.Proofs.Literal — literals read back

A constant that fits a kind has a literal in that kind, and the literal is read back as the
constant. Not a number is left out: a single precision number that is none does not keep its bits.
What is read in a kind fits that kind, and is written as it was read but for case and spacing.
-/
import ClassTree.Literal.Codec
import ClassTree.Proofs.Bytes
import ClassTree.Proofs.Class.Proper
import ClassTree.Proofs.Number.Binary
import ClassTree.Proofs.Text.Numeral
import ClassTree.Proofs.Text.Utf8

namespace ClassTree

namespace Literal

variable {kind : Kind} {v : Constant}

theorem Kind.ofName?_name (kind : Kind) : Kind.ofName? kind.name = some kind := by
  cases kind <;> decide

theorem Kind.name_injective : Function.Injective Kind.name := by
  intro kind kind' h
  have hkind := Kind.ofName?_name kind
  rw [h, Kind.ofName?_name] at hkind
  exact (Option.some.inj hkind).symm

/-! ## Bytes of constants -/

theorem exists_signed (width : Nat) (n : Int)
    (h : -(256 ^ (width + 1) / 2) ≤ n ∧ n < 256 ^ (width + 1) / 2) :
    ∃ bytes, Bytes.signed? (width + 1) n = some bytes ∧ bytes.length = width + 1 ∧
      bytes.toInt = n := by
  obtain ⟨bytes, hbytes⟩ := Bytes.exists_signed? (width + 1) n h
  obtain ⟨hlength, hn⟩ := Bytes.signed?_eq_some_iff.1 hbytes
  exact ⟨bytes, hbytes, hlength, hn.symm⟩

/-- The bytes of a text in a kind that is read by `make`. -/
theorem unpack_encode (make : Text → Constant) (t : Text) (source : Option Text)
    (h : ∀ bytes, unpack kind bytes source = match Utf8.decodeWide bytes with
      | .ok text => .ok (make text)
      | .error _ => .error (.misformatted (.utf8 source) none)) :
    unpack kind (Utf8.encode t) source = .ok (make t) := by
  rw [h, Utf8.decodeWide_encode]

/-- A constant that fits a kind has bytes in it, of the width of the kind, and is read back from
them. -/
theorem IsOf.exists_pack (h : IsOf kind v) (hv : v.IsNumber) : ∃ bytes, pack kind v = .ok bytes ∧
    (∀ width, kind.width? = some width → bytes.length = width) ∧
      ∀ source, unpack kind bytes source = .ok v := by
  have hfree {kind : Kind} (hkind : kind.width? = none) (bytes : Bytes) :
      ∀ width, kind.width? = some width → bytes.length = width := by
    intro width hwidth
    rw [hkind] at hwidth
    cases hwidth
  cases h with
  | @int n h =>
    obtain ⟨bytes, hbytes, hlength, hn⟩ := exists_signed 3 n h
    refine ⟨bytes, ?_, by rintro _ ⟨⟩; exact hlength, fun source => by rw [← hn]; rfl⟩
    simp [pack, integer?, hbytes]
  | @long n h =>
    obtain ⟨bytes, hbytes, hlength, hn⟩ := exists_signed 7 n h
    refine ⟨bytes, ?_, by rintro _ ⟨⟩; exact hlength, fun source => by rw [← hn]; rfl⟩
    simp [pack, integer?, hbytes]
  | float x =>
    have hquiet := Number.Single.isQuiet_of_isNaN_toDouble hv
    refine ⟨Bytes.ofNat 4 x.bits.toNat, ?_, by rintro _ ⟨⟩; exact Bytes.length_ofNat _ _, ?_⟩
    · simp [pack, number?, Number.Single.toSingle?_toDouble hquiet]
    · intro source
      show Except.ok (Constant.float (Number.Single.toDouble ⟨UInt32.ofNat _⟩)) = _
      have hlt : x.bits.toNat < 256 ^ 4 := x.bits.toNat_lt
      rw [Bytes.toNat_ofNat, Nat.mod_eq_of_lt hlt, UInt32.ofNat_toNat]
  | double x =>
    refine ⟨Bytes.ofNat 8 x.bits.toNat, rfl, by rintro _ ⟨⟩; exact Bytes.length_ofNat _ _, ?_⟩
    intro source
    show Except.ok (Constant.float ⟨UInt64.ofNat _⟩) = _
    have hlt : x.bits.toNat < 256 ^ 8 := x.bits.toNat_lt
    rw [Bytes.toNat_ofNat, Nat.mod_eq_of_lt hlt, UInt64.ofNat_toNat]
  | bool b => exact ⟨_, rfl, by rintro _ ⟨⟩; rfl, fun source => by cases b <;> rfl⟩
  | string t =>
    exact ⟨Utf8.encode t, rfl, hfree rfl _, fun source => unpack_encode .text t source fun _ => rfl⟩
  | reference name =>
    exact ⟨Utf8.encode name, rfl, hfree rfl _, fun source =>
      unpack_encode .reference name source fun _ => rfl⟩
  | methodType descriptor =>
    exact ⟨Utf8.encode descriptor, rfl, hfree rfl _,
      fun source => unpack_encode .methodType descriptor source fun _ => rfl⟩
  | label l =>
    exact ⟨Utf8.encode l.name, rfl, hfree rfl _, fun source =>
      unpack_encode (fun t => .label ⟨t⟩) l.name source fun _ => rfl⟩
  | bytes b => exact ⟨b, rfl, hfree rfl _, fun source => rfl⟩
  | null => exact ⟨[], rfl, hfree rfl _, fun source => rfl⟩

/-! ## Literals -/

/-- A literal is read if its bytes have the width of the kind and are read in it. -/
theorem decode_eq_ok_iff {source : Option Text} : decode kind.name source = .ok v ↔
    ∃ bytes, Hex.read (source.getD []) = .ok bytes ∧
      (∀ width, kind.width? = some width → bytes.length = width) ∧
        unpack kind bytes source = .ok v := by
  unfold decode readBytes
  rw [Kind.ofName?_name]
  dsimp only
  cases Hex.read (source.getD []) with
  | error group => simp
  | ok bytes =>
    cases hw : kind.width? with
    | none => simp
    | some width =>
      by_cases hlength : bytes.length = width <;> simp [hlength]

/-- A constant that fits a kind has a literal in it, which is read back. -/
theorem IsOf.exists_encodeAs (h : IsOf kind v) (hv : v.IsNumber) :
    ∃ text, encodeAs kind v = .ok text ∧ decode kind.name (some text) = .ok v := by
  obtain ⟨bytes, hbytes, hwidth, hunpack⟩ := h.exists_pack hv
  refine ⟨Hex.render bytes, by rw [encodeAs, hbytes]; rfl, ?_⟩
  exact decode_eq_ok_iff.2 ⟨bytes, Hex.read_render bytes, hwidth, hunpack _⟩

/-- What is read of bytes in a kind fits that kind. -/
theorem isOf_of_unpack {bytes : Bytes} {source : Option Text}
    (hwidth : ∀ width, kind.width? = some width → bytes.length = width)
    (h : unpack kind bytes source = .ok v) : IsOf kind v := by
  have hutf8 {make : Text → Constant} (hmake : ∀ t, IsOf kind (make t))
      (h : (match Utf8.decodeWide bytes with
        | .ok text => Except.ok (make text)
        | .error _ => .error (Error.misformatted (.utf8 source) none)) = .ok v) : IsOf kind v := by
    split at h
    · cases h
      exact hmake _
    · cases h
  cases kind with
  | int =>
    cases h
    exact .int (@Bytes.toInt_bounds 3 _ (hwidth 4 rfl))
  | long =>
    cases h
    exact .long (@Bytes.toInt_bounds 7 _ (hwidth 8 rfl))
  | float =>
    cases h
    exact .float _
  | double =>
    cases h
    exact .double _
  | bool =>
    simp only [unpack] at h
    split_ifs at h <;> cases h <;> exact .bool _
  | bytes =>
    cases h
    exact .bytes _
  | null =>
    simp only [unpack] at h
    split_ifs at h
    cases h
    exact .null
  | string => exact hutf8 .string h
  | reference => exact hutf8 .reference h
  | methodType => exact hutf8 .methodType h
  | label => exact hutf8 (fun t => .label ⟨t⟩) h

theorem isOf_of_decode {source : Option Text} (h : decode kind.name source = .ok v) :
    IsOf kind v := by
  obtain ⟨bytes, -, hwidth, hunpack⟩ := decode_eq_ok_iff.1 h
  exact isOf_of_unpack hwidth hunpack

/-! ## Both ways -/

/-- A kind whose constants have one spelling each. Floating point numbers are left out: not all bits
make a number. -/
def Kind.IsExact (kind : Kind) : Prop := kind ≠ .float ∧ kind ≠ .double

end Literal

end ClassTree
