/-
# ClassTree.Proofs.Constant — constants read back from the pool

A constant is written as an entry of the kind that its use asks for, and it is read back in that
kind: a truth value as an integer, a fraction in single precision, a text as it is stored. What
cannot be read back is a constant without a name that its entry has to refer to, and such a constant
is never found in a pool that has bytes.
-/
import ClassTree.Proofs.Encoding.Steady
import ClassTree.Proofs.Table

namespace ClassTree

open Encoder (Fixed pooled)
open Encoding Decoding
open Literal (Kind)

/-! ## What is read back -/

/-- A handle as it is read back: whether the owner is an interface is not kept for a field. -/
def Handle.stored (g : Text → Text) (h : Handle) : Handle :=
  { kind := h.kind, owner := h.owner.map g, name := g h.name, descriptor := g h.descriptor,
    interface := h.interface && !(h.kind ≤ Pool.lastFieldKind) }

namespace Constant

/-- What a constant of a kind is read back as, if texts change by `g`. -/
inductive Stores (g : Text → Text) : Text → Constant → Constant → Prop
  | int {v : Constant} {n : Int} (h : integerOf v = .ok n) : Stores g Kind.int.name v (.int n)
  | float {v : Constant} {x : Number.Single} (h : singleOf v = .ok x) :
      Stores g Kind.float.name v (.float x.toDouble)
  | long {v : Constant} {n : Int} (h : v.toInt? = some n) : Stores g Kind.long.name v (.int n)
  | double {v : Constant} {x : Number.Double} (h : doubleOf v = .ok x) :
      Stores g Kind.double.name v (.float x)
  | string (t : Text) : Stores g Kind.string.name (.text t) (.text (g t))
  | reference (name : Text) : Stores g Kind.reference.name (.reference name) (.reference (g name))
  | methodType (descriptor : Text) :
      Stores g Kind.methodType.name (.methodType descriptor) (.methodType (g descriptor))
  | handle (h : Handle) : Stores g Literal.handleKind (.handle h) (.handle (h.stored g))

/-- A constant has the form that an entry of its kind asks for: a long is a whole number, a string a
text, and a handle names a class. -/
structure IsRegular (kind : Text) (v : Constant) : Prop where
  long : kind = Kind.long.name → ∃ n, v.toInt? = some n
  string : kind = Kind.string.name → ∃ t, v = .text t
  handle : ∀ h, v = .handle h → ∃ owner, h.owner = some owner

end Constant

variable {g : Text → Text} {t : Table} {P : Pool} {i : Nat}

/-! ## How constants are added -/

/-- A constant of a kind is found by the encoder for that kind. -/
inductive Encoding.Finding (P : Pool) (i : Nat) : Text → Constant → Prop
  | int {v : Constant} (h : Fixed P (addInteger v) i) : Finding P i Kind.int.name v
  | float {v : Constant} (h : Fixed P (addFloat v) i) : Finding P i Kind.float.name v
  | long {v : Constant} (h : Fixed P (addLong v) i) : Finding P i Kind.long.name v
  | double {v : Constant} (h : Fixed P (addDouble v) i) : Finding P i Kind.double.name v
  | string {v : Constant} (h : Fixed P (Encoding.addString v) i) : Finding P i Kind.string.name v
  | reference {name : Text} (h : Fixed P (pooled (Pool.addClass (some name))) i) :
      Finding P i Kind.reference.name (.reference name)
  | methodType {descriptor : Text} (h : Fixed P (pooled (Pool.addMethodType descriptor)) i) :
      Finding P i Kind.methodType.name (.methodType descriptor)
  | handle {handle : Handle} (h : Fixed P (pooled (Pool.addHandle handle)) i) :
      Finding P i Literal.handleKind (.handle handle)

/-- The name of a kind is the one under which it is found. -/
theorem Literal.Kind.eq_name_of_ofName? {kind : Text} {k : Literal.Kind}
    (h : Literal.Kind.ofName? kind = some k) : kind = k.name := by
  unfold Literal.Kind.ofName? at h
  have hname := List.find?_some h
  exact (of_decide_eq_true hname).symm

/-- The kinds of constants that a pool can hold are these eight. -/
theorem Encoding.fixed_addConstant_iff {kind : Text} {v : Constant} :
    Fixed P (addConstant kind v) i ↔ Finding P i kind v := by
  constructor
  · intro h
    unfold addConstant at h
    split at h
    · next hkind =>
      subst hkind
      split at h
      · exact .handle h
      · exact absurd h Encoder.not_fixed_throw
    · split at h
      case h_8 => exact absurd h Encoder.not_fixed_throw
      all_goals
        next hkind =>
        obtain rfl := Literal.Kind.eq_name_of_ofName? hkind
        constructor
        exact h
  · intro h
    cases h <;> assumption

theorem Encoding.fixed_addInteger_iff {v : Constant} :
    Fixed P (addInteger v) i ↔
      ∃ n, integerOf v = .ok n ∧ P.index[Pool.Entry.integer n]? = some i := by
  unfold addInteger
  simp only [Encoder.fixed_bind_iff, Encoder.fixed_lift_iff, Encoder.fixed_add_iff]
  rfl

theorem Encoding.fixed_addFloat_iff {v : Constant} :
    Fixed P (addFloat v) i ↔ ∃ x, singleOf v = .ok x ∧ P.index[Pool.Entry.float x]? = some i := by
  unfold addFloat
  simp only [Encoder.fixed_bind_iff, Encoder.fixed_lift_iff, Encoder.fixed_add_iff]
  rfl

theorem Encoding.fixed_addDouble_iff {v : Constant} :
    Fixed P (addDouble v) i ↔
      ∃ x, doubleOf v = .ok x ∧ P.index[Pool.Entry.double x]? = some i := by
  unfold addDouble
  simp only [Encoder.fixed_bind_iff, Encoder.fixed_lift_iff, Encoder.fixed_add_iff]
  rfl

/-- A whole number is found as a long; what is none is found as it is. -/
theorem Encoding.fixed_addLong_iff {v : Constant} :
    Fixed P (addLong v) i ↔
      P.index[match v.toInt? with
        | some n => Pool.Entry.long n
        | none => .irregular 5 [v]]? = some i := by
  unfold addLong
  cases v with
  | int n => exact Encoder.fixed_add_iff
  | _ =>
    rw [Encoder.fixed_add_iff]
    rfl

/-- A text is found as it is; what is none is found in its place. -/
theorem Encoding.fixed_addString_iff {v : Constant} :
    Fixed P (Encoding.addString v) i ↔
      ∃ n, P.index[match v with
        | .text t => Pool.Entry.utf8 t
        | v => .irregular 1 [v]]? = some n ∧ P.index[Pool.Entry.string n]? = some i := by
  have htext (e : Pool.Entry) (h : Encoder.Steady (pooled (Pool.add e))) :
      Fixed P (do
        let n ← pooled (Pool.add e)
        pooled (Pool.add (.string n))) i ↔
      ∃ n, P.index[e.key]? = some n ∧ P.index[Pool.Entry.string n]? = some i := by
    simp only [Encoder.fixed_bind_iff, Encoder.fixed_add_iff]
    rfl
  cases v with
  | text s => exact htext _ (Encoder.steady_add_of_allowed trivial)
  | _ => exact htext _ (Encoder.steady_add_of_allowed (.inl rfl))

/-- A handle is found with the field or the method that it names. -/
theorem Encoding.fixed_addHandle_iff {h : Handle} :
    Fixed P (pooled (Pool.addHandle h)) i ↔
      ∃ target, Fixed P (pooled (if h.kind ≤ Pool.lastFieldKind
          then Pool.addField h.owner h.name h.descriptor
          else Pool.addMethod h.interface h.owner h.name h.descriptor)) target ∧
        P.index[Pool.Entry.methodHandle h.kind target]? = some i := by
  unfold Pool.addHandle
  split
  · simp only [Encoder.fixed_pooled_bind_iff, Encoder.fixed_add_iff]
    rfl
  · simp only [Encoder.fixed_pooled_bind_iff, Encoder.fixed_add_iff]
    rfl

/-! ## How constants are read back -/

theorem Decoding.Carries.reads_handle (ht : Carries g t P) {h : Handle} {owner : Text}
    (howner : h.owner = some owner) (hi : Fixed P (pooled (Pool.addHandle h)) i) :
    Reads (t.handle i) [] (h.stored g) := by
  obtain ⟨kind, _, name, descriptor, interface⟩ := h
  obtain rfl : _ = some owner := howner
  obtain ⟨target, htarget, hi⟩ := Encoding.fixed_addHandle_iff.1 hi
  refine (ht.reads_entry hi).bind ?_
  simp only [Handle.stored]
  split at htarget
  · next hkind =>
    have hmember := ht.reads_field htarget
    have hflag : (interface && !(decide (kind ≤ Pool.lastFieldKind))) = false := by simp [hkind]
    rw [hflag]
    exact hmember.bind (.pure _)
  · next hkind =>
    have hmember := ht.reads_method htarget
    have hflag : (interface && !(decide (kind ≤ Pool.lastFieldKind))) = interface := by simp [hkind]
    rw [hflag]
    exact hmember.bind (.pure _)

/-- A constant is looked up in the kind in which it was put there. -/
theorem Decoding.Carries.exists_reads_constant (ht : Carries g t P) {kind : Text} {v : Constant}
    (hv : v.IsRegular kind) (h : Fixed P (addConstant kind v) i) :
    ∃ v', Constant.Stores g kind v v' ∧ Reads (t.constant i) [] (kind, v') := by
  cases Encoding.fixed_addConstant_iff.1 h with
  | int h =>
    obtain ⟨n, hn, hi⟩ := Encoding.fixed_addInteger_iff.1 h
    exact ⟨_, .int hn, (ht.reads_entry hi).bind (.pure _)⟩
  | float h =>
    obtain ⟨x, hx, hi⟩ := Encoding.fixed_addFloat_iff.1 h
    exact ⟨_, .float hx, (ht.reads_entry hi).bind (.pure _)⟩
  | long h =>
    obtain ⟨n, hn⟩ := hv.long rfl
    have hi := Encoding.fixed_addLong_iff.1 h
    rw [hn] at hi
    exact ⟨_, .long hn, (ht.reads_entry hi).bind (.pure _)⟩
  | double h =>
    obtain ⟨x, hx, hi⟩ := Encoding.fixed_addDouble_iff.1 h
    exact ⟨_, .double hx, (ht.reads_entry hi).bind (.pure _)⟩
  | string h =>
    obtain ⟨s, rfl⟩ := hv.string rfl
    obtain ⟨n, hn, hi⟩ := Encoding.fixed_addString_iff.1 h
    exact ⟨_, .string s, (ht.reads_entry hi).bind ((ht.reads_utf8 hn).map _)⟩
  | @reference name h =>
    obtain ⟨n, hn, hi⟩ := Encoder.fixed_addClass_iff.1 h
    have hn := Encoder.fixed_addUtf8_iff.1 hn
    exact ⟨_, .reference name, (ht.reads_entry hi).bind ((ht.reads_utf8 hn).map _)⟩
  | @methodType descriptor h =>
    obtain ⟨n, hn, hi⟩ := Encoder.fixed_addMethodType_iff.1 h
    exact ⟨_, .methodType descriptor, (ht.reads_entry hi).bind ((ht.reads_utf8 hn).map _)⟩
  | @handle handle h =>
    obtain ⟨owner, howner⟩ := hv.handle handle rfl
    obtain ⟨target, -, hi⟩ := Encoding.fixed_addHandle_iff.1 h
    exact ⟨_, .handle handle, (ht.reads_entry hi).bind ((ht.reads_handle howner h).map _)⟩

/-- A handle that is found in a pool with bytes names a class. -/
theorem Decoding.Backs.exists_of_fixed_addHandle (ht : Backs g t P) {h : Handle}
    (hi : Fixed P (pooled (Pool.addHandle h)) i) : ∃ owner, h.owner = some owner := by
  obtain ⟨target, htarget, -⟩ := Encoding.fixed_addHandle_iff.1 hi
  split at htarget
  · obtain ⟨o, ho, -⟩ := Encoder.fixed_addField_iff.1 htarget
    exact ht.exists_of_fixed_addClass ho
  · obtain ⟨o, ho, -⟩ := Encoder.fixed_addMethod_iff.1 htarget
    exact ht.exists_of_fixed_addClass ho

/-- A constant that is found in a pool with bytes has the form of its kind. -/
theorem Decoding.Backs.isRegular_of_fixed (ht : Backs g t P) {kind : Text} {v : Constant}
    (h : Fixed P (addConstant kind v) i) : v.IsRegular kind := by
  refine ⟨?_, ?_, ?_⟩
  · rintro rfl
    cases Encoding.fixed_addConstant_iff.1 h with
    | long h =>
      have hi := Encoding.fixed_addLong_iff.1 h
      cases hv : v.toInt? with
      | some n => exact ⟨n, rfl⟩
      | none =>
        rw [hv] at hi
        exact absurd hi (by simp [ht.regular])
  · rintro rfl
    cases Encoding.fixed_addConstant_iff.1 h with
    | string h =>
      obtain ⟨n, hn, -⟩ := Encoding.fixed_addString_iff.1 h
      cases v with
      | text s => exact ⟨s, rfl⟩
      | _ => exact absurd hn (by simp [ht.regular])
  · rintro handle rfl
    cases Encoding.fixed_addConstant_iff.1 h with
    | int h =>
      obtain ⟨n, hn, -⟩ := Encoding.fixed_addInteger_iff.1 h
      cases hn
    | float h =>
      obtain ⟨x, hx, -⟩ := Encoding.fixed_addFloat_iff.1 h
      cases hx
    | long h => exact absurd (Encoding.fixed_addLong_iff.1 h) (by simp [Constant.toInt?, ht.regular])
    | double h =>
      obtain ⟨x, hx, -⟩ := Encoding.fixed_addDouble_iff.1 h
      cases hx
    | string h =>
      obtain ⟨n, hn, -⟩ := Encoding.fixed_addString_iff.1 h
      exact absurd hn (by simp [ht.regular])
    | handle h => exact ht.exists_of_fixed_addHandle h

end ClassTree
