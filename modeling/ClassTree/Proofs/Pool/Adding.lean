/-
# ClassTree.Proofs.Pool.Adding — constants that a pool has

A constant that refers to others is found if the others are found and the entry made of their
indices is. For a pool that has everything this says where each constant stands.
-/
import ClassTree.Proofs.Encoder

namespace ClassTree.Encoder

variable {P : Pool} {i : Nat}

/-! ## Entries that may be added -/

instance steady_addUtf8 (t : Text) : Steady (pooled (Pool.addUtf8 t)) :=
  steady_add_of_allowed trivial

instance steady_addInteger (n : Int) : Steady (pooled (Pool.add (.integer n))) :=
  steady_add_of_allowed trivial

instance steady_addFloat (x : Number.Single) : Steady (pooled (Pool.add (.float x))) :=
  steady_add_of_allowed trivial

instance steady_addLong (n : Int) : Steady (pooled (Pool.add (.long n))) :=
  steady_add_of_allowed trivial

instance steady_addDouble (x : Number.Double) : Steady (pooled (Pool.add (.double x))) :=
  steady_add_of_allowed trivial

instance steady_addType (n : Nat) : Steady (pooled (Pool.add (.type n))) :=
  steady_add_of_allowed trivial

instance steady_addStringEntry (n : Nat) : Steady (pooled (Pool.add (.string n))) :=
  steady_add_of_allowed trivial

instance steady_addFieldref (a b : Nat) : Steady (pooled (Pool.add (.fieldref a b))) :=
  steady_add_of_allowed trivial

instance steady_addMethodref (a b : Nat) : Steady (pooled (Pool.add (.methodref a b))) :=
  steady_add_of_allowed trivial

instance steady_addInterfaceMethodref (a b : Nat) :
    Steady (pooled (Pool.add (.interfaceMethodref a b))) := steady_add_of_allowed trivial

instance steady_addNameAndTypeEntry (a b : Nat) : Steady (pooled (Pool.add (.nameAndType a b))) :=
  steady_add_of_allowed trivial

instance steady_addMethodHandle (kind : Int) (n : Nat) :
    Steady (pooled (Pool.add (.methodHandle kind n))) := steady_add_of_allowed trivial

instance steady_addMethodTypeEntry (n : Nat) : Steady (pooled (Pool.add (.methodType n))) :=
  steady_add_of_allowed trivial

instance steady_addInvokeDynamicEntry (a b : Nat) :
    Steady (pooled (Pool.add (.invokeDynamic a b))) := steady_add_of_allowed trivial

/-- Something else in the place of a text. -/
instance steady_addIrregularText (operands : List Constant) :
    Steady (pooled (Pool.add (.irregular 1 operands))) := steady_add_of_allowed (.inl rfl)

/-- Something else in the place of a long. -/
instance steady_addIrregularLong (operands : List Constant) :
    Steady (pooled (Pool.add (.irregular 5 operands))) := steady_add_of_allowed (.inr rfl)

/-! ## Constants -/

instance steady_addName (name : Option Text) : Steady (pooled (Pool.addName name)) := by
  unfold Pool.addName
  split <;> infer_instance

instance steady_addClass (name : Option Text) : Steady (pooled (Pool.addClass name)) := by
  unfold Pool.addClass
  infer_instance

instance steady_addString (t : Text) : Steady (pooled (Pool.addString t)) := by
  unfold Pool.addString
  infer_instance

instance steady_addMethodType (descriptor : Text) :
    Steady (pooled (Pool.addMethodType descriptor)) := by
  unfold Pool.addMethodType
  infer_instance

instance steady_addNameAndType (name : Text) (descriptor : Option Text) :
    Steady (pooled (Pool.addNameAndType name descriptor)) := by
  unfold Pool.addNameAndType
  infer_instance

instance steady_addField (owner : Option Text) (name descriptor : Text) :
    Steady (pooled (Pool.addField owner name descriptor)) := by
  unfold Pool.addField Pool.addMember
  infer_instance

instance steady_addMethod (interface : Bool) (owner : Option Text) (name descriptor : Text) :
    Steady (pooled (Pool.addMethod interface owner name descriptor)) := by
  unfold Pool.addMethod Pool.addMember
  cases interface <;> simp only [Bool.false_eq_true, if_true, if_false] <;> infer_instance

instance steady_addHandle (h : Handle) : Steady (pooled (Pool.addHandle h)) := by
  unfold Pool.addHandle
  split <;> infer_instance

instance steady_addInvokeDynamic (bootstrap : Nat) (name descriptor : Text) :
    Steady (pooled (Pool.addInvokeDynamic bootstrap name descriptor)) := by
  unfold Pool.addInvokeDynamic
  infer_instance

/-! ## Where they are -/

@[simp] theorem fixed_addUtf8_iff {t : Text} :
    Fixed P (pooled (Pool.addUtf8 t)) i ↔ P.index[Pool.Entry.utf8 t]? = some i := fixed_add_iff

@[simp] theorem fixed_addClass_iff {name : Option Text} :
    Fixed P (pooled (Pool.addClass name)) i ↔
      ∃ n, Fixed P (pooled (Pool.addName name)) n ∧ P.index[Pool.Entry.type n]? = some i := by
  unfold Pool.addClass
  simp only [fixed_pooled_bind_iff, fixed_add_iff]
  rfl

@[simp] theorem fixed_addString_iff {t : Text} :
    Fixed P (pooled (Pool.addString t)) i ↔
      ∃ n, P.index[Pool.Entry.utf8 t]? = some n ∧ P.index[Pool.Entry.string n]? = some i := by
  unfold Pool.addString
  simp only [fixed_pooled_bind_iff, fixed_addUtf8_iff, fixed_add_iff]
  rfl

/-- A method type is found with its descriptor. -/
@[simp] theorem fixed_addMethodType_iff {descriptor : Text} :
    Fixed P (pooled (Pool.addMethodType descriptor)) i ↔
      ∃ n, P.index[Pool.Entry.utf8 descriptor]? = some n ∧
        P.index[Pool.Entry.methodType n]? = some i := by
  unfold Pool.addMethodType
  simp only [fixed_pooled_bind_iff, fixed_addUtf8_iff, fixed_add_iff]
  rfl

/-- A name with a descriptor is found with both. -/
@[simp] theorem fixed_addNameAndType_iff {name : Text} {descriptor : Option Text} :
    Fixed P (pooled (Pool.addNameAndType name descriptor)) i ↔
      ∃ n, P.index[Pool.Entry.utf8 name]? = some n ∧
        ∃ d, Fixed P (pooled (Pool.addName descriptor)) d ∧
          P.index[Pool.Entry.nameAndType n d]? = some i := by
  unfold Pool.addNameAndType
  simp only [fixed_pooled_bind_iff, fixed_addUtf8_iff, fixed_add_iff]
  rfl

/-- A field is found with its class and its name. -/
theorem fixed_addField_iff {owner : Option Text} {name descriptor : Text} :
    Fixed P (pooled (Pool.addField owner name descriptor)) i ↔
      ∃ o, Fixed P (pooled (Pool.addClass owner)) o ∧
        ∃ m, Fixed P (pooled (Pool.addNameAndType name (some descriptor))) m ∧
          P.index[Pool.Entry.fieldref o m]? = some i := by
  unfold Pool.addField Pool.addMember
  simp only [fixed_pooled_bind_iff, fixed_add_iff]
  rfl

/-- A method is found with its class and its name. -/
theorem fixed_addMethod_iff {interface : Bool} {owner : Option Text} {name descriptor : Text} :
    Fixed P (pooled (Pool.addMethod interface owner name descriptor)) i ↔
      ∃ o, Fixed P (pooled (Pool.addClass owner)) o ∧
        ∃ m, Fixed P (pooled (Pool.addNameAndType name (some descriptor))) m ∧
          P.index[if interface then Pool.Entry.interfaceMethodref o m
            else Pool.Entry.methodref o m]? = some i := by
  unfold Pool.addMethod Pool.addMember
  cases interface <;>
    simp only [Bool.false_eq_true, if_true, if_false, fixed_pooled_bind_iff, fixed_add_iff] <;> rfl

/-- A call site is found with its name. -/
theorem fixed_addInvokeDynamic_iff {bootstrap : Nat} {name descriptor : Text} :
    Fixed P (pooled (Pool.addInvokeDynamic bootstrap name descriptor)) i ↔
      ∃ m, Fixed P (pooled (Pool.addNameAndType name (some descriptor))) m ∧
        P.index[Pool.Entry.invokeDynamic bootstrap m]? = some i := by
  unfold Pool.addInvokeDynamic
  simp only [fixed_pooled_bind_iff, fixed_add_iff]
  rfl

end ClassTree.Encoder
