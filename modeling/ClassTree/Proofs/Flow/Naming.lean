/-
# ClassTree.Proofs.Flow.Naming — the names in recorded types

The analysis takes the name of an array type apart when an element is loaded, and the descriptor of
a field or of a call when its value is pushed. A name or a descriptor that is not well formed fails
there. Where the method, its class and its instructions are named properly to begin with, all types
that the analysis ever records are: taking well-formed names apart gives well-formed ones.
-/
import ClassTree.Proofs.Class.Sound
import ClassTree.Proofs.Flow.Frames
import ClassTree.Proofs.Flow.Moment

namespace ClassTree

/-! ## Names and descriptors -/

namespace Descriptor

/-- The name of a class has none of the characters that separate types. -/
def IsClassName (name : Text) : Prop := bracket ∉ name ∧ semicolon ∉ name

instance (name : Text) : Decidable (IsClassName name) := inferInstanceAs (Decidable (_ ∧ _))

/-- The descriptor of a value; the classes in it have names of classes. -/
inductive IsValue : Text → Prop
  | letter {c : CodePoint} (h : c ∈ letters) : IsValue [c]
  | reference {name : Text} (h : IsClassName name) : IsValue (0x4C :: (name ++ [semicolon]))
  | array {type : Text} (h : IsValue type) : IsValue (bracket :: type)

/-- The name of a class or the descriptor of an array. -/
def IsReferenceName (name : Text) : Prop :=
  IsClassName name ∨ ∃ type, IsValue type ∧ name = bracket :: type

/-- The descriptor of a method, with classes that have names of classes. -/
def IsSignature (t : Text) : Prop :=
  ∃ (types : List Text) (result : Text), (∀ type ∈ types, IsValue type) ∧
    (IsValue result ∨ result = "V") ∧ t = 0x28 :: (types.flatten ++ close :: result)

theorem IsValue.isType {type : Text} (h : IsValue type) : IsType type := by
  induction h with
  | letter h => exact .letter h
  | reference h => exact .reference h.2
  | array _ ih => exact .array ih

/-- A descriptor with proper names is split into descriptors with proper names. -/
theorem IsSignature.exists_split {t : Text} (h : IsSignature t) :
    ∃ types result, split t = .ok (types, result) ∧ (∀ type ∈ types, IsValue type) ∧
      (IsValue result ∨ result = "V") := by
  obtain ⟨types, result, htypes, hresult, rfl⟩ := h
  have hmethod : IsMethodWith types result (0x28 :: (types.flatten ++ close :: result)) :=
    ⟨fun type hmem => (htypes type hmem).isType, hresult.imp_left IsValue.isType, rfl⟩
  exact ⟨types, result, hmethod.split_eq, htypes, hresult⟩

/-- The name in the descriptor of an instance of a class or of an array. -/
theorem IsReferenceName.isValue {name : Text} (h : IsReferenceName name) :
    IsValue (Flow.elementDescriptor name) := by
  unfold Flow.elementDescriptor
  rcases h with hname | ⟨type, htype, rfl⟩
  · have hhead : name.head? ≠ some bracket := by
      intro heq
      exact hname.1 (List.mem_of_head? heq)
    rw [if_neg hhead]
    exact .reference hname
  · exact .array htype

theorem IsReferenceName.of_bracket {rest : Text} (h : IsReferenceName (bracket :: rest)) :
    IsValue rest := by
  rcases h with hname | ⟨type, htype, heq⟩
  · exact absurd List.mem_cons_self hname.1
  · cases heq
    exact htype

end Descriptor

namespace Flow

open Descriptor (IsClassName IsValue IsReferenceName IsSignature)
open Result (bind_eq_error_iff bind_eq_ok_iff)

/-- The value of a descriptor with proper names. -/
theorem exists_typeOf_isValue {descriptor : Text} (h : IsValue descriptor) :
    ∃ v, typeOf descriptor = .ok (some v) ∧ ∀ name, v = .object name →
      ∃ n, name = some n ∧ IsReferenceName n := by
  cases h with
  | @letter c hc =>
    simp only [Descriptor.letters, List.mem_cons, List.not_mem_nil, or_false] at hc
    rcases hc with rfl | rfl | rfl | rfl | rfl | rfl | rfl | rfl <;>
      exact ⟨_, rfl, by rintro _ ⟨⟩⟩
  | @reference name hname =>
    refine ⟨instanceOf (name ++ [Descriptor.semicolon]).dropLast, rfl, ?_⟩
    rintro _ ⟨⟩
    rw [List.dropLast_concat]
    exact ⟨name, rfl, .inl hname⟩
  | @array type htype =>
    refine ⟨instanceOf (Descriptor.bracket :: type), rfl, ?_⟩
    rintro _ ⟨⟩
    exact ⟨_, rfl, .inr ⟨type, htype, rfl⟩⟩

/-! ## Types -/

/-- A type of the analysis of a program whose names are all well formed: an uninitialized object
names the `new` instruction of a named class. -/
def Program.Names (p : Program) : VerificationType → Prop
  | .object name => ∃ n, name = some n ∧ IsReferenceName n
  | .uninitialized (.position index) => ∃ n, p.createdAt index = some n ∧ IsReferenceName n
  | .uninitialized (.label _) | .irregular _ _ => False
  | _ => True

variable {p : Program}

theorem names_instanceOf {name : Text} (h : IsReferenceName name) : p.Names (instanceOf name) :=
  ⟨name, rfl, h⟩

/-- The value of a descriptor is named as the descriptor is. -/
theorem names_of_typeOf {descriptor : Text} (hd : IsValue descriptor) {v : VerificationType}
    (h : typeOf descriptor = .ok (some v)) : p.Names v := by
  obtain ⟨w, hw, hobject⟩ := exists_typeOf_isValue hd
  cases hw.symm.trans h
  have hinitial := isInitial_of_typeOf h
  cases v with
  | object name => exact hobject name rfl
  | irregular _ _ | uninitialized _ => cases hinitial
  | top | integer | float | double | long | null | uninitializedThis => trivial

/-- The array types that numbers stand for have names. -/
theorem isReferenceName_arrayType (code : Int) : IsReferenceName (arrayType code) := by
  have hletter {c : CodePoint} (hc : c ∈ Descriptor.letters) :
      IsReferenceName [Descriptor.bracket, c] :=
    .inr ⟨[c], .letter hc, rfl⟩
  unfold arrayType
  cases h : arrayTypes.lookup code with
  | none => exact hletter (c := 0x49) (by decide)
  | some name =>
    -- every number of the table gives a letter behind a bracket
    obtain ⟨before, after, hlist, -⟩ := List.lookup_eq_some_iff.1 h
    have hmem : (code, name) ∈ arrayTypes := by
      rw [hlist]
      exact List.mem_append_right before List.mem_cons_self
    simp only [arrayTypes, List.mem_cons, Prod.mk.injEq, List.not_mem_nil, or_false] at hmem
    rcases hmem with ⟨-, rfl⟩ | ⟨-, rfl⟩ | ⟨-, rfl⟩ | ⟨-, rfl⟩ | ⟨-, rfl⟩ | ⟨-, rfl⟩ | ⟨-, rfl⟩ |
      ⟨-, rfl⟩ <;> exact hletter (by decide)

theorem names_constantType (op : Opcode) (value : Constant) : p.Names (constantType op value) := by
  unfold constantType
  split
  · split <;> trivial
  · split
    all_goals first | trivial | exact names_instanceOf (.inl (by decide))

/-! ## Instructions -/

/-- What an instruction names is well formed, and the number of a local is one. -/
def IsNamed : Instruction Label → Prop
  | .field _ _ _ descriptor => IsValue descriptor
  | .method _ _ _ descriptor _ | .callSite _ descriptor _ _ => IsSignature descriptor
  | .type _ name | .multiArray name _ => ∃ n, name = some n ∧ IsReferenceName n
  | .variable _ slot | .increment slot _ => 0 ≤ slot
  | _ => True

/-- A called method has a descriptor with proper names. -/
theorem IsNamed.callee {i : Instruction Label} (h : IsNamed i) {signature : Text}
    (hi : callee? i = some signature) : IsSignature signature := by
  cases i with
  | method _ _ _ _ _ | callSite _ _ _ _ =>
    cases hi
    exact h
  | _ => cases hi

/-- The value that an instruction pushes has a descriptor with proper names. -/
theorem IsNamed.describes {i : Instruction Label} (h : IsNamed i) {descriptor : Text}
    (hd : Describes i descriptor) : IsValue descriptor ∨ descriptor = "V" := by
  cases hd with
  | field hi =>
    subst hi
    exact .inl h
  | @result signature arguments _ hi hsplit =>
    obtain ⟨types, result, hsplit', -, hresult⟩ := (h.callee hi).exists_split
    cases hsplit.symm.trans hsplit'
    exact hresult

/-- What an instruction pushes whatever the state is has a name. -/
theorem IsNamed.names_pushes {i : Instruction Label} (h : IsNamed i) {v : VerificationType}
    (hv : Pushes i v) : p.Names v := by
  cases hv with
  | basic hmem =>
    simp only [List.mem_cons, List.not_mem_nil, or_false] at hmem
    rcases hmem with rfl | rfl | rfl | rfl | rfl | rfl <;> trivial
  | constant _ => exact names_constantType _ _
  | numbers _ => exact names_instanceOf (isReferenceName_arrayType _)
  | array hi =>
    subst hi
    obtain ⟨n, hn, hname⟩ := h
    cases hn
    exact names_instanceOf (.inr ⟨_, hname.isValue, rfl⟩)
  | cast hi | arrays hi =>
    subst hi
    exact h

/-- Every instruction that is named properly passes on that types are. -/
theorem allows_names {index position : Nat} {i : Instruction Label}
    (hi : p.instructions[index]? = some (position, i)) (h : IsNamed i)
    (howner : IsReferenceName p.owner) : Allows p index i p.Names where
  root := names_instanceOf (.inl (by decide))
  pushes := fun _ hv => h.names_pushes hv
  described := by
    intro descriptor v hd hv
    rcases h.describes hd with hvalue | rfl
    · exact names_of_typeOf hvalue hv
    · cases hv
  created := by
    rintro name rfl
    obtain ⟨n, rfl, hname⟩ := h
    refine ⟨n, ?_, hname⟩
    unfold Program.createdAt
    rw [hi]
  element := by
    rintro rest v ⟨_, ⟨⟩, hname⟩ hv
    exact names_of_typeOf hname.of_bracket hv
  owner := names_instanceOf howner
  constructed := fun _ hk => hk

/-! ## Methods -/

/-- Arguments whose descriptors have proper names have slots with proper names. -/
theorem exists_argumentSlots {types : List Text} (h : ∀ type ∈ types, IsValue type) :
    ∃ slots, Program.argumentSlots types = .ok slots ∧ ∀ v ∈ slots, p.Names v := by
  -- an argument without a type would be the only failure
  cases hslots : Program.argumentSlots types with
  | error e =>
    rcases bind_eq_error_iff.1 hslots with hslots | ⟨parts, -, hslots⟩
    · obtain ⟨type, hmem, hfail⟩ := Result.exists_of_mapM_eq_error hslots
      obtain ⟨v, hv, -⟩ := exists_typeOf_isValue (h type hmem)
      rw [hv] at hfail
      cases hfail
    · cases hslots
  | ok slots =>
    refine ⟨slots, rfl, ?_⟩
    obtain ⟨parts, hparts, heq⟩ := bind_eq_ok_iff.1 hslots
    cases heq
    intro v hv
    obtain ⟨part, hpart, hv⟩ := List.mem_flatten.1 hv
    obtain ⟨type, htype, hslot⟩ :=
      Result.exists_of_mem_right (Result.mapM_eq_ok_iff.1 hparts) hpart
    obtain ⟨w, hw, -⟩ := exists_typeOf_isValue (h type htype)
    rw [hw] at hslot
    cases hslot
    rcases eq_or_eq_top_of_mem_slotsOf hv with rfl | rfl
    · exact names_of_typeOf (h type htype) hw
    · trivial

/-- What a method of a class names is well formed. -/
structure NamesWell (owner : Text) (m : Method) : Prop where
  owner : IsReferenceName owner
  descriptor : IsSignature m.descriptor
  body : ∀ i, .instruction i ∈ m.body → IsNamed i
  caught : ∀ h ∈ m.handlers, ∀ name ∈ h.type, IsReferenceName name

namespace NamesWell

variable {owner : Text} {m : Method} (h : NamesWell owner m) (hp : Program.ofMethod owner m = .ok p)
include h hp

/-- A method with proper names has locals to begin with, and they have proper names. -/
theorem exists_entryLocals :
    ∃ locals, p.entryLocals = .ok locals ∧ ∀ v ∈ locals, p.Names v := by
  obtain ⟨-, howner, hmethod, -⟩ := Program.ofMethod_eq_ok hp
  obtain ⟨types, result, hsplit, htypes, -⟩ := h.descriptor.exists_split
  have harguments : Descriptor.arguments p.method.descriptor = .ok types := by
    rw [hmethod, Descriptor.arguments, hsplit]
    rfl
  have hreceiver : ∀ v ∈ p.receiverSlots, p.Names v := by
    intro v hv
    unfold Program.receiverSlots at hv
    split at hv
    · cases hv
    split at hv
    · obtain rfl := List.mem_singleton.1 hv
      trivial
    · obtain rfl := List.mem_singleton.1 hv
      rw [howner]
      exact names_instanceOf h.owner
  obtain ⟨slots, hslots, hnames⟩ := exists_argumentSlots htypes
  refine ⟨p.receiverSlots ++ slots, ?_, ?_⟩
  · unfold Program.entryLocals
    rw [harguments, Result.ok_bind, hslots]
    rfl
  · intro v hv
    rcases List.mem_append.1 hv with hv | hv
    · exact hreceiver v hv
    · exact hnames v hv

theorem names_caught {r : Region} (hr : r ∈ p.regions) : p.Names r.caught := by
  obtain ⟨handler, hhandler, hregion⟩ :=
    Result.exists_of_mem_right (Program.ofMethod_eq_ok hp).2.2.2.2 hr
  obtain ⟨start, -, hregion⟩ := bind_eq_ok_iff.1 hregion
  obtain ⟨stop, -, hregion⟩ := bind_eq_ok_iff.1 hregion
  obtain ⟨target, -, hregion⟩ := bind_eq_ok_iff.1 hregion
  cases hregion
  refine names_instanceOf ?_
  cases htype : handler.type with
  | none => exact .inl (by decide)
  | some name =>
    dsimp only [Option.getD]
    split
    · exact .inl (by decide)
    · exact h.caught handler hhandler name htype

/-- The names in all types that the analysis records are well formed. -/
theorem annotates :
    Annotates p (fun _ s => s.Each p.Names) (fun _ s => s.Each p.Names) where
  entry := by
    intro locals hlocals
    obtain ⟨found, hfound, hnames⟩ := h.exists_entryLocals hp
    cases hfound.symm.trans hlocals
    exact ⟨hnames, List.forall_mem_nil _⟩
  merge := fun hknown hincoming hmerge =>
    hknown.merge (names_instanceOf (.inl (by decide))) trivial hincoming hmerge
  handler := by
    intro r index here hr _ _ hhere
    refine ⟨hhere.locals, ?_⟩
    intro v hv
    obtain rfl := List.mem_singleton.1 hv
    exact h.names_caught hp hr
  effect := by
    intro index position i here out hi _ hhere hout
    have hnamed := h.body i (mem_body_of_ofMethod hp hi)
    have howner : IsReferenceName p.owner := (Program.ofMethod_eq_ok hp).2.1 ▸ h.owner
    exact (composed_effect i).each (allows_names hi hnamed howner) hhere hout
  edge := fun _ _ _ hout => hout

end NamesWell

end Flow

end ClassTree
