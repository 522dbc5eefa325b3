/-
# ClassTree.Proofs.Pool.Request — what any row of additions does to a pool

A constant pool answers requests: each asks for an entry, or for a bootstrap method, and gets an
index. Whatever is asked for, and in whatever order, nothing in the pool moves, every index leads to
what was asked for, equal requests get equal indices and others do not, and in the end the pool is
read back from its bytes.
-/
import ClassTree.Proofs.Encoding.Steady
import ClassTree.Proofs.Pool.Sound

namespace ClassTree.Pool

open Decoding (Reads Table)
open Encoder (Fixed Growing Steady pooled)

/-! ## Requests -/

/-- Something that is asked of a constant pool. -/
inductive Request where
  | utf8 (t : Text)
  | integer (n : Int)
  | float (x : Number.Double)
  | long (n : Int)
  | double (x : Number.Double)
  | type (name : Text)
  | string (t : Text)
  | methodType (descriptor : Text)
  | nameAndType (name descriptor : Text)
  | field (owner name descriptor : Text)
  | method (owner name descriptor : Text)
  | interfaceMethod (owner name descriptor : Text)
  | handle (kind : Int) (owner name descriptor : Text) (interface : Bool)
  | bootstrap (target : Nat) (arguments : List Nat)
  | invokeDynamic (site : Nat) (name descriptor : Text)

/-- The entry for the member that a handle of a kind names. -/
def handleEntry (kind : Int) (interface : Bool) : Nat → Nat → Entry :=
  if kind ≤ lastFieldKind then .fieldref
  else if interface then .interfaceMethodref
  else .methodref

namespace Request

/-- Asks for something: gives the index, and the pool after it. -/
def run : Request → Encoder Nat
  | .utf8 t => pooled (addUtf8 t)
  | .integer n => Encoding.addInteger (.int n)
  | .float x => Encoding.addFloat (.float x)
  | .long n => Encoding.addLong (.int n)
  | .double x => Encoding.addDouble (.float x)
  | .type name => pooled (addClass (some name))
  | .string t => pooled (addString t)
  | .methodType descriptor => pooled (addMethodType descriptor)
  | .nameAndType name descriptor => pooled (addNameAndType name (some descriptor))
  | .field owner name descriptor => pooled (addField (some owner) name descriptor)
  | .method owner name descriptor => pooled (addMethod false (some owner) name descriptor)
  | .interfaceMethod owner name descriptor => pooled (addMethod true (some owner) name descriptor)
  | .handle kind owner name descriptor interface =>
    pooled (addHandle ⟨kind, some owner, name, descriptor, interface⟩)
  | .bootstrap target arguments => pooled (addBootstrap target arguments)
  | .invokeDynamic site name descriptor => pooled (addInvokeDynamic site name descriptor)

/-- The numbers of a request fit their fields, and no text holds a surrogate pair in two pieces. -/
def InRange : Request → Prop
  | .utf8 t => t.IsWhole
  | .type name => name.IsWhole
  | .string t => t.IsWhole
  | .methodType descriptor => descriptor.IsWhole
  | .integer n => IsInt n
  | .float x => x.toSingle?.isSome = true
  | .long n => IsLong n
  | .double _ | .bootstrap _ _ => True
  | .nameAndType name descriptor => name.IsWhole ∧ descriptor.IsWhole
  | .field owner name descriptor | .method owner name descriptor
  | .interfaceMethod owner name descriptor =>
    owner.IsWhole ∧ name.IsWhole ∧ descriptor.IsWhole
  | .handle kind owner name descriptor _ =>
    (0 ≤ kind ∧ kind < 0x100) ∧ owner.IsWhole ∧ name.IsWhole ∧ descriptor.IsWhole
  | .invokeDynamic site name descriptor =>
    site < 0x10000 ∧ name.IsWhole ∧ descriptor.IsWhole

/-- The tag of the entry that a request asks for. A bootstrap method is no entry. -/
def tag? : Request → Option Tag
  | .utf8 _ => some .utf8
  | .integer _ => some .integer
  | .float _ => some .float
  | .long _ => some .long
  | .double _ => some .double
  | .type _ => some .type
  | .string _ => some .string
  | .methodType _ => some .methodType
  | .nameAndType _ _ => some .nameAndType
  | .field _ _ _ => some .fieldref
  | .method _ _ _ => some .methodref
  | .interfaceMethod _ _ _ => some .interfaceMethodref
  | .handle _ _ _ _ _ => some .methodHandle
  | .bootstrap _ _ => none
  | .invokeDynamic _ _ _ => some .invokeDynamic

/-- Two requests ask for the same. A single precision number counts by the bits that are stored; and
whether the owner is an interface does not matter to a handle on a field. -/
def Same : Request → Request → Prop
  | .float x, .float y => x.toSingle? = y.toSingle?
  | .handle kind owner name descriptor interface,
    .handle kind' owner' name' descriptor' interface' =>
    (kind = kind' ∧ owner = owner' ∧ name = name' ∧ descriptor = descriptor') ∧
      (interface = interface' ∨ kind ≤ lastFieldKind)
  | r, r' => r = r'

end Request

/-! ## Answers -/

/-- A text stands at an index. -/
def HoldsText (p : Pool) (i : Nat) (t : Text) : Prop := p.entries[i]? = some (some (.utf8 t))

/-- An entry made of the index of a text stands at an index. -/
def HoldsNamed (p : Pool) (make : Nat → Entry) (i : Nat) (t : Text) : Prop :=
  ∃ n, p.entries[i]? = some (some (make n)) ∧ p.HoldsText n t

/-- A name with a descriptor stands at an index. -/
def HoldsNameAndType (p : Pool) (i : Nat) (name descriptor : Text) : Prop :=
  ∃ n d, p.entries[i]? = some (some (.nameAndType n d)) ∧ p.HoldsText n name ∧
    p.HoldsText d descriptor

/-- A member of a class stands at an index. -/
def HoldsMember (p : Pool) (make : Nat → Nat → Entry) (i : Nat) (owner name descriptor : Text) :
    Prop :=
  ∃ o m, p.entries[i]? = some (some (make o m)) ∧ p.HoldsNamed .type o owner ∧
    p.HoldsNameAndType m name descriptor

/-- What a request has asked for stands at an index, and all that it refers to stands where it
says. -/
def Holds (p : Pool) (i : Nat) : Request → Prop
  | .utf8 t => p.HoldsText i t
  | .integer n => p.entries[i]? = some (some (.integer n))
  | .float x => ∃ y, x.toSingle? = some y ∧ p.entries[i]? = some (some (.float y))
  | .long n => p.entries[i]? = some (some (.long n))
  | .double x => p.entries[i]? = some (some (.double x))
  | .type name => p.HoldsNamed .type i name
  | .string t => p.HoldsNamed .string i t
  | .methodType descriptor => p.HoldsNamed .methodType i descriptor
  | .nameAndType name descriptor => p.HoldsNameAndType i name descriptor
  | .field owner name descriptor => p.HoldsMember .fieldref i owner name descriptor
  | .method owner name descriptor => p.HoldsMember .methodref i owner name descriptor
  | .interfaceMethod owner name descriptor =>
    p.HoldsMember .interfaceMethodref i owner name descriptor
  | .handle kind owner name descriptor interface =>
    ∃ target, p.entries[i]? = some (some (.methodHandle kind target)) ∧
      p.HoldsMember (handleEntry kind interface) target owner name descriptor
  | .bootstrap target arguments => p.bootstrap[i]? = some ⟨target, arguments⟩
  | .invokeDynamic site name descriptor =>
    ∃ m, p.entries[i]? = some (some (.invokeDynamic site m)) ∧
      p.HoldsNameAndType m name descriptor

/-! ## Equal indices -/

namespace HoldsText

theorem unique {p : Pool} {i : Nat} {s t : Text} (hs : p.HoldsText i s) (ht : p.HoldsText i t) :
    s = t := by
  rw [HoldsText, hs] at ht
  cases ht
  rfl

end HoldsText

theorem HoldsNamed.unique {p : Pool} {make : Nat → Entry} (hmake : Function.Injective make)
    {i : Nat} {s t : Text} (hs : p.HoldsNamed make i s) (ht : p.HoldsNamed make i t) : s = t := by
  obtain ⟨n, hn, hs⟩ := hs
  obtain ⟨n', hn', ht⟩ := ht
  obtain rfl : n = n' := hmake (by simpa [hn] using hn')
  exact hs.unique ht

/-- One name with one descriptor is referred to from an index. -/
theorem HoldsNameAndType.unique {p : Pool} {i : Nat} {name name' descriptor descriptor' : Text}
    (h : p.HoldsNameAndType i name descriptor) (h' : p.HoldsNameAndType i name' descriptor') :
    name = name' ∧ descriptor = descriptor' := by
  obtain ⟨n, d, hi, hn, hd⟩ := h
  obtain ⟨n', d', hi', hn', hd'⟩ := h'
  obtain ⟨rfl, rfl⟩ : n = n' ∧ d = d' := by simpa [hi] using hi'
  exact ⟨hn.unique hn', hd.unique hd'⟩

/-- One member is referred to from an index, even if it may be so by entries of two sorts. -/
theorem HoldsMember.unique {p : Pool} {make make' : Nat → Nat → Entry}
    (hmake : ∀ {a b a' b'}, make a b = make' a' b' → a = a' ∧ b = b') {i : Nat}
    {owner owner' name name' descriptor descriptor' : Text}
    (h : p.HoldsMember make i owner name descriptor)
    (h' : p.HoldsMember make' i owner' name' descriptor') :
    (owner = owner' ∧ name = name' ∧ descriptor = descriptor') ∧ ∃ o m, make o m = make' o m := by
  obtain ⟨o, m, hi, ho, hm⟩ := h
  obtain ⟨o', m', hi', ho', hm'⟩ := h'
  have heq : make o m = make' o' m' := by simpa [hi] using hi'
  obtain ⟨rfl, rfl⟩ := hmake heq
  exact ⟨⟨ho.unique (fun _ _ => Entry.type.inj) ho', hm.unique hm'⟩, o, m, heq⟩

/-- The entry for the member of a handle says all of it, except that the entry for a field does not
tell whether the owner is an interface. -/
theorem handleEntry_inj {kind : Int} {interface interface' : Bool} {a b a' b' : Nat}
    (h : handleEntry kind interface a b = handleEntry kind interface' a' b') :
    (a = a' ∧ b = b') ∧ (interface = interface' ∨ kind ≤ lastFieldKind) := by
  unfold handleEntry at h
  split at h
  · next hkind => exact ⟨Entry.fieldref.inj h, .inr hkind⟩
  · cases interface <;> cases interface' <;> cases h <;> exact ⟨⟨rfl, rfl⟩, .inl rfl⟩

/-- At one index stands what equal requests have asked for. -/
theorem Request.Same.of_holds {p : Pool} {i : Nat} {r r' : Request} (htag : r.tag? = r'.tag?)
    (h : p.Holds i r) (h' : p.Holds i r') : r.Same r' := by
  -- requests with different tags are out of the question
  cases r <;> cases r' <;> try (simp [tag?] at htag; done)
  case utf8.utf8 => exact congrArg Request.utf8 (HoldsText.unique h h')
  case integer.integer =>
    simp only [Holds] at h h'
    simpa [Same, h] using h'
  case float.float =>
    obtain ⟨y, hy, hi⟩ := h
    obtain ⟨y', hy', hi'⟩ := h'
    obtain rfl : y = y' := by simpa [hi] using hi'
    exact hy.trans hy'.symm
  case long.long =>
    simp only [Holds] at h h'
    simpa [Same, h] using h'
  case double.double =>
    simp only [Holds] at h h'
    simpa [Same, h] using h'
  case type.type => exact congrArg Request.type (HoldsNamed.unique (fun _ _ => Entry.type.inj) h h')
  case string.string =>
    exact congrArg Request.string (HoldsNamed.unique (fun _ _ => Entry.string.inj) h h')
  case methodType.methodType =>
    exact congrArg Request.methodType (HoldsNamed.unique (fun _ _ => Entry.methodType.inj) h h')
  case nameAndType.nameAndType =>
    obtain ⟨rfl, rfl⟩ := HoldsNameAndType.unique h h'
    rfl
  case field.field =>
    obtain ⟨⟨rfl, rfl, rfl⟩, -⟩ := HoldsMember.unique Entry.fieldref.inj h h'
    rfl
  case method.method =>
    obtain ⟨⟨rfl, rfl, rfl⟩, -⟩ := HoldsMember.unique Entry.methodref.inj h h'
    rfl
  case interfaceMethod.interfaceMethod =>
    obtain ⟨⟨rfl, rfl, rfl⟩, -⟩ := HoldsMember.unique Entry.interfaceMethodref.inj h h'
    rfl
  case handle.handle kind _ _ _ interface kind' _ _ _ interface' =>
    obtain ⟨target, hi, hmember⟩ := h
    obtain ⟨target', hi', hmember'⟩ := h'
    obtain ⟨rfl, rfl⟩ : kind = kind' ∧ target = target' := by simpa [hi] using hi'
    obtain ⟨hsame, o, m, heq⟩ := hmember.unique (fun h => (handleEntry_inj h).1) hmember'
    exact ⟨⟨rfl, hsame⟩, (handleEntry_inj heq).2⟩
  case bootstrap.bootstrap =>
    simp only [Holds] at h h'
    simpa [Same, h] using h'
  case invokeDynamic.invokeDynamic site _ _ site' _ _ =>
    obtain ⟨m, hi, hmember⟩ := h
    obtain ⟨m', hi', hmember'⟩ := h'
    obtain ⟨rfl, rfl⟩ : site = site' ∧ m = m' := by simpa [hi] using hi'
    obtain ⟨rfl, rfl⟩ := hmember.unique hmember'
    rfl

/-! ## One request -/

namespace Request

instance steady_run (r : Request) : Steady r.run := by
  cases r <;> unfold run <;> infer_instance

end Request

/-- From a sound pool, an addition leads to a sound pool that is no smaller and has the index. -/
structure Adds (p : Pool) (m : StateM Pool Nat) : Prop where
  isSound : (m p).2.IsSound
  size_le : p.size ≤ (m p).2.size
  lt_size : (m p).1 < (m p).2.size

namespace Adds

variable {p : Pool} {m : StateM Pool Nat}

theorem bind (h : p.Adds m) {f : Nat → StateM Pool Nat}
    (hf : ∀ i (q : Pool), q.IsSound → p.size ≤ q.size → i < q.size → q.Adds (f i)) :
    p.Adds (m >>= f) := by
  have hrest := hf _ _ h.isSound h.size_le h.lt_size
  exact ⟨hrest.isSound, h.size_le.trans hrest.size_le, hrest.lt_size⟩

theorem add (hp : p.IsSound) {e : Entry} (he : e.IsRead) (hrange : p.size ≤ 0x10000 → e.InRange) :
    p.Adds (add e) := by
  have hle := (begins_insert p e).entries.length_le
  rw [Array.length_toList, Array.length_toList] at hle
  have hsound := hp.insert he hrange
  refine ⟨hsound, hle, ?_⟩
  have hat := hsound.getElem?_of_index (index_insert_self p e)
  exact (Array.getElem?_eq_some_iff.1 hat).1

theorem addUtf8 (hp : p.IsSound) {t : Text} (ht : t.IsWhole) : p.Adds (addUtf8 t) :=
  add hp ht fun _ => trivial

/-- Adding an entry made of the index of a text. -/
theorem addNamed (make : Nat → Entry) (hp : p.IsSound) {t : Text} (ht : t.IsWhole)
    (hread : ∀ n, (make n).IsRead) (hrange : ∀ n, n < 0x10000 → (make n).InRange) :
    p.Adds (do Pool.add (make (← Pool.addUtf8 t))) :=
  (addUtf8 hp ht).bind fun i _ hq _ hi => add hq (hread i) fun hsize => hrange i (by omega)

theorem addType (hp : p.IsSound) {name : Text} (hname : name.IsWhole) :
    p.Adds (addClass (some name)) :=
  addNamed .type hp hname (fun _ => trivial) fun _ hn => hn

theorem addNameAndType (hp : p.IsSound) {name descriptor : Text} (hname : name.IsWhole)
    (hdescriptor : descriptor.IsWhole) : p.Adds (addNameAndType name (some descriptor)) := by
  refine (addUtf8 hp hname).bind fun n q hq _ hn => ?_
  refine (addUtf8 hq hdescriptor).bind fun d r hr hle hd => ?_
  exact add hr trivial fun hsize => ⟨by omega, by omega⟩

theorem addMember (make : Nat → Nat → Entry) (hp : p.IsSound) {owner name descriptor : Text}
    (ht : owner.IsWhole ∧ name.IsWhole ∧ descriptor.IsWhole) (hread : ∀ a b, (make a b).IsRead)
    (hrange : ∀ a b, a < 0x10000 ∧ b < 0x10000 → (make a b).InRange) :
    p.Adds (addMember make (some owner) name descriptor) := by
  refine (addType hp ht.1).bind fun o q hq _ ho => ?_
  refine (addNameAndType hq ht.2.1 ht.2.2).bind fun m r hr hle hm => ?_
  exact add hr (hread o m) fun hsize => hrange o m ⟨by omega, by omega⟩

end Adds

/-- The entry for the member of a handle is as it is read. -/
theorem isRead_handleEntry (kind : Int) (interface : Bool) (a b : Nat) :
    (handleEntry kind interface a b).IsRead := by
  unfold handleEntry
  split
  · trivial
  · cases interface <;> trivial

/-- The entry for the member of a handle is in range if its indices are. -/
theorem inRange_handleEntry (kind : Int) (interface : Bool) (a b : Nat)
    (h : a < 0x10000 ∧ b < 0x10000) : (handleEntry kind interface a b).InRange := by
  unfold handleEntry
  split
  · exact h
  · cases interface <;> exact h

theorem addHandle_eq (kind : Int) (owner : Option Text) (name descriptor : Text)
    (interface : Bool) :
    addHandle ⟨kind, owner, name, descriptor, interface⟩ =
      addMember (handleEntry kind interface) owner name descriptor >>= fun target =>
        add (.methodHandle kind target) := by
  unfold addHandle handleEntry addField addMethod
  split <;> rfl

/-- A number in single precision is added as its bits. -/
theorem addFloat_eq {x : Number.Double} {y : Number.Single} (h : x.toSingle? = some y) :
    Encoding.addFloat (.float x) = pooled (add (.float y)) := by
  have hy : Encoding.singleOf (.float x) = .ok y := by
    have hdouble : Encoding.doubleOf (.float x) = .ok x := rfl
    simp only [Encoding.singleOf, hdouble, Result.ok_bind, h]
    rfl
  unfold Encoding.addFloat
  rw [hy, Encoder.lift_ok_bind]

/-- A request in range is answered, and the pool stays sound. -/
theorem Request.exists_run {p : Pool} (hp : p.IsSound) {r : Request} (hr : r.InRange) :
    ∃ i q, r.run p = .ok (i, q) ∧ q.IsSound := by
  have hpooled {m : StateM Pool Nat} (h : p.Adds m) :
      ∃ i q, pooled m p = .ok (i, q) ∧ q.IsSound := ⟨_, _, rfl, h.isSound⟩
  cases r with
  | utf8 t => exact hpooled (.addUtf8 hp hr)
  | integer n => exact hpooled (.add hp trivial fun _ => hr)
  | float x =>
    obtain ⟨y, hy⟩ := Option.isSome_iff_exists.1 hr
    rw [run, addFloat_eq hy]
    exact hpooled (.add hp trivial fun _ => trivial)
  | long n => exact hpooled (.add hp trivial fun _ => hr)
  | double x => exact hpooled (.add hp trivial fun _ => trivial)
  | type name => exact hpooled (.addType hp hr)
  | string t => exact hpooled (.addNamed .string hp hr (fun _ => trivial) fun _ hn => hn)
  | methodType descriptor =>
    exact hpooled (.addNamed .methodType hp hr (fun _ => trivial) fun _ hn => hn)
  | nameAndType name descriptor => exact hpooled (.addNameAndType hp hr.1 hr.2)
  | field owner name descriptor =>
    exact hpooled (.addMember .fieldref hp hr (fun _ _ => trivial) fun _ _ h => h)
  | method owner name descriptor =>
    exact hpooled (.addMember .methodref hp hr (fun _ _ => trivial) fun _ _ h => h)
  | interfaceMethod owner name descriptor =>
    exact hpooled (.addMember .interfaceMethodref hp hr (fun _ _ => trivial) fun _ _ h => h)
  | handle kind owner name descriptor interface =>
    rw [run, addHandle_eq]
    refine hpooled (.bind (.addMember _ hp hr.2 (isRead_handleEntry kind interface)
      (inRange_handleEntry kind interface)) fun target q hq _ htarget => ?_)
    exact .add hq trivial fun hsize => ⟨hr.1, by omega⟩
  | bootstrap target arguments => exact ⟨_, _, rfl, hp.insertBootstrap _⟩
  | invokeDynamic site name descriptor =>
    refine hpooled ((Adds.addNameAndType hp hr.2.1 hr.2.2).bind fun m q hq _ hm => ?_)
    exact .add hq trivial fun hsize => ⟨hr.1, by omega⟩

/-! ## What is found -/

section Found

variable {P : Pool} (hP : P.IsSound) {i : Nat}
include hP

/-- An entry that is found stands where it is found. -/
theorem getElem?_of_fixed_add {e : Entry} (he : e.IsRead) (h : Fixed P (pooled (add e)) i) :
    P.entries[i]? = some (some e) := by
  have hat := hP.getElem?_of_index (Encoder.fixed_add_iff.1 h)
  rwa [he.key_eq] at hat

/-- A text that is found stands where it is found. -/
theorem holdsText_of_index {t : Text} (h : P.index[Entry.utf8 t]? = some i) : P.HoldsText i t :=
  hP.getElem?_of_index h

/-- A class that is found stands where it is found. -/
theorem holdsNamed_of_fixed_addClass {name : Text}
    (h : Fixed P (pooled (addClass (some name))) i) : P.HoldsNamed .type i name := by
  obtain ⟨n, hn, hi⟩ := Encoder.fixed_addClass_iff.1 h
  exact ⟨n, hP.getElem?_of_index hi, holdsText_of_index hP (Encoder.fixed_addUtf8_iff.1 hn)⟩

/-- A name with a descriptor that is found stands where it is found. -/
theorem holdsNameAndType_of_fixed {name descriptor : Text}
    (h : Fixed P (pooled (addNameAndType name (some descriptor))) i) :
    P.HoldsNameAndType i name descriptor := by
  obtain ⟨n, hn, d, hd, hi⟩ := Encoder.fixed_addNameAndType_iff.1 h
  exact ⟨n, d, hP.getElem?_of_index hi, holdsText_of_index hP hn,
    holdsText_of_index hP (Encoder.fixed_addUtf8_iff.1 hd)⟩

/-- A member that is found stands where it is found. -/
theorem holdsMember_of_fixed (make : Nat → Nat → Entry) (hmake : ∀ a b, (make a b).IsRead)
    {owner name descriptor : Text}
    (h : Fixed P (pooled (addMember make (some owner) name descriptor)) i) :
    P.HoldsMember make i owner name descriptor := by
  have hsteady (a b : Nat) : Steady (pooled (add (make a b))) :=
    Encoder.steady_add_of_allowed (hmake a b).allowed
  unfold addMember at h
  simp only [Encoder.fixed_pooled_bind_iff] at h
  obtain ⟨o, ho, m, hm, hi⟩ := h
  exact ⟨o, m, getElem?_of_fixed_add hP (hmake o m) hi, holdsNamed_of_fixed_addClass hP ho,
    holdsNameAndType_of_fixed hP hm⟩

/-- What a request finds is what it asks for: the entry at the index that it gets holds the texts,
the member, the handle or the number of the request, looked up through as many indices as there are
between them. -/
theorem Request.holds_of_fixed {r : Request} (hr : r.InRange) (h : Fixed P r.run i) :
    P.Holds i r := by
  cases r with
  | utf8 t => exact holdsText_of_index hP (Encoder.fixed_addUtf8_iff.1 h)
  | integer n => exact getElem?_of_fixed_add hP trivial h
  | float x =>
    obtain ⟨y, hy⟩ := Option.isSome_iff_exists.1 hr
    rw [run, addFloat_eq hy] at h
    exact ⟨y, hy, getElem?_of_fixed_add hP trivial h⟩
  | long n => exact getElem?_of_fixed_add hP trivial h
  | double x => exact getElem?_of_fixed_add hP trivial h
  | type name => exact holdsNamed_of_fixed_addClass hP h
  | string t =>
    obtain ⟨n, hn, hi⟩ := Encoder.fixed_addString_iff.1 h
    exact ⟨n, hP.getElem?_of_index hi, holdsText_of_index hP hn⟩
  | methodType descriptor =>
    obtain ⟨n, hn, hi⟩ := Encoder.fixed_addMethodType_iff.1 h
    exact ⟨n, hP.getElem?_of_index hi, holdsText_of_index hP hn⟩
  | nameAndType name descriptor => exact holdsNameAndType_of_fixed hP h
  | field owner name descriptor => exact holdsMember_of_fixed hP .fieldref (fun _ _ => trivial) h
  | method owner name descriptor => exact holdsMember_of_fixed hP .methodref (fun _ _ => trivial) h
  | interfaceMethod owner name descriptor =>
    exact holdsMember_of_fixed hP .interfaceMethodref (fun _ _ => trivial) h
  | handle kind owner name descriptor interface =>
    have hread := isRead_handleEntry kind interface
    have hsteady (a b : Nat) : Steady (pooled (add (handleEntry kind interface a b))) :=
      Encoder.steady_add_of_allowed (hread a b).allowed
    have : Steady (pooled (addMember (handleEntry kind interface) (some owner) name descriptor)) := by
      unfold addMember
      infer_instance
    rw [run, addHandle_eq] at h
    obtain ⟨target, htarget, hi⟩ := Encoder.fixed_pooled_bind_iff.1 h
    exact ⟨target, getElem?_of_fixed_add hP trivial hi, holdsMember_of_fixed hP _ hread htarget⟩
  | bootstrap target arguments =>
    exact hP.wellFormed.getElem?_of_bootstrapIndex (Encoder.fixed_addBootstrap_iff.1 h)
  | invokeDynamic site name descriptor =>
    have hbind : Fixed P (pooled (do
      let m ← addNameAndType name (some descriptor)
      add (.invokeDynamic site m))) i := h
    obtain ⟨m, hm, hi⟩ := Encoder.fixed_pooled_bind_iff.1 hbind
    exact ⟨m, getElem?_of_fixed_add hP trivial hi, holdsNameAndType_of_fixed hP hm⟩

end Found

/-! ## Many requests -/

theorem Request.Same.run_eq {r r' : Request} (h : r.Same r') : r.run = r'.run := by
  cases r with
  | float x =>
    cases r' <;> try (simp [Same] at h; done)
    next y =>
      have hsame : x.toSingle? = y.toSingle? := h
      have hsingle : Encoding.singleOf (.float x) = Encoding.singleOf (.float y) := by
        have hdouble (z : Number.Double) : Encoding.doubleOf (.float z) = .ok z := rfl
        simp only [Encoding.singleOf, hdouble, Result.ok_bind, hsame]
      show (liftM (Encoding.singleOf (.float x)) >>= _ : Encoder Nat) = _
      rw [hsingle]
      rfl
  | handle kind owner name descriptor interface =>
    cases r' <;> try (simp [Same] at h; done)
    next kind' owner' name' descriptor' interface' =>
      obtain ⟨⟨rfl, rfl, rfl, rfl⟩, hflag⟩ := h
      have hentry : handleEntry kind interface = handleEntry kind interface' := by
        rcases hflag with rfl | hkind
        · rfl
        · rw [handleEntry, handleEntry, if_pos hkind, if_pos hkind]
      rw [run, run, addHandle_eq, addHandle_eq, hentry]
  | _ => exact congrArg run h

/-- Requests in range are answered one after another, and the pool stays sound. -/
theorem exists_mapM_run {requests : List Request} (hr : ∀ r ∈ requests, r.InRange) {p : Pool}
    (hp : p.IsSound) :
    ∃ indices q, requests.mapM Request.run p = .ok (indices, q) ∧ q.IsSound :=
  Encoder.exists_mapM (fun r hmem _ hp => Request.exists_run hp (hr r hmem)) hp

/-- What a pool promises to whoever has asked for a row of things and got their indices. -/
structure Answers (start : Pool) (requests : List Request) (indices : List Nat) (p : Pool) :
    Prop where
  /-- Nothing moves. What was there at first, and at every stage since, is there in the end. -/
  kept : ∀ before after, requests = before ++ after → ∃ found q,
    before.mapM Request.run start = .ok (found, q) ∧ found <+: indices ∧ start.Begins q ∧ q.Begins p
  /-- Every index leads to what was asked for. -/
  held : List.Forall₂ p.Holds indices requests
  /-- Equal requests have equal indices, and of the requests of one sort only these. -/
  same : ∀ i r j r', (i, r) ∈ indices.zip requests → (j, r') ∈ indices.zip requests →
    r.tag? = r'.tag? → (i = j ↔ r.Same r')
  /-- No index of an entry is that of a second slot. -/
  first : ∀ i r, (i, r) ∈ indices.zip requests → r.tag? ≠ none → ¬ p.IsSecondSlot i
  /-- A pool that is small enough is read back from its bytes. -/
  readBack : p.size ≤ 0xFFFF →
    (∀ t, some (.utf8 t) ∈ p.entries → (ModifiedUtf8.encode t).length ≤ 0xFFFF) →
    ∃ bytes, p.encode = .ok bytes ∧ Reads Table.readPool bytes p.entries

/-- What is held for a request is an entry, unless the request asks for a bootstrap method. -/
theorem Holds.exists_entry {p : Pool} {i : Nat} {r : Request} (h : p.Holds i r)
    (htag : r.tag? ≠ none) : ∃ e, p.entries[i]? = some (some e) := by
  cases r with
  | utf8 | integer | long | double => exact ⟨_, h⟩
  | float =>
    obtain ⟨y, -, hi⟩ := h
    exact ⟨_, hi⟩
  | type | string | methodType | handle | invokeDynamic =>
    obtain ⟨n, hi, -⟩ := h
    exact ⟨_, hi⟩
  | nameAndType | field | method | interfaceMethod =>
    obtain ⟨a, b, hi, -⟩ := h
    exact ⟨_, hi⟩
  | bootstrap => exact absurd rfl htag

/-- A pool that is empty or begins with the entries and the bootstrap methods of a class that has
been read answers every row of requests that are in range. Nothing that was there moves, each
request finds what it asked for at its answer, equal requests get one index and requests for
different things get different ones, and the entries are read back from the bytes of the pool. -/
theorem IsStart.exists_answers {start : Pool} (hstart : start.IsStart) {requests : List Request}
    (hr : ∀ r ∈ requests, r.InRange) :
    ∃ indices p, requests.mapM Request.run start = .ok (indices, p) ∧
      Answers start requests indices p := by
  obtain ⟨indices, p, hrun, hp⟩ := exists_mapM_run hr hstart.isSound
  refine ⟨indices, p, hrun, ?_⟩
  -- the pool in the end has everything, so each request finds its index there
  have hfixed : List.Forall₂ (fun r i => Fixed p r.run i) requests indices :=
    Encoder.fixed_mapM_iff.1 (Steady.fixed hrun (.refl p))
  have hheld : List.Forall₂ (fun i r => Fixed p r.run i ∧ p.Holds i r) indices requests := by
    refine List.Forall₂.flip (((List.forall₂_and_left requests indices).2 ⟨hr, hfixed⟩).imp ?_)
    rintro r i ⟨hrange, hi⟩
    exact ⟨hi, Request.holds_of_fixed hp hrange hi⟩
  have hfound {i : Nat} {r : Request} (h : (i, r) ∈ indices.zip requests) :
      Fixed p r.run i ∧ p.Holds i r := (List.forall₂_iff_zip.1 hheld).2 h
  refine ⟨?_, ?_, ?_, ?_, fun hsize hshort => hp.exists_encode hsize hshort⟩
  · rintro before after rfl
    rw [List.mapM_append] at hrun
    obtain ⟨found, q, hbefore, hrun⟩ := Encoder.bind_eq_ok_iff.1 hrun
    obtain ⟨more, q', hafter, hrun⟩ := Encoder.bind_eq_ok_iff.1 hrun
    cases hrun
    exact ⟨found, q, hbefore, List.prefix_append _ _, (Growing.grows hbefore).begins,
      (Growing.grows hafter).begins⟩
  · exact hheld.imp fun _ _ h => h.2
  · intro i r j r' hi hj htag
    obtain ⟨hfixed, hholds⟩ := hfound hi
    obtain ⟨hfixed', hholds'⟩ := hfound hj
    constructor
    · rintro rfl
      exact Request.Same.of_holds htag hholds hholds'
    · intro hsame
      rw [hsame.run_eq] at hfixed
      exact hfixed.unique hfixed'
  · intro i r hi htag hslot
    obtain ⟨e, he⟩ := (hfound hi).2.exists_entry htag
    have hnone := hp.wellFormed.getElem?_of_isSecondSlot hslot
    rw [he] at hnone
    cases hnone

/-- A row of requests that an empty pool answers. -/
def someRequests : List Request :=
  [.long 7, .float ⟨0x3FE0000000000000⟩, .handle 1 "A" "b" "I" true, .handle 1 "A" "b" "I" false]

/-- The requests are in range, so the pool answers them. -/
theorem exists_answers_someRequests : (empty.IsStart ∧ ∀ r ∈ someRequests, r.InRange) ∧
    ∃ indices p, someRequests.mapM Request.run empty = .ok (indices, p) ∧
      Answers empty someRequests indices p := by
  have hstart : empty.IsStart := .inl rfl
  have hr : ∀ r ∈ someRequests, r.InRange := by
    simp only [someRequests, List.forall_mem_cons]
    exact ⟨⟨by decide, by decide⟩, rfl, ⟨by decide, by decide, by decide, by decide⟩,
      ⟨by decide, by decide, by decide, by decide⟩, by simp⟩
  exact ⟨⟨hstart, hr⟩, hstart.exists_answers hr⟩

end ClassTree.Pool
