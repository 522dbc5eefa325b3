/-
# ClassTree.Proofs.Exact — constants that are stored exactly

What the pool keeps of a constant may differ from it: a fraction is rounded, a surrogate pair in two
pieces is joined, and a handle on a field forgets the flag of its owner. Constants are *exact* if
nothing of the sort happens to them; what is stored of them equals them.
-/
import ClassTree.Proofs.Number.Binary
import ClassTree.Proofs.Operation

namespace ClassTree

open Encoding Decoding
open Literal (Kind)

/-! ## What the pool represents exactly -/

/-- A handle as the pool keeps it: it names a class, its texts are whole, and no interface owns a
field. -/
structure Handle.IsExact (h : Handle) : Prop where
  owner : ∃ owner, h.owner = some owner ∧ owner.IsWhole
  name : h.name.IsWhole
  descriptor : h.descriptor.IsWhole
  interface : h.kind ≤ Pool.lastFieldKind → h.interface = false

/-- A constant that an entry of a kind represents exactly. -/
inductive Constant.IsExact : Text → Constant → Prop
  | int (n : Int) : IsExact Kind.int.name (.int n)
  | bool (b : Bool) : IsExact Kind.int.name (.bool b)
  /-- A fraction in single precision. -/
  | float {x : Number.Single} (h : x.toDouble.isNaN = false) : IsExact Kind.float.name (.float x.toDouble)
  | long (n : Int) : IsExact Kind.long.name (.int n)
  | longBool (b : Bool) : IsExact Kind.long.name (.bool b)
  | double {x : Number.Double} (h : x.isNaN = false) : IsExact Kind.double.name (.float x)
  | string {t : Text} (h : t.IsWhole) : IsExact Kind.string.name (.text t)
  | reference {name : Text} (h : name.IsWhole) : IsExact Kind.reference.name (.reference name)
  | methodType {descriptor : Text} (h : descriptor.IsWhole) :
      IsExact Kind.methodType.name (.methodType descriptor)
  | handle {h : Handle} (hh : h.IsExact) : IsExact Literal.handleKind (.handle h)

/-- All that an instruction refers to is represented exactly in the pool. -/
def Instruction.IsExact {τ : Type} : Instruction τ → Prop
  | .constant op v => v.IsExact (Literal.loadedKind op v)
  | .type _ name => ∃ s, name = some s ∧ s.IsWhole
  | .field _ owner name descriptor =>
    (∃ s, owner = some s ∧ s.IsWhole) ∧ name.IsWhole ∧ descriptor.IsWhole
  | .method _ owner name descriptor _ =>
    (∃ s, owner = some s ∧ s.IsWhole) ∧ name.IsWhole ∧ descriptor.IsWhole
  | .callSite name descriptor bootstrap arguments =>
    (name.IsWhole ∧ descriptor.IsWhole) ∧ bootstrap.IsExact ∧ ∀ a ∈ arguments, a.2.IsExact a.1
  | .multiArray descriptor _ => ∃ s, descriptor = some s ∧ s.IsWhole
  | _ => True

/-! ## What is stored of them -/

/-- An exact handle has the form of its kind, and it is stored as it is. -/
theorem Handle.IsExact.stored_eq {g : Text → Text} (hg : ∀ t : Text, t.IsWhole → g t = t)
    {h : Handle} (hh : h.IsExact) : h.stored g = h := by
  obtain ⟨kind, owner, name, descriptor, interface⟩ := h
  obtain ⟨⟨s, howner, hs⟩, hname, hdescriptor, hinterface⟩ := hh
  obtain rfl : owner = some s := howner
  have hflag : (interface && !(decide (kind ≤ Pool.lastFieldKind))) = interface := by
    by_cases hkind : kind ≤ Pool.lastFieldKind
    · have hfalse : interface = false := hinterface hkind
      simp [hfalse]
    · simp [hkind]
  simp only [Handle.stored, Option.map_some, hg s hs, hg name hname, hg descriptor hdescriptor,
    hflag]

/-- A fraction in single precision is kept as it is. -/
theorem Encoding.singleOf_toDouble {x : Number.Single} (h : x.toDouble.isNaN = false) :
    singleOf (.float x.toDouble) = .ok x := by
  have hback := Number.Single.toSingle?_toDouble (Number.Single.isQuiet_of_isNaN_toDouble h)
  have hdouble : doubleOf (.float x.toDouble) = .ok x.toDouble := rfl
  simp only [singleOf, hdouble, Result.ok_bind, hback]
  rfl

/-- An exact constant has the form of its kind. -/
theorem Constant.IsExact.isRegular {kind : Text} {v : Constant} (h : v.IsExact kind) :
    v.IsRegular kind := by
  cases h with
  | int n | bool b | float h | double h | reference h | methodType h =>
    exact ⟨fun hk => absurd hk (by decide), fun hk => absurd hk (by decide), nofun⟩
  | long n => exact ⟨fun _ => ⟨n, rfl⟩, fun hk => absurd hk (by decide), nofun⟩
  | longBool b => exact ⟨fun _ => ⟨_, rfl⟩, fun hk => absurd hk (by decide), nofun⟩
  | @string t h => exact ⟨fun hk => absurd hk (by decide), fun _ => ⟨t, rfl⟩, nofun⟩
  | handle hh =>
    refine ⟨fun hk => absurd hk (by decide), fun hk => absurd hk (by decide), ?_⟩
    rintro h ⟨⟩
    obtain ⟨owner, howner, -⟩ := hh.owner
    exact ⟨owner, howner⟩

theorem Number.Double.sameValue_self {x : Number.Double} (h : x.isNaN = false) :
    x.sameValue x = true := by
  simp [sameValue, h]

/-- What is stored of an exact constant equals it by value. A text comes back as its pairs are
joined, which leaves a whole text alone; a number comes back in the kind that it was stored under,
so it has to be of that kind. -/
theorem Constant.IsExact.same_of_stores {g : Text → Text} (hg : ∀ t : Text, t.IsWhole → g t = t)
    {kind : Text} {v v' : Constant} (h : v.IsExact kind) (hv : v.Stores g kind v') :
    v.same v' = true := by
  cases h with
  | int n =>
    cases hv with
    | int h =>
      cases h
      simp [same, toInt?]
  | bool b =>
    cases hv with
    | int h =>
      cases h
      simp [same, toInt?]
  | float h =>
    cases hv with
    | float hx =>
      rw [singleOf_toDouble h] at hx
      cases hx
      exact Number.Double.sameValue_self h
  | long n =>
    cases hv with
    | long h =>
      cases h
      simp [same, toInt?]
  | longBool b =>
    cases hv with
    | long h =>
      cases h
      simp [same, toInt?]
  | double h =>
    cases hv with
    | double hx =>
      cases hx
      exact Number.Double.sameValue_self h
  | string h =>
    cases hv with
    | string t => simp [same, toInt?, hg _ h]
  | reference h =>
    cases hv with
    | reference name => simp [same, toInt?, hg _ h]
  | methodType h =>
    cases hv with
    | methodType descriptor => simp [same, toInt?, hg _ h]
  | handle hh =>
    cases hv with
    | handle h => simp [same, toInt?, hh.stored_eq hg]

namespace Instruction

variable {τ : Type}

/-- An exact instruction refers to what is there. -/
theorem IsExact.isRegular {i : Instruction τ} (h : i.IsExact) : i.IsRegular := by
  cases i with
  | constant op v => exact Constant.IsExact.isRegular h
  | type op name | multiArray name n =>
    obtain ⟨s, hs, -⟩ := h
    exact ⟨s, hs⟩
  | field op owner name descriptor | method op owner name descriptor interface =>
    obtain ⟨⟨s, hs, -⟩, -⟩ := h
    exact ⟨s, hs⟩
  | callSite name descriptor bootstrap arguments =>
    obtain ⟨-, hbootstrap, harguments⟩ := h
    obtain ⟨owner, howner, -⟩ := hbootstrap.owner
    exact ⟨⟨owner, howner⟩, fun a ha => (harguments a ha).isRegular⟩
  | _ => trivial

/-- What is stored of an exact instruction equals it by value: its names are whole and its constant
is of the kind that the instruction loads, so neither joining pairs nor the kind of an entry changes
anything. -/
theorem IsExact.same_of_stores [DecidableEq τ] {g : Text → Text}
    (hg : ∀ t : Text, t.IsWhole → g t = t) {i i' : Instruction τ} (h : i.IsExact)
    (hi : i.Stores g i') : i.same i' = true := by
  cases hi with
  | free hfree => cases i <;> first | exact absurd hfree id | simp [same]
  | constant op hv =>
    simp only [same, decide_true, Bool.true_and]
    exact Constant.IsExact.same_of_stores hg h hv
  | type op name | multiArray name n =>
    obtain ⟨s, ⟨⟩, hs⟩ := h
    simp [same, hg _ hs]
  | field op owner name descriptor | method op owner name descriptor interface =>
    obtain ⟨⟨s, ⟨⟩, hs⟩, hname, hdescriptor⟩ := h
    simp [same, hg _ hs, hg _ hname, hg _ hdescriptor]
  | callSite name descriptor hall =>
    obtain ⟨⟨hname, hdescriptor⟩, hbootstrap, harguments⟩ := h
    simp only [same, hg _ hname, hg _ hdescriptor, hbootstrap.stored_eq hg, decide_true,
      Bool.true_and]
    unfold sameArguments
    rw [Bool.and_eq_true, decide_eq_true_iff, List.all_eq_true]
    refine ⟨hall.length_eq, ?_⟩
    rintro ⟨a, a'⟩ ha
    obtain ⟨hkind, hstores⟩ := List.forall₂_zip hall ha
    rw [Bool.and_eq_true, decide_eq_true_iff]
    exact ⟨hkind, (harguments a (List.of_mem_zip ha).1).same_of_stores hg hstores⟩

end Instruction

end ClassTree
