/-
# ClassTree.Proofs.Pool.Fit — pools that have bytes at every stage

An index is written into two bytes, and so are the indices inside the entries of a pool. A pool
*fits* if all its entries and bootstrap methods fit the fields that they are written to. What is
added of whole texts of no more than a length field allows keeps a pool fitting, as long as it stays
*small*: as long as two bytes are enough for all its indices.
-/
import ClassTree.Proofs.Encoding.Steady
import ClassTree.Proofs.Number.Binary
import ClassTree.Proofs.Pool.Request

namespace ClassTree

/-! ## Texts, handles and constants -/

/-- A text that a constant pool can hold: no surrogate pair is in two pieces, and the bytes can be
counted. -/
structure Text.IsStorable (t : Text) : Prop where
  isWhole : t.IsWhole
  length_lt : (ModifiedUtf8.encode t).length < 0x10000

/-- The kind is a byte, and a constant pool can hold the names. -/
structure Handle.IsStorable (h : Handle) : Prop where
  kind : 0 ≤ h.kind ∧ h.kind < 0x100
  owner : ∀ s ∈ h.owner, s.IsStorable
  name : h.name.IsStorable
  descriptor : h.descriptor.IsStorable

namespace Constant

/-- A constant pool can hold the texts of the constant. -/
def IsStorable : Constant → Prop
  | .text t | .reference t | .methodType t => t.IsStorable
  | .handle h => h.IsStorable
  | _ => True

/-- A handle names its class. -/
def HasOwner : Constant → Prop
  | .handle h => ∃ s, h.owner = some s
  | _ => True

end Constant

/-- A number in single precision that was widened can be narrowed. -/
theorem Number.Single.exists_toSingle?_toDouble (x : Single) : ∃ y, x.toDouble.toSingle? = some y := by
  cases hnan : x.toDouble.isNaN with
  | false => exact ⟨x, Single.toSingle?_toDouble (Single.isQuiet_of_isNaN_toDouble hnan)⟩
  | true =>
    unfold Double.isNaN at hnan
    unfold Double.toSingle?
    split at hnan
    · next negative payload hdecode =>
      rw [hdecode]
      exact ⟨_, rfl⟩
    · cases hnan

namespace Pool

/-! ## Pools -/

/-- All that a pool holds fits the fields that it is written to. -/
structure IsFit (p : Pool) : Prop where
  wellFormed : p.WellFormed
  entries : AreReadable p.entries
  bootstrap : ∀ b ∈ p.bootstrap, b.IsFit

/-- Two bytes are enough for every index of a pool. -/
structure IsSmall (p : Pool) : Prop where
  entries : p.size ≤ 0x10000
  bootstrap : p.bootstrap.size < 0x10000

variable {p q : Pool}

theorem IsFit.isSound (h : p.IsFit) : p.IsSound :=
  ⟨h.wellFormed, fun e he => (h.entries e he).isRead, fun _ e he => (h.entries e he).inRange⟩

theorem IsSmall.of_begins (hq : q.IsSmall) (h : p.Begins q) : p.IsSmall := by
  have hentries := h.entries.length_le
  have hbootstrap := h.bootstrap.length_le
  rw [Array.length_toList, Array.length_toList] at hentries hbootstrap
  exact ⟨hentries.trans hq.entries, hbootstrap.trans_lt hq.bootstrap⟩

theorem bootstrap_insert (p : Pool) (e : Entry) : (p.insert e).2.bootstrap = p.bootstrap := by
  unfold insert
  split <;> rfl

/-- A bootstrap method that is added is the only new one. -/
theorem mem_of_mem_insertBootstrap {b b' : Bootstrap} (h : b ∈ (p.insertBootstrap b').2.bootstrap) :
    b ∈ p.bootstrap ∨ b = b' := by
  unfold insertBootstrap at h
  split at h
  · exact .inl h
  · exact Array.mem_push.1 h

end Pool

namespace Encoder

open Pool (Entry)

variable {α β : Type} {Q : α → Prop} {R : β → Prop}

/-! ## Additions that keep a pool fitting -/

/-- A pool that fits still does afterwards if it is still small, and what was added is of some sort.
-/
def KeepsFit (e : Encoder α) (Q : α → Prop) : Prop :=
  ∀ ⦃p q a⦄, p.IsFit → e p = .ok (a, q) → q.IsSmall → q.IsFit ∧ Q a

namespace KeepsFit

theorem pure {a : α} (h : Q a) : KeepsFit (Pure.pure a) Q := by
  rintro p q b hp ⟨⟩ -
  exact ⟨hp, h⟩

theorem bind {x : Encoder α} {f : α → Encoder β} [hgrowing : ∀ a, Growing (f a)] (hx : KeepsFit x Q)
    (hf : ∀ a, Q a → KeepsFit (f a) R) : KeepsFit (x >>= f) R := by
  intro p q b hp h hq
  obtain ⟨a, middle, ha, hb⟩ := bind_eq_ok_iff.1 h
  obtain ⟨hmiddle, hQ⟩ := hx hp ha (hq.of_begins ((hgrowing a).grows hb).begins)
  exact hf a hQ hmiddle hb hq

theorem pooled_bind {x : StateM Pool α} {f : α → StateM Pool β} [∀ a, Growing (pooled (f a))]
    (hx : KeepsFit (pooled x) Q) (hf : ∀ a, Q a → KeepsFit (pooled (f a)) R) :
    KeepsFit (pooled (x >>= f)) R := bind hx hf

theorem mapM {each : α → Encoder β} [∀ a, Growing (each a)] {as : List α}
    (h : ∀ a ∈ as, KeepsFit (each a) R) :
    KeepsFit (as.mapM each) fun bs => bs.length = as.length ∧ ∀ b ∈ bs, R b := by
  induction as with
  | nil => exact pure ⟨rfl, nofun⟩
  | cons a as ih =>
    rw [List.mapM_cons]
    refine bind (h a (by simp)) fun b hb => bind (ih fun a' ha' => h a' (by simp [ha'])) fun bs hbs => ?_
    exact pure ⟨by simp [hbs.1], by simpa using ⟨hb, hbs.2⟩⟩

theorem add {e : Entry} (he : e.IsReadable) : KeepsFit (pooled (Pool.add e)) (· < 0x10000) := by
  intro p q i hp h hq
  have hinsert : p.insert e = (i, q) := Except.ok.inj h
  obtain rfl : (p.insert e).2 = q := by rw [hinsert]
  obtain rfl : (p.insert e).1 = i := by rw [hinsert]
  have hfit : (p.insert e).2.IsFit := by
    refine ⟨hp.wellFormed.insert e, fun e' he' => ?_, ?_⟩
    · rcases Pool.mem_of_mem_insert he' with he' | rfl
      · exact hp.entries e' he'
      · exact he
    · rw [Pool.bootstrap_insert]
      exact hp.bootstrap
  have hat := hfit.isSound.getElem?_of_index (Pool.index_insert_self p e)
  exact ⟨hfit, (Array.getElem?_eq_some_iff.1 hat).1.trans_le hq.entries⟩

theorem addUtf8 {t : Text} (ht : t.IsStorable) : KeepsFit (pooled (Pool.addUtf8 t)) (· < 0x10000) :=
  add ⟨trivial, ht.length_lt, ht.isWhole⟩

theorem addClass {name : Text} (h : name.IsStorable) :
    KeepsFit (pooled (Pool.addClass (some name))) (· < 0x10000) :=
  pooled_bind (addUtf8 h) fun _ hi => add ⟨hi, trivial, trivial⟩

theorem addString {t : Text} (h : t.IsStorable) :
    KeepsFit (pooled (Pool.addString t)) (· < 0x10000) :=
  pooled_bind (addUtf8 h) fun _ hi => add ⟨hi, trivial, trivial⟩

theorem addMethodType {descriptor : Text} (h : descriptor.IsStorable) :
    KeepsFit (pooled (Pool.addMethodType descriptor)) (· < 0x10000) :=
  pooled_bind (addUtf8 h) fun _ hi => add ⟨hi, trivial, trivial⟩

theorem addNameAndType {name descriptor : Text} (hname : name.IsStorable)
    (hdescriptor : descriptor.IsStorable) :
    KeepsFit (pooled (Pool.addNameAndType name (some descriptor))) (· < 0x10000) := by
  refine pooled_bind (addUtf8 hname) fun n hn => ?_
  exact pooled_bind (x := Pool.addName (some descriptor)) (addUtf8 hdescriptor) fun d hd =>
    add ⟨⟨hn, hd⟩, trivial, trivial⟩

theorem addField {owner name descriptor : Text} (howner : owner.IsStorable) (hname : name.IsStorable)
    (hdescriptor : descriptor.IsStorable) :
    KeepsFit (pooled (Pool.addField (some owner) name descriptor)) (· < 0x10000) := by
  refine pooled_bind (addClass howner) fun o ho => ?_
  exact pooled_bind (addNameAndType hname hdescriptor) fun m hm => add ⟨⟨ho, hm⟩, trivial, trivial⟩

/-- A method of a class or of an interface. -/
theorem addMethod (interface : Bool) {owner name descriptor : Text} (howner : owner.IsStorable)
    (hname : name.IsStorable) (hdescriptor : descriptor.IsStorable) :
    KeepsFit (pooled (Pool.addMethod interface (some owner) name descriptor)) (· < 0x10000) := by
  unfold Pool.addMethod Pool.addMember
  cases interface <;> simp only [Bool.false_eq_true, if_true, if_false]
  all_goals
    refine pooled_bind (addClass howner) fun o ho => ?_
    exact pooled_bind (addNameAndType hname hdescriptor) fun m hm => add ⟨⟨ho, hm⟩, trivial, trivial⟩

theorem addHandle {h : Handle} (hh : h.IsStorable) (howner : ∃ s, h.owner = some s) :
    KeepsFit (pooled (Pool.addHandle h)) (· < 0x10000) := by
  obtain ⟨owner, heq⟩ := howner
  have hs := hh.owner owner heq
  have htarget {i : Nat} (hi : i < 0x10000) : KeepsFit (pooled (Pool.add (.methodHandle h.kind i)))
      (· < 0x10000) := add ⟨⟨hh.kind, hi⟩, trivial, trivial⟩
  unfold Pool.addHandle
  rw [heq]
  split
  · exact pooled_bind (addField hs hh.name hh.descriptor) fun _ hi => htarget hi
  · exact pooled_bind (addMethod h.interface hs hh.name hh.descriptor) fun _ hi => htarget hi

theorem addBootstrap {handle : Nat} {arguments : List Nat} (h : Bootstrap.IsFit ⟨handle, arguments⟩) :
    KeepsFit (pooled (Pool.addBootstrap handle arguments)) (· < 0x10000) := by
  intro p q i hp heq hq
  have hinsert : p.insertBootstrap ⟨handle, arguments⟩ = (i, q) := Except.ok.inj heq
  obtain rfl : (p.insertBootstrap ⟨handle, arguments⟩).2 = q := by rw [hinsert]
  obtain rfl : (p.insertBootstrap ⟨handle, arguments⟩).1 = i := by rw [hinsert]
  have hfit : (p.insertBootstrap ⟨handle, arguments⟩).2.IsFit := by
    refine ⟨hp.wellFormed.insertBootstrap _, ?_, fun b hb => ?_⟩
    · rw [Pool.entries_insertBootstrap]
      exact hp.entries
    · rcases Pool.mem_of_mem_insertBootstrap hb with hb | rfl
      · exact hp.bootstrap b hb
      · exact h
  have hat := hfit.wellFormed.getElem?_of_bootstrapIndex (Pool.bootstrapIndex_insertBootstrap_self p _)
  exact ⟨hfit, (Array.getElem?_eq_some_iff.1 hat).1.trans hq.bootstrap⟩

theorem addInvokeDynamic {bootstrap : Nat} {name descriptor : Text} (h : bootstrap < 0x10000)
    (hname : name.IsStorable) (hdescriptor : descriptor.IsStorable) :
    KeepsFit (pooled (Pool.addInvokeDynamic bootstrap name descriptor)) (· < 0x10000) :=
  pooled_bind (addNameAndType hname hdescriptor) fun _ hm => add ⟨⟨h, hm⟩, trivial, trivial⟩

end KeepsFit

/-! ## Additions that always go through -/

/-- An addition goes through whatever the pool is, and keeps it fitting. -/
structure Serves (e : Encoder Nat) : Prop where
  exists_eq_ok : ∀ p, ∃ i q, e p = .ok (i, q)
  keepsFit : KeepsFit e (· < 0x10000)

namespace Serves

/-- Nothing but the pool matters to what is added to it. -/
theorem pooled {m : StateM Pool Nat} (h : KeepsFit (Encoder.pooled m) (· < 0x10000)) :
    Serves (Encoder.pooled m) := ⟨fun _ => ⟨_, _, rfl⟩, h⟩

theorem zero : Serves (Pure.pure 0) := ⟨fun p => ⟨0, p, rfl⟩, .pure (by decide)⟩

end Serves

end Encoder

namespace Encoding

open Encoder Literal

/-! ## Constants -/

theorem serves_of_isOf {kind : Kind} {v : Constant} (hkind : kind ∈ passable) (h : IsOf kind v)
    (hv : v.IsStorable) : Serves (addConstant kind.name v) := by
  cases h with
  | int h => exact .pooled (.add ⟨h, trivial, trivial⟩)
  | long h => exact .pooled (.add ⟨h, trivial, trivial⟩)
  | float x =>
    obtain ⟨y, hy⟩ := x.exists_toSingle?_toDouble
    have hadd : addConstant Kind.float.name (.float x.toDouble) = pooled (Pool.add (.float y)) :=
      Pool.addFloat_eq hy
    rw [hadd]
    exact .pooled (.add ⟨trivial, trivial, trivial⟩)
  | double x => exact .pooled (.add ⟨trivial, trivial, trivial⟩)
  | string t => exact .pooled (.addString hv)
  | reference name => exact .pooled (.addClass hv)
  | methodType descriptor => exact .pooled (.addMethodType hv)
  | bool | label | bytes | null => exact absurd hkind (by decide)

theorem serves_addConstant {kind : Text} {v : Constant} (h : IsNamed kind v) (hv : v.IsStorable)
    (howner : v.HasOwner) : Serves (addConstant kind v) := by
  cases h with
  | literal hkind h => exact serves_of_isOf hkind h hv
  | handle _ => exact .pooled (.addHandle hv howner)

theorem serves_addLoaded {op : Opcode} {v : Constant} (h : IsNamed (loadedKind op v) v)
    (hv : v.IsStorable) (howner : v.HasOwner) : Serves (addLoaded op v) := by
  have hconstant := serves_addConstant h hv howner
  have hnot {kind : Text} {v : Constant} (h : IsNamed kind v) :
      v ≠ .null ∧ (∀ b, v ≠ .bytes b) ∧ ∀ l, v ≠ .label l := by
    cases h with
    | handle _ => exact ⟨nofun, nofun, nofun⟩
    | literal hkind h => cases h <;> first
      | exact absurd hkind (by decide)
      | exact ⟨nofun, nofun, nofun⟩
  obtain ⟨hnull, hbytes, hlabel⟩ := hnot h
  unfold addLoaded
  split
  · exact absurd rfl hnull
  · exact absurd rfl (hbytes _)
  · exact absurd rfl (hlabel _)
  · exact hconstant

end Encoding

end ClassTree
