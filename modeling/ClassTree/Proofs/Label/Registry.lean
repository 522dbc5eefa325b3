/-
# ClassTree.Proofs.Label.Registry — registries of labels

What a registry has grown by is said by two lists of labels, those that were defined and those that
were referred to. A definition goes through if it is new, and the registry closes if all that is
referred to is defined.

A registry that has issued labels for code offsets only has numbered them through: the offset that
was seen first has the first label, and so on. So an offset has one label, and a label one offset.

Labels are issued one after another by steps on the registry. What such a step gives is said in
terms of the offsets and labels that are known when all is done: labels are never taken back, so
what holds of all that is known later holds from then on.
-/
import ClassTree.Label.Registry
import ClassTree.Proofs.Result
import ClassTree.Proofs.Text.Numeral
import Mathlib.Data.List.Forall2
import Mathlib.Data.List.Nodup

namespace ClassTree.Label.Registry

/-- The labels that have been referred to. -/
def targets (r : Registry) : List Label := r.references.toList.map Prod.fst

/-- The places of references are those of the labels that count as referred to. -/
def IsConsistent (r : Registry) : Prop :=
  ∀ l, r.referenced.contains l = true ↔ l ∈ r.targets

/-- A registry has grown by definitions, each of which was new, and by references. -/
structure Extends (definitions references : List Label) (r r' : Registry) : Prop where
  nodup : definitions.Nodup
  fresh : ∀ l ∈ definitions, r.defined.contains l = false
  defined : ∀ l, r'.defined.contains l = true ↔ r.defined.contains l = true ∨ l ∈ definitions
  consistent : r.IsConsistent → r'.IsConsistent
  targets : ∀ l, l ∈ r'.targets ↔ l ∈ r.targets ∨ l ∈ references

variable {r r' r'' : Registry} {l : Label} {definitions references definitions' references' : List Label}

namespace Extends

theorem refl (r : Registry) : Extends [] [] r r where
  nodup := .nil
  fresh := by simp
  defined := by simp
  consistent := id
  targets := by simp

theorem trans (h : Extends definitions references r r')
    (h' : Extends definitions' references' r' r'') :
    Extends (definitions ++ definitions') (references ++ references') r r'' where
  nodup := by
    refine List.nodup_append.2 ⟨h.nodup, h'.nodup, fun l hl l' hl' heq => ?_⟩
    have hfresh := h'.fresh l' hl'
    rw [← heq, (h.defined l).2 (.inr hl)] at hfresh
    cases hfresh
  fresh := by
    intro l hl
    rcases List.mem_append.1 hl with hl | hl
    · exact h.fresh l hl
    · rw [← Bool.not_eq_true]
      intro hdefined
      have hfresh := h'.fresh l hl
      rw [(h.defined l).2 (.inl hdefined)] at hfresh
      cases hfresh
  defined := by
    intro l
    rw [h'.defined, h.defined, List.mem_append, or_assoc]
  consistent := h'.consistent ∘ h.consistent
  targets := by
    intro l
    rw [h'.targets, h.targets, List.mem_append, or_assoc]

end Extends

theorem extends_resolve (r : Registry) (name : Text) : Extends [] [] r (r.resolve name).2 :=
  ⟨.nil, by simp, by simp [resolve], id, by simp [resolve, targets]⟩

theorem extends_define (h : r.define l = .ok r') : Extends [l] [] r r' := by
  unfold define at h
  split at h
  · cases h
  · next hnew =>
    cases h
    refine ⟨by simp, by simpa using hnew, fun l' => ?_, id, by simp [targets]⟩
    simp only [Std.HashSet.contains_insert, Bool.or_eq_true, beq_iff_eq, List.mem_singleton]
    exact ⟨fun h => h.symm.imp id Eq.symm, fun h => h.symm.imp Eq.symm id⟩

theorem define_eq_ok (h : r.defined.contains l = false) : ∃ r', r.define l = .ok r' := by
  unfold define
  rw [h]
  exact ⟨_, rfl⟩

theorem extends_reference (r : Registry) (l : Label) (place : Text) (h : r.IsConsistent) :
    Extends [] [l] r (r.reference l place) := by
  unfold reference
  split
  · next hknown =>
    refine ⟨.nil, by simp, by simp, id, fun l' => ?_⟩
    have hmem := (h l).1 hknown
    simp only [List.mem_singleton]
    exact ⟨.inl, fun h => h.elim id fun heq => heq ▸ hmem⟩
  · have htargets (l' : Label) : l' ∈ (r.references.push (l, place)).toList.map Prod.fst ↔
        l' ∈ r.targets ∨ l' = l := by simp [targets]
    refine ⟨.nil, by simp, by simp, fun h l' => ?_,
      fun l' => (htargets l').trans (by simp)⟩
    refine Iff.trans ?_ (htargets l').symm
    simp only [Std.HashSet.contains_insert, Bool.or_eq_true, beq_iff_eq, h l']
    exact ⟨fun h => h.symm.imp id Eq.symm, fun h => h.symm.imp Eq.symm id⟩

/-- A registry closes if every label that has been referred to is defined. -/
theorem close_eq_ok_iff : r.close = .ok () ↔ ∀ l ∈ r.targets, r.defined.contains l = true := by
  unfold close
  rw [Array.find?_toList.symm]
  cases hfind : r.references.toList.find? fun p => !r.defined.contains p.1 with
  | none =>
    simp only [true_iff]
    intro l hl
    obtain ⟨p, hp, rfl⟩ := List.mem_map.1 hl
    simpa using List.find?_eq_none.1 hfind p hp
  | some p =>
    simp only [reduceCtorEq, false_iff]
    intro hall
    have hmem : p.1 ∈ r.targets := List.mem_map.2 ⟨p, List.mem_of_find?_eq_some hfind, rfl⟩
    have hnot := List.find?_some hfind
    simp [hall _ hmem] at hnot

/-- Definitions that are new and differ go through. -/
theorem exists_definitions {labels : List Label} (hnodup : labels.Nodup)
    (hfresh : ∀ l ∈ labels, r.defined.contains l = false) :
    ∃ r', labels.foldlM define r = .ok r' ∧ r.Extends labels [] r' := by
  induction labels generalizing r with
  | nil => exact ⟨r, rfl, .refl r⟩
  | cons l labels ih =>
    obtain ⟨r', hr'⟩ := define_eq_ok (hfresh l (by simp))
    have hextends := extends_define hr'
    obtain ⟨hl, hnodup⟩ := List.nodup_cons.1 hnodup
    have hfresh' : ∀ l' ∈ labels, r'.defined.contains l' = false := by
      intro l' hl'
      rw [← Bool.not_eq_true, hextends.defined, hfresh l' (by simp [hl'])]
      rintro (h | h)
      · cases h
      · exact hl (List.mem_singleton.1 h ▸ hl')
    obtain ⟨r'', hr'', hextends'⟩ := ih hnodup hfresh'
    refine ⟨r'', ?_, hextends.trans hextends'⟩
    rw [List.foldlM_cons]
    exact Result.bind_eq_ok_iff.2 ⟨r', hr', hr''⟩

end ClassTree.Label.Registry

namespace ClassTree.Label

/-- The `n`-th label. -/
def ofNumber (n : Nat) : Label := ⟨numbered n⟩

theorem ofNumber_injective : Function.Injective ofNumber := by
  intro m n h
  have hname : numbered m = numbered n := congrArg Label.name h
  exact Text.ofNat_injective (List.append_cancel_left hname)

theorem firstFree_of_free {names : Std.HashSet Text} {n : Nat}
    (h : names.contains (numbered n) = false) (fuel : Nat) : firstFree names fuel n = n := by
  cases fuel with
  | zero => rfl
  | succ fuel =>
    unfold firstFree
    rw [h]
    rfl

namespace Registry

/-- The labels of a registry are those of the code offsets that it has seen, numbered in that order.
-/
structure IsNumbered (r : Registry) : Prop where
  counter : r.counter = r.seen.size
  names : ∀ n, r.names.contains n = true ↔ ∃ i < r.counter, n = numbered i
  offsets : ∀ offset l, r.offsets[offset]? = some l ↔ (offset, l) ∈ r.seen.toList
  labels : r.seen.toList.map Prod.snd = (List.range r.seen.size).map ofNumber
  nodup : (r.seen.toList.map Prod.fst).Nodup

theorem isNumbered_new (place : Text) : IsNumbered { place } where
  counter := rfl
  names := by simp
  offsets := by simp
  labels := rfl
  nodup := .nil

namespace IsNumbered

variable {r : Registry} (h : r.IsNumbered)
include h

theorem nodup_labels : (r.seen.toList.map Prod.snd).Nodup := by
  rw [h.labels]
  exact List.nodup_range.map ofNumber_injective

/-- The next label is the one with the next number. -/
theorem issue_eq : r.issue = (ofNumber r.counter,
    { r with counter := r.counter + 1, names := r.names.insert (numbered r.counter) }) := by
  have hfree : r.names.contains (numbered r.counter) = false := by
    rw [← Bool.not_eq_true, h.names]
    rintro ⟨i, hlt, heq⟩
    have hi : r.counter = i := ofNumber_injective (congrArg Label.mk heq)
    omega
  unfold issue
  rw [firstFree_of_free hfree]
  rfl

/-- The label of an offset is known from then on, and all that was known still is. -/
theorem atOffset (offset : Int) : (r.atOffset offset).2.IsNumbered ∧
    r.seen.toList <+: (r.atOffset offset).2.seen.toList ∧
      (offset, (r.atOffset offset).1) ∈ (r.atOffset offset).2.seen.toList := by
  unfold Registry.atOffset
  cases hfound : r.offsets[offset]? with
  | some l => exact ⟨h, List.prefix_refl _, (h.offsets offset l).1 hfound⟩
  | none =>
    have hnew : ∀ l, (offset, l) ∉ r.seen.toList := by
      intro l hl
      rw [← h.offsets, hfound] at hl
      cases hl
    -- the name that is issued is the numeral of the counter, which no name before was
    rw [h.issue_eq]
    dsimp only
    rw [Array.toList_push]
    refine ⟨⟨?_, ?_, ?_, ?_, ?_⟩, List.prefix_append _ _, by simp⟩
    · simp [h.counter]
    · intro n
      rw [Std.HashSet.contains_insert, Bool.or_eq_true, beq_iff_eq, h.names]
      constructor
      · rintro (rfl | ⟨i, hi, rfl⟩)
        · exact ⟨r.counter, by dsimp only; omega, rfl⟩
        · exact ⟨i, by dsimp only; omega, rfl⟩
      · rintro ⟨i, hi, rfl⟩
        dsimp only at hi
        by_cases heq : i = r.counter
        · exact .inl (by rw [heq])
        · exact .inr ⟨i, by omega, rfl⟩
    · intro other l
      rw [Std.HashMap.getElem?_insert, Array.toList_push, List.mem_append, List.mem_singleton,
        Prod.mk.injEq]
      by_cases heq : offset = other
      · subst heq
        simp [hnew l, eq_comm]
      · simp [heq, h.offsets, Ne.symm heq]
    · rw [Array.toList_push, List.map_append, h.labels, Array.size_push, List.range_succ,
        List.map_append, h.counter]
      rfl
    · rw [Array.toList_push, List.map_append, List.nodup_append]
      refine ⟨h.nodup, by simp, ?_⟩
      intro a ha b hb
      rw [List.map_singleton, List.mem_singleton] at hb
      obtain ⟨⟨o, l⟩, hl, rfl⟩ := List.mem_map.1 ha
      rintro rfl
      subst hb
      exact hnew l hl

end IsNumbered

end Registry

/-! ## Steps -/

variable {α β γ : Type}

/-- A step on the registry gives something of a sort, which may speak of all the offsets and labels
that are known by the end. -/
def Issues (s : StateM Registry α) (P : List (Int × Label) → α → Prop) : Prop :=
  ∀ r : Registry, r.IsNumbered → (s r).2.IsNumbered ∧ r.seen.toList <+: (s r).2.seen.toList ∧
    ∀ seen, (s r).2.seen.toList <+: seen → P seen (s r).1

namespace Issues

variable {s : StateM Registry α} {k : α → StateM Registry β} {P : List (Int × Label) → α → Prop}
  {Q : List (Int × Label) → β → Prop}

theorem pure {a : α} (h : ∀ seen, P seen a) : Issues (Pure.pure a) P :=
  fun _ hr => ⟨hr, List.prefix_refl _, fun seen _ => h seen⟩

theorem bind (h : Issues s P)
    (hk : ∀ a, Issues (k a) fun seen b => P seen a → Q seen b) : Issues (s >>= k) Q := by
  intro r hr
  obtain ⟨hs, hprefix, hP⟩ := h r hr
  obtain ⟨hs', hprefix', hQ⟩ := hk (s r).1 (s r).2 hs
  refine ⟨hs', hprefix.trans hprefix', fun seen hseen => ?_⟩
  exact hQ seen hseen (hP seen (hprefix'.trans hseen))

theorem map (h : Issues s P) {f : α → β} (hf : ∀ seen a, P seen a → Q seen (f a)) :
    Issues (do return f (← s)) Q := h.bind fun a => pure fun seen => hf seen a

/-- A step for each element of a list. -/
theorem mapM {f : γ → StateM Registry α} {R : γ → List (Int × Label) → α → Prop} {l : List γ}
    (h : ∀ x ∈ l, Issues (f x) (R x)) :
    Issues (l.mapM f) fun seen as => List.Forall₂ (fun x a => R x seen a) l as := by
  induction l with
  | nil => exact pure fun _ => .nil
  | cons x l ih =>
    rw [List.mapM_cons]
    refine (h x (by simp)).bind fun a => ?_
    refine (ih fun y hy => h y (by simp [hy])).bind fun as => ?_
    exact pure fun _ has ha => .cons ha has

end Issues

/-- A step on the registry comes by no offsets but those of a sort. -/
def StaysIn (S : Int → Prop) (s : StateM Registry α) : Prop :=
  ∀ r : Registry, (∀ p ∈ r.seen.toList, S p.1) → ∀ p ∈ (s r).2.seen.toList, S p.1

namespace StaysIn

variable {S : Int → Prop} {s : StateM Registry α} {k : α → StateM Registry β}

theorem pure (a : α) : StaysIn S (Pure.pure a) := fun _ h => h

theorem bind (h : StaysIn S s) (hk : ∀ a, StaysIn S (k a)) : StaysIn S (s >>= k) :=
  fun r hr => hk _ _ (h r hr)

theorem map (h : StaysIn S s) (f : α → β) : StaysIn S (do return f (← s)) :=
  h.bind fun a => pure (f a)

/-- A step for each element of a list. -/
theorem mapM {f : γ → StateM Registry α} {l : List γ} (h : ∀ x ∈ l, StaysIn S (f x)) :
    StaysIn S (l.mapM f) := by
  induction l with
  | nil => exact pure _
  | cons x l ih =>
    rw [List.mapM_cons]
    refine (h x (by simp)).bind fun a => ?_
    exact (ih fun y hy => h y (by simp [hy])).map (a :: ·)

/-- The label of an offset of the sort. -/
theorem atOffset {offset : Int} (h : S offset) :
    StaysIn S (modifyGet fun r => r.atOffset offset : StateM Registry Label) := by
  intro r hr
  show ∀ p ∈ (r.atOffset offset).2.seen.toList, S p.1
  unfold Registry.atOffset
  split
  · exact hr
  · intro p hp
    rw [Array.toList_push, List.mem_append, List.mem_singleton] at hp
    rcases hp with hp | rfl
    · exact hr p hp
    · exact h

end StaysIn

end ClassTree.Label
