/-
# ClassTree.Proofs.Flow.Refusal — why instructions are refused

An instruction looks at the types on the stack and in the locals, and takes some of their names
apart. Where the names are well formed and the numbers of locals are no less than zero, it fails for
reasons of verification only: slots that are missing, or a code that does not go with its operands.
Places that are looked up are there, and what is taken apart has parts.
-/
import ClassTree.Proofs.Flow.Growth
import ClassTree.Proofs.Flow.Naming

namespace ClassTree.Flow

open Descriptor (IsValue IsReferenceName)
open Result (bind_eq_error_iff)

/-! ## Failures of verification -/

/-- A method does not pass verification. -/
def IsUnverified : Error → Prop
  | .unverified _ _ _ => True
  | _ => False

/-- A step fails over verification only. -/
def Verifies {α : Type} (x : Result α) : Prop := ∀ e, x = .error e → IsUnverified e

namespace Verifies

variable {α β : Type}

theorem ok (a : α) : Verifies (.ok a : Result α) := by
  intro e h
  cases h

/-- Steps in a row, the second of which may use what the first one has given. -/
theorem bind {x : Result α} {f : α → Result β} (hx : Verifies x)
    (hf : ∀ a, x = .ok a → Verifies (f a)) : Verifies (x >>= f) := by
  intro e h
  rcases bind_eq_error_iff.1 h with h | ⟨a, ha, h⟩
  · exact hx e h
  · exact hf a ha e h

theorem pop (s : State) (count : Nat) : Verifies (s.pop count) := by
  intro e h
  unfold State.pop at h
  split at h <;> cases h
  trivial

theorem drop (s : State) (count : Nat) : Verifies (s.drop count) :=
  (pop s count).bind fun _ _ => ok _

theorem pushTypeOf (s : State) {descriptor : Text} (h : IsValue descriptor ∨ descriptor = "V") :
    Verifies (do return s.push (← typeOf descriptor) : Result State) := by
  rcases h with h | rfl
  · obtain ⟨v, hv, -⟩ := exists_typeOf_isValue h
    rw [hv]
    exact ok _
  · exact ok _

theorem locate {p : Program} {index : Nat} {x : Result α} (h : Verifies x) :
    Verifies (p.locate index x) := by
  intro e he
  unfold Program.locate at he
  split at he
  · cases he
    trivial
  · exact h e he

theorem merge (known incoming : State) : Verifies (known.merge incoming) := by
  intro e h
  unfold State.merge at h
  split at h
  · split at h <;> cases h
    trivial
  · cases h
    trivial

end Verifies

/-! ## Locals -/

namespace State

/-- A number that is no less than zero and less than the length is a place. -/
theorem place?_eq_some {length : Nat} {slot : Int} (h : 0 ≤ slot) (hlt : slot < length) :
    place? length slot = some slot.toNat := by
  unfold place?
  simp only [Int.not_lt.2 h, if_false, h, hlt, and_self, if_true]

theorem exists_put {locals : List VerificationType} {slot : Int} (h : 0 ≤ slot)
    (hlt : slot < locals.length) (v : VerificationType) :
    ∃ found, put locals slot v = .ok found := by
  unfold put
  rw [place?_eq_some h hlt]
  exact ⟨_, rfl⟩

/-- A slot can be spoilt where it and the place to look at are there. -/
theorem exists_spoil (c : Prop) [Decidable c] (locals : List VerificationType) (place slot : Int)
    (h : c → 0 ≤ place ∧ place < locals.length ∧ 0 ≤ slot ∧ slot < locals.length) :
    ∃ found, (if c then spoil locals place slot else pure locals) = .ok found ∧
      found.length = locals.length := by
  split
  · next hc =>
    obtain ⟨hplace, hplaceLt, hslot, hslotLt⟩ := h hc
    obtain ⟨found, hfound⟩ := exists_put hslot hslotLt .top
    have hnat : place.toNat < locals.length := by omega
    have hwide : isWideAt locals place = .ok locals[place.toNat].isWide := by
      unfold isWideAt
      rw [place?_eq_some hplace hplaceLt, Option.bind_some, List.getElem?_eq_getElem hnat]
    unfold spoil
    rw [hwide, Result.ok_bind]
    split
    · exact ⟨found, hfound, length_put hfound⟩
    · exact ⟨locals, rfl, rfl⟩
  · exact ⟨locals, rfl, rfl⟩

/-- A value can be stored in every local. -/
theorem exists_store (s : State) {slot : Int} (h : 0 ≤ slot) (v : VerificationType) :
    ∃ t, s.store slot v = .ok t := by
  -- the locals are padded up to the end of the value, so all places are there
  have hsize : (slotsOf v).length = 1 ∨ (slotsOf v).length = 2 := by
    unfold slotsOf
    split
    · exact .inr rfl
    · exact .inl rfl
  rw [store_eq]
  obtain ⟨padded, hpadded⟩ : ∃ padded, s.locals ++ List.replicate
    (slot + ((slotsOf v).length : Int) - s.locals.length).toNat VerificationType.top = padded :=
    ⟨_, rfl⟩
  have hlength : slot + ((slotsOf v).length : Int) ≤ padded.length := by
    rw [← hpadded, List.length_append, List.length_replicate]
    omega
  obtain ⟨first, hfirst, hfirstLength⟩ :=
    exists_spoil (0 < slot) padded (slot - 1) (slot - 1) fun _ => by omega
  obtain ⟨second, hsecond, hsecondLength⟩ :=
    exists_spoil (slot + ((slotsOf v).length : Int) < first.length) first
      (slot + ((slotsOf v).length : Int) - 1) (slot + ((slotsOf v).length : Int)) fun _ => by omega
  have hslot : slot < second.length := by omega
  obtain ⟨third, hthird⟩ := exists_put h hslot v
  have hthirdLength := length_put hthird
  dsimp only
  rw [hpadded, hfirst, Result.ok_bind, hsecond, Result.ok_bind, hthird, Result.ok_bind]
  split
  · have hnext : 0 ≤ slot + 1 ∧ slot + 1 < third.length := by omega
    obtain ⟨last, hlast⟩ := exists_put hnext.1 hnext.2 .top
    rw [hlast]
    exact ⟨_, rfl⟩
  · exact ⟨_, rfl⟩

theorem exists_read (s : State) {slot : Int} (h : 0 ≤ slot) : ∃ v, s.read slot = .ok v := by
  unfold read
  split
  · exact ⟨_, rfl⟩
  · next hlt =>
    have hnat : slot.toNat < s.locals.length := by omega
    rw [place?_eq_some h (by omega), Option.bind_some, List.getElem?_eq_getElem hnat]
    exact ⟨_, rfl⟩

end State

/-! ## Effects -/

variable {p : Program}

/-- An instruction that is named properly refuses over verification only. -/
theorem IsNamed.unverified_of_refuses {i : Instruction Label} (h : IsNamed i) {e : Error}
    (he : Refuses i e) : Verifies (.error e : Result State) := by
  rintro _ ⟨⟩
  cases he with
  | notInterpretable _ => trivial
  | noElement hi =>
    subst hi
    obtain ⟨n, hn, -⟩ := h
    cases hn
  | @callee signature _ hi hsplit =>
    obtain ⟨types, result, hsplit', -, -⟩ := (h.callee hi).exists_split
    cases hsplit.symm.trans hsplit'

/-- Loading an element of an array whose name is well formed. -/
theorem verifies_loadElement {s : State} (hs : s.Each p.Names) : Verifies (loadElement s) := by
  apply (Verifies.pop s 2).bind
  intro found hpop
  obtain ⟨values, t⟩ := found
  have hvalues := (hs.pop hpop).1
  dsimp only
  split
  · next c rest hlast =>
    split
    · next hbracket =>
      subst hbracket
      obtain ⟨_, heq, hname⟩ := hvalues _ (List.mem_of_getLast? hlast)
      cases heq
      exact .pushTypeOf t (.inl hname.of_bracket)
    · exact .ok _
  · next hlast =>
    obtain ⟨_, heq, -⟩ := hvalues _ (List.mem_of_getLast? hlast)
    cases heq
  · exact .ok _
  · exact .ok _

theorem verifies_takeReceiver (op : Opcode) (name : Text) (s : State) :
    Verifies (takeReceiver p op name s) := by
  unfold takeReceiver
  split
  · exact .ok _
  · apply (Verifies.pop s 1).bind
    intro found _
    obtain ⟨values, t⟩ := found
    dsimp only
    split
    · split <;> exact .ok _
    · exact .ok _

/-- A sequence of moves of an instruction that is named properly fails over verification only, in a
state whose types are named properly. -/
theorem Composed.verifies {index position : Nat} {i : Instruction Label}
    {f : Program → Nat → State → Result State} (hf : Composed i f)
    (hi : p.instructions[index]? = some (position, i)) (hnamed : IsNamed i)
    (howner : IsReferenceName p.owner) {s : State} (hs : s.Each p.Names) :
    Verifies (f p index s) := by
  -- a slot is an operand that is named properly, or a numeral in the opcode
  have hslot {op : Opcode} {slot : Int} (haccess : access? i = some (op, slot)) : 0 ≤ slot := by
    cases i with
    | «variable» _ _ | increment _ _ =>
      cases haccess
      exact hnamed
    | plain op =>
      obtain ⟨found, -, hfound⟩ := Option.map_eq_some_iff.1 haccess
      cases hfound
      exact Int.natCast_nonneg _
    | _ => cases haccess
  induction hf generalizing s with
  | skip => exact .ok _
  | fail he => exact hnamed.unverified_of_refuses he
  | seq hf hk ihf ihk =>
    refine (ihf hs).bind fun t ht => ihk ?_
    exact hf.each (allows_names hi hnamed howner) hs ht
  | drop count => exact .drop s _
  | push _ => exact .ok _
  | pushDescribed hd => exact .pushTypeOf s (hnamed.describes hd)
  | create _ => exact .ok _
  | copy depth count => exact (Verifies.pop s depth).bind fun _ _ => .ok _
  | swap => exact (Verifies.pop s 2).bind fun _ _ => .ok _
  | load haccess =>
    obtain ⟨v, hv⟩ := s.exists_read (hslot haccess)
    show Verifies (_ >>= _)
    rw [hv]
    exact .ok _
  | @store op slot haccess size hsize =>
    apply (Verifies.pop s size).bind
    intro found hpop
    obtain ⟨values, t⟩ := found
    -- something has been popped, so there is a value to store
    obtain ⟨v, hv⟩ : ∃ v, values.getLast? = some v := by
      cases hlast : values.getLast? with
      | some v => exact ⟨v, rfl⟩
      | none =>
        have hlength := (State.pop_spec hpop).1
        rw [List.getLast?_eq_none_iff.1 hlast] at hlength
        exact absurd hlength (Nat.ne_of_lt hsize)
    dsimp only
    rw [hv]
    obtain ⟨u, hu⟩ := t.exists_store (hslot haccess) v
    show Verifies (t.store slot v)
    rw [hu]
    exact .ok u
  | @increment op slot haccess =>
    obtain ⟨u, hu⟩ := s.exists_store (hslot haccess) .integer
    show Verifies (s.store slot .integer)
    rw [hu]
    exact .ok u
  | element => exact verifies_loadElement hs
  | receive op name => exact verifies_takeReceiver op name s

end ClassTree.Flow
