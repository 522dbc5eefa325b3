/-
# ClassTree.Proofs.Flow.Growth — how far an instruction can extend a state

An instruction pushes at most one value more than it takes off, hence two slots, and it makes the
locals longer only by storing: up to the slot it names and the one after. So along any path the
height of the stack grows at most linearly and the locals stay within what the program names.
-/
import ClassTree.Proofs.Flow.Origin

namespace ClassTree.Flow

open Result (bind_eq_ok_iff)

/-- An effect adds at most `slots` slots to the stack and makes the locals no longer than they were
or than `reach`. -/
def GrowsBy (slots reach : Nat) (f : State → Result State) : Prop :=
  ∀ ⦃s t : State⦄, f s = .ok t →
    t.height ≤ s.height + slots ∧ t.locals.length ≤ max s.locals.length reach

/-! ## Slots -/

theorem length_slotsOf_le (v : VerificationType) : (slotsOf v).length ≤ 2 := by
  unfold slotsOf
  split <;> simp

namespace State

/-- What pops takes off, and what it leaves. -/
theorem pop_spec {s t : State} {count : Nat} {values : List VerificationType}
    (h : s.pop count = .ok (values, t)) :
    values.length = count ∧ t.height + count = s.height ∧ t.locals = s.locals := by
  unfold State.pop at h
  split at h
  · next hle =>
    cases h
    refine ⟨List.length_take_of_le hle, ?_, rfl⟩
    simp only [height, List.length_drop]
    omega
  · cases h

theorem height_push_le (s : State) (v : Option VerificationType) :
    (s.push v).height ≤ s.height + 2 := by
  cases v with
  | none => exact Nat.le_add_right _ _
  | some v =>
    have := length_slotsOf_le v
    simp only [State.push, height, List.length_append, List.length_reverse]
    omega

@[simp] theorem locals_push (s : State) (v : Option VerificationType) :
    (s.push v).locals = s.locals := by
  cases v <;> rfl

@[simp] theorem length_locals_replaceAll (s : State) (old new : VerificationType) :
    (s.replaceAll old new).locals.length = s.locals.length := by
  simp [State.replaceAll]

theorem length_put {locals found : List VerificationType} {slot : Int} {v : VerificationType}
    (h : State.put locals slot v = .ok found) : found.length = locals.length := by
  unfold State.put at h
  split at h <;> cases h
  simp

/-- Spoiling a slot keeps the number of slots. -/
theorem length_spoil {locals found : List VerificationType} {place slot : Int}
    (h : spoil locals place slot = .ok found) : found.length = locals.length := by
  obtain ⟨wide, -, h⟩ := bind_eq_ok_iff.1 h
  split at h
  · exact length_put h
  · cases h
    rfl

/-- A store makes the locals as long as the value needs, and leaves the stack alone. -/
theorem length_store {s t : State} {slot : Int} {v : VerificationType} (h : s.store slot v = .ok t) :
    t.stack = s.stack ∧ t.locals.length ≤ max s.locals.length (slot + 2).toNat := by
  have hspoil {c : Prop} [Decidable c] {locals found : List VerificationType} {place slot : Int}
      (h : (if c then spoil locals place slot else pure locals) = .ok found) :
      found.length = locals.length := by
    split at h
    · exact length_spoil h
    · cases h
      rfl
  have hslots := length_slotsOf_le v
  rw [store_eq] at h
  obtain ⟨first, hfirst, h⟩ := bind_eq_ok_iff.1 h
  obtain ⟨second, hsecond, h⟩ := bind_eq_ok_iff.1 h
  obtain ⟨third, hthird, h⟩ := bind_eq_ok_iff.1 h
  have hpadded : third.length ≤ max s.locals.length (slot + 2).toNat := by
    rw [length_put hthird, hspoil hsecond, hspoil hfirst, List.length_append,
      List.length_replicate]
    omega
  split at h
  · obtain ⟨last, hlast, h⟩ := bind_eq_ok_iff.1 h
    cases h
    exact ⟨rfl, length_put hlast ▸ hpadded⟩
  · cases h
    exact ⟨rfl, hpadded⟩

end State

/-! ## Effects -/

namespace GrowsBy

variable {n m reach : Nat}

theorem bind {f k : State → Result State} (hf : GrowsBy n reach f)
    (hk : GrowsBy m reach k) : GrowsBy (n + m) reach fun s => f s >>= k := by
  intro s t h
  obtain ⟨u, hu, ht⟩ := bind_eq_ok_iff.1 h
  have hfirst := hf hu
  have hsecond := hk ht
  omega

theorem imp {f : State → Result State} (hf : GrowsBy n reach f) (h : n ≤ m) :
    GrowsBy m reach f := by
  intro s t ht
  have := hf ht
  omega

theorem skip : GrowsBy 0 reach fun s => .ok s := by
  rintro s t ⟨⟩
  omega

theorem fail (e : Error) : GrowsBy n reach fun _ => .error e := nofun

theorem push (v : Option VerificationType) : GrowsBy 2 reach fun s => .ok (s.push v) := by
  rintro s t ⟨⟩
  refine ⟨s.height_push_le v, ?_⟩
  rw [State.locals_push]
  exact Nat.le_max_left _ _

theorem push_of (x : Result (Option VerificationType)) :
    GrowsBy 2 reach fun s => (do return s.push (← x)) := by
  cases x with
  | ok v => exact push v
  | error e => exact fail e

/-- Taking slots off the stack and going on with them: they may come back. -/
theorem pop (count : Nat) {k : List VerificationType × State → Result State}
    (hk : ∀ values, values.length = count → GrowsBy (count + n) reach fun s => k (values, s)) :
    GrowsBy n reach fun s => s.pop count >>= k := by
  intro s t h
  obtain ⟨⟨values, u⟩, hu, ht⟩ := bind_eq_ok_iff.1 h
  obtain ⟨hlength, hheight, hlocals⟩ := State.pop_spec hu
  have := hk values hlength ht
  rw [hlocals] at this
  omega

theorem drop (count : Nat) : GrowsBy 0 reach fun s => s.drop count :=
  pop count fun _ _ => skip.imp (Nat.zero_le _)

theorem replaceTop (count : Nat) (v : VerificationType) :
    GrowsBy 2 reach fun s => Flow.replaceTop s count v :=
  ((drop count).bind (push (some v))).imp (by omega)

theorem pile (values : List VerificationType) :
    GrowsBy values.length reach fun s => .ok { s with stack := values ++ s.stack } := by
  rintro s t ⟨⟩
  simp only [State.height, List.length_append]
  omega

end GrowsBy

variable {reach : Nat}

theorem growsBy_store {slot : Int} (hreach : (slot + 2).toNat ≤ reach) (v : VerificationType) :
    GrowsBy 0 reach fun s => s.store slot v := by
  intro s t h
  obtain ⟨hstack, hlocals⟩ := State.length_store h
  simp only [State.height, hstack]
  omega

/-- Storing the lowest of some slots that are popped. -/
theorem growsBy_storeLast (size : Nat) {slot : Int} (hreach : (slot + 2).toNat ≤ reach) :
    GrowsBy 0 reach fun s => s.pop size >>= fun (values, s) =>
      match values.getLast? with
      | some v => s.store slot v
      | none => throw (.undefined .index) := by
  refine .pop size fun values _ => ?_
  dsimp only
  cases values.getLast? with
  | some v => exact (growsBy_store hreach v).imp (Nat.zero_le _)
  | none => exact .fail _

/-- Accesses to locals reach to the slot they name and the one after. -/
theorem growsBy_access (op : Opcode) {slot : Int} (hreach : (slot + 2).toNat ≤ reach) :
    GrowsBy 2 reach fun s => access op slot s := by
  unfold access
  split
  · exact .push _
  · exact .push _
  · exact .push _
  · exact .push _
  · intro s t h
    obtain ⟨v, -, h⟩ := bind_eq_ok_iff.1 h
    exact GrowsBy.push _ h
  · exact (growsBy_storeLast 1 hreach).imp (Nat.zero_le _)
  · exact (growsBy_storeLast 1 hreach).imp (Nat.zero_le _)
  · exact (growsBy_storeLast 1 hreach).imp (Nat.zero_le _)
  · exact (growsBy_storeLast 2 hreach).imp (Nat.zero_le _)
  · exact (growsBy_storeLast 2 hreach).imp (Nat.zero_le _)
  · exact (growsBy_store hreach _).imp (Nat.zero_le _)
  · exact GrowsBy.skip.imp (Nat.zero_le _)

theorem growsBy_copy (depth count : Nat) : GrowsBy count reach fun s => copy depth count s := by
  refine .pop depth fun values hlength => (GrowsBy.pile _).imp ?_
  rw [List.length_append, List.length_take, hlength]
  omega

theorem le_two_of_copy? (op : Opcode) : ∀ found ∈ copy? op, found.2 ≤ 2 := by
  cases op <;> decide

theorem growsBy_swap : GrowsBy 0 reach fun s => swap s := by
  refine .pop 2 fun values hlength => (GrowsBy.pile _).imp ?_
  exact Nat.le_of_eq (List.length_reverse.trans hlength)

theorem growsBy_loadElement : GrowsBy 2 reach fun s => loadElement s := by
  refine .pop 2 fun values _ => GrowsBy.imp (n := 2) ?_ (by omega)
  dsimp only
  split
  · split
    · exact .push_of _
    · exact .push _
  · exact .fail _
  · exact .push _
  · exact .push _

theorem growsBy_accessField (op : Opcode) (descriptor : Text) :
    GrowsBy 2 reach fun s => accessField op descriptor s := by
  unfold accessField
  split
  · exact .push_of _
  · exact (GrowsBy.drop _).imp (Nat.zero_le _)
  · exact ((GrowsBy.drop 1).bind (.push_of _)).imp (by omega)
  · exact (GrowsBy.drop _).imp (Nat.zero_le _)

variable (p : Program)

theorem length_locals_construct (receiver : VerificationType) (s : State) :
    (construct p receiver s).locals.length = s.locals.length := by
  unfold construct
  split <;> simp

theorem growsBy_takeReceiver (op : Opcode) (name : Text) :
    GrowsBy 0 reach fun s => takeReceiver p op name s := by
  by_cases hop : op = .invokestatic
  · simp only [takeReceiver, hop, if_true]
    exact .skip
  · simp only [takeReceiver, if_neg hop]
    refine .pop 1 fun values _ => ?_
    intro s t h
    dsimp only at h
    split at h
    · split at h <;> cases h
      · rw [height_construct, length_locals_construct]
        omega
      · omega
    · cases h
      omega

theorem growsBy_call (op : Opcode) (name descriptor : Text) :
    GrowsBy 2 reach fun s => call p op name descriptor s := by
  unfold call
  cases Descriptor.split descriptor with
  | error e => exact .fail e
  | ok parts =>
    exact ((GrowsBy.drop _).bind ((growsBy_takeReceiver p op name).bind (.push_of _))).imp (by omega)

theorem growsBy_aboutType (op : Opcode) (name : Option Text) (index : Nat) :
    GrowsBy 2 reach fun s => aboutType op name index s := by
  unfold aboutType
  split
  · exact .push _
  · cases name with
    | none => exact ((GrowsBy.drop 1).bind (.fail (n := 2) _)).imp (by omega)
    | some n => exact ((GrowsBy.drop 1).bind (.push (some _))).imp (by omega)
  · exact .replaceTop 1 _
  · exact .replaceTop 1 _

theorem growsBy_shapeEffect (index : Nat) (i : Instruction Label) :
    GrowsBy 2 reach fun s => shapeEffect p index i s := by
  unfold shapeEffect
  split
  · exact .replaceTop 1 _
  · exact .push _
  · exact .push _
  · unfold jump
    split
    · exact .push _
    · exact (GrowsBy.drop _).imp (Nat.zero_le _)
  · exact (GrowsBy.drop 1).imp (Nat.zero_le _)
  · exact (GrowsBy.drop 1).imp (Nat.zero_le _)
  · exact growsBy_accessField _ _
  · exact growsBy_call p _ _ _
  · exact growsBy_call p _ _ _
  · exact growsBy_aboutType _ _ _
  · intro s t h
    exact GrowsBy.replaceTop _ _ h
  · exact .fail _
  · exact GrowsBy.skip.imp (Nat.zero_le _)
  · exact GrowsBy.skip.imp (Nat.zero_le _)

theorem length_fixedEffect?_le (op : Opcode) :
    ∀ found ∈ fixedEffect? op, found.2.length ≤ 1 := by
  cases op <;> decide

/-- The locals that an instruction may fill, the second slot of a wide value included. -/
def reachOf (i : Instruction Label) : Nat := (access? i).elim 0 fun (_, slot) => (slot + 2).toNat

/-- Every instruction adds at most two slots, and locals only as far as it reaches. -/
theorem growsBy_effect (index : Nat) {i : Instruction Label} (hreach : reachOf i ≤ reach) :
    GrowsBy 2 reach fun s => effect p index i s := by
  unfold effect
  split
  · next count pushed hfixed =>
    refine GrowsBy.imp ((GrowsBy.drop count).bind (m := 2) ?_) (by omega)
    have hlength := length_fixedEffect?_le i.opcode _ hfixed
    match pushed, hlength with
    | [], _ => exact GrowsBy.skip.imp (Nat.zero_le _)
    | [v], _ => exact .push (some v)
  · split
    · next op slot haccess =>
      refine growsBy_access op ?_
      simpa [reachOf, haccess] using hreach
    · split
      · exact growsBy_loadElement
      · split
        · exact growsBy_swap.imp (Nat.zero_le _)
        · split
          · next depth count hcopy =>
            exact (growsBy_copy depth count).imp (le_two_of_copy? i.opcode _ hcopy)
          · exact growsBy_shapeEffect p index i

end ClassTree.Flow
