/-
# ClassTree.Proofs.Flow.Pairing — wide locals keep both their slots

A long or a double in the locals is followed by a top, which is its second slot. A store may hit
either half of such a pair, a merge may degrade one slot and leave the next, and what is stored may
be half of a value that was split on the stack. In none of these cases a wide type is left without
its top: a slot that becomes top never breaks a pair, and a store clears the wide type in front of
it before it sets its own slots.

So listing values instead of slots loses nothing: the second slots can be put back.
-/
import ClassTree.Flow.Frames
import ClassTree.Proofs.Flow.Composition
import ClassTree.Proofs.Flow.Growth
import ClassTree.Proofs.Flow.Moment
import Mathlib.Data.List.TakeWhile

namespace ClassTree.Flow

open Result (bind_eq_ok_iff)

/-- Every wide type is followed by a top. -/
def IsPaired (slots : List VerificationType) : Prop :=
  ∀ ⦃j : Nat⦄ ⦃v : VerificationType⦄, slots[j]? = some v → v.isWide = true →
    slots[j + 1]? = some .top

/-! ## Lists of slots -/

theorem isPaired_nil : IsPaired [] := nofun

/-- A list is paired if its first type is and the rest is. -/
theorem isPaired_cons {v : VerificationType} {slots : List VerificationType}
    (hslots : IsPaired slots) (hv : v.isWide = true → slots[0]? = some .top) :
    IsPaired (v :: slots) := by
  intro j w hj hw
  cases j with
  | zero =>
    rw [List.getElem?_cons_zero] at hj
    cases hj
    exact hv hw
  | succ j =>
    rw [List.getElem?_cons_succ] at hj
    exact hslots hj hw

theorem IsPaired.tail {v : VerificationType} {slots : List VerificationType}
    (h : IsPaired (v :: slots)) : IsPaired slots := fun _ _ hj hw => h (by simpa using hj) hw

/-- The slots of a value in front of paired slots. -/
theorem IsPaired.slotsOf_append {slots : List VerificationType} (h : IsPaired slots)
    (v : VerificationType) : IsPaired (slotsOf v ++ slots) := by
  have htop : IsPaired (.top :: slots) := isPaired_cons h fun hwide => absurd hwide Bool.false_ne_true
  unfold slotsOf
  split
  · exact isPaired_cons htop fun _ => rfl
  · next hnarrow => exact isPaired_cons h fun hwide => absurd hwide hnarrow

theorem IsPaired.append_tops {slots : List VerificationType} (h : IsPaired slots) (count : Nat) :
    IsPaired (slots ++ List.replicate count .top) := by
  intro j v hj hv
  rw [List.getElem?_append] at hj
  split at hj
  · have hnext := h hj hv
    rw [List.getElem?_append_left (List.getElem?_eq_some_iff.1 hnext).1]
    exact hnext
  · -- a top is not wide
    obtain rfl := List.eq_of_mem_replicate (List.mem_of_getElem? hj)
    cases hv

/-- A slot that becomes top breaks no pair. -/
theorem IsPaired.set_top {slots : List VerificationType} (h : IsPaired slots) (n : Nat) :
    IsPaired (slots.set n .top) := by
  intro j v hj hv
  have hold : slots[j]? = some v := by
    rw [List.getElem?_set] at hj
    split at hj
    · split at hj <;> cases hj
      cases hv
    · exact hj
  have hnext := h hold hv
  rw [List.getElem?_set]
  split
  · next heq => rw [if_pos (heq ▸ (List.getElem?_eq_some_iff.1 hnext).1)]
  · exact hnext

/-- A slot may be set if no wide type stands in front of it and the next slot is top where it has to
be. -/
theorem IsPaired.set {slots : List VerificationType} (h : IsPaired slots) {n : Nat}
    {v : VerificationType} (hfront : ∀ j w, j + 1 = n → slots[j]? = some w → w.isWide = false)
    (hnext : v.isWide = true → slots[n + 1]? = some .top) : IsPaired (slots.set n v) := by
  intro j w hj hw
  rw [List.getElem?_set] at hj
  split at hj
  · next heq =>
    split at hj <;> cases hj
    subst heq
    rw [List.getElem?_set_ne (Nat.ne_of_lt (Nat.lt_succ_self n))]
    exact hnext hw
  · next hne =>
    have hfree : n ≠ j + 1 := by
      intro heq
      rw [hfront j w heq.symm hj] at hw
      cases hw
    rw [List.getElem?_set_ne hfree]
    exact h hj hw

/-- Slots that are merged stay paired: only equal types merge to a wide one. -/
theorem IsPaired.merge {a b : List VerificationType} (ha : IsPaired a) (hb : IsPaired b) :
    IsPaired (List.zipWith mergeLocal a b) := by
  have hwide {x y : VerificationType} (h : (mergeLocal x y).isWide = true) :
      x.isWide = true ∧ y.isWide = true := by
    unfold mergeLocal mergeType? at h
    cases x <;> cases y <;> simp_all [VerificationType.isWide, isReference, instanceOf] <;>
      split at h <;> simp_all
  intro j v hj hv
  obtain ⟨x, y, hx, hy, rfl⟩ := List.getElem?_zipWith_eq_some.1 hj
  obtain ⟨hxw, hyw⟩ := hwide hv
  rw [List.getElem?_zipWith, ha hx hxw, hb hy hyw]
  rfl

/-- Slots stay paired when a type that is no slot of a wide value is exchanged for another one. -/
theorem IsPaired.map {slots : List VerificationType} (h : IsPaired slots)
    {f : VerificationType → VerificationType} (htop : f .top = .top)
    (hf : ∀ v, (f v).isWide = true → v.isWide = true) : IsPaired (slots.map f) := by
  intro j v hj hv
  rw [List.getElem?_map] at hj ⊢
  obtain ⟨w, hw, rfl⟩ := Option.map_eq_some_iff.1 hj
  rw [h hw (hf w hv)]
  exact congrArg some htop

/-! ## Stores -/

namespace State

/-- A place that is counted from the beginning. -/
theorem place?_natCast (length n : Nat) :
    place? length (n : Int) = if n < length then some n else none := by
  have hn : ¬((n : Int) < 0) := by omega
  unfold place?
  simp only [if_neg hn, Int.toNat_natCast]
  by_cases hlt : n < length
  · rw [if_pos hlt, if_pos (by omega)]
  · rw [if_neg hlt, if_neg (by omega)]

/-- Setting a slot that is counted from the beginning. -/
theorem put_eq_ok {slots found : List VerificationType} {n : Nat} {v : VerificationType}
    (h : put slots (n : Int) v = .ok found) : n < slots.length ∧ found = slots.set n v := by
  unfold put at h
  rw [place?_natCast] at h
  by_cases hlt : n < slots.length
  · rw [if_pos hlt] at h
    cases h
    exact ⟨hlt, rfl⟩
  · rw [if_neg hlt] at h
    cases h

/-- The width of a slot that is counted from the beginning. -/
theorem isWideAt_eq_ok {slots : List VerificationType} {n : Nat} {wide : Bool}
    (h : isWideAt slots (n : Int) = .ok wide) : ∃ v, slots[n]? = some v ∧ wide = v.isWide := by
  unfold isWideAt at h
  rw [place?_natCast] at h
  by_cases hlt : n < slots.length
  · rw [if_pos hlt, Option.bind_some, List.getElem?_eq_getElem hlt] at h
    cases h
    exact ⟨slots[n], List.getElem?_eq_getElem hlt, rfl⟩
  · rw [if_neg hlt] at h
    cases h

/-- Spoiling sets a slot to top, or nothing where no wide type stands. -/
theorem spoil_eq_ok {slots found : List VerificationType} {place slot : Nat}
    (h : spoil slots (place : Int) (slot : Int) = .ok found) :
    found = slots.set slot .top ∨
      found = slots ∧ ∀ v, slots[place]? = some v → v.isWide = false := by
  obtain ⟨wide, hwide, h⟩ := bind_eq_ok_iff.1 h
  obtain ⟨v, hv, rfl⟩ := isWideAt_eq_ok hwide
  split at h
  · exact .inl (put_eq_ok h).2
  · next hnarrow =>
    cases h
    refine .inr ⟨rfl, ?_⟩
    intro w hw
    obtain rfl : v = w := Option.some.inj (hv.symm.trans hw)
    simpa using hnarrow

end State

/-- A slot that may have been spoilt: no pair is broken, and nothing has become wide. -/
theorem IsPaired.spoil {slots found : List VerificationType} {place slot : Nat}
    (hslots : IsPaired slots) (h : State.spoil slots (place : Int) (slot : Int) = .ok found) :
    IsPaired found ∧ ∀ (j : Nat) (v : VerificationType), found[j]? = some v → v.isWide = true →
      slots[j]? = some v := by
  rcases State.spoil_eq_ok h with rfl | ⟨rfl, -⟩
  · refine ⟨hslots.set_top slot, ?_⟩
    intro j v hj hv
    rw [List.getElem?_set] at hj
    split at hj
    · split at hj <;> cases hj
      cases hv
    · exact hj
  · exact ⟨hslots, fun _ _ hj _ => hj⟩

/-- The first step of a store clears a wide type in front of the slot. -/
theorem IsPaired.clear {slots found : List VerificationType} {n : Nat} (hslots : IsPaired slots)
    (h : (if 0 < (n : Int) then State.spoil slots ((n : Int) - 1) ((n : Int) - 1) else pure slots) =
      .ok found) :
    IsPaired found ∧ ∀ j v, j + 1 = n → found[j]? = some v → v.isWide = false := by
  cases n with
  | zero =>
    cases h
    exact ⟨hslots, fun j _ hj => absurd hj (Nat.succ_ne_zero j)⟩
  | succ k =>
    have hplace : ((k + 1 : Nat) : Int) - 1 = (k : Int) := by omega
    rw [if_pos (by omega), hplace] at h
    refine ⟨(hslots.spoil h).1, ?_⟩
    rintro j v ⟨⟩ hj
    rcases State.spoil_eq_ok h with rfl | ⟨rfl, hnarrow⟩
    · rw [List.getElem?_set_self'] at hj
      obtain ⟨-, -, rfl⟩ := Option.map_eq_some_iff.1 hj
      rfl
    · exact hnarrow v hj

/-- The second step of a store clears what follows on the slots that are stored. -/
theorem IsPaired.clearAfter {slots found : List VerificationType} {n : Nat} {after : Int}
    (hafter : 1 ≤ after) (hslots : IsPaired slots)
    (hfront : ∀ j v, j + 1 = n → slots[j]? = some v → v.isWide = false)
    (h : (if after < slots.length then State.spoil slots (after - 1) after else pure slots) =
      .ok found) :
    IsPaired found ∧ ∀ j v, j + 1 = n → found[j]? = some v → v.isWide = false := by
  split at h
  · obtain ⟨k, rfl⟩ : ∃ k : Nat, after = ((k + 1 : Nat) : Int) := ⟨(after - 1).toNat, by omega⟩
    have hplace : ((k + 1 : Nat) : Int) - 1 = (k : Int) := by omega
    rw [hplace] at h
    obtain ⟨hfound, hsame⟩ := hslots.spoil h
    refine ⟨hfound, ?_⟩
    intro j v hj hv
    by_contra hwide
    rw [Bool.not_eq_false] at hwide
    rw [hfront j v hj (hsame j v hv hwide)] at hwide
    cases hwide
  · cases h
    exact ⟨hslots, hfront⟩

theorem isPaired_of_store {s t : State} {slot : Int} {v : VerificationType}
    (hs : IsPaired s.locals) (hslot : 0 ≤ slot) (h : s.store slot v = .ok t) :
    IsPaired t.locals := by
  obtain ⟨n, rfl⟩ := Int.eq_ofNat_of_zero_le hslot
  rw [State.store_eq] at h
  obtain ⟨first, hfirst, h⟩ := bind_eq_ok_iff.1 h
  obtain ⟨second, hsecond, h⟩ := bind_eq_ok_iff.1 h
  obtain ⟨third, hthird, h⟩ := bind_eq_ok_iff.1 h
  have hsize : 1 ≤ (slotsOf v).length := by
    unfold slotsOf
    split <;> simp
  obtain ⟨hpaired, hfront⟩ := (hs.append_tops _).clear hfirst
  obtain ⟨hpaired, hfront⟩ := hpaired.clearAfter (by omega) hfront hsecond
  obtain ⟨-, rfl⟩ := State.put_eq_ok hthird
  split at h
  · -- a wide value: its second slot is set to top after the first one
    obtain ⟨last, hlast, h⟩ := bind_eq_ok_iff.1 h
    cases h
    have hnext : (n : Int) + 1 = ((n + 1 : Nat) : Int) := by omega
    rw [hnext] at hlast
    obtain ⟨hlt, rfl⟩ := State.put_eq_ok hlast
    show IsPaired ((second.set n v).set (n + 1) .top)
    rw [List.set_comm _ _ (Nat.ne_of_lt (Nat.lt_succ_self n))]
    rw [List.length_set] at hlt
    refine (hpaired.set_top (n + 1)).set ?_ ?_
    · intro j w hj hw
      refine hfront j w hj ?_
      rwa [List.getElem?_set_ne (by omega)] at hw
    · intro _
      exact List.getElem?_set_self hlt
  · next hnarrow =>
    cases h
    refine hpaired.set hfront ?_
    intro hwide
    unfold slotsOf at hnarrow
    rw [if_pos hwide] at hnarrow
    exact absurd rfl hnarrow

/-! ## Effects -/

/-- Taking slots off the stack does not touch the locals. -/
theorem IsPaired.pop {s u : State} (hs : IsPaired s.locals) {count : Nat}
    {values : List VerificationType} (h : s.pop count = .ok (values, u)) : IsPaired u.locals := by
  rw [(State.pop_spec h).2.2]
  exact hs

/-- The call of a constructor keeps locals paired. -/
theorem isPaired_construct {p : Program} {s : State} (hs : IsPaired s.locals)
    (receiver : VerificationType) : IsPaired (construct p receiver s).locals := by
  have hexchange {old new : VerificationType} (hold : old ≠ .top) (hnew : new.isWide = false) :
      IsPaired (s.replaceAll old new).locals := by
    refine hs.map (if_neg hold.symm) ?_
    intro v hv
    split at hv
    · rw [hnew] at hv
      cases hv
    · exact hv
  unfold construct
  split
  · exact hexchange (by rintro ⟨⟩) rfl
  · exact hexchange (by rintro ⟨⟩) rfl
  · exact hs

/-- A sequence of moves keeps locals paired if no slot counts from the end. -/
theorem Composed.isPaired {i : Instruction Label} {f : Program → Nat → State → Result State}
    (hf : Composed i f) (hslots : ∀ op slot, access? i = some (op, slot) → 0 ≤ slot) {p : Program}
    {n : Nat} {s t : State} (hs : IsPaired s.locals) (h : f p n s = .ok t) :
    IsPaired t.locals := by
  induction hf generalizing s t with
  -- only stores and constructions change locals, the other moves hand them on
  | skip | push _ | create _ =>
    cases h
    exact hs
  | fail _ => cases h
  | seq _ _ ihf ihk =>
    obtain ⟨u, hu, h⟩ := bind_eq_ok_iff.1 h
    exact ihk (ihf hs hu) h
  | drop count =>
    obtain ⟨⟨values, u⟩, hu, h⟩ := bind_eq_ok_iff.1 h
    cases h
    exact hs.pop hu
  | pushDescribed _ =>
    obtain ⟨v, -, h⟩ := bind_eq_ok_iff.1 h
    cases h
    rw [State.locals_push]
    exact hs
  | copy _ _ | swap =>
    obtain ⟨⟨values, u⟩, hu, h⟩ := bind_eq_ok_iff.1 h
    cases h
    show IsPaired u.locals
    exact hs.pop hu
  | load _ =>
    obtain ⟨v, -, h⟩ := bind_eq_ok_iff.1 h
    cases h
    exact hs
  | @store op slot hslot size _ =>
    obtain ⟨⟨values, u⟩, hu, h⟩ := bind_eq_ok_iff.1 h
    have hpaired := hs.pop hu
    dsimp only at h
    split at h
    · exact isPaired_of_store hpaired (hslots op slot hslot) h
    · cases h
  | @increment op slot hslot => exact isPaired_of_store hs (hslots op slot hslot) h
  | element =>
    obtain ⟨⟨values, u⟩, hu, h⟩ := bind_eq_ok_iff.1 h
    have hpaired := hs.pop hu
    dsimp only at h
    split at h
    · split at h
      · obtain ⟨v, -, h⟩ := bind_eq_ok_iff.1 h
        cases h
        rw [State.locals_push]
        exact hpaired
      · cases h
        exact hpaired
    · cases h
    · cases h
      exact hpaired
    · cases h
      exact hpaired
  | receive op name =>
    unfold takeReceiver at h
    split at h
    · cases h
      exact hs
    · obtain ⟨⟨values, u⟩, hu, h⟩ := bind_eq_ok_iff.1 h
      have hpaired := hs.pop hu
      dsimp only at h
      split at h
      · split at h <;> cases h
        · exact isPaired_construct hpaired _
        · exact hpaired
      · cases h
        exact hpaired

/-! ## Every moment -/

theorem isPaired_flatten_slotsOf (values : List VerificationType) :
    IsPaired (values.map slotsOf).flatten := by
  induction values with
  | nil => exact isPaired_nil
  | cons v rest ih => exact ih.slotsOf_append v

/-- The slots of the arguments are those of one value after another. -/
theorem exists_of_argumentSlots {types : List Text} {slots : List VerificationType}
    (hslots : Program.argumentSlots types = .ok slots) :
    ∃ values : List VerificationType, slots = (values.map slotsOf).flatten := by
  obtain ⟨parts, hparts, h⟩ := bind_eq_ok_iff.1 hslots
  cases h
  clear hslots
  rw [Result.mapM_eq_ok_iff] at hparts
  induction hparts with
  | nil => exact ⟨[], rfl⟩
  | @cons type part types parts hpart _ ih =>
    obtain ⟨values, hvalues⟩ := ih
    obtain ⟨found, -, hpart⟩ := bind_eq_ok_iff.1 hpart
    cases found with
    | none => cases hpart
    | some v =>
      cases hpart
      refine ⟨v :: values, ?_⟩
      rw [List.flatten_cons, List.map_cons, List.flatten_cons, hvalues]

/-- The locals at the beginning of a method are paired. -/
theorem isPaired_of_entryLocals {p : Program} {locals : List VerificationType}
    (h : p.entryLocals = .ok locals) : IsPaired locals := by
  obtain ⟨types, -, h⟩ := bind_eq_ok_iff.1 h
  obtain ⟨slots, hslots, h⟩ := bind_eq_ok_iff.1 h
  cases h
  obtain ⟨values, rfl⟩ := exists_of_argumentSlots hslots
  have harguments := isPaired_flatten_slotsOf values
  unfold Program.receiverSlots
  split
  · exact harguments
  · split
    · exact isPaired_cons harguments fun hwide => absurd hwide Bool.false_ne_true
    · exact isPaired_cons harguments fun hwide => absurd hwide Bool.false_ne_true

variable {p : Program}

/-- No instruction of a program counts a local from the end. -/
def Program.CountsForward (p : Program) : Prop :=
  ∀ ⦃index position : Nat⦄ ⦃i : Instruction Label⦄, p.instructions[index]? = some (position, i) →
    ∀ op slot, access? i = some (op, slot) → 0 ≤ slot

/-- That locals are paired is an annotation of every program that counts forward. -/
theorem annotates_isPaired (hp : p.CountsForward) :
    Annotates p (fun _ s => IsPaired s.locals) (fun _ s => IsPaired s.locals) where
  entry := isPaired_of_entryLocals
  merge := by
    intro index known incoming merged hknown hincoming hmerge
    obtain ⟨-, hlocals, -⟩ := State.merge_eq_ok_iff.1 hmerge
    rw [hlocals]
    exact hknown.merge hincoming
  handler := by
    intro r index here _ _ _ hhere
    exact hhere
  effect := by
    intro index position i here out hi _ hhere hout
    exact (composed_effect i).isPaired (hp hi) hhere hout
  edge := by
    intro index position i out targets target _ _ _ hout
    exact hout

/-! ## Values for slots -/

/-- Putting back the second slots undoes listing values; the induction is on the recursion that
lists them, with the values found so far put back in front. -/
theorem flatMap_slotsOf_valuesOnto {slots acc : List VerificationType} (h : IsPaired slots) :
    (valuesOnto slots acc).flatMap slotsOf = acc.reverse.flatMap slotsOf ++ slots := by
  induction slots, acc using valuesOnto.induct with
  | case1 acc => simp [valuesOnto]
  | case2 v acc =>
    have hnarrow : ¬v.isWide = true := by
      intro hwide
      cases h (j := 0) rfl hwide
    simp [valuesOnto, slotsOf, hnarrow]
  | case3 v w rest acc hwide ih =>
    have hw : w = .top := by
      have := h (j := 0) rfl hwide
      simpa using this
    rw [valuesOnto, if_pos hwide, ih h.tail.tail]
    simp [slotsOf, hwide, hw]
  | case4 v w rest acc hnarrow ih =>
    rw [valuesOnto, if_neg hnarrow, ih h.tail]
    simp [slotsOf, hnarrow]

theorem trim_append_tops (slots : List VerificationType) (count : Nat) :
    trim (slots ++ List.replicate count .top) = trim slots := by
  unfold trim
  rw [List.reverse_append, List.reverse_replicate]
  congr 1
  induction count with
  | zero => rfl
  | succ count ih => rw [List.replicate_succ, List.cons_append, List.dropWhile_cons_of_pos rfl, ih]

theorem exists_trim_append_tops (slots : List VerificationType) :
    ∃ count, trim slots ++ List.replicate count .top = slots := by
  obtain ⟨count, hcount⟩ : ∃ count, slots.reverse.takeWhile (· = .top) =
      List.replicate count .top := by
    refine ⟨_, List.eq_replicate_iff.2 ⟨rfl, ?_⟩⟩
    intro v hv
    simpa using List.mem_takeWhile_imp hv
  refine ⟨count, ?_⟩
  have hsplit :=
    List.takeWhile_append_dropWhile (p := (· = VerificationType.top)) (l := slots.reverse)
  rw [hcount] at hsplit
  have hreverse := congrArg List.reverse hsplit
  rwa [List.reverse_append, List.reverse_replicate, List.reverse_reverse] at hreverse

/-- Paired locals are determined by their values up to tops at the end. -/
theorem trim_flatMap_slotsOf_localValues {locals : List VerificationType} (h : IsPaired locals) :
    trim ((localValues locals).flatMap slotsOf) = trim locals := by
  have hvalues : (values locals).flatMap slotsOf = locals := flatMap_slotsOf_valuesOnto h
  have htops (count : Nat) : (List.replicate count VerificationType.top).flatMap slotsOf =
      List.replicate count VerificationType.top := by
    induction count with
    | zero => rfl
    | succ count ih =>
      rw [List.replicate_succ, List.flatMap_cons, ih]
      rfl
  obtain ⟨count, hcount⟩ := exists_trim_append_tops (values locals)
  calc trim ((localValues locals).flatMap slotsOf)
      = trim ((localValues locals).flatMap slotsOf ++ List.replicate count .top) :=
        (trim_append_tops _ _).symm
    _ = trim ((localValues locals ++
          List.replicate count VerificationType.top).flatMap slotsOf) := by
        rw [List.flatMap_append, htops]
    _ = trim locals := by
        rw [localValues, hcount, hvalues]

/-! ## The analysis of a method -/

/-- In every state that the analysis of a method records, at whatever moment, the wide locals are
paired. So the values of the locals give them back up to tops at the end, and locals with the same
values are the same up to tops at the end. -/
theorem isPaired_of_occurs {owner : Text} {m : Method} (hp : Program.ofMethod owner m = .ok p)
    (hslots : ∀ i, .instruction i ∈ m.body → ∀ op slot, access? i = some (op, slot) → 0 ≤ slot)
    {s : Solver} {task : Task} (h : Occurs p s task) {index : Nat} {known : State}
    (hknown : s.states[index]? = some (some known)) :
    IsPaired known.locals ∧
      trim ((localValues known.locals).flatMap slotsOf) = trim known.locals ∧
      ∀ (t : Solver) (task' : Task) (other : Nat) (found : State), Occurs p t task' →
        t.states[other]? = some (some found) →
        localValues found.locals = localValues known.locals →
        trim found.locals = trim known.locals := by
  have hforward : p.CountsForward := fun _ _ i hi => hslots i (mem_body_of_ofMethod hp hi)
  have ha := annotates_isPaired hforward
  have hpaired : IsPaired known.locals := (ha.holdsAt h).known hknown
  refine ⟨hpaired, trim_flatMap_slotsOf_localValues hpaired, ?_⟩
  intro t task' other found ht hfound heq
  have hother : IsPaired found.locals := (ha.holdsAt ht).known hfound
  calc trim found.locals
      = trim ((localValues found.locals).flatMap slotsOf) :=
        (trim_flatMap_slotsOf_localValues hother).symm
    _ = trim ((localValues known.locals).flatMap slotsOf) := by rw [heq]
    _ = trim known.locals := trim_flatMap_slotsOf_localValues hpaired

/-- A method that stores a long. -/
def longMethod : Method where
  access := 0x8
  name := "f"
  descriptor := "()V"
  body := [.instruction (.plain .lconst_0), .instruction (.variable .lstore 1),
    .instruction (.plain .return_)]

/-- The program of the method that stores a long. -/
def longProgram : Program where
  owner := "A"
  method := longMethod
  instructions := #[(0, .plain .lconst_0), (1, .variable .lstore 1), (2, .plain .return_)]
  indexOf := {}
  regions := []

/-- The states of the method that stores a long. -/
def longSolver : Solver where
  states := #[some ⟨[], []⟩, some ⟨[], [.top, .long]⟩, some ⟨[.top, .long, .top], []⟩]
  pending := []
  maxStack := 2

/-- The analysis of the method that stores a long. -/
theorem run_longProgram : Solver.run longProgram = .ok longSolver := by
  have hentry : longProgram.entryLocals = .ok [] := entryLocals_of_static rfl rfl
  unfold Solver.run
  rw [hentry]
  show Solver.solve longProgram ⟨#[some ⟨[], []⟩, none, none], [0], 0⟩ = .ok longSolver
  rw [Solver.solve_of_visit
      (t := ⟨#[some ⟨[], []⟩, some ⟨[], [.top, .long]⟩, none], [1], 2⟩) rfl rfl,
    Solver.solve_of_visit (t := { longSolver with pending := [2] }) rfl rfl,
    Solver.solve_of_visit (t := longSolver) rfl rfl, Solver.solve_of_nil rfl]

/-- The long that is stored is paired, and its values are put back. -/
theorem isPaired_longSolver :
    Program.ofMethod "A" longMethod = .ok longProgram ∧ Occurs longProgram longSolver .choose ∧
      longSolver.states[2]? = some (some ⟨[.top, .long, .top], []⟩) ∧
      trim ((localValues [.top, .long, .top]).flatMap slotsOf) = trim [.top, .long, .top] := by
  have hp : Program.ofMethod "A" longMethod = .ok longProgram := rfl
  have hoccurs : Occurs longProgram longSolver .choose :=
    occurs_of_run (by decide) run_longProgram
  have hknown : longSolver.states[2]? = some (some ⟨[.top, .long, .top], []⟩) := rfl
  refine ⟨hp, hoccurs, hknown, (isPaired_of_occurs hp ?_ hoccurs hknown).2.1⟩
  intro i hi op slot hslot
  simp only [longMethod, List.mem_cons, List.not_mem_nil, or_false, Item.instruction.injEq] at hi
  rcases hi with rfl | rfl | rfl <;> cases hslot
  decide

end ClassTree.Flow
