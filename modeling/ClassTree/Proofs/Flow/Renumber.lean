/-
# ClassTree.Proofs.Flow.Renumber — the numbers of objects are names

The number in an uninitialized type says which object it is. An effect may pass such a type on,
compare it with another one or look up the class of its object, and does nothing else with the
number. So it does not matter which numbers the objects have, as long as different objects have
different ones and the program has their classes at these numbers: an effect commutes with every
renumbering of that kind.
-/
import ClassTree.Proofs.Flow.Origin

namespace ClassTree

/-- A chain whose first step is seen through a map is the chain seen through a map if its second
step is. -/
theorem Result.map_bind_eq {ε α α' β β' : Type} {x : Except ε α} {g : α → α'} {h : β → β'}
    {k : α → Except ε β} {k' : α' → Except ε β'} (hk : ∀ a, x = .ok a → k' (g a) = (k a).map h) :
    x.map g >>= k' = (x >>= k).map h := by
  cases x with
  | error e => rfl
  | ok a => exact hk a rfl

namespace Flow

open Result (bind_eq_ok_iff map_bind_eq)

/-- Gives an uninitialized object another number. -/
def renumberType (f : Nat → Nat) : VerificationType → VerificationType
  | .uninitialized (.position n) => .uninitialized (.position (f n))
  | v => v

/-- Gives the uninitialized objects of a state other numbers. -/
def State.renumber (f : Nat → Nat) (s : State) : State :=
  ⟨s.locals.map (renumberType f), s.stack.map (renumberType f)⟩

/-- The type is no object with a number, or one whose number is allowed. -/
def IsNumberedIn (numbers : Nat → Prop) (v : VerificationType) : Prop :=
  ∀ n, v = .uninitialized (.position n) → numbers n

/-! ## Types -/

section Types

variable (f : Nat → Nat)

theorem renumberType_of_forall_ne {v : VerificationType}
    (h : ∀ n, v ≠ .uninitialized (.position n)) : renumberType f v = v := by
  unfold renumberType
  split
  · exact absurd rfl (h _)
  · rfl

theorem renumberType_eq_top_iff {v : VerificationType} : renumberType f v = .top ↔ v = .top := by
  unfold renumberType
  split
  · constructor <;> rintro ⟨⟩
  · exact Iff.rfl

/-- Only an uninitialized object becomes one with a number. -/
theorem renumberType_eq_position {v : VerificationType} {n : Nat}
    (h : renumberType f v = .uninitialized (.position n)) :
    ∃ k, v = .uninitialized (.position k) ∧ f k = n := by
  unfold renumberType at h
  split at h
  · cases h
    exact ⟨_, rfl, rfl⟩
  · next hne => exact absurd h (hne n)

theorem isWide_renumberType (v : VerificationType) : (renumberType f v).isWide = v.isWide := by
  unfold renumberType
  split <;> rfl

theorem slotsOf_renumberType (v : VerificationType) :
    slotsOf (renumberType f v) = (slotsOf v).map (renumberType f) := by
  unfold slotsOf
  rw [isWide_renumberType]
  split <;> rfl

theorem renumberType_of_typeOf {descriptor : Text} {v : VerificationType}
    (h : typeOf descriptor = .ok (some v)) : renumberType f v = v := by
  refine renumberType_of_forall_ne f ?_
  rintro n rfl
  exact isInitial_of_typeOf h

theorem renumberType_of_pushes {i : Instruction Label} {v : VerificationType} (h : Pushes i v) :
    renumberType f v = v := by
  refine renumberType_of_forall_ne f ?_
  rintro n rfl
  exact h.isInitialized

end Types

/-! ## States -/

namespace State

section

variable (f : Nat → Nat)

theorem renumber_push (s : State) (v : VerificationType) :
    (s.push (some v)).renumber f = (s.renumber f).push (some (renumberType f v)) := by
  simp only [renumber, push, List.map_append, List.map_reverse, slotsOf_renumberType]

theorem renumber_push_of {s : State} {v : Option VerificationType}
    (hv : ∀ w, v = some w → renumberType f w = w) :
    (s.push v).renumber f = (s.renumber f).push v := by
  cases v with
  | none => rfl
  | some w => rw [renumber_push, hv w rfl]

theorem pop_renumber (s : State) (count : Nat) : (s.renumber f).pop count =
    (s.pop count).map (Prod.map (List.map (renumberType f)) (renumber f)) := by
  unfold pop
  by_cases hle : count ≤ s.stack.length
  · rw [if_pos hle, if_pos (by simpa [renumber] using hle)]
    simp [renumber, Except.map, Prod.map]
  · rw [if_neg hle, if_neg (by simpa [renumber] using hle)]
    simp [renumber, Except.map]

/-- Taking slots off the stack and going on. -/
theorem pop_renumber_bind (s : State) (count : Nat)
    {k k' : List VerificationType × State → Result State}
    (hk : ∀ values t, s.pop count = .ok (values, t) →
      k' (values.map (renumberType f), t.renumber f) = (k (values, t)).map (renumber f)) :
    (s.renumber f).pop count >>= k' = (s.pop count >>= k).map (renumber f) := by
  rw [pop_renumber]
  refine map_bind_eq ?_
  rintro ⟨values, t⟩ hpop
  exact hk values t hpop

theorem drop_renumber (s : State) (count : Nat) :
    (s.renumber f).drop count = (s.drop count).map (renumber f) :=
  pop_renumber_bind f s count fun _ _ _ => rfl

theorem read_renumber (s : State) (slot : Int) :
    (s.renumber f).read slot = (s.read slot).map (renumberType f) := by
  have hlength : (s.renumber f).locals.length = s.locals.length := List.length_map _
  unfold read
  rw [hlength]
  by_cases hbeyond : s.locals.length ≤ slot
  · rw [if_pos hbeyond, if_pos hbeyond]
    rfl
  · rw [if_neg hbeyond, if_neg hbeyond]
    cases place? s.locals.length slot with
    | none => rfl
    | some i =>
      rw [Option.bind_some, Option.bind_some]
      rw [show (s.renumber f).locals = s.locals.map (renumberType f) from rfl, List.getElem?_map]
      cases s.locals[i]? <;> rfl

theorem put_map (slots : List VerificationType) (slot : Int) (v : VerificationType) :
    put (slots.map (renumberType f)) slot (renumberType f v) =
      (put slots slot v).map (List.map (renumberType f)) := by
  unfold put
  rw [List.length_map]
  cases place? slots.length slot with
  | none => rfl
  | some i => exact congrArg Except.ok List.map_set.symm

theorem isWideAt_map (slots : List VerificationType) (slot : Int) :
    isWideAt (slots.map (renumberType f)) slot = isWideAt slots slot := by
  unfold isWideAt
  rw [List.length_map]
  cases place? slots.length slot with
  | none => rfl
  | some i =>
    rw [Option.bind_some, Option.bind_some, List.getElem?_map]
    cases slots[i]? with
    | none => rfl
    | some v => exact congrArg Except.ok (isWide_renumberType f v)

/-- Spoiling a slot, if there is reason to. -/
theorem spoil_map {c c' : Prop} [Decidable c] [Decidable c'] (hc : c ↔ c')
    (slots : List VerificationType) (place slot : Int) :
    (if c then spoil (slots.map (renumberType f)) place slot
      else pure (slots.map (renumberType f))) =
    Except.map (List.map (renumberType f)) (if c' then spoil slots place slot else pure slots) := by
  by_cases hc' : c'
  · rw [if_pos (hc.2 hc'), if_pos hc']
    unfold spoil
    rw [isWideAt_map]
    cases isWideAt slots place with
    | error e => rfl
    | ok wide =>
      cases wide with
      | true => exact put_map f slots slot .top
      | false => rfl
  · rw [if_neg (fun h => hc' (hc.1 h)), if_neg hc']
    rfl

theorem store_renumber (s : State) (slot : Int) (v : VerificationType) :
    (s.renumber f).store slot (renumberType f v) = (s.store slot v).map (renumber f) := by
  have hlength : (slotsOf (renumberType f v)).length = (slotsOf v).length := by
    rw [slotsOf_renumberType, List.length_map]
  have hpadded (count : Nat) : (s.renumber f).locals ++ List.replicate count VerificationType.top =
      (s.locals ++ List.replicate count VerificationType.top).map (renumberType f) := by
    rw [List.map_append, List.map_replicate]
    rfl
  have hlocals : (s.renumber f).locals.length = s.locals.length := List.length_map _
  rw [store_eq, store_eq]
  simp only [hlength, hlocals, hpadded]
  -- every step works on slots that are renumbered, so the map moves behind one step after another
  rw [spoil_map f Iff.rfl]
  refine map_bind_eq ?_
  intro first _
  rw [List.length_map, spoil_map f Iff.rfl]
  refine map_bind_eq ?_
  intro second _
  rw [put_map]
  refine map_bind_eq ?_
  intro third _
  split
  · have hput := put_map f third (slot + 1) .top
    simp only [renumberType] at hput
    rw [hput]
    exact map_bind_eq fun _ _ => rfl
  · rfl

end

end State

/-! ## Effects -/

/-- A program sees the objects of another one under other numbers: the class of every object is the
same. -/
structure Renumbers (f : Nat → Nat) (p q : Program) : Prop where
  owner : p.owner = q.owner
  createdAt : ∀ n, p.createdAt (f n) = q.createdAt n

section Effects

variable {f : Nat → Nat} {p q : Program} {numbers : Nat → Prop}

/-- What an instruction makes has a number that is allowed if the instruction has. -/
theorem allows_isNumberedIn {n : Nat} (hn : numbers n) (i : Instruction Label) :
    Allows p n i (IsNumberedIn numbers) where
  root := by rintro _ ⟨⟩
  pushes := by
    rintro v hv k rfl
    exact hv.isInitialized.elim
  described := by
    rintro descriptor v _ hv k rfl
    exact (isInitial_of_typeOf hv).elim
  created := by
    rintro name _ k ⟨⟩
    exact hn
  element := by
    rintro rest v _ hv k rfl
    exact (isInitial_of_typeOf hv).elim
  owner := by rintro _ ⟨⟩
  constructed := by rintro _ _ _ ⟨⟩

/-- Types with allowed numbers stay different if numbers do. -/
theorem eq_of_renumberType_eq (hinj : ∀ ⦃j k : Nat⦄, numbers j → numbers k → f j = f k → j = k)
    {v w : VerificationType} (hv : IsNumberedIn numbers v) (hw : IsNumberedIn numbers w)
    (h : renumberType f v = renumberType f w) : v = w := by
  by_cases hpos : ∃ n, v = .uninitialized (.position n)
  · obtain ⟨n, rfl⟩ := hpos
    obtain ⟨k, rfl, hk⟩ := renumberType_eq_position f h.symm
    rw [hinj (hw k rfl) (hv n rfl) hk]
  · have hplain : renumberType f v = v :=
      renumberType_of_forall_ne f fun n hn => hpos ⟨n, hn⟩
    rw [hplain] at h
    have hother : renumberType f w = w := by
      refine renumberType_of_forall_ne f ?_
      rintro n rfl
      exact hpos ⟨f n, h⟩
    exact h.trans hother

/-- Exchanging a type everywhere, if objects with different numbers stay different. -/
theorem State.replaceAll_renumber
    (hinj : ∀ ⦃j k : Nat⦄, numbers j → numbers k → f j = f k → j = k) {s : State}
    (hs : s.Each (IsNumberedIn numbers)) {old new : VerificationType}
    (hold : IsNumberedIn numbers old) (hnew : renumberType f new = new) :
    (s.renumber f).replaceAll (renumberType f old) new = (s.replaceAll old new).renumber f := by
  have hmap {vs : List VerificationType} (hvs : ∀ v ∈ vs, IsNumberedIn numbers v) :
      (vs.map (renumberType f)).map (fun v => if v = renumberType f old then new else v) =
        (vs.map fun v => if v = old then new else v).map (renumberType f) := by
    rw [List.map_map, List.map_map]
    refine List.map_congr_left ?_
    intro v hv
    show (if renumberType f v = renumberType f old then new else renumberType f v) =
      renumberType f (if v = old then new else v)
    by_cases heq : v = old
    · rw [if_pos (congrArg _ heq), if_pos heq, hnew]
    · rw [if_neg heq, if_neg fun h => heq (eq_of_renumberType_eq hinj (hvs v hv) hold h)]
  show State.mk _ _ = State.mk _ _
  rw [State.mk.injEq]
  exact ⟨hmap hs.locals, hmap hs.stack⟩

/-- The call of a constructor initializes the same objects. -/
theorem construct_renumber (hr : Renumbers f p q)
    (hinj : ∀ ⦃j k : Nat⦄, numbers j → numbers k → f j = f k → j = k) {s : State}
    (hs : s.Each (IsNumberedIn numbers)) {receiver : VerificationType}
    (hreceiver : IsNumberedIn numbers receiver) :
    construct p (renumberType f receiver) (s.renumber f) =
      (construct q receiver s).renumber f := by
  have hreplace {new : VerificationType} (hnew : renumberType f new = new) :=
    State.replaceAll_renumber hinj hs hreceiver hnew
  by_cases hpos : ∃ n, receiver = .uninitialized (.position n)
  · obtain ⟨n, rfl⟩ := hpos
    show (s.renumber f).replaceAll _ (.object (p.createdAt (f n))) = _
    rw [hr.createdAt]
    exact hreplace rfl
  · rw [renumberType_of_forall_ne f fun n hn => hpos ⟨n, hn⟩] at hreplace ⊢
    unfold construct
    split
    · rw [hr.owner]
      exact hreplace rfl
    · exact absurd ⟨_, rfl⟩ hpos
    · rfl

theorem pushTypeOf_renumber (s : State) (descriptor : Text) :
    (do return (s.renumber f).push (← typeOf descriptor) : Result State) =
      (do return s.push (← typeOf descriptor) : Result State).map (State.renumber f) := by
  cases htype : typeOf descriptor with
  | error e => rfl
  | ok v =>
    refine congrArg Except.ok (State.renumber_push_of f ?_).symm
    rintro w rfl
    exact renumberType_of_typeOf f htype

theorem push_renumber (s : State) {v : VerificationType} (hv : renumberType f v = v) :
    (.ok ((s.renumber f).push (some v)) : Result State) =
      (Except.ok (s.push (some v))).map (State.renumber f) := by
  refine congrArg Except.ok ?_
  rw [State.renumber_push, hv]

/-- Loading an element of an array. -/
theorem loadElement_renumber (s : State) :
    loadElement (s.renumber f) = (loadElement s).map (State.renumber f) := by
  refine State.pop_renumber_bind f s 2 ?_
  intro values t _
  dsimp only
  rw [List.getLast?_map]
  cases values.getLast? with
  | none => exact push_renumber t rfl
  | some v =>
    cases v with
    | object name =>
      cases name with
      | none => rfl
      | some n =>
        cases n with
        | nil => exact push_renumber t rfl
        | cons c rest =>
          show (if c = Descriptor.bracket then _ else _) =
            Except.map _ (if c = Descriptor.bracket then _ else _)
          split
          · exact pushTypeOf_renumber t rest
          · exact push_renumber t rfl
    | uninitialized site =>
      cases site with
      | label l => exact push_renumber t rfl
      | position k => exact push_renumber t rfl
    | _ => exact push_renumber t rfl

theorem takeReceiver_renumber (hr : Renumbers f p q)
    (hinj : ∀ ⦃j k : Nat⦄, numbers j → numbers k → f j = f k → j = k) {s : State}
    (hs : s.Each (IsNumberedIn numbers)) (op : Opcode) (name : Text) :
    takeReceiver p op name (s.renumber f) = (takeReceiver q op name s).map (State.renumber f) := by
  unfold takeReceiver
  by_cases hop : op = .invokestatic
  · rw [if_pos hop, if_pos hop]
    rfl
  · rw [if_neg hop, if_neg hop]
    refine State.pop_renumber_bind f s 1 ?_
    intro values t hpop
    obtain ⟨hvalues, ht⟩ := hs.pop hpop
    cases values with
    | nil => rfl
    | cons receiver rest =>
      refine congrArg Except.ok ?_
      split
      · exact construct_renumber hr hinj ht (hvalues _ List.mem_cons_self)
      · rfl

/-- A sequence of moves commutes with a renumbering under which the objects of the state, and the
one that the instruction may make, stay different. -/
theorem Composed.renumber {i : Instruction Label} {g : Program → Nat → State → Result State}
    (hg : Composed i g) (hr : Renumbers f p q)
    (hinj : ∀ ⦃j k : Nat⦄, numbers j → numbers k → f j = f k → j = k) {n : Nat} (hn : numbers n)
    {s : State} (hs : s.Each (IsNumberedIn numbers)) :
    g p (f n) (s.renumber f) = (g q n s).map (State.renumber f) := by
  induction hg generalizing s with
  | skip | fail _ => rfl
  | @seq g k hg hk ihg ihk =>
    show g p (f n) (s.renumber f) >>= _ = _
    rw [ihg hs]
    refine map_bind_eq ?_
    intro u hu
    exact ihk (hg.each (allows_isNumberedIn hn i) hs hu)
  | drop count =>
    have hlength : (s.renumber f).stack.length = s.stack.length := List.length_map _
    show (s.renumber f).drop (count (s.renumber f).stack.length) = _
    rw [hlength]
    exact State.drop_renumber f s _
  | push hv => exact push_renumber s (renumberType_of_pushes f hv)
  | pushDescribed hd => exact pushTypeOf_renumber s _
  | create _ =>
    have hpush := State.renumber_push f s (.uninitialized (.position n))
    exact congrArg Except.ok hpush.symm
  | copy depth count =>
    refine State.pop_renumber_bind f s depth ?_
    intro values t _
    simp [State.renumber, Except.map, pure, Except.pure]
  | swap =>
    refine State.pop_renumber_bind f s 2 ?_
    intro values t _
    simp [State.renumber, Except.map, pure, Except.pure]
  | @load op slot hslot =>
    show ((s.renumber f).read slot >>= _) = _
    rw [State.read_renumber]
    refine map_bind_eq ?_
    intro v _
    refine congrArg Except.ok ?_
    rw [State.renumber_push]
    -- no object is renumbered to an empty slot, so a load fills in the root class in the same states
    by_cases htop : v = .top
    · rw [if_pos htop, if_pos ((renumberType_eq_top_iff f).2 htop)]
      rfl
    · rw [if_neg htop, if_neg fun h => htop ((renumberType_eq_top_iff f).1 h)]
  | @store op slot hslot size _ =>
    refine State.pop_renumber_bind f s size ?_
    intro values t _
    dsimp only
    rw [List.getLast?_map]
    cases values.getLast? with
    | none => rfl
    | some v => exact State.store_renumber f t slot v
  | @increment op slot hslot => exact State.store_renumber f s slot .integer
  | element => exact loadElement_renumber s
  | receive op name => exact takeReceiver_renumber hr hinj hs op name

end Effects

end Flow

end ClassTree
