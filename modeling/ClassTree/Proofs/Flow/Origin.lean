/-
# ClassTree.Proofs.Flow.Origin — where uninitialized values come from

The analysis names an uninitialized object by the number of the instruction that made it. Only a
`new` instruction makes one, and every other effect passes on what it finds or something
initialized; a merge keeps one of two types or gives up both. So whatever the analysis records names
a `new`.
-/
import ClassTree.Proofs.Flow.Composition
import ClassTree.Proofs.Flow.Invariant

namespace ClassTree.Flow

open Result (bind_eq_ok_iff)

variable (p : Program)

/-- A type that the analysis of a program may record: an uninitialized object is named by the number
of a `new` instruction. -/
def Program.Admits : VerificationType → Prop
  | .uninitialized (.position index) =>
    ∃ position name, p.instructions[index]? = some (position, .type .new name)
  | .uninitialized (.label _) | .irregular _ _ => False
  | _ => True

/-- All types of a state are admitted. -/
structure State.Admitted (s : State) : Prop where
  locals : ∀ v ∈ s.locals, p.Admits v
  stack : ∀ v ∈ s.stack, p.Admits v

variable {p}

/-! ## Types -/

/-- A type that a value may have when a method begins. -/
def IsInitial : VerificationType → Prop
  | .irregular _ _ | .uninitialized _ | .object none => False
  | _ => True

/-- The types at the beginning of a method are admitted. -/
theorem IsInitial.admits {v : VerificationType} (h : IsInitial v) : p.Admits v := by
  cases v <;> trivial

theorem isInitial_of_typeOf {descriptor : Text} {v : VerificationType}
    (h : typeOf descriptor = .ok (some v)) : IsInitial v := by
  unfold typeOf at h
  split at h
  · cases h
  · dsimp only at h
    repeat' split at h
    all_goals cases h
    all_goals trivial

/-! ## Effects -/

/-- All types of a state are admitted if each of them is. -/
theorem State.admitted_iff {s : State} : s.Admitted p ↔ s.Each p.Admits :=
  ⟨fun h => ⟨h.locals, h.stack⟩, fun h => ⟨h.locals, h.stack⟩⟩

theorem State.Admitted.merge {known incoming merged : State} (hk : known.Admitted p)
    (hi : incoming.Admitted p) (h : known.merge incoming = .ok merged) : merged.Admitted p := by
  rw [admitted_iff] at hk hi ⊢
  exact hk.merge trivial trivial hi h

theorem IsInitialized.admits {v : VerificationType} (h : IsInitialized v) : p.Admits v := by
  cases v <;> trivial

/-- Every instruction passes on that types are admitted: a `new` instruction makes an object that is
named by its number. -/
theorem allows_admits {index position : Nat} {i : Instruction Label}
    (hi : p.instructions[index]? = some (position, i)) : Allows p index i p.Admits where
  root := trivial
  pushes := fun _ hv => hv.isInitialized.admits
  described := fun _ _ _ hv => (isInitial_of_typeOf hv).admits
  created := by
    rintro name rfl
    exact ⟨position, name, hi⟩
  element := fun _ _ _ hv => (isInitial_of_typeOf hv).admits
  owner := trivial
  constructed := fun _ _ => trivial

theorem State.Admitted.effect {index position : Nat} {i : Instruction Label}
    (hi : p.instructions[index]? = some (position, i)) {s t : State} (hs : s.Admitted p)
    (h : Flow.effect p index i s = .ok t) : t.Admitted p := by
  rw [admitted_iff] at hs ⊢
  exact (composed_effect i).each (allows_admits hi) hs h

/-! ## Runs -/

namespace Solver

/-- All known states are admitted. -/
def Admitted (p : Program) (s : Solver) : Prop :=
  ∀ ⦃index : Nat⦄ ⦃known : State⦄, s.states[index]? = some (some known) → known.Admitted p

theorem stateAt_eq_ok_iff {s : Solver} {index : Nat} {known : State} :
    s.stateAt index = .ok known ↔ s.states[index]? = some (some known) := by
  unfold stateAt
  split
  · next h => simp [h]
  · next h =>
    constructor
    · nofun
    · intro heq
      exact absurd heq (h known)

theorem Admitted.flow {s t : Solver} (hs : s.Admitted p) {index : Nat} {incoming : State}
    (hi : incoming.Admitted p) (h : s.flow p index incoming = .ok t) : t.Admitted p := by
  have hset {state : State} (hstate : state.Admitted p) (hlt : index < s.states.size) :
      Admitted p { s with
        states := s.states.set index (some state), pending := index :: s.pending } := by
    intro other known hknown
    rw [Array.getElem?_set] at hknown
    split at hknown
    · cases hknown
      exact hstate
    · exact hs hknown
  unfold Solver.flow at h
  split at h
  · next hlt =>
    split at h
    · cases h
      exact hset hi hlt
    · next known hknown =>
      split at h
      · cases h
      · next merged hmerged =>
        rw [Program.locate_eq_ok_iff] at hmerged
        have hk : known.Admitted p := hs (by rw [Array.getElem?_eq_getElem hlt, hknown])
        split at h <;> cases h
        · exact hs
        · exact hset (hk.merge hi hmerged) hlt
  · cases h

theorem Admitted.foldlM {α : Type} {step : Solver → α → Result Solver} {l : List α}
    (hstep : ∀ s, ∀ a ∈ l, ∀ t, Admitted p s → step s a = .ok t → Admitted p t) {s t : Solver}
    (hs : Admitted p s) (h : l.foldlM step s = .ok t) : Admitted p t := by
  induction l generalizing s with
  | nil =>
    cases h
    exact hs
  | cons a l ih =>
    rw [List.foldlM_cons] at h
    obtain ⟨u, hu, h⟩ := bind_eq_ok_iff.1 h
    exact ih (fun s b hb => hstep s b (List.mem_cons_of_mem a hb)) (hstep s a (by simp) u hs hu) h

theorem Admitted.flowToRegion {s t : Solver} (hs : s.Admitted p) {index : Nat} {r : Region}
    (hr : p.Admits r.caught) (h : flowToRegion p index s r = .ok t) : t.Admitted p := by
  unfold Solver.flowToRegion at h
  split at h
  · split at h
    · cases h
    · next here hhere =>
      have hlocals := (hs (stateAt_eq_ok_iff.1 hhere)).locals
      have hcaught : State.Admitted p ⟨here.locals, [r.caught]⟩ := by
        refine ⟨hlocals, ?_⟩
        intro v hv
        obtain rfl := List.mem_singleton.1 hv
        exact hr
      exact hs.flow hcaught h
  · cases h
    exact hs

theorem Admitted.visit {s t : Solver} (hs : s.Admitted p) {index : Nat}
    (hregions : ∀ r ∈ p.regions, p.Admits r.caught) (h : s.visit p index = .ok t) :
    t.Admitted p := by
  unfold Solver.visit at h
  split at h
  · cases h
  · next position i hi =>
    obtain ⟨u, hu, h⟩ := bind_eq_ok_iff.1 h
    have hu : u.Admitted p :=
      hs.foldlM (fun s r hr t hs h => hs.flowToRegion (hregions r hr) h) hu
    obtain ⟨here, hhere, h⟩ := bind_eq_ok_iff.1 h
    obtain ⟨out, hout, h⟩ := bind_eq_ok_iff.1 h
    obtain ⟨targets, -, h⟩ := bind_eq_ok_iff.1 h
    rw [Program.locate_eq_ok_iff] at hout
    have hout : out.Admitted p := (hu (stateAt_eq_ok_iff.1 hhere)).effect hi hout
    have hstep : ∀ s, ∀ target ∈ targets, ∀ t, Admitted p s →
        flowToSuccessor p index out s target = .ok t → Admitted p t := by
      intro s target _ t hs h
      unfold flowToSuccessor at h
      split at h
      · exact hs.flow hout h
      · cases h
    have hraised : Admitted p
        { u with maxStack := max u.maxStack (max here.stack.length out.stack.length) } := hu
    exact hraised.foldlM hstep h

theorem Admitted.solve {s t : Solver} (hs : s.Admitted p)
    (hregions : ∀ r ∈ p.regions, p.Admits r.caught) (h : s.solve p = .ok t) : t.Admitted p := by
  induction s using Solver.solve.induct p with
  | case1 s hnil =>
    rw [solve_of_nil hnil] at h
    cases h
    exact hs
  | case2 s index rest hcons e hfail =>
    rw [solve_of_refusal hcons hfail] at h
    cases h
  | case3 s index rest hcons u hvisit ih =>
    rw [solve_of_visit hcons hvisit] at h
    exact ih (Admitted.visit (s := { s with pending := rest }) hs hregions hvisit) h

/-- Everything in the locals at the beginning of a method is initialized, the receiver of a
constructor apart. -/
theorem isInitial_of_entryLocals {locals : List VerificationType} (h : p.entryLocals = .ok locals) :
    ∀ v ∈ locals, IsInitial v := by
  obtain ⟨types, -, h⟩ := bind_eq_ok_iff.1 h
  obtain ⟨slots, hslots, h⟩ := bind_eq_ok_iff.1 h
  cases h
  obtain ⟨parts, hparts, hslots⟩ := bind_eq_ok_iff.1 hslots
  cases hslots
  rw [Result.mapM_eq_ok_iff] at hparts
  intro v hv
  rcases List.mem_append.1 hv with hv | hv
  · unfold Program.receiverSlots at hv
    split at hv
    · cases hv
    · split at hv <;> obtain rfl := List.mem_singleton.1 hv <;> trivial
  · obtain ⟨part, hpart, hv⟩ := List.mem_flatten.1 hv
    obtain ⟨type, -, htype⟩ := Result.exists_of_mem_right hparts hpart
    obtain ⟨found, hfound, htype⟩ := bind_eq_ok_iff.1 htype
    cases found with
    | none => cases htype
    | some w =>
      cases htype
      rcases eq_or_eq_top_of_mem_slotsOf hv with rfl | rfl
      · exact isInitial_of_typeOf hfound
      · trivial

/-- The program of a method catches instances of classes. -/
theorem exists_caught_eq {owner : Text} {m : Method} (h : Program.ofMethod owner m = .ok p) :
    ∀ r ∈ p.regions, ∃ name, r.caught = instanceOf name := by
  obtain ⟨regions, hregions, h⟩ := bind_eq_ok_iff.1 h
  cases h
  rw [Result.mapM_eq_ok_iff] at hregions
  intro r hr
  obtain ⟨handler, -, hhandler⟩ := Result.exists_of_mem_right hregions hr
  obtain ⟨start, -, hhandler⟩ := bind_eq_ok_iff.1 hhandler
  obtain ⟨stop, -, hhandler⟩ := bind_eq_ok_iff.1 hhandler
  obtain ⟨target, -, hhandler⟩ := bind_eq_ok_iff.1 hhandler
  cases hhandler
  exact ⟨_, rfl⟩

theorem admits_caught {owner : Text} {m : Method} (h : Program.ofMethod owner m = .ok p) :
    ∀ r ∈ p.regions, p.Admits r.caught := by
  intro r hr
  obtain ⟨name, hname⟩ := exists_caught_eq h r hr
  rw [hname]
  trivial

/-- What the analysis of a method records names a `new` instruction wherever it names one. -/
theorem admitted_of_run {owner : Text} {m : Method} (hp : Program.ofMethod owner m = .ok p)
    {s : Solver} (h : run p = .ok s) : s.Admitted p := by
  have hinitial : (initial p).Admitted p := by
    intro index known hknown
    simp [initial, Array.getElem?_replicate] at hknown
  unfold run at h
  split at h
  · cases h
    exact hinitial
  · obtain ⟨locals, hlocals, h⟩ := bind_eq_ok_iff.1 h
    obtain ⟨first, hfirst, h⟩ := bind_eq_ok_iff.1 h
    have hentry : State.Admitted p ⟨locals, []⟩ :=
      ⟨fun v hv => (isInitial_of_entryLocals hlocals v hv).admits, List.forall_mem_nil _⟩
    exact (hinitial.flow hentry hfirst).solve (admits_caught hp) h

end Solver

end ClassTree.Flow
