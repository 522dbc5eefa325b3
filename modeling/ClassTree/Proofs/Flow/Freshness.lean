/-
# ClassTree.Proofs.Flow.Freshness — objects before the instruction that makes them

The analysis names an object that has been made and not initialized yet by the number of the
instruction that made it. When a loop comes back to that instruction, another object gets the same
name, and nothing in the analysis takes the old name away. It need not: the state before an
instruction never holds an object of that instruction. The first state that reaches it cannot, since
nobody has carried the instruction out before; and what flows in later can only take names away,
since a merge keeps an object where both sides have it.
-/
import ClassTree.Proofs.Flow.Moment
import ClassTree.Proofs.Flow.Renumber

namespace ClassTree.Flow

open Result (bind_eq_ok_iff)

variable {p : Program}

/-! ## Objects of a state -/

/-- The state holds the object of a number. -/
def State.Mentions (s : State) (n : Nat) : Prop :=
  .uninitialized (.position n) ∈ s.locals ∨ .uninitialized (.position n) ∈ s.stack

/-- All objects of a state have allowed numbers. -/
theorem each_isNumberedIn_iff {numbers : Nat → Prop} {s : State} :
    s.Each (IsNumberedIn numbers) ↔ ∀ n, s.Mentions n → numbers n := by
  constructor
  · rintro hs n (hn | hn)
    · exact hs.locals _ hn n rfl
    · exact hs.stack _ hn n rfl
  · intro hs
    refine ⟨?_, ?_⟩
    · rintro v hv n rfl
      exact hs n (.inl hv)
    · rintro v hv n rfl
      exact hs n (.inr hv)

/-- A merge of two types is an object only where the first one is. -/
theorem eq_of_mergeType?_eq_uninitialized {a b : VerificationType} {site : Site}
    (h : mergeType? a b = some (.uninitialized site)) : a = .uninitialized site := by
  unfold mergeType? at h
  split at h
  · exact Option.some.inj h
  · split at h
    · next href =>
      -- references are initialized
      rw [Bool.and_eq_true] at href
      split at h
      · cases h
        cases href.2
      · split at h <;> cases h
        cases href.1
    · cases h

/-- Where a state holds an object, another state holds the same one. -/
structure State.SharesObjects (s t : State) : Prop where
  locals : ∀ {j n : Nat}, s.locals[j]? = some (VerificationType.uninitialized (.position n)) →
    t.locals[j]? = s.locals[j]?
  stack : ∀ {j n : Nat}, s.stack[j]? = some (VerificationType.uninitialized (.position n)) →
    t.stack[j]? = s.stack[j]?

namespace State

theorem SharesObjects.refl (s : State) : s.SharesObjects s := ⟨fun _ => rfl, fun _ => rfl⟩

theorem SharesObjects.mentions {s t : State} (h : s.SharesObjects t) {n : Nat} (hn : s.Mentions n) :
    t.Mentions n := by
  rcases hn with hn | hn
  · obtain ⟨j, hj⟩ := List.mem_iff_getElem?.1 hn
    exact .inl (List.mem_of_getElem? ((h.locals hj).trans hj))
  · obtain ⟨j, hj⟩ := List.mem_iff_getElem?.1 hn
    exact .inr (List.mem_of_getElem? ((h.stack hj).trans hj))

/-- A merged state shares its objects with the known one. -/
theorem sharesObjects_of_merge {known incoming merged : State}
    (h : known.merge incoming = .ok merged) : merged.SharesObjects known := by
  obtain ⟨-, hlocals, hstack⟩ := merge_eq_ok_iff.1 h
  refine ⟨?_, ?_⟩
  · intro j n hj
    have hzip := hj
    rw [hlocals] at hzip
    obtain ⟨a, b, ha, -, hab⟩ := List.getElem?_zipWith_eq_some.1 hzip
    have hmerge : mergeType? a b = some (.uninitialized (.position n)) := by
      unfold mergeLocal at hab
      cases hm : mergeType? a b with
      | none =>
        rw [hm] at hab
        cases hab
      | some v =>
        rw [hm] at hab
        exact congrArg some hab
    rw [ha, hj, eq_of_mergeType?_eq_uninitialized hmerge]
  · intro j n hj
    have hzip : (merged.stack.map some)[j]? =
        some (some (VerificationType.uninitialized (.position n))) := by
      rw [List.getElem?_map, hj]
      rfl
    rw [hstack] at hzip
    obtain ⟨a, b, ha, -, hab⟩ := List.getElem?_zipWith_eq_some.1 hzip
    rw [ha, hj, eq_of_mergeType?_eq_uninitialized hab]

end State

/-- A state that the analysis works with at a moment. -/
inductive Holds (s : Solver) : Task → State → Prop
  | recorded {task : Task} {index : Nat} {x : State} (h : s.states[index]? = some (some x)) :
      Holds s task x
  | underway {index : Nat} {x : State} {targets : List Nat} : Holds s (.arrive index x targets) x

/-! ## Objects name the instructions that made them -/

/-- That objects name `new` instructions is an annotation of the program of a method. -/
theorem annotates_admitted {owner : Text} {m : Method} (hp : Program.ofMethod owner m = .ok p) :
    Annotates p (fun _ s => s.Admitted p) (fun _ s => s.Admitted p) where
  entry := by
    intro locals hlocals
    refine ⟨?_, List.forall_mem_nil _⟩
    intro v hv
    exact (Solver.isInitial_of_entryLocals hlocals v hv).admits
  merge := fun hknown hincoming hmerge => hknown.merge hincoming hmerge
  handler := by
    intro r index here hr _ _ hhere
    refine ⟨hhere.locals, ?_⟩
    intro v hv
    obtain rfl := List.mem_singleton.1 hv
    exact Solver.admits_caught hp r hr
  effect := fun hi _ hhere hout => hhere.effect hi hout
  edge := fun _ _ _ hout => hout

/-- An object is named by the number of a `new` instruction. -/
theorem exists_new_of_mentions {owner : Text} {m : Method} (hp : Program.ofMethod owner m = .ok p)
    {s : Solver} {task : Task} (h : Occurs p s task) {x : State} (hx : Holds s task x) {k : Nat}
    (hk : x.Mentions k) :
    ∃ position name, p.instructions[k]? = some (position, .type .new name) := by
  have hholds := (annotates_admitted hp).holdsAt h
  have hadmitted : x.Admitted p := by
    cases hx with
    | recorded hknown => exact hholds.known hknown
    | underway => exact hholds.out rfl
  rcases hk with hk | hk
  · exact hadmitted.locals _ hk
  · exact hadmitted.stack _ hk

/-! ## No state before an instruction holds an object of it -/

/-- Objects are named by instructions that have been reached, and the state before an instruction
does not hold an object of that instruction. -/
structure IsFreshAt (s : Solver) (task : Task) : Prop where
  reached : ∀ ⦃x⦄, Holds s task x → x.Each (IsNumberedIn s.Knows)
  fresh : ∀ ⦃index : Nat⦄ ⦃x : State⦄, s.states[index]? = some (some x) → ¬x.Mentions index

theorem each_isNumberedIn_mono {numbers numbers' : Nat → Prop} (h : ∀ n, numbers n → numbers' n)
    {s : State} (hs : s.Each (IsNumberedIn numbers)) : s.Each (IsNumberedIn numbers') := by
  rw [each_isNumberedIn_iff] at hs ⊢
  exact fun n hn => h n (hs n hn)

/-- Receiving a state whose objects name reached instructions: where nothing was known, no state
names the instruction yet, and where something was known, objects are lost at most. -/
theorem IsFreshAt.receives {s t : Solver} {task next : Task} (hs : IsFreshAt s task) {index : Nat}
    {incoming merged : State} (h : s.Receives index incoming merged t)
    (hincoming : incoming.Each (IsNumberedIn s.Knows))
    (hnext : ∀ x, Holds t next x → Holds s task x ∨ Holds t .choose x) : IsFreshAt t next := by
  have hmono {x : State} (hx : x.Each (IsNumberedIn s.Knows)) : x.Each (IsNumberedIn t.Knows) :=
    each_isNumberedIn_mono (fun _ hn => h.knows hn) hx
  have hmerged : merged.Each (IsNumberedIn s.Knows) ∧ ¬merged.Mentions index := by
    rcases h.found with ⟨hnone, rfl⟩ | ⟨known, hknown, hmerge⟩
    · refine ⟨hincoming, ?_⟩
      intro hmentions
      obtain ⟨known, hknown⟩ := each_isNumberedIn_iff.1 hincoming index hmentions
      rw [hnone] at hknown
      cases hknown
    · have hshares := State.sharesObjects_of_merge hmerge
      refine ⟨?_, fun hmentions => hs.fresh hknown (hshares.mentions hmentions)⟩
      rw [each_isNumberedIn_iff]
      intro n hn
      exact each_isNumberedIn_iff.1 (hs.reached (.recorded hknown)) n (hshares.mentions hn)
  have hrecorded {other : Nat} {x : State} (hx : t.states[other]? = some (some x)) :
      x.Each (IsNumberedIn s.Knows) ∧ ¬x.Mentions other := by
    rcases h.known hx with ⟨rfl, rfl⟩ | ⟨-, hold⟩
    · exact hmerged
    · exact ⟨hs.reached (.recorded hold), hs.fresh hold⟩
  refine ⟨?_, fun other x hx => (hrecorded hx).2⟩
  intro x hx
  rcases hnext x hx with hold | hnew
  · exact hmono (hs.reached hold)
  · cases hnew with
    | recorded hx => exact hmono (hrecorded hx).1

/-- Every moment is fresh, provided that handlers catch initialized types. -/
theorem Occurs.isFreshAt (hcaught : ∀ r ∈ p.regions, ∃ name, r.caught = instanceOf name)
    {s : Solver} {task : Task} (h : Occurs p s task) : IsFreshAt s task := by
  induction h with
  | start hsize hlocals hs =>
    obtain ⟨merged, hreceives⟩ := Solver.receives_of_flow hs
    have hinitial : IsFreshAt (Solver.initial p) .choose := by
      refine ⟨?_, ?_⟩
      · rintro x ⟨hx⟩
        simp [Solver.initial, Array.getElem?_replicate] at hx
      · intro index x hx
        simp [Solver.initial, Array.getElem?_replicate] at hx
    refine hinitial.receives hreceives ?_ fun _ hx => .inr hx
    refine ⟨?_, List.forall_mem_nil _⟩
    rintro v hv n rfl
    exact (Solver.isInitial_of_entryLocals hlocals _ hv).elim
  | choose h hpending hi ih =>
    refine ⟨?_, ih.fresh⟩
    rintro x ⟨hx⟩
    exact ih.reached (.recorded hx)
  | handler h ht ih =>
    rcases Solver.flowToRegion_eq_ok ht with rfl | ⟨-, -, here, hhere, hflow⟩
    · refine ⟨?_, ih.fresh⟩
      rintro x ⟨hx⟩
      exact ih.reached (.recorded hx)
    · obtain ⟨merged, hreceives⟩ := Solver.receives_of_flow hflow
      have hbefore := ih.reached (.recorded hhere)
      refine ih.receives hreceives ⟨hbefore.locals, ?_⟩ ?_
      · obtain ⟨name, hname⟩ := hcaught _ (h.isSoundAt.task.2.1 List.mem_cons_self)
        intro v hv n hvn
        rw [List.mem_singleton.1 hv, hname] at hvn
        cases hvn
      · rintro x ⟨hx⟩
        exact .inr (.recorded hx)
  | interpret h hhere hout htargets ih =>
    have hhere := Solver.stateAt_eq_ok_iff.1 hhere
    refine ⟨?_, ih.fresh⟩
    intro x hx
    cases hx with
    | recorded hx => exact ih.reached (.recorded hx)
    | underway =>
      -- the instruction itself has been reached, so it may make an object
      have hknows := h.isSoundAt.task.1
      have hreached := ih.reached (.recorded hhere)
      exact (composed_effect _).each (allows_isNumberedIn hknows _) hreached hout
  | successor h ht ih =>
    obtain ⟨merged, hreceives⟩ :=
      Solver.receives_of_flow (Solver.flowToSuccessor_eq_ok ht).2
    refine ih.receives hreceives (ih.reached .underway) ?_
    intro x hx
    cases hx with
    | recorded hx => exact .inr (.recorded hx)
    | underway => exact .inl .underway
  | done h ih =>
    refine ⟨?_, ih.fresh⟩
    rintro x ⟨hx⟩
    exact ih.reached (.recorded hx)

end ClassTree.Flow
