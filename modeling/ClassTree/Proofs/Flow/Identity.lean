/-
# ClassTree.Proofs.Flow.Identity — which object an uninitialized value is

The name of an uninitialized object says which instruction made it, not when. To say that all copies
of a name are one object, the objects are told apart by the execution that made them. `Traced` runs
the analysis on states in which a name is the number of an execution. The effects are those of the
analysis, on the program that lists the executions one after another. Every moment of the analysis
comes from a traced one by forgetting the executions, and in no traced state two objects of one
instruction meet.
-/
import ClassTree.Proofs.Flow.Freshness

namespace ClassTree.Flow

open Result (bind_eq_ok_iff)

variable {p : Program}

/-! ## Executions -/

namespace Program

/-- The instruction that an execution of a history has carried out; an execution that has not
happened yet has carried out none. -/
def origin (p : Program) (history : List Nat) (n : Nat) : Nat := history.getD n p.size

/-- The instructions that have been carried out, one after another. -/
def unrolled (p : Program) (history : List Nat) : Program :=
  { p with instructions :=
      (history.map fun index => p.instructions[index]?.getD (0, .plain .nop)).toArray }

/-- The program that a history makes knows the objects by their executions. -/
theorem renumbers_unrolled (p : Program) (history : List Nat) :
    Renumbers (p.origin history) p (p.unrolled history) where
  owner := rfl
  createdAt := by
    intro n
    have hunrolled : (p.unrolled history).instructions[n]? =
        history[n]?.map fun index => p.instructions[index]?.getD (0, .plain .nop) := by
      rw [unrolled, List.getElem?_toArray, List.getElem?_map]
    unfold createdAt
    rw [hunrolled, origin, List.getD_eq_getElem?_getD]
    cases history[n]? with
    | none =>
      rw [Option.map_none, Option.getD_none, size, Array.getElem?_size]
    | some index =>
      rw [Option.map_some, Option.getD_some]
      cases p.instructions[index]? <;> rfl

variable {history : List Nat} {n : Nat}

theorem origin_append (h : n < history.length) (index : Nat) :
    p.origin (history ++ [index]) n = p.origin history n := by
  unfold origin
  rw [List.getD_eq_getElem?_getD, List.getD_eq_getElem?_getD, List.getElem?_append_left h]

theorem origin_append_self (index : Nat) :
    p.origin (history ++ [index]) history.length = index := by
  simp [origin]

end Program

/-- Forgets the executions in what a solver knows. -/
def Solver.renumber (f : Nat → Nat) (s : Solver) : Solver :=
  { s with states := s.states.map (Option.map (State.renumber f)) }

/-- Forgets the executions in what the solver works on. -/
def Task.renumber (f : Nat → Nat) : Task → Task
  | .arrive index out targets => .arrive index (out.renumber f) targets
  | task => task

/-- A state flows to an instruction, and the objects known there are those that were known there
before or those that have come in. -/
structure FlowsTraced (p : Program) (f : Nat → Nat) (s : Solver) (index : Nat) (incoming : State)
    (t : Solver) : Prop where
  flow : (s.renumber f).flow p index (incoming.renumber f) = .ok (t.renumber f)
  others : ∀ other, other ≠ index → t.states[other]? = s.states[other]?
  objects : ∀ x : State, t.states[index]? = some (some x) → x.SharesObjects incoming ∨
    ∃ known, s.states[index]? = some (some known) ∧ x.SharesObjects known

/-- The moments of an analysis that tells objects apart by the execution that made them. The history
lists the instructions that have been carried out; the number in an uninitialized type is a place in
it. -/
inductive Traced (p : Program) : List Nat → Solver → Task → Prop
  | start {locals : List VerificationType} {s : Solver} (hsize : 0 < p.size)
      (hlocals : p.entryLocals = .ok locals)
      (hs : (Solver.initial p).flow p 0 ⟨locals, []⟩ = .ok s) : Traced p [] s .choose
  | choose {history : List Nat} {s : Solver} {index position : Nat} {rest : List Nat}
      {i : Instruction Label} (h : Traced p history s .choose)
      (hpending : s.pending = index :: rest)
      (hi : p.instructions[index]? = some (position, i)) :
      Traced p history { s with pending := rest } (.leave index i p.regions)
  | pass {history : List Nat} {s : Solver} {index : Nat} {i : Instruction Label} {r : Region}
      {rs : List Region} (h : Traced p history s (.leave index i (r :: rs)))
      (hr : ¬(r.start ≤ index ∧ index < r.stop)) : Traced p history s (.leave index i rs)
  | handler {history : List Nat} {s t : Solver} {index : Nat} {i : Instruction Label} {r : Region}
      {rs : List Region} {here : State} (h : Traced p history s (.leave index i (r :: rs)))
      (hr : r.start ≤ index ∧ index < r.stop) (hhere : s.states[index]? = some (some here))
      (ht : FlowsTraced p (p.origin history) s r.target ⟨here.locals, [r.caught]⟩ t) :
      Traced p history t (.leave index i rs)
  | interpret {history : List Nat} {s : Solver} {index : Nat} {i : Instruction Label}
      {here out : State} {targets : List Nat} (h : Traced p history s (.leave index i []))
      (hhere : s.states[index]? = some (some here))
      (hout : effect (p.unrolled (history ++ [index])) history.length i here = .ok out)
      (htargets : p.successors index i = .ok targets) :
      Traced p (history ++ [index])
        { s with maxStack := max s.maxStack (max here.stack.length out.stack.length) }
        (.arrive index out targets)
  | successor {history : List Nat} {s t : Solver} {index target : Nat} {out : State}
      {targets : List Nat} (h : Traced p history s (.arrive index out (target :: targets)))
      (htarget : target < p.size) (ht : FlowsTraced p (p.origin history) s target out t) :
      Traced p history t (.arrive index out targets)
  | done {history : List Nat} {s : Solver} {index : Nat} {out : State}
      (h : Traced p history s (.arrive index out [])) : Traced p history s .choose

/-! ## Forgetting executions -/

section Forgetting

variable {f g : Nat → Nat}

/-- The objects of a state after forgetting. -/
theorem State.mentions_renumber_iff {s : State} {k : Nat} :
    (s.renumber f).Mentions k ↔ ∃ n, s.Mentions n ∧ f n = k := by
  have hmem {vs : List VerificationType} :
      VerificationType.uninitialized (.position k) ∈ vs.map (renumberType f) ↔
        ∃ n, VerificationType.uninitialized (.position n) ∈ vs ∧ f n = k := by
    constructor
    · intro h
      obtain ⟨v, hv, hvk⟩ := List.mem_map.1 h
      obtain ⟨n, rfl, hn⟩ := renumberType_eq_position f hvk
      exact ⟨n, hv, hn⟩
    · rintro ⟨n, hn, rfl⟩
      exact List.mem_map.2 ⟨_, hn, rfl⟩
  constructor
  · rintro (h | h)
    · obtain ⟨n, hn, hk⟩ := hmem.1 h
      exact ⟨n, .inl hn, hk⟩
    · obtain ⟨n, hn, hk⟩ := hmem.1 h
      exact ⟨n, .inr hn, hk⟩
  · rintro ⟨n, hn | hn, hk⟩
    · exact .inl (hmem.2 ⟨n, hn, hk⟩)
    · exact .inr (hmem.2 ⟨n, hn, hk⟩)

theorem State.renumber_congr {s : State} (h : ∀ n, s.Mentions n → f n = g n) :
    s.renumber f = s.renumber g := by
  have hmap {vs : List VerificationType}
      (hvs : ∀ n, VerificationType.uninitialized (.position n) ∈ vs → f n = g n) :
      vs.map (renumberType f) = vs.map (renumberType g) := by
    refine List.map_congr_left ?_
    intro v hv
    unfold renumberType
    split
    · rw [hvs _ hv]
    · rfl
  unfold State.renumber
  rw [hmap fun n hn => h n (.inl hn), hmap fun n hn => h n (.inr hn)]

/-- Nothing is forgotten where there are no objects. -/
theorem State.renumber_eq_self {s : State} (h : ∀ n, ¬s.Mentions n) : s.renumber f = s := by
  have hid : s.renumber id = s := by
    have hmap (vs : List VerificationType) : vs.map (renumberType id) = vs := by
      refine List.map_id'' ?_ vs
      intro v
      unfold renumberType
      split <;> rfl
    unfold State.renumber
    rw [hmap, hmap]
  rw [State.renumber_congr (g := id) fun n hn => absurd hn (h n), hid]

theorem Solver.getElem?_renumber (s : Solver) (index : Nat) :
    (s.renumber f).states[index]? = s.states[index]?.map (Option.map (State.renumber f)) :=
  Array.getElem?_map

/-- A state that is known after forgetting comes from a known one. -/
theorem Solver.exists_of_renumber {s : Solver} {index : Nat} {x : State}
    (h : (s.renumber f).states[index]? = some (some x)) :
    ∃ y, s.states[index]? = some (some y) ∧ y.renumber f = x := by
  rw [getElem?_renumber] at h
  obtain ⟨o, ho, hmap⟩ := Option.map_eq_some_iff.1 h
  obtain ⟨y, rfl, hy⟩ := Option.map_eq_some_iff.1 hmap
  exact ⟨y, ho, hy⟩

theorem Solver.renumber_congr {s : Solver}
    (h : ∀ (index : Nat) (x : State), s.states[index]? = some (some x) →
      ∀ n, x.Mentions n → f n = g n) :
    s.renumber f = s.renumber g := by
  have hstates : s.states.map (Option.map (State.renumber f)) =
      s.states.map (Option.map (State.renumber g)) := by
    refine Array.ext_getElem? ?_
    intro index
    rw [Array.getElem?_map, Array.getElem?_map]
    cases hstate : s.states[index]? with
    | none => rfl
    | some o =>
      cases o with
      | none => rfl
      | some x => exact congrArg (some ∘ some) (State.renumber_congr (h index x hstate))
  unfold Solver.renumber
  rw [hstates]

/-- Nothing is forgotten where no state holds an object. -/
theorem Solver.renumber_eq_self {s : Solver}
    (h : ∀ (index : Nat) (x : State), s.states[index]? = some (some x) → ∀ n, ¬x.Mentions n) :
    s.renumber f = s := by
  have hstates : s.states.map (Option.map (State.renumber f)) = s.states := by
    refine Array.ext_getElem? ?_
    intro index
    rw [Array.getElem?_map]
    cases hstate : s.states[index]? with
    | none => rfl
    | some o =>
      cases o with
      | none => rfl
      | some x => exact congrArg (some ∘ some) (State.renumber_eq_self (h index x hstate))
  unfold Solver.renumber
  rw [hstates]

/-- When a method begins nothing has been made. -/
theorem not_mentions_of_start {locals : List VerificationType} {s : Solver}
    (hlocals : p.entryLocals = .ok locals)
    (hs : (Solver.initial p).flow p 0 ⟨locals, []⟩ = .ok s) (index : Nat) (x : State)
    (hx : s.states[index]? = some (some x)) (n : Nat) : ¬x.Mentions n := by
  have hunknown {other : Nat} {y : State} :
      (Solver.initial p).states[other]? ≠ some (some y) := by
    simp [Solver.initial, Array.getElem?_replicate]
  obtain ⟨merged, hreceives⟩ := Solver.receives_of_flow hs
  rcases hreceives.known hx with ⟨rfl, rfl⟩ | ⟨-, hold⟩
  · rcases hreceives.found with ⟨-, rfl⟩ | ⟨known, hknown, -⟩
    · rintro (hn | hn)
      · exact Solver.isInitial_of_entryLocals hlocals _ hn
      · cases hn
    · exact absurd hknown hunknown
  · exact absurd hold hunknown

end Forgetting

/-! ## Traced states are tame -/

/-- The objects of a state have been made by executions that have happened, and no two of them by
the same instruction. -/
structure IsTame (p : Program) (history : List Nat) (x : State) : Prop where
  bounded : ∀ n, x.Mentions n → n < history.length
  apart : ∀ j k, x.Mentions j → x.Mentions k →
    p.origin history j = p.origin history k → j = k

namespace IsTame

variable {history : List Nat} {x y : State}

theorem of_mentions (hy : IsTame p history y) (h : ∀ n, x.Mentions n → y.Mentions n) :
    IsTame p history x :=
  ⟨fun n hn => hy.bounded n (h n hn), fun j k hj hk => hy.apart j k (h j hj) (h k hk)⟩

theorem append (hx : IsTame p history x) (index : Nat) : IsTame p (history ++ [index]) x := by
  refine ⟨?_, ?_⟩
  · intro n hn
    rw [List.length_append]
    exact Nat.lt_add_right _ (hx.bounded n hn)
  · intro j k hj hk heq
    rw [Program.origin_append (hx.bounded j hj), Program.origin_append (hx.bounded k hk)] at heq
    exact hx.apart j k hj hk heq

theorem renumber_append (hx : IsTame p history x) (index : Nat) :
    x.renumber (p.origin (history ++ [index])) = x.renumber (p.origin history) :=
  State.renumber_congr fun n hn => Program.origin_append (hx.bounded n hn) index

end IsTame

/-- What a traced state flows to holds objects of one of two tame states. -/
theorem FlowsTraced.isTame {f : Nat → Nat} {s t : Solver} {index : Nat} {incoming : State}
    (h : FlowsTraced p f s index incoming t) {history : List Nat}
    (hs : ∀ (other : Nat) (x : State), s.states[other]? = some (some x) → IsTame p history x)
    (hincoming : IsTame p history incoming) {other : Nat} {x : State}
    (hx : t.states[other]? = some (some x)) : IsTame p history x := by
  by_cases heq : other = index
  · subst heq
    rcases h.objects x hx with hshares | ⟨known, hknown, hshares⟩
    · exact hincoming.of_mentions fun n hn => hshares.mentions hn
    · exact (hs other known hknown).of_mentions fun n hn => hshares.mentions hn
  · rw [h.others other heq] at hx
    exact hs other x hx

/-- Carrying an instruction out in a tame state that holds no object of the instruction: the effect
is the one that the analysis sees, and the state after it is tame. -/
theorem IsTame.effect {history : List Nat} {here : State} (hhere : IsTame p history here)
    {index : Nat} (hfresh : ¬(here.renumber (p.origin history)).Mentions index)
    (i : Instruction Label) :
    Flow.effect p index i (here.renumber (p.origin history)) =
        (Flow.effect (p.unrolled (history ++ [index])) history.length i here).map
          (State.renumber (p.origin (history ++ [index]))) ∧
      ∀ out, Flow.effect (p.unrolled (history ++ [index])) history.length i here = .ok out →
        IsTame p (history ++ [index]) out := by
  -- the objects at hand are those of the state and the one that may be made
  have hinj : ∀ ⦃j k : Nat⦄, here.Mentions j ∨ j = history.length →
      here.Mentions k ∨ k = history.length →
      p.origin (history ++ [index]) j = p.origin (history ++ [index]) k → j = k := by
    have hmade (j : Nat) (hj : here.Mentions j) :
        p.origin (history ++ [index]) j ≠ p.origin (history ++ [index]) history.length := by
      rw [Program.origin_append (hhere.bounded j hj), Program.origin_append_self]
      intro heq
      exact hfresh (State.mentions_renumber_iff.2 ⟨j, hj, heq⟩)
    rintro j k (hj | rfl) (hk | rfl) heq
    · exact (hhere.append index).apart j k hj hk heq
    · exact absurd heq (hmade j hj)
    · exact absurd heq.symm (hmade k hk)
    · rfl
  have heach : here.Each (IsNumberedIn fun k => here.Mentions k ∨ k = history.length) :=
    each_isNumberedIn_iff.2 fun _ hn => .inl hn
  refine ⟨?_, ?_⟩
  · have hcommutes := (composed_effect i).renumber (p.renumbers_unrolled (history ++ [index])) hinj
      (n := history.length) (.inr rfl) heach
    rwa [Program.origin_append_self, hhere.renumber_append] at hcommutes
  · intro out hout
    have hnumbers := (composed_effect i).each
      (allows_isNumberedIn (n := history.length) (.inr rfl) i) heach hout
    rw [each_isNumberedIn_iff] at hnumbers
    refine ⟨?_, fun j k hj hk => hinj (hnumbers j hj) (hnumbers k hk)⟩
    intro n hn
    rw [List.length_append]
    rcases hnumbers n hn with hold | rfl
    · exact Nat.lt_add_right _ (hhere.bounded n hold)
    · exact Nat.lt_succ_self _

/-! ## Traced moments are moments -/

section Method

variable {owner : Text} {m : Method} (hp : Program.ofMethod owner m = .ok p)
include hp

/-- What a handler receives holds the objects of the locals. -/
theorem isTame_caught {history : List Nat} {here : State} (hhere : IsTame p history here)
    {r : Region} (hr : r ∈ p.regions) : IsTame p history ⟨here.locals, [r.caught]⟩ ∧
      ∀ f, State.renumber f ⟨here.locals, [r.caught]⟩ = ⟨(here.renumber f).locals, [r.caught]⟩ := by
  obtain ⟨name, hname⟩ := Solver.exists_caught_eq hp r hr
  rw [hname]
  refine ⟨hhere.of_mentions ?_, fun _ => rfl⟩
  rintro n (hn | hn)
  · exact .inl hn
  · cases List.mem_singleton.1 hn

/-- Forgetting the executions of a traced moment gives a moment of the analysis, and its states are
tame. Both are carried along together: a tame state makes the effects agree, and the moment that is
left after forgetting keeps states fresh. -/
theorem Traced.occurs {history : List Nat} {s : Solver} {task : Task}
    (h : Traced p history s task) :
    Occurs p (s.renumber (p.origin history)) (task.renumber (p.origin history)) ∧
      ∀ x, Holds s task x → IsTame p history x := by
  have hfresh {s : Solver} {task : Task} (h : Occurs p s task) : IsFreshAt s task :=
    h.isFreshAt (Solver.exists_caught_eq hp)
  induction h with
  | start hsize hlocals hs =>
    have hnone := not_mentions_of_start hlocals hs
    refine ⟨?_, ?_⟩
    · rw [Solver.renumber_eq_self hnone]
      exact .start hsize hlocals hs
    · rintro x ⟨hx⟩
      exact ⟨fun n hn => absurd hn (hnone _ x hx n), fun j _ hj => absurd hj (hnone _ x hx j)⟩
  | choose h hpending hi ih =>
    refine ⟨ih.1.choose hpending hi, ?_⟩
    rintro x ⟨hx⟩
    exact ih.2 x (.recorded hx)
  | @pass history s index i r rs h hr ih =>
    have hskip : Solver.flowToRegion p index (s.renumber (p.origin history)) r =
        .ok (s.renumber (p.origin history)) := if_neg hr
    refine ⟨ih.1.handler hskip, ?_⟩
    rintro x ⟨hx⟩
    exact ih.2 x (.recorded hx)
  | @handler history s t index i r rs here h hr hhere ht ih =>
    -- the caught type is no object, so forgetting executions does not change what the handler gets
    have hmem := ih.1.isSoundAt.task.2.1 List.mem_cons_self
    obtain ⟨htame, hcaught⟩ := isTame_caught hp (ih.2 here (.recorded hhere)) hmem
    have hflow : Solver.flowToRegion p index (s.renumber (p.origin history)) r =
        .ok (t.renumber (p.origin history)) := by
      have hstate : (s.renumber (p.origin history)).stateAt index =
          .ok (here.renumber (p.origin history)) := by
        rw [Solver.stateAt_eq_ok_iff, Solver.getElem?_renumber, hhere]
        rfl
      have hreceived := ht.flow
      rw [hcaught] at hreceived
      unfold Solver.flowToRegion
      rw [if_pos hr, hstate]
      exact hreceived
    refine ⟨ih.1.handler hflow, ?_⟩
    rintro x ⟨hx⟩
    exact ht.isTame (fun other y hy => ih.2 y (.recorded hy)) htame hx
  | @interpret history s index i here out targets h hhere hout htargets ih =>
    have hstate : (s.renumber (p.origin history)).states[index]? =
        some (some (here.renumber (p.origin history))) := by
      rw [Solver.getElem?_renumber, hhere]
      rfl
    obtain ⟨heffect, htame⟩ :=
      (ih.2 here (.recorded hhere)).effect ((hfresh ih.1).fresh hstate) i
    rw [hout] at heffect
    have hnext := ih.1.interpret (Solver.stateAt_eq_ok_iff.2 hstate) heffect htargets
    refine ⟨?_, ?_⟩
    · -- the solver is seen the same as before the execution, and heights do not depend on numbers
      have hsame : s.renumber (p.origin (history ++ [index])) = s.renumber (p.origin history) :=
        Solver.renumber_congr fun other x hx n hn =>
          Program.origin_append ((ih.2 x (.recorded hx)).bounded n hn) index
      have hheight (f : Nat → Nat) (x : State) : (x.renumber f).stack.length = x.stack.length :=
        List.length_map _
      rw [hheight, hheight, ← hsame] at hnext
      exact hnext
    · intro x hx
      cases hx with
      | recorded hx => exact (ih.2 x (.recorded hx)).append index
      | underway => exact htame out hout
  | @successor history s t index target out targets h htarget ht ih =>
    have hflow : Solver.flowToSuccessor p index (out.renumber (p.origin history))
        (s.renumber (p.origin history)) target = .ok (t.renumber (p.origin history)) :=
      (if_pos htarget).trans ht.flow
    refine ⟨ih.1.successor hflow, ?_⟩
    intro x hx
    cases hx with
    | recorded hx =>
      exact ht.isTame (fun other y hy => ih.2 y (.recorded hy)) (ih.2 out .underway) hx
    | underway => exact ih.2 out .underway
  | done h ih =>
    refine ⟨ih.1.done, ?_⟩
    rintro x ⟨hx⟩
    exact ih.2 x (.recorded hx)

/-! ## Moments are traced -/

omit hp in
/-- Types after forgetting come from types before, and the objects among them are those of a list
that is at hand. -/
theorem exists_map_renumberType {f : Nat → Nat} {vs known : List VerificationType}
    (h : ∀ {j n : Nat}, vs[j]? = some (VerificationType.uninitialized (.position n)) →
      (known.map (renumberType f))[j]? = vs[j]?) :
    ∃ ws : List VerificationType, ws.map (renumberType f) = vs ∧
      ∀ {j n : Nat}, ws[j]? = some (VerificationType.uninitialized (.position n)) →
        known[j]? = ws[j]? := by
  induction vs generalizing known with
  | nil =>
    refine ⟨[], rfl, ?_⟩
    rintro j n ⟨⟩
  | cons v vs ih =>
    have htail {j n : Nat} (hj : vs[j]? = some (VerificationType.uninitialized (.position n))) :
        (known.tail.map (renumberType f))[j]? = vs[j]? := by
      rw [List.map_tail, List.getElem?_tail]
      exact h (j := j + 1) (n := n) hj
    obtain ⟨ws, hws, hshares⟩ := ih htail
    by_cases hv : ∃ n, v = .uninitialized (.position n)
    · -- an object stands at the head of the list at hand too
      obtain ⟨n, rfl⟩ := hv
      have hhead := h (j := 0) (n := n) rfl
      cases known with
      | nil => cases hhead
      | cons k known =>
        refine ⟨k :: ws, ?_, ?_⟩
        · rw [List.map_cons, hws]
          rw [List.map_cons, List.getElem?_cons_zero, List.getElem?_cons_zero] at hhead
          rw [Option.some.inj hhead]
        · intro j n hj
          cases j with
          | zero => rfl
          | succ j => exact hshares hj
    · refine ⟨v :: ws, ?_, ?_⟩
      · rw [List.map_cons, hws, renumberType_of_forall_ne f fun n hn => hv ⟨n, hn⟩]
      · intro j n hj
        cases j with
        | zero => exact absurd ⟨n, Option.some.inj hj⟩ hv
        | succ j =>
          rw [List.getElem?_cons_succ] at hj ⊢
          rw [← hshares hj, List.getElem?_tail]

omit hp in
/-- A merge after forgetting comes from a state that shares its objects with the known one. -/
theorem exists_renumber_of_merge {f : Nat → Nat} {known incoming merged : State}
    (h : (known.renumber f).merge (incoming.renumber f) = .ok merged) :
    ∃ x : State, x.renumber f = merged ∧ x.SharesObjects known := by
  have hshares := State.sharesObjects_of_merge h
  obtain ⟨locals, hlocals, hsharesLocals⟩ := exists_map_renumberType hshares.locals
  obtain ⟨stack, hstack, hsharesStack⟩ := exists_map_renumberType hshares.stack
  refine ⟨⟨locals, stack⟩, ?_, hsharesLocals, hsharesStack⟩
  show State.mk _ _ = merged
  rw [hlocals, hstack]

omit hp in
theorem renumber_set (f : Nat → Nat) (s : Solver) {index : Nat} (hi : index < s.states.size)
    (x : State) (pending : List Nat) :
    Solver.renumber f { s with states := s.states.set index (some x), pending } =
      { s.renumber f with
        states := (s.renumber f).states.set index (some (x.renumber f))
          (by simpa [Solver.renumber] using hi)
        pending } := by
  unfold Solver.renumber
  simp only [Array.map_set, Option.map_some]

omit hp in
/-- Recording a state whose objects are at hand. -/
theorem flowsTraced_set {f : Nat → Nat} {s : Solver} {index : Nat} {incoming x : State}
    (hi : index < s.states.size) {pending : List Nat}
    (hflow : (s.renumber f).flow p index (incoming.renumber f) =
      .ok (Solver.renumber f { s with states := s.states.set index (some x), pending }))
    (hx : x.SharesObjects incoming ∨
      ∃ known, s.states[index]? = some (some known) ∧ x.SharesObjects known) :
    FlowsTraced p f s index incoming { s with states := s.states.set index (some x), pending } where
  flow := hflow
  others := by
    intro other hother
    exact Array.getElem?_set_ne hi (Ne.symm hother)
  objects := by
    intro y hy
    rw [Array.getElem?_set_self hi] at hy
    cases hy
    exact hx

omit hp in
/-- What flows after forgetting flows before, the objects that are known keeping their names. -/
theorem exists_flowsTraced {f : Nat → Nat} {s u : Solver} {index : Nat} {incoming : State}
    (h : (s.renumber f).flow p index (incoming.renumber f) = .ok u) :
    ∃ t, FlowsTraced p f s index incoming t ∧ t.renumber f = u := by
  have hsize : (s.renumber f).states.size = s.states.size := Array.size_map
  have hflow := h
  unfold Solver.flow at h
  split at h
  · next hi =>
    rw [hsize] at hi
    split at h
    · cases h
      refine ⟨{ s with
          states := s.states.set index (some incoming), pending := index :: s.pending },
        flowsTraced_set hi ?_ (.inl (.refl _)), renumber_set f s hi _ _⟩
      rw [hflow, renumber_set f s hi]
      rfl
    · next known hknown =>
      have hstate : (s.renumber f).states[index]? = some (some known) := by
        rw [Array.getElem?_eq_getElem (by rw [hsize]; exact hi), hknown]
      obtain ⟨k, hk, rfl⟩ := Solver.exists_of_renumber hstate
      split at h
      · cases h
      · next merged hmerged =>
        rw [Program.locate_eq_ok_iff] at hmerged
        split at h <;> cases h
        · -- nothing changes, and the known objects stay
          refine ⟨s, ⟨hflow, fun _ _ => rfl, ?_⟩, rfl⟩
          intro x hx
          exact .inr ⟨x, hx, .refl x⟩
        · obtain ⟨x, rfl, hshares⟩ := exists_renumber_of_merge hmerged
          refine ⟨{ s with states := s.states.set index (some x), pending := index :: s.pending },
            flowsTraced_set hi ?_ (.inr ⟨k, hk, hshares⟩), renumber_set f s hi _ _⟩
          rw [hflow, renumber_set f s hi]
          rfl
  · cases h

/-- Every moment of the analysis comes from a traced one by forgetting the executions. -/
theorem Occurs.exists_traced {s : Solver} {task : Task} (h : Occurs p s task) :
    ∃ history t work, Traced p history t work ∧ t.renumber (p.origin history) = s ∧
      work.renumber (p.origin history) = task := by
  induction h with
  | start hsize hlocals hs =>
    exact ⟨[], _, .choose, .start hsize hlocals hs,
      Solver.renumber_eq_self (not_mentions_of_start hlocals hs), rfl⟩
  | choose h hpending hi ih =>
    obtain ⟨history, t, work, ht, rfl, hwork⟩ := ih
    cases work with
    | choose => exact ⟨history, _, _, ht.choose hpending hi, rfl, rfl⟩
    | leave _ _ _ | arrive _ _ _ => cases hwork
  | @handler s u index i r rs h hu ih =>
    obtain ⟨history, t, work, ht, rfl, hwork⟩ := ih
    cases work with
    | choose | arrive _ _ _ => cases hwork
    | leave _ _ _ =>
      cases hwork
      unfold Solver.flowToRegion at hu
      split at hu
      · next hcovers =>
        split at hu
        · cases hu
        · next here hhere =>
          obtain ⟨x, hx, rfl⟩ := Solver.exists_of_renumber (Solver.stateAt_eq_ok_iff.1 hhere)
          have htame := (ht.occurs hp).2 x (.recorded hx)
          have hmem := h.isSoundAt.task.2.1 List.mem_cons_self
          rw [← (isTame_caught hp htame hmem).2] at hu
          obtain ⟨t', hflows, rfl⟩ := exists_flowsTraced hu
          exact ⟨history, t', _, ht.handler hcovers hx hflows, rfl, rfl⟩
      · next hcovers =>
        cases hu
        exact ⟨history, t, _, ht.pass hcovers, rfl, rfl⟩
  | @interpret s index i here out targets h hhere hout htargets ih =>
    obtain ⟨history, t, work, ht, rfl, hwork⟩ := ih
    cases work with
    | choose | arrive _ _ _ => cases hwork
    | leave _ _ _ =>
      cases hwork
      obtain ⟨x, hx, rfl⟩ := Solver.exists_of_renumber (Solver.stateAt_eq_ok_iff.1 hhere)
      obtain ⟨hoccurs, htame⟩ := ht.occurs hp
      have hfresh := (hoccurs.isFreshAt (Solver.exists_caught_eq hp)).fresh
        (Solver.stateAt_eq_ok_iff.1 hhere)
      have heffect := ((htame x (.recorded hx)).effect hfresh i).1
      rw [hout] at heffect
      -- the effect on the traced state succeeds as well
      cases hx' : effect (p.unrolled (history ++ [index])) history.length i x with
      | error e =>
        rw [hx'] at heffect
        cases heffect
      | ok out' =>
        rw [hx'] at heffect
        cases heffect
        refine ⟨history ++ [index], _, _, ht.interpret hx hx' htargets, ?_, rfl⟩
        have hsame : t.renumber (p.origin (history ++ [index])) = t.renumber (p.origin history) :=
          Solver.renumber_congr fun other y hy n hn =>
            Program.origin_append ((htame y (.recorded hy)).bounded n hn) index
        have hheight (f : Nat → Nat) (y : State) : (y.renumber f).stack.length = y.stack.length :=
          List.length_map _
        rw [hheight, hheight, ← hsame]
        rfl
  | @successor s u index target out targets h hu ih =>
    obtain ⟨history, t, work, ht, rfl, hwork⟩ := ih
    cases work with
    | choose | leave _ _ _ => cases hwork
    | arrive _ _ _ =>
      cases hwork
      obtain ⟨htarget, hflow⟩ := Solver.flowToSuccessor_eq_ok hu
      obtain ⟨t', hflows, rfl⟩ := exists_flowsTraced hflow
      exact ⟨history, t', _, ht.successor htarget hflows, rfl, rfl⟩
  | done h ih =>
    obtain ⟨history, t, work, ht, rfl, hwork⟩ := ih
    cases work with
    | choose | leave _ _ _ => cases hwork
    | arrive _ _ _ =>
      cases hwork
      exact ⟨history, t, _, ht.done, rfl, rfl⟩

/-! ## Objects stay apart -/

omit hp in
theorem Holds.renumber {s : Solver} {task : Task} {x : State} (h : Holds s task x) (f : Nat → Nat) :
    Holds (s.renumber f) (task.renumber f) (x.renumber f) := by
  cases h with
  | @recorded _ index _ hx =>
    have hget : (s.renumber f).states[index]? = some (some (x.renumber f)) := by
      rw [Solver.getElem?_renumber, hx]
      rfl
    exact .recorded hget
  | underway => exact .underway

/-- An object of a traced state has been made by an execution of a `new` instruction. -/
theorem Traced.exists_new {history : List Nat} {s : Solver} {task : Task}
    (h : Traced p history s task) {x : State} (hx : Holds s task x) {n : Nat} (hn : x.Mentions n) :
    ∃ index position name, history[n]? = some index ∧
      p.instructions[index]? = some (position, .type .new name) := by
  obtain ⟨hoccurs, htame⟩ := h.occurs hp
  have hlt := (htame x hx).bounded n hn
  have hforgotten : (x.renumber (p.origin history)).Mentions (p.origin history n) :=
    State.mentions_renumber_iff.2 ⟨n, hn, rfl⟩
  obtain ⟨position, name, hnew⟩ := exists_new_of_mentions hp hoccurs (hx.renumber _) hforgotten
  refine ⟨p.origin history n, position, name, ?_, hnew⟩
  rw [Program.origin, List.getD_eq_getElem?_getD, List.getElem?_eq_getElem hlt]
  rfl

omit hp in
/-- In a tame state the call of a constructor initializes the object that it is called on and no
other, although the analysis sees only the instruction that made the object. -/
theorem IsTame.takeReceiver_constructor {history : List Nat} {x : State} (hx : IsTame p history x)
    {count n : Nat} {y : State} {rest : List VerificationType} (hy : x.drop count = .ok y)
    (hstack : y.stack = .uninitialized (.position n) :: rest) :
    takeReceiver p .invokespecial Program.constructorName (y.renumber (p.origin history)) =
      .ok ((State.replaceAll ⟨y.locals, rest⟩ (.uninitialized (.position n))
        (.object (p.createdAt (p.origin history n)))).renumber (p.origin history)) := by
  have hr := p.renumbers_unrolled history
  have hinj : ∀ ⦃j k : Nat⦄, x.Mentions j → x.Mentions k →
      p.origin history j = p.origin history k → j = k := fun j k => hx.apart j k
  have hnumbers : y.Each (IsNumberedIn x.Mentions) :=
    (each_isNumberedIn_iff.2 fun _ hn => hn).drop hy
  rw [takeReceiver_renumber hr hinj hnumbers]
  have htake : takeReceiver (p.unrolled history) .invokespecial Program.constructorName y =
      .ok (State.replaceAll ⟨y.locals, rest⟩ (.uninitialized (.position n))
        (.object ((p.unrolled history).createdAt n))) := by
    obtain ⟨locals, stack⟩ := y
    subst hstack
    rfl
  rw [htake, hr.createdAt]
  rfl

/-- **Uninitialized objects are never confused.** Whenever the analysis of a method holds an
uninitialized object, a `new` instruction has made it; the state before an instruction never holds
an object of that instruction; and when objects are told apart by the execution that made them, a
state holds at most one object of each instruction, so that a constructor initializes only the
object that it is called on. -/
theorem objects_stay_apart :
    (∀ s task, Occurs p s task →
      (∀ x k, Holds s task x → x.Mentions k →
        ∃ position name, p.instructions[k]? = some (position, .type .new name)) ∧
      (∀ (index : Nat) (x : State), s.states[index]? = some (some x) → ¬x.Mentions index) ∧
      ∃ history t work, Traced p history t work ∧ t.renumber (p.origin history) = s ∧
        work.renumber (p.origin history) = task) ∧
    ∀ history t work, Traced p history t work → ∀ x, Holds t work x →
      (∀ n, x.Mentions n → ∃ index position name, history[n]? = some index ∧
        p.instructions[index]? = some (position, .type .new name)) ∧
      (∀ j k, x.Mentions j → x.Mentions k → p.origin history j = p.origin history k → j = k) ∧
      ∀ count y n rest, x.drop count = .ok y →
        y.stack = .uninitialized (.position n) :: rest →
        takeReceiver p .invokespecial Program.constructorName (y.renumber (p.origin history)) =
          .ok ((State.replaceAll ⟨y.locals, rest⟩ (.uninitialized (.position n))
            (.object (p.createdAt (p.origin history n)))).renumber (p.origin history)) := by
  refine ⟨?_, ?_⟩
  · intro s task h
    refine ⟨fun x k hx hk => exists_new_of_mentions hp h hx hk, ?_, h.exists_traced hp⟩
    exact fun index x hx => (h.isFreshAt (Solver.exists_caught_eq hp)).fresh hx
  · intro history t work h x hx
    have htame := (h.occurs hp).2 x hx
    refine ⟨fun n hn => h.exists_new hp hx hn, htame.apart, ?_⟩
    intro count y n rest hy hstack
    exact htame.takeReceiver_constructor hy hstack

end Method

/-- A method that makes objects forever. -/
def makerMethod : Method where
  access := 0x8
  name := "f"
  descriptor := "()V"
  body := [.label ⟨"L"⟩, .instruction (.type .new (some "A")), .instruction (.plain .pop),
    .instruction (.jump .goto ⟨"L"⟩)]

/-- The program of the method that makes objects. -/
def makerProgram : Program where
  owner := "A"
  method := makerMethod
  instructions := #[(1, .type .new (some "A")), (2, .plain .pop), (3, .jump .goto ⟨"L"⟩)]
  indexOf := ({} : Std.HashMap Label Nat).insert ⟨"L"⟩ 0
  regions := []

/-- The states of the method that makes objects. -/
def makerSolver : Solver where
  states := #[some ⟨[], []⟩, some ⟨[], [.uninitialized (.position 0)]⟩, some ⟨[], []⟩]
  pending := []
  maxStack := 1

/-- The analysis of the method that makes objects. -/
theorem run_makerProgram : Solver.run makerProgram = .ok makerSolver := by
  have hentry : makerProgram.entryLocals = .ok [] := entryLocals_of_static rfl rfl
  have hsuccessors : makerProgram.successors 2 (.jump .goto ⟨"L"⟩) = .ok [0] := by
    have hresolve : makerProgram.resolve ⟨"L"⟩ = .ok 0 := by
      simp [Program.resolve, Program.lookup, makerProgram]
    simp only [Program.successors, Instruction.targets, List.mapM_cons, List.mapM_nil, hresolve]
    rfl
  unfold Solver.run
  rw [hentry]
  show Solver.solve makerProgram ⟨#[some ⟨[], []⟩, none, none], [0], 0⟩ = .ok makerSolver
  rw [Solver.solve_of_visit
      (t := ⟨#[some ⟨[], []⟩, some ⟨[], [.uninitialized (.position 0)]⟩, none], [1], 1⟩) rfl rfl,
    Solver.solve_of_visit (t := { makerSolver with pending := [2] }) rfl rfl,
    Solver.solve_of_visit (t := makerSolver) rfl ?_, Solver.solve_of_nil rfl]
  show makerSolver.apply makerProgram 2 (.jump .goto ⟨"L"⟩) = .ok makerSolver
  unfold Solver.apply
  simp only [hsuccessors]
  rfl

/-- The method that makes objects comes back to its `new` instruction without the last object. -/
theorem not_mentions_makerSolver :
    Program.ofMethod "A" makerMethod = .ok makerProgram ∧
      Occurs makerProgram makerSolver .choose ∧
      makerSolver.states[1]? = some (some ⟨[], [.uninitialized (.position 0)]⟩) ∧
      ∀ (index : Nat) (x : State), makerSolver.states[index]? = some (some x) →
        ¬x.Mentions index := by
  have hp : Program.ofMethod "A" makerMethod = .ok makerProgram := rfl
  have hoccurs : Occurs makerProgram makerSolver .choose :=
    occurs_of_run (by decide) run_makerProgram
  exact ⟨hp, hoccurs, rfl, ((objects_stay_apart hp).1 _ _ hoccurs).2.1⟩

end ClassTree.Flow
