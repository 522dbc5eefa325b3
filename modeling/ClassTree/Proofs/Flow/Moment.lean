/-
# ClassTree.Proofs.Flow.Moment — the moments of an analysis

What holds when the analysis has ended says nothing about an analysis that fails on its way. So a
run is cut here into single steps: an instruction is chosen, its state flows to one handler after
another, the instruction is carried out, the result flows to one successor after another. `Occurs`
collects the moments between the steps, and `Fails` the steps that cannot be taken. Every run ends
at a moment that occurs with nothing pending, or with a failure that is collected.

The collection comes with two ways to use it. A property of single states is proved by an
annotation of the program, as a loop is by its invariant; a property that relates the states of
different instructions is proved by induction on `Occurs` itself.
-/
import ClassTree.Proofs.Descriptor
import ClassTree.Proofs.Flow.Origin

namespace ClassTree.Flow

open Result (bind_eq_ok_iff bind_eq_error_iff)

/-- What the solver is about to do. -/
inductive Task where
  /-- Take the next pending instruction. -/
  | choose
  /-- Let the state before an instruction flow to the handlers that are left, then carry it out. -/
  | leave (index : Nat) (i : Instruction Label) (regions : List Region)
  /-- Let the state after an instruction flow to the successors that are left. -/
  | arrive (index : Nat) (out : State) (targets : List Nat)

variable (p : Program)

/-- The moments of the analysis of a program with instructions. -/
inductive Occurs : Solver → Task → Prop
  | start {locals : List VerificationType} {s : Solver} (hsize : 0 < p.size)
      (hlocals : p.entryLocals = .ok locals)
      (hs : (Solver.initial p).flow p 0 ⟨locals, []⟩ = .ok s) : Occurs s .choose
  | choose {s : Solver} {index position : Nat} {rest : List Nat} {i : Instruction Label}
      (h : Occurs s .choose) (hpending : s.pending = index :: rest)
      (hi : p.instructions[index]? = some (position, i)) :
      Occurs { s with pending := rest } (.leave index i p.regions)
  | handler {s t : Solver} {index : Nat} {i : Instruction Label} {r : Region} {rs : List Region}
      (h : Occurs s (.leave index i (r :: rs))) (ht : Solver.flowToRegion p index s r = .ok t) :
      Occurs t (.leave index i rs)
  | interpret {s : Solver} {index : Nat} {i : Instruction Label} {here out : State}
      {targets : List Nat} (h : Occurs s (.leave index i [])) (hhere : s.stateAt index = .ok here)
      (hout : effect p index i here = .ok out) (htargets : p.successors index i = .ok targets) :
      Occurs { s with maxStack := max s.maxStack (max here.stack.length out.stack.length) }
        (.arrive index out targets)
  | successor {s t : Solver} {index target : Nat} {out : State} {targets : List Nat}
      (h : Occurs s (.arrive index out (target :: targets)))
      (ht : Solver.flowToSuccessor p index out s target = .ok t) :
      Occurs t (.arrive index out targets)
  | done {s : Solver} {index : Nat} {out : State} (h : Occurs s (.arrive index out [])) :
      Occurs s .choose

/-- The failures of steps at moments that occur. -/
inductive Fails : Error → Prop
  | handler {s : Solver} {index : Nat} {i : Instruction Label} {r : Region} {rs : List Region}
      {here : State} {e : Error} (h : Occurs p s (.leave index i (r :: rs)))
      (hstart : r.start ≤ index) (hstop : index < r.stop) (hhere : s.stateAt index = .ok here)
      (he : s.flow p r.target ⟨here.locals, [r.caught]⟩ = .error e) : Fails e
  | effect {s : Solver} {index : Nat} {i : Instruction Label} {here : State} {e : Error}
      (h : Occurs p s (.leave index i [])) (hhere : s.stateAt index = .ok here)
      (he : p.locate index (effect p index i here) = .error e) : Fails e
  | successors {s : Solver} {index : Nat} {i : Instruction Label} {e : Error}
      (h : Occurs p s (.leave index i [])) (he : p.successors index i = .error e) : Fails e
  | offTheEnd {s : Solver} {index target : Nat} {out : State} {targets : List Nat}
      (h : Occurs p s (.arrive index out (target :: targets))) (ht : p.size ≤ target) :
      Fails (.unverified .offTheEnd (some p.place) (p.position? index))
  | successor {s : Solver} {index target : Nat} {out : State} {targets : List Nat} {e : Error}
      (h : Occurs p s (.arrive index out (target :: targets))) (ht : target < p.size)
      (he : s.flow p target out = .error e) : Fails e

/-! ## What flowing does -/

namespace Solver

/-- The instruction has been reached. -/
def Knows (s : Solver) (index : Nat) : Prop := ∃ known, s.states[index]? = some (some known)

/-- A solver that has received a state for an instruction, where it is now known as `merged`. -/
structure Receives (s : Solver) (index : Nat) (incoming merged : State) (t : Solver) : Prop where
  found : s.states[index]? = some none ∧ merged = incoming ∨
    ∃ known, s.states[index]? = some (some known) ∧ known.merge incoming = .ok merged
  states : ∀ other, t.states[other]? =
    if other = index then some (some merged) else s.states[other]?
  size : t.states.size = s.states.size
  pending : ∀ other ∈ t.pending, other = index ∨ other ∈ s.pending

variable {p}

/-- Letting a state flow to an instruction is receiving it there. -/
theorem receives_of_flow {s t : Solver} {index : Nat} {incoming : State}
    (h : s.flow p index incoming = .ok t) : ∃ merged, s.Receives index incoming merged t := by
  have hset (state : State) (hi : index < s.states.size) (other : Nat) :
      (s.states.set index (some state))[other]? =
        if other = index then some (some state) else s.states[other]? := by
    rw [Array.getElem?_set]
    by_cases heq : other = index
    · rw [if_pos heq.symm, if_pos heq]
    · rw [if_neg (Ne.symm heq), if_neg heq]
  unfold flow at h
  split at h
  · next hi =>
    split at h
    · next hnone =>
      cases h
      refine ⟨incoming, .inl ⟨by rw [Array.getElem?_eq_getElem hi, hnone], rfl⟩, hset _ hi, ?_, ?_⟩
      · exact Array.size_set hi
      · intro other hother
        exact List.mem_cons.1 hother
    · next known hknown =>
      have hknown : s.states[index]? = some (some known) := by
        rw [Array.getElem?_eq_getElem hi, hknown]
      split at h
      · cases h
      · next merged hmerged =>
        rw [Program.locate_eq_ok_iff] at hmerged
        split at h <;> cases h
        · next heq =>
          -- the merge has changed nothing, so the state that is recorded already is the merged one
          refine ⟨merged, .inr ⟨known, hknown, hmerged⟩, ?_, rfl, fun _ hother => .inr hother⟩
          intro other
          split
          · next hother => rw [hother, hknown, heq]
          · rfl
        · refine ⟨merged, .inr ⟨known, hknown, hmerged⟩, hset _ hi, ?_, ?_⟩
          · exact Array.size_set hi
          · intro other hother
            exact List.mem_cons.1 hother
  · cases h

/-- A state cannot flow to an instruction that does not exist, or where it does not merge. -/
theorem flow_eq_error {s : Solver} {index : Nat} {incoming : State} {e : Error}
    (h : s.flow p index incoming = .error e) :
    s.states.size ≤ index ∧ e = .undefined .index ∨
      ∃ known, s.states[index]? = some (some known) ∧
        p.locate index (known.merge incoming) = .error e := by
  unfold flow at h
  split at h
  · next hi =>
    split at h
    · cases h
    · next known hknown =>
      split at h
      · next hmerge =>
        cases h
        exact .inr ⟨known, by rw [Array.getElem?_eq_getElem hi, hknown], hmerge⟩
      · split at h <;> cases h
  · next hi =>
    cases h
    exact .inl ⟨Nat.le_of_not_lt hi, rfl⟩

/-- What flows to a handler are the locals before an instruction that it covers. -/
theorem flowToRegion_eq_ok {s t : Solver} {index : Nat} {r : Region}
    (h : flowToRegion p index s r = .ok t) :
    t = s ∨ r.start ≤ index ∧ index < r.stop ∧ ∃ here, s.states[index]? = some (some here) ∧
      s.flow p r.target ⟨here.locals, [r.caught]⟩ = .ok t := by
  unfold flowToRegion at h
  split at h
  · next hcovers =>
    split at h
    · cases h
    · next here hhere => exact .inr ⟨hcovers.1, hcovers.2, here, stateAt_eq_ok_iff.1 hhere, h⟩
  · cases h
    exact .inl rfl

/-- What flows to a successor flows to an instruction. -/
theorem flowToSuccessor_eq_ok {s t : Solver} {index target : Nat} {out : State}
    (h : flowToSuccessor p index out s target = .ok t) :
    target < p.size ∧ s.flow p target out = .ok t := by
  unfold flowToSuccessor at h
  split at h
  · next hlt => exact ⟨hlt, h⟩
  · cases h

namespace Receives

variable {s t : Solver} {index : Nat} {incoming merged : State}

theorem knows (h : s.Receives index incoming merged t) {other : Nat} (ho : s.Knows other) :
    t.Knows other := by
  obtain ⟨known, hknown⟩ := ho
  by_cases heq : other = index
  · exact ⟨merged, by rw [h.states, if_pos heq]⟩
  · exact ⟨known, by rw [h.states, if_neg heq, hknown]⟩

theorem knows_index (h : s.Receives index incoming merged t) : t.Knows index :=
  ⟨merged, by rw [h.states, if_pos rfl]⟩

/-- A known state is the one that has been received or an old one. -/
theorem known (h : s.Receives index incoming merged t) {other : Nat} {state : State}
    (hstate : t.states[other]? = some (some state)) :
    other = index ∧ state = merged ∨ other ≠ index ∧ s.states[other]? = some (some state) := by
  rw [h.states] at hstate
  split at hstate
  · next heq =>
    cases hstate
    exact .inl ⟨heq, rfl⟩
  · next hne => exact .inr ⟨hne, hstate⟩

end Receives

end Solver

/-! ## Moments make sense -/

variable {p}

/-- What the solver is about to do makes sense in its state. -/
def Task.IsSound (p : Program) (s : Solver) : Task → Prop
  | .choose => True
  | .leave index i regions => s.Knows index ∧ regions ⊆ p.regions ∧
      ∃ position, p.instructions[index]? = some (position, i)
  | .arrive index _ targets => s.Knows index ∧ ∃ position i all,
      p.instructions[index]? = some (position, i) ∧ p.successors index i = .ok all ∧ targets ⊆ all

/-- A moment has a state for every instruction that it works on. -/
structure IsSoundAt (p : Program) (s : Solver) (task : Task) : Prop where
  size : s.states.size = p.size
  pending : ∀ index ∈ s.pending, s.Knows index
  task : task.IsSound p s

/-- Receiving a state keeps what is known and what is pending in line. -/
theorem IsSoundAt.receives {s t : Solver} {index : Nat} {incoming merged : State} {task : Task}
    (hs : IsSoundAt p s task) (h : s.Receives index incoming merged t) {next : Task}
    (hnext : next.IsSound p t) : IsSoundAt p t next where
  size := h.size.trans hs.size
  pending := by
    intro other hother
    rcases h.pending other hother with rfl | hother
    · exact h.knows_index
    · exact h.knows (hs.pending other hother)
  task := hnext

theorem Occurs.isSoundAt {s : Solver} {task : Task} (h : Occurs p s task) : IsSoundAt p s task := by
  induction h with
  | start hsize hlocals hs =>
    obtain ⟨merged, hreceives⟩ := Solver.receives_of_flow hs
    have hinitial : IsSoundAt p (Solver.initial p) .choose :=
      ⟨by simp [Solver.initial], by simp [Solver.initial], trivial⟩
    exact hinitial.receives hreceives trivial
  | choose h hpending hi ih =>
    have hknown := ih.pending _ (by rw [hpending]; exact List.mem_cons_self)
    refine ⟨ih.size, ?_, hknown, List.Subset.refl _, _, hi⟩
    intro other hother
    exact ih.pending other (by rw [hpending]; exact List.mem_cons_of_mem _ hother)
  | handler h ht ih =>
    obtain ⟨hknows, hregions, hi⟩ := ih.task
    have hrest := List.subset_of_cons_subset hregions
    rcases Solver.flowToRegion_eq_ok ht with rfl | ⟨-, -, here, -, hflow⟩
    · exact ⟨ih.size, ih.pending, hknows, hrest, hi⟩
    · obtain ⟨merged, hreceives⟩ := Solver.receives_of_flow hflow
      exact ih.receives hreceives ⟨hreceives.knows hknows, hrest, hi⟩
  | interpret h hhere hout htargets ih =>
    obtain ⟨hknows, -, position, hi⟩ := ih.task
    exact ⟨ih.size, ih.pending, hknows, position, _, _, hi, htargets, List.Subset.refl _⟩
  | successor h ht ih =>
    obtain ⟨hknows, position, i, all, hi, hall, hsubset⟩ := ih.task
    obtain ⟨merged, hreceives⟩ :=
      Solver.receives_of_flow (Solver.flowToSuccessor_eq_ok ht).2
    exact ih.receives hreceives ⟨hreceives.knows hknows, position, i, all, hi, hall,
      List.subset_of_cons_subset hsubset⟩
  | done h ih => exact ⟨ih.size, ih.pending, trivial⟩

/-! ## Runs -/

/-- A run ends with a moment that occurs or with a failure that is collected. -/
def Ends (p : Program) (task : Task) : Result Solver → Prop
  | .ok s => Occurs p s task
  | .error e => Fails p e

/-- Steps in a row, one for each element of a list: the induction is on the list, the task after a
step names the elements that are left. -/
theorem ends_foldlM {α : Type} (step : Solver → α → Result Solver) (task : List α → Task)
    (hok : ∀ {s a l t}, Occurs p s (task (a :: l)) → step s a = .ok t → Occurs p t (task l))
    (herror : ∀ {s a l e}, Occurs p s (task (a :: l)) → step s a = .error e → Fails p e)
    {l : List α} {s : Solver} (h : Occurs p s (task l)) :
    Ends p (task []) (l.foldlM step s) := by
  induction l generalizing s with
  | nil => exact h
  | cons a l ih =>
    rw [List.foldlM_cons]
    cases hstep : step s a with
    | ok t => exact ih (hok h hstep)
    | error e => exact herror h hstep

theorem ends_regions {s : Solver} {index : Nat} {i : Instruction Label} {rs : List Region}
    (h : Occurs p s (.leave index i rs)) :
    Ends p (.leave index i []) (rs.foldlM (Solver.flowToRegion p index) s) := by
  refine ends_foldlM (Solver.flowToRegion p index) (.leave index i) (fun h ht => h.handler ht) ?_ h
  intro s r rs e h he
  obtain ⟨⟨known, hknown⟩, -⟩ := h.isSoundAt.task
  have hhere := Solver.stateAt_eq_ok_iff.2 hknown
  unfold Solver.flowToRegion at he
  split at he
  · next hcovers =>
    rw [hhere] at he
    exact .handler h hcovers.1 hcovers.2 hhere he
  · cases he

theorem ends_apply {s : Solver} {index : Nat} {i : Instruction Label}
    (h : Occurs p s (.leave index i [])) : Ends p .choose (s.apply p index i) := by
  obtain ⟨⟨known, hknown⟩, -⟩ := h.isSoundAt.task
  have hhere := Solver.stateAt_eq_ok_iff.2 hknown
  unfold Solver.apply
  rw [hhere, Result.ok_bind]
  cases hout : p.locate index (effect p index i known) with
  | error e => exact .effect h hhere hout
  | ok out =>
    rw [Result.ok_bind]
    cases htargets : p.successors index i with
    | error e => exact .successors h htargets
    | ok targets =>
      rw [Result.ok_bind]
      have harrive := h.interpret hhere (Program.locate_eq_ok_iff.1 hout) htargets
      have hends := ends_foldlM (Solver.flowToSuccessor p index out) (.arrive index out)
        (fun h ht => h.successor ht) ?_ harrive
      · -- the successors have all been served, so the next instruction is chosen
        revert hends
        cases targets.foldlM (Solver.flowToSuccessor p index out) _ with
        | ok t => exact Occurs.done
        | error e => exact id
      · intro s target targets e h he
        unfold Solver.flowToSuccessor at he
        split at he
        · next hlt => exact .successor h hlt he
        · next hge =>
          cases he
          exact .offTheEnd h (Nat.le_of_not_lt hge)

theorem ends_visit {s : Solver} {index : Nat} {rest : List Nat} (h : Occurs p s .choose)
    (hpending : s.pending = index :: rest) :
    Ends p .choose (({ s with pending := rest } : Solver).visit p index) := by
  have hsound := h.isSoundAt
  obtain ⟨known, hknown⟩ := hsound.pending index (by rw [hpending]; exact List.mem_cons_self)
  have hlt : index < p.instructions.size := by
    show index < p.size
    rw [← hsound.size]
    exact (Array.getElem?_eq_some_iff.1 hknown).1
  have hi := Array.getElem?_eq_getElem hlt
  unfold Solver.visit
  rw [hi]
  have hends := ends_regions (h.choose hpending (i := p.instructions[index].2) hi)
  show Ends p .choose (_ >>= _)
  revert hends
  cases p.regions.foldlM (Solver.flowToRegion p index) _ with
  | ok t => exact ends_apply
  | error e => exact id

theorem ends_solve {s : Solver} (h : Occurs p s .choose) : Ends p .choose (s.solve p) := by
  induction s using Solver.solve.induct p with
  | case1 s hnil =>
    rw [Solver.solve_of_nil hnil]
    exact h
  | case2 s index rest hcons e hfail =>
    have hends := ends_visit h hcons
    rw [hfail] at hends
    rw [Solver.solve_of_refusal hcons hfail]
    exact hends
  | case3 s index rest hcons u hvisit ih =>
    have hends := ends_visit h hcons
    rw [hvisit] at hends
    rw [Solver.solve_of_visit hcons hvisit]
    exact ih hends

/-- The first instruction takes the state at the beginning of the method. -/
theorem exists_flow_initial (hsize : 0 < p.size) (entry : State) :
    ∃ s, (Solver.initial p).flow p 0 entry = .ok s := by
  unfold Solver.flow
  simp [Solver.initial, hsize]

/-- The analysis of a program with instructions ends with a moment that occurs, unless the method
has no locals to begin with or a step fails. -/
theorem ends_run (hsize : 0 < p.size) :
    (∃ e, p.entryLocals = .error e ∧ Solver.run p = .error e) ∨ Ends p .choose (Solver.run p) := by
  unfold Solver.run
  rw [if_neg (Nat.ne_of_gt hsize)]
  cases hlocals : p.entryLocals with
  | error e => exact .inl ⟨e, rfl, rfl⟩
  | ok locals =>
    obtain ⟨s, hs⟩ := exists_flow_initial hsize ⟨locals, []⟩
    rw [Result.ok_bind, hs]
    exact .inr (ends_solve (.start hsize hlocals hs))

/-- What the analysis of a program with instructions returns occurs. -/
theorem occurs_of_run {s : Solver} (hsize : 0 < p.size) (h : Solver.run p = .ok s) :
    Occurs p s .choose := by
  rcases ends_run hsize with ⟨e, -, he⟩ | hends
  · rw [he] at h
    cases h
  · rwa [h] at hends

/-- An analysis that fails has found no locals to begin with, or a step of it has failed. -/
theorem fails_of_run {e : Error} (h : Solver.run p = .error e) :
    p.entryLocals = .error e ∨ Fails p e := by
  by_cases hsize : 0 < p.size
  · rcases ends_run hsize with ⟨e', hlocals, he⟩ | hends
    · rw [he] at h
      cases h
      exact .inl hlocals
    · rw [h] at hends
      exact .inr hends
  · rw [Solver.run, if_pos (by omega)] at h
    cases h

/-! ## Programs of methods -/

/-- The instructions of the program of a method stand in its body. -/
theorem mem_body_of_ofMethod {owner : Text} {m : Method} (hp : Program.ofMethod owner m = .ok p)
    {index position : Nat} {i : Instruction Label}
    (hi : p.instructions[index]? = some (position, i)) : .instruction i ∈ m.body := by
  obtain ⟨regions, -, hp⟩ := bind_eq_ok_iff.1 hp
  cases hp
  have hmem := Array.mem_of_getElem? hi
  obtain ⟨⟨item, place⟩, hitem, hpair⟩ := List.mem_filterMap.1 (List.mem_toArray.1 hmem)
  obtain ⟨-, -, heq⟩ := List.mem_zipIdx hitem
  have hbody : item ∈ m.body := by
    rw [heq]
    exact List.getElem_mem _
  cases item with
  | instruction j =>
    cases hpair
    exact hbody
  | label _ | line _ | frame _ => cases hpair

/-- A static method without arguments begins without locals. -/
theorem entryLocals_of_static (hstatic : p.method.isStatic = true)
    (hdescriptor : p.method.descriptor = "()V") : p.entryLocals = .ok [] := by
  have hmethod : Descriptor.IsMethodOf [] "()V" := ⟨List.forall_mem_nil _, "V", .inr rfl, by decide⟩
  unfold Program.entryLocals
  rw [hdescriptor, hmethod.arguments_eq]
  show Except.ok (p.receiverSlots ++ []) = .ok []
  rw [Program.receiverSlots, if_pos hstatic, List.append_nil]

/-! ## Annotations -/

/-- The analysis carries out an instruction in a state. -/
def Interprets (p : Program) (index : Nat) (i : Instruction Label) (here : State) : Prop :=
  ∃ s, Occurs p s (.leave index i []) ∧ s.states[index]? = some (some here)

/-- Statements about the states before and after the instructions of a program that follow from each
other along every way a state can flow. -/
structure Annotates (p : Program) (before after : Nat → State → Prop) : Prop where
  entry : ∀ {locals}, p.entryLocals = .ok locals → before 0 ⟨locals, []⟩
  merge : ∀ {index known incoming merged}, before index known → before index incoming →
    known.merge incoming = .ok merged → before index merged
  handler : ∀ {r index here}, r ∈ p.regions → r.start ≤ index → index < r.stop →
    before index here → before r.target ⟨here.locals, [r.caught]⟩
  effect : ∀ {index position i here out}, p.instructions[index]? = some (position, i) →
    Interprets p index i here → before index here → effect p index i here = .ok out →
    after index out
  edge : ∀ {index position i out targets target}, p.instructions[index]? = some (position, i) →
    p.successors index i = .ok targets → target ∈ targets → after index out → before target out

/-- What an annotation says of a moment. -/
structure HoldsAt (before after : Nat → State → Prop) (s : Solver) (task : Task) : Prop where
  known : ∀ {index known}, s.states[index]? = some (some known) → before index known
  out : ∀ {index out targets}, task = .arrive index out targets → after index out

namespace Annotates

variable {before after : Nat → State → Prop} (ha : Annotates p before after)
include ha

theorem known_of_receives {s t : Solver} {index : Nat} {incoming merged : State}
    (hs : ∀ {index known}, s.states[index]? = some (some known) → before index known)
    (hincoming : before index incoming) (h : s.Receives index incoming merged t) {other : Nat}
    {state : State} (hstate : t.states[other]? = some (some state)) : before other state := by
  rcases h.known hstate with ⟨rfl, rfl⟩ | ⟨-, hold⟩
  · rcases h.found with ⟨-, rfl⟩ | ⟨known, hknown, hmerge⟩
    · exact hincoming
    · exact ha.merge (hs hknown) hincoming hmerge
  · exact hs hold

/-- An annotation holds at every moment. The induction is on the steps of the analysis; each kind of
step is one of the ways that the annotation speaks of. -/
theorem holdsAt {s : Solver} {task : Task} (h : Occurs p s task) :
    HoldsAt before after s task := by
  induction h with
  | start hsize hlocals hs =>
    obtain ⟨merged, hreceives⟩ := Solver.receives_of_flow hs
    refine ⟨fun hstate => ha.known_of_receives ?_ (ha.entry hlocals) hreceives hstate, ?_⟩
    · intro index known hknown
      simp [Solver.initial, Array.getElem?_replicate] at hknown
    · rintro _ _ _ ⟨⟩
  | choose h hpending hi ih =>
    refine ⟨ih.known, ?_⟩
    rintro _ _ _ ⟨⟩
  | handler h ht ih =>
    refine ⟨?_, by rintro _ _ _ ⟨⟩⟩
    rcases Solver.flowToRegion_eq_ok ht with rfl | ⟨hstart, hstop, here, hhere, hflow⟩
    · exact ih.known
    · obtain ⟨merged, hreceives⟩ := Solver.receives_of_flow hflow
      have hr := h.isSoundAt.task.2.1 List.mem_cons_self
      have hincoming := ha.handler hr hstart hstop (ih.known hhere)
      intro other state hstate
      exact ha.known_of_receives ih.known hincoming hreceives hstate
  | interpret h hhere hout htargets ih =>
    refine ⟨ih.known, ?_⟩
    rintro _ _ _ ⟨⟩
    obtain ⟨-, -, position, hi⟩ := h.isSoundAt.task
    have hhere := Solver.stateAt_eq_ok_iff.1 hhere
    exact ha.effect hi ⟨_, h, hhere⟩ (ih.known hhere) hout
  | successor h ht ih =>
    obtain ⟨-, position, i, all, hi, hall, hsubset⟩ := h.isSoundAt.task
    obtain ⟨merged, hreceives⟩ :=
      Solver.receives_of_flow (Solver.flowToSuccessor_eq_ok ht).2
    have hout := ha.edge hi hall (hsubset List.mem_cons_self) (ih.out rfl)
    refine ⟨ha.known_of_receives ih.known hout hreceives, ?_⟩
    rintro _ _ _ ⟨⟩
    exact ih.out rfl
  | done h ih =>
    refine ⟨ih.known, ?_⟩
    rintro _ _ _ ⟨⟩

end Annotates

end ClassTree.Flow
