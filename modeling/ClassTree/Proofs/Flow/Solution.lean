/-
# ClassTree.Proofs.Flow.Solution — what the solver returns is a fixpoint

When nothing is pending any more, the invariant of the solver says that it knows the states before
the instructions that control can reach, and no others; that these states explain each other; and
that its greatest height is the greatest one among them.
-/
import ClassTree.Proofs.Flow.Invariant
import Mathlib.Order.Bounds.Defs

namespace ClassTree.Flow.Solver

variable {p : Program} {s : Solver}

/-! ## Solutions -/

/-- The heights of the stack before the instructions with a known state, and after them. -/
def heights (p : Program) (s : Solver) : Set Nat :=
  { n | ∃ index known, s.states[index]? = some (some known) ∧
    (known.height = n ∨ ∃ position i out, p.instructions[index]? = some (position, i) ∧
      effect p index i known = .ok out ∧ out.height = n) }

/-- The known states solve the equations of a program: letting them flow changes nothing. -/
structure Solution (p : Program) (s : Solver) : Prop where
  known_iff : ∀ index,
    (∃ known, s.states[index]? = some (some known)) ↔ p.Reachable index
  entry : 0 < p.size → ∃ locals, p.entryLocals = .ok locals ∧ s.flow p 0 ⟨locals, []⟩ = .ok s
  effect : ∀ {index : Nat} {known : State}, s.states[index]? = some (some known) →
    ∃ position i out, p.instructions[index]? = some (position, i) ∧
      Flow.effect p index i known = .ok out ∧
      (∀ label ∈ i.targets, ∃ target, p.resolve label = .ok target ∧
        s.flow p target out = .ok s) ∧
      (i.opcode.isTerminal = false → s.flow p (index + 1) out = .ok s)
  handler : ∀ {index : Nat} {known : State}, s.states[index]? = some (some known) →
    ∀ r ∈ p.regions, r.start ≤ index → index < r.stop →
      s.flow p r.target ⟨known.locals, [r.caught]⟩ = .ok s
  maxStack : 0 < p.size → IsGreatest (s.heights p) s.maxStack
  maxStack_of_empty : p.size = 0 → s.maxStack = 0

/-! ## From the invariant -/

theorem Takes.flow {target : Nat} {incoming : State} (h : s.Takes target incoming) :
    s.flow p target incoming = .ok s := by
  obtain ⟨known, hknown, habsorbs⟩ := h
  obtain ⟨hi, hget⟩ := Array.getElem?_eq_some_iff.1 hknown
  have hmerge : p.locate target (known.merge incoming) = .ok known :=
    Program.locate_eq_ok_iff.2 habsorbs
  unfold Solver.flow
  simp [hi, hget, hmerge]

section Settled

variable {entry : State} (hs : Invariant p entry s) (hnil : s.pending = [])
include hs hnil

theorem Invariant.settled_of_nil {index : Nat} {known : State}
    (hk : s.states[index]? = some (some known)) : Settled p s index known := by
  rcases hs.settled hk with hmem | hsettled
  · rw [hnil] at hmem
    cases hmem
  · exact hsettled

/-- With nothing pending, every reachable instruction has a state. The induction is on the way to
the instruction: the one before it is settled, so what comes out of it has been taken by its
successors. -/
theorem Invariant.exists_known {index : Nat} (h : p.Reachable index) :
    ∃ known, s.states[index]? = some (some known) := by
  induction h with
  | entry hsize =>
    obtain ⟨known, hknown, -⟩ := hs.entry
    exact ⟨known, hknown⟩
  | @step index target hreach hedge ih =>
    obtain ⟨known, hknown⟩ := ih
    have hsettled := hs.settled_of_nil hnil hknown
    obtain ⟨position, i, out, targets, hi, hout, htargets, -, htakes⟩ := hsettled.effect
    -- an edge names its instruction, which is the one that was carried out
    have hsame {position' : Nat} {i' : Instruction Label}
        (hi' : p.instructions[index]? = some (position', i')) : i' = i := by
      rw [hi] at hi'
      cases hi'
      rfl
    cases hedge with
    | fallThrough hi' hfalls =>
      obtain rfl := hsame hi'
      obtain ⟨next, hnext, -⟩ :=
        htakes _ ((Program.mem_successors_iff htargets _).2 (.inr ⟨hfalls, rfl⟩))
      exact ⟨next, hnext⟩
    | branch hi' hlabel htarget =>
      obtain rfl := hsame hi'
      obtain ⟨next, hnext, -⟩ :=
        htakes _ ((Program.mem_successors_iff htargets _).2 (.inl ⟨_, hlabel, htarget⟩))
      exact ⟨next, hnext⟩
    | handler hr hstart hstop =>
      obtain ⟨next, hnext, -⟩ := hsettled.handlers _ hr hstart hstop
      exact ⟨next, hnext⟩

/-- A height that was met on the way is one of the heights at the end. -/
theorem Invariant.mem_heights_of_met {height : Nat} (h : Met p s height) :
    height ∈ s.heights p := by
  obtain ⟨index, known, hknown, hmet⟩ := h
  refine ⟨index, known, hknown, ?_⟩
  rcases hmet with hmet | ⟨position, i, earlier, out, hi, hterm, hearlier, hout, hheight⟩
  · exact .inl hmet
  · obtain ⟨position', i', out', targets, hi', hout', -⟩ :=
      (hs.settled_of_nil hnil hknown).effect
    obtain ⟨rfl, rfl⟩ : position = position' ∧ i = i' := by simpa [hi] using hi'
    -- the state may have changed since, but not its height
    obtain ⟨g, hg⟩ := heightBy_effect p hterm index
    refine .inr ⟨position, i, out', hi, hout', ?_⟩
    rw [hg hout', ← hearlier, ← hg hout]
    exact hheight

/-- With nothing pending, the greatest height is the greatest one among the known states and what
comes after them. -/
theorem Invariant.isGreatest_maxStack (hentry : entry.height = 0) :
    IsGreatest (s.heights p) s.maxStack := by
  refine ⟨?_, ?_⟩
  · rcases hs.peak with hmet | hzero
    · exact hs.mem_heights_of_met hnil hmet
    · -- nothing was higher than the empty stack at the beginning
      obtain ⟨known, hknown, habsorbs⟩ := hs.entry
      refine ⟨0, known, hknown, .inl ?_⟩
      rw [hzero, ← hentry]
      exact habsorbs.length_stack
  · rintro n ⟨index, known, hknown, hn⟩
    have hsettled := hs.settled_of_nil hnil hknown
    rcases hn with rfl | ⟨position, i, out, hi, hout, rfl⟩
    · exact hsettled.height
    · obtain ⟨position', i', out', targets, hi', hout', -, hheight, -⟩ := hsettled.effect
      obtain ⟨rfl, rfl⟩ : position = position' ∧ i = i' := by simpa [hi] using hi'
      obtain rfl : out = out' := Except.ok.inj (hout.symm.trans hout')
      exact hheight

end Settled

/-! ## Runs -/

/-- What the analysis returns is a solution: it knows exactly the reachable instructions, their
states flow on without a change, and the greatest height is exact. In particular the state of the
entry, of each successor and of each handler in reach absorbs what flows into it, and the stack is
never higher than the size that is reported, before or after an instruction, but that high once. -/
theorem solution_of_run (h : run p = .ok s) : Solution p s := by
  by_cases hsize : p.size = 0
  · obtain rfl : initial p = s := by simpa [run, hsize] using h
    have hunknown {index : Nat} {known : State} :
        (initial p).states[index]? ≠ some (some known) := by
      simp [initial, Array.getElem?_replicate]
    refine ⟨?_, by omega, fun hk => absurd hk hunknown, fun hk => absurd hk hunknown, by omega,
      fun _ => rfl⟩
    · intro index
      constructor
      · rintro ⟨_, hk⟩
        exact absurd hk hunknown
      · intro hreach
        have := hreach.size_pos
        omega
  obtain ⟨locals, hlocals, hs, hnil⟩ := invariant_of_run h (by omega)
  refine ⟨?_, fun _ => ⟨locals, hlocals, hs.entry.flow⟩, ?_, ?_,
    fun _ => hs.isGreatest_maxStack hnil rfl, fun hempty => absurd hempty hsize⟩
  · intro index
    refine ⟨?_, hs.exists_known hnil⟩
    rintro ⟨known, hk⟩
    exact hs.reached hk
  · intro index known hk
    obtain ⟨position, i, out, targets, hi, hout, htargets, -, htakes⟩ :=
      (hs.settled_of_nil hnil hk).effect
    refine ⟨position, i, out, hi, hout, ?_, ?_⟩
    · intro label hlabel
      obtain ⟨target, htarget⟩ := Program.exists_resolve_of_successors htargets hlabel
      have hmem := (Program.mem_successors_iff htargets target).2 (.inl ⟨label, hlabel, htarget⟩)
      exact ⟨target, htarget, (htakes target hmem).flow⟩
    · intro hfalls
      exact (htakes _ ((Program.mem_successors_iff htargets _).2 (.inr ⟨hfalls, rfl⟩))).flow
  · intro index known hk r hr hstart hstop
    exact ((hs.settled_of_nil hnil hk).handlers r hr hstart hstop).flow

/-- A program that goes round: it pushes a number, drops it and begins again. -/
def roundProgram : Program where
  owner := "A"
  method := { access := 0x8, name := "f", descriptor := "()V" }
  instructions := #[(1, .plain .iconst_0), (2, .plain .pop), (3, .jump .goto ⟨"L"⟩)]
  indexOf := ({} : Std.HashMap Label Nat).insert ⟨"L"⟩ 0
  regions := []

/-- The program that goes round begins without locals. -/
theorem entryLocals_roundProgram : roundProgram.entryLocals = .ok [] := by
  have hsplit : Descriptor.splitFrom? [0x29, 0x56] [] = some ([], [0x56]) := by
    simp [Descriptor.splitFrom?, Descriptor.close]
  have harguments : Descriptor.arguments roundProgram.method.descriptor = .ok [] := by
    show (Descriptor.split [0x28, 0x29, 0x56]).map Prod.fst = .ok []
    simp [Descriptor.split, hsplit, Except.map]
  unfold Program.entryLocals
  rw [harguments]
  decide

/-- The end of the program that goes round leads to its beginning. -/
theorem successors_roundProgram :
    roundProgram.successors 2 (.jump .goto ⟨"L"⟩) = .ok [0] := by
  have hresolve : roundProgram.resolve ⟨"L"⟩ = .ok 0 := by
    simp [Program.resolve, Program.lookup, roundProgram]
  simp only [Program.successors, Instruction.targets, List.mapM_cons, List.mapM_nil, hresolve]
  rfl

/-- The states of the program that goes round. -/
def roundSolver : Solver where
  states := #[some ⟨[], []⟩, some ⟨[], [.integer]⟩, some ⟨[], []⟩]
  pending := []
  maxStack := 1

/-- The analysis of the program that goes round ends with a solution. -/
theorem solution_roundProgram :
    run roundProgram = .ok roundSolver ∧ Solution roundProgram roundSolver := by
  have hrun : run roundProgram = .ok roundSolver := by
    unfold run
    rw [entryLocals_roundProgram]
    show solve roundProgram ⟨#[some ⟨[], []⟩, none, none], [0], 0⟩ = .ok roundSolver
    -- three visits; the last one flows back into the first instruction and changes nothing
    rw [solve_of_visit (t := ⟨#[some ⟨[], []⟩, some ⟨[], [.integer]⟩, none], [1], 1⟩) rfl rfl,
      solve_of_visit (t := { roundSolver with pending := [2] }) rfl rfl,
      solve_of_visit (t := roundSolver) rfl ?_, solve_of_nil rfl]
    show roundSolver.apply roundProgram 2 (.jump .goto ⟨"L"⟩) = .ok roundSolver
    unfold Solver.apply
    simp only [successors_roundProgram]
    rfl
  exact ⟨hrun, solution_of_run hrun⟩

end ClassTree.Flow.Solver
