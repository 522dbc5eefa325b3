/-
# ClassTree.Proofs.VerifiedMaxima — the sizes that verified code is written with

An analysis finds how high the stack of a method grows and how many locals it uses. Verified code is
written with these sizes only where the method gives none of its own: sizes that are given are kept,
and nobody compares them with what the analysis has found. So the sizes in a class file are enough
for its code exactly if those that were given are.
-/
import ClassTree.Proofs.Decoding.ClassFile
import ClassTree.Proofs.Encoding.Code
import ClassTree.Proofs.Flow.Frames
import ClassTree.Proofs.Flow.Solution
import Mathlib

namespace ClassTree

open Encoding Encoder

/-! ## What a method needs -/

namespace Flow

/-- What the analysis of a method finds: the states before its instructions, and the number of
locals in use. -/
structure Demand (owner : Text) (m : Method) where
  program : Program
  solver : Solver
  locals : Int
  ofMethod : Program.ofMethod owner m = .ok program
  run : Solver.run program = .ok solver
  maxLocals : maxLocals m = .ok locals

namespace Demand

variable {owner : Text} {m : Method}

/-- A method needs one thing only. -/
instance : Subsingleton (Demand owner m) where
  allEq := by
    rintro ⟨p, s, locals, hp, hs, hlocals⟩ ⟨p', s', locals', hp', hs', hlocals'⟩
    obtain rfl : p = p' := Except.ok.inj (hp.symm.trans hp')
    obtain rfl : s = s' := Except.ok.inj (hs.symm.trans hs')
    obtain rfl : locals = locals' := Except.ok.inj (hlocals.symm.trans hlocals')
    rfl

/-- The sizes that are computed for the method. -/
def maxima (d : Demand owner m) : Maxima := ⟨d.solver.maxStack, d.locals⟩

/-- Sizes that are enough: the stack has room before and after each instruction that control can
reach, and there are as many locals as the method uses. -/
structure FitsIn (d : Demand owner m) (stack locals : Nat) : Prop where
  stack : ∀ index, d.program.Reachable index → ∃ known position i out,
    d.solver.states[index]? = some (some known) ∧
      d.program.instructions[index]? = some (position, i) ∧
      effect d.program index i known = .ok out ∧ known.height ≤ stack ∧ out.height ≤ stack
  locals : d.locals ≤ locals

/-- Sizes are enough if they are not smaller than those that are computed, and only then. -/
theorem fitsIn_iff (d : Demand owner m) {stack locals : Nat} :
    d.FitsIn stack locals ↔ d.solver.maxStack ≤ stack ∧ d.locals ≤ locals := by
  have hsolution := Solver.solution_of_run d.run
  constructor
  · intro h
    refine ⟨?_, h.locals⟩
    by_cases hsize : d.program.size = 0
    · rw [hsolution.maxStack_of_empty hsize]
      exact Nat.zero_le stack
    · -- the greatest height is met somewhere, and there the stack has room
      obtain ⟨index, known, hknown, hmet⟩ := (hsolution.maxStack (by omega)).1
      obtain ⟨known', position, i, out, hknown', hi, hout, hbefore, hafter⟩ :=
        h.stack index ((hsolution.known_iff index).1 ⟨known, hknown⟩)
      obtain rfl : known = known' := by simpa [hknown] using hknown'
      rcases hmet with heq | ⟨position', i', out', hi', hout', heq⟩
      · exact heq ▸ hbefore
      · obtain ⟨rfl, rfl⟩ : position' = position ∧ i' = i := by simpa [hi'] using hi
        obtain rfl : out' = out := Except.ok.inj (hout'.symm.trans hout)
        exact heq ▸ hafter
  · rintro ⟨hstack, hlocals⟩
    refine ⟨?_, hlocals⟩
    intro index hreach
    have hgreatest := (hsolution.maxStack hreach.size_pos).2
    obtain ⟨known, hknown⟩ := (hsolution.known_iff index).2 hreach
    obtain ⟨position, i, out, hi, hout, -⟩ := hsolution.effect hknown
    refine ⟨known, position, i, out, hknown, hi, hout, ?_, ?_⟩
    · exact (hgreatest ⟨index, known, hknown, .inl rfl⟩).trans hstack
    · exact (hgreatest ⟨index, known, hknown, .inr ⟨position, i, out, hi, hout, rfl⟩⟩).trans hstack

end Demand

variable {owner : Text} {m : Method}

/-- Sizes that are computed are those that the method needs. -/
theorem exists_demand_of_computeMaxima {computed : Maxima}
    (h : computeMaxima owner m = .ok computed) : ∃ d : Demand owner m, computed = d.maxima := by
  obtain ⟨p, hp, h⟩ := Result.bind_eq_ok_iff.1 h
  obtain ⟨s, hs, h⟩ := Result.bind_eq_ok_iff.1 h
  obtain ⟨locals, hlocals, h⟩ := Result.bind_eq_ok_iff.1 h
  cases h
  exact ⟨⟨p, s, locals, hp, hs, hlocals⟩, rfl⟩

/-- Sizes that are computed along with frames are those that the method needs. -/
theorem exists_demand_of_computeFrames {extra : List Int} {computed : Maxima}
    {frames : List (Nat × Frame)} (h : computeFrames owner m extra = .ok (computed, frames)) :
    ∃ d : Demand owner m, computed = d.maxima := by
  obtain ⟨p, hp, h⟩ := Result.bind_eq_ok_iff.1 h
  obtain ⟨s, hs, h⟩ := Result.bind_eq_ok_iff.1 h
  obtain ⟨locals, hlocals, h⟩ := Result.bind_eq_ok_iff.1 h
  obtain ⟨found, -, h⟩ := Result.bind_eq_ok_iff.1 h
  cases h
  exact ⟨⟨p, s, locals, hp, hs, hlocals⟩, rfl⟩

end Flow

/-! ## What is written -/

/-- Verified code is analysed in any case; it is written with the sizes that are given, and with
those that are computed if none are. -/
theorem Encoding.exists_demand_of_verified {owner : Text} {stackMaps : Bool} {m : Method} {l : Layout}
    {sizes : Maxima} {frames : List (Nat × Frame)}
    (h : verified owner true stackMaps m l = .ok (sizes, frames)) :
    ∃ d : Flow.Demand owner m, sizes = m.maxima.getD d.maxima := by
  unfold verified at h
  simp only [Bool.true_and] at h
  split at h
  · obtain ⟨⟨computed, found⟩, hcomputed, h⟩ := Result.bind_eq_ok_iff.1 h
    obtain ⟨d, rfl⟩ := Flow.exists_demand_of_computeFrames hcomputed
    cases h
    exact ⟨d, rfl⟩
  · -- the frames of the method are its own, so only the sizes are of interest
    have hsizes {chosen : Maxima} (h : (do
          if stackMaps then
            checkLandings (Flow.Program.placeOf owner m) (l.landings m.body) 0 false m.body
          return (chosen, ownFrames m.body) : Result _) = .ok (sizes, frames)) : chosen = sizes := by
      cases stackMaps with
      | true =>
        obtain ⟨_, -, h⟩ := Result.bind_eq_ok_iff.1 h
        cases h
        rfl
      | false =>
        cases h
        rfl
    cases hgiven : m.maxima with
    | none =>
      rw [hgiven] at h
      obtain ⟨computed, hcomputed, h⟩ := Result.bind_eq_ok_iff.1 h
      obtain ⟨d, rfl⟩ := Flow.exists_demand_of_computeMaxima hcomputed
      exact ⟨d, (hsizes h).symm⟩
    | some given =>
      rw [hgiven] at h
      obtain ⟨computed, hcomputed, h⟩ := Result.bind_eq_ok_iff.1 h
      obtain ⟨d, -⟩ := Flow.exists_demand_of_computeMaxima hcomputed
      exact ⟨d, (hsizes h).symm⟩

/-- The sizes in a verified class file are enough for the code of a method exactly if those that the
method gives are; sizes that are computed always are. A method that gives its sizes keeps them
through verification, which runs the analysis for its refusals and then sets its result aside, so
nothing but the given sizes decides whether they suffice. -/
theorem Class.fitsIn_iff_of_toBytes {c : Class} {bytes : Bytes} {k : Nat} {m : Method}
    (h : c.toBytes true = .ok bytes) (hpool : c.HasReadPool) (hm : c.methods[k]? = some m)
    (hcode : m.hasCode = true) :
    ∃ (d : Flow.Demand c.name m) (o : Outline) (member : MemberOutline) (code : CodeOutline),
      Outline.ofBytes bytes = .ok o ∧ o.methods[k]? = some member ∧
      member.code? o.table = some (.ok code) ∧
      (d.FitsIn code.maxStack code.maxLocals ↔
        ∀ given, m.maxima = some given → d.solver.maxStack ≤ given.stack ∧ d.locals ≤ given.locals) := by
  obtain ⟨w⟩ := written_of_toBytes h
  obtain ⟨o, member, code, parts, ho, -, hmember, hread, hshown⟩ :=
    w.exists_shownBy hpool.isSeed hm hcode
  obtain ⟨d, hd⟩ := exists_demand_of_verified parts.verified_eq
  refine ⟨d, o, member, code, ho, hmember, hread, ?_⟩
  have hstack := hshown.stack
  have hlocals := hshown.locals
  rw [hd] at hstack hlocals
  rw [d.fitsIn_iff]
  cases hgiven : m.maxima with
  | none =>
    rw [hgiven, Option.getD_none] at hstack hlocals
    have hfits : d.solver.maxStack ≤ code.maxStack ∧ d.locals ≤ code.maxLocals :=
      ⟨Int.ofNat_le.1 (Int.le_of_eq hstack), Int.le_of_eq hlocals⟩
    exact ⟨fun _ _ h => (Option.some_ne_none _ h.symm).elim, fun _ => hfits⟩
  | some given =>
    rw [hgiven, Option.getD_some] at hstack hlocals
    simp only [Option.some.injEq, forall_eq', hstack, hlocals, Int.ofNat_le]

/-! ## Sizes that are given -/

/-- A method that returns one, with a size of the stack. -/
def sizedMethod (stack : UInt8) : Method where
  access := 0x8
  name := "f"
  descriptor := "()I"
  maxima := some ⟨stack.toNat, 0⟩
  body := [.instruction (.plain .iconst_1), .instruction (.plain .ireturn)]

/-- A class with that method only. -/
def sizedClass (stack : UInt8) : Class where
  name := "A"
  super := none
  methods := [sizedMethod stack]

namespace Flow

/-- The program of the method. -/
def sizedProgram (stack : UInt8) : Program where
  owner := "A"
  method := sizedMethod stack
  instructions := #[(0, .plain .iconst_1), (1, .plain .ireturn)]
  indexOf := {}
  regions := []

/-- The states of the program: one is on the stack when it returns. -/
def sizedSolver : Solver where
  states := #[some ⟨[], []⟩, some ⟨[], [.integer]⟩]
  pending := []
  maxStack := 1

theorem run_sizedProgram (stack : UInt8) : Solver.run (sizedProgram stack) = .ok sizedSolver := by
  have hentry : (sizedProgram stack).entryLocals = .ok [] := by cbv
  unfold Solver.run
  rw [hentry]
  show Solver.solve (sizedProgram stack) ⟨#[some ⟨[], []⟩, none], [0], 0⟩ = _
  rw [Solver.solve_of_visit (t := { sizedSolver with pending := [1] }) rfl rfl,
    Solver.solve_of_visit (t := sizedSolver) rfl rfl, Solver.solve_of_nil rfl]

theorem framePoints_sizedProgram (stack : UInt8) : (sizedProgram stack).framePoints [] = .ok [] := by
  have hreached : (sizedProgram stack).instructions.toList.zipIdx.mapM
      (fun x => (sizedProgram stack).pointsAfter x.2 x.1.2) = .ok [[], []] := by cbv
  rw [Program.framePoints_eq_ok hreached]
  refine congrArg Except.ok (List.filter_eq_nil_iff.2 fun index _ => ?_)
  simp [sizedProgram]

/-- What the method needs. -/
def sizedDemand (stack : UInt8) : Demand "A" (sizedMethod stack) where
  program := sizedProgram stack
  solver := sizedSolver
  locals := 0
  ofMethod := rfl
  run := run_sizedProgram stack
  maxLocals := by cbv

/-- The sizes that are computed for the method; there are no frames. -/
theorem computeFrames_sizedMethod (stack : UInt8) :
    computeFrames "A" (sizedMethod stack) [] = .ok (⟨1, 0⟩, []) := by
  have hframes : (sizedProgram stack).frames sizedSolver [] = .ok [] := by
    unfold Program.frames
    rw [framePoints_sizedProgram]
    cbv
  exact computeFrames_eq_ok rfl (run_sizedProgram stack) (sizedDemand stack).maxLocals hframes

end Flow

namespace Encoding

/-- The layout of the method. -/
def sizedLayout : Layout := Layout.relax (sizedMethod 0).body [.fixed 1, .fixed 1] [false, false]

/-- The method is written with the sizes that it gives. -/
theorem verified_sizedMethod (stack : UInt8) :
    verified "A" true true (sizedMethod stack) sizedLayout = .ok (⟨stack.toNat, 0⟩, []) := by
  have hlandings : sizedLayout.landings (sizedMethod stack).body = [] := by cbv
  have hcomputed : Flow.computeFrames "A" (sizedMethod stack)
      ((sizedLayout.landings (sizedMethod stack).body).map Int.ofNat) = .ok (⟨1, 0⟩, []) := by
    rw [hlandings]
    exact Flow.computeFrames_sizedMethod stack
  exact verified_eq_ok rfl hcomputed

/-- The code of the method, from its layout and its sizes. -/
def sizedCode (size : UInt8) : Encoder Bytes := do
  let place := Flow.Program.placeOf "A" (sizedMethod size)
  let bytes ← operations sizedLayout place (sizedMethod size).body
  let _ ← checkLength place bytes
  let stack ← u2 size.toNat
  let locals ← u2 0
  let length ← u4 bytes.length
  let handlers ← listOf (handler sizedLayout) []
  let attributes ← attributes (codePieces (sizedMethod size) sizedLayout place []) []
  return stack ++ locals ++ length ++ bytes ++ handlers ++ attributes

theorem code_sizedMethod (stack : UInt8) : code "A" true true (sizedMethod stack) = sizedCode stack := by
  have hlabels : checkLabels (Flow.Program.placeOf "A" (sizedMethod stack)) (sizedMethod stack) =
      .ok () := by
    cbv
  have hlayout : Layout.of (sizedMethod stack).body = pure sizedLayout := rfl
  rw [code_eq, hlabels, lift_ok_bind, hlayout, pure_bind, verified_sizedMethod, lift_ok_bind]
  rfl

/-- The class file of the class with a small size of the stack. -/
def sizedBytes (stack : UInt8) : Bytes :=
  [202, 254, 186, 190, 0, 0, 0, 52, 0, 6, 1, 0, 1, 65, 7, 0, 1, 1, 0, 1, 102, 1, 0, 3, 40, 41, 73, 1, 0,
    4, 67, 111, 100, 101, 0, 33, 0, 2, 0, 0, 0, 0, 0, 0, 0, 1, 0, 8, 0, 3, 0, 4, 0, 1, 0, 5, 0, 0, 0, 14,
    0, stack, 0, 0, 0, 0, 0, 2, 4, 172, 0, 0, 0, 0, 0, 0]

/-- The class file with room for no value or one is written. -/
theorem toBytes_sizedClass {stack : UInt8} (h : stack = 0 ∨ stack = 1) :
    (sizedClass stack).toBytes true = .ok (sizedBytes stack) := by
  have hmethods : listOf (method (sizedClass stack).name true
      (stackMapMajor ≤ (sizedClass stack).major)) (sizedClass stack).methods = _ :=
    listOf_method_singleton (code_sizedMethod stack) rfl rfl
  have hrun : ∃ q, (classFile true (sizedClass stack)).run (Pool.seeded [] []) =
      .ok (sizedBytes stack, q) := by
    unfold classFile body
    rw [hmethods]
    rcases h with rfl | rfl
    · exact ⟨_, by cbv⟩
    · exact ⟨_, by cbv⟩
  obtain ⟨q, hrun⟩ := hrun
  exact toBytes_eq_ok hrun

/-- A verified method may be given no room on the stack, though it has one value there when it
returns. -/
theorem not_fitsIn_sizedClass : (sizedClass 0).toBytes true = .ok (sizedBytes 0) ∧
    ∃ o member code, Outline.ofBytes (sizedBytes 0) = .ok o ∧ o.methods = [member] ∧
      member.code? o.table = some (.ok code) ∧ code.maxStack = 0 ∧
      ¬ (Flow.sizedDemand 0).FitsIn code.maxStack code.maxLocals := by
  refine ⟨toBytes_sizedClass (.inl rfl), _, _, _, by cbv, by cbv, by cbv, rfl, ?_⟩
  rw [Flow.Demand.fitsIn_iff]
  rintro ⟨hstack, -⟩
  exact absurd hstack (by decide)

/-- With room for one value the method has all that it needs. -/
theorem fitsIn_sizedClass : (sizedClass 1).toBytes true = .ok (sizedBytes 1) ∧
    (sizedClass 1).HasReadPool ∧ (sizedMethod 1).hasCode = true ∧
    ∃ o member code, Outline.ofBytes (sizedBytes 1) = .ok o ∧ o.methods[0]? = some member ∧
      member.code? o.table = some (.ok code) ∧
      (Flow.sizedDemand 1).FitsIn code.maxStack code.maxLocals := by
  have hbytes : (sizedClass 1).toBytes true = .ok (sizedBytes 1) := toBytes_sizedClass (.inr rfl)
  obtain ⟨d, o, member, code, ho, hmember, hcode, hiff⟩ :=
    Class.fitsIn_iff_of_toBytes hbytes (.inl rfl) (k := 0) rfl rfl
  obtain rfl : d = Flow.sizedDemand 1 := Subsingleton.elim _ _
  refine ⟨hbytes, .inl rfl, rfl, o, member, code, ho, hmember, hcode, hiff.2 ?_⟩
  rintro given hgiven
  obtain rfl : ⟨1, 0⟩ = given := Option.some.inj hgiven
  decide

end Encoding

end ClassTree
