/-
# ClassTree.Proofs.Flow.Termination — how many visits the solver makes

A state that changes is pushed again, so the length of the pending stack bounds nothing. What does
is a potential: the instructions pending, the changes left to the known states, and for each
instruction not reached yet the price of reaching it, which covers its push and all changes its
state can go through. Popping an instruction lowers the potential by one and no flow raises it.

The price has to be one number for the whole run although states grow along a path. The locals stay
within what the entry and the program name, and the stack gains two slots at most per instruction
reached, whatever the classes are called.
-/
import ClassTree.Proofs.Flow.Growth

namespace ClassTree.Flow

open Result (bind_eq_ok_iff)

/-! ## The weight of a state -/

theorem rank_le (v : VerificationType) : rank v ≤ 3 := by
  cases v <;> simp [rank]
  split <;> omega

/-- A measure bounded on elements is bounded on lists. -/
theorem total_le {α : Type} {measure : α → Nat} {bound : Nat} (h : ∀ a, measure a ≤ bound)
    (l : List α) : total measure l ≤ bound * l.length := by
  induction l with
  | nil => simp
  | cons a l ih =>
    have ha := h a
    rw [total_cons, List.length_cons, Nat.mul_succ]
    omega

/-- A state has no more changes left than four per local and three per slot of the stack. -/
theorem State.weight_le (s : State) : s.weight ≤ 4 * s.locals.length + 3 * s.height := by
  have hlocals := total_le (fun v => Nat.succ_le_succ (rank_le v)) s.locals
  have hstack := total_le rank_le s.stack
  exact Nat.add_le_add hlocals hstack

/-! ## What a program names -/

/-- The locals that some instruction of a program may fill. -/
def Program.reach (p : Program) : Nat :=
  p.instructions.foldr (fun (_, i) reach => max (reachOf i) reach) 0

/-- An instruction fills no more locals than its program. -/
theorem Program.reachOf_le {p : Program} {index position : Nat} {i : Instruction Label}
    (h : p.instructions[index]? = some (position, i)) : reachOf i ≤ p.reach := by
  unfold Program.reach
  rw [← Array.foldr_toList]
  have hmem : (position, i) ∈ p.instructions.toList := by
    rw [← Array.getElem?_toList] at h
    exact List.mem_of_getElem? h
  generalize p.instructions.toList = l at hmem
  induction l with
  | nil => cases hmem
  | cons a l ih =>
    rw [List.foldr_cons]
    rcases List.mem_cons.1 hmem with rfl | hmem
    · exact Nat.le_max_left _ _
    · exact Nat.le_trans (ih hmem) (Nat.le_max_right _ _)

namespace Solver

variable (p : Program)

/-! ## A loop that counts -/

/-- Looks at instructions until none is pending, but at no more than a number of them; `none` if
some instruction is pending still. -/
def solveWithin : Nat → Solver → Option (Result Solver)
  | visits, s =>
    match s.pending, visits with
    | [], _ => some (.ok s)
    | _ :: _, 0 => none
    | index :: rest, visits + 1 =>
      match ({ s with pending := rest } : Solver).visit p index with
      | .error e => some (.error e)
      | .ok t => solveWithin visits t

/-- The states before all instructions if the first one finds a given state. -/
def runFrom (entry : State) : Result Solver :=
  if p.size = 0 then .ok (initial p) else (initial p).flow p 0 entry >>= solve p

/-- The states before all instructions, or none after so many visits. -/
def runFromWithin (visits : Nat) (entry : State) : Option (Result Solver) :=
  if p.size = 0 then some (.ok (initial p))
  else
    match (initial p).flow p 0 entry with
    | .error e => some (.error e)
    | .ok s => s.solveWithin p visits

/-- The price of reaching an instruction: its push, and the changes left to a state of so many
locals and of such a height. -/
def price (locals height : Nat) : Nat := 1 + 4 * locals + 3 * height

/-- How many visits are enough from a state on: the price of every instruction, where the locals are
those of the entry or those that the program names, and each instruction raises the stack by two. -/
def visitBound (entry : State) : Nat :=
  p.size * price (max entry.locals.length p.reach) (entry.height + 2 * p.size)

variable {p}

/-! ## Bounded states -/

/-- What is pending, what can change, and what has to be reached yet at a price. -/
def potential (price : Nat) (s : Solver) : Nat :=
  s.pending.length + s.weight + s.unreached * price

/-- No known state has more locals than `locals`, nor a higher stack than `height` less two slots
for each instruction that is still to be reached. -/
structure Bounded (locals height : Nat) (s : Solver) : Prop where
  locals : ∀ {index : Nat} {known : State}, s.states[index]? = some (some known) →
    known.locals.length ≤ locals
  height : ∀ {index : Nat} {known : State}, s.states[index]? = some (some known) →
    known.height + 2 * s.unreached ≤ height

/-- A state that may flow: reaching an instruction with it keeps the solver bounded. -/
structure Fits (locals height : Nat) (s : Solver) (incoming : State) : Prop where
  locals : incoming.locals.length ≤ locals
  height : incoming.height + 2 * s.unreached ≤ height + 2

/-- One solver is no worse than another one: bounded like it, with as much reached and no more
potential. -/
structure Cheaper (locals height : Nat) (s t : Solver) : Prop where
  bounded : Bounded locals height t
  unreached : t.unreached ≤ s.unreached
  potential : t.potential (price locals height) ≤ s.potential (price locals height)

variable {locals height : Nat}

theorem Bounded.refl {s : Solver} (hs : Bounded locals height s) : Cheaper locals height s s :=
  ⟨hs, Nat.le_refl _, Nat.le_refl _⟩

theorem Cheaper.trans {s t u : Solver} (h : Cheaper locals height s t)
    (h' : Cheaper locals height t u) : Cheaper locals height s u :=
  ⟨h'.bounded, Nat.le_trans h'.unreached h.unreached, Nat.le_trans h'.potential h.potential⟩

theorem Fits.of_le {s t : Solver} {incoming : State} (h : Fits locals height s incoming)
    (hle : t.unreached ≤ s.unreached) : Fits locals height t incoming := by
  have := h.height
  exact ⟨h.locals, by omega⟩

/-! ## Flows -/

/-- How often a state can still change, if it is known. -/
def weightOf : Option State → Nat
  | some known => known.weight
  | none => 0

/-- The weight of a solver adds up those of its states. -/
theorem weight_eq (s : Solver) : s.weight = total weightOf s.states.toList := by
  unfold weight
  congr 1

/-- What reaching an instruction does to the measures. -/
theorem measures_set_of_none {s : Solver} {index : Nat} (hi : index < s.states.size)
    (h : s.states[index] = none) (state : State) (pending : List Nat) :
    ({ s with states := s.states.set index (some state), pending } : Solver).unreached + 1 =
      s.unreached ∧
    ({ s with states := s.states.set index (some state), pending } : Solver).weight =
      s.weight + state.weight := by
  have hu := total_set (fun o : Option State => if o.isSome then 0 else 1)
    s.states.toList index (by simpa using hi) (some state)
  have hw := total_set weightOf s.states.toList index (by simpa using hi) (some state)
  simp only [Array.getElem_toList, h] at hu hw
  simp only [unreached, weight_eq, Array.toList_set]
  exact ⟨by simpa using hu, hw⟩

/-- What a change of a known state does to the measures. -/
theorem measures_set_of_some {s : Solver} {index : Nat} (hi : index < s.states.size) {known : State}
    (h : s.states[index] = some known) (state : State) (pending : List Nat) :
    ({ s with states := s.states.set index (some state), pending } : Solver).unreached =
      s.unreached ∧
    ({ s with states := s.states.set index (some state), pending } : Solver).weight + known.weight =
      s.weight + state.weight := by
  have hu := total_set (fun o : Option State => if o.isSome then 0 else 1)
    s.states.toList index (by simpa using hi) (some state)
  have hw := total_set weightOf s.states.toList index (by simpa using hi) (some state)
  simp only [Array.getElem_toList, h] at hu hw
  simp only [unreached, weight_eq, Array.toList_set]
  exact ⟨by simpa using hu, hw⟩

/-- Setting a state that is small enough keeps the solver bounded. -/
theorem Bounded.set {s : Solver} (hs : Bounded locals height s) {index : Nat}
    (hi : index < s.states.size) {state : State} {pending : List Nat} {left : Nat}
    (hleft : ({ s with states := s.states.set index (some state), pending } : Solver).unreached =
      left) (hle : left ≤ s.unreached) (hlocals : state.locals.length ≤ locals)
    (hheight : state.height + 2 * left ≤ height) :
    Bounded locals height { s with states := s.states.set index (some state), pending } where
  locals := by
    intro other known hknown
    rw [Array.getElem?_set] at hknown
    split at hknown
    · cases hknown
      exact hlocals
    · exact hs.locals hknown
  height := by
    intro other known hknown
    rw [hleft]
    rw [Array.getElem?_set] at hknown
    split at hknown
    · cases hknown
      exact hheight
    · have := hs.height hknown
      omega

/-- A flow pays for the push it makes: with the price of the instruction if it reaches it, and with
a change of its state if it was known. -/
theorem cheaper_flow {s t : Solver} {index : Nat} {incoming : State}
    (hs : Bounded locals height s) (hfits : Fits locals height s incoming)
    (h : s.flow p index incoming = .ok t) : Cheaper locals height s t := by
  unfold flow at h
  split at h
  · next hi =>
    split at h
    · next hnone =>
      cases h
      -- reaching an instruction is paid for with its price, which covers the heaviest state
      obtain ⟨hunreached, hweight⟩ :=
        measures_set_of_none hi hnone incoming (index :: s.pending)
      have hheight := hfits.height
      have hlocals := hfits.locals
      refine ⟨hs.set hi rfl (by omega) hlocals (by omega), by omega, ?_⟩
      have hincoming := incoming.weight_le
      unfold potential
      rw [hweight, ← hunreached, Nat.succ_mul, List.length_cons]
      unfold price
      omega
    · next known hknown =>
      split at h
      · cases h
      · next merged hmerged =>
        rw [Program.locate_eq_ok_iff] at hmerged
        split at h <;> cases h
        · exact hs.refl
        · next hchanged =>
          obtain ⟨hunreached, hweight⟩ :=
            measures_set_of_some hi hknown merged (index :: s.pending)
          have hfound : s.states[index]? = some (some known) := by
            rw [Array.getElem?_eq_getElem hi, hknown]
          -- a state that changes gets lighter by one at least, which pays for looking at it again
          have hlt := (State.weight_merge hmerged).resolve_left hchanged
          have hheight : merged.height = known.height := State.length_stack_of_merge hmerged
          have hlength : merged.locals.length ≤ known.locals.length := by
            rw [(State.merge_eq_ok_iff.1 hmerged).2.1, List.length_zipWith]
            exact Nat.min_le_left _ _
          refine ⟨hs.set hi hunreached (Nat.le_refl _) (Nat.le_trans hlength (hs.locals hfound))
            (hheight ▸ hs.height hfound), Nat.le_of_eq hunreached, ?_⟩
          unfold potential
          rw [hunreached, List.length_cons]
          omega
  · cases h

/-- Steps along a list, each of which is paid for. -/
theorem cheaper_foldlM {α : Type} {step : Solver → α → Result Solver} {l : List α} {start : Solver}
    (hstep : ∀ s, ∀ a ∈ l, ∀ t, Cheaper locals height start s → step s a = .ok t →
      Cheaper locals height s t)
    {s t : Solver} (hs : Cheaper locals height start s) (h : l.foldlM step s = .ok t) :
    Cheaper locals height start t := by
  induction l generalizing s with
  | nil =>
    cases h
    exact hs
  | cons a l ih =>
    rw [List.foldlM_cons] at h
    obtain ⟨u, hu, h⟩ := bind_eq_ok_iff.1 h
    have hfirst := hs.trans (hstep s a (by simp) u hs hu)
    exact ih (fun s b hb => hstep s b (List.mem_cons_of_mem a hb)) hfirst h

/-- Flowing to a handler: its stack holds one value. -/
theorem cheaper_flowToRegion {s t : Solver} {index : Nat} {r : Region}
    (hs : Bounded locals height s) (h : flowToRegion p index s r = .ok t) :
    Cheaper locals height s t := by
  unfold flowToRegion at h
  split at h
  · split at h
    · cases h
    · next here hhere =>
      rw [stateAt_eq_ok_iff] at hhere
      have hlocals := hs.locals hhere
      have hheight := hs.height hhere
      have hfits : Fits locals height s ⟨here.locals, [r.caught]⟩ := by
        refine ⟨hlocals, ?_⟩
        simp only [State.height, List.length_singleton]
        omega
      exact cheaper_flow hs hfits h
  · cases h
    exact hs.refl

/-- Carrying out an instruction: the state after it is two slots higher at most. -/
theorem cheaper_apply {s t : Solver} {index position : Nat} {i : Instruction Label}
    (hi : p.instructions[index]? = some (position, i)) (hreach : p.reach ≤ locals)
    (hs : Bounded locals height s) (h : s.apply p index i = .ok t) :
    Cheaper locals height s t := by
  obtain ⟨here, hhere, h⟩ := bind_eq_ok_iff.1 h
  obtain ⟨out, hout, h⟩ := bind_eq_ok_iff.1 h
  obtain ⟨targets, -, h⟩ := bind_eq_ok_iff.1 h
  rw [Program.locate_eq_ok_iff] at hout
  rw [stateAt_eq_ok_iff] at hhere
  have hheight := hs.height hhere
  have hlocals := hs.locals hhere
  have hgrows := growsBy_effect p index (Program.reachOf_le hi) hout
  have hfits : Fits locals height s out := ⟨by omega, by omega⟩
  have hraised : Cheaper locals height s
      { s with maxStack := max s.maxStack (max here.stack.length out.stack.length) } :=
    ⟨⟨hs.locals, hs.height⟩, Nat.le_refl _, Nat.le_refl _⟩
  refine cheaper_foldlM ?_ hraised h
  intro u target _ v hu hv
  unfold flowToSuccessor at hv
  split at hv
  · exact cheaper_flow hu.bounded (hfits.of_le hu.unreached) hv
  · cases hv

theorem cheaper_visit {s t : Solver} {index : Nat} (hreach : p.reach ≤ locals)
    (hs : Bounded locals height s) (h : s.visit p index = .ok t) : Cheaper locals height s t := by
  unfold visit at h
  split at h
  · cases h
  · next position i hi =>
    obtain ⟨u, hu, h⟩ := bind_eq_ok_iff.1 h
    have hhandlers : Cheaper locals height s u :=
      cheaper_foldlM (fun _ _ _ _ hv h => cheaper_flowToRegion hv.bounded h) hs.refl hu
    exact hhandlers.trans (cheaper_apply hi hreach hhandlers.bounded h)

/-! ## Runs -/

/-- Popping an instruction lowers the potential by one. -/
theorem potential_of_pending {s : Solver} {index : Nat} {rest : List Nat}
    (hpending : s.pending = index :: rest) (price : Nat) :
    s.potential price = ({ s with pending := rest } : Solver).potential price + 1 := by
  show s.pending.length + s.weight + s.unreached * price =
    rest.length + s.weight + s.unreached * price + 1
  rw [hpending, List.length_cons]
  omega

/-- As many visits as there is potential are enough: each visit makes the potential smaller, and
without pending instructions the solver is done. Any number above that gives the same result. -/
theorem solveWithin_eq (hreach : p.reach ≤ locals) {visits : Nat} {s : Solver}
    (hs : Bounded locals height s) (hvisits : s.potential (price locals height) ≤ visits) :
    s.solveWithin p visits = some (s.solve p) := by
  induction visits generalizing s with
  | zero =>
    have hnil : s.pending = [] := by
      unfold potential at hvisits
      exact List.eq_nil_of_length_eq_zero (by omega)
    rw [solve_of_nil hnil, solveWithin]
    simp only [hnil]
  | succ visits ih =>
    cases hpending : s.pending with
    | nil =>
      rw [solve_of_nil hpending, solveWithin]
      simp only [hpending]
    | cons index rest =>
      unfold solveWithin
      simp only [hpending]
      cases hvisit : ({ s with pending := rest } : Solver).visit p index with
      | error e => rw [solve_of_refusal hpending hvisit]
      | ok t =>
        rw [solve_of_visit hpending hvisit]
        have hpopped : Bounded locals height { s with pending := rest } := ⟨hs.locals, hs.height⟩
        have hcheaper := cheaper_visit hreach hpopped hvisit
        refine ih hcheaper.bounded ?_
        have hpotential := hcheaper.potential
        rw [potential_of_pending hpending] at hvisits
        omega

/-- At the beginning nothing is known and all is to be reached. -/
theorem unreached_initial (p : Program) :
    (initial p).unreached = p.size ∧ (initial p).weight = 0 := by
  unfold initial unreached weight
  rw [Array.toList_replicate]
  induction p.size with
  | zero => exact ⟨rfl, rfl⟩
  | succ n ih =>
    simp only [List.replicate_succ, total_cons]
    exact ⟨(congrArg (1 + ·) ih.1).trans (Nat.add_comm _ _), (congrArg (0 + ·) ih.2).trans rfl⟩

/-- The analysis ends, whatever the instructions, the handlers and the state before the first
instruction are: within a number of visits that these determine it comes to its result or to an
error, and more visits change nothing. Each visit takes something from a potential that counts what
the states can still lose, so the bound is read off the program. The analysis of a method is the one
from its entry state. -/
theorem runFromWithin_visitBound (p : Program) :
    (∀ (entry : State) (more : Nat),
      runFromWithin p (visitBound p entry + more) entry = some (runFrom p entry)) ∧
    run p = if p.size = 0 then .ok (initial p)
      else p.entryLocals >>= fun locals => runFrom p ⟨locals, []⟩ := by
  refine ⟨?_, ?_⟩
  · intro entry more
    unfold runFromWithin runFrom
    split
    · rfl
    · next hsize =>
      cases hfirst : (initial p).flow p 0 entry with
      | error e => rfl
      | ok s =>
        obtain ⟨hunreached, hweight⟩ := unreached_initial p
        -- at first nothing is known, so all bounds hold and the potential is the visit bound
        have hinitial : Bounded (max entry.locals.length p.reach) (entry.height + 2 * p.size)
            (initial p) := by
          constructor <;>
          · intro index known hknown
            simp [initial, Array.getElem?_replicate] at hknown
        have hfits : Fits (max entry.locals.length p.reach) (entry.height + 2 * p.size)
            (initial p) entry := ⟨Nat.le_max_left _ _, by rw [hunreached]; omega⟩
        have hcheaper := cheaper_flow hinitial hfits hfirst
        refine solveWithin_eq (Nat.le_max_right _ _) hcheaper.bounded ?_
        have hpotential := hcheaper.potential
        have hstart : (initial p).potential
            (price (max entry.locals.length p.reach) (entry.height + 2 * p.size)) =
            visitBound p entry := by
          unfold potential visitBound
          rw [hunreached, hweight]
          exact Nat.zero_add _
        omega
  · unfold run runFrom
    split
    · rfl
    · rfl

end Solver

end ClassTree.Flow
