/-
# ClassTree.Flow.Solver — the states before all instructions

The solver keeps a stack of instructions whose state has changed since they were looked at. It takes
one after another, lets its state flow to the handlers that cover it, applies the effect, and lets
the result flow to the successors; whatever changes on the way is put on the stack. It stops when
the stack is empty or when some state cannot flow on.

Every visit either changes a state, which happens only so often since changes lower the weight of a
state, or leaves the stack shorter by one. So the solver ends without a bound of its own.
-/
import ClassTree.Flow.Effect
import ClassTree.Flow.Weight

namespace ClassTree.Flow

/-- The analysis under way. -/
structure Solver where
  /-- The state before each instruction that has been reached. -/
  states : Array (Option State)
  /-- The instructions to look at, the next one first. -/
  pending : List Nat
  /-- The greatest height of the stack so far. -/
  maxStack : Nat

namespace Solver

variable (p : Program)

/-! ## Steps -/

/-- The state before an instruction that has been reached. -/
def stateAt (s : Solver) (index : Nat) : Result State :=
  match s.states[index]? with
  | some (some known) => .ok known
  | _ => .error (.undefined .index)

/-- Lets a state flow to an instruction. -/
def flow (s : Solver) (index : Nat) (incoming : State) : Result Solver :=
  if h : index < s.states.size then
    match s.states[index] with
    | none =>
      .ok { s with states := s.states.set index (some incoming), pending := index :: s.pending }
    | some known =>
      match p.locate index (known.merge incoming) with
      | .error e => .error e
      | .ok merged =>
        if merged = known then .ok s
        else .ok { s with
          states := s.states.set index (some merged), pending := index :: s.pending }
  else .error (.undefined .index)

/-- Lets the locals before an instruction flow to a handler that covers it. -/
def flowToRegion (index : Nat) (s : Solver) (r : Region) : Result Solver :=
  if r.start ≤ index ∧ index < r.stop then
    match s.stateAt index with
    | .error e => .error e
    | .ok here => s.flow p r.target ⟨here.locals, [r.caught]⟩
  else .ok s

/-- Lets the state after an instruction flow to a successor, which has to exist. -/
def flowToSuccessor (index : Nat) (out : State) (s : Solver) (target : Nat) : Result Solver :=
  if target < p.size then s.flow p target out else p.refuse index .offTheEnd

/-- Applies an instruction and lets the result flow on. -/
def apply (s : Solver) (index : Nat) (i : Instruction Label) : Result Solver := do
  let here ← s.stateAt index
  let out ← p.locate index (effect p index i here)
  let height := max s.maxStack (max here.stack.length out.stack.length)
  let targets ← p.successors index i
  targets.foldlM (flowToSuccessor p index out) { s with maxStack := height }

/-- Looks at an instruction. -/
def visit (s : Solver) (index : Nat) : Result Solver :=
  match p.instructions[index]? with
  | none => .error (.undefined .index)
  | some (_, i) => do
    let s ← p.regions.foldlM (flowToRegion p index) s
    s.apply p index i

/-! ## Why it ends -/

/-- How many instructions have not been reached. -/
def unreached (s : Solver) : Nat := total (fun o => if o.isSome then 0 else 1) s.states.toList

/-- How often the known states can still change. -/
def weight (s : Solver) : Nat :=
  total (fun o => match o with
    | some known => known.weight
    | none => 0) s.states.toList

/-- A solver is below another one if it has changed a state or nothing at all. -/
inductive Below (s t : Solver) : Prop where
  | reached (h : s.unreached < t.unreached)
  | changed (h : s.unreached = t.unreached) (hw : s.weight < t.weight)
  | same (h : s.states = t.states) (hp : s.pending = t.pending)

theorem Below.refl (s : Solver) : Below s s := .same rfl rfl

theorem Below.trans {s t u : Solver} (h : Below s t) (h' : Below t u) : Below s u := by
  have eqs {s t : Solver} (e : s.states = t.states) :
      s.unreached = t.unreached ∧ s.weight = t.weight := by simp [unreached, weight, e]
  cases h with
  | reached h =>
    cases h' with
    | reached h' => exact .reached (by omega)
    | changed h' _ => exact .reached (by omega)
    | same e _ => exact .reached (by have := eqs e; omega)
  | changed h hw =>
    cases h' with
    | reached h' => exact .reached (by omega)
    | changed h' hw' => exact .changed (by omega) (by omega)
    | same e _ => exact .changed (by have := eqs e; omega) (by have := eqs e; omega)
  | same e hp =>
    cases h' with
    | reached h' => exact .reached (by have := eqs e; omega)
    | changed h' hw' => exact .changed (by have := eqs e; omega) (by have := eqs e; omega)
    | same e' hp' => exact .same (e.trans e') (hp.trans hp')

theorem Below.foldlM {α : Type} {step : Solver → α → Result Solver}
    (hstep : ∀ s a t, step s a = .ok t → Below t s) {l : List α} {s t : Solver}
    (h : l.foldlM step s = .ok t) : Below t s := by
  induction l generalizing s with
  | nil =>
    obtain rfl : s = t := by simpa [pure, Except.pure] using h
    exact .refl s
  | cons a l ih =>
    simp only [List.foldlM_cons, bind, Except.bind] at h
    split at h
    · simp at h
    · next u hu => exact (ih h).trans (hstep s a u hu)

/-- Exchanging an element exchanges its measure in the total. -/
theorem total_set {α : Type} (f : α → Nat) (l : List α) (i : Nat) (h : i < l.length) (a : α) :
    total f (l.set i a) + f l[i] = total f l + f a := by
  induction l generalizing i with
  | nil => simp at h
  | cons x l ih =>
    cases i with
    | zero => simp; omega
    | succ i =>
      have := ih i (by simpa using h)
      simp only [List.set_cons_succ, total_cons, List.getElem_cons_succ]
      omega

/-- A merge into an instruction goes down: the state of the instruction loses something, or it gets
its first state, or nothing changes. Every other state stays as it is. This is the measure that the
recursion of the solver ends by. -/
theorem below_flow {s t : Solver} {index : Nat} {incoming : State}
    (h : s.flow p index incoming = .ok t) : Below t s := by
  unfold flow at h
  split at h
  · next hi =>
    -- both measures are sums over the states, and only the one at the index is another
    have hu := total_set (fun o : Option State => if o.isSome then 0 else 1)
      s.states.toList index (by simpa using hi)
    have hw := total_set (fun o : Option State => match o with
      | some known => known.weight
      | none => 0) s.states.toList index (by simpa using hi)
    simp only [Array.getElem_toList] at hu hw
    split at h
    · next hnone =>
      obtain rfl : _ = t := by simpa using h
      refine .reached ?_
      have := hu (some incoming)
      simp only [hnone] at this
      simp only [unreached, Array.toList_set]
      simp at this ⊢
      omega
    · next known hknown =>
      split at h
      · simp at h
      · next merged hmerged =>
        split at h
        · obtain rfl : s = t := by simpa using h
          exact .refl s
        · next hne =>
          obtain rfl : _ = t := by simpa using h
          have hmerge : known.merge incoming = .ok merged := by
            unfold Program.locate at hmerged
            split at hmerged
            · simp [Program.refuse] at hmerged
            · exact hmerged
          have hlt := (State.weight_merge hmerge).resolve_left hne
          have hu := hu (some merged)
          have hw := hw (some merged)
          simp only [hknown] at hu hw
          refine .changed ?_ ?_
          · simp only [unreached, Array.toList_set]
            simp at hu ⊢
            omega
          · simp only [weight, Array.toList_set]
            omega
  · simp at h

theorem below_flowToRegion {s t : Solver} {index : Nat} {r : Region}
    (h : flowToRegion p index s r = .ok t) : Below t s := by
  unfold flowToRegion at h
  split at h
  · split at h
    · simp at h
    · exact below_flow p h
  · obtain rfl : s = t := by simpa using h
    exact .refl s

theorem below_flowToSuccessor {s t : Solver} {index target : Nat} {out : State}
    (h : flowToSuccessor p index out s target = .ok t) : Below t s := by
  unfold flowToSuccessor at h
  split at h
  · exact below_flow p h
  · simp [Program.refuse] at h

/-- An instruction that is carried out goes down. -/
theorem below_apply {s t : Solver} {index : Nat} {i : Instruction Label}
    (h : s.apply p index i = .ok t) : Below t s := by
  simp only [apply, bind, Except.bind] at h
  split at h
  · simp at h
  · split at h
    · simp at h
    · split at h
      · simp at h
      · have := Below.foldlM (fun _ _ _ => below_flowToSuccessor p) h
        exact this.trans (.same rfl rfl)

theorem below_visit {s t : Solver} {index : Nat} (h : s.visit p index = .ok t) : Below t s := by
  unfold visit at h
  split at h
  · simp at h
  · simp only [bind, Except.bind] at h
    split at h
    · simp at h
    · next u hu =>
      exact (below_apply p h).trans (Below.foldlM (fun _ _ _ => below_flowToRegion p) hu)

/-! ## The loop -/

/-- Looks at instructions until none is pending. -/
def solve (s : Solver) : Result Solver :=
  match _top : s.pending with
  | [] => .ok s
  | index :: rest =>
    match _next : ({ s with pending := rest } : Solver).visit p index with
    | .error e => .error e
    | .ok t => solve t
termination_by (s.unreached, s.weight, s.pending.length)
decreasing_by
  have hbelow := below_visit p _next
  cases hbelow with
  | reached h => exact .left _ _ h
  | changed h hw =>
    rw [show t.unreached = s.unreached from h]
    exact .right _ (.left _ _ hw)
  | same h hp =>
    have hu : t.unreached = s.unreached := by simp [unreached, h]
    have hw : t.weight = s.weight := by simp [weight, h]
    rw [hu, hw]
    refine .right _ (.right _ ?_)
    simp only at hp
    rw [hp, _top]
    simp

/-- Nothing has been reached. -/
def initial : Solver := ⟨Array.replicate p.size none, [], 0⟩

/-- The states before all instructions. A program without instructions is not entered. -/
def run : Result Solver :=
  if p.size = 0 then .ok (initial p)
  else do
    let locals ← p.entryLocals
    let s ← (initial p).flow p 0 ⟨locals, []⟩
    s.solve p

end Solver

end ClassTree.Flow
