/-
# ClassTree.Proofs.Flow.Invariant — what holds while the solver runs

Control passes from one instruction to another in three ways: it falls through to the next one, it
takes a jump or one of the ways of a switch, or an exception leads to a handler that covers the
instruction. An instruction is reachable if a path of such edges leads to it from the first one.

The solver changes its states in place, in whatever order its stack of pending instructions gives,
and the effect of an instruction is not monotone. What carries the proof is an invariant about every
instruction that has been reached: it is pending, or it is *settled* — letting its state flow on
changes nothing. A merge into some state can only disturb the instruction whose state it changes,
which becomes pending by that, since a state that absorbed something goes on to absorb it.

Before that comes what the height of the stack depends on. Loading a reference from a local or from
an array pushes a type that is found in the state, and a type of another width makes another height.
Every other effect changes the height in a way of its own, whatever the types in the state are.
-/
import ClassTree.Flow.Effect
import ClassTree.Flow.Solver
import ClassTree.Proofs.Flow.Merge
import ClassTree.Proofs.Result

namespace ClassTree.Flow

open Result (bind_eq_ok_iff)

/-- The height of the stack. -/
def State.height (s : State) : Nat := s.stack.length

/-- The height after an effect is a function of the height before. -/
def HeightBy (f : State → Result State) : Prop :=
  ∃ g : Nat → Nat, ∀ {s t : State}, f s = .ok t → t.height = g s.height

namespace HeightBy

theorem bind {f : State → Result State} {k : State → Result State} (hf : HeightBy f)
    (hk : HeightBy k) : HeightBy fun s => f s >>= k := by
  obtain ⟨g, hg⟩ := hf
  obtain ⟨g', hg'⟩ := hk
  refine ⟨fun n => g' (g n), ?_⟩
  intro s t h
  obtain ⟨u, hu, ht⟩ := bind_eq_ok_iff.1 h
  rw [hg' ht, hg hu]

theorem push (v : Option VerificationType) : HeightBy fun s => .ok (s.push v) := by
  refine ⟨fun n => n + (v.map fun v => (slotsOf v).length).getD 0, ?_⟩
  intro s t h
  simp only [Except.ok.injEq] at h
  subst h
  cases v <;> simp [State.push, State.height, Nat.add_comm]

/-- Pushing what a step finds that does not look at the state. -/
theorem push_of (x : Result (Option VerificationType)) :
    HeightBy fun s => (do return s.push (← x)) := by
  cases x with
  | ok v => exact push v
  | error e =>
    refine ⟨id, ?_⟩
    intro s t h
    cases h

theorem skip : HeightBy fun s => .ok s := ⟨id, by rintro s t ⟨rfl⟩; rfl⟩

theorem fail (e : Error) : HeightBy fun _ => .error e := ⟨id, nofun⟩

theorem of_pop {s t : State} {count : Nat} {values : List VerificationType}
    (h : s.pop count = .ok (values, t)) : t.height = s.height - count := by
  unfold State.pop at h
  split at h
  · simp only [Except.ok.injEq, Prod.mk.injEq] at h
    rw [← h.2]
    simp [State.height]
  · cases h

theorem drop (count : Nat) : HeightBy fun s => s.drop count := by
  refine ⟨fun n => n - count, ?_⟩
  intro s t h
  obtain ⟨⟨values, u⟩, hu, ht⟩ := bind_eq_ok_iff.1 h
  cases ht
  exact of_pop hu

theorem replaceTop (count : Nat) (v : VerificationType) :
    HeightBy fun s => Flow.replaceTop s count v :=
  (drop count).bind (push (some v))

end HeightBy

variable (p : Program)

theorem height_construct (receiver : VerificationType) (s : State) :
    (construct p receiver s).height = s.height := by
  unfold construct State.replaceAll State.height
  split <;> simp

theorem heightBy_takeReceiver (op : Opcode) (name : Text) :
    HeightBy fun s => takeReceiver p op name s := by
  by_cases hop : op = .invokestatic
  · simp only [takeReceiver, hop, if_true]
    exact HeightBy.skip
  · refine ⟨fun n => n - 1, ?_⟩
    intro s t h
    simp only [takeReceiver, if_neg hop] at h
    obtain ⟨⟨values, u⟩, hu, ht⟩ := bind_eq_ok_iff.1 h
    show t.height = s.height - 1
    rw [← HeightBy.of_pop hu]
    split at ht
    · split at ht <;> cases ht
      · exact height_construct p _ u
      · rfl
    · cases ht
      rfl

theorem heightBy_call (op : Opcode) (name descriptor : Text) :
    HeightBy fun s => call p op name descriptor s := by
  unfold call
  cases Descriptor.split descriptor with
  | error e => exact HeightBy.fail e
  | ok parts =>
    exact (HeightBy.drop _).bind ((heightBy_takeReceiver p op name).bind (HeightBy.push_of _))

theorem heightBy_accessField (op : Opcode) (descriptor : Text) :
    HeightBy fun s => accessField op descriptor s := by
  unfold accessField
  split
  · exact HeightBy.push_of _
  · exact HeightBy.drop _
  · exact (HeightBy.drop 1).bind (HeightBy.push_of _)
  · exact HeightBy.drop _

theorem heightBy_aboutType (op : Opcode) (name : Option Text) (index : Nat) :
    HeightBy fun s => aboutType op name index s := by
  unfold aboutType
  split
  · exact HeightBy.push _
  · cases name with
    | none => exact (HeightBy.drop 1).bind (HeightBy.fail _)
    | some n => exact (HeightBy.drop 1).bind (HeightBy.push (some _))
  · exact HeightBy.replaceTop 1 _
  · exact HeightBy.replaceTop 1 _

/-- Arrays of several dimensions: how many slots go may depend on the height too. -/
theorem heightBy_newArrays (descriptor : Option Text) (dimensions : Int) :
    HeightBy fun s => newArrays descriptor dimensions s := by
  let count (n : Nat) : Nat := if 0 ≤ dimensions then dimensions.toNat else n - dimensions.natAbs
  refine ⟨fun n => n - count n + (slotsOf (.object descriptor)).length, ?_⟩
  intro s t h
  obtain ⟨u, hu, ht⟩ := bind_eq_ok_iff.1 h
  obtain ⟨⟨values, v⟩, hv, hrest⟩ := bind_eq_ok_iff.1 hu
  cases hrest
  cases ht
  have := HeightBy.of_pop hv
  simp only [State.push, State.height, List.length_append, List.length_reverse] at this ⊢
  rw [this, Nat.add_comm]

theorem heightBy_shapeEffect (index : Nat) (i : Instruction Label) :
    HeightBy fun s => shapeEffect p index i s := by
  unfold shapeEffect
  split
  · exact HeightBy.replaceTop 1 _
  · exact HeightBy.push _
  · exact HeightBy.push _
  · unfold jump
    split
    · exact HeightBy.push _
    · exact HeightBy.drop _
  · exact HeightBy.drop 1
  · exact HeightBy.drop 1
  · exact heightBy_accessField _ _
  · exact heightBy_call p _ _ _
  · exact heightBy_call p _ _ _
  · exact heightBy_aboutType _ _ _
  · exact heightBy_newArrays _ _
  · exact HeightBy.fail _
  · exact HeightBy.skip
  · exact HeightBy.skip

theorem heightBy_foldl_push (pushed : List VerificationType) :
    HeightBy fun s => .ok (pushed.foldl (fun s v => s.push (some v)) s) := by
  induction pushed with
  | nil => exact HeightBy.skip
  | cons v rest ih => exact (HeightBy.push (some v)).bind ih

/-- What a terminal code pairs with an access to a local does nothing. -/
theorem access_of_isTerminal {op : Opcode} (h : op.isTerminal = true) (slot : Int) (s : State) :
    access op slot s = .ok s := by
  cases op <;> first | rfl | simp [Opcode.isTerminal] at h

/-- The height after a terminal instruction depends on the height before alone. -/
theorem heightBy_effect {i : Instruction Label} (h : i.opcode.isTerminal = true) (index : Nat) :
    HeightBy fun s => effect p index i s := by
  unfold effect
  cases hfixed : fixedEffect? i.opcode with
  | some found => exact (HeightBy.drop _).bind (heightBy_foldl_push _)
  | none =>
    have haccess : ∀ op slot, access? i = some (op, slot) → op.isTerminal = true := by
      intro op slot ha
      unfold access? at ha
      split at ha
      · cases ha
        exact h
      · cases h
      · next op' =>
        simp only [Instruction.opcode] at h
        have : shortForm? op' = none := by
          cases op' <;> first | rfl | simp [Opcode.isTerminal] at h
        simp [this] at ha
      · cases ha
    cases ha : access? i with
    | some found =>
      obtain ⟨op, slot⟩ := found
      simp only [access_of_isTerminal (haccess op slot ha)]
      exact HeightBy.skip
    | none =>
      have hcopy : copy? i.opcode = none ∧ i.opcode ≠ .aaload ∧ i.opcode ≠ .swap := by
        generalize i.opcode = op at h
        cases op <;> first | exact ⟨rfl, by decide, by decide⟩ | simp [Opcode.isTerminal] at h
      simp only [hcopy.1, hcopy.2.1, hcopy.2.2, if_false]
      exact heightBy_shapeEffect p index i

end ClassTree.Flow

namespace ClassTree.Flow.Program

variable (p : Program)

/-- Control may pass from an instruction to another one. -/
inductive Edge (index : Nat) : Nat → Prop
  | fallThrough {position : Nat} {i : Instruction Label}
      (hi : p.instructions[index]? = some (position, i)) (hfalls : i.opcode.isTerminal = false) :
      Edge index (index + 1)
  /-- A jump, or one of the ways of a switch. -/
  | branch {position : Nat} {i : Instruction Label} {label : Label} {target : Nat}
      (hi : p.instructions[index]? = some (position, i)) (hlabel : label ∈ i.targets)
      (htarget : p.resolve label = .ok target) : Edge index target
  | handler {r : Region} (hr : r ∈ p.regions) (hstart : r.start ≤ index) (hstop : index < r.stop) :
      Edge index r.target

/-- A path of edges leads to an instruction from the first one. -/
inductive Reachable : Nat → Prop
  | entry (h : 0 < p.size) : Reachable 0
  | step {index target : Nat} (h : Reachable index) (he : p.Edge index target) : Reachable target

variable {p}

theorem Reachable.size_pos {index : Nat} (h : p.Reachable index) : 0 < p.size := by
  induction h with
  | entry h => exact h
  | step _ _ ih => exact ih

/-- The successors of an instruction are the targets of its labels and, unless it is terminal, the
instruction after it. -/
theorem mem_successors_iff {index : Nat} {i : Instruction Label} {targets : List Nat}
    (h : p.successors index i = .ok targets) (target : Nat) :
    target ∈ targets ↔ (∃ label ∈ i.targets, p.resolve label = .ok target) ∨
      (i.opcode.isTerminal = false ∧ target = index + 1) := by
  obtain ⟨resolved, hresolved, hrest⟩ := Result.bind_eq_ok_iff.1 h
  have hall := Result.mapM_eq_ok_iff.1 hresolved
  have hmem : target ∈ resolved ↔ ∃ label ∈ i.targets, p.resolve label = .ok target := by
    constructor
    · exact Result.exists_of_mem_right hall
    · rintro ⟨label, hlabel, htarget⟩
      obtain ⟨found, hfound, heq⟩ := Result.exists_of_mem_left hall hlabel
      obtain rfl : target = found := Except.ok.inj (htarget.symm.trans heq)
      exact hfound
  simp only [pure, Except.pure, Except.ok.injEq] at hrest
  subst hrest
  cases i.opcode.isTerminal <;> simp [hmem]

/-- Every label of an instruction with successors leads somewhere. -/
theorem exists_resolve_of_successors {index : Nat} {i : Instruction Label} {targets : List Nat}
    (h : p.successors index i = .ok targets) {label : Label} (hlabel : label ∈ i.targets) :
    ∃ target, p.resolve label = .ok target := by
  obtain ⟨resolved, hresolved, -⟩ := Result.bind_eq_ok_iff.1 h
  obtain ⟨target, -, htarget⟩ :=
    Result.exists_of_mem_left (Result.mapM_eq_ok_iff.1 hresolved) hlabel
  exact ⟨target, htarget⟩

theorem edge_of_mem_successors {index position : Nat} {i : Instruction Label} {targets : List Nat}
    (hi : p.instructions[index]? = some (position, i)) (h : p.successors index i = .ok targets)
    {target : Nat} (ht : target ∈ targets) : p.Edge index target := by
  rcases (mem_successors_iff h target).1 ht with ⟨label, hlabel, htarget⟩ | ⟨hfalls, rfl⟩
  · exact .branch hi hlabel htarget
  · exact .fallThrough hi hfalls

/-- Naming the instruction of a failure does not touch a success. -/
@[simp] theorem locate_eq_ok_iff {α : Type} {index : Nat} {x : Result α} {a : α} :
    p.locate index x = .ok a ↔ x = .ok a := by
  unfold locate
  split <;> simp_all [refuse]

end ClassTree.Flow.Program

namespace ClassTree.Flow

namespace Solver

variable {p : Program}

/-! ## What flowing does -/

/-- Merging a state into the one before an instruction changes nothing. -/
def Takes (s : Solver) (target : Nat) (incoming : State) : Prop :=
  ∃ known, s.states[target]? = some (some known) ∧ known.Absorbs incoming

/-- A solver comes from another one by flowing: states go down, and an instruction whose state has
changed is pending. -/
structure Later (s t : Solver) : Prop where
  size : t.states.size = s.states.size
  pending : ∀ index ∈ s.pending, index ∈ t.pending
  known : ∀ {index : Nat} {known : State}, s.states[index]? = some (some known) →
    ∃ later, t.states[index]? = some (some later) ∧ later.height = known.height ∧
      ∀ incoming, known.Absorbs incoming → later.Absorbs incoming
  changed : ∀ index, t.states[index]? = s.states[index]? ∨ index ∈ t.pending
  maxStack : t.maxStack = s.maxStack

theorem Later.refl (s : Solver) : Later s s where
  size := rfl
  pending := fun _ h => h
  known := fun h => ⟨_, h, rfl, fun _ ha => ha⟩
  changed := fun _ => .inl rfl
  maxStack := rfl

theorem Later.trans {s t u : Solver} (h : Later s t) (h' : Later t u) : Later s u where
  size := h'.size.trans h.size
  pending := fun index hi => h'.pending index (h.pending index hi)
  known := by
    intro index known hknown
    obtain ⟨later, hlater, hheight, habsorbs⟩ := h.known hknown
    obtain ⟨last, hlast, hheight', habsorbs'⟩ := h'.known hlater
    exact ⟨last, hlast, hheight'.trans hheight, fun x hx => habsorbs' x (habsorbs x hx)⟩
  changed := by
    intro index
    rcases h'.changed index with heq' | hmem
    · rcases h.changed index with heq | hmem
      · exact .inl (heq'.trans heq)
      · exact .inr (h'.pending index hmem)
    · exact .inr hmem
  maxStack := h'.maxStack.trans h.maxStack

theorem Takes.later {s t : Solver} {target : Nat} {incoming : State} (h : s.Takes target incoming)
    (hl : Later s t) : t.Takes target incoming := by
  obtain ⟨known, hknown, habsorbs⟩ := h
  obtain ⟨later, hlater, -, hkeep⟩ := hl.known hknown
  exact ⟨later, hlater, hkeep incoming habsorbs⟩

/-- What the solver knows holds of reachable instructions only, and pending ones are among them. -/
structure Sound (p : Program) (s : Solver) : Prop where
  size : s.states.size = p.size
  reached : ∀ {index : Nat} {known : State}, s.states[index]? = some (some known) →
    p.Reachable index
  pending : ∀ index ∈ s.pending, ∃ known, s.states[index]? = some (some known)

/-- Setting the state of an instruction and making it pending keeps the solver sound. -/
theorem Sound.set {s : Solver} (h : Sound p s) {index : Nat} (hi : index < s.states.size)
    (hreach : p.Reachable index) (known : State) :
    Sound p { s with
      states := s.states.set index (some known), pending := index :: s.pending } where
  size := by simpa using h.size
  reached := by
    intro other found hfound
    rw [Array.getElem?_set] at hfound
    split at hfound
    · next heq => exact heq ▸ hreach
    · exact h.reached hfound
  pending := by
    intro other hother
    rw [Array.getElem?_set]
    by_cases heq : index = other
    · exact ⟨known, by simp [heq]⟩
    · obtain ⟨found, hfound⟩ := h.pending other (by simpa [Ne.symm heq] using hother)
      exact ⟨found, by simpa [heq] using hfound⟩

/-- A state that goes down where it stands makes a later solver. -/
theorem later_set {s : Solver} {index : Nat} (hi : index < s.states.size) {known : State}
    (hdown : ∀ old, s.states[index] = some old → known.height = old.height ∧
      ∀ incoming, old.Absorbs incoming → known.Absorbs incoming) :
    Later s { s with
      states := s.states.set index (some known), pending := index :: s.pending } where
  size := by simp
  pending := by
    intro other hother
    exact List.mem_cons_of_mem _ hother
  known := by
    intro other old hold
    rw [Array.getElem?_set]
    by_cases heq : index = other
    · subst heq
      obtain ⟨hheight, habsorbs⟩ := hdown old (by simpa [hi] using hold)
      exact ⟨known, by simp, hheight, habsorbs⟩
    · exact ⟨old, by simpa [heq] using hold, rfl, fun _ ha => ha⟩
  changed := by
    intro other
    by_cases heq : index = other
    · exact .inr (by simp [heq])
    · exact .inl (by simp [heq])
  maxStack := rfl

/-- Flowing into a reachable instruction: the solver is a later one, stays sound, and takes the
state from now on. -/
theorem flow_spec {s t : Solver} {index : Nat} {incoming : State}
    (h : s.flow p index incoming = .ok t) (hs : Sound p s) (hreach : p.Reachable index) :
    Later s t ∧ Sound p t ∧ t.Takes index incoming := by
  unfold flow at h
  split at h
  · next hi =>
    split at h
    · next hnone =>
      simp only [Except.ok.injEq] at h
      subst h
      refine ⟨later_set hi ?_, hs.set hi hreach incoming, incoming, ?_, incoming.absorbs_self⟩
      · intro old hold
        rw [hnone] at hold
        cases hold
      · simp
    · next known hknown =>
      split at h
      · cases h
      · next merged hmerged =>
        rw [Program.locate_eq_ok_iff] at hmerged
        split at h
        · next hsame =>
          simp only [Except.ok.injEq] at h
          subst h hsame
          exact ⟨.refl s, hs, merged, by simp [hi, hknown], hmerged⟩
        · simp only [Except.ok.injEq] at h
          subst h
          refine ⟨later_set hi ?_, hs.set hi hreach merged, merged, ?_,
            State.absorbs_of_merge hmerged⟩
          · intro old hold
            obtain rfl : known = old := by simpa [hknown] using hold
            exact ⟨State.length_stack_of_merge hmerged, fun x hx => hx.merge hmerged⟩
          · simp
  · cases h

/-! ## Flows in a row -/

/-- Flows along a list, each of which leaves something behind that later flows keep. -/
theorem foldlM_spec {α : Type} {step : Solver → α → Result Solver} {Post : α → Solver → Prop}
    {l : List α}
    (hstep : ∀ s, ∀ a ∈ l, ∀ t, Sound p s → step s a = .ok t → Later s t ∧ Sound p t ∧ Post a t)
    (hkeep : ∀ a s t, Post a s → Later s t → Post a t) {s t : Solver} (hs : Sound p s)
    (h : l.foldlM step s = .ok t) : Later s t ∧ Sound p t ∧ ∀ a ∈ l, Post a t := by
  induction l generalizing s with
  | nil =>
    obtain rfl : s = t := by simpa [pure, Except.pure] using h
    exact ⟨.refl s, hs, by simp⟩
  | cons a l ih =>
    rw [List.foldlM_cons] at h
    obtain ⟨u, hu, hrest⟩ := Result.bind_eq_ok_iff.1 h
    obtain ⟨hlater, hsound, hpost⟩ := hstep s a (by simp) u hs hu
    obtain ⟨hlater', hsound', hposts⟩ :=
      ih (fun s b hb => hstep s b (List.mem_cons_of_mem a hb)) hsound hrest
    refine ⟨hlater.trans hlater', hsound', ?_⟩
    intro b hb
    rcases List.mem_cons.1 hb with rfl | hb
    · exact hkeep b u t hpost hlater'
    · exact hposts b hb

/-- The locals before an instruction have flowed into a handler. -/
def HandlerTaken (index : Nat) (r : Region) (s : Solver) : Prop :=
  r.start ≤ index → index < r.stop → index ∈ s.pending ∨
    ∃ known, s.states[index]? = some (some known) ∧ s.Takes r.target ⟨known.locals, [r.caught]⟩

/-- Once the locals have flowed into a handler, only a change of them matters. -/
theorem HandlerTaken.later {index : Nat} {r : Region} {s t : Solver} (h : HandlerTaken index r s)
    (hl : Later s t) : HandlerTaken index r t := by
  intro hstart hstop
  rcases h hstart hstop with hmem | ⟨known, hknown, htakes⟩
  · exact .inl (hl.pending index hmem)
  · rcases hl.changed index with heq | hmem
    · exact .inr ⟨known, heq.trans hknown, htakes.later hl⟩
    · exact .inl hmem

theorem flowToRegion_spec {s t : Solver} {index : Nat} {r : Region} (hr : r ∈ p.regions)
    (hreach : p.Reachable index) (hs : Sound p s) (h : flowToRegion p index s r = .ok t) :
    Later s t ∧ Sound p t ∧ HandlerTaken index r t := by
  unfold flowToRegion at h
  split at h
  · next hcovers =>
    split at h
    · cases h
    · next here hhere =>
      have hreach' : p.Reachable r.target := hreach.step (.handler hr hcovers.1 hcovers.2)
      obtain ⟨hlater, hsound, htakes⟩ := flow_spec h hs hreach'
      refine ⟨hlater, hsound, ?_⟩
      intro _ _
      have hknown : s.states[index]? = some (some here) := by
        unfold stateAt at hhere
        split at hhere <;> simp_all
      -- the handler may be the instruction itself
      rcases hlater.changed index with heq | hmem
      · exact .inr ⟨here, heq.trans hknown, htakes⟩
      · exact .inl hmem
  · next hcovers =>
    simp only [Except.ok.injEq] at h
    subst h
    exact ⟨.refl s, hs, fun hstart hstop => absurd ⟨hstart, hstop⟩ hcovers⟩

/-- Flowing to a successor, which has to exist. -/
theorem flowToSuccessor_spec {s t : Solver} {index target : Nat} {out : State}
    (hreach : p.Reachable target) (hs : Sound p s)
    (h : flowToSuccessor p index out s target = .ok t) :
    Later s t ∧ Sound p t ∧ t.Takes target out := by
  unfold flowToSuccessor at h
  split at h
  · exact flow_spec h hs hreach
  · simp [Program.refuse] at h

/-! ## Looking at an instruction -/

/-- Letting the state before an instruction flow on changes nothing. -/
structure Settled (p : Program) (s : Solver) (index : Nat) (known : State) : Prop where
  handlers : ∀ r ∈ p.regions, r.start ≤ index → index < r.stop →
    s.Takes r.target ⟨known.locals, [r.caught]⟩
  height : known.height ≤ s.maxStack
  effect : ∃ position i out targets, p.instructions[index]? = some (position, i) ∧
    effect p index i known = .ok out ∧ p.successors index i = .ok targets ∧
    out.height ≤ s.maxStack ∧ ∀ target ∈ targets, s.Takes target out

/-- An instruction stays settled as long as its own state does not change. -/
theorem Settled.later {s t : Solver} {index : Nat} {known : State} (h : Settled p s index known)
    (hl : Later s t) : Settled p t index known where
  handlers := fun r hr hstart hstop => (h.handlers r hr hstart hstop).later hl
  height := hl.maxStack ▸ h.height
  effect := by
    obtain ⟨position, i, out, targets, hi, hout, htargets, hheight, htakes⟩ := h.effect
    exact ⟨position, i, out, targets, hi, hout, htargets, hl.maxStack ▸ hheight,
      fun target ht => (htakes target ht).later hl⟩

/-- The greatest height is one that was met: before a reached instruction, or after an effect. Where
control falls through, the height after it is the one before the next instruction; where it does
not, the height depends on the height before alone, which never changes. -/
def Met (p : Program) (s : Solver) (height : Nat) : Prop :=
  ∃ index known, s.states[index]? = some (some known) ∧
    (known.height = height ∨ ∃ position i earlier out,
      p.instructions[index]? = some (position, i) ∧ i.opcode.isTerminal = true ∧
      earlier.height = known.height ∧ Flow.effect p index i earlier = .ok out ∧
      out.height = height)

theorem Met.later {s t : Solver} {height : Nat} (h : Met p s height) (hl : Later s t) :
    Met p t height := by
  obtain ⟨index, known, hknown, hmet⟩ := h
  obtain ⟨later, hlater, heq, -⟩ := hl.known hknown
  refine ⟨index, later, hlater, ?_⟩
  rcases hmet with hmet | ⟨position, i, earlier, out, hi, hterm, hearlier, hout, hheight⟩
  · exact .inl (heq.trans hmet)
  · exact .inr ⟨position, i, earlier, out, hi, hterm, hearlier.trans heq.symm, hout, hheight⟩

/-- The invariant of the solver; `entry` is the state at the beginning of the method. -/
structure Invariant (p : Program) (entry : State) (s : Solver) : Prop extends Sound p s where
  entry : s.Takes 0 entry
  settled : ∀ {index : Nat} {known : State}, s.states[index]? = some (some known) →
    index ∈ s.pending ∨ Settled p s index known
  peak : Met p s s.maxStack ∨ s.maxStack = 0

/-- Carrying out an instruction: its result has flowed on, the instruction is settled unless that
has changed its own state, and the greatest height is one that was met. -/
theorem apply_spec {s t : Solver} {index position : Nat} {i : Instruction Label}
    (hi : p.instructions[index]? = some (position, i)) (hs : Sound p s)
    (hhandlers : ∀ r ∈ p.regions, HandlerTaken index r s) (h : s.apply p index i = .ok t) :
    Sound p t ∧ s.maxStack ≤ t.maxStack ∧ Later { s with maxStack := t.maxStack } t ∧
      (index ∈ t.pending ∨ ∃ known, t.states[index]? = some (some known) ∧
        Settled p t index known) ∧
      (t.maxStack = s.maxStack ∨ Met p t t.maxStack) := by
  obtain ⟨here, hhere, h⟩ := Result.bind_eq_ok_iff.1 h
  obtain ⟨out, hout, h⟩ := Result.bind_eq_ok_iff.1 h
  obtain ⟨targets, htargets, h⟩ := Result.bind_eq_ok_iff.1 h
  rw [Program.locate_eq_ok_iff] at hout
  have hknown : s.states[index]? = some (some here) := by
    unfold stateAt at hhere
    split at hhere <;> simp_all
  have hreach := hs.reached hknown
  set raised : Solver :=
    { s with maxStack := max s.maxStack (max here.stack.length out.stack.length) } with hraised
  have hsound : Sound p raised := ⟨hs.size, hs.reached, hs.pending⟩
  obtain ⟨hlater, hsound', htakes⟩ := foldlM_spec
    (fun s target ht t hs h =>
      flowToSuccessor_spec (hreach.step (Program.edge_of_mem_successors hi htargets ht)) hs h)
    (fun target s t h hl => Takes.later h hl) hsound h
  have hmax : t.maxStack = max s.maxStack (max here.height out.height) := hlater.maxStack
  refine ⟨hsound', by omega, hmax ▸ hlater, ?_, ?_⟩
  -- an instruction that did not flow into itself has its state still, and is settled with it
  · rcases hlater.changed index with heq | hmem
    · have hstill : t.states[index]? = some (some here) := heq.trans hknown
      by_cases hmem : index ∈ t.pending
      · exact .inl hmem
      refine .inr ⟨here, hstill, ?_, by omega, position, i, out, targets, hi, hout, htargets,
        by omega, htakes⟩
      intro r hr hstart hstop
      have hraisedHandler : HandlerTaken index r raised := hhandlers r hr
      rcases (hraisedHandler.later hlater) hstart hstop with hp | ⟨known, hk, htaken⟩
      · exact absurd hp hmem
      · obtain rfl : here = known := by simpa [hstill] using hk
        exact htaken
    · exact .inl hmem
  · -- the new greatest height is the old one, the one before, or the one after the instruction
    obtain ⟨later, hlaterKnown, hheight, -⟩ := hlater.known hknown
    by_cases hold : t.maxStack = s.maxStack
    · exact .inl hold
    refine .inr ?_
    by_cases hbefore : t.maxStack = here.height
    · exact ⟨index, later, hlaterKnown, .inl (by omega)⟩
    have hafter : out.height = t.maxStack := by omega
    cases hterm : i.opcode.isTerminal with
    | true =>
      exact ⟨index, later, hlaterKnown,
        .inr ⟨position, i, here, out, hi, hterm, hheight.symm, hout, hafter⟩⟩
    | false =>
      have hnext : index + 1 ∈ targets :=
        (Program.mem_successors_iff htargets _).2 (.inr ⟨hterm, rfl⟩)
      obtain ⟨known, hnextKnown, habsorbs⟩ := htakes _ hnext
      exact ⟨index + 1, known, hnextKnown, .inl (habsorbs.length_stack.trans hafter)⟩

/-- Looking at a pending instruction keeps the invariant. Its handlers take the state before the
instruction, then the instruction is carried out and its result flows on; it is settled with that,
or pending again if it has flowed into itself. -/
theorem Invariant.visit {entry : State} {s t : Solver} {index : Nat} {rest : List Nat}
    (hs : Invariant p entry s) (hpending : s.pending = index :: rest)
    (h : ({ s with pending := rest } : Solver).visit p index = .ok t) : Invariant p entry t := by
  unfold Solver.visit at h
  split at h
  · cases h
  next position i hi =>
  obtain ⟨u, hu, happly⟩ := Result.bind_eq_ok_iff.1 h
  obtain ⟨known, hknown⟩ := hs.pending index (by simp [hpending])
  have hreach := hs.reached hknown
  have hsound : Sound p { s with pending := rest } :=
    ⟨hs.size, hs.reached, fun other hother => hs.pending other (by simp [hpending, hother])⟩
  obtain ⟨hlater, hsoundU, hhandlers⟩ := foldlM_spec
    (fun s r hr t hs h => flowToRegion_spec hr hreach hs h)
    (fun r s t h hl => HandlerTaken.later h hl) hsound hu
  obtain ⟨hsoundT, hmax, hlaterT, hindex, hpeak⟩ := apply_spec hi hsoundU hhandlers happly
  -- a state that has changed on the way is pending, so what is not pending was there before
  have hkeep {other : Nat} {known : State} (hk : t.states[other]? = some (some known))
      (hp : other ∉ t.pending) : s.states[other]? = some (some known) := by
    rcases hlaterT.changed other with heqT | hmem
    · rcases hlater.changed other with heq | hmem
      · exact heq.symm.trans (heqT.symm.trans hk)
      · exact absurd (hlaterT.pending other hmem) hp
    · exact absurd hmem hp
  refine { hsoundT with entry := ?_, settled := ?_, peak := ?_ }
  · have hentry : u.Takes 0 entry := Takes.later (s := { s with pending := rest }) hs.entry hlater
    exact Takes.later (s := { u with maxStack := t.maxStack }) hentry hlaterT
  · intro other known hk
    by_cases hp : other ∈ t.pending
    · exact .inl hp
    refine .inr ?_
    by_cases heq : other = index
    · subst heq
      rcases hindex with hmem | ⟨found, hfound, hsettled⟩
      · exact absurd hmem hp
      · obtain rfl : known = found := by simpa [hk] using hfound
        exact hsettled
    · rcases hs.settled (hkeep hk hp) with hmem | hsettled
      · -- it was pending before and still is
        rw [hpending, List.mem_cons] at hmem
        exact absurd (hlaterT.pending other (hlater.pending other (hmem.resolve_left heq))) hp
      · have hpopped : Settled p { s with pending := rest } other known :=
          ⟨hsettled.handlers, hsettled.height, hsettled.effect⟩
        have hu := hpopped.later hlater
        have hraised : Settled p { u with maxStack := t.maxStack } other known := by
          refine ⟨hu.handlers, Nat.le_trans hu.height hmax, ?_⟩
          obtain ⟨position, i, out, targets, hi, hout, htargets, hheight, htakes⟩ := hu.effect
          exact ⟨position, i, out, targets, hi, hout, htargets, Nat.le_trans hheight hmax, htakes⟩
        exact hraised.later hlaterT
  · rcases hpeak with hsame | hmet
    · rcases hs.peak with hmet | hzero
      · have hmetU : Met p u s.maxStack := Met.later (s := { s with pending := rest }) hmet hlater
        have hmetT := Met.later (s := { u with maxStack := t.maxStack }) hmetU hlaterT
        exact .inl (by rwa [hsame, hlater.maxStack])
      · exact .inr (by rw [hsame, hlater.maxStack]; exact hzero)
    · exact .inl hmet

theorem solve_of_visit {s t : Solver} {index : Nat} {rest : List Nat}
    (hpending : s.pending = index :: rest)
    (h : ({ s with pending := rest } : Solver).visit p index = .ok t) :
    s.solve p = t.solve p := by
  rw [Solver.solve]
  split
  · next hnil => simp [hpending] at hnil
  · next index' rest' hcons =>
    obtain ⟨rfl, rfl⟩ : index = index' ∧ rest = rest' := by simpa [hpending] using hcons
    split
    · next e he => simp [h] at he
    · next u hu =>
      obtain rfl : t = u := by simpa [h] using hu
      rfl

theorem solve_of_nil {s : Solver} (h : s.pending = []) : s.solve p = .ok s := by
  rw [Solver.solve]
  split
  · rfl
  · next hcons => simp [h] at hcons

theorem solve_of_refusal {s : Solver} {index : Nat} {rest : List Nat} {e : Error}
    (hpending : s.pending = index :: rest)
    (h : ({ s with pending := rest } : Solver).visit p index = .error e) :
    s.solve p = .error e := by
  rw [Solver.solve]
  split
  · next hnil => simp [hpending] at hnil
  · next index' rest' hcons =>
    obtain ⟨rfl, rfl⟩ : index = index' ∧ rest = rest' := by simpa [hpending] using hcons
    split
    · next e' he =>
      rw [h] at he
      cases he
      rfl
    · next t ht => simp [h] at ht

/-- Solving keeps the invariant and leaves nothing pending. -/
theorem Invariant.solve {entry : State} {s t : Solver} (hs : Invariant p entry s)
    (h : s.solve p = .ok t) : Invariant p entry t ∧ t.pending = [] := by
  induction s using Solver.solve.induct p with
  | case1 s hnil =>
    rw [solve_of_nil hnil] at h
    cases h
    exact ⟨hs, hnil⟩
  | case2 s index rest hcons e hfail =>
    rw [solve_of_refusal hcons hfail] at h
    cases h
  | case3 s index rest hcons u hvisit ih =>
    rw [solve_of_visit hcons hvisit] at h
    exact ih (hs.visit hcons hvisit) h

/-- The invariant holds at the end of a run of a program with instructions. -/
theorem invariant_of_run {s : Solver} (h : run p = .ok s) (hsize : 0 < p.size) :
    ∃ locals, p.entryLocals = .ok locals ∧ Invariant p ⟨locals, []⟩ s ∧ s.pending = [] := by
  unfold run at h
  rw [if_neg (by omega)] at h
  obtain ⟨locals, hlocals, h⟩ := Result.bind_eq_ok_iff.1 h
  obtain ⟨first, hfirst, h⟩ := Result.bind_eq_ok_iff.1 h
  have hsound : Sound p (initial p) := by
    refine ⟨by simp [initial], ?_, ?_⟩
    · intro index known hknown
      simp [initial, Array.getElem?_replicate] at hknown
    · simp [initial]
  obtain ⟨hlater, hsound', htakes⟩ := flow_spec hfirst hsound (.entry hsize)
  have hfirstPending {index : Nat} {known : State}
      (hk : first.states[index]? = some (some known)) : index ∈ first.pending := by
    rcases hlater.changed index with heq | hmem
    · rw [heq] at hk
      simp [initial, Array.getElem?_replicate] at hk
    · exact hmem
  have hinv : Invariant p ⟨locals, []⟩ first :=
    { hsound' with
      entry := htakes
      settled := fun hk => .inl (hfirstPending hk)
      peak := .inr hlater.maxStack }
  exact ⟨locals, hlocals, hinv.solve h⟩

end Solver

end ClassTree.Flow
