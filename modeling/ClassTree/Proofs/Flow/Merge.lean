/-
# ClassTree.Proofs.Flow.Merge — merging as a join

Merging two states keeps what they agree on. Seen from one side, a state *absorbs* another one if
merging it in changes nothing. The two laws that a fixpoint rests on are proved here: what has been
merged in is absorbed from then on, and a state that goes on changing under merging never stops to
absorb what it absorbed before. Neither of them asks the effect of instructions to be monotone.
-/
import ClassTree.Flow.Weight

namespace ClassTree.Flow

/-! ## Types -/

@[simp] theorem mergeType?_self (a : VerificationType) : mergeType? a a = some a := by
  simp [mergeType?]

@[simp] theorem isReference_root : isReference (instanceOf objectName) = true := rfl

/-- The root of all classes is not the null type. -/
theorem root_ne_null : instanceOf objectName ≠ .null := nofun

/-- What a type absorbs, it absorbs after any further merge. -/
theorem mergeType?_absorbs {a b c v : VerificationType} (h : mergeType? a b = some a)
    (hc : mergeType? a c = some v) : mergeType? v b = some v := by
  -- all that matters of the root is that it is a reference and not null
  have hroot := isReference_root
  have hnull := root_ne_null
  unfold mergeType? at *
  grind

/-- What has been merged into a type is absorbed by it. -/
theorem mergeType?_absorbs_merged {a b v : VerificationType} (h : mergeType? a b = some v) :
    mergeType? v b = some v := by
  have hroot := isReference_root
  have hnull := root_ne_null
  unfold mergeType? at *
  grind

/-! ## Locals -/

@[simp] theorem mergeLocal_top (b : VerificationType) : mergeLocal .top b = .top := by
  unfold mergeLocal mergeType?
  by_cases h : VerificationType.top = b <;> simp [h, isReference]

@[simp] theorem mergeLocal_self (a : VerificationType) : mergeLocal a a = a := by
  simp [mergeLocal]

/-- What a local absorbs, it absorbs after any further merge. -/
theorem mergeLocal_absorbs {a b : VerificationType} (h : mergeLocal a b = a)
    (c : VerificationType) : mergeLocal (mergeLocal a c) b = mergeLocal a c := by
  cases hc : mergeType? a c with
  | none => simp [show mergeLocal a c = .top by simp [mergeLocal, hc]]
  | some v =>
    have hv : mergeLocal a c = v := by simp [mergeLocal, hc]
    rw [hv]
    cases hb : mergeType? a b with
    | some w =>
      obtain rfl : w = a := by simpa [mergeLocal, hb] using h
      simp [mergeLocal, mergeType?_absorbs hb hc]
    | none =>
      -- only top absorbs what it cannot merge with
      obtain rfl : .top = a := by simpa [mergeLocal, hb] using h
      rw [← hv, mergeLocal_top, mergeLocal_top]

/-- What has been merged into a local is absorbed by it. -/
theorem mergeLocal_absorbs_merged (a b : VerificationType) :
    mergeLocal (mergeLocal a b) b = mergeLocal a b := by
  cases h : mergeType? a b with
  | none => simp [show mergeLocal a b = .top by simp [mergeLocal, h]]
  | some v =>
    have hv : mergeLocal a b = v := by simp [mergeLocal, h]
    rw [hv]
    simp [mergeLocal, mergeType?_absorbs_merged h]

theorem zipWith_mergeLocal_absorbs {a b : List VerificationType}
    (h : List.zipWith mergeLocal a b = a) (c : List VerificationType) :
    List.zipWith mergeLocal (List.zipWith mergeLocal a c) b = List.zipWith mergeLocal a c := by
  induction a generalizing b c with
  | nil => simp
  | cons x a ih =>
    cases b with
    | nil => simp at h
    | cons y b =>
      cases c with
      | nil => simp
      | cons z c =>
        simp only [List.zipWith_cons_cons, List.cons.injEq] at h ⊢
        exact ⟨mergeLocal_absorbs h.1 z, ih h.2 c⟩

/-- Lists of locals absorb what has been merged into them. -/
theorem zipWith_mergeLocal_absorbs_merged (a b : List VerificationType) :
    List.zipWith mergeLocal (List.zipWith mergeLocal a b) b = List.zipWith mergeLocal a b := by
  induction a generalizing b with
  | nil => simp
  | cons x a ih =>
    cases b with
    | nil => simp
    | cons y b => simp [mergeLocal_absorbs_merged, ih]

theorem zipWith_mergeLocal_self (a : List VerificationType) :
    List.zipWith mergeLocal a a = a := by
  induction a with
  | nil => rfl
  | cons x a ih => simp

/-! ## Stacks -/

/-- Merging slot by slot onto `acc` succeeds where all slots merge. -/
theorem foldlM_mergeType?_of_map_some {pairs : List (VerificationType × VerificationType)}
    {acc merged : List VerificationType}
    (h : merged.map some = (pairs.map fun p => mergeType? p.1 p.2).reverse ++ acc.map some) :
    pairs.foldlM (m := Except (VerificationType × VerificationType))
      (fun acc (x, y) => match mergeType? x y with
        | some v => .ok (v :: acc)
        | none => .error (x, y)) acc = .ok merged := by
  induction pairs generalizing acc with
  | nil =>
    have : merged = acc := (List.map_inj_right fun _ _ => Option.some.inj).1 (by simpa using h)
    rw [this]
    rfl
  | cons p rest ih =>
    have hmem : mergeType? p.1 p.2 ∈ merged.map some := by
      rw [h]
      simp
    obtain ⟨v, -, hv⟩ := List.mem_map.1 hmem
    simp only [List.foldlM_cons, ← hv, bind, Except.bind]
    apply ih
    simpa [← hv] using h

/-- Stacks merge exactly where all their slots do. -/
theorem mergeStacks_eq_ok_iff {a b merged : List VerificationType} :
    mergeStacks a b = .ok merged ↔ merged.map some = List.zipWith mergeType? a b := by
  constructor
  · exact map_some_of_mergeStacks
  · intro h
    apply foldlM_mergeType?_of_map_some
    simpa [List.map_reverse, List.zip, List.map_zipWith] using h

theorem zipWith_mergeType?_absorbs {a b c v : List VerificationType}
    (h : a.map some = List.zipWith mergeType? a b)
    (hc : v.map some = List.zipWith mergeType? a c) :
    v.map some = List.zipWith mergeType? v b := by
  induction a generalizing b c v with
  | nil =>
    obtain rfl : v = [] := by simpa using hc
    rfl
  | cons x a ih =>
    match b, c, v, h, hc with
    | y :: b, z :: c, w :: v, h, hc =>
      simp only [List.map_cons, List.zipWith_cons_cons, List.cons.injEq] at h hc ⊢
      exact ⟨(mergeType?_absorbs h.1.symm hc.1.symm).symm, ih h.2 hc.2⟩
    | y :: b, [], [], _, _ => rfl

/-- Stacks absorb what has been merged into them. -/
theorem zipWith_mergeType?_absorbs_merged {a b v : List VerificationType}
    (h : v.map some = List.zipWith mergeType? a b) :
    v.map some = List.zipWith mergeType? v b := by
  induction a generalizing b v with
  | nil =>
    obtain rfl : v = [] := by simpa using h
    rfl
  | cons x a ih =>
    match b, v, h with
    | y :: b, w :: v, h =>
      simp only [List.map_cons, List.zipWith_cons_cons, List.cons.injEq] at h ⊢
      exact ⟨(mergeType?_absorbs_merged h.1.symm).symm, ih h.2⟩
    | [], [], _ => rfl

/-! ## States -/

namespace State

/-- Merging `incoming` into the state succeeds and changes nothing. -/
def Absorbs (known incoming : State) : Prop := known.merge incoming = .ok known

theorem merge_eq_ok_iff {known incoming merged : State} :
    known.merge incoming = .ok merged ↔
      known.stack.length = incoming.stack.length ∧
      merged.locals = List.zipWith mergeLocal known.locals incoming.locals ∧
      merged.stack.map some = List.zipWith mergeType? known.stack incoming.stack := by
  unfold merge
  by_cases hheight : known.stack.length = incoming.stack.length
  · rw [if_pos hheight, ← mergeStacks_eq_ok_iff]
    cases mergeStacks known.stack incoming.stack with
    | ok stack =>
      obtain ⟨locals, stack'⟩ := merged
      simp [hheight, eq_comm]
    | error e => simp
  · simp [hheight]

theorem length_stack_of_merge {known incoming merged : State}
    (h : known.merge incoming = .ok merged) : merged.stack.length = known.stack.length := by
  obtain ⟨hheight, -, hstack⟩ := merge_eq_ok_iff.1 h
  have := congrArg List.length hstack
  simp only [List.length_map, List.length_zipWith] at this
  omega

theorem absorbs_self (s : State) : s.Absorbs s := by
  refine merge_eq_ok_iff.2 ⟨rfl, (zipWith_mergeLocal_self s.locals).symm, ?_⟩
  generalize s.stack = stack
  induction stack with
  | nil => rfl
  | cons x stack ih => simp

/-- A state absorbs what has been merged into it. -/
theorem absorbs_of_merge {known incoming merged : State}
    (h : known.merge incoming = .ok merged) : merged.Absorbs incoming := by
  have hheight := length_stack_of_merge h
  obtain ⟨hlength, hlocals, hstack⟩ := merge_eq_ok_iff.1 h
  refine merge_eq_ok_iff.2 ⟨by omega, ?_, zipWith_mergeType?_absorbs_merged hstack⟩
  rw [hlocals]
  exact (zipWith_mergeLocal_absorbs_merged _ _).symm

/-- A state goes on to absorb what it absorbs, whatever is merged into it. -/
theorem Absorbs.merge {known other incoming merged : State} (h : known.Absorbs other)
    (hmerge : known.merge incoming = .ok merged) : merged.Absorbs other := by
  have hheight := length_stack_of_merge hmerge
  obtain ⟨hlength, hlocals, hstack⟩ := merge_eq_ok_iff.1 h
  obtain ⟨-, hlocals', hstack'⟩ := merge_eq_ok_iff.1 hmerge
  refine merge_eq_ok_iff.2 ⟨by omega, ?_, zipWith_mergeType?_absorbs hstack hstack'⟩
  rw [hlocals']
  exact (zipWith_mergeLocal_absorbs hlocals.symm _).symm

theorem Absorbs.length_stack {known incoming : State} (h : known.Absorbs incoming) :
    known.stack.length = incoming.stack.length :=
  (merge_eq_ok_iff.1 h).1

end State

end ClassTree.Flow
