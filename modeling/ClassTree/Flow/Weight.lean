/-
# ClassTree.Flow.Weight — merging lowers a state

A type can change under merging only a few times: null may become an object, an object the root of
all classes, and any local top. The `rank` of a type counts the changes left to it, and the `weight`
of a state adds up its ranks and the number of its locals. The main statement is that a merge which
changes a state lowers its weight, so no state changes forever.
-/
import ClassTree.Flow.State

namespace ClassTree.Flow

/-- How many times a type can still change. -/
def rank : VerificationType → Nat
  | .top => 0
  | .null => 3
  | .object name => if name = some objectName then 1 else 2
  | _ => 1

/-- A measure of elements added up over a list. -/
def total {α : Type} (measure : α → Nat) (l : List α) : Nat := l.foldr (measure · + ·) 0

@[simp] theorem total_nil {α : Type} (measure : α → Nat) : total measure [] = 0 := rfl

@[simp] theorem total_cons {α : Type} (measure : α → Nat) (a : α) (l : List α) :
    total measure (a :: l) = measure a + total measure l := rfl

/-- How often a state can still change. -/
def State.weight (s : State) : Nat := total (rank · + 1) s.locals + total rank s.stack

theorem rank_eq_zero {v : VerificationType} (h : rank v = 0) : v = .top := by
  cases v <;> simp [rank] at h ⊢
  split at h <;> simp at h

/-! ## Types -/

/-- A type that changes under merging falls in rank. -/
theorem rank_mergeType? {a b v : VerificationType} (h : mergeType? a b = some v) :
    v = a ∨ rank v < rank a := by
  unfold mergeType? at h
  split at h
  · exact .inl (by simpa using h.symm)
  · next hne =>
    split at h
    · next href =>
      simp only [Bool.and_eq_true] at href
      split at h
      · next ha =>
        obtain rfl : b = v := by simpa using h
        subst ha
        cases b <;> simp_all [isReference, rank]
        split <;> omega
      · split at h
        · exact .inl (by simpa using h.symm)
        · obtain rfl : instanceOf objectName = v := by simpa using h
          cases a <;> simp_all [isReference, rank, instanceOf]
          split <;> simp_all
    · simp at h

/-- A local that changes under merging falls in rank. -/
theorem rank_mergeLocal (a b : VerificationType) :
    mergeLocal a b = a ∨ rank (mergeLocal a b) < rank a := by
  unfold mergeLocal
  cases h : mergeType? a b with
  | some v => simpa using rank_mergeType? h
  | none =>
    by_cases ha : rank a = 0
    · exact .inl (by simp [rank_eq_zero ha])
    · right
      have htop : rank .top = 0 := rfl
      simp only [Option.getD_none]
      omega

/-! ## Lists of types -/

/-- Merging slot by slot onto `acc` keeps the slots in reverse. -/
theorem map_some_foldlM_mergeType? {pairs : List (VerificationType × VerificationType)}
    {acc merged : List VerificationType}
    (h : pairs.foldlM (m := Except (VerificationType × VerificationType))
      (fun acc (x, y) => match mergeType? x y with
        | some v => .ok (v :: acc)
        | none => .error (x, y)) acc = .ok merged) :
    merged.map some = (pairs.map fun p => mergeType? p.1 p.2).reverse ++ acc.map some := by
  induction pairs generalizing acc with
  | nil =>
    obtain rfl : acc = merged := by simpa [pure, Except.pure] using h
    rfl
  | cons p rest ih =>
    simp only [List.foldlM_cons, bind, Except.bind] at h
    split at h
    · simp at h
    · next next_ hnext =>
      split at hnext
      · next v hv =>
        obtain rfl : v :: acc = next_ := by simpa using hnext
        simpa [hv] using ih h
      · simp at hnext

/-- A merged stack holds the merged types slot by slot. -/
theorem map_some_of_mergeStacks {a b merged : List VerificationType}
    (h : mergeStacks a b = .ok merged) : merged.map some = List.zipWith mergeType? a b := by
  have := map_some_foldlM_mergeType? h
  simpa [List.map_reverse, List.zip, List.map_zipWith] using this

/-- A stack that changes under merging falls in total rank. -/
theorem total_rank_lt_of_zipWith {a b merged : List VerificationType}
    (h : merged.map some = List.zipWith mergeType? a b) (hlength : a.length = b.length) :
    merged = a ∨ total rank merged < total rank a := by
  induction a generalizing b merged with
  | nil => exact .inl (by simpa using h)
  | cons x a ih =>
    match b, merged, hlength, h with
    | y :: b, v :: merged, hlength, h =>
      simp only [List.map_cons, List.zipWith_cons_cons, List.cons.injEq] at h
      have hhead := rank_mergeType? h.1.symm
      have htail := ih h.2 (by simpa using hlength)
      simp only [total_cons, List.cons.injEq]
      rcases hhead with rfl | hhead <;> rcases htail with rfl | htail
      · exact .inl ⟨rfl, rfl⟩
      all_goals right; omega

/-- Locals that change under merging, or become fewer, fall in total. -/
theorem total_rank_lt_of_mergeLocal (a b : List VerificationType) :
    List.zipWith mergeLocal a b = a ∨
      total (rank · + 1) (List.zipWith mergeLocal a b) < total (rank · + 1) a := by
  induction a generalizing b with
  | nil => exact .inl (by simp)
  | cons x a ih =>
    cases b with
    | nil => right; simp only [List.zipWith_nil_right, total_nil, total_cons]; omega
    | cons y b =>
      have hhead := rank_mergeLocal x y
      simp only [List.zipWith_cons_cons, total_cons, List.cons.injEq]
      rcases hhead with hhead | hhead <;> rcases ih b with htail | htail
      · exact .inl ⟨hhead, htail⟩
      · right; rw [hhead]; omega
      · right; rw [htail]; omega
      · right; omega

/-! ## States -/

/-- A merge that changes a state lowers its weight. -/
theorem State.weight_merge {known incoming merged : State} (h : known.merge incoming = .ok merged) :
    merged = known ∨ merged.weight < known.weight := by
  unfold State.merge at h
  split at h
  · next hheight =>
    split at h
    · next stack hstack =>
      obtain rfl : ⟨known.locals.zipWith mergeLocal incoming.locals, stack⟩ = merged := by
        simpa using h
      have hs := total_rank_lt_of_zipWith (map_some_of_mergeStacks hstack) hheight
      have hl := total_rank_lt_of_mergeLocal known.locals incoming.locals
      unfold State.weight
      rcases hs with hs | hs <;> rcases hl with hl | hl
      · exact .inl (by rw [hs, hl])
      · right; simp only [hs]; omega
      · right; simp only [hl]; omega
      · right; simp only; omega
    · simp at h
  · simp at h

end ClassTree.Flow
