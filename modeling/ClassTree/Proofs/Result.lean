/-
# ClassTree.Proofs.Result — results of sequences of steps

Steps that may fail are chained, mapped over lists and folded over lists. A chain that succeeds has
succeeded at every step; these lemmas take such a success apart.
-/
import Mathlib.Data.List.Forall2

namespace ClassTree.Result

variable {ε α β γ : Type}

/-- A chain goes on with what its first step has given. -/
@[simp]
theorem ok_bind (a : α) (f : α → Except ε β) : (Except.ok a >>= f) = f a := rfl

theorem bind_eq_ok_iff {x : Except ε α} {f : α → Except ε β} {b : β} :
    (x >>= f) = .ok b ↔ ∃ a, x = .ok a ∧ f a = .ok b := by
  cases x <;> simp [bind, Except.bind]

theorem bind_eq_error_iff {x : Except ε α} {f : α → Except ε β} {e : ε} :
    (x >>= f) = .error e ↔ x = .error e ∨ ∃ a, x = .ok a ∧ f a = .error e := by
  cases x <;> simp [bind, Except.bind]

theorem map_eq_ok_iff {x : Except ε α} {f : α → β} {b : β} :
    (f <$> x) = .ok b ↔ ∃ a, x = .ok a ∧ f a = b := by
  cases x <;> simp [Functor.map, Except.map]

/-- What holds of a state and is kept by every step holds in the end. -/
theorem of_foldlM_eq_ok {f : β → α → Except ε β} {I : β → Prop}
    (hstep : ∀ b a b', I b → f b a = .ok b' → I b') {l : List α} {b b' : β} (hb : I b)
    (h : l.foldlM f b = .ok b') : I b' := by
  induction l generalizing b with
  | nil =>
    cases h
    exact hb
  | cons a l ih =>
    rw [List.foldlM_cons] at h
    obtain ⟨b₁, hb₁, h⟩ := bind_eq_ok_iff.1 h
    exact ih (hstep b a b₁ hb hb₁) h

/-- Mapping succeeds where every element does, and gives the results in order. -/
theorem mapM_eq_ok_iff {f : α → Except ε β} {l : List α} {r : List β} :
    l.mapM f = .ok r ↔ List.Forall₂ (fun a b => f a = .ok b) l r := by
  induction l generalizing r with
  | nil => simp [pure, Except.pure, eq_comm]
  | cons a l ih =>
    simp only [List.mapM_cons, bind_eq_ok_iff, ih, List.forall₂_cons_left_iff, pure, Except.pure,
      Except.ok.injEq]
    grind

theorem exists_of_mapM_eq_error {f : α → Except ε β} {l : List α} {e : ε}
    (h : l.mapM f = .error e) : ∃ a ∈ l, f a = .error e := by
  induction l with
  | nil => cases h
  | cons a l ih =>
    rw [List.mapM_cons] at h
    rcases bind_eq_error_iff.1 h with h | ⟨b, -, h⟩
    · exact ⟨a, List.mem_cons_self, h⟩
    rcases bind_eq_error_iff.1 h with h | ⟨bs, -, h⟩
    · obtain ⟨a', ha', h⟩ := ih h
      exact ⟨a', List.mem_cons_of_mem a ha', h⟩
    · cases h

/-- Checks of all elements fail where one of them does. -/
theorem exists_of_forM_eq_error {f : α → Except ε Unit} {l : List α} {e : ε}
    (h : l.forM f = .error e) : ∃ a ∈ l, f a = .error e := by
  induction l with
  | nil => cases h
  | cons a l ih =>
    have hrow : (f a >>= fun _ => l.forM f) = .error e := h
    rcases bind_eq_error_iff.1 hrow with h | ⟨_, -, h⟩
    · exact ⟨a, List.mem_cons_self, h⟩
    · obtain ⟨a', ha', h⟩ := ih h
      exact ⟨a', List.mem_cons_of_mem a ha', h⟩

/-- Checks of all elements succeed where each of them does. -/
theorem of_forM_eq_ok {f : α → Except ε Unit} {l : List α} (h : l.forM f = .ok ()) {a : α}
    (ha : a ∈ l) : f a = .ok () := by
  induction l with
  | nil => cases ha
  | cons b l ih =>
    have hrow : (f b >>= fun _ => l.forM f) = .ok () := h
    obtain ⟨_, hb, h⟩ := bind_eq_ok_iff.1 hrow
    rcases List.mem_cons.1 ha with rfl | ha
    · exact hb
    · exact ih h ha

/-- Every element of a mapped list comes from one of the list. -/
theorem exists_of_mem_right {R : α → β → Prop} {l : List α} {r : List β}
    (h : List.Forall₂ R l r) {b : β} (hb : b ∈ r) : ∃ a ∈ l, R a b := by
  induction h with
  | nil => simp at hb
  | cons hab _ ih =>
    rcases List.mem_cons.1 hb with rfl | hb
    · exact ⟨_, by simp, hab⟩
    · obtain ⟨a, ha, hr⟩ := ih hb
      exact ⟨a, by simp [ha], hr⟩

/-- Every element of a list leads to one of the mapped list. -/
theorem exists_of_mem_left {R : α → β → Prop} {l : List α} {r : List β}
    (h : List.Forall₂ R l r) {a : α} (ha : a ∈ l) : ∃ b ∈ r, R a b :=
  exists_of_mem_right h.flip ha

/-- Results that each lead on to another one lead on to a list of them. -/
theorem exists_forall₂_of_forall₂ {R : α → β → Prop} {S : β → γ → Prop} {Q : α → γ → Prop}
    {l : List α} {r : List β} (h : List.Forall₂ R l r)
    (hstep : ∀ a ∈ l, ∀ b, R a b → ∃ c, S b c ∧ Q a c) :
    ∃ cs, List.Forall₂ S r cs ∧ List.Forall₂ Q l cs := by
  induction h with
  | nil => exact ⟨[], .nil, .nil⟩
  | cons hab _ ih =>
    obtain ⟨c, hs, hq⟩ := hstep _ (by simp) _ hab
    obtain ⟨cs, hss, hqs⟩ := ih fun a ha => hstep a (by simp [ha])
    exact ⟨c :: cs, .cons hs hss, .cons hq hqs⟩

/-- Lists that are related to a list in between are related. -/
theorem forall₂_trans {R : α → β → Prop} {S : β → γ → Prop} {Q : α → γ → Prop} {l : List α}
    {r : List β} {cs : List γ} (h : List.Forall₂ R l r) (h' : List.Forall₂ S r cs)
    (hQ : ∀ a b c, R a b → S b c → Q a c) : List.Forall₂ Q l cs := by
  induction h generalizing cs with
  | nil =>
    cases h'
    exact .nil
  | cons hab _ ih =>
    cases h' with
    | cons hbc h' => exact .cons (hQ _ _ _ hab hbc) (ih h')

end ClassTree.Result
