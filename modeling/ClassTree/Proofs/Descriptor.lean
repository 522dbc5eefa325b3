/-
# ClassTree.Proofs.Descriptor — the arguments of a method

A descriptor lists fewer arguments than it has characters. A text that is no descriptor is refused,
or ends too early; nothing else goes wrong.

A well-formed descriptor has the arguments that it is made of, also as it is stored: a surrogate
pair can only be joined in the name of a class, and no name reaches over the semicolon behind it.

Whatever is split, well-formed or not, is put together again of its parts: a type that is taken off
is a piece of the front of the text, and it is never empty.
-/
import ClassTree.Descriptor
import ClassTree.Proofs.Text.ModifiedUtf8

namespace ClassTree.Descriptor

theorem length_le_of_splitFrom? {t rest : Text} {acc types : List Text}
    (h : splitFrom? t acc = some (types, rest)) : types.length ≤ acc.length + t.length := by
  fun_induction splitFrom? t acc with
  | case1 => cases h
  | case2 =>
    cases h
    simp
  | case3 => cases h
  | case4 acc c tail hc type after htaken ih =>
    have hle := ih h
    have hlt := length_of_takeType? htaken
    simp only [List.length_cons] at hle hlt ⊢
    omega

/-- A descriptor lists fewer arguments than it has characters, so a descriptor from a pool has no
more than two bytes can count. -/
theorem length_le_of_arguments {t : Text} {types : List Text} (h : arguments t = .ok types) :
    types.length ≤ t.length := by
  unfold arguments at h
  cases hsplit : split t with
  | error e =>
    rw [hsplit] at h
    cases h
  | ok parts =>
    rw [hsplit] at h
    cases h
    unfold split at hsplit
    split at hsplit
    · cases hsplit
    · split at hsplit
      · split at hsplit
        · next found hfound =>
          cases hsplit
          have := length_le_of_splitFrom? hfound
          simp only [List.length_nil, List.length_cons] at this ⊢
          omega
        · cases hsplit
      · cases hsplit

/-- A text without arguments is no descriptor or ends too early. -/
theorem arguments_error {t : Text} {e : Error} (h : arguments t = .error e) :
    e = .invalid (.methodDescriptor t) ∨ e = .undefined .descriptorEnd := by
  unfold arguments at h
  cases hsplit : split t with
  | ok parts =>
    rw [hsplit] at h
    cases h
  | error e' =>
    rw [hsplit] at h
    cases h
    unfold split at hsplit
    split at hsplit
    · cases hsplit
      exact .inl rfl
    · split at hsplit
      · split at hsplit
        · cases hsplit
        · cases hsplit
          exact .inr rfl
      · cases hsplit
        exact .inl rfl

/-! ## Well-formed descriptors -/

open ModifiedUtf8 (stored stored_append_cons stored_cons mem_of_mem_stored)

/-- The letters `BCDFIJSZ` of the types of values that are no objects. -/
def letters : Text := [0x42, 0x43, 0x44, 0x46, 0x49, 0x4A, 0x53, 0x5A]

/-- The descriptor of a type of values. -/
inductive IsType : Text → Prop
  | letter {c : CodePoint} (h : c ∈ letters) : IsType [c]
  | reference {name : Text} (h : semicolon ∉ name) : IsType (0x4C :: (name ++ [semicolon]))
  | array {type : Text} (h : IsType type) : IsType (bracket :: type)

/-- The descriptor of a method with arguments of some types. -/
def IsMethodOf (types : List Text) (t : Text) : Prop :=
  (∀ type ∈ types, IsType type) ∧ ∃ result, (IsType result ∨ result = "V") ∧
    t = 0x28 :: (types.flatten ++ close :: result)

/-- A well-formed descriptor of a method. -/
def IsMethod (t : Text) : Prop := ∃ types, IsMethodOf types t

/-- The letters are plain and have no meaning of their own. -/
theorem of_mem_letters {c : CodePoint} (h : c ∈ letters) :
    c ≠ bracket ∧ c ≠ 0x4C ∧ c ≠ close ∧ c.val < 0xD800 := by
  simp only [letters, List.mem_cons, List.not_mem_nil, or_false] at h
  rcases h with rfl | rfl | rfl | rfl | rfl | rfl | rfl | rfl <;> decide

/-- A type behind a bracket is taken with it. -/
theorem takeType?_bracket (t : Text) :
    takeType? (bracket :: t) = (takeType? t).map fun r => (bracket :: r.1, r.2) := by
  unfold takeType?
  simp only [List.takeWhile_cons, List.dropWhile_cons, decide_true, if_true]
  split
  · rfl
  · split
    · split <;> rfl
    · rfl

namespace IsType

variable {type : Text}

/-- A type is taken off the front of a text. -/
theorem takeType?_append (h : IsType type) (rest : Text) :
    takeType? (type ++ rest) = some (type, rest) := by
  induction h with
  | @letter c h =>
    obtain ⟨hbracket, hclass, -⟩ := of_mem_letters h
    simp [takeType?, hbracket, hclass]
  | @reference name h =>
    have hname : ∀ c ∈ name, (!decide (c = semicolon)) = true := by
      intro c hc
      simp only [Bool.not_eq_true', decide_eq_false_iff_not]
      rintro rfl
      exact h hc
    have hbracket : (0x4C : CodePoint) ≠ bracket := by decide
    simp [takeType?, hbracket, List.takeWhile_append_of_pos hname, List.dropWhile_append_of_pos hname]
  | array h ih => rw [List.cons_append, takeType?_bracket, ih, Option.map_some]

/-- A type does not begin like the end of the arguments. -/
theorem exists_cons (h : IsType type) : ∃ c tail, type = c :: tail ∧ c ≠ close := by
  cases h with
  | letter h => exact ⟨_, _, rfl, (of_mem_letters h).2.2.1⟩
  | reference h => exact ⟨_, _, rfl, by decide⟩
  | array h => exact ⟨_, _, rfl, by decide⟩

theorem exists_concat (h : IsType type) : ∃ init c, type = init ++ [c] ∧ c.val < 0xD800 := by
  induction h with
  | letter h => exact ⟨[], _, rfl, (of_mem_letters h).2.2.2⟩
  | @reference name h => exact ⟨0x4C :: name, semicolon, rfl, by decide⟩
  | array h ih =>
    obtain ⟨init, c, rfl, hc⟩ := ih
    exact ⟨bracket :: init, c, rfl, hc⟩

theorem stored_append (h : IsType type) (rest : Text) :
    stored (type ++ rest) = stored type ++ stored rest := by
  obtain ⟨init, c, rfl, hc⟩ := h.exists_concat
  have hempty : stored [] = [] := rfl
  rw [List.append_assoc, List.singleton_append, stored_append_cons hc, stored_append_cons hc, hempty,
    List.append_assoc, List.singleton_append]

theorem isType_stored (h : IsType type) : IsType (stored type) := by
  have hempty : stored [] = [] := rfl
  induction h with
  | @letter c h =>
    rw [stored_cons (of_mem_letters h).2.2.2, hempty]
    exact .letter h
  | @reference name h =>
    rw [stored_cons (by decide), stored_append_cons (by decide), hempty]
    exact .reference fun hmem => h (mem_of_mem_stored (by decide) hmem)
  | array h ih =>
    rw [stored_cons (by decide)]
    exact .array ih

end IsType

/-- Types in a row are stored one by one. -/
theorem stored_flatten_append {types : List Text} (h : ∀ type ∈ types, IsType type) (rest : Text) :
    stored (types.flatten ++ rest) = (types.map stored).flatten ++ stored rest := by
  induction types with
  | nil => rfl
  | cons type types ih =>
    rw [List.flatten_cons, List.append_assoc, (h type (List.mem_cons_self ..)).stored_append,
      ih fun other hother => h other (List.mem_cons_of_mem type hother), List.map_cons,
      List.flatten_cons, List.append_assoc]

/-- The arguments are split up to the parenthesis behind them. -/
theorem splitFrom?_append {types : List Text} (h : ∀ type ∈ types, IsType type) (rest : Text)
    (acc : List Text) :
    splitFrom? (types.flatten ++ close :: rest) acc = some (acc.reverse ++ types, rest) := by
  induction types generalizing acc with
  | nil => simp [splitFrom?]
  | cons type types ih =>
    have htype := h type (List.mem_cons_self ..)
    have htake := htype.takeType?_append (types.flatten ++ close :: rest)
    obtain ⟨c, tail, rfl, hc⟩ := htype.exists_cons
    rw [List.flatten_cons, List.append_assoc]
    rw [List.cons_append] at htake ⊢
    unfold splitFrom?
    rw [if_neg hc]
    split
    · next hnone =>
      rw [htake] at hnone
      cases hnone
    · next type' after hsome =>
      obtain ⟨rfl, rfl⟩ := Prod.mk.inj (Option.some.inj (htake.symm.trans hsome))
      rw [ih fun other hother => h other (List.mem_cons_of_mem _ hother), List.reverse_cons,
        List.append_assoc, List.singleton_append]

/-- The descriptor of a method with arguments of some types and a result of some type or none. -/
def IsMethodWith (types : List Text) (result t : Text) : Prop :=
  (∀ type ∈ types, IsType type) ∧ (IsType result ∨ result = "V") ∧
    t = 0x28 :: (types.flatten ++ close :: result)

/-- Types between parentheses are split from what follows, whatever that is. -/
theorem split_append {types : List Text} (h : ∀ type ∈ types, IsType type) (result : Text) :
    split (0x28 :: (types.flatten ++ close :: result)) = .ok (types, result) := by
  unfold split
  simp only [splitFrom?_append h result [], if_true]
  rfl

theorem IsMethodWith.split_eq {types : List Text} {result t : Text}
    (h : IsMethodWith types result t) : split t = .ok (types, result) := by
  obtain ⟨htypes, -, rfl⟩ := h
  exact split_append htypes result

namespace IsMethodOf

variable {types : List Text} {t : Text}

/-- The arguments are those that the descriptor is made of. -/
theorem arguments_eq (h : IsMethodOf types t) : arguments t = .ok types := by
  obtain ⟨htypes, result, -, rfl⟩ := h
  have hsplit := splitFrom?_append htypes result []
  unfold arguments
  simp only [split, hsplit]
  rfl

/-- A descriptor is stored as one with arguments of the types as they are stored. -/
theorem isMethodOf_stored (h : IsMethodOf types t) : IsMethodOf (types.map stored) (stored t) := by
  obtain ⟨htypes, result, hresult, rfl⟩ := h
  refine ⟨fun type htype => ?_, stored result, ?_, ?_⟩
  · obtain ⟨type, hmem, rfl⟩ := List.mem_map.1 htype
    exact (htypes type hmem).isType_stored
  · rcases hresult with hresult | rfl
    · exact .inl hresult.isType_stored
    · exact .inr (ModifiedUtf8.stored_of_isWhole (by decide))
  · rw [stored_cons (by decide), stored_flatten_append htypes, stored_cons (by decide)]

end IsMethodOf

/-! ## Any descriptor -/

/-- A type that is taken off a text is not empty, and the text goes on behind it. -/
theorem append_of_takeType? {t type rest : Text} (h : takeType? t = some (type, rest)) :
    type ≠ [] ∧ t = type ++ rest := by
  have hbrackets := List.takeWhile_append_dropWhile (p := fun c => decide (c = bracket)) (l := t)
  unfold takeType? at h
  split at h
  · cases h
  · next c behind hc =>
    rw [hc] at hbrackets
    split at h
    · split at h
      · cases h
      · next s after hs =>
        -- the name of the class ends at the semicolon that was found
        have hname := List.takeWhile_append_dropWhile (p := fun c => decide (c ≠ semicolon)) (l := behind)
        rw [hs] at hname
        cases h
        refine ⟨by simp, hbrackets.symm.trans ?_⟩
        simpa using hname.symm
    · cases h
      exact ⟨by simp, hbrackets.symm.trans (by simp)⟩

/-- The types that are split off a text are not empty; with the parenthesis behind them and the rest
they are the text. -/
theorem flatten_of_splitFrom? {t rest : Text} {acc types : List Text}
    (h : splitFrom? t acc = some (types, rest)) :
    ∃ taken, types = acc.reverse ++ taken ∧ (∀ type ∈ taken, type ≠ []) ∧
      t = taken.flatten ++ close :: rest := by
  fun_induction splitFrom? t acc with
  | case1 => cases h
  | case2 acc tail =>
    cases h
    exact ⟨[], by simp, by simp, rfl⟩
  | case3 => cases h
  | case4 acc c tail hc type after htaken ih =>
    obtain ⟨hne, happend⟩ := append_of_takeType? htaken
    obtain ⟨taken, rfl, htypes, rfl⟩ := ih h
    refine ⟨type :: taken, by simp, List.forall_mem_cons.2 ⟨hne, htypes⟩, ?_⟩
    rw [happend, List.flatten_cons, List.append_assoc]

/-- Types that are put between parentheses are split as they were, whatever the names of their
classes hold and whatever result follows; and any text that is split at all is put together again of
its parts, none of which is empty. -/
theorem split_inverts_join :
    (∀ types result, (∀ type ∈ types, IsType type) →
      split (0x28 :: (types.flatten ++ close :: result)) = .ok (types, result)) ∧
    ∀ t types result, split t = .ok (types, result) →
      (∀ type ∈ types, type ≠ []) ∧ t = 0x28 :: (types.flatten ++ close :: result) := by
  refine ⟨fun types result h => split_append h result, fun t types result h => ?_⟩
  unfold split at h
  split at h
  · cases h
  · split at h
    · next hopen =>
      split at h
      · next parts hparts =>
        cases h
        obtain ⟨taken, rfl, htypes, rfl⟩ := flatten_of_splitFrom? hparts
        exact ⟨htypes, by rw [hopen]⟩
      · cases h
    · cases h

/-- An array of arrays of a class with parentheses in its name, and a text whose first argument is
no type: a parenthesis behind a bracket is taken with it. -/
theorem split_inverts_join_odd :
    ((∀ type ∈ (["[[La)b(;", "J"] : List Text), IsType type) ∧
      split "([[La)b(;J)V" = .ok (["[[La)b(;", "J"], "V")) ∧
    split "([)x)V" = .ok (["[)", "x"], "V") ∧ (∀ type ∈ (["[)", "x"] : List Text), type ≠ []) ∧
      ("([)x)V" : Text) = 0x28 :: ((["[)", "x"] : List Text).flatten ++ close :: "V") := by
  have htypes : ∀ type ∈ (["[[La)b(;", "J"] : List Text), IsType type := by
    intro type htype
    simp only [List.mem_cons, List.not_mem_nil, or_false] at htype
    rcases htype with rfl | rfl
    · exact .array (.array (@IsType.reference "a)b(" (by decide)))
    · exact .letter (by decide)
  have hodd : split "([)x)V" = .ok (["[)", "x"], "V") := by cbv
  have hparts := split_inverts_join.2 _ _ _ hodd
  exact ⟨⟨htypes, split_inverts_join.1 _ _ htypes⟩, hodd, hparts⟩

end ClassTree.Descriptor
