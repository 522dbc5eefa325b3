/-
# ClassTree.Descriptor — method descriptors

A method descriptor is `(`, the types of the arguments without anything between them, `)`, and the
type of the result. The type of an argument is a letter, or `L` up to and with the next `;`, after
any number of `[`. The class name in an `L` type may hold any other character, parentheses included.
-/
import ClassTree.Error

namespace ClassTree.Descriptor

/-- Opens an array type. -/
def bracket : CodePoint := 0x5B

/-- Closes a class type. -/
def semicolon : CodePoint := 0x3B

/-- Closes the arguments. -/
def close : CodePoint := 0x29

/-- Takes one type off the front of a text. -/
def takeType? (t : Text) : Option (Text × Text) :=
  let brackets := t.takeWhile (· = bracket)
  match t.dropWhile (· = bracket) with
  | [] => none
  | c :: rest =>
    if c = 0x4C then
      match rest.dropWhile (· ≠ semicolon) with
      | [] => none
      | s :: after => some (brackets ++ c :: (rest.takeWhile (· ≠ semicolon) ++ [s]), after)
    else some (brackets ++ [c], rest)

/-- Taking a type off the front of a descriptor leaves a shorter text, so splitting a descriptor
ends. -/
theorem length_of_takeType? {t type rest : Text} (h : takeType? t = some (type, rest)) :
    rest.length < t.length := by
  have hdrop (p : CodePoint → Bool) (l : Text) : (l.dropWhile p).length ≤ l.length :=
    (List.dropWhile_sublist p).length_le
  unfold takeType? at h
  have ht := hdrop (· = bracket) t
  split at h
  · simp at h
  · next c after hc =>
    rw [hc] at ht
    simp only [List.length_cons] at ht
    split at h
    · split at h
      · simp at h
      · next s last hs =>
        have hr := hdrop (· ≠ semicolon) after
        rw [hs] at hr
        simp only [Option.some.injEq, Prod.mk.injEq] at h
        obtain ⟨_, rfl⟩ := h
        simp only [List.length_cons] at hr
        omega
    · simp only [Option.some.injEq, Prod.mk.injEq] at h
      obtain ⟨_, rfl⟩ := h
      omega

/-- The argument types up to the closing parenthesis, onto the reversed ones `acc`, and the text
after it. Each type taken shortens the text. -/
def splitFrom? (t : Text) (acc : List Text) : Option (List Text × Text) :=
  match t with
  | [] => none
  | c :: rest =>
    if c = close then some (acc.reverse, rest)
    else
      match _taken : takeType? (c :: rest) with
      | none => none
      | some (type, after) => splitFrom? after (type :: acc)
termination_by t.length
decreasing_by exact length_of_takeType? _taken

/-- The argument types and the result type of a method descriptor. -/
def split (t : Text) : Result (List Text × Text) :=
  match t with
  | [] => .error (.invalid (.methodDescriptor t))
  | c :: rest =>
    if c = 0x28 then
      match splitFrom? rest [] with
      | some parts => .ok parts
      | none => .error (.undefined .descriptorEnd)
    else .error (.invalid (.methodDescriptor t))

/-- The argument types of a method descriptor. -/
def arguments (t : Text) : Result (List Text) := (split t).map Prod.fst

/-- The slots that a value of a type takes: none for void, two for long and double, otherwise one.
-/
def slotSize (type : Text) : Nat :=
  if type = "V" then 0 else if type = "J" ∨ type = "D" then 2 else 1

/-- The slots that values of these types take together. -/
def slots (types : List Text) : Nat := types.foldl (fun n type => n + slotSize type) 0

end ClassTree.Descriptor
