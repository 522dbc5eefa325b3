/-
# ClassTree.Batch — many classes at once

The items of a batch succeed or fail each on its own, and their outcomes keep the order of the
items. How many workers share the items has no influence on the outcomes; a batch only needs one.
An improvement exchanges a whole batch for another.
-/
import ClassTree.Form

namespace ClassTree

namespace Batch

/-! ## Outcomes -/

/-- A batch that is given a number of workers is given at least one. -/
def checkWorkers (workers : Option Int) : Result Unit :=
  if workers.all (0 < ·) then .ok () else .error (.undefined .workers)

/-- The outcome of every item, in the order of the items. -/
def outcomes {α β : Type} (workers : Option Int) (f : α → Result β) (items : List α) :
    Result (List (Result β)) := do
  checkWorkers workers
  return items.map f

/-! ## Improvements -/

/-- A pass over a batch of classes. -/
structure Improvement where
  name : Text
  apply : List Form → List Form

/-- The pass that leaves every class as it is. -/
def Improvement.identity : Improvement := ⟨"IdentityImprovement", fun forms => forms⟩

/-- A batch on its way through improvements, and what was noted about them. -/
structure Improved where
  forms : List Form
  notes : List Text := []

/-- One pass, noted with the number of classes before and after it. -/
def Improved.step (batch : Improved) (pass : Improvement) : Improved :=
  let forms := pass.apply batch.forms
  let note := Text.concat [pass.name, ": ", Text.ofNat batch.forms.length, " class(es) in, ",
    Text.ofNat forms.length, " out"]
  { forms, notes := batch.notes ++ [note] }

/-- The passes in their order, each on what the one before it left. -/
def improve (forms : List Form) (passes : List Improvement) : Improved :=
  passes.foldl Improved.step { forms }

/-! ## Small laws -/

theorem notes_improve (forms : List Form) (passes : List Improvement) :
    (improve forms passes).notes.length = passes.length := by
  suffices h : ∀ batch : Improved,
      (passes.foldl Improved.step batch).notes.length = batch.notes.length + passes.length by
    simp [improve, h]
  induction passes with
  | nil => simp
  | cons pass rest ih => intro batch; simp [ih, Improved.step]; omega

end Batch

end ClassTree
