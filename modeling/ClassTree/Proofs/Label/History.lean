/-
# ClassTree.Proofs.Label.History — a registry answers by what it was asked before

Calls on a registry, in any order, and its answers to them make a history. What the next call gives
is said by the history alone: which labels have been handed out, which offset got which, what has
been defined and what has been referred to. The registry keeps all this in maps of its own; that the
maps say the same as the history is what every call preserves.

A search for a fresh name tries one number after another. It ends because the names in use are
finitely many and numbers have different names.
-/
import ClassTree.Proofs.Label.Registry
import Mathlib.Data.List.Induction
import Mathlib.Data.List.Perm.Subperm

namespace ClassTree.Label

/-! ## The search for a free number -/

/-- The search stops at the first free number, unless its fuel runs out on taken ones. -/
theorem firstFree_spec (names : Std.HashSet Text) (fuel n : Nat) :
    n ≤ firstFree names fuel n ∧
      (∀ m, n ≤ m → m < firstFree names fuel n → names.contains (numbered m) = true) ∧
      (names.contains (numbered (firstFree names fuel n)) = false ∨
        firstFree names fuel n = n + fuel) := by
  induction fuel generalizing n with
  | zero => exact ⟨le_rfl, fun m hm hlt => absurd hlt (Nat.not_lt.2 hm), .inr rfl⟩
  | succ fuel ih =>
    unfold firstFree
    split
    · next htaken =>
      obtain ⟨hle, htried, hend⟩ := ih (n + 1)
      refine ⟨by omega, ?_, hend.imp id fun heq => by omega⟩
      intro m hm hlt
      by_cases heq : m = n
      · rw [heq]
        exact htaken
      · exact htried m (by omega) hlt
    · next hfree =>
      refine ⟨le_rfl, fun m hm hlt => absurd hlt (Nat.not_lt.2 hm), .inl ?_⟩
      simpa using hfree

/-- Not all of more numbers than there are names are taken. -/
theorem exists_free (names : Std.HashSet Text) (n : Nat) :
    ∃ m, n ≤ m ∧ m ≤ n + names.size ∧ names.contains (numbered m) = false := by
  by_contra hall
  push Not at hall
  have hsubset : (List.range' n (names.size + 1)).map numbered ⊆ names.toList := by
    intro name hname
    obtain ⟨m, hm, rfl⟩ := List.mem_map.1 hname
    rw [List.mem_range'_1] at hm
    have htaken := hall m hm.1 (by omega)
    rw [Std.HashSet.mem_toList, Std.HashSet.mem_iff_contains]
    simpa using htaken
  have hnodup : ((List.range' n (names.size + 1)).map numbered).Nodup := by
    have hrange : (List.range' n (names.size + 1)).Nodup := List.nodup_range'
    refine hrange.map ?_
    intro a b hab
    exact ofNumber_injective (congrArg Label.mk hab)
  have hle := (hnodup.subperm hsubset).length_le
  rw [List.length_map, List.length_range', Std.HashSet.length_toList] at hle
  omega

/-- With one more candidate than there are names, the search ends at the first free number. -/
theorem firstFree_size (names : Std.HashSet Text) (n : Nat) :
    names.contains (numbered (firstFree names names.size n)) = false := by
  obtain ⟨hle, htried, hfree | hend⟩ := firstFree_spec names names.size n
  · exact hfree
  · obtain ⟨m, hm, hmle, hfree⟩ := exists_free names n
    by_cases hlast : m = firstFree names names.size n
    · rwa [← hlast]
    · have htaken := htried m hm (by omega)
      rw [hfree] at htaken
      cases htaken

/-! ## Histories -/

/-- A call on a registry. -/
inductive Call where
  | issue
  | resolve (name : Text)
  | atOffset (offset : Int)
  | define (label : Label)
  | reference (label : Label) (place : Text)
  | close

/-- What a call gives. -/
inductive Answer where
  | label (label : Label)
  | done
  | failed (error : Error)

/-- Calls with the answers to them, the first call first. -/
abbrev History := List (Call × Answer)

namespace Registry

/-- The answer to a call, and the registry after it. -/
def answer (r : Registry) : Call → Answer × Registry
  | .issue => (.label r.issue.1, r.issue.2)
  | .resolve name => (.label (r.resolve name).1, (r.resolve name).2)
  | .atOffset offset => (.label (r.atOffset offset).1, (r.atOffset offset).2)
  | .define label =>
    match r.define label with
    | .ok r' => (.done, r')
    | .error e => (.failed e, r)
  | .reference label place => (.done, r.reference label place)
  | .close =>
    match r.close with
    | .ok () => (.done, r)
    | .error e => (.failed e, r)

/-- The history of calls on a new registry, and the registry after them. -/
def run (place : Text) (calls : List Call) : History × Registry :=
  calls.foldl (fun s call => (s.1 ++ [(call, (s.2.answer call).1)], (s.2.answer call).2))
    ([], { place })

end Registry

/-- Of the pairs with one key, the first. -/
def firsts {α β : Type} [DecidableEq α] : List (α × β) → List (α × β)
  | [] => []
  | p :: rest => p :: (firsts rest).filter fun q => q.1 ≠ p.1

section Firsts

variable {α β : Type} [DecidableEq α]

theorem mem_keys_firsts {pairs : List (α × β)} {a : α} :
    a ∈ (firsts pairs).map Prod.fst ↔ a ∈ pairs.map Prod.fst := by
  induction pairs with
  | nil => rfl
  | cons p rest ih =>
    have hfilter : a ∈ ((firsts rest).filter fun q => q.1 ≠ p.1).map Prod.fst ↔
        a ≠ p.1 ∧ a ∈ rest.map Prod.fst := by
      rw [← ih]
      simp only [List.mem_map, List.mem_filter, decide_eq_true_eq]
      constructor
      · rintro ⟨q, ⟨hq, hne⟩, rfl⟩
        exact ⟨hne, q, hq, rfl⟩
      · rintro ⟨hne, q, hq, rfl⟩
        exact ⟨q, ⟨hq, hne⟩, rfl⟩
    rw [firsts, List.map_cons, List.mem_cons, hfilter, List.map_cons, List.mem_cons]
    by_cases heq : a = p.1 <;> simp [heq]

/-- A pair is added behind if its key is new. -/
theorem firsts_append_singleton (pairs : List (α × β)) (p : α × β) :
    firsts (pairs ++ [p]) =
      if p.1 ∈ pairs.map Prod.fst then firsts pairs else firsts pairs ++ [p] := by
  induction pairs with
  | nil => rfl
  | cons q rest ih =>
    rw [List.cons_append, firsts, ih]
    by_cases heq : p.1 = q.1
    · by_cases hmem : p.1 ∈ rest.map Prod.fst
      · simp [firsts, heq, heq ▸ hmem]
      · simp [firsts, heq, heq ▸ hmem]
    · by_cases hmem : p.1 ∈ rest.map Prod.fst
      · rw [if_pos hmem, if_pos (by rw [List.map_cons]; exact List.mem_cons_of_mem _ hmem), firsts]
      · rw [if_neg hmem, if_neg (by simpa [heq] using hmem), firsts, List.filter_append,
          List.cons_append]
        simp [heq]

end Firsts

namespace History

/-- The labels that have been handed out. -/
def labels (h : History) : List Label := h.filterMap fun
  | (_, .label l) => some l
  | _ => none

/-- The code offsets that have been asked for, with their labels. -/
def sightings (h : History) : List (Int × Label) := h.filterMap fun
  | (.atOffset offset, .label l) => some (offset, l)
  | _ => none

/-- The offsets that have been asked for, each where it was first seen. -/
def offsets (h : History) : List (Int × Label) := firsts h.sightings

/-- The labels whose definition has been recorded or tried. -/
def definitions (h : History) : List Label := h.filterMap fun
  | (.define l, _) => some l
  | _ => none

/-- The labels that have been referred to with the places, in the order of the first references. -/
def references (h : History) : List (Label × Text) := firsts <| h.filterMap fun
  | (.reference l place, _) => some (l, place)
  | _ => none

/-- The answer that a call has to get behind a history. -/
def IsAnswer (place : Text) (h : History) : Call → Answer → Prop
  | .issue, a => ∃ l, a = .label l ∧ l ∉ h.labels
  | .resolve name, a => ∃ l, a = .label l ∧ l.name = name ∧ ∀ l' ∈ h.labels, l'.name = name → l' = l
  | .atOffset offset, a => ∃ l, a = .label l ∧
      (∀ p ∈ h.sightings, p.1 = offset ↔ p.2 = l) ∧
      (offset ∉ h.sightings.map Prod.fst → l ∉ h.labels)
  | .define l, a => a = if l ∈ h.definitions then .failed (.duplicateLabel l.name place) else .done
  | .reference _ _, a => a = .done
  | .close, a => a = match h.references.find? fun p => p.1 ∉ h.definitions with
    | some (l, at') => .failed (.danglingLabel l.name (if at'.isEmpty then place else at'))
    | none => .done

end History

namespace History

theorem labels_append_label (h : History) (call : Call) (l : Label) :
    labels (h ++ [(call, .label l)]) = h.labels ++ [l] := by
  simp [labels, List.filterMap_append]

theorem labels_append_of_ne (h : History) (call : Call) {a : Answer} (ha : ∀ l, a ≠ .label l) :
    labels (h ++ [(call, a)]) = h.labels := by
  cases a with
  | label l => exact absurd rfl (ha l)
  | _ => simp [labels, List.filterMap_append]

theorem sightings_append_atOffset (h : History) (offset : Int) (l : Label) :
    sightings (h ++ [(.atOffset offset, .label l)]) = h.sightings ++ [(offset, l)] := by
  simp [sightings, List.filterMap_append]

theorem sightings_append_of_ne (h : History) {call : Call} (a : Answer)
    (hcall : ∀ offset, call ≠ .atOffset offset) : sightings (h ++ [(call, a)]) = h.sightings := by
  cases call with
  | atOffset offset => exact absurd rfl (hcall offset)
  | _ => simp [sightings, List.filterMap_append]

/-- One more pair is kept for an offset that is new. -/
theorem offsets_append_atOffset (h : History) (offset : Int) (l : Label) :
    offsets (h ++ [(.atOffset offset, .label l)]) =
      if offset ∈ h.sightings.map Prod.fst then h.offsets else h.offsets ++ [(offset, l)] := by
  unfold offsets
  rw [sightings_append_atOffset]
  exact firsts_append_singleton _ _

theorem offsets_append_of_ne (h : History) {call : Call} (a : Answer)
    (hcall : ∀ offset, call ≠ .atOffset offset) : offsets (h ++ [(call, a)]) = h.offsets := by
  unfold offsets
  rw [sightings_append_of_ne h a hcall]

theorem definitions_append_define (h : History) (l : Label) (a : Answer) :
    definitions (h ++ [(.define l, a)]) = h.definitions ++ [l] := by
  simp [definitions, List.filterMap_append]

theorem definitions_append_of_ne (h : History) {call : Call} (a : Answer)
    (hcall : ∀ l, call ≠ .define l) : definitions (h ++ [(call, a)]) = h.definitions := by
  cases call with
  | define l => exact absurd rfl (hcall l)
  | _ => simp [definitions, List.filterMap_append]

/-- One more pair is kept for a label that has not been referred to. -/
theorem references_append_reference (h : History) (l : Label) (place : Text) (a : Answer) :
    references (h ++ [(.reference l place, a)]) =
      if l ∈ h.references.map Prod.fst then h.references else h.references ++ [(l, place)] := by
  unfold references
  rw [List.filterMap_append]
  simp only [mem_keys_firsts]
  exact firsts_append_singleton _ _

theorem references_append_of_ne (h : History) {call : Call} (a : Answer)
    (hcall : ∀ l place, call ≠ .reference l place) :
    references (h ++ [(call, a)]) = h.references := by
  unfold references
  rw [List.filterMap_append]
  cases call with
  | reference l place => exact absurd rfl (hcall l place)
  | _ => simp

end History

/-! ## What the maps say -/

namespace Registry

/-- A registry whose maps say which labels have been handed out, which offsets have been seen with
which labels, which labels have been defined, and which have been referred to with which places. -/
structure Tracks (place : Text) (labels : List Label) (offsets : List (Int × Label))
    (definitions : List Label) (references : List (Label × Text)) (r : Registry) : Prop where
  place : r.place = place
  names : ∀ name, r.names.contains name = true ↔ ⟨name⟩ ∈ labels
  known : ∀ offset l, r.offsets[offset]? = some l ↔ (offset, l) ∈ offsets
  seen : r.seen.toList = offsets
  issued : ∀ p ∈ offsets, p.2 ∈ labels
  /-- Offsets have labels of their own. -/
  apart : ∀ p ∈ offsets, ∀ q ∈ offsets, p.1 = q.1 ↔ p.2 = q.2
  defined : ∀ l, r.defined.contains l = true ↔ l ∈ definitions
  referenced : ∀ l, r.referenced.contains l = true ↔ l ∈ references.map Prod.fst
  references : r.references.toList = references

namespace Tracks

variable {place : Text} {labels definitions : List Label} {offsets : List (Int × Label)}
  {references : List (Label × Text)} {r : Registry}

theorem new (place : Text) : Tracks place [] [] [] [] { place } := by
  constructor <;> simp

section

variable (h : Tracks place labels offsets definitions references r)
include h

/-- A fresh label is none of those that have been handed out. -/
theorem issue_notMem : r.issue.1 ∉ labels := by
  intro hmem
  have htaken := (h.names _).2 hmem
  rw [firstFree_size] at htaken
  cases htaken

/-- A label is handed out, whatever becomes of the counter. -/
theorem insert (name : Text) (n : Nat) :
    Tracks place (labels ++ [⟨name⟩]) offsets definitions references
      { r with counter := n, names := r.names.insert name } where
  place := h.place
  names name' := by
    rw [Std.HashSet.contains_insert, Bool.or_eq_true, beq_iff_eq, h.names, List.mem_append,
      List.mem_singleton, Label.mk.injEq, or_comm, eq_comm]
  known := h.known
  seen := h.seen
  issued p hp := List.mem_append_left _ (h.issued p hp)
  apart := h.apart
  defined := h.defined
  referenced := h.referenced
  references := h.references

/-- Nothing changes when a label is handed out again. -/
theorem labels_again {l : Label} (hl : l ∈ labels) :
    Tracks place (labels ++ [l]) offsets definitions references r where
  place := h.place
  names name := by
    rw [h.names, List.mem_append, List.mem_singleton]
    exact ⟨.inl, fun hmem => hmem.elim id fun heq => heq ▸ hl⟩
  known := h.known
  seen := h.seen
  issued p hp := List.mem_append_left _ (h.issued p hp)
  apart := h.apart
  defined := h.defined
  referenced := h.referenced
  references := h.references

theorem atOffset_of_mem {offset : Int} {l : Label} (hmem : (offset, l) ∈ offsets) :
    r.atOffset offset = (l, r) := by
  unfold Registry.atOffset
  rw [(h.known offset l).2 hmem]

/-- The label of an offset that has not been seen is fresh. -/
theorem atOffset_of_notMem {offset : Int} (hnew : offset ∉ offsets.map Prod.fst) :
    (r.atOffset offset).1 = r.issue.1 ∧
      Tracks place (labels ++ [r.issue.1]) (offsets ++ [(offset, r.issue.1)]) definitions references
        (r.atOffset offset).2 := by
  have hunknown : r.offsets[offset]? = none := by
    cases hfound : r.offsets[offset]? with
    | none => rfl
    | some l => exact absurd (List.mem_map_of_mem ((h.known offset l).1 hfound)) hnew
  have hfresh := h.issue_notMem
  have hissue := h.insert r.issue.1.name r.issue.2.counter
  have hne : ∀ p ∈ offsets, p.1 ≠ offset ∧ p.2 ≠ r.issue.1 := by
    intro p hp
    constructor
    · rintro rfl
      exact hnew (List.mem_map_of_mem hp)
    · intro heq
      exact hfresh (heq ▸ h.issued p hp)
  unfold Registry.atOffset
  rw [hunknown]
  refine ⟨rfl, hissue.place, hissue.names, ?_, ?_, ?_, ?_, hissue.defined, hissue.referenced,
    hissue.references⟩
  · intro other l
    rw [List.mem_append, List.mem_singleton, Prod.mk.injEq, ← hissue.known other l]
    show (r.offsets.insert offset r.issue.1)[other]? = some l ↔ _
    rw [Std.HashMap.getElem?_insert]
    by_cases heq : offset = other
    · subst heq
      simp [hunknown, eq_comm]
    · simp [heq, Ne.symm heq]
  · show (r.seen.push (offset, r.issue.1)).toList = _
    rw [Array.toList_push, h.seen]
  · intro p hp
    rcases List.mem_append.1 hp with hp | hp
    · exact hissue.issued p hp
    · rw [List.mem_singleton.1 hp]
      exact List.mem_append_right _ (List.mem_singleton_self _)
  · intro p hp q hq
    rcases List.mem_append.1 hp with hp | hp <;> rcases List.mem_append.1 hq with hq | hq
    · exact h.apart p hp q hq
    · rw [List.mem_singleton.1 hq]
      exact iff_of_false (hne p hp).1 (hne p hp).2
    · rw [List.mem_singleton.1 hp]
      exact iff_of_false (hne q hq).1.symm (hne q hq).2.symm
    · rw [List.mem_singleton.1 hp, List.mem_singleton.1 hq]
      exact iff_of_true rfl rfl

/-- A definition goes through if the label has not been defined. -/
theorem define (l : Label) :
    (l ∈ definitions ∧ r.define l = .error (.duplicateLabel l.name place)) ∨
      (l ∉ definitions ∧ ∃ r', r.define l = .ok r' ∧
        Tracks place labels offsets (definitions ++ [l]) references r') := by
  unfold Registry.define
  split
  · next hdefined => exact .inl ⟨(h.defined l).1 hdefined, by rw [h.place]⟩
  · next hnew =>
    refine .inr ⟨fun hmem => hnew ((h.defined l).2 hmem), _, rfl, h.place, h.names, h.known, h.seen,
      h.issued, h.apart, ?_, h.referenced, h.references⟩
    intro l'
    rw [Std.HashSet.contains_insert, Bool.or_eq_true, beq_iff_eq, h.defined, List.mem_append,
      List.mem_singleton, or_comm, eq_comm]

/-- Nothing is lost when a definition is tried again. -/
theorem define_again {l : Label} (hl : l ∈ definitions) :
    Tracks place labels offsets (definitions ++ [l]) references r where
  place := h.place
  names := h.names
  known := h.known
  seen := h.seen
  issued := h.issued
  apart := h.apart
  defined l' := by
    rw [h.defined, List.mem_append, List.mem_singleton]
    exact ⟨.inl, fun hmem => hmem.elim id fun heq => heq ▸ hl⟩
  referenced := h.referenced
  references := h.references

/-- The first reference to a label is kept. -/
theorem reference (l : Label) (place' : Text) :
    Tracks place labels offsets definitions
      (if l ∈ references.map Prod.fst then references else references ++ [(l, place')])
      (r.reference l place') := by
  unfold Registry.reference
  by_cases hmem : l ∈ references.map Prod.fst
  · rw [if_pos hmem, if_pos ((h.referenced l).2 hmem)]
    exact h
  · rw [if_neg hmem, if_neg fun hknown => hmem ((h.referenced l).1 hknown)]
    refine ⟨h.place, h.names, h.known, h.seen, h.issued, h.apart, h.defined, ?_, ?_⟩
    · intro l'
      rw [Std.HashSet.contains_insert, Bool.or_eq_true, beq_iff_eq, h.referenced, List.map_append,
        List.mem_append, List.map_singleton, List.mem_singleton, or_comm, eq_comm]
    · rw [Array.toList_push, h.references]

/-- A registry closes unless a label has been referred to and not defined. -/
theorem close : r.close = match references.find? fun p => p.1 ∉ definitions with
    | some (l, place') =>
      .error (.danglingLabel l.name (if place'.isEmpty then place else place'))
    | none => .ok () := by
  have hundefined : (fun p : Label × Text => !r.defined.contains p.1) =
      fun p => decide (p.1 ∉ definitions) := by
    funext p
    rw [Bool.eq_iff_iff, Bool.not_eq_true', decide_eq_true_eq, ← h.defined, Bool.not_eq_true]
  unfold Registry.close
  rw [Array.find?_toList.symm, h.references, h.place]
  show (match references.find? fun p : Label × Text => !r.defined.contains p.1 with
    | some (l, place') => _
    | none => _) = _
  rw [hundefined]

end

end Tracks

/-! ## Any calls in any order -/

/-- The maps of a registry say what its history says, and an offset has always got the same label.
-/
structure Follows (place : Text) (h : History) (r : Registry) : Prop where
  tracks : Tracks place h.labels h.offsets h.definitions h.references r
  sightings : ∀ p ∈ h.sightings, p ∈ h.offsets

namespace Follows

variable {place : Text} {h : History} {r : Registry}

/-- A call that looks at no offset leaves the pairs as they are. -/
theorem of_tracks {labels definitions : List Label} {references : List (Label × Text)}
    {r' : Registry} {call : Call} {a : Answer} (hr : r.Follows place h)
    (htracks : Tracks place labels h.offsets definitions references r')
    (hcall : ∀ offset, call ≠ .atOffset offset)
    (hlabels : History.labels (h ++ [(call, a)]) = labels)
    (hdefinitions : History.definitions (h ++ [(call, a)]) = definitions)
    (hreferences : History.references (h ++ [(call, a)]) = references) :
    r'.Follows place (h ++ [(call, a)]) := by
  constructor
  · rw [hlabels, h.offsets_append_of_ne a hcall, hdefinitions, hreferences]
    exact htracks
  · rw [h.sightings_append_of_ne a hcall, h.offsets_append_of_ne a hcall]
    exact hr.sightings

/-- An offset gets the label that it has got before, or a fresh one, and that is the answer that the
history asks for. A fresh label is the first that has not been handed out, so no other offset has
it. -/
theorem atOffset (hr : r.Follows place h) (offset : Int) :
    h.IsAnswer place (.atOffset offset) (.label (r.atOffset offset).1) ∧
      (r.atOffset offset).2.Follows place
        (h ++ [(.atOffset offset, .label (r.atOffset offset).1)]) := by
  obtain ⟨htracks, hsightings⟩ := hr
  by_cases hseen : offset ∈ h.sightings.map Prod.fst
  · obtain ⟨⟨offset, l⟩, hmem, rfl⟩ := List.mem_map.1 (mem_keys_firsts.2 hseen)
    rw [htracks.atOffset_of_mem hmem]
    refine ⟨⟨l, rfl, fun p hp => htracks.apart p (hsightings p hp) _ hmem,
      fun hnew => absurd hseen hnew⟩, ?_, ?_⟩
    · rw [h.labels_append_label, h.offsets_append_atOffset, if_pos hseen,
        h.definitions_append_of_ne _ (by simp), h.references_append_of_ne _ (by simp)]
      exact htracks.labels_again (htracks.issued _ hmem)
    · rw [h.sightings_append_atOffset, h.offsets_append_atOffset, if_pos hseen]
      intro p hp
      rcases List.mem_append.1 hp with hp | hp
      · exact hsightings p hp
      · rwa [List.mem_singleton.1 hp]
  · have hnew : offset ∉ h.offsets.map Prod.fst := fun hmem => hseen (mem_keys_firsts.1 hmem)
    obtain ⟨hanswer, hafter⟩ := htracks.atOffset_of_notMem hnew
    rw [hanswer]
    refine ⟨⟨_, rfl, fun p hp => ?_, fun _ => htracks.issue_notMem⟩, ?_, ?_⟩
    · refine iff_of_false ?_ ?_
      · rintro rfl
        exact hseen (List.mem_map_of_mem hp)
      · intro heq
        exact htracks.issue_notMem (heq ▸ htracks.issued p (hsightings p hp))
    · rw [h.labels_append_label, h.offsets_append_atOffset, if_neg hseen,
        h.definitions_append_of_ne _ (by simp), h.references_append_of_ne _ (by simp)]
      exact hafter
    · rw [h.sightings_append_atOffset, h.offsets_append_atOffset, if_neg hseen]
      intro p hp
      exact List.mem_append.2 ((List.mem_append.1 hp).imp_left (hsightings p))

/-- A call gets the right answer, and the maps stay right. -/
theorem answer (hr : r.Follows place h) {call : Call} {a : Answer} {r' : Registry}
    (hanswer : r.answer call = (a, r')) :
    h.IsAnswer place call a ∧ r'.Follows place (h ++ [(call, a)]) := by
  have htracks := hr.tracks
  cases call with
  | issue =>
    cases hanswer
    refine ⟨⟨_, rfl, htracks.issue_notMem⟩, hr.of_tracks (htracks.insert _ _) (by simp)
      (h.labels_append_label _ _) (h.definitions_append_of_ne _ (by simp))
      (h.references_append_of_ne _ (by simp))⟩
  | resolve name =>
    cases hanswer
    refine ⟨⟨_, rfl, rfl, fun l' _ hname => congrArg Label.mk hname⟩,
      hr.of_tracks (htracks.insert name r.counter) (by simp)
      (h.labels_append_label _ _) (h.definitions_append_of_ne _ (by simp))
      (h.references_append_of_ne _ (by simp))⟩
  | atOffset offset =>
    cases hanswer
    exact hr.atOffset offset
  | define l =>
    rcases htracks.define l with ⟨hdefined, herror⟩ | ⟨hnew, r', hok, hafter⟩
    · simp only [Registry.answer, herror, Prod.mk.injEq] at hanswer
      obtain ⟨rfl, rfl⟩ := hanswer
      exact ⟨(if_pos hdefined).symm, hr.of_tracks (htracks.define_again hdefined) (by simp)
        (h.labels_append_of_ne _ (by simp)) (h.definitions_append_define l _)
        (h.references_append_of_ne _ (by simp))⟩
    · simp only [Registry.answer, hok, Prod.mk.injEq] at hanswer
      obtain ⟨rfl, rfl⟩ := hanswer
      exact ⟨(if_neg hnew).symm, hr.of_tracks hafter (by simp)
        (h.labels_append_of_ne _ (by simp)) (h.definitions_append_define l _)
        (h.references_append_of_ne _ (by simp))⟩
  | reference l place' =>
    cases hanswer
    exact ⟨rfl, hr.of_tracks (htracks.reference l place') (by simp)
      (h.labels_append_of_ne _ (by simp)) (h.definitions_append_of_ne _ (by simp))
      (h.references_append_reference l place' _)⟩
  | close =>
    -- closing changes nothing and makes no label; it tells the first reference without a definition
    have hclose : r' = r ∧ h.IsAnswer place .close a ∧ ∀ l, a ≠ .label l := by
      unfold History.IsAnswer
      simp only [Registry.answer, htracks.close] at hanswer
      cases hfind : h.references.find? fun p => p.1 ∉ h.definitions with
      | none =>
        simp only [hfind, Prod.mk.injEq] at hanswer
        obtain ⟨rfl, rfl⟩ := hanswer
        exact ⟨rfl, rfl, by simp⟩
      | some p =>
        simp only [hfind, Prod.mk.injEq] at hanswer
        obtain ⟨rfl, rfl⟩ := hanswer
        exact ⟨rfl, rfl, by simp⟩
    obtain ⟨rfl, hright, hne⟩ := hclose
    exact ⟨hright, hr.of_tracks htracks (by simp) (h.labels_append_of_ne _ hne)
      (h.definitions_append_of_ne _ (by simp)) (h.references_append_of_ne _ (by simp))⟩

end Follows

theorem follows_run (place : Text) (calls : List Call) :
    (run place calls).2.Follows place (run place calls).1 := by
  induction calls using List.reverseRecOn with
  | nil => exact ⟨.new place, nofun⟩
  | append_singleton calls call ih =>
    unfold run at ih ⊢
    rw [List.foldl_concat]
    exact (ih.answer rfl).2

theorem answer_of_failed {r : Registry} {call : Call} {e : Error}
    (h : (r.answer call).1 = .failed e) : (r.answer call).2 = r := by
  cases call with
  | define l =>
    cases hdefine : r.define l with
    | ok r' => simp [answer, hdefine] at h
    | error e => simp only [answer, hdefine]
  | close =>
    cases hclose : r.close with
    | ok u => simp [answer, hclose] at h
    | error e => simp only [answer, hclose]
  | _ => cases h

/-- Behind any calls, the search for a fresh name ends at the first number whose label has not been
handed out, every call gets the answer that its history asks for, the offsets stand in the order in
which they were first seen, and a call that fails changes nothing. -/
theorem isAnswer_of_run (place : Text) (calls : List Call) (call : Call) :
    let h := (run place calls).1
    let r := (run place calls).2
    (∃ n, r.issue.1 = ofNumber n ∧ r.counter ≤ n ∧ ofNumber n ∉ h.labels ∧
        ∀ m, r.counter ≤ m → m < n → ofNumber m ∈ h.labels) ∧
      h.IsAnswer place call (r.answer call).1 ∧ r.seen.toList = h.offsets ∧
      ∀ e, (r.answer call).1 = .failed e → (r.answer call).2 = r := by
  intro h r
  have hr : r.Follows place h := follows_run place calls
  obtain ⟨hle, htried, -⟩ := firstFree_spec r.names r.names.size r.counter
  exact ⟨⟨_, rfl, hle, hr.tracks.issue_notMem, fun m hm hlt => (hr.tracks.names _).1 (htried m hm hlt)⟩,
    (hr.answer rfl).1, hr.tracks.seen, fun e => answer_of_failed⟩

end Registry

end ClassTree.Label
