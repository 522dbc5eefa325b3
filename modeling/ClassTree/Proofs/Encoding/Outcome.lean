/-
# ClassTree.Proofs.Encoding.Outcome — how writing ends

Writing ends with bytes or with a failure. Of the failures only one sort is meant for whoever gave
the class: that it cannot be verified. For each way of putting encoders together this says what it
takes to end with bytes or with such a failure.
-/
import ClassTree.Proofs.Class.Drawn
import ClassTree.Proofs.Class.Faultless

namespace ClassTree

/-- The failure says that a class cannot be verified. -/
def Error.IsRefusal : Error → Prop
  | .unverified _ _ _ => True
  | _ => False

/-- The failure says that a class cannot be verified, or that a number does not fit its field. -/
def Error.IsOverflow (e : Error) : Prop := e.IsRefusal ∨ e = .undefined .field

namespace Encoder

variable {α β : Type} {I : Pool → Prop} {E : Error → Prop} {Q : α → Prop} {R : β → Prop}

/-- With a pool of one sort, an encoder writes something of another sort and leaves a pool of the
first, or it fails in one of some ways. -/
def Ends (I : Pool → Prop) (E : Error → Prop) (e : Encoder α) (Q : α → Prop) : Prop :=
  ∀ p, I p → (∃ a q, e p = .ok (a, q) ∧ I q ∧ Q a) ∨ ∃ err, e p = .error err ∧ E err

/-- With a pool of some sort, an encoder ends as it should. -/
def Settles (I : Pool → Prop) (e : Encoder α) : Prop := Ends I Error.IsRefusal e fun _ => True

/-! ## Rules -/

namespace Ends

theorem pure {a : α} (h : Q a) : Ends I E (Pure.pure a) Q := fun p hp => .inl ⟨a, p, rfl, hp, h⟩

theorem throw {err : Error} (h : E err) : Ends I E (MonadExcept.throw err : Encoder α) Q :=
  fun _ _ => .inr ⟨err, rfl, h⟩

theorem imp {Q' : α → Prop} {e : Encoder α} (h : Ends I E e Q) (hQ : ∀ a, Q a → Q' a) :
    Ends I E e Q' := by
  intro p hp
  rcases h p hp with ⟨a, q, ha, hq, hQa⟩ | herr
  · exact .inl ⟨a, q, ha, hq, hQ a hQa⟩
  · exact .inr herr

theorem mono {E' : Error → Prop} {e : Encoder α} (h : Ends I E e Q) (hE : ∀ err, E err → E' err) :
    Ends I E' e Q := by
  intro p hp
  rcases h p hp with hok | ⟨err, herr, hfail⟩
  · exact .inl hok
  · exact .inr ⟨err, herr, hE err hfail⟩

theorem overflow {e : Encoder α} (h : Ends I Error.IsRefusal e Q) : Ends I Error.IsOverflow e Q :=
  h.mono fun _ => .inl

theorem bind {x : Encoder α} {f : α → Encoder β} (hx : Ends I E x Q)
    (hf : ∀ a, Q a → Ends I E (f a) R) : Ends I E (x >>= f) R := by
  intro p hp
  rcases hx p hp with ⟨a, q, ha, hq, hQ⟩ | ⟨err, herr, hfail⟩
  · have heq : (x >>= f) p = f a q := by
      show (x p >>= fun r => f r.1 r.2) = _
      rw [ha]
      rfl
    rw [heq]
    exact hf a hQ q hq
  · refine .inr ⟨err, ?_, hfail⟩
    show (x p >>= fun r => f r.1 r.2) = _
    rw [herr]
    rfl

theorem map {x : Encoder α} {f : α → β} (hx : Ends I E x Q) (hf : ∀ a, Q a → R (f a)) :
    Ends I E (x >>= fun a => Pure.pure (f a)) R := hx.bind fun a ha => .pure (hf a ha)

/-- More may be said about what is written, if it holds of whatever is written with such a pool. -/
theorem and {e : Encoder α} {Q' : α → Prop} (h : Ends I E e Q)
    (hQ : ∀ p a q, I p → e p = .ok (a, q) → Q a → Q' a) : Ends I E e fun a => Q a ∧ Q' a := by
  intro p hp
  rcases h p hp with ⟨a, q, ha, hq, hQa⟩ | herr
  · exact .inl ⟨a, q, ha, hq, hQa, hQ p a q hp ha hQa⟩
  · exact .inr herr

theorem ite {c : Prop} [Decidable c] {x y : Encoder α} (hx : c → Ends I E x Q) (hy : ¬ c → Ends I E y Q) :
    Ends I E (if c then x else y) Q := by
  split
  · next h => exact hx h
  · next h => exact hy h

theorem lift_bind {r : Result α} {a : α} {f : α → Encoder β} (hr : r = .ok a) (h : Ends I E (f a) R) :
    Ends I E (liftM r >>= f) R := by
  rw [hr, lift_ok_bind]
  exact h

theorem fit {bytes? : Option Bytes} (h : ∃ bytes, bytes? = some bytes) :
    Ends I E (Encoder.fit bytes?) fun _ => True := by
  obtain ⟨bytes, rfl⟩ := h
  exact pure trivial

/-- A number that may not fit its field, where that is one of the ways to fail. -/
theorem fit_or (h : E (.undefined .field)) (bytes? : Option Bytes) :
    Ends I E (Encoder.fit bytes?) fun _ => True := by
  cases bytes? with
  | none => exact throw h
  | some bytes => exact pure trivial

theorem u1 {n : Int} (h : 0 ≤ n ∧ n < 0x100) : Ends I E (Encoder.u1 n) fun _ => True :=
  fit (Bytes.exists_unsigned? 1 n ⟨h.1, by omega⟩)

theorem u2 {n : Int} (h : 0 ≤ n ∧ n < 0x10000) : Ends I E (Encoder.u2 n) fun _ => True :=
  fit (Bytes.exists_unsigned? 2 n ⟨h.1, by omega⟩)

theorem u4 {n : Int} (h : 0 ≤ n ∧ n < 0x100000000) : Ends I E (Encoder.u4 n) fun _ => True :=
  fit (Bytes.exists_unsigned? 4 n ⟨h.1, by omega⟩)

theorem count {n : Nat} (h : n < 0x10000) : Ends I E (Encoder.u2 n) fun _ => True :=
  u2 ⟨by omega, by omega⟩

theorem index {m : StateM Pool Nat} (h : Ends I E (pooled m) (· < 0x10000)) :
    Ends I E (Encoder.index m) fun _ => True := h.bind fun _ hi => count hi

theorem mapM {each : α → Encoder β} {as : List α} (h : ∀ a ∈ as, Ends I E (each a) R) :
    Ends I E (as.mapM each) fun bs => ∀ b ∈ bs, R b := by
  induction as with
  | nil => exact pure nofun
  | cons a as ih =>
    rw [List.mapM_cons]
    refine (h a (by simp)).bind fun b hb => (ih fun a' ha' => h a' (by simp [ha'])).bind fun bs hbs => ?_
    exact pure (by simpa using ⟨hb, hbs⟩)

theorem all {each : α → Encoder Bytes} {as : List α} (h : ∀ a ∈ as, Ends I E (each a) fun _ => True) :
    Ends I E (Encoder.all each as) fun _ => True := (mapM h).map fun _ _ => trivial

theorem listOf {each : α → Encoder Bytes} {as : List α} (hlength : as.length < 0x10000)
    (h : ∀ a ∈ as, Ends I E (each a) fun _ => True) : Ends I E (Encoder.listOf each as) fun _ => True :=
  (count hlength).bind fun _ _ => (all h).map fun _ _ => trivial

end Ends

/-- What ends in one of two ways from some pool on. -/
theorem Settles.exists_or {e : Encoder α} (h : Settles I e) {p : Pool} (hp : I p) :
    (∃ a q, e p = .ok (a, q)) ∨ ∃ cause place position,
    e p = .error (.unverified cause place position) := by
  rcases h p hp with ⟨a, q, ha, -, -⟩ | ⟨err, herr, hrefusal⟩
  · exact .inl ⟨a, q, ha⟩
  · cases err with
    | unverified cause place position => exact .inr ⟨cause, place, position, herr⟩
    | _ => exact hrefusal.elim

/-- What is asked for is got, as an index of two bytes, with any pool of some sort. -/
def Granted (I : Pool → Prop) (asks : List (Encoder Nat)) : Prop :=
  ∀ e ∈ asks, Ends I Error.IsRefusal e (· < 0x10000)

namespace Granted

variable {asks asks' : List (Encoder Nat)}

theorem subset (h : Granted I asks) (hsub : asks' ⊆ asks) : Granted I asks' :=
  fun e he => h e (hsub he)

theorem left (h : Granted I (asks ++ asks')) : Granted I asks := h.subset (List.subset_append_left _ _)

theorem right (h : Granted I (asks ++ asks')) : Granted I asks' := h.subset (List.subset_append_right _ _)

theorem head {e : Encoder Nat} (h : Granted I (e :: asks)) : Ends I Error.IsRefusal e (· < 0x10000) :=
  h e (by simp)

theorem tail {e : Encoder Nat} (h : Granted I (e :: asks)) : Granted I asks :=
  h.subset (List.subset_cons_self _ _)

theorem of_mem {things : List α} {asksOf : α → List (Encoder Nat)} (h : Granted I (things.flatMap asksOf))
    {a : α} (ha : a ∈ things) : Granted I (asksOf a) :=
  h.subset fun _ he => List.mem_flatMap.2 ⟨a, ha, he⟩

theorem map_mem {things : List α} {ask : α → Encoder Nat} (h : Granted I (things.map ask)) {a : α}
    (ha : a ∈ things) : Ends I Error.IsRefusal (ask a) (· < 0x10000) :=
  h _ (List.mem_map.2 ⟨a, ha, rfl⟩)

theorem text {texts : List Text} (h : Granted I (Encoding.textAsks texts)) {t : Text} (ht : t ∈ texts) :
    Ends I Error.IsRefusal (pooled (Pool.addUtf8 t)) (· < 0x10000) := h.map_mem ht

theorem reference {names : List (Option Text)} (h : Granted I (Encoding.referenceAsks names))
    {name : Option Text} (hname : name ∈ names) :
    Ends I Error.IsRefusal (pooled (Pool.addClass name)) (· < 0x10000) := h.map_mem hname

end Granted

end Encoder

namespace Encoding

open Encoder

variable {I : Pool → Prop}

/-! ## Attributes -/

/-- An attribute that can be written. -/
structure Piece.IsSettled (I : Pool → Prop) (p : Piece) : Prop where
  name : Ends I Error.IsRefusal (pooled (Pool.addUtf8 p.name)) (· < 0x10000)
  content : Settles I p.content
  bounded : p.IsBounded I

theorem Piece.IsSettled.settles {p : Piece} (h : p.IsSettled I) : Settles I p.encode := by
  have hcontent := h.content.and fun q bytes q' hq heq _ => h.bounded q bytes q' hq heq
  refine h.name.bind fun name hname => hcontent.bind fun content hcontent => ?_
  exact (Ends.count hname).bind fun _ _ =>
    (Ends.u4 ⟨by omega, by have := hcontent.2; omega⟩).map fun _ _ => trivial

theorem settles_attributes {pieces : List Piece} (hcount : pieces.length < 0x10000)
    (h : ∀ p ∈ pieces, p.IsSettled I) (order : List Text) : Settles I (attributes pieces order) :=
  (Ends.count hcount).bind fun _ _ =>
    (Ends.all fun p hp => (h p ((ordered_perm order pieces).mem_iff.1 hp)).settles).map
      fun _ _ => trivial

/-- Attributes whose names are got, whose contents are written and whose lengths can be said. -/
theorem isSettled_of_mem {pieces : List Piece} (hnames : Granted I (pieceAsks pieces))
    (hcontents : ∀ p ∈ pieces, Settles I p.content) (hbounded : ∀ p ∈ pieces, p.IsBounded I) :
    ∀ p ∈ pieces, p.IsSettled I :=
  fun p hp => ⟨hnames.text (List.mem_map.2 ⟨p, hp, rfl⟩), hcontents p hp, hbounded p hp⟩

/-- The contents of attributes can be written. -/
def SettledContents (I : Pool → Prop) (pieces : List Piece) : Prop := ∀ p ∈ pieces, Settles I p.content

namespace SettledContents

variable {pieces pieces' : List Piece} {name : Text}

theorem append (h : SettledContents I pieces) (h' : SettledContents I pieces') :
    SettledContents I (pieces ++ pieces') := List.forall_mem_append.2 ⟨h, h'⟩

/-- An attribute that is there for a reason. -/
theorem pieceIf {condition : Bool} {content : Encoder Bytes} (h : condition = true → Settles I content) :
    SettledContents I (Encoding.pieceIf condition name content) := by
  intro p hp
  unfold Encoding.pieceIf at hp
  split at hp
  · next hcondition =>
    obtain rfl := List.mem_singleton.1 hp
    exact h hcondition
  · cases hp

theorem pieceOf? {α : Type} {content : α → Encoder Bytes} {value : Option α}
    (h : ∀ a ∈ value, Settles I (content a)) :
    SettledContents I (Encoding.pieceOf? name content value) := by
  intro p hp
  cases value with
  | none => cases hp
  | some a =>
    obtain rfl := List.mem_singleton.1 hp
    exact h a rfl

theorem raw (as : List Attribute) : SettledContents I (rawPieces as) := by
  intro p hp
  obtain ⟨a, -, rfl⟩ := List.mem_map.1 hp
  exact Ends.pure trivial

theorem signature {signature : Option Text} (h : Granted I (textAsks signature.toList)) :
    SettledContents I (signaturePiece signature) :=
  pieceOf? fun _ ht => (h.text (Option.mem_toList.2 ht)).index

end SettledContents

/-! ## Annotations -/

theorem ends_tagByte {tag : ElementTag} (h : tag ∈ ElementTag.all) {E : Error → Prop} :
    Ends I E (tagByte tag) fun _ => True := by
  cases tag with
  | unknown letters => exact absurd h (by simp [ElementTag.all])
  | _ => exact Ends.pure trivial

mutual

theorem settles_element (v : ElementValue) (hdrawn : v.IsDrawn) (hasks : Granted I (elementAsks v)) :
    Settles I (element v) := by
  cases v with
  | scalar tag v =>
    unfold ElementValue.IsDrawn at hdrawn
    unfold elementAsks at hasks
    unfold element
    exact (ends_tagByte hdrawn.1).bind fun _ _ => hasks.head.bind fun _ hi =>
      (Ends.count hi).map fun _ _ => trivial
  | enum descriptor name =>
    unfold elementAsks at hasks
    unfold element
    exact (hasks.text (by simp)).bind fun _ hd => (hasks.text (by simp)).bind fun _ hn =>
      (Ends.count hd).bind fun _ _ => (Ends.count hn).map fun _ _ => trivial
  | nested descriptor visible values =>
    unfold ElementValue.IsDrawn at hdrawn
    unfold elementAsks at hasks
    unfold element
    exact (hasks.left.text (by simp)).index.bind fun _ _ => (Ends.count hdrawn.2.1).bind fun _ _ =>
      (settles_named values [] hdrawn.2.2 hasks.right).map fun _ _ => trivial
  | array es =>
    unfold ElementValue.IsDrawn at hdrawn
    unfold elementAsks at hasks
    unfold element
    exact (Ends.count hdrawn.1).bind fun _ _ =>
      (settles_elements es [] hdrawn.2 hasks).map fun _ _ => trivial

theorem settles_elements (es : List ElementValue) (acc : List Bytes) (hdrawn : ElementValue.AreDrawn es)
    (hasks : Granted I (elementsAsks es)) : Settles I (elements es acc) := by
  cases es with
  | nil =>
    unfold elements
    exact Ends.pure trivial
  | cons v rest =>
    unfold ElementValue.AreDrawn at hdrawn
    unfold elementsAsks at hasks
    unfold elements
    exact (settles_element v hdrawn.1 hasks.left).bind fun part _ =>
      settles_elements rest (part :: acc) hdrawn.2 hasks.right

theorem settles_named (values : List (Text × ElementValue)) (acc : List Bytes)
    (hdrawn : ElementValue.AreDrawnNamed values) (hasks : Granted I (namedAsks values)) :
    Settles I (named values acc) := by
  match values with
  | [] =>
    unfold named
    exact Ends.pure trivial
  | (name, v) :: rest =>
    unfold ElementValue.AreDrawnNamed at hdrawn
    unfold namedAsks at hasks
    unfold named
    exact (hasks.left.left.text (by simp)).index.bind fun _ _ =>
      (settles_element v hdrawn.2.1 hasks.left.right).bind fun part _ =>
        settles_named rest (_ :: acc) hdrawn.2.2 hasks.right

end

theorem settles_annotationUse {a : AnnotationUse} (hdrawn : a.IsDrawn)
    (hasks : Granted I (annotationAsks a)) : Settles I (annotationUse a) :=
  (hasks.left.text (by simp)).index.bind fun _ _ => (Ends.count hdrawn.length).bind fun _ _ =>
    (settles_named a.values [] hdrawn.values hasks.right).map fun _ _ => trivial

theorem settles_ofVisibility {as : List AnnotationUse} (hdrawn : ∀ a ∈ as, a.IsDrawn)
    (hfaultless : AnnotationUse.AreFaultless as) (hasks : Granted I (as.flatMap annotationAsks))
    (visible : Bool) : Settles I (annotationUses (ofVisibility visible as)) := by
  refine Ends.listOf (hfaultless.length visible) fun a ha => ?_
  have ha := (List.mem_filter.1 ha).1
  exact settles_annotationUse (hdrawn a ha) (hasks.of_mem ha)

theorem SettledContents.annotations {as : List AnnotationUse} (hdrawn : ∀ a ∈ as, a.IsDrawn)
    (hfaultless : AnnotationUse.AreFaultless as) (hasks : Granted I (as.flatMap annotationAsks)) :
    SettledContents I (annotationPieces as) := by
  intro p hp
  obtain ⟨visible, -, hp⟩ := List.mem_flatMap.1 hp
  exact SettledContents.pieceIf (fun _ => settles_ofVisibility hdrawn hfaultless hasks visible) p hp

end Encoding

end ClassTree
