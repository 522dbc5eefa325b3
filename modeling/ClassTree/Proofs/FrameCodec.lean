/-
# ClassTree.Proofs.FrameCodec — frames in order are written and come back

Frames of the shapes of their kinds are written if their offsets increase, and refused if they do
not. What has been written is read as the same frames at the same offsets, whatever follows; only a
short kind whose distance does not fit into its tag has become its extended kind. The induction is
on the frames, with the least offset that the next one may have: it is one more than the offset of
the last one, and zero before the first, so a distance is never negative exactly as long as the
offsets increase.
-/
import Mathlib
import ClassTree.Proofs.Pool.Sound
import ClassTree.Proofs.StackMap

namespace ClassTree

open Decoding Encoding Encoder
open ModifiedUtf8 (stored)

/-! ## Classes in a pool -/

namespace Pool

/-- The pool with the classes of some names. -/
def withClasses (p : Pool) (names : List Text) : Pool :=
  names.foldl (fun p name => (addClass (some name) p).2) p

variable {p : Pool}

/-- The tables of the empty pool agree with its lists. -/
theorem wellFormed_empty : empty.WellFormed := (IsStart.isSound (.inl rfl)).wellFormed

theorem allowed_of_mem_empty (e : Entry) (he : some e ∈ empty.entries) : e.Allowed .all := by
  simp [empty] at he

@[simp] theorem withClasses_nil (p : Pool) : p.withClasses [] = p := rfl

theorem withClasses_append (p : Pool) (names names' : List Text) :
    p.withClasses (names ++ names') = (p.withClasses names).withClasses names' := List.foldl_append

theorem grows_withClasses (p : Pool) (names : List Text) : Grows .all p (p.withClasses names) := by
  induction names generalizing p with
  | nil => exact .refl
  | cons name names ih =>
    have hclass : Grows .all p (addClass (some name) p).2 :=
      Growing.grows (e := pooled (addClass (some name))) rfl
    exact hclass.trans (ih _)

theorem size_le_withClasses (p : Pool) (names : List Text) : p.size ≤ (p.withClasses names).size := by
  have hle := (p.grows_withClasses names).begins.entries.length_le
  rwa [Array.length_toList, Array.length_toList] at hle

theorem size_insert_le (p : Pool) (e : Entry) :
    (p.insert e).2.size ≤ p.size + if e.isWide then 2 else 1 := by
  unfold insert size
  split
  · exact Nat.le_add_right _ _
  · dsimp only
    split <;> simp

/-- A class takes no more than two slots. -/
theorem size_withClasses_le (p : Pool) (names : List Text) :
    (p.withClasses names).size ≤ p.size + 2 * names.length := by
  induction names generalizing p with
  | nil => exact Nat.le_refl _
  | cons name names ih =>
    have hname : (p.insert (.utf8 name)).2.size ≤ p.size + 1 := p.size_insert_le (.utf8 name)
    have hclass : (addClass (some name) p).2.size ≤ (p.insert (.utf8 name)).2.size + 1 :=
      size_insert_le _ (.type _)
    have hrest := ih (addClass (some name) p).2
    rw [List.length_cons]
    exact hrest.trans (by omega)

/-- An entry that is not there gets an index behind all others. -/
theorem WellFormed.size_le_insert (hp : p.WellFormed) {e : Entry}
    (h : ∀ e', some e' ∈ p.entries → e'.key ≠ e.key) : p.size ≤ (p.insert e).1 := by
  unfold Pool.insert
  split
  · next i hi =>
    rw [hp.index] at hi
    obtain ⟨e', hat, hkey⟩ := getElem?_of_firstIndex? hi
    rw [Array.getElem?_toList] at hat
    exact absurd hkey (h e' (Array.mem_of_getElem? hat))
  · exact Nat.le_refl _

/-- An entry that is added has an index in the pool. -/
theorem WellFormed.insert_lt (hp : p.WellFormed) (e : Entry) : (p.insert e).1 < (p.insert e).2.size := by
  have hfound := index_insert_self p e
  rw [(hp.insert e).index] at hfound
  obtain ⟨e', hat, -⟩ := getElem?_of_firstIndex? hfound
  rw [Array.getElem?_toList] at hat
  exact (Array.getElem?_eq_some_iff.1 hat).1

/-- A class that is added has an index in the pool. -/
theorem WellFormed.addClass_lt (hp : p.WellFormed) (name : Text) :
    (addClass (some name) p).1 < (addClass (some name) p).2.size :=
  (hp.insert (.utf8 name)).insert_lt _

end Pool

/-! ## Writing classes and nothing else -/

namespace Encoder

variable {α β : Type} {names names' : List Text}

theorem bind_of_ok {x : Encoder α} {f : α → Encoder β} {p q : Pool} {a : α} (h : x p = .ok (a, q)) :
    (x >>= f) p = f a q := by
  show (x p >>= fun r => f r.1 r.2) = _
  rw [h]
  rfl

theorem bind_of_error {x : Encoder α} {f : α → Encoder β} {p : Pool} {e : Error}
    (h : x p = .error e) : (x >>= f) p = .error e := by
  show (x p >>= fun r => f r.1 r.2) = _
  rw [h]
  rfl

theorem exists_u2 {n : Nat} (h : n < 0x10000) (p : Pool) : ∃ bytes, u2 n p = .ok (bytes, p) := by
  obtain ⟨bytes, hbytes⟩ := Bytes.exists_unsigned? 2 (n : Int) ⟨by omega, by omega⟩
  exact ⟨bytes, fit_eq_ok_iff.2 ⟨hbytes, rfl⟩⟩

theorem u2_of_ge {n : Nat} (h : 0x10000 ≤ n) (p : Pool) : u2 n p = .error (.undefined .field) := by
  have hnone : Bytes.unsigned? 2 (n : Int) = none := if_neg (by omega)
  unfold u2
  rw [hnone]
  rfl

/-- An encoder writes something and adds some classes to the pool, if two bytes are enough for all
indices of the pool then. -/
def AddsClasses (names : List Text) (e : Encoder α) : Prop :=
  ∀ p : Pool, p.WellFormed → (p.withClasses names).size ≤ 0x10000 →
    ∃ a, e p = .ok (a, p.withClasses names)

namespace AddsClasses

theorem pure (a : α) : AddsClasses [] (Pure.pure a) := fun _ _ _ => ⟨a, rfl⟩

theorem bind {x : Encoder α} {f : α → Encoder β} (hx : AddsClasses names x)
    (hf : ∀ a, AddsClasses names' (f a)) : AddsClasses (names ++ names') (x >>= f) := by
  intro p hp hsize
  rw [Pool.withClasses_append] at hsize ⊢
  obtain ⟨a, ha⟩ := hx p hp ((Pool.size_le_withClasses _ _).trans hsize)
  obtain ⟨b, hb⟩ := hf a _ ((p.grows_withClasses names).wellFormed hp) hsize
  exact ⟨b, bind_eq_ok_iff.2 ⟨a, _, ha, hb⟩⟩

theorem map {x : Encoder α} (hx : AddsClasses names x) (f : α → β) :
    AddsClasses names (x >>= fun a => Pure.pure (f a)) := by
  have h := hx.bind fun a => .pure (f a)
  rwa [List.append_nil] at h

theorem fit {bytes? : Option Bytes} (h : ∃ bytes, bytes? = some bytes) :
    AddsClasses [] (Encoder.fit bytes?) := by
  obtain ⟨bytes, rfl⟩ := h
  exact pure bytes

theorem u1 {n : Int} (h : 0 ≤ n ∧ n < 0x100) : AddsClasses [] (Encoder.u1 n) :=
  fit (Bytes.exists_unsigned? 1 n ⟨h.1, by omega⟩)

theorem u2 {n : Nat} (h : n < 0x10000) : AddsClasses [] (Encoder.u2 n) := fun p _ _ => exists_u2 h p

theorem index (name : Text) : AddsClasses [name] (Encoder.index (Pool.addClass (some name))) := by
  intro p hp hsize
  obtain ⟨bytes, hbytes⟩ := u2 ((hp.addClass_lt name).trans_le hsize) _
    ((p.grows_withClasses [name]).wellFormed hp) hsize
  exact ⟨bytes, bind_eq_ok_iff.2 ⟨_, _, rfl, hbytes⟩⟩

theorem mapM {each : α → Encoder β} {namesOf : α → List Text} {as : List α}
    (h : ∀ a ∈ as, AddsClasses (namesOf a) (each a)) :
    AddsClasses (as.flatMap namesOf) (as.mapM each) := by
  induction as with
  | nil => exact pure []
  | cons a as ih =>
    rw [List.mapM_cons]
    exact (h a (by simp)).bind fun b => (ih fun a' ha' => h a' (by simp [ha'])).map fun bs => b :: bs

theorem all {each : α → Encoder Bytes} {namesOf : α → List Text} {as : List α}
    (h : ∀ a ∈ as, AddsClasses (namesOf a) (each a)) :
    AddsClasses (as.flatMap namesOf) (Encoder.all each as) := (mapM h).map _

theorem listOf {each : α → Encoder Bytes} {namesOf : α → List Text} {as : List α}
    (hlength : as.length < 0x10000) (h : ∀ a ∈ as, AddsClasses (namesOf a) (each a)) :
    AddsClasses (as.flatMap namesOf) (Encoder.listOf each as) :=
  (u2 hlength).bind fun count => (all h).map fun bytes => count ++ bytes

end AddsClasses

end Encoder

/-! ## Types -/

namespace VerificationType

/-- A type that can be written: an object has a name, and an uninitialized type a place at an offset
that two bytes hold. -/
def IsPlaced (l : Layout) : VerificationType → Prop
  | .object name => ∃ n, name = some n
  | .uninitialized site => ∃ offset < 0x10000, siteOffset l (.site site) = .ok offset
  | .irregular _ _ => False
  | _ => True

/-- The names of the class of a type. -/
def classNames : VerificationType → List Text
  | .object (some name) => [name]
  | _ => []

/-- The type that is read for a type: a name is the one that is stored, a place is an offset. -/
def placed (l : Layout) : VerificationType → VerificationType
  | .object name => .object (name.map stored)
  | .uninitialized site =>
    match siteOffset l (.site site) with
    | .ok offset => .uninitialized (.position offset)
    | .error _ => .uninitialized site
  | v => v

variable {l : Layout} {v : VerificationType}

/-- A type that can be written has one of the tags. -/
theorem IsPlaced.hasTag (h : v.IsPlaced l) : v.HasTag := by
  cases v with
  | irregular => exact h.elim
  | _ => simp [HasTag, tag]

/-- A type that can be written is read. -/
theorem IsPlaced.readAs?_eq (h : v.IsPlaced l) : v.readAs? stored l = some (v.placed l) := by
  cases v with
  | irregular => exact h.elim
  | object name =>
    obtain ⟨n, rfl⟩ := h
    rfl
  | uninitialized site =>
    obtain ⟨offset, -, hoffset⟩ := h
    dsimp only [placed]
    rw [hoffset]
    cases site with
    | position p =>
      cases hoffset
      rfl
    | label label =>
      have hfound : l.resolve label = .ok offset := hoffset
      unfold Layout.resolve at hfound
      show (l.labels[label]?).map _ = _
      split at hfound
      · next heq =>
        cases hfound
        rw [heq]
        rfl
      · cases hfound
  | _ => rfl

end VerificationType

namespace Encoding

open VerificationType (IsPlaced)

variable {l : Layout} {place : Text}

/-- A type adds the class that it names. -/
theorem addsClasses_verificationType {v : VerificationType} (h : v.IsPlaced l) :
    AddsClasses v.classNames (verificationType l v) := by
  cases v with
  | irregular => exact h.elim
  | object name =>
    obtain ⟨n, rfl⟩ := h
    have htag : AddsClasses [] (u1 7) := .u1 (by decide)
    exact htag.bind fun tag => (AddsClasses.index n).map fun bytes => tag ++ bytes
  | uninitialized site =>
    obtain ⟨offset, hlt, hoffset⟩ := h
    have htag : AddsClasses [] (u1 8) := .u1 (by decide)
    refine htag.bind fun tag => ?_
    cases site with
    | position p =>
      cases hoffset
      exact (AddsClasses.u2 hlt).map fun bytes => tag ++ bytes
    | label label =>
      show AddsClasses [] (liftM (l.resolve label) >>= fun offset => u2 offset >>= fun bytes =>
        pure (tag ++ bytes))
      rw [show l.resolve label = .ok offset from hoffset, lift_ok_bind]
      exact (AddsClasses.u2 hlt).map fun bytes => tag ++ bytes
  | _ => exact (AddsClasses.u1 ⟨by decide, by decide⟩).map id

end Encoding

/-! ## Frames -/

namespace Frame

/-- A frame has what belongs to its kind and nothing else, and two bytes are enough to count it. -/
def HasForm (f : Frame) : Prop :=
  match f.kind with
  | .same | .sameExtended => f.locals = [] ∧ f.stack = [] ∧ f.chop = 0
  | .sameLocals1 | .sameLocals1Extended => f.locals = [] ∧ f.stack.length = 1 ∧ f.chop = 0
  | .chop => f.locals = [] ∧ f.stack = [] ∧ 1 ≤ f.chop ∧ f.chop ≤ 3
  | .append => (1 ≤ f.locals.length ∧ f.locals.length ≤ 3) ∧ f.stack = [] ∧ f.chop = 0
  | .full => f.locals.length < 0x10000 ∧ f.stack.length < 0x10000 ∧ f.chop = 0
  | .unknown _ => False

/-- The types of a frame. -/
def types (f : Frame) : List VerificationType := f.locals ++ f.stack

/-- The names of the classes of a frame. -/
def classNames (f : Frame) : List Text := f.types.flatMap VerificationType.classNames

/-- The frame that is read for a frame at a distance: a short kind is kept for a short distance
only. -/
def placed (l : Layout) (distance : Nat) (f : Frame) : Frame where
  kind :=
    match f.kind with
    | .same => if distance ≤ maxShortDistance then .same else .sameExtended
    | .sameLocals1 => if distance ≤ maxShortDistance then .sameLocals1 else .sameLocals1Extended
    | kind => kind
  locals := f.locals.map (VerificationType.placed l)
  stack := f.stack.map (VerificationType.placed l)
  chop := f.chop

variable {l : Layout} {f f' : Frame}

/-- A frame of the form of its kind has its shape. -/
theorem HasForm.hasShape (h : f.HasForm) : f.HasShape := by
  obtain ⟨kind, locals, stack, chop⟩ := f
  cases kind with
  | chop => exact h.2.2
  | append => exact h.1
  | _ => trivial

end Frame

/-- The types that are read for types that can be written. -/
theorem AreReadAs.eq_map {l : Layout} {vs vs' : List VerificationType} (h : AreReadAs stored l vs vs')
    (hplaced : ∀ v ∈ vs, v.IsPlaced l) : vs' = vs.map (VerificationType.placed l) := by
  induction h with
  | nil => rfl
  | cons hv _ ih =>
    rw [(hplaced _ (by simp)).readAs?_eq] at hv
    rw [List.map_cons, ih fun v hv => hplaced v (by simp [hv]), Option.some.inj hv]

/-- The frame that is read for one of the form of its kind. -/
theorem Frame.IsReadAs.eq_placed {l : Layout} {distance : Nat} {f f' : Frame}
    (h : f.IsReadAs stored l distance f') (hform : f.HasForm) (hplaced : ∀ v ∈ f.types, v.IsPlaced l) :
    f' = f.placed l distance := by
  cases h with
  | same | sameExtended =>
    obtain ⟨rfl, rfl, rfl⟩ := hform
    rfl
  | sameLocals1 _ _ _ hv | sameLocals1Extended _ _ _ hv =>
    obtain ⟨rfl, hlength, rfl⟩ := hform
    obtain rfl := List.length_eq_zero_iff.1 (Nat.succ.inj hlength)
    rw [(hplaced _ (by simp [Frame.types])).readAs?_eq] at hv
    cases hv
    rfl
  | chop =>
    obtain ⟨rfl, rfl, -⟩ := hform
    rfl
  | append _ _ hlocals =>
    obtain ⟨-, rfl, rfl⟩ := hform
    rw [hlocals.eq_map fun v hv => hplaced v (by simp [Frame.types, hv])]
    rfl
  | full _ hlocals hstack =>
    obtain ⟨-, -, rfl⟩ := hform
    rw [hlocals.eq_map fun v hv => hplaced v (by simp [Frame.types, hv]),
      hstack.eq_map fun v hv => hplaced v (by simp [Frame.types, hv])]
    rfl

namespace Encoding

open VerificationType (IsPlaced)

variable {l : Layout} {place : Text}

/-- The head of a frame whose distance stands behind the tag. -/
theorem addsClasses_tagged {distance : Nat} {tag : Int} (htag : 0 ≤ tag ∧ tag < 0x100)
    (hdistance : distance < 0x10000) : AddsClasses [] (tagged distance tag) :=
  (AddsClasses.u1 htag).bind fun head => (AddsClasses.u2 hdistance).map fun bytes => head ++ bytes

/-- A frame adds the classes that it names, one after another, and is otherwise written without the
pool. The kind of the frame decides which types are written at all; one with a form has no others.
-/
theorem addsClasses_frame {position distance : Nat} {f : Frame} (hform : f.HasForm)
    (hplaced : ∀ v ∈ f.types, v.IsPlaced l) (hdistance : distance < 0x10000) :
    AddsClasses f.classNames (frame l place position distance f) := by
  obtain ⟨kind, locals, stack, chop⟩ := f
  have htagged {tag : Int} (htag : 0 ≤ tag ∧ tag < 0x100) : AddsClasses [] (tagged distance tag) :=
    addsClasses_tagged htag hdistance
  have htypes {vs : List VerificationType} (hvs : ∀ {v}, v ∈ vs → v ∈ locals ++ stack) :
      ∀ v ∈ vs, AddsClasses v.classNames (verificationType l v) :=
    fun v hv => addsClasses_verificationType (hplaced v (hvs hv))
  unfold Frame.classNames Frame.types
  cases kind with
  | same =>
    obtain ⟨rfl, rfl, -⟩ := hform
    show AddsClasses [] (if distance ≤ maxShortDistance then u1 distance else tagged distance 251)
    split
    · next hle =>
      unfold maxShortDistance at hle
      exact .u1 ⟨by omega, by omega⟩
    · exact htagged (by decide)
  | sameExtended =>
    obtain ⟨rfl, rfl, -⟩ := hform
    have hhead : AddsClasses [] (tagged distance 251) := htagged (by decide)
    exact hhead
  | sameLocals1 =>
    obtain ⟨rfl, hlength, -⟩ := hform
    obtain ⟨v, rfl⟩ := List.length_eq_one_iff.1 hlength
    have hhead : AddsClasses [] (shortHead distance 64 247) := by
      unfold shortHead
      split
      · next hle =>
        unfold maxShortDistance at hle
        exact .u1 ⟨by omega, by omega⟩
      · exact htagged (by decide)
    rw [frame_sameLocals1, List.nil_append, List.flatMap_singleton]
    exact hhead.bind fun head => (htypes (List.mem_append_right _) v (by simp)).map fun bytes =>
      head ++ bytes
  | sameLocals1Extended =>
    obtain ⟨rfl, hlength, -⟩ := hform
    obtain ⟨v, rfl⟩ := List.length_eq_one_iff.1 hlength
    have hhead : AddsClasses [] (tagged distance 247) := htagged (by decide)
    rw [List.nil_append, List.flatMap_singleton]
    exact hhead.bind fun head => (htypes (List.mem_append_right _) v (by simp)).map fun bytes =>
      head ++ bytes
  | chop =>
    obtain ⟨rfl, rfl, hone, hthree⟩ := hform
    dsimp only at hone hthree
    have hhead : AddsClasses [] (tagged distance (251 - chop)) := htagged ⟨by omega, by omega⟩
    exact hhead
  | append =>
    obtain ⟨⟨-, hthree⟩, rfl, -⟩ := hform
    dsimp only at hthree
    have hhead : AddsClasses [] (tagged distance (251 + locals.length : Nat)) :=
      htagged ⟨by omega, by omega⟩
    rw [List.append_nil]
    exact hhead.bind fun head => (AddsClasses.all
      (htypes (List.mem_append_left _))).map fun bytes => head ++ bytes
  | full =>
    obtain ⟨hlocals, hstack, -⟩ := hform
    have hhead : AddsClasses [] (tagged distance 255) := htagged (by decide)
    rw [List.flatMap_append]
    refine hhead.bind fun head =>
      (AddsClasses.listOf hlocals (htypes (List.mem_append_left _))).bind fun first => ?_
    exact (AddsClasses.listOf hstack (htypes (List.mem_append_right _))).map fun second =>
      head ++ first ++ second
  | unknown name => exact hform.elim

end Encoding

/-! ## Stack maps -/

/-- The classes that frames name. -/
def framesClassNames (frames : List (Nat × Frame)) : List Text := frames.flatMap fun f => f.2.classNames

/-- Frames that a stack map can hold. -/
structure AreFrameable (l : Layout) (frames : List (Nat × Frame)) : Prop where
  form : ∀ f ∈ frames, f.2.HasForm
  placed : ∀ f ∈ frames, ∀ v ∈ f.2.types, v.IsPlaced l
  offset : ∀ f ∈ frames, l.offset f.1 < 0x10000

/-- The offsets of frames increase, and the first of them is no less than `next`. -/
def AscendsFrom (l : Layout) : Nat → List (Nat × Frame) → Prop
  | _, [] => True
  | next, (position, _) :: rest => next ≤ l.offset position ∧ AscendsFrom l (l.offset position + 1) rest

/-- The frames that are read for frames. -/
def placedFrames (l : Layout) : Nat → List (Nat × Frame) → List RawFrame
  | _, [] => []
  | next, (position, f) :: rest =>
    ⟨l.offset position, f.placed l (l.offset position - next)⟩ ::
      placedFrames l (l.offset position + 1) rest

section

variable {l : Layout} {place : Text} {next : Nat} {frames : List (Nat × Frame)}

/-- The first of frames that a stack map can hold, and the others. -/
theorem AreFrameable.tail {f : Nat × Frame} (h : AreFrameable l (f :: frames)) : AreFrameable l frames :=
  ⟨fun f hf => h.form f (by simp [hf]), fun f hf => h.placed f (by simp [hf]),
    fun f hf => h.offset f (by simp [hf])⟩

/-- Frames are in order if their offsets increase. -/
theorem ascendsFrom_iff : AscendsFrom l next frames ↔
    (frames.map fun f => l.offset f.1).Pairwise (· < ·) ∧ ∀ f ∈ frames, next ≤ l.offset f.1 := by
  induction frames generalizing next with
  | nil => simp [AscendsFrom]
  | cons f frames ih =>
    simp only [AscendsFrom, ih, List.map_cons, List.pairwise_cons, List.forall_mem_map,
      List.forall_mem_cons]
    constructor
    · rintro ⟨hnext, hpairwise, hlater⟩
      exact ⟨⟨hlater, hpairwise⟩, hnext, fun f' hf' => by have := hlater f' hf'; omega⟩
    · rintro ⟨⟨hlater, hpairwise⟩, hnext, -⟩
      exact ⟨hnext, hpairwise, hlater⟩

/-- Frames are in order from the start if their offsets increase. -/
theorem ascendsFrom_zero_iff :
    AscendsFrom l 0 frames ↔ (frames.map fun f => l.offset f.1).Pairwise (· < ·) := by
  simp [ascendsFrom_iff]

end

namespace Encoding

variable {l : Layout} {place : Text} {next : Nat} {frames : List (Nat × Frame)}

theorem AreReadBack.eq_placedFrames {raws : List RawFrame} (h : AreReadBack stored l next frames raws)
    (hframes : AreFrameable l frames) : raws = placedFrames l next frames := by
  induction h with
  | nil => rfl
  | cons _ hframe _ ih =>
    rw [ih hframes.tail, hframe.eq_placed (hframes.form _ List.mem_cons_self)
      (hframes.placed _ List.mem_cons_self)]
    rfl

/-- What is written of frames that begin with one at a sufficient offset. -/
theorem framesFrom_cons {position : Nat} {f : Frame} (hnext : next ≤ l.offset position)
    (acc : List Bytes) : framesFrom l place next ((position, f) :: frames) acc =
      frame l place position (l.offset position - next) f >>= fun part =>
        framesFrom l place (l.offset position + 1) frames (part :: acc) := by
  rw [framesFrom]
  dsimp only
  rw [if_neg (by omega)]

theorem addsClasses_framesFrom (hframes : AreFrameable l frames) (h : AscendsFrom l next frames)
    (acc : List Bytes) : AddsClasses (framesClassNames frames) (framesFrom l place next frames acc) := by
  induction frames generalizing next acc with
  | nil => exact .pure _
  | cons f frames ih =>
    obtain ⟨hnext, hrest⟩ := h
    rw [framesFrom_cons hnext]
    have hoffset := hframes.offset _ List.mem_cons_self
    exact (addsClasses_frame (hframes.form _ List.mem_cons_self) (hframes.placed _ List.mem_cons_self)
      (by omega)).bind fun part => ih hframes.tail hrest _

/-- Frames that are not in order are refused, the first that stands too early. -/
theorem framesFrom_of_not_ascendsFrom (hframes : AreFrameable l frames) (h : ¬ AscendsFrom l next frames)
    (acc : List Bytes) {p : Pool} (hp : p.WellFormed)
    (hroom : (p.withClasses (framesClassNames frames)).size ≤ 0x10000) :
    ∃ f ∈ frames, framesFrom l place next frames acc p =
      .error (.unverified (.frameOrder (l.offset f.1)) (some place) (some f.1)) := by
  induction frames generalizing next acc p with
  | nil => exact absurd trivial h
  | cons f frames ih =>
    by_cases hnext : next ≤ l.offset f.1
    · have hrest : ¬ AscendsFrom l (l.offset f.1 + 1) frames := fun hrest => h ⟨hnext, hrest⟩
      have hnames : framesClassNames (f :: frames) = f.2.classNames ++ framesClassNames frames := rfl
      rw [hnames, Pool.withClasses_append] at hroom
      have hoffset := hframes.offset _ List.mem_cons_self
      have hframe : AddsClasses f.2.classNames (frame l place f.1 (l.offset f.1 - next) f.2) :=
        addsClasses_frame (hframes.form _ List.mem_cons_self) (hframes.placed _ List.mem_cons_self)
          (by omega)
      obtain ⟨part, hpart⟩ := hframe p hp ((Pool.size_le_withClasses _ _).trans hroom)
      obtain ⟨f', hf', herror⟩ := ih hframes.tail hrest (part :: acc)
        ((p.grows_withClasses _).wellFormed hp) hroom
      refine ⟨f', List.mem_cons_of_mem _ hf', ?_⟩
      rw [framesFrom_cons hnext, bind_of_ok hpart, herror]
    · refine ⟨f, List.mem_cons_self, ?_⟩
      rw [framesFrom]
      dsimp only
      rw [if_pos (by omega)]
      rfl

theorem addsClasses_stackMap (hcount : frames.length < 0x10000) (hframes : AreFrameable l frames)
    (h : AscendsFrom l 0 frames) : AddsClasses (framesClassNames frames) (stackMap l place frames) :=
  (AddsClasses.u2 hcount).bind fun count => (addsClasses_framesFrom hframes h []).map fun bytes =>
    count ++ bytes

/-- A stack map of frames that are not in order is refused. -/
theorem stackMap_of_not_ascendsFrom (hcount : frames.length < 0x10000) (hframes : AreFrameable l frames)
    (h : ¬ AscendsFrom l 0 frames) {p : Pool} (hp : p.WellFormed)
    (hroom : (p.withClasses (framesClassNames frames)).size ≤ 0x10000) :
    ∃ f ∈ frames, stackMap l place frames p =
      .error (.unverified (.frameOrder (l.offset f.1)) (some place) (some f.1)) := by
  obtain ⟨count, hcount⟩ := exists_u2 hcount p
  obtain ⟨f, hf, herror⟩ := framesFrom_of_not_ascendsFrom hframes h [] hp hroom
  exact ⟨f, hf, (bind_of_ok hcount).trans (bind_of_error herror)⟩

/-- What has been written of frames is read as these frames, beside any pool that has grown from the
one after them and has been written. -/
theorem reads_readStackMap (hframes : AreFrameable l frames) {p q : Pool} (hp : p.WellFormed)
    (hallowed : ∀ e, some e ∈ p.entries → e.Allowed .all) {bytes : Bytes}
    (h : stackMap l place frames p = .ok (bytes, q)) {P : Pool} (hgrows : Pool.Grows .all q P)
    {poolBytes : Bytes} (hpool : P.encode? = some poolBytes) :
    ∃ entries, Reads Table.readPool poolBytes entries ∧ ∀ bootstrap,
      Reads (readStackMap ⟨entries, bootstrap⟩) bytes (placedFrames l 0 frames) := by
  have hp' := (Growing.grows h).trans hgrows
  have hP : ∀ e, some e ∈ P.entries → e.Allowed .all :=
    fun e he => (hp'.mem_entries he).elim (hallowed e) id
  refine ⟨_, Pool.reads_pool (hp'.wellFormed hp) hP hpool, fun bootstrap => ?_⟩
  have ht := backs_of_encode? (hp'.wellFormed hp) hP hpool bootstrap
  have hparses : Parses True (readStackMap _) bytes (AreReadBack stored l 0 frames) :=
    parses_readStackMap ht (fun f hf => (hframes.form f hf).hasShape)
      (fun _ f hf v hv => (hframes.placed f hf v hv).hasTag) (Steady.fixed h hgrows.within)
  exact (hparses.imp fun raws hraws => hraws.eq_placedFrames hframes).reads

/-- Frames are refused exactly if their offsets do not increase; otherwise they are written, and
read back at the same offsets with the same types, each of its own kind unless a short one lies too
far from the one before. -/
theorem readStackMap_stackMap (hcount : frames.length < 0x10000) (hframes : AreFrameable l frames)
    {p : Pool} (hp : p.WellFormed) (hallowed : ∀ e, some e ∈ p.entries → e.Allowed .all)
    (hroom : (p.withClasses (framesClassNames frames)).size ≤ 0x10000) :
    (¬ (frames.map fun f => l.offset f.1).Pairwise (· < ·) → ∃ f ∈ frames,
      stackMap l place frames p =
        .error (.unverified (.frameOrder (l.offset f.1)) (some place) (some f.1))) ∧
    ((frames.map fun f => l.offset f.1).Pairwise (· < ·) → ∃ bytes,
      stackMap l place frames p = .ok (bytes, p.withClasses (framesClassNames frames)) ∧
        ∀ P poolBytes, Pool.Grows .all (p.withClasses (framesClassNames frames)) P →
          P.encode? = some poolBytes → ∃ entries, Reads Table.readPool poolBytes entries ∧
            ∀ bootstrap,
              Reads (readStackMap ⟨entries, bootstrap⟩) bytes (placedFrames l 0 frames)) := by
  rw [← ascendsFrom_zero_iff]
  refine ⟨fun h => stackMap_of_not_ascendsFrom hcount hframes h hp hroom, fun h => ?_⟩
  have hadds : AddsClasses (framesClassNames frames) (stackMap l place frames) :=
    addsClasses_stackMap hcount hframes h
  obtain ⟨bytes, hbytes⟩ := hadds p hp hroom
  exact ⟨bytes, hbytes, fun P poolBytes hgrows hpool =>
    reads_readStackMap hframes hp hallowed hbytes hgrows hpool⟩

/-- A layout with items at given offsets. -/
def plainLayout (offsets : Array Nat) : Layout where
  offsets
  labels := {}
  far := #[]

/-- A frame that brings a local, and one that changes nothing. -/
def spreadFrames : List (Nat × Frame) :=
  [(0, ⟨.append, [.object (some "B")], [], 0⟩), (1, ⟨.same, [], [], 0⟩)]

/-- The frames have the forms of their kinds wherever they stand. -/
theorem areFrameable_spreadFrames {offsets : Array Nat} (h : ∀ offset ∈ offsets, offset < 0x10000) :
    AreFrameable (plainLayout offsets) spreadFrames where
  form := by simp [spreadFrames, Frame.HasForm]
  placed := by simp [spreadFrames, Frame.types, VerificationType.IsPlaced]
  offset f _ := by
    show offsets.getD f.1 0 < 0x10000
    unfold Array.getD
    split
    · exact h _ (Array.getElem_mem _)
    · decide

/-- Frames seventy bytes apart are written and read back, the second one of the extended kind; the
other way round they are refused. -/
theorem readStackMap_stackMap_spreadFrames :
    (∃ bytes poolBytes entries,
      stackMap (plainLayout #[0, 70]) "A.f()V" spreadFrames .empty =
        .ok (bytes, Pool.empty.withClasses ["B"]) ∧
      (Pool.empty.withClasses ["B"]).encode? = some poolBytes ∧ Reads Table.readPool poolBytes entries ∧
      Reads (readStackMap ⟨entries, #[]⟩) bytes
        [⟨0, ⟨.append, [.object (some "B")], [], 0⟩⟩, ⟨70, ⟨.sameExtended, [], [], 0⟩⟩]) ∧
    ∃ f ∈ spreadFrames, stackMap (plainLayout #[70, 0]) "A.f()V" spreadFrames .empty =
      .error (.unverified (.frameOrder ((plainLayout #[70, 0]).offset f.1)) (some "A.f()V")
        (some f.1)) := by
  have hp := Pool.wellFormed_empty
  have hallowed : ∀ e, some e ∈ Pool.empty.entries → e.Allowed .all := Pool.allowed_of_mem_empty
  have hroom : (Pool.empty.withClasses (framesClassNames spreadFrames)).size ≤ 0x10000 :=
    (Pool.size_withClasses_le _ _).trans (by decide)
  have hcount : spreadFrames.length < 0x10000 := by decide
  constructor
  · have hframes : AreFrameable (plainLayout #[0, 70]) spreadFrames := areFrameable_spreadFrames (by simp)
    obtain ⟨bytes, hbytes, hreads⟩ := (readStackMap_stackMap hcount hframes hp hallowed hroom).2
      (by decide)
    obtain ⟨poolBytes, hpool⟩ := Option.isSome_iff_exists.1
      (show ((Pool.empty.withClasses ["B"]).encode?).isSome = true by cbv)
    obtain ⟨entries, hentries, hframes⟩ := hreads _ poolBytes .refl hpool
    exact ⟨bytes, poolBytes, entries, hbytes, hpool, hentries, hframes #[]⟩
  · exact (readStackMap_stackMap hcount (areFrameable_spreadFrames (by simp)) hp hallowed hroom).1
      (by decide)

/-! ## Limits -/

/-- More frames than two bytes count are not written, whatever their offsets. -/
theorem stackMap_of_length_ge (h : 0x10000 ≤ frames.length) (p : Pool) :
    stackMap l place frames p = .error (.undefined .field) := by
  unfold stackMap
  exact bind_of_error (u2_of_ge h p)

/-- A stack map of a single frame fails as the frame does. -/
theorem stackMap_singleton_of_error {f : Frame} {position : Nat} {p : Pool} {e : Error}
    (h : frame l place position (l.offset position) f p = .error e) :
    stackMap l place [(position, f)] p = .error e := by
  obtain ⟨count, hcount⟩ := exists_u2 (show [(position, f)].length < 0x10000 by simp) p
  refine (bind_of_ok hcount).trans (bind_of_error ?_)
  rw [framesFrom_cons (Nat.zero_le _)]
  exact bind_of_error h

/-- A full frame with more locals than two bytes count is not written. -/
theorem stackMap_full_of_length_ge {locals stack : List VerificationType} (h : 0x10000 ≤ locals.length)
    (p : Pool) : stackMap (plainLayout #[0]) place [(0, ⟨.full, locals, stack, 0⟩)] p =
      .error (.undefined .field) := by
  have hhead : tagged 0 255 p = .ok ([255, 0, 0], p) := rfl
  exact stackMap_singleton_of_error ((bind_of_ok hhead).trans
    (bind_of_error (bind_of_error (u2_of_ge h p))))

/-- A frame with an object whose class has no index of two bytes is not written. -/
theorem stackMap_object_of_ge {name : Text} {p : Pool} (h : 0x10000 ≤ (Pool.addClass (some name) p).1) :
    stackMap (plainLayout #[0]) place [(0, ⟨.sameLocals1, [], [.object (some name)], 0⟩)] p =
      .error (.undefined .field) := by
  have hhead : shortHead 0 64 247 p = .ok ([64], p) := rfl
  have htag : u1 7 p = .ok ([7], p) := rfl
  have hclass : pooled (Pool.addClass (some name)) p = .ok (Pool.addClass (some name) p) := rfl
  refine stackMap_singleton_of_error ?_
  rw [frame_sameLocals1]
  exact (bind_of_ok hhead).trans (bind_of_error ((bind_of_ok htag).trans
    (bind_of_error ((bind_of_ok hclass).trans (u2_of_ge h _)))))

/-- The pool of a class file with so many numbers. -/
def numbersPool (count : Nat) : Pool :=
  .seeded (none :: Pool.slots (List.replicate count (.integer 0))) []

/-- The pool is well-formed and has a number in every slot. -/
theorem wellFormed_numbersPool (count : Nat) : (numbersPool count).WellFormed ∧
    (numbersPool count).entries.toList = none :: List.replicate count (some (.integer 0)) := by
  have hslots : Pool.slots (List.replicate count (.integer 0)) =
      List.replicate count (some (.integer 0)) := by
    unfold Pool.slots
    rw [List.flatMap_replicate]
    exact List.flatten_replicate_singleton
  have hread : ∀ e ∈ List.replicate count (Pool.Entry.integer 0), e.IsRead := by
    intro e he
    rw [List.eq_of_mem_replicate he]
    trivial
  obtain ⟨hp, hentries, -⟩ := Pool.wellFormed_seeded (.inr ⟨_, rfl, hread⟩) []
  exact ⟨hp, hentries.trans (congrArg _ hslots)⟩

/-- A class gets an index behind all numbers. -/
theorem lt_addClass_numbersPool (name : Text) (count : Nat) :
    count < (Pool.addClass (some name) (numbersPool count)).1 := by
  obtain ⟨hp, hentries⟩ := wellFormed_numbersPool count
  have hsize : (numbersPool count).size = count + 1 := by
    unfold Pool.size
    rw [← Array.length_toList, hentries, List.length_cons, List.length_replicate]
  have hgrows := (Pool.begins_insert (numbersPool count) (.utf8 name)).entries.length_le
  rw [Array.length_toList, Array.length_toList] at hgrows
  refine (hsize.ge.trans hgrows).trans ((hp.insert (.utf8 name)).size_le_insert fun e he hkey => ?_)
  rcases Pool.mem_of_mem_insert he with he | rfl
  · rw [← Array.mem_toList_iff, hentries] at he
    rcases List.mem_cons.1 he with he | he
    · cases he
    · obtain rfl := Option.some.inj (List.eq_of_mem_replicate he)
      cases hkey
  · cases hkey

/-- What a stack map cannot hold. Too many frames are not refused for their order, though they are
out of order; frames in order are not written if one has too many locals, or if the pool has no room
for a class; and a name of two surrogates is read as one code point. -/
theorem stackMap_beyond :
    (AreFrameable (plainLayout #[0]) (List.replicate 0x10000 (0, ⟨.same, [], [], 0⟩)) ∧
      ¬ ((List.replicate 0x10000 ((0, ⟨.same, [], [], 0⟩) : Nat × Frame)).map
        fun f => (plainLayout #[0]).offset f.1).Pairwise (· < ·) ∧
      stackMap (plainLayout #[0]) "A.f()V" (List.replicate 0x10000 (0, ⟨.same, [], [], 0⟩)) .empty =
        .error (.undefined .field)) ∧
    stackMap (plainLayout #[0]) "A.f()V" [(0, ⟨.full, List.replicate 0x10000 .top, [], 0⟩)] .empty =
      .error (.undefined .field) ∧
    stackMap (plainLayout #[0]) "A.f()V" [(0, ⟨.sameLocals1, [], [.object (some "B")], 0⟩)]
      (numbersPool 0xFFFF) = .error (.undefined .field) ∧
    ∃ bytes entries,
      stackMap (plainLayout #[0]) "A.f()V"
        [(0, ⟨.sameLocals1, [], [.object (some [0xD800, 0xDC00])], 0⟩)] .empty =
          .ok (bytes, Pool.empty.withClasses [[0xD800, 0xDC00]]) ∧
      Reads (readStackMap ⟨entries, #[]⟩) bytes
        [⟨0, ⟨.sameLocals1, [], [.object (some [0x10000])], 0⟩⟩] := by
  refine ⟨⟨⟨?_, ?_, ?_⟩, ?_, stackMap_of_length_ge List.length_replicate.ge _⟩,
    stackMap_full_of_length_ge List.length_replicate.ge _,
    stackMap_object_of_ge (lt_addClass_numbersPool _ _), ?_⟩
  · intro f hf
    rw [List.eq_of_mem_replicate hf]
    exact ⟨rfl, rfl, rfl⟩
  · intro f hf
    rw [List.eq_of_mem_replicate hf]
    nofun
  · intro f hf
    rw [List.eq_of_mem_replicate hf]
    decide
  · rw [List.map_replicate, List.pairwise_replicate]
    omega
  · have hframes : AreFrameable (plainLayout #[0])
        [(0, ⟨.sameLocals1, [], [.object (some [0xD800, 0xDC00])], 0⟩)] :=
      ⟨by simp [Frame.HasForm], by simp [Frame.types, VerificationType.IsPlaced], by decide⟩
    have hadds : AddsClasses [[0xD800, 0xDC00]] (stackMap (plainLayout #[0]) "A.f()V" _) :=
      addsClasses_stackMap (by decide) hframes ⟨Nat.zero_le _, trivial⟩
    obtain ⟨bytes, hbytes⟩ := hadds .empty Pool.wellFormed_empty
      ((Pool.size_withClasses_le _ _).trans (by decide))
    obtain ⟨poolBytes, hpool⟩ := Option.isSome_iff_exists.1
      (show ((Pool.empty.withClasses [[0xD800, 0xDC00]]).encode?).isSome = true by cbv)
    obtain ⟨entries, -, hreads⟩ := reads_readStackMap hframes Pool.wellFormed_empty
      Pool.allowed_of_mem_empty hbytes .refl hpool
    exact ⟨bytes, entries, hbytes, hreads #[]⟩

end Encoding

end ClassTree
