/-
# ClassTree.Proofs.Decoding.Inside — readers keep to their file

A reader goes on with what the file has from its position on: it moves forward over bytes, or it
looks elsewhere in the file and comes back. So whatever has been read stands in the file at a
position.
-/
import ClassTree.Decoding.ClassFile
import ClassTree.Proofs.Decoder

namespace ClassTree.Decoding

open Decoder

variable {α β σ : Type}

/-- A place in a file: what follows is what the file has from the position on. -/
def Cursor.IsIn (file : Bytes) (c : Cursor) : Prop := c.rest = file.drop c.position

theorem Cursor.IsIn.skip {file : Bytes} {c : Cursor} (h : c.IsIn file) (count : Nat) :
    (c.skip count).IsIn file := by
  unfold Cursor.IsIn Cursor.skip at *
  rw [h, List.drop_drop]

theorem Cursor.isIn_drop (file : Bytes) (position : Nat) :
    Cursor.IsIn file ⟨position, file.drop position⟩ :=
  rfl

theorem Cursor.IsIn.eq {file : Bytes} {c : Cursor} (h : c.IsIn file) :
    c = ⟨c.position, file.drop c.position⟩ := by
  obtain ⟨position, rest⟩ := c
  obtain rfl : rest = file.drop position := h
  rfl

/-- From a place in its file a decoder comes to another one. -/
class Stays (d : Decoder α) : Prop where
  isIn : ∀ {file : Bytes} {c c' : Cursor} {a : α}, c.IsIn file → d c = .ok (a, c') → c'.IsIn file

/-! ## Decoders -/

instance stays_pure (a : α) : Stays (pure a : Decoder α) := ⟨by rintro file c c' b h ⟨⟩; exact h⟩

instance stays_bind (d : Decoder α) (k : α → Decoder β) [hd : Stays d] [hk : ∀ a, Stays (k a)] :
    Stays (d >>= k) where
  isIn := by
    intro file c c' b hc h
    obtain ⟨a, middle, ha, hb⟩ := bind_eq_ok_iff.1 h
    exact (hk a).isIn (hd.isIn hc ha) hb

instance stays_ite (c : Prop) [Decidable c] (d e : Decoder α) [hd : Stays d] [he : Stays e] :
    Stays (if c then d else e) := by
  split
  · exact hd
  · exact he

instance stays_throw (e : Error) : Stays (throw e : Decoder α) := ⟨nofun⟩

instance stays_refuse (cause : Malformed) (offset : Nat) : Stays (refuse cause offset : Decoder α) :=
  stays_throw _

instance stays_get : Stays (get : Decoder Cursor) := ⟨by rintro file c c' b h ⟨⟩; exact h⟩

instance stays_position : Stays position := by
  unfold position
  infer_instance

instance stays_refuseHere (cause : Malformed) : Stays (refuseHere cause : Decoder α) := by
  unfold refuseHere
  infer_instance

instance stays_need (count : Nat) : Stays (need count) := by
  unfold need
  infer_instance

instance stays_skip (count : Nat) : Stays (skip count) :=
  ⟨by rintro file c c' b h ⟨⟩; exact h.skip count⟩

instance stays_bytes (count : Nat) : Stays (bytes count) where
  isIn := by
    intro file c c' data hc h
    unfold bytes at h
    obtain ⟨_, c₁, hneed, h⟩ := bind_eq_ok_iff.1 h
    have hc₁ := Stays.isIn hc hneed
    cases h
    exact hc₁.skip count

instance stays_unsigned (width : Nat) : Stays (unsigned width) := by
  unfold unsigned
  infer_instance

instance stays_signed (width : Nat) : Stays (signed width) := by
  unfold signed
  infer_instance

instance stays_byte : Stays byte := by
  unfold byte
  infer_instance

instance stays_u1 : Stays u1 := stays_unsigned 1

instance stays_u2 : Stays u2 := stays_unsigned 2

instance stays_u4 : Stays u4 := stays_unsigned 4

instance stays_times (count : Nat) (d : Decoder α) [hd : Stays d] : Stays (times count d) := by
  have honto (acc : List α) : Stays (timesOnto count d acc) := by
    induction count generalizing acc with
    | zero => exact stays_pure _
    | succ count ih =>
      unfold timesOnto
      infer_instance
  exact honto []

instance stays_listOf (d : Decoder α) [Stays d] : Stays (listOf d) := by
  unfold listOf
  infer_instance

/-- Whatever is read elsewhere, it goes on here. -/
instance stays_elsewhere (c : Cursor) (d : Decoder α) : Stays (elsewhere c d) where
  isIn := by
    intro file here c' a hc h
    unfold elsewhere at h
    obtain ⟨_, _, ⟨⟩, h⟩ := bind_eq_ok_iff.1 h
    obtain ⟨_, _, ⟨⟩, h⟩ := bind_eq_ok_iff.1 h
    obtain ⟨a', c₁, -, h⟩ := bind_eq_ok_iff.1 h
    cases h
    exact hc

instance stays_forM (l : List α) (f : α → Decoder PUnit) [hf : ∀ a, Stays (f a)] :
    Stays (l.forM f) := by
  induction l with
  | nil => exact stays_pure _
  | cons a l ih =>
    show Stays (f a >>= fun _ => l.forM f)
    infer_instance

instance stays_mapM (l : List α) (f : α → Decoder β) [hf : ∀ a, Stays (f a)] :
    Stays (l.mapM f) := by
  induction l with
  | nil =>
    rw [List.mapM_nil]
    infer_instance
  | cons a l ih =>
    rw [List.mapM_cons]
    infer_instance

/-! ## The pool -/

namespace Table

variable (t : Table)

instance stays_readEntry : Stays readEntry := by
  have (tag : Pool.Tag) (start : Nat) : Stays (readBody tag start) := by
    unfold readBody
    split <;> try infer_instance
    refine @stays_bind _ _ _ _ _ fun size => @stays_bind _ _ _ _ _ fun data => ?_
    split <;> infer_instance
  unfold readEntry
  refine @stays_bind _ _ _ _ _ fun start => @stays_bind _ _ _ _ _ fun code => ?_
  split <;> infer_instance

instance stays_readPool : Stays readPool := by
  have hentries (entries : Array (Option Pool.Entry)) (n : Nat) : Stays (readEntries entries n) := by
    induction entries, n using readEntries.induct with
    | case1 entries => exact stays_pure entries
    | case2 entries =>
      unfold readEntries
      infer_instance
    | case3 entries n hwide hnarrow =>
      unfold readEntries
      infer_instance
  unfold readPool
  refine @stays_bind _ _ _ _ _ fun count => ?_
  split <;> infer_instance

instance stays_entry (i : Nat) : Stays (t.entry i) := by
  unfold entry
  split <;> infer_instance

instance stays_wrongTag (expected : List Pool.Tag) (i : Nat) (e : Pool.Entry) :
    Stays (wrongTag expected i e : Decoder α) := stays_refuseHere _

instance stays_utf8 (i : Nat) : Stays (t.utf8 i) := by
  unfold utf8
  refine @stays_bind _ _ _ _ _ fun e => ?_
  split <;> infer_instance

instance stays_utf8? (i : Nat) : Stays (t.utf8? i) := by
  unfold utf8?
  infer_instance

instance stays_className (i : Nat) : Stays (t.className i) := by
  have (e : Pool.Entry) : Stays (match e with
      | .type n => do return some (← t.utf8 n)
      | e => wrongTag [.type] i e : Decoder (Option Text)) := by
    split <;> infer_instance
  unfold className
  infer_instance

instance stays_nameAndType (i : Nat) : Stays (t.nameAndType i) := by
  unfold nameAndType
  refine @stays_bind _ _ _ _ _ fun e => ?_
  split <;> infer_instance

instance stays_member (i : Nat) : Stays (t.member i) := by
  have (interface : Bool) (owner member : Nat) : Stays (t.memberOf interface owner member) := by
    unfold memberOf
    infer_instance
  unfold member
  refine @stays_bind _ _ _ _ _ fun e => ?_
  split <;> infer_instance

instance stays_handle (i : Nat) : Stays (t.handle i) := by
  unfold handle
  refine @stays_bind _ _ _ _ _ fun e => ?_
  split <;> infer_instance

instance stays_constant (i : Nat) : Stays (t.constant i) := by
  unfold constant
  refine @stays_bind _ _ _ _ _ fun e => ?_
  split <;> infer_instance

end Table

variable (t : Table)

instance stays_readTable : Stays readTable := by
  unfold readTable
  infer_instance

/-! ## Attributes -/

instance stays_attribute (read : Text → Nat → σ → Decoder σ)
    [∀ name length state, Stays (read name length state)] (state : σ) :
    Stays (attribute_ t read state) := by
  unfold attribute_
  infer_instance

instance stays_attributes (read : Text → Nat → σ → Decoder σ)
    [∀ name length state, Stays (read name length state)] (state : σ) :
    Stays (attributes t read state) := by
  have hcount (count : Nat) (state : σ) : Stays (attributeCount t read count state) := by
    induction count generalizing state with
    | zero => exact stays_pure _
    | succ count ih =>
      unfold attributeCount
      infer_instance
  unfold attributes
  infer_instance

instance stays_readNamed (value : Decoder ElementValue) [Stays value] : Stays (readNamed t value) := by
  unfold readNamed
  infer_instance

instance stays_readElementWith (visible : Bool) (fuel : Nat) :
    Stays (readElementWith t visible fuel) := by
  induction fuel with
  | zero => exact stays_refuseHere _
  | succ fuel ih =>
    unfold readElementWith
    refine @stays_bind _ _ _ _ _ fun start => @stays_bind _ _ _ _ _ fun code => ?_
    split <;> infer_instance

instance stays_readElement (visible : Bool) : Stays (readElement t visible) := by
  unfold readElement nesting
  infer_instance

instance stays_readAnnotationUses (visible : Bool) : Stays (readAnnotationUses t visible) := by
  unfold readAnnotationUses nesting readAnnotationUse
  infer_instance

instance stays_readField : Stays (readField t) := by
  have (name : Text) (length : Nat) (f : Field) : Stays (readFieldAttribute t name length f) := by
    unfold readFieldAttribute
    infer_instance
  unfold readField
  infer_instance

/-! ## Code -/

instance stays_readHandler : Stays (readHandler t) := by
  unfold readHandler
  infer_instance

instance stays_readCodeAttribute (name : Text) (length : Nat) (tables : CodeTables) :
    Stays (readCodeAttribute t name length tables) := by
  have : Stays readLine := by
    unfold readLine
    infer_instance
  have : Stays (readVariable t) := by
    unfold readVariable
    infer_instance
  have : Stays (readType t) := by
    unfold readType
    refine @stays_bind _ _ _ _ _ fun start => @stays_bind _ _ _ _ _ fun code => ?_
    split <;> infer_instance
  have : Stays (readFrame t) := by
    unfold readFrame
    infer_instance
  have : Stays (readStackMap t) := by
    unfold readStackMap
    infer_instance
  unfold readCodeAttribute
  infer_instance

instance stays_readRawCode : Stays (readRawCode t) := by
  unfold readRawCode
  infer_instance

instance stays_assemble (r : RawCode) (registry : Label.Registry) :
    Stays (r.assemble registry) := by
  have (seen : List (Int × Label)) : Stays (r.check seen) := by
    unfold RawCode.check
    infer_instance
  have (w : Weaving) : Stays (r.lineTables w) := by
    unfold RawCode.lineTables
    refine @stays_mapM _ _ _ _ fun table => @stays_mapM _ _ _ _ fun p => ?_
    split <;> infer_instance
  unfold RawCode.assemble
  generalize r.label.run registry = result
  obtain ⟨labelled, registry⟩ := result
  dsimp only
  infer_instance

instance stays_readCode (registry : Label.Registry) : Stays (readCode t registry) := by
  unfold readCode
  infer_instance

/-! ## Methods -/

instance stays_readParameterCount (name : Text) (arity : Nat) :
    Stays (readParameterCount name arity) := by
  unfold readParameterCount
  infer_instance

instance stays_readParametersOnto (read : Parameter → Decoder Parameter) [∀ p, Stays (read p)]
    (ps acc : List Parameter) : Stays (readParametersOnto read ps acc) := by
  induction ps generalizing acc with
  | nil => exact stays_pure _
  | cons p ps ih =>
    unfold readParametersOnto
    infer_instance

instance stays_readMethodAttribute (name : Text) (length : Nat) (m : Method) :
    Stays (readMethodAttribute t name length m) := by
  unfold readMethodAttribute readMethodCode readParameterAnnotations readMethodParameters
  infer_instance

instance stays_readMethod : Stays (readMethod t) := by
  unfold readMethod
  refine @stays_bind _ _ _ _ _ fun access => @stays_bind _ _ _ _ _ fun i =>
    @stays_bind _ _ _ _ _ fun name => @stays_bind _ _ _ _ _ fun j => @stays_bind _ _ _ _ _ fun d => ?_
  split <;> infer_instance

/-! ## Classes -/

instance stays_readVersion : Stays readVersion := by
  unfold readVersion
  infer_instance

instance stays_readClassName : Stays (readClassName t) := by
  unfold readClassName
  refine @stays_bind _ _ _ _ _ fun start => @stays_bind _ _ _ _ _ fun i =>
    @stays_bind _ _ _ _ _ fun name => ?_
  split <;> infer_instance

instance stays_readInnerClass : Stays (readInnerClass t) := by
  unfold readInnerClass
  infer_instance

instance stays_readEnclosingMethod : Stays (readEnclosingMethod t) := by
  unfold readEnclosingMethod
  infer_instance

instance stays_readClassAttribute (name : Text) (length : Nat) (c : Class) :
    Stays (readClassAttribute t name length c) := by
  unfold readClassAttribute
  infer_instance

end ClassTree.Decoding
