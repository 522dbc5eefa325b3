/-
# ClassTree.Proofs.Decoding.Parts — a class file is read by its parts

The attributes of a class file can be found by their names and lengths alone. What is read of a file
is what is read of the parts that are found in this way, each attribute by itself and all of it:
none is longer or shorter than it says.

The table of bootstrap methods is an exception: it is read ahead of time from where its attribute
starts, and nothing compares its end with the length of the attribute.
-/
import ClassTree.Proofs.Decoding.Following

namespace ClassTree

open Decoding Decoder

variable {α β σ : Type}

/-! ## The parts and what is read of them -/

/-- Reads attributes in order, each by itself and to its end. -/
def Attribute.readAll (read : Text → Nat → σ → Decoder σ) (as : List Attribute) (s : σ) : Result σ :=
  as.foldlM (fun s a => Outline.whole (read a.name a.data.length s) a.data) s

/-- The field is what the parts are read as. -/
def MemberOutline.IsReadAsField (t : Table) (o : MemberOutline) (f : Field) : Prop :=
  Attribute.readAll (readFieldAttribute t) o.attributes
    { access := o.access, name := o.name, descriptor := o.descriptor } = .ok f

/-- Code is read by its parts, the attributes of code among them. -/
structure Attribute.HoldsCode (t : Table) (a : Attribute) (r : RawCode) (code : CodeOutline) : Prop where
  whole : Outline.whole (readRawCode t) a.data = .ok r
  parts : Outline.whole (Outline.readCode t) a.data = .ok code
  instructions : Outline.whole (readOperations t code.instructions.length) code.instructions =
    .ok r.instructions
  attributes : Attribute.readAll (readCodeAttribute t) code.attributes {} = .ok r.tables

/-- A method that has no more than its head yet. -/
def MemberOutline.head (o : MemberOutline) (types : List Text) : Method where
  access := o.access
  name := o.name
  descriptor := o.descriptor
  parameters := parametersOf types

/-- The method is what the parts are read as. -/
structure MemberOutline.IsReadAsMethod (t : Table) (o : MemberOutline) (m : Method) : Prop where
  attributes : ∃ types, Descriptor.arguments o.descriptor = .ok types ∧
    Attribute.readAll (readMethodAttribute t) o.attributes (o.head types) = .ok m
  code : ∀ a ∈ o.attributes, a.name = AttributeName.code → ∃ r code, a.HoldsCode t r code

/-- The class is what the parts are read as, the bootstrap methods aside. -/
structure Outline.IsReadAs (o : Outline) (c : Class) (t : Table) : Prop where
  table : t = { o.table with bootstrap := c.layout.bootstrap.toArray }
  fields : List.Forall₂ (MemberOutline.IsReadAsField t) o.fields c.fields
  methods : List.Forall₂ (MemberOutline.IsReadAsMethod t) o.methods c.methods
  attributes : ∃ head : Class, Attribute.readAll (readClassAttribute t) o.attributes head = .ok c

namespace Decoding

variable {t : Table}

/-! ## Attributes -/

theorem whole_eq_ok_iff {d : Decoder α} {data : Bytes} {a : α} :
    Outline.whole d data = .ok a ↔ ∃ c, d ⟨0, data⟩ = .ok (a, c) ∧ c.rest = [] := by
  unfold Outline.whole
  constructor
  · intro h
    obtain ⟨⟨b, c⟩, hb, hrest⟩ := Result.bind_eq_ok_iff.1 h
    dsimp only at hrest
    split at hrest
    · next hend =>
      cases hrest
      exact ⟨c, hb, List.isEmpty_iff.1 hend⟩
    · cases hrest
  · rintro ⟨c, hc, hend⟩
    refine Result.bind_eq_ok_iff.2 ⟨(a, c), hc, ?_⟩
    simp only [hend, List.isEmpty_nil, if_true]
    rfl

/-- What is read from its place is read by itself. -/
theorem whole_take_eq_ok {d : Decoder α} {a : α} {c : Cursor} {length : Nat}
    (hd : Follows (length + 1) d d) (hle : length ≤ c.rest.length) (h : d c = .ok (a, c.skip length)) :
    Outline.whole d (c.rest.take length) = .ok a := by
  have hagrees : c.Agrees ⟨0, c.rest.take length⟩ length :=
    ⟨by simp [hle], by rw [List.take_take, min_self]⟩
  exact whole_eq_ok_iff.2 ⟨_, hd.eq_ok h hagrees, by simp [Cursor.skip]⟩

theorem bytes_eq_ok {count : Nat} {c : Cursor} (h : count ≤ c.rest.length) :
    bytes count c = .ok (c.rest.take count, c.skip count) :=
  bind_eq_ok_iff.2 ⟨(), c, Reads.need h, rfl⟩

/-- Attributes that have been read one after another can be found first, each with its bytes, and read
by themselves afterwards. -/
theorem exists_of_attributeCount {read : Text → Nat → σ → Decoder σ}
    (hread : ∀ limit name length s, Follows limit (read name length s) (read name length s))
    {count : Nat} {s s' : σ} {c c₁ : Cursor}
    (h : attributeCount t read count s c = .ok (s', c₁)) (found : List Attribute) :
    ∃ as, attributeCount t (fun name length as => do return as ++ [⟨name, ← bytes length⟩]) count
      found c = .ok (found ++ as, c₁) ∧ Attribute.readAll read as s = .ok s' := by
  induction count generalizing s c found with
  | zero =>
    cases h
    exact ⟨[], by rw [List.append_nil]; rfl, rfl⟩
  | succ count ih =>
    obtain ⟨s₁, c₂, hfirst, hrest⟩ := bind_eq_ok_iff.1 h
    obtain ⟨i, name, length, hi, hname, hlength, hle, rfl, hs⟩ :=
      (attribute_eq_ok_iff t (hread 0)).1 hfirst
    have hdata : ((c.skip 6).rest.take length).length = length := by
      rw [List.length_take, min_eq_left hle]
    obtain ⟨as, has, hall⟩ := ih hrest (found ++ [⟨name, (c.skip 6).rest.take length⟩])
    refine ⟨⟨name, (c.skip 6).rest.take length⟩ :: as, ?_, ?_⟩
    · rw [List.append_cons]
      refine bind_eq_ok_iff.2 ⟨_, _, (attribute_eq_ok_iff t fun _ _ _ => inferInstance).2 ?_, has⟩
      refine ⟨i, name, length, hi, hname, hlength, hle, rfl, ?_⟩
      exact bind_eq_ok_iff.2 ⟨_, _, bytes_eq_ok hle, rfl⟩
    · unfold Attribute.readAll
      rw [List.foldlM_cons, hdata, whole_take_eq_ok (hread _ name length s) hle hs]
      exact hall

/-- The attributes of an entity have been read by themselves. -/
theorem exists_of_attributes {read : Text → Nat → σ → Decoder σ}
    (hread : ∀ limit name length s, Follows limit (read name length s) (read name length s))
    {s s' : σ} {c c₁ : Cursor}
    (h : attributes t read s c = .ok (s', c₁)) :
    ∃ as, Outline.readAttributes t c = .ok (as, c₁) ∧ Attribute.readAll read as s = .ok s' := by
  obtain ⟨count, c₂, hcount, h⟩ := bind_eq_ok_iff.1 h
  obtain ⟨as, has, hall⟩ := exists_of_attributeCount hread h []
  exact ⟨as, bind_eq_ok_iff.2 ⟨count, c₂, hcount, has⟩, hall⟩

/-! ## Lists -/

/-- Values that are read in a row in two ways. -/
theorem exists_of_listOf {d : Decoder α} {d' : Decoder β} {R : β → α → Prop}
    (hd : ∀ c c₁ a, d c = .ok (a, c₁) → ∃ b, d' c = .ok (b, c₁) ∧ R b a) {as : List α} {c c₁ : Cursor}
    (h : listOf d c = .ok (as, c₁)) : ∃ bs, listOf d' c = .ok (bs, c₁) ∧ List.Forall₂ R bs as := by
  have honto : ∀ (count : Nat) (acc : List α) (acc' : List β) (c c₁ : Cursor) (as : List α),
      timesOnto count d acc c = .ok (as, c₁) → List.Forall₂ R acc' acc →
        ∃ bs, timesOnto count d' acc' c = .ok (bs, c₁) ∧ List.Forall₂ R bs as := by
    intro count
    induction count with
    | zero =>
      rintro acc acc' c c₁ as ⟨⟩ hacc
      exact ⟨acc'.reverse, rfl, List.rel_reverse hacc⟩
    | succ count ih =>
      intro acc acc' c c₁ as h hacc
      obtain ⟨a, c₂, ha, h⟩ := bind_eq_ok_iff.1 h
      obtain ⟨b, hb, hab⟩ := hd c c₂ a ha
      obtain ⟨bs, hbs, hall⟩ := ih (a :: acc) (b :: acc') c₂ c₁ as h (.cons hab hacc)
      exact ⟨bs, bind_eq_ok_iff.2 ⟨b, c₂, hb, hbs⟩, hall⟩
  obtain ⟨count, c₂, hcount, h⟩ := bind_eq_ok_iff.1 h
  obtain ⟨bs, hbs, hall⟩ := honto count [] [] c₂ c₁ as h .nil
  exact ⟨bs, bind_eq_ok_iff.2 ⟨count, c₂, hcount, hbs⟩, hall⟩

/-- Values of one size that are read in a row. -/
theorem skip_of_listOf {d : Decoder α} {size : Nat} (hd : ∀ c c₁ a, d c = .ok (a, c₁) → c₁ = c.skip size)
    {as : List α} {c c₁ : Cursor} (h : listOf d c = .ok (as, c₁)) :
    ∃ count, u2 c = .ok (count, c.skip 2) ∧ c₁ = (c.skip 2).skip (size * count) := by
  have honto : ∀ (count : Nat) (acc : List α) (c : Cursor),
      timesOnto count d acc c = .ok (as, c₁) → c₁ = c.skip (size * count) := by
    intro count
    induction count with
    | zero =>
      rintro acc c ⟨⟩
      rfl
    | succ count ih =>
      intro acc c h
      obtain ⟨a, c₂, ha, h⟩ := bind_eq_ok_iff.1 h
      obtain rfl := hd c c₂ a ha
      rw [ih (a :: acc) _ h, Cursor.skip_skip, Nat.mul_succ, Nat.add_comm]
  obtain ⟨count, c₂, hcount, h⟩ := bind_eq_ok_iff.1 h
  obtain rfl := skip_of_unsigned hcount
  exact ⟨count, hcount, honto count [] _ h⟩

/-! ## Code -/

theorem skip_of_readHandler {handler : RawHandler} {c c₁ : Cursor}
    (h : readHandler t c = .ok (handler, c₁)) : c₁ = c.skip 8 := by
  obtain ⟨start, _, hstart, h⟩ := bind_eq_ok_iff.1 h
  obtain rfl := skip_of_unsigned hstart
  obtain ⟨stop, _, hstop, h⟩ := bind_eq_ok_iff.1 h
  obtain rfl := skip_of_unsigned hstop
  obtain ⟨target, _, htarget, h⟩ := bind_eq_ok_iff.1 h
  obtain rfl := skip_of_unsigned htarget
  obtain ⟨i, _, hi, h⟩ := bind_eq_ok_iff.1 h
  obtain rfl := skip_of_unsigned hi
  obtain ⟨type, _, htype, h⟩ := bind_eq_ok_iff.1 h
  obtain rfl := Table.eq_of_className htype
  cases h
  simp only [Cursor.skip_skip]

/-- Code that has been read by itself has been read by its parts. -/
theorem exists_holdsCode {a : Attribute} {r : RawCode}
    (h : Outline.whole (readRawCode t) a.data = .ok r) : ∃ code, a.HoldsCode t r code := by
  obtain ⟨c₁, hr, hend⟩ := whole_eq_ok_iff.1 h
  obtain ⟨⟨maxStack, maxLocals, hstack, hlocals, -⟩, hlength, -, hle, ⟨c₂, hfound⟩, c₃, hhandlers,
    htables⟩ := (readRawCode_eq_ok_iff t).1 hr
  obtain ⟨count, hcount, rfl⟩ := skip_of_listOf (fun _ _ _ => skip_of_readHandler) hhandlers
  obtain ⟨as, has, hall⟩ := exists_of_attributes (fun _ _ _ _ => inferInstance) htables
  let start := (((⟨0, a.data⟩ : Cursor).skip 2).skip 2).skip 4
  have hoperations : readOperations t r.length start = .ok (r.instructions, start.skip r.length) := by
    rw [hfound, (agrees_of_readOperations t hfound).1]
  have hsize : (start.rest.take r.length).length = r.length := by rw [List.length_take, min_eq_left hle]
  refine ⟨⟨maxStack, maxLocals, start.rest.take r.length, as⟩, h, whole_eq_ok_iff.2 ⟨c₁, ?_, hend⟩,
    ?_, hall⟩
  · refine bind_eq_ok_iff.2 ⟨maxStack, _, hstack, bind_eq_ok_iff.2 ⟨maxLocals, _, hlocals, ?_⟩⟩
    refine bind_eq_ok_iff.2 ⟨r.length, start, hlength, bind_eq_ok_iff.2 ⟨_, _, bytes_eq_ok hle, ?_⟩⟩
    refine bind_eq_ok_iff.2 ⟨count, _, hcount, bind_eq_ok_iff.2 ⟨(), _, rfl, ?_⟩⟩
    exact bind_eq_ok_iff.2 ⟨as, c₁, has, rfl⟩
  · show Outline.whole (readOperations t (start.rest.take r.length).length) (start.rest.take r.length) = _
    rw [hsize]
    exact whole_take_eq_ok (follows_readOperations t r.length) hle hoperations

/-! ## Members -/

/-- A field has been read by its parts. -/
theorem exists_of_readField {f : Field} {c c₁ : Cursor}
    (h : readField t c = .ok (f, c₁)) :
    ∃ o, Outline.readMember t c = .ok (o, c₁) ∧ o.IsReadAsField t f := by
  obtain ⟨access, c₂, haccess, h⟩ := bind_eq_ok_iff.1 h
  obtain ⟨i, c₃, hi, h⟩ := bind_eq_ok_iff.1 h
  obtain ⟨name, c₄, hname, h⟩ := bind_eq_ok_iff.1 h
  obtain ⟨j, c₅, hj, h⟩ := bind_eq_ok_iff.1 h
  obtain ⟨descriptor, c₆, hdescriptor, h⟩ := bind_eq_ok_iff.1 h
  obtain ⟨as, has, hall⟩ := exists_of_attributes (fun _ _ _ _ => inferInstance) h
  refine ⟨⟨access, name, descriptor, as⟩, ?_, hall⟩
  refine bind_eq_ok_iff.2 ⟨access, c₂, haccess, bind_eq_ok_iff.2 ⟨i, c₃, hi, ?_⟩⟩
  refine bind_eq_ok_iff.2 ⟨name, c₄, hname, bind_eq_ok_iff.2 ⟨j, c₅, hj, ?_⟩⟩
  refine bind_eq_ok_iff.2 ⟨descriptor, c₆, hdescriptor, ?_⟩
  exact bind_eq_ok_iff.2 ⟨as, c₁, has, rfl⟩

theorem exists_whole_of_readAll {read : Text → Nat → σ → Decoder σ} {as : List Attribute} {s s' : σ}
    (h : Attribute.readAll read as s = .ok s') {a : Attribute} (ha : a ∈ as) :
    ∃ s₁ s₂, Outline.whole (read a.name a.data.length s₁) a.data = .ok s₂ := by
  induction as generalizing s with
  | nil => cases ha
  | cons b as ih =>
    obtain ⟨s₁, hb, hrest⟩ := Result.bind_eq_ok_iff.1 h
    rcases List.mem_cons.1 ha with rfl | ha
    · exact ⟨s, s₁, hb⟩
    · exact ih hrest ha

/-- The code of a method has been read by itself. -/
theorem exists_of_readMethodCode {m m' : Method} {data : Bytes}
    (h : Outline.whole (readMethodCode t m) data = .ok m') : ∃ r code c,
      Outline.whole (readRawCode t) data = .ok r ∧
        r.assemble { place := m.name ++ m.descriptor } c = .ok (code, c) ∧
          m' = { m with
            maxima := some code.maxima, body := code.body, handlers := code.handlers,
            localVariables := code.localVariables, codeAttributes := code.attributes,
            layout := { m.layout with codeOrder := code.order, lineTables := code.lineTables } } := by
  obtain ⟨c, hread, hend⟩ := whole_eq_ok_iff.1 h
  obtain ⟨code, c₁, hcode, hm⟩ := bind_eq_ok_iff.1 hread
  cases hm
  obtain ⟨r, c₂, hr, hassemble⟩ := bind_eq_ok_iff.1 hcode
  obtain rfl := eq_of_assemble hassemble
  exact ⟨r, code, _, whole_eq_ok_iff.2 ⟨_, hr, hend⟩, hassemble, rfl⟩

/-! ## Methods -/

/-- A method has been read by its parts: its outline is what stands in the file, and each of its
attributes has been read by itself and to its end. The attributes are those that reading met, in
their order. -/
theorem exists_of_readMethod {m : Method} {c c₁ : Cursor} (h : readMethod t c = .ok (m, c₁)) :
    ∃ o, Outline.readMember t c = .ok (o, c₁) ∧ o.IsReadAsMethod t m := by
  obtain ⟨access, c₂, haccess, h⟩ := bind_eq_ok_iff.1 h
  obtain ⟨i, c₃, hi, h⟩ := bind_eq_ok_iff.1 h
  obtain ⟨name, c₄, hname, h⟩ := bind_eq_ok_iff.1 h
  obtain ⟨j, c₅, hj, h⟩ := bind_eq_ok_iff.1 h
  obtain ⟨descriptor, c₆, hdescriptor, h⟩ := bind_eq_ok_iff.1 h
  cases htypes : Descriptor.arguments descriptor with
  | ok types =>
    rw [htypes] at h
    obtain ⟨as, has, hall⟩ := exists_of_attributes (fun _ _ _ _ => inferInstance) h
    refine ⟨⟨access, name, descriptor, as⟩, ?_, ⟨types, htypes, hall⟩, fun a ha hcode => ?_⟩
    · refine bind_eq_ok_iff.2 ⟨access, c₂, haccess, bind_eq_ok_iff.2 ⟨i, c₃, hi, ?_⟩⟩
      refine bind_eq_ok_iff.2 ⟨name, c₄, hname, bind_eq_ok_iff.2 ⟨j, c₅, hj, ?_⟩⟩
      refine bind_eq_ok_iff.2 ⟨descriptor, c₆, hdescriptor, ?_⟩
      exact bind_eq_ok_iff.2 ⟨as, c₁, has, rfl⟩
    · obtain ⟨m₁, m₂, hm⟩ := exists_whole_of_readAll hall ha
      unfold readMethodAttribute at hm
      rw [hcode] at hm
      simp only [if_true] at hm
      obtain ⟨r, -, -, hr, -⟩ := exists_of_readMethodCode hm
      obtain ⟨code, hholds⟩ := exists_holdsCode hr
      exact ⟨r, code, hholds⟩
  | error e =>
    rw [htypes] at h
    cases e with
    | undefined cause => cases cause <;> cases h
    | _ => cases h

/-! ## Class files -/

/-- Attributes are found by their names, which the pool gives without the bootstrap methods. -/
theorem readAttributes_eq (entries : Array (Option Pool.Entry)) (bootstrap : Array Bootstrap) :
    Outline.readAttributes ⟨entries, bootstrap⟩ = Outline.readAttributes ⟨entries, #[]⟩ := by
  have hcount (count : Nat) (found : List Attribute) :
      attributeCount ⟨entries, bootstrap⟩ (fun name length as => do return as ++ [⟨name, ← bytes length⟩])
        count found = attributeCount ⟨entries, #[]⟩
          (fun name length as => do return as ++ [⟨name, ← bytes length⟩]) count found := by
    induction count generalizing found with
    | zero => rfl
    | succ count ih =>
      unfold attributeCount
      simp only [ih]
      rfl
  unfold Outline.readAttributes attributes
  simp only [hcount]

theorem readMember_eq (entries : Array (Option Pool.Entry)) (bootstrap : Array Bootstrap) :
    Outline.readMember ⟨entries, bootstrap⟩ = Outline.readMember ⟨entries, #[]⟩ := by
  unfold Outline.readMember
  rw [readAttributes_eq]
  rfl

/-- The name of a class takes two bytes. -/
theorem skip_of_readClassName {name : Text} {c c₁ : Cursor} (h : readClassName t c = .ok (name, c₁)) :
    c₁ = c.skip 2 := by
  obtain ⟨start, _, hstart, hread⟩ := bind_eq_ok_iff.1 h
  cases hstart
  obtain ⟨i, c₂, hi, hlookup⟩ := bind_eq_ok_iff.1 hread
  obtain rfl := skip_of_unsigned hi
  obtain ⟨found, c₃, hfound, hname⟩ := bind_eq_ok_iff.1 hlookup
  obtain rfl := Table.eq_of_className hfound
  rcases found with _ | ⟨_ | ⟨_, _⟩⟩ <;> cases hname
  rfl

theorem skip_of_readInterface {name : Option Text} {c c₁ : Cursor}
    (h : (do t.className (← u2)) c = .ok (name, c₁)) : c₁ = c.skip 2 := by
  obtain ⟨i, _, hi, hname⟩ := bind_eq_ok_iff.1 h
  obtain rfl := skip_of_unsigned hi
  exact Table.eq_of_className hname

/-- A class file has been read by its parts. The outline of the file is found without looking into
any attribute; the pool, the members and the attributes of the class are then each read from their
own bytes. -/
theorem exists_of_readClassFile {c : Class} {bytes : Bytes} {k : Cursor}
    (h : readClassFile ⟨0, bytes⟩ = .ok (c, k)) :
    ∃ o, Outline.ofBytes bytes = .ok o ∧ ∃ t, o.IsReadAs c t := by
  obtain ⟨⟨major, minor⟩, c₁, hversion, h⟩ := bind_eq_ok_iff.1 h
  obtain rfl := skip_of_readVersion hversion
  obtain ⟨t, c₂, htable, h⟩ := bind_eq_ok_iff.1 h
  obtain ⟨access, _, haccess, h⟩ := bind_eq_ok_iff.1 h
  obtain rfl := skip_of_unsigned haccess
  obtain ⟨name, _, hname, h⟩ := bind_eq_ok_iff.1 h
  obtain rfl := skip_of_readClassName hname
  obtain ⟨i, _, hi, h⟩ := bind_eq_ok_iff.1 h
  obtain rfl := skip_of_unsigned hi
  obtain ⟨super, _, hsuper, h⟩ := bind_eq_ok_iff.1 h
  obtain rfl := Table.eq_of_className hsuper
  obtain ⟨interfaces, _, hinterfaces, h⟩ := bind_eq_ok_iff.1 h
  obtain ⟨count, hcount, rfl⟩ := skip_of_listOf (fun _ _ _ => skip_of_readInterface) hinterfaces
  obtain ⟨fields, c₈, hfields, h⟩ := bind_eq_ok_iff.1 h
  obtain ⟨methods, c₉, hmethods, h⟩ := bind_eq_ok_iff.1 h
  obtain ⟨read, c₁₀, hattributes, h⟩ := bind_eq_ok_iff.1 h
  obtain ⟨_, _, ⟨⟩, hafter⟩ := bind_eq_ok_iff.1 h
  have hhead := sameHead_of_attributes hattributes
  -- the parts are found at the same places
  obtain ⟨fs, hfs, hallFields⟩ := exists_of_listOf (fun _ _ _ => exists_of_readField) hfields
  obtain ⟨ms, hms, hallMethods⟩ := exists_of_listOf (fun _ _ _ => exists_of_readMethod) hmethods
  obtain ⟨as, has, hallAttributes⟩ := exists_of_attributes (fun _ _ _ _ => inferInstance) hattributes
  have hsix : ((c₂.skip 2).skip 2).skip 2 = c₂.skip 6 := by simp only [Cursor.skip_skip]
  rw [hsix] at hcount hfs
  have hentries := readPool_of_readTable htable
  obtain ⟨entries, bootstrap⟩ := t
  rw [readMember_eq] at hfs hms
  rw [readAttributes_eq] at has
  split at hafter
  · next hend =>
    cases hafter
    refine ⟨⟨⟨entries, #[]⟩, fs, ms, as⟩, whole_eq_ok_iff.2 ⟨k, ?_, List.eq_nil_of_length_eq_zero hend⟩,
      ⟨entries, bootstrap⟩, ⟨?_, ?_, ?_, _, hallAttributes⟩⟩
    · refine bind_eq_ok_iff.2 ⟨(), _, rfl, bind_eq_ok_iff.2 ⟨entries, c₂, hentries, ?_⟩⟩
      refine bind_eq_ok_iff.2 ⟨(), c₂.skip 6, rfl, bind_eq_ok_iff.2 ⟨count, _, hcount, ?_⟩⟩
      refine bind_eq_ok_iff.2 ⟨(), _, rfl, bind_eq_ok_iff.2 ⟨fs, c₈, hfs, ?_⟩⟩
      refine bind_eq_ok_iff.2 ⟨ms, c₉, hms, bind_eq_ok_iff.2 ⟨as, k, has, rfl⟩⟩
    · rw [hhead.bootstrap]
    · rw [hhead.fields]
      exact hallFields
    · rw [hhead.methods]
      exact hallMethods
  · obtain ⟨_, _, ⟨⟩, -⟩ := bind_eq_ok_iff.1 hafter

end Decoding

/-- A class file that is accepted is read by its parts. -/
theorem Class.exists_isReadAs_of_ofBytes {bytes : Bytes} {c : Class} (h : Class.ofBytes bytes = .ok c) :
    ∃ o, Outline.ofBytes bytes = .ok o ∧ ∃ t, o.IsReadAs c t := by
  unfold Class.ofBytes at h
  split at h
  · next found stop hrun =>
    cases h
    exact exists_of_readClassFile hrun
  · cases h

end ClassTree
