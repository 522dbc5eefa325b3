/-
# ClassTree.Proofs.ElementCodec — annotation values are written and come back

A value is written by adding its entries to the pool, in the order in which they are met, and
spelling it out with the indices that they get. While it is written the pool only grows, so that in
the end each index leads to its entry, and the bytes are read as the value. An annotation inside
does not say how visible it is: it is read with the visibility of the attribute that holds the
value.

The texts of the pool in memory are those that were added. In a class file a high surrogate right
before a low one is joined with it, so a value is read from a file as it was if its texts are whole.
-/
import ClassTree.Proofs.FrameCodec
import ClassTree.Proofs.Spelling

namespace ClassTree

open Decoding Encoding Encoder

/-! ## Entries in a pool -/

namespace Pool

/-- The pool with some entries. -/
def withEntries (p : Pool) (es : List Entry) : Pool := es.foldl (fun p e => (p.insert e).2) p

variable {p : Pool} {es : List Entry}

@[simp] theorem withEntries_nil (p : Pool) : p.withEntries [] = p := rfl

@[simp] theorem withEntries_cons (p : Pool) (e : Entry) (es : List Entry) :
    p.withEntries (e :: es) = (p.insert e).2.withEntries es := rfl

theorem withEntries_append (p : Pool) (es es' : List Entry) :
    p.withEntries (es ++ es') = (p.withEntries es).withEntries es' := List.foldl_append

theorem WellFormed.withEntries (hp : p.WellFormed) (es : List Entry) : (p.withEntries es).WellFormed := by
  induction es generalizing p with
  | nil => exact hp
  | cons e es ih => exact ih (hp.insert e)

theorem begins_withEntries (p : Pool) (es : List Entry) : p.Begins (p.withEntries es) := by
  induction es generalizing p with
  | nil => exact .refl p
  | cons e es ih => exact (p.begins_insert e).trans (ih _)

theorem size_le_withEntries (p : Pool) (es : List Entry) : p.size ≤ (p.withEntries es).size := by
  have hle := (p.begins_withEntries es).entries.length_le
  rwa [Array.length_toList, Array.length_toList] at hle

/-- An entry takes no more than two slots. -/
theorem size_withEntries_le (p : Pool) (es : List Entry) :
    (p.withEntries es).size ≤ p.size + 2 * es.length := by
  induction es generalizing p with
  | nil => exact Nat.le_refl _
  | cons e es ih =>
    have hentry := p.size_insert_le e
    have hrest := ih (p.insert e).2
    rw [List.length_cons]
    refine hrest.trans ?_
    split at hentry <;> omega

/-- An entry of the pool was there before or is one of those that were added. -/
theorem mem_of_mem_withEntries {e : Entry} (h : some e ∈ (p.withEntries es).entries) :
    some e ∈ p.entries ∨ e ∈ es := by
  induction es generalizing p with
  | nil => exact .inl h
  | cons e' es ih =>
    rcases ih h with h | h
    · rcases mem_of_mem_insert h with h | rfl
      · exact .inl h
      · exact .inr List.mem_cons_self
    · exact .inr (List.mem_cons_of_mem _ h)

/-- A pool whose tables agree with its lists, and where every entry is found under itself. -/
structure IsKeyed (p : Pool) : Prop where
  wellFormed : p.WellFormed
  key : ∀ e, some e ∈ p.entries → e.key = e

namespace IsKeyed

theorem of_isStart (hp : p.IsStart) : p.IsKeyed :=
  ⟨hp.isSound.wellFormed, fun e he => (hp.isSound.isRead e he).key_eq⟩

/-- Adding entries that are found under themselves keeps a pool so. -/
theorem withEntries (hp : p.IsKeyed) (hes : ∀ e ∈ es, e.key = e) : (p.withEntries es).IsKeyed :=
  ⟨hp.wellFormed.withEntries es, fun e he => (mem_of_mem_withEntries he).elim (hp.key e) (hes e)⟩

/-- An entry that is found stands where it is found. -/
theorem getElem?_of_index (hp : p.IsKeyed) {e : Entry} (he : e.key = e) {i : Nat}
    (h : p.index[e]? = some i) : p.entries[i]? = some (some e) := by
  rw [hp.wellFormed.index] at h
  obtain ⟨e', hat, hkey⟩ := getElem?_of_firstIndex? h
  rw [Array.getElem?_toList] at hat
  obtain rfl : e' = e := (hp.key e' (Array.mem_of_getElem? hat)).symm.trans hkey
  exact hat

/-- The index of a text that is found spells it. -/
theorem spells_text (hp : p.IsKeyed) {s : Text} {i : Nat} (hi : p.index[Entry.utf8 s]? = some i)
    {bytes : Bytes} (hbytes : Bytes.unsigned? 2 (i : Nat) = some bytes) :
    Spells p.entries (.utf8 s) bytes := ⟨i, hp.getElem?_of_index rfl hi, hbytes⟩

end IsKeyed

end Pool

/-! ## Writing entries and nothing else -/

namespace Encoder

variable {α β : Type} {es es' : List Pool.Entry} {Q : α → Prop} {R : β → Prop}

/-- An encoder gives something of a sort and adds some entries to the pool, if two bytes are enough
for all indices of the pool then. -/
def AddsEntries (es : List Pool.Entry) (Q : α → Prop) (e : Encoder α) : Prop :=
  ∀ p : Pool, p.WellFormed → (p.withEntries es).size ≤ 0x10000 →
    ∃ a, e p = .ok (a, p.withEntries es) ∧ Q a

namespace AddsEntries

theorem pure {a : α} (h : Q a) : AddsEntries [] Q (Pure.pure a) := fun _ _ _ => ⟨a, rfl, h⟩

theorem bind {x : Encoder α} {f : α → Encoder β} (hx : AddsEntries es Q x)
    (hf : ∀ a, Q a → AddsEntries es' R (f a)) : AddsEntries (es ++ es') R (x >>= f) := by
  intro p hp hsize
  rw [Pool.withEntries_append] at hsize ⊢
  obtain ⟨a, ha, hQ⟩ := hx p hp ((Pool.size_le_withEntries _ _).trans hsize)
  obtain ⟨b, hb, hR⟩ := hf a hQ _ (hp.withEntries es) hsize
  exact ⟨b, bind_eq_ok_iff.2 ⟨a, _, ha, hb⟩, hR⟩

theorem map {x : Encoder α} (hx : AddsEntries es Q x) (f : α → β) :
    AddsEntries es (fun _ => True) (x >>= fun a => Pure.pure (f a)) := by
  have h := hx.bind fun a _ => pure (Q := fun _ : β => True) (a := f a) trivial
  rwa [List.append_nil] at h

theorem u2 {n : Nat} (h : n < 0x10000) : AddsEntries [] (fun _ => True) (Encoder.u2 n) := by
  intro p _ _
  obtain ⟨bytes, hbytes⟩ := exists_u2 h p
  exact ⟨bytes, hbytes, trivial⟩

theorem add (e : Pool.Entry) : AddsEntries [e] (· < 0x10000) (pooled (Pool.add e)) :=
  fun _ hp hsize => ⟨_, rfl, (hp.insert_lt e).trans_le hsize⟩

theorem index (s : Text) : AddsEntries [.utf8 s] (fun _ => True) (Encoder.index (Pool.addUtf8 s)) :=
  (add (.utf8 s)).bind fun _ hi => u2 hi

end AddsEntries

end Encoder

/-! ## Values -/

/-- The entry that a scalar adds. -/
def ElementTag.entries : ElementTag → Constant → List Pool.Entry
  | .byte, .int n | .char, .int n | .int, .int n | .short, .int n | .boolean, .int n => [.integer n]
  | .long, .int n => [.long n]
  | .float, .float x => (x.toSingle?.map .float).toList
  | .double, .float x => [.double x]
  | .text, .text s | .type, .text s => [.utf8 s]
  | _, _ => []

/-- The entry of a constant under its tag. -/
theorem ElementTag.Holds.entries_eq {tag : ElementTag} {v : Constant} {e : Pool.Entry}
    (h : tag.Holds v e) : tag.entries v = [e] := by
  cases h with
  | integer htag n => fin_cases htag <;> rfl
  | text htag s => fin_cases htag <;> rfl
  | @float x hx =>
    have hback := Number.Single.toSingle?_toDouble (Number.Single.isQuiet_of_isNaN_toDouble hx)
    show (x.toDouble.toSingle?.map Pool.Entry.float).toList = _
    rw [hback]
    rfl
  | _ => rfl

/-- The entry of a constant is found under itself, and may be added. -/
theorem ElementTag.Holds.key_eq {tag : ElementTag} {v : Constant} {e : Pool.Entry}
    (h : tag.Holds v e) : e.key = e ∧ e.Allowed .all := by
  cases h <;> exact ⟨rfl, trivial⟩

namespace ElementValue

mutual

/-- The entries of a value in the order in which they are met. -/
def entries : ElementValue → List Pool.Entry
  | .scalar tag v => tag.entries v
  | .enum descriptor name => [.utf8 descriptor, .utf8 name]
  | .nested descriptor _ values => .utf8 descriptor :: entriesNamed values
  | .array es => entriesAll es

/-- The entries of values. -/
def entriesAll : List ElementValue → List Pool.Entry
  | [] => []
  | v :: rest => entries v ++ entriesAll rest

/-- The entries of named values. -/
def entriesNamed : List (Text × ElementValue) → List Pool.Entry
  | [] => []
  | (name, v) :: rest => .utf8 name :: (entries v ++ entriesNamed rest)

end

mutual

/-- A value that annotations can hold: a scalar has a constant of its tag and is a number or a text,
and two bytes are enough to count what is in an annotation or a list. -/
def IsCodable : ElementValue → Prop
  | .scalar tag v => ∃ e, tag.Holds v e
  | .enum _ _ => True
  | .nested _ _ values => values.length < 0x10000 ∧ AreCodableNamed values
  | .array es => es.length < 0x10000 ∧ AreCodable es

/-- Values that annotations can hold. -/
def AreCodable : List ElementValue → Prop
  | [] => True
  | v :: rest => IsCodable v ∧ AreCodable rest

/-- Named values that annotations can hold. -/
def AreCodableNamed : List (Text × ElementValue) → Prop
  | [] => True
  | (_, v) :: rest => IsCodable v ∧ AreCodableNamed rest

end

mutual

/-- The value with every annotation inside of one visibility. -/
def seen (visible : Bool) : ElementValue → ElementValue
  | .scalar tag v => .scalar tag v
  | .enum descriptor name => .enum descriptor name
  | .nested descriptor _ values => .nested descriptor visible (seenNamed visible values)
  | .array es => .array (seenAll visible es)

/-- The values with every annotation inside of one visibility. -/
def seenAll (visible : Bool) : List ElementValue → List ElementValue
  | [] => []
  | v :: rest => seen visible v :: seenAll visible rest

/-- The named values with every annotation inside of one visibility. -/
def seenNamed (visible : Bool) : List (Text × ElementValue) → List (Text × ElementValue)
  | [] => []
  | (name, v) :: rest => (name, seen visible v) :: seenNamed visible rest

end

mutual

/-- No text of the value has a high surrogate right before a low one. -/
def IsWhole : ElementValue → Prop
  | .scalar _ v => ∀ s, v = .text s → s.IsWhole
  | .enum descriptor name => descriptor.IsWhole ∧ name.IsWhole
  | .nested descriptor _ values => descriptor.IsWhole ∧ AreWholeNamed values
  | .array es => AreWhole es

/-- No text of the values has one. -/
def AreWhole : List ElementValue → Prop
  | [] => True
  | v :: rest => IsWhole v ∧ AreWhole rest

/-- No text of the named values has one. -/
def AreWholeNamed : List (Text × ElementValue) → Prop
  | [] => True
  | (name, v) :: rest => name.IsWhole ∧ IsWhole v ∧ AreWholeNamed rest

end

theorem length_seenAll (visible : Bool) (es : List ElementValue) :
    (seenAll visible es).length = es.length := by
  induction es with
  | nil => rfl
  | cons v rest ih => rw [seenAll, List.length_cons, List.length_cons, ih]

theorem length_seenNamed (visible : Bool) (values : List (Text × ElementValue)) :
    (seenNamed visible values).length = values.length := by
  induction values with
  | nil => rfl
  | cons v rest ih =>
    obtain ⟨name, v⟩ := v
    rw [seenNamed, List.length_cons, List.length_cons, ih]

end ElementValue

theorem ElementTag.Holds.isSome_elementKind? {tag : ElementTag} {v : Constant} {e : Pool.Entry}
    (h : tag.Holds v e) : (Literal.elementKind? tag).isSome := by
  cases h with
  | integer htag n => fin_cases htag <;> rfl
  | text htag s => fin_cases htag <;> rfl
  | _ => rfl

/-- A constant under its tag is stored as it is, if it is no text or a whole one. -/
theorem ElementTag.Holds.readAs_eq {tag : ElementTag} {v : Constant} {e : Pool.Entry}
    (h : tag.Holds v e) (hwhole : ∀ s, v = .text s → s.IsWhole) :
    v.readAs ModifiedUtf8.stored (ElementValue.storedKind tag) = v := by
  cases h with
  | integer htag n => fin_cases htag <;> rfl
  | text htag s =>
    have hs : ModifiedUtf8.stored s = s := ModifiedUtf8.stored_of_isWhole (hwhole s rfl)
    have hread : (Constant.text s).readAs ModifiedUtf8.stored "string" =
        .text (ModifiedUtf8.stored s) := rfl
    rw [hs] at hread
    fin_cases htag <;> exact hread
  | long n => rfl
  | @float x hx =>
    have hkind : Literal.Kind.ofName? "float" = some .float := by decide
    show (Constant.float x.toDouble).readAs ModifiedUtf8.stored "float" = _
    unfold Constant.readAs
    rw [hkind]
    dsimp only
    rw [singleOf_toDouble hx]
  | double hx => rfl

namespace ElementValue

mutual

/-- A whole value is stored as it is, but for the visibility of the annotations inside. -/
theorem stored_eq_seen (visible : Bool) (v : ElementValue) (hv : v.IsCodable) (hwhole : v.IsWhole) :
    v.stored visible = v.seen visible := by
  cases v with
  | scalar tag v =>
    obtain ⟨e, he⟩ := hv
    rw [stored, seen, he.readAs_eq hwhole]
  | enum descriptor name =>
    rw [stored, seen, ModifiedUtf8.stored_of_isWhole hwhole.1, ModifiedUtf8.stored_of_isWhole hwhole.2]
  | nested descriptor visible' values =>
    rw [stored, seen, ModifiedUtf8.stored_of_isWhole hwhole.1,
      storedNamed_eq_seenNamed visible values hv.2 hwhole.2]
  | array es => rw [stored, seen, storedAll_eq_seenAll visible es hv.2 hwhole]

theorem storedAll_eq_seenAll (visible : Bool) (es : List ElementValue) (hes : AreCodable es)
    (hwhole : AreWhole es) : storedAll visible es = seenAll visible es := by
  cases es with
  | nil => rfl
  | cons v rest =>
    rw [storedAll, seenAll, stored_eq_seen visible v hes.1 hwhole.1,
      storedAll_eq_seenAll visible rest hes.2 hwhole.2]

/-- Whole named values are stored as they are. -/
theorem storedNamed_eq_seenNamed (visible : Bool) (values : List (Text × ElementValue))
    (hvalues : AreCodableNamed values) (hwhole : AreWholeNamed values) :
    storedNamed visible values = seenNamed visible values := by
  match values with
  | [] => rfl
  | (name, v) :: rest =>
    rw [storedNamed, seenNamed, ModifiedUtf8.stored_of_isWhole hwhole.1,
      stored_eq_seen visible v hvalues.1 hwhole.2.1,
      storedNamed_eq_seenNamed visible rest hvalues.2 hwhole.2.2]

end

mutual

/-- A value that annotations can hold has tags. -/
theorem isTagged_of_isCodable (v : ElementValue) (hv : v.IsCodable) : v.IsTagged := by
  cases v with
  | scalar tag v =>
    obtain ⟨e, he⟩ := hv
    exact he.isSome_elementKind?
  | enum descriptor name => trivial
  | nested descriptor visible values => exact areTaggedNamed_of_areCodable values hv.2
  | array es => exact areTagged_of_areCodable es hv.2

theorem areTagged_of_areCodable (es : List ElementValue) (hes : AreCodable es) : AreTagged es := by
  cases es with
  | nil => trivial
  | cons v rest => exact ⟨isTagged_of_isCodable v hes.1, areTagged_of_areCodable rest hes.2⟩

theorem areTaggedNamed_of_areCodable (values : List (Text × ElementValue))
    (hvalues : AreCodableNamed values) : AreTaggedNamed values := by
  match values with
  | [] => trivial
  | (name, v) :: rest =>
    exact ⟨isTagged_of_isCodable v hvalues.1, areTaggedNamed_of_areCodable rest hvalues.2⟩

end

mutual

/-- The entries of a value are found under themselves, and may be added. -/
theorem key_eq_of_mem_entries (v : ElementValue) (hv : v.IsCodable) :
    ∀ e ∈ v.entries, e.key = e ∧ e.Allowed .all := by
  cases v with
  | scalar tag v =>
    obtain ⟨e, he⟩ := hv
    rw [entries, he.entries_eq]
    simpa using he.key_eq
  | enum descriptor name => simp [entries, Pool.Entry.key, Pool.Entry.Allowed, Pool.Scope.all]
  | nested descriptor visible values =>
    simpa [entries, Pool.Entry.key, Pool.Entry.Allowed, Pool.Scope.all] using
      key_eq_of_mem_entriesNamed values hv.2
  | array es => exact key_eq_of_mem_entriesAll es hv.2

theorem key_eq_of_mem_entriesAll (es : List ElementValue) (hes : AreCodable es) :
    ∀ e ∈ entriesAll es, e.key = e ∧ e.Allowed .all := by
  cases es with
  | nil => nofun
  | cons v rest =>
    intro e he
    rcases List.mem_append.1 he with he | he
    · exact key_eq_of_mem_entries v hes.1 e he
    · exact key_eq_of_mem_entriesAll rest hes.2 e he

theorem key_eq_of_mem_entriesNamed (values : List (Text × ElementValue))
    (hvalues : AreCodableNamed values) : ∀ e ∈ entriesNamed values, e.key = e ∧ e.Allowed .all := by
  match values with
  | [] => nofun
  | (name, v) :: rest =>
    intro e he
    rcases List.mem_cons.1 he with rfl | he
    · exact ⟨rfl, trivial⟩
    rcases List.mem_append.1 he with he | he
    · exact key_eq_of_mem_entries v hvalues.1 e he
    · exact key_eq_of_mem_entriesNamed rest hvalues.2 e he

end

end ElementValue

/-! ## Writing -/

namespace Encoding

/-- The letter of a tag that holds a constant is written. -/
theorem addsEntries_tagByte {tag : ElementTag} {v : Constant} {e : Pool.Entry} (h : tag.Holds v e) :
    AddsEntries [] (fun _ => True) (tagByte tag) := by
  cases h with
  | integer htag n => fin_cases htag <;> exact fun _ _ _ => ⟨_, rfl, trivial⟩
  | text htag s => fin_cases htag <;> exact fun _ _ _ => ⟨_, rfl, trivial⟩
  | _ => exact fun _ _ _ => ⟨_, rfl, trivial⟩

theorem addsEntries_addScalar {tag : ElementTag} {v : Constant} {e : Pool.Entry} (h : tag.Holds v e) :
    AddsEntries [e] (· < 0x10000) (addScalar tag v) := by
  cases h with
  | integer htag n =>
    have hadd : AddsEntries [.integer n] (· < 0x10000) (addInteger (.int n)) := .add (.integer n)
    fin_cases htag <;> exact hadd
  | text htag s =>
    have hadd : AddsEntries [.utf8 s] (· < 0x10000) (addText (.text s)) := .add (.utf8 s)
    fin_cases htag <;> exact hadd
  | long n => exact .add (.long n)
  | @float x hx =>
    show AddsEntries _ _ (liftM (singleOf (.float x.toDouble)) >>= fun x => pooled (Pool.add (.float x)))
    rw [singleOf_toDouble hx, lift_ok_bind]
    exact .add (.float x)
  | double hx => exact .add (.double _)

mutual

theorem addsEntries_element (v : ElementValue) (hv : v.IsCodable) :
    AddsEntries v.entries (fun _ => True) (element v) := by
  unfold element
  cases v with
  | scalar tag v =>
    obtain ⟨e, he⟩ := hv
    rw [ElementValue.entries, he.entries_eq]
    exact (addsEntries_tagByte he).bind fun first _ =>
      (addsEntries_addScalar he).bind fun i hi => (AddsEntries.u2 hi).map fun bytes => first ++ bytes
  | enum descriptor name =>
    rw [ElementValue.entries]
    exact (AddsEntries.add (.utf8 descriptor)).bind fun d hd =>
      (AddsEntries.add (.utf8 name)).bind fun n hn =>
        (AddsEntries.u2 hd).bind fun first _ => (AddsEntries.u2 hn).map fun second =>
          0x65 :: (first ++ second)
  | nested descriptor visible values =>
    rw [ElementValue.entries]
    exact (AddsEntries.index descriptor).bind fun d _ => (AddsEntries.u2 hv.1).bind fun count _ =>
      (addsEntries_named values hv.2 []).map fun bytes => 0x40 :: (d ++ count ++ bytes)
  | array es =>
    rw [ElementValue.entries]
    exact (AddsEntries.u2 hv.1).bind fun count _ => (addsEntries_elements es hv.2 []).map fun bytes =>
      0x5B :: (count ++ bytes)

theorem addsEntries_elements (es : List ElementValue) (hes : ElementValue.AreCodable es)
    (acc : List Bytes) :
    AddsEntries (ElementValue.entriesAll es) (fun _ => True) (elements es acc) := by
  unfold elements
  cases es with
  | nil => exact .pure trivial
  | cons v rest =>
    rw [ElementValue.entriesAll]
    exact (addsEntries_element v hes.1).bind fun part _ => addsEntries_elements rest hes.2 (part :: acc)

theorem addsEntries_named (values : List (Text × ElementValue))
    (hvalues : ElementValue.AreCodableNamed values) (acc : List Bytes) :
    AddsEntries (ElementValue.entriesNamed values) (fun _ => True) (named values acc) := by
  unfold named
  match values with
  | [] => exact .pure trivial
  | (name, v) :: rest =>
    rw [ElementValue.entriesNamed]
    exact (AddsEntries.index name).bind fun n _ => (addsEntries_element v hvalues.1).bind fun part _ =>
      addsEntries_named rest hvalues.2 ((n ++ part) :: acc)

end

/-! ## Reading -/

variable {P : Pool} {visible : Bool}

/-- The entry of a constant under a tag is what is found. -/
theorem index_of_fixed_addScalar {tag : ElementTag} {v : Constant} {e : Pool.Entry} (he : tag.Holds v e)
    {i : Nat} (h : Fixed P (addScalar tag v) i) : P.index[e]? = some i := by
  cases he with
  | integer htag n =>
    have hadd (h : Fixed P (addInteger (.int n)) i) : P.index[Pool.Entry.integer n]? = some i := by
      obtain ⟨n, hn, hi⟩ := fixed_bind_iff.1 h
      cases fixed_lift_iff.1 hn
      exact fixed_add_iff.1 hi
    fin_cases htag <;> exact hadd h
  | text htag s => fin_cases htag <;> exact fixed_add_iff.1 h
  | long n => exact fixed_add_iff.1 h
  | float hx =>
    obtain ⟨y, hy, hi⟩ := fixed_bind_iff.1 h
    rw [fixed_lift_iff, singleOf_toDouble hx] at hy
    cases hy
    exact fixed_add_iff.1 hi
  | double hx =>
    obtain ⟨y, hy, hi⟩ := fixed_bind_iff.1 h
    cases fixed_lift_iff.1 hy
    exact fixed_add_iff.1 hi

/-- A scalar that is found is spelled out. -/
theorem isSpelled_scalar (hP : P.IsKeyed) {tag : ElementTag} {v : Constant} {e : Pool.Entry}
    (he : tag.Holds v e) {bytes : Bytes} (h : Fixed P (element (.scalar tag v)) bytes) :
    (ElementValue.scalar tag v).IsSpelled P.entries visible bytes := by
  unfold element at h
  simp only [fixed_bind_iff, fixed_u2_iff, fixed_pure_iff] at h
  obtain ⟨first, hfirst, i, hi, index, hindex, rfl⟩ := h
  obtain ⟨b, rfl, hletter⟩ := exists_of_fixed_tagByte he.isSome_elementKind? hfirst
  have hbyte : tag.letter = [Fin.ofNat _ b.toNat] := by
    simpa using List.find?_some hletter
  exact ⟨b, e, index, hbyte, he,
    ⟨i, hP.getElem?_of_index he.key_eq.1 (index_of_fixed_addScalar he hi), hindex⟩, rfl⟩

mutual

/-- A value whose constants a pool finds is spelled out by the bytes that are written for it: each
of its parts stands in them as an index of the pool, level by level. The induction is on the value,
along with values in a row and with named ones. -/
theorem isSpelled_of_fixed (hP : P.IsKeyed) (v : ElementValue) (hv : v.IsCodable) {bytes : Bytes}
    (h : Fixed P (element v) bytes) : (v.seen visible).IsSpelled P.entries visible bytes := by
  cases v with
  | scalar tag v =>
    obtain ⟨e, he⟩ := hv
    exact isSpelled_scalar hP he h
  | enum descriptor name =>
    unfold element at h
    simp only [fixed_bind_iff, fixed_addUtf8_iff, fixed_u2_iff, fixed_pure_iff] at h
    obtain ⟨i, hi, j, hj, d, hd, n, hn, rfl⟩ := h
    exact ⟨d, n, hP.spells_text hi hd, hP.spells_text hj hn, rfl⟩
  | nested descriptor visible' values =>
    unfold element at h
    simp only [fixed_bind_iff, fixed_index_iff, fixed_addUtf8_iff, fixed_u2_iff, fixed_named_iff,
      fixed_pure_iff] at h
    obtain ⟨d, ⟨i, hi, hd⟩, count, hcount, _, ⟨parts, hparts, rfl⟩, rfl⟩ := h
    rw [ElementValue.seen]
    refine ⟨rfl, d, count, parts, hP.spells_text hi hd, ?_,
      areSpelled_named_of_fixed hP values hv.2 hparts, by rw [List.append_assoc]; rfl⟩
    rw [ElementValue.length_seenNamed]
    exact hcount
  | array es =>
    unfold element at h
    simp only [fixed_bind_iff, fixed_u2_iff, fixed_elements_iff, fixed_pure_iff] at h
    obtain ⟨count, hcount, _, ⟨parts, hparts, rfl⟩, rfl⟩ := h
    rw [ElementValue.seen]
    refine ⟨count, parts, ?_, areSpelled_of_fixed hP es hv.2 hparts, rfl⟩
    rw [ElementValue.length_seenAll]
    exact hcount

theorem areSpelled_of_fixed (hP : P.IsKeyed) (es : List ElementValue) (hes : ElementValue.AreCodable es)
    {parts : List Bytes} (h : List.Forall₂ (fun v part => Fixed P (element v) part) es parts) :
    ElementValue.AreSpelled P.entries visible (ElementValue.seenAll visible es) parts := by
  cases es with
  | nil =>
    cases h
    rfl
  | cons v rest =>
    cases h with
    | cons hpart hparts =>
      exact ⟨_, _, isSpelled_of_fixed hP v hes.1 hpart, areSpelled_of_fixed hP rest hes.2 hparts, rfl⟩

/-- Named values that are found are spelled out. -/
theorem areSpelled_named_of_fixed (hP : P.IsKeyed) (values : List (Text × ElementValue))
    (hvalues : ElementValue.AreCodableNamed values) {parts : List Bytes}
    (h : List.Forall₂ (IsNamedElement P) values parts) :
    ElementValue.AreSpelledNamed P.entries visible (ElementValue.seenNamed visible values) parts := by
  match values with
  | [] =>
    cases h
    rfl
  | (name, v) :: rest =>
    cases h with
    | cons hpart hparts =>
      obtain ⟨i, n, part, hi, hn, hvalue, rfl⟩ := hpart
      exact ⟨n, part, _, hP.spells_text hi hn, isSpelled_of_fixed hP v hvalues.1 hvalue,
        areSpelled_named_of_fixed hP rest hvalues.2 hparts, rfl⟩

end

/-- A value is written with its entries added to the pool, and its bytes are read as the value, with
every annotation inside as visible as the attribute: with the entries of the pool as it stands then,
and, if the texts are whole, with those of any pool that has grown from it and has been written to a
file. -/
theorem readElement_element {v : ElementValue} (hv : v.IsCodable) {p : Pool} (hp : p.IsStart)
    (hroom : (p.withEntries v.entries).size ≤ 0x10000) (visible : Bool) : ∃ bytes,
      element v p = .ok (bytes, p.withEntries v.entries) ∧
      (∀ bootstrap, Reads (readElement ⟨(p.withEntries v.entries).entries, bootstrap⟩ visible) bytes
        (v.seen visible)) ∧
      (v.IsWhole → ∀ P poolBytes, Pool.Grows .all (p.withEntries v.entries) P →
        P.encode? = some poolBytes → ∃ entries, Reads Table.readPool poolBytes entries ∧
          ∀ bootstrap, Reads (readElement ⟨entries, bootstrap⟩ visible) bytes (v.seen visible)) := by
  have hstart := Pool.IsKeyed.of_isStart hp
  have hentries := v.key_eq_of_mem_entries hv
  obtain ⟨bytes, hbytes, -⟩ := addsEntries_element v hv p hstart.wellFormed hroom
  have hgrown : Pool.Grows .all p (p.withEntries v.entries) := Growing.grows hbytes
  refine ⟨bytes, hbytes, fun bootstrap => ?_, fun hwhole P poolBytes hgrows hpool => ?_⟩
  · have hkeyed := hstart.withEntries fun e he => (hentries e he).1
    have hspelled : (v.seen visible).IsSpelled _ visible bytes :=
      isSpelled_of_fixed hkeyed v hv (Steady.fixed hbytes (.refl _))
    exact reads_nesting fun fuel hfuel => reads_readElementWith _ hspelled hfuel
  · have hreach : P.IsReachable := ⟨p, hp, hgrown.trans hgrows⟩
    have ht := backs_of_encode? hreach.wellFormed (fun e he => hreach.allowed he) hpool
    refine ⟨_, Pool.reads_pool hreach.wellFormed (fun e he => hreach.allowed he) hpool,
      fun bootstrap => ?_⟩
    rw [← v.stored_eq_seen visible hv hwhole]
    exact reads_readElement (ht bootstrap) (v.isTagged_of_isCodable hv)
      (Steady.fixed hbytes hgrows.within) visible

/-- A character, a text that begins with the second half of a pair, and an annotation with a
constant of an enumeration. -/
def mixedValue : ElementValue := .array
  [.scalar .char (.int 65), .scalar .text (.text [0xDC00, 0xD800]),
    .nested "LA;" true [("x", .enum "LE;" "Y")]]

/-- The values are written into the empty pool and read back, in an invisible attribute with an
invisible annotation. -/
theorem readElement_element_mixedValue :
    ∃ bytes poolBytes entries, element mixedValue .empty =
        .ok (bytes, Pool.empty.withEntries mixedValue.entries) ∧
      (Pool.empty.withEntries mixedValue.entries).encode? = some poolBytes ∧
      Reads Table.readPool poolBytes entries ∧
      Reads (readElement ⟨entries, #[]⟩ false) bytes (.array
        [.scalar .char (.int 65), .scalar .text (.text [0xDC00, 0xD800]),
          .nested "LA;" false [("x", .enum "LE;" "Y")]]) := by
  have hcodable : mixedValue.IsCodable :=
    ⟨by decide, ⟨_, .integer (by decide) 65⟩, ⟨_, .text (by decide) _⟩, ⟨by decide, trivial, trivial⟩,
      trivial⟩
  have hwhole : mixedValue.IsWhole := by
    refine ⟨nofun, ?_, ⟨by decide, by decide, ⟨by decide, by decide⟩, trivial⟩, trivial⟩
    rintro s ⟨⟩
    decide
  have hroom : (Pool.empty.withEntries mixedValue.entries).size ≤ 0x10000 :=
    (Pool.size_withEntries_le _ _).trans (by decide)
  obtain ⟨bytes, hbytes, -, hfile⟩ := readElement_element hcodable (.inl rfl) hroom false
  obtain ⟨poolBytes, hpool⟩ := Option.isSome_iff_exists.1
    (show ((Pool.empty.withEntries mixedValue.entries).encode?).isSome = true by cbv)
  obtain ⟨entries, hentries, hreads⟩ := hfile hwhole _ poolBytes .refl hpool
  exact ⟨bytes, poolBytes, entries, hbytes, hpool, hentries, hreads #[]⟩

end Encoding

end ClassTree
