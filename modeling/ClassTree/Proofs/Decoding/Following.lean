/-
# ClassTree.Proofs.Decoding.Following — readers see only what they pass over

What a reader gives depends on the bytes that it passes over and on nothing else: neither on the
place where they stand nor on what follows them. So a part of a file that was read in its place is
read in the same way by itself.

The levels of nesting that a value may have are counted by the bytes that are left, which are fewer
in a part. Since every level takes a byte, they are enough; that is why the number of bytes is
limited here.
-/
import ClassTree.Proofs.Decoder
import ClassTree.Proofs.Decoding.ClassFile

namespace ClassTree.Decoding

open Decoder

variable {α β σ : Type} {limit : Nat}

@[simp] theorem Cursor.skip_zero (c : Cursor) : c.skip 0 = c := rfl

theorem Cursor.skip_skip (c : Cursor) (m n : Nat) : (c.skip m).skip n = c.skip (m + n) := by
  unfold Cursor.skip
  simp only [List.drop_drop, Nat.add_assoc]

/-- Two places go on with the same bytes, as many as are given. -/
structure Cursor.Agrees (c c' : Cursor) (count : Nat) : Prop where
  enough : count ≤ c'.rest.length
  eq : c'.rest.take count = c.rest.take count

theorem Cursor.Agrees.mono {c c' : Cursor} {m n : Nat} (h : c.Agrees c' n) (hle : m ≤ n) :
    c.Agrees c' m where
  enough := hle.trans h.enough
  eq := by
    have := congrArg (List.take m) h.eq
    simpa [List.take_take, hle] using this

theorem Cursor.Agrees.right {c c' : Cursor} {m n : Nat} (h : c.Agrees c' (m + n)) :
    (c.skip m).Agrees (c'.skip m) n where
  enough := by
    have := h.enough
    simp only [Cursor.skip, List.length_drop]
    omega
  eq := by
    have := congrArg (List.drop m) h.eq
    simpa [Cursor.skip, List.take_drop, Nat.add_comm] using this

/-- What one decoder reads, the other one reads too wherever the same bytes stand, if they are fewer
than a limit. -/
class Follows (limit : Nat) (d d' : Decoder α) : Prop where
  follows : ∀ {c c₁ : Cursor} {a : α}, d c = .ok (a, c₁) → ∃ count, c₁ = c.skip count ∧
    (count < limit → ∀ c', c.Agrees c' count → d' c' = .ok (a, c'.skip count))

/-! ## Decoders -/

instance follows_pure (a : α) : Follows limit (pure a : Decoder α) (pure a) :=
  ⟨by rintro c c₁ b ⟨⟩; exact ⟨0, rfl, fun _ c' _ => rfl⟩⟩

instance follows_bind (d d' : Decoder α) (k k' : α → Decoder β) [hd : Follows limit d d']
    [hk : ∀ a, Follows limit (k a) (k' a)] : Follows limit (d >>= k) (d' >>= k') where
  follows := by
    intro c c₂ b h
    obtain ⟨a, c₁, ha, hb⟩ := bind_eq_ok_iff.1 h
    obtain ⟨m, rfl, hm⟩ := hd.follows ha
    obtain ⟨n, rfl, hn⟩ := (hk a).follows hb
    refine ⟨m + n, c.skip_skip m n, fun hlt c' hc' => bind_eq_ok_iff.2 ⟨a, c'.skip m, ?_, ?_⟩⟩
    · exact hm (by omega) c' (hc'.mono (Nat.le_add_right m n))
    · rw [← c'.skip_skip m n]
      exact hn (by omega) (c'.skip m) hc'.right

instance follows_ite (p : Prop) [Decidable p] (d d' e e' : Decoder α) [hd : Follows limit d d']
    [he : Follows limit e e'] : Follows limit (if p then d else e) (if p then d' else e') := by
  split
  · exact hd
  · exact he

instance follows_throw (e : Error) (d : Decoder α) : Follows limit (throw e : Decoder α) d := ⟨nofun⟩

instance follows_refuse (cause : Malformed) (offset : Nat) (d : Decoder α) :
    Follows limit (refuse cause offset : Decoder α) d := follows_throw _ d

instance follows_refuseHere (cause : Malformed) (d : Decoder α) :
    Follows limit (refuseHere cause : Decoder α) d := ⟨nofun⟩

/-- Two ways on from a place are the same if they end at the same place. -/
theorem Cursor.eq_of_skip_eq {c : Cursor} {m n : Nat} (h : c.skip m = c.skip n) : m = n := by
  have hposition := congrArg Cursor.position h
  exact Nat.add_left_cancel hposition

/-- What has been read of a place is read wherever the same bytes stand. -/
theorem Follows.eq_ok {d d' : Decoder α} {c c' : Cursor} {count : Nat} {a : α}
    (hd : Follows (count + 1) d d') (h : d c = .ok (a, c.skip count)) (hc' : c.Agrees c' count) :
    d' c' = .ok (a, c'.skip count) := by
  obtain ⟨n, hn, hagrees⟩ := hd.follows h
  obtain rfl := Cursor.eq_of_skip_eq hn
  exact hagrees (Nat.lt_succ_self count) c' hc'

theorem Follows.eq_ok_here {d d' : Decoder α} {c : Cursor} {a : α} (hd : Follows 1 d d')
    (h : d c = .ok (a, c)) (c' : Cursor) : d' c' = .ok (a, c') := by
  have hnone : Cursor.Agrees c c' 0 := ⟨Nat.zero_le _, rfl⟩
  exact Follows.eq_ok hd (show d c = .ok (a, c.skip 0) from h) hnone

theorem exists_skip (d : Decoder α) [hd : Follows 0 d d] {c c₁ : Cursor} {a : α} (h : d c = .ok (a, c₁)) :
    ∃ count, c₁ = c.skip count := by
  obtain ⟨count, hcount, -⟩ := hd.follows h
  exact ⟨count, hcount⟩

/-- A decoder that knows where it stands, as long as that makes no difference to what it reads. -/
instance follows_position_bind (k k' : Nat → Decoder β) [hk : ∀ p p', Follows limit (k p) (k' p')] :
    Follows limit (position >>= k) (position >>= k') where
  follows := by
    intro c c₁ b h
    obtain ⟨m, rfl, -⟩ := (hk c.position 0).follows (show k c.position c = .ok (b, c₁) from h)
    refine ⟨m, rfl, fun hlt c' hc' => ?_⟩
    obtain ⟨n, hn, hagrees⟩ := (hk c.position c'.position).follows
      (show k c.position c = .ok (b, _) from h)
    obtain rfl := Cursor.eq_of_skip_eq hn
    exact hagrees hlt c' hc'

instance follows_skip (count : Nat) : Follows limit (skip count) (skip count) :=
  ⟨by rintro c c₁ b ⟨⟩; exact ⟨count, rfl, fun _ c' _ => rfl⟩⟩

theorem need_eq_ok {count : Nat} {c c' : Cursor} {u : Unit} (h : need count c = .ok (u, c')) :
    count ≤ c.rest.length ∧ c' = c := by
  unfold need at h
  obtain ⟨_, _, ⟨⟩, h⟩ := bind_eq_ok_iff.1 h
  split at h
  · next hat =>
    cases h
    exact ⟨Bytes.hasAtLeast_iff.1 hat, rfl⟩
  · cases h

instance follows_bytes (count : Nat) : Follows limit (bytes count) (bytes count) where
  follows := by
    intro c c₁ b h
    unfold bytes at h
    obtain ⟨_, _, hneed, hrest⟩ := bind_eq_ok_iff.1 h
    obtain ⟨-, rfl⟩ := need_eq_ok hneed
    cases hrest
    refine ⟨count, rfl, fun _ c' hc' => ?_⟩
    unfold bytes
    refine bind_eq_ok_iff.2 ⟨(), c', Reads.need hc'.enough, ?_⟩
    rw [← hc'.eq]
    rfl

instance follows_unsigned (width : Nat) : Follows limit (unsigned width) (unsigned width) := by
  unfold unsigned
  infer_instance

instance follows_signed (width : Nat) : Follows limit (signed width) (signed width) := by
  unfold signed
  infer_instance

instance follows_byte : Follows limit byte byte := by
  unfold byte
  infer_instance

instance follows_u1 : Follows limit u1 u1 := follows_unsigned 1

instance follows_u2 : Follows limit u2 u2 := follows_unsigned 2

instance follows_u4 : Follows limit u4 u4 := follows_unsigned 4

instance follows_times (count : Nat) (d d' : Decoder α) [hd : Follows limit d d'] :
    Follows limit (times count d) (times count d') := by
  have honto (acc : List α) : Follows limit (timesOnto count d acc) (timesOnto count d' acc) := by
    induction count generalizing acc with
    | zero => exact follows_pure _
    | succ count ih =>
      unfold timesOnto
      infer_instance
  exact honto []

instance follows_listOf (d d' : Decoder α) [Follows limit d d'] :
    Follows limit (listOf d) (listOf d') := by
  unfold listOf
  infer_instance

instance follows_forM (l : List α) (f f' : α → Decoder PUnit) [hf : ∀ a, Follows limit (f a) (f' a)] :
    Follows limit (l.forM f) (l.forM f') := by
  induction l with
  | nil => exact follows_pure _
  | cons a l ih =>
    show Follows limit (f a >>= fun _ => l.forM f) (f' a >>= fun _ => l.forM f')
    infer_instance

instance follows_mapM (l : List α) (f f' : α → Decoder β) [hf : ∀ a, Follows limit (f a) (f' a)] :
    Follows limit (l.mapM f) (l.mapM f') := by
  induction l with
  | nil =>
    rw [List.mapM_nil, List.mapM_nil]
    infer_instance
  | cons a l ih =>
    rw [List.mapM_cons, List.mapM_cons]
    infer_instance

/-! ## The pool -/

namespace Table

variable (t : Table)

instance follows_entry (i : Nat) : Follows limit (t.entry i) (t.entry i) := by
  unfold entry
  split <;> infer_instance

instance follows_wrongTag (expected : List Pool.Tag) (i : Nat) (e : Pool.Entry) (d : Decoder α) :
    Follows limit (wrongTag expected i e : Decoder α) d := follows_refuseHere _ d

instance follows_utf8 (i : Nat) : Follows limit (t.utf8 i) (t.utf8 i) := by
  unfold utf8
  refine @follows_bind _ _ _ _ _ _ _ _ fun e => ?_
  cases e <;> infer_instance

instance follows_utf8? (i : Nat) : Follows limit (t.utf8? i) (t.utf8? i) := by
  unfold utf8?
  infer_instance

instance follows_className (i : Nat) : Follows limit (t.className i) (t.className i) := by
  have (e : Pool.Entry) : Follows limit (match e with
      | .type n => do return some (← t.utf8 n)
      | e => wrongTag [.type] i e : Decoder (Option Text)) (match e with
      | .type n => do return some (← t.utf8 n)
      | e => wrongTag [.type] i e) := by
    cases e <;> infer_instance
  unfold className
  infer_instance

instance follows_nameAndType (i : Nat) : Follows limit (t.nameAndType i) (t.nameAndType i) := by
  unfold nameAndType
  refine @follows_bind _ _ _ _ _ _ _ _ fun e => ?_
  cases e <;> infer_instance

instance follows_member (i : Nat) : Follows limit (t.member i) (t.member i) := by
  have (interface : Bool) (owner member : Nat) :
      Follows limit (t.memberOf interface owner member) (t.memberOf interface owner member) := by
    unfold memberOf
    infer_instance
  unfold member
  refine @follows_bind _ _ _ _ _ _ _ _ fun e => ?_
  cases e <;> infer_instance

instance follows_handle (i : Nat) : Follows limit (t.handle i) (t.handle i) := by
  unfold handle
  refine @follows_bind _ _ _ _ _ _ _ _ fun e => ?_
  cases e <;> infer_instance

instance follows_constant (i : Nat) : Follows limit (t.constant i) (t.constant i) := by
  unfold constant
  refine @follows_bind _ _ _ _ _ _ _ _ fun e => ?_
  cases e <;> infer_instance

/-! Looking up passes over nothing. -/

variable {t} {i : Nat} {c c₁ : Cursor}

theorem eq_of_entry {e : Pool.Entry} (h : t.entry i c = .ok (e, c₁)) : c₁ = c := by
  unfold entry at h
  generalize t.entries[i]? = found at h
  rcases found with _ | _ | e' <;> cases h
  rfl

theorem eq_of_utf8 {name : Text} (h : t.utf8 i c = .ok (name, c₁)) : c₁ = c := by
  obtain ⟨e, c₂, he, h⟩ := bind_eq_ok_iff.1 h
  obtain rfl := eq_of_entry he
  cases e <;> cases h
  rfl

theorem eq_of_className {name : Option Text} (h : t.className i c = .ok (name, c₁)) : c₁ = c := by
  unfold className at h
  split at h
  · cases h
    rfl
  · obtain ⟨e, c₂, he, h⟩ := bind_eq_ok_iff.1 h
    obtain rfl := eq_of_entry he
    cases e <;> try cases h
    obtain ⟨s, c₃, hs, hname⟩ := bind_eq_ok_iff.1 h
    obtain rfl := eq_of_utf8 hs
    cases hname
    rfl

theorem eq_of_nameAndType {p : Nat × Nat} (h : t.nameAndType i c = .ok (p, c₁)) : c₁ = c := by
  obtain ⟨e, _, he, h⟩ := bind_eq_ok_iff.1 h
  obtain rfl := eq_of_entry he
  cases e <;> cases h
  rfl

theorem eq_of_member {m : Member} (h : t.member i c = .ok (m, c₁)) : c₁ = c := by
  have hof {interface : Bool} {owner member : Nat} {c : Cursor}
      (h : t.memberOf interface owner member c = .ok (m, c₁)) : c₁ = c := by
    obtain ⟨⟨n, d⟩, c₂, hmember, hrest⟩ := bind_eq_ok_iff.1 h
    obtain ⟨owner, c₃, howner, hrest⟩ := bind_eq_ok_iff.1 hrest
    obtain ⟨name, c₄, hname, hrest⟩ := bind_eq_ok_iff.1 hrest
    obtain ⟨descriptor, c₅, hdescriptor, hrest⟩ := bind_eq_ok_iff.1 hrest
    cases hrest
    rw [eq_of_utf8 hdescriptor, eq_of_utf8 hname, eq_of_className howner, eq_of_nameAndType hmember]
  obtain ⟨e, c₂, he, hmember⟩ := bind_eq_ok_iff.1 h
  obtain rfl := eq_of_entry he
  cases e with
  | fieldref o m | methodref o m | interfaceMethodref o m => exact hof hmember
  | _ => cases hmember

theorem eq_of_handle {handle : Handle} (h : t.handle i c = .ok (handle, c₁)) : c₁ = c := by
  obtain ⟨e, c₂, he, hhandle⟩ := bind_eq_ok_iff.1 h
  cases e with
  | methodHandle kind target =>
    obtain ⟨m, c₃, hm, hhandle⟩ := bind_eq_ok_iff.1 hhandle
    cases hhandle
    rw [eq_of_member hm, eq_of_entry he]
  | _ => cases hhandle

theorem eq_of_constant {p : Text × Constant} (h : t.constant i c = .ok (p, c₁)) : c₁ = c := by
  obtain ⟨e, c₂, he, hconstant⟩ := bind_eq_ok_iff.1 h
  obtain rfl := eq_of_entry he
  cases e with
  | string n | type n | methodType n =>
    obtain ⟨s, c₃, hs, hconstant⟩ := bind_eq_ok_iff.1 hconstant
    cases hconstant
    exact eq_of_utf8 hs
  | methodHandle kind target =>
    obtain ⟨handle, c₃, hhandle, hconstant⟩ := bind_eq_ok_iff.1 hconstant
    cases hconstant
    exact eq_of_handle hhandle
  | integer n | float n | long n | double n =>
    cases hconstant
    rfl
  | _ => cases hconstant

end Table

variable (t : Table)

/-! ## Annotations -/

instance follows_readNamed (value value' : Decoder ElementValue) [Follows limit value value'] :
    Follows limit (readNamed t value) (readNamed t value') := by
  unfold readNamed
  infer_instance

/-- A decoder after a byte has one byte less to read. -/
theorem follows_byte_bind (k k' : UInt8 → Decoder β) (hk : ∀ b, Follows limit (k b) (k' b)) :
    Follows (limit + 1) (byte >>= k) (byte >>= k') where
  follows := by
    intro c c₂ b h
    obtain ⟨a, c₁, ha, hb⟩ := bind_eq_ok_iff.1 h
    obtain ⟨n, c₁', hn, hbyte⟩ := bind_eq_ok_iff.1 ha
    cases hbyte
    obtain rfl := skip_of_unsigned hn
    obtain ⟨m, rfl, hm⟩ := (hk _).follows hb
    refine ⟨1 + m, c.skip_skip 1 m, fun hlt c' hc' => bind_eq_ok_iff.2 ⟨.ofNat n, c'.skip 1, ?_, ?_⟩⟩
    · exact follows_byte.eq_ok ha (hc'.mono (Nat.le_add_right 1 m))
    · rw [← c'.skip_skip 1 m]
      exact hm (by omega) (c'.skip 1) hc'.right

theorem follows_readElementWith_self (visible : Bool) (fuel : Nat) :
    Follows limit (readElementWith t visible fuel) (readElementWith t visible fuel) := by
  induction fuel with
  | zero => exact follows_refuseHere _ _
  | succ fuel ih =>
    unfold readElementWith
    refine @follows_position_bind _ _ _ _ fun start start' => ?_
    refine @follows_bind _ _ _ _ _ _ _ _ fun code => ?_
    split <;> infer_instance

/-- As many levels are enough as there are bytes. The induction is on the levels that are left. -/
theorem follows_readElementWith (visible : Bool) (fuel fuel' : Nat) :
    Follows fuel' (readElementWith t visible fuel) (readElementWith t visible fuel') := by
  induction fuel' generalizing fuel with
  | zero =>
    refine ⟨fun h => ?_⟩
    have : Follows 0 (readElementWith t visible fuel) _ := follows_readElementWith_self t visible fuel
    obtain ⟨count, hcount⟩ := exists_skip _ h
    exact ⟨count, hcount, fun hlt => absurd hlt (Nat.not_lt_zero count)⟩
  | succ fuel' ih =>
    cases fuel with
    | zero => exact follows_refuseHere _ _
    | succ fuel =>
      have := ih fuel
      unfold readElementWith
      refine @follows_position_bind _ _ _ _ fun start start' => ?_
      refine follows_byte_bind _ _ fun code => ?_
      split <;> infer_instance

/-- A decoder that nests no deeper than there are bytes. -/
theorem follows_nesting_bind (k : Nat → Decoder β) (hk : ∀ fuel fuel', Follows fuel' (k fuel) (k fuel')) :
    Follows limit (nesting >>= k) (nesting >>= k) where
  follows := by
    intro c c₁ b h
    obtain ⟨m, rfl, -⟩ := (hk _ 0).follows (show k (c.rest.length + 1) c = .ok (b, c₁) from h)
    refine ⟨m, rfl, fun _ c' hc' => ?_⟩
    obtain ⟨n, hn, hagrees⟩ := (hk _ (c'.rest.length + 1)).follows
      (show k (c.rest.length + 1) c = .ok (b, _) from h)
    obtain rfl := Cursor.eq_of_skip_eq hn
    exact hagrees (Nat.lt_succ_of_le hc'.enough) c' hc'

instance follows_readElement (visible : Bool) :
    Follows limit (readElement t visible) (readElement t visible) :=
  follows_nesting_bind _ (follows_readElementWith t visible)

instance follows_readAnnotationUses (visible : Bool) :
    Follows limit (readAnnotationUses t visible) (readAnnotationUses t visible) := by
  refine follows_nesting_bind _ fun fuel fuel' => ?_
  have := follows_readElementWith t visible fuel fuel'
  unfold readAnnotationUse
  infer_instance

/-! ## Instructions -/

instance follows_readWidened (start start' : Nat) :
    Follows limit (readWidened start) (readWidened start') := by
  unfold readWidened
  refine @follows_bind _ _ _ _ _ _ _ _ fun code => ?_
  split <;> infer_instance

instance follows_readTableSwitch (offset start start' : Nat) :
    Follows limit (readTableSwitch offset start) (readTableSwitch offset start') := by
  unfold readTableSwitch
  infer_instance

instance follows_readLookupSwitch (offset start start' : Nat) :
    Follows limit (readLookupSwitch offset start) (readLookupSwitch offset start') := by
  unfold readLookupSwitch
  infer_instance

instance follows_readCallSite (start start' : Nat) :
    Follows limit (readCallSite t start) (readCallSite t start') := by
  unfold readCallSite
  refine @follows_bind _ _ _ _ _ _ _ _ fun i => @follows_bind _ _ _ _ _ _ _ _ fun e => ?_
  split
  · refine @follows_bind _ _ _ _ _ _ _ _ fun _ => @follows_bind _ _ _ _ _ _ _ _ fun member => ?_
    split
    split <;> infer_instance
  · infer_instance

instance follows_readOperands (op : Opcode) (offset start start' : Nat) :
    Follows limit (readOperands t op offset start) (readOperands t op offset start') := by
  unfold readOperands
  split <;> try infer_instance
  split <;> infer_instance

instance follows_readInstruction (offset : Nat) :
    Follows limit (readInstruction t offset) (readInstruction t offset) := by
  unfold readInstruction
  refine @follows_position_bind _ _ _ _ fun start start' => ?_
  refine @follows_bind _ _ _ _ _ _ _ _ fun code => ?_
  split <;> infer_instance

/-! ## Tables of code -/

instance follows_readLine : Follows limit readLine readLine := by
  unfold readLine
  infer_instance

instance follows_readVariable : Follows limit (readVariable t) (readVariable t) := by
  unfold readVariable
  infer_instance

instance follows_readType : Follows limit (readType t) (readType t) := by
  unfold readType
  refine @follows_position_bind _ _ _ _ fun start start' => ?_
  refine @follows_bind _ _ _ _ _ _ _ _ fun code => ?_
  split <;> infer_instance

instance follows_readFrame : Follows limit (readFrame t) (readFrame t) := by
  unfold readFrame
  infer_instance

instance follows_readStackMap : Follows limit (readStackMap t) (readStackMap t) := by
  unfold readStackMap
  infer_instance

instance follows_readCodeAttribute (name : Text) (length : Nat) (tables : CodeTables) :
    Follows limit (readCodeAttribute t name length tables) (readCodeAttribute t name length tables) := by
  unfold readCodeAttribute
  infer_instance

/-! ## Attributes -/

/-- An attribute is its name, its length, and a content of that length. -/
theorem attribute_eq_ok_iff {read : Text → Nat → σ → Decoder σ}
    (hread : ∀ name length s, Follows 0 (read name length s) (read name length s)) {s s' : σ}
    {c c₁ : Cursor} :
    attribute_ t read s c = .ok (s', c₁) ↔ ∃ i name length, u2 c = .ok (i, c.skip 2) ∧
      t.utf8 i (c.skip 2) = .ok (name, c.skip 2) ∧ u4 (c.skip 2) = .ok (length, c.skip 6) ∧
      length ≤ (c.skip 6).rest.length ∧ c₁ = (c.skip 6).skip length ∧
      read name length s (c.skip 6) = .ok (s', (c.skip 6).skip length) := by
  constructor
  · intro h
    obtain ⟨i, c₂, hi, h⟩ := bind_eq_ok_iff.1 h
    obtain rfl := skip_of_unsigned hi
    obtain ⟨name, c₃, hname, h⟩ := bind_eq_ok_iff.1 h
    obtain rfl := Table.eq_of_utf8 hname
    obtain ⟨length, c₄, hlength, h⟩ := bind_eq_ok_iff.1 h
    obtain rfl := skip_of_unsigned hlength
    rw [Cursor.skip_skip] at hlength h
    obtain ⟨start, _, ⟨⟩, h⟩ := bind_eq_ok_iff.1 h
    obtain ⟨_, c₅, hneed, h⟩ := bind_eq_ok_iff.1 h
    obtain ⟨hle, rfl⟩ := need_eq_ok hneed
    obtain ⟨s₁, c₆, hs, h⟩ := bind_eq_ok_iff.1 h
    obtain ⟨count, rfl, -⟩ := (hread name length s).follows hs
    obtain ⟨stop, _, ⟨⟩, h⟩ := bind_eq_ok_iff.1 h
    split at h
    · next hstop =>
      cases h
      obtain rfl : count = length := Nat.add_left_cancel hstop
      exact ⟨i, name, count, hi, hname, hlength, hle, rfl, hs⟩
    · obtain ⟨_, _, ⟨⟩, -⟩ := bind_eq_ok_iff.1 h
  · rintro ⟨i, name, length, hi, hname, hlength, hle, rfl, hs⟩
    refine bind_eq_ok_iff.2 ⟨i, _, hi, bind_eq_ok_iff.2 ⟨name, _, hname, ?_⟩⟩
    refine bind_eq_ok_iff.2 ⟨length, _, hlength, bind_eq_ok_iff.2 ⟨_, _, rfl, ?_⟩⟩
    refine bind_eq_ok_iff.2 ⟨(), _, Reads.need hle, bind_eq_ok_iff.2 ⟨s', _, hs, ?_⟩⟩
    refine bind_eq_ok_iff.2 ⟨_, _, rfl, ?_⟩
    exact congrFun (if_pos rfl) _

instance follows_attributes (read : Text → Nat → σ → Decoder σ)
    [hread : ∀ limit name length s, Follows limit (read name length s) (read name length s)] (s : σ) :
    Follows limit (attributes t read s) (attributes t read s) := by
  have hone (s : σ) : Follows limit (attribute_ t read s) (attribute_ t read s) := by
    refine ⟨fun {c c₁ s'} h => ?_⟩
    obtain ⟨i, name, length, hi, hname, hlength, hle, rfl, hs⟩ := (attribute_eq_ok_iff t (hread 0)).1 h
    refine ⟨6 + length, c.skip_skip 6 length, fun _ c' hc' => ?_⟩
    rw [← c'.skip_skip 6 length]
    have hhead : c.Agrees c' (2 + 4) := hc'.mono (Nat.le_add_right 6 length)
    refine (attribute_eq_ok_iff t (hread 0)).2 ⟨i, name, length, ?_, ?_, ?_, hc'.right.enough, rfl, ?_⟩
    · exact follows_u2.eq_ok hi (hhead.mono (by decide))
    · exact (Table.follows_utf8 t i).eq_ok_here hname _
    · rw [← c.skip_skip 2 4] at hlength
      rw [← c'.skip_skip 2 4]
      exact follows_u4.eq_ok hlength hhead.right
    · exact (hread _ name length s).eq_ok hs hc'.right
  have hcount (count : Nat) (s : σ) :
      Follows limit (attributeCount t read count s) (attributeCount t read count s) := by
    induction count generalizing s with
    | zero => exact follows_pure _
    | succ count ih =>
      unfold attributeCount
      infer_instance
  unfold attributes
  infer_instance

/-! ## Code -/

/-- Checks of a list pass over nothing if each one of them does. -/
theorem eq_of_forM {l : List α} {check : α → Decoder PUnit} {c c₁ : Cursor} {u : PUnit}
    (hcheck : ∀ a c c₁ u, check a c = .ok (u, c₁) → c₁ = c) (h : l.forM check c = .ok (u, c₁)) :
    c₁ = c := by
  induction l generalizing c with
  | nil =>
    cases h
    rfl
  | cons a l ih =>
    obtain ⟨_, c₂, ha, hl⟩ := bind_eq_ok_iff.1 (show (check a >>= fun _ => l.forM check) c = _ from h)
    obtain rfl := hcheck _ _ _ _ ha
    exact ih hl

/-- Decoders for the elements of a list pass over nothing if each one of them does. -/
theorem eq_of_mapM {l : List α} {f : α → Decoder β} {bs : List β} {c c₁ : Cursor}
    (hf : ∀ a c c₁ b, f a c = .ok (b, c₁) → c₁ = c) (h : l.mapM f c = .ok (bs, c₁)) : c₁ = c := by
  induction l generalizing c bs with
  | nil =>
    rw [List.mapM_nil] at h
    cases h
    rfl
  | cons a l ih =>
    rw [List.mapM_cons] at h
    obtain ⟨b, c₂, ha, hrest⟩ := bind_eq_ok_iff.1 h
    obtain ⟨bs, c₃, hl, hdone⟩ := bind_eq_ok_iff.1 hrest
    cases hdone
    exact (ih hl).trans (hf _ _ _ _ ha)

theorem eq_of_unless {p : Prop} [Decidable p] {cause : Malformed} {offset : Nat} {c c₁ : Cursor}
    {u : Unit}
    (h : (do unless p do refuse cause offset : Decoder Unit) c = .ok (u, c₁)) : c₁ = c := by
  split at h <;> cases h
  rfl

/-- The instructions from an offset on. The induction is on the instructions that are left. -/
theorem agrees_of_readOperationsOnto {start length fuel offset : Nat}
    {acc code : List (Nat × Instruction Int)}
    {c c₁ : Cursor} (hoffset : c.position = start + offset)
    (h : readOperationsOnto t start length fuel acc c = .ok (code, c₁)) :
    ∃ count, c₁ = c.skip count ∧ ∀ start' c', c'.position = start' + offset → c.Agrees c' count →
      readOperationsOnto t start' length fuel acc c' = .ok (code, c'.skip count) := by
  induction fuel generalizing offset acc c with
  | zero =>
    cases h
    exact ⟨0, rfl, fun _ _ _ _ => rfl⟩
  | succ fuel ih =>
    obtain ⟨_, _, ⟨⟩, h⟩ := bind_eq_ok_iff.1 h
    obtain rfl : c.position - start = offset := by omega
    split at h
    · next hlt =>
      obtain ⟨i, c₂, hi, h⟩ := bind_eq_ok_iff.1 h
      obtain ⟨m, rfl⟩ := exists_skip _ hi
      have hnext : (c.skip m).position = start + (c.position - start + m) := by
        show c.position + m = _
        omega
      obtain ⟨n, rfl, hn⟩ := ih hnext h
      refine ⟨m + n, c.skip_skip m n, fun start' c' hoffset' hc' => ?_⟩
      -- how far into the code an instruction is does not depend on where the code begins
      have hsame : c'.position - start' = c.position - start := by omega
      refine bind_eq_ok_iff.2 ⟨c'.position, c', rfl, ?_⟩
      rw [hsame]
      refine (congrFun (if_pos hlt) c').trans (bind_eq_ok_iff.2 ⟨i, c'.skip m, ?_, ?_⟩)
      · exact (follows_readInstruction t _).eq_ok hi (hc'.mono (Nat.le_add_right m n))
      · rw [← c'.skip_skip m n]
        exact hn start' (c'.skip m) (by show c'.position + m = _; omega) hc'.right
    · next hlt =>
      cases h
      refine ⟨0, rfl, fun start' c' hoffset' _ => ?_⟩
      have hsame : c'.position - start' = c₁.position - start := by omega
      refine bind_eq_ok_iff.2 ⟨c'.position, c', rfl, ?_⟩
      rw [hsame]
      exact congrFun (if_neg hlt) c'

/-- The instructions of a code take up its length, and reading them looks at no byte behind that: in
any other input that agrees with this one for so many bytes they are read as the same. -/
theorem agrees_of_readOperations {length : Nat} {code : List (Nat × Instruction Int)} {c c₁ : Cursor}
    (h : readOperations t length c = .ok (code, c₁)) : c₁ = c.skip length ∧
      ∀ c', c.Agrees c' length → readOperations t length c' = .ok (code, c'.skip length) := by
  unfold readOperations at h
  obtain ⟨_, _, ⟨⟩, h⟩ := bind_eq_ok_iff.1 h
  obtain ⟨found, c₂, hfound, h⟩ := bind_eq_ok_iff.1 h
  obtain ⟨count, rfl, hcount⟩ := agrees_of_readOperationsOnto t (Nat.add_zero _).symm hfound
  obtain ⟨_, _, ⟨⟩, h⟩ := bind_eq_ok_iff.1 h
  split at h
  · next hend =>
    obtain rfl : count = length := Nat.add_left_cancel hend
    obtain ⟨_, c₃, hcheck, h⟩ := bind_eq_ok_iff.1 h
    cases h
    have hhere : c₁ = c.skip count :=
      eq_of_forM (fun p c c₁ u h => eq_of_forM (fun target c c₁ u h => eq_of_unless h) h) hcheck
    refine ⟨hhere, fun c' hc' => ?_⟩
    subst hhere
    have hchecks : Follows 1 (checkTargets c.position count code)
        (checkTargets c'.position count code) := by
      unfold checkTargets
      infer_instance
    refine bind_eq_ok_iff.2 ⟨c'.position, c', rfl, bind_eq_ok_iff.2 ⟨code, c'.skip count, ?_, ?_⟩⟩
    · exact hcount c'.position c' (Nat.add_zero _).symm hc'
    refine bind_eq_ok_iff.2 ⟨_, _, rfl, (congrFun (if_pos rfl) _).trans ?_⟩
    refine bind_eq_ok_iff.2 ⟨(), c'.skip count, ?_, rfl⟩
    exact hchecks.eq_ok_here hcheck _
  · obtain ⟨_, _, hrefuse, -⟩ := bind_eq_ok_iff.1 h
    cases hrefuse

/-- Each instruction of a code stands as many bytes behind its start as its offset says. -/
theorem exists_of_mem_readOperations {length : Nat} {code : List (Nat × Instruction Int)} {c c' : Cursor}
    (h : readOperations t length c = .ok (code, c')) {p : Nat × Instruction Int} (hp : p ∈ code) :
    ∃ k, readInstruction t p.1 (c.skip p.1) = .ok (p.2, k) := by
  have honto (fuel : Nat) : ∀ (n : Nat) (acc : List (Nat × Instruction Int)) (c₁ : Cursor),
      (∀ p ∈ acc, ∃ k, readInstruction t p.1 (c.skip p.1) = .ok (p.2, k)) →
      readOperationsOnto t c.position length fuel acc (c.skip n) = .ok (code, c₁) →
        ∃ k, readInstruction t p.1 (c.skip p.1) = .ok (p.2, k) := by
    induction fuel with
    | zero =>
      intro n acc c₁ hacc h
      cases h
      exact hacc p (List.mem_reverse.1 hp)
    | succ fuel ih =>
      intro n acc c₁ hacc h
      obtain ⟨_, _, ⟨⟩, h⟩ := bind_eq_ok_iff.1 h
      have hoffset : (c.skip n).position - c.position = n := Nat.add_sub_cancel_left ..
      rw [hoffset] at h
      split at h
      · obtain ⟨i, c₂, hi, h⟩ := bind_eq_ok_iff.1 h
        obtain ⟨m, rfl⟩ := exists_skip _ hi
        rw [c.skip_skip] at h
        exact ih (n + m) ((n, i) :: acc) c₁ (List.forall_mem_cons.2 ⟨⟨_, hi⟩, hacc⟩) h
      · cases h
        exact hacc p (List.mem_reverse.1 hp)
  obtain ⟨_, _, ⟨⟩, h⟩ := bind_eq_ok_iff.1 h
  obtain ⟨found, c₁, hfound, h⟩ := bind_eq_ok_iff.1 h
  obtain ⟨_, _, ⟨⟩, h⟩ := bind_eq_ok_iff.1 h
  split at h
  · obtain ⟨_, c₂, -, h⟩ := bind_eq_ok_iff.1 h
    cases h
    refine honto length 0 [] c₁ (by simp) ?_
    rw [show c.skip 0 = c from rfl]
    exact hfound
  · obtain ⟨_, _, hrefuse, -⟩ := bind_eq_ok_iff.1 h
    cases hrefuse

instance follows_readOperations (length : Nat) :
    Follows limit (readOperations t length) (readOperations t length) where
  follows h := ⟨length, (agrees_of_readOperations t h).1, fun _ => (agrees_of_readOperations t h).2⟩

theorem eq_of_check {r : RawCode} {seen : List (Int × Label)} {c c₁ : Cursor} {u : Unit}
    (h : r.check seen c = .ok (u, c₁)) : c₁ = c := by
  obtain ⟨_, c₂, hframes, hrest⟩ := bind_eq_ok_iff.1 h
  obtain ⟨_, c₃, hlabels, hlines⟩ := bind_eq_ok_iff.1 hrest
  have hc₂ := eq_of_forM (fun _ _ _ _ h => eq_of_unless h) hframes
  have hc₃ := eq_of_forM (fun _ _ _ _ h => eq_of_unless h) hlabels
  have hc₁ := eq_of_forM (fun _ _ _ _ h => eq_of_forM (fun _ _ _ _ h => eq_of_unless h) h) hlines
  exact hc₁.trans (hc₃.trans hc₂)

theorem eq_of_lineTables {r : RawCode} {woven : Weaving} {tables : List (List Int)} {c c₁ : Cursor}
    (h : r.lineTables woven c = .ok (tables, c₁)) : c₁ = c := by
  refine eq_of_mapM (fun table c c₁ markers h => eq_of_mapM (fun p c c₁ i h => ?_) h) h
  generalize woven.markerOf[p.1]? = found at h
  cases found <;> cases h
  rfl

theorem eq_of_assemble {r : RawCode} {registry : Label.Registry} {code : Code} {c c₁ : Cursor}
    (h : r.assemble registry c = .ok (code, c₁)) : c₁ = c := by
  unfold RawCode.assemble at h
  generalize r.label.run registry = result at h
  obtain ⟨labelled, registry⟩ := result
  obtain ⟨_, c₂, hcheck, hrest⟩ := bind_eq_ok_iff.1 h
  obtain ⟨tables, c₃, htables, hdone⟩ := bind_eq_ok_iff.1 hrest
  cases hdone
  exact (eq_of_lineTables htables).trans (eq_of_check hcheck)

/-- Where the code starts in its file makes no difference to what it is put together to. -/
theorem follows_assemble (r : RawCode) (start : Nat) (registry : Label.Registry) :
    Follows limit (r.assemble registry) ({ r with start }.assemble registry) := by
  have hoffsets : { r with start }.offsets = r.offsets := rfl
  have hlines : { r with start }.lines = r.lines := rfl
  have hlabel : { r with start }.label = r.label := rfl
  have hmarkers : { r with start }.markers = r.markers := rfl
  have hweave : { r with start }.weave = r.weave := rfl
  have hcheck (seen : List (Int × Label)) : Follows limit (r.check seen)
      ({ r with start }.check seen) := by
    simp only [RawCode.check, hoffsets, hlines]
    infer_instance
  have htables (w : Weaving) : Follows limit (r.lineTables w) ({ r with start }.lineTables w) := by
    simp only [RawCode.lineTables, hlines]
    refine @follows_mapM _ _ _ _ _ _ fun table => @follows_mapM _ _ _ _ _ _ fun p => ?_
    split <;> infer_instance
  simp only [RawCode.assemble, hlabel, hmarkers, hweave]
  generalize r.label.run registry = result
  obtain ⟨labelled, registry⟩ := result
  dsimp only
  infer_instance

/-- What is read elsewhere leaves the place as it is. -/
theorem elsewhere_eq_ok_iff {d : Decoder α} {a : α} {c c' here : Cursor} :
    elsewhere c d here = .ok (a, c') ↔ c' = here ∧ ∃ c₁, d c = .ok (a, c₁) := by
  constructor
  · intro h
    obtain ⟨_, _, ⟨⟩, h⟩ := bind_eq_ok_iff.1 h
    obtain ⟨_, _, ⟨⟩, h⟩ := bind_eq_ok_iff.1 h
    obtain ⟨a', c₁, ha, h⟩ := bind_eq_ok_iff.1 h
    cases h
    exact ⟨rfl, c₁, ha⟩
  · rintro ⟨rfl, c₁, ha⟩
    refine bind_eq_ok_iff.2 ⟨_, _, rfl, bind_eq_ok_iff.2 ⟨_, _, rfl, ?_⟩⟩
    exact bind_eq_ok_iff.2 ⟨a, c₁, ha, rfl⟩

instance follows_readHandler : Follows limit (readHandler t) (readHandler t) := by
  unfold readHandler
  infer_instance

/-- A code attribute that stands between two places. -/
structure RawCode.IsBetween (t : Table) (r : RawCode) (c c₁ : Cursor) : Prop where
  maxima : ∃ maxStack maxLocals, u2 c = .ok (maxStack, c.skip 2) ∧
    u2 (c.skip 2) = .ok (maxLocals, (c.skip 2).skip 2) ∧ r.maxima = ⟨maxStack, maxLocals⟩
  length : u4 ((c.skip 2).skip 2) = .ok (r.length, ((c.skip 2).skip 2).skip 4)
  start : r.start = c.position + 8
  enough : r.length ≤ (((c.skip 2).skip 2).skip 4).rest.length
  instructions : ∃ c', readOperations t r.length (((c.skip 2).skip 2).skip 4) = .ok (r.instructions, c')
  tables : ∃ c', listOf (readHandler t) ((((c.skip 2).skip 2).skip 4).skip r.length) =
      .ok (r.handlers, c') ∧
    attributes t (readCodeAttribute t) {} c' = .ok (r.tables, c₁)

/-- What is read as a code attribute, part by part: the sizes, the length, the place of the
instructions, and behind that place the handlers and the tables. All later work on code starts from
this and never from the decoder. -/
theorem readRawCode_eq_ok_iff {r : RawCode} {c c₁ : Cursor} :
    readRawCode t c = .ok (r, c₁) ↔ r.IsBetween t c c₁ := by
  constructor
  · intro h
    obtain ⟨maxStack, _, hstack, h⟩ := bind_eq_ok_iff.1 h
    obtain rfl := skip_of_unsigned hstack
    obtain ⟨maxLocals, _, hlocals, h⟩ := bind_eq_ok_iff.1 h
    obtain rfl := skip_of_unsigned hlocals
    obtain ⟨length, _, hlength, h⟩ := bind_eq_ok_iff.1 h
    obtain rfl := skip_of_unsigned hlength
    obtain ⟨code, _, hcode, h⟩ := bind_eq_ok_iff.1 h
    cases hcode
    obtain ⟨_, middle, hneed, h⟩ := bind_eq_ok_iff.1 h
    obtain ⟨hle, rfl⟩ := need_eq_ok hneed
    obtain ⟨_, after, hskip, h⟩ := bind_eq_ok_iff.1 h
    cases hskip
    obtain ⟨handlers, c₂, hhandlers, h⟩ := bind_eq_ok_iff.1 h
    obtain ⟨tables, c₃, htables, h⟩ := bind_eq_ok_iff.1 h
    -- the instructions are read from where the code starts, and reading goes on behind the tables
    obtain ⟨instructions, _, hahead, hcode⟩ := bind_eq_ok_iff.1 h
    obtain ⟨rfl, c₄, hfound⟩ := elsewhere_eq_ok_iff.1 hahead
    cases hcode
    exact ⟨⟨maxStack, maxLocals, hstack, hlocals, rfl⟩, hlength, rfl, hle, ⟨c₄, hfound⟩,
      c₂, hhandlers, htables⟩
  · rintro ⟨⟨maxStack, maxLocals, hstack, hlocals, hmaxima⟩, hlength, hstart, hle, ⟨c₄, hfound⟩,
      c₂, hhandlers, htables⟩
    refine bind_eq_ok_iff.2 ⟨maxStack, _, hstack, bind_eq_ok_iff.2 ⟨maxLocals, _, hlocals, ?_⟩⟩
    refine bind_eq_ok_iff.2 ⟨r.length, _, hlength, bind_eq_ok_iff.2 ⟨_, _, rfl, ?_⟩⟩
    refine bind_eq_ok_iff.2 ⟨(), _, Reads.need hle, bind_eq_ok_iff.2 ⟨_, _, rfl, ?_⟩⟩
    refine bind_eq_ok_iff.2 ⟨r.handlers, c₂, hhandlers, bind_eq_ok_iff.2 ⟨r.tables, c₁, htables, ?_⟩⟩
    refine bind_eq_ok_iff.2 ⟨r.instructions, c₁, elsewhere_eq_ok_iff.2 ⟨rfl, c₄, hfound⟩, ?_⟩
    rw [← hmaxima]
    obtain ⟨maxima, start, length, handlers, instructions, tables⟩ := r
    obtain rfl : start = c.position + 8 := hstart
    rfl

/-- A code attribute; it says where in its file the code starts. -/
theorem agrees_of_readRawCode {r : RawCode} {c c₁ : Cursor} (h : readRawCode t c = .ok (r, c₁)) :
    ∃ count, c₁ = c.skip count ∧ ∀ c', c.Agrees c' count →
      readRawCode t c' = .ok ({ r with start := c'.position + 8 }, c'.skip count) := by
  obtain ⟨⟨maxStack, maxLocals, hstack, hlocals, hmaxima⟩, hlength, -, -, ⟨c₂, hfound⟩, c₃, hhandlers,
    htables⟩ := (readRawCode_eq_ok_iff t).1 h
  obtain ⟨m, rfl⟩ := exists_skip _ hhandlers
  obtain ⟨n, rfl⟩ := exists_skip _ htables
  refine ⟨2 + (2 + (4 + (r.length + (m + n)))), by simp only [← Cursor.skip_skip], fun c' hc' => ?_⟩
  have hc₁ := hc'.right
  have hc₂ := hc₁.right
  have hc₃ := hc₂.right
  have hc₄ := hc₃.right
  have hcode := hc₃.mono (Nat.le_add_right r.length (m + n))
  have hhandlers' := (follows_listOf (readHandler t) (readHandler t)).eq_ok hhandlers
    (hc₄.mono (Nat.le_add_right m n))
  refine (readRawCode_eq_ok_iff t).2 ⟨⟨maxStack, maxLocals, ?_, ?_, hmaxima⟩, ?_, rfl, hcode.enough,
    ⟨_, (agrees_of_readOperations t hfound).2 _ hcode⟩, _, hhandlers', ?_⟩
  · exact follows_u2.eq_ok hstack (hc'.mono (Nat.le_add_right ..))
  · exact follows_u2.eq_ok hlocals (hc₁.mono (Nat.le_add_right ..))
  · exact follows_u4.eq_ok hlength (hc₂.mono (Nat.le_add_right ..))
  · simp only [← Cursor.skip_skip]
    exact (follows_attributes t (readCodeAttribute t) {}).eq_ok htables hc₄.right

instance follows_readCode (registry : Label.Registry) :
    Follows limit (readCode t registry) (readCode t registry) where
  follows := by
    intro c c₂ code h
    obtain ⟨r, c₁, hr, h⟩ := bind_eq_ok_iff.1 h
    obtain ⟨m, rfl, hm⟩ := agrees_of_readRawCode t hr
    obtain rfl := eq_of_assemble h
    refine ⟨m, rfl, fun _ c' hc' => bind_eq_ok_iff.2
      ⟨{ r with start := c'.position + 8 }, c'.skip m, ?_, ?_⟩⟩
    · exact hm c' hc'
    · exact (follows_assemble r _ registry).eq_ok_here h _

/-! ## Methods -/

instance follows_readParameterCount (name : Text) (arity : Nat) :
    Follows limit (readParameterCount name arity) (readParameterCount name arity) := by
  unfold readParameterCount
  infer_instance

instance follows_readParametersOnto (read : Parameter → Decoder Parameter)
    [∀ p, Follows limit (read p) (read p)] (ps acc : List Parameter) :
    Follows limit (readParametersOnto read ps acc) (readParametersOnto read ps acc) := by
  induction ps generalizing acc with
  | nil => exact follows_pure _
  | cons p ps ih =>
    unfold readParametersOnto
    infer_instance

instance follows_readFieldAttribute (name : Text) (length : Nat) (f : Field) :
    Follows limit (readFieldAttribute t name length f) (readFieldAttribute t name length f) := by
  unfold readFieldAttribute
  infer_instance

instance follows_readInnerClass : Follows limit (readInnerClass t) (readInnerClass t) := by
  unfold readInnerClass
  infer_instance

instance follows_readEnclosingMethod :
    Follows limit (readEnclosingMethod t) (readEnclosingMethod t) := by
  unfold readEnclosingMethod
  infer_instance

instance follows_readClassAttribute (name : Text) (length : Nat) (c : Class) :
    Follows limit (readClassAttribute t name length c) (readClassAttribute t name length c) := by
  unfold readClassAttribute
  infer_instance

instance follows_readMethodAttribute (name : Text) (length : Nat) (m : Method) :
    Follows limit (readMethodAttribute t name length m) (readMethodAttribute t name length m) := by
  unfold readMethodAttribute readMethodCode readParameterAnnotations readMethodParameters
  infer_instance

end ClassTree.Decoding
