/-
# ClassTree.Proofs.StackMap — stack maps written and read

A verification type is read back with its names as they are stored, and an uninitialized one names
the code offset of its place. A frame is read back with the same types; when its distance from the
frame before does not fit into the tag, a short kind has become its extended kind.
-/
import ClassTree.Decoding.StackMap
import ClassTree.Encoding.StackMap
import ClassTree.Proofs.Encoding.Layout
import ClassTree.Proofs.Table

namespace ClassTree

open Decoding Encoding Encoder

/-! ## Types -/

/-- The type that is read back for a type; some types have no form that can be read. -/
def VerificationType.readAs? (g : Text → Text) (l : Layout) (v : VerificationType) :
    Option VerificationType :=
  match v.tag, v.payload with
  | 0, _ => some .top
  | 1, _ => some .integer
  | 2, _ => some .float
  | 3, _ => some .double
  | 4, _ => some .long
  | 5, _ => some .null
  | 6, _ => some .uninitializedThis
  | 7, .name n => some (.object (some (g n)))
  | 8, .site (.position p) => some (.uninitialized (.position (l.offset p)))
  | 8, .site (.label label) => l.labels[label]?.map fun offset => .uninitialized (.position offset)
  | _, _ => none

/-- The tags of the types that exist. -/
def VerificationType.HasTag (v : VerificationType) : Prop := v.tag ≤ 8

namespace Encoding

variable {g : Text → Text} {t : Table} {P : Pool} {l : Layout} {total : Prop}

/-- The index of an object is that of its class, whose name has to be there. -/
theorem exists_of_fixed_objectIndex (ht : Backs g t P) {payload : Payload} {bytes : Bytes}
    (h : Fixed P (objectIndex payload) bytes) :
    ∃ n j, payload = .name n ∧ Bytes.unsigned? 2 (j : Nat) = some bytes ∧
      Reads (t.className j) [] (some (g n)) := by
  have hirregular {tag : Int} {operands : List Constant} {i : Nat}
      (hi : Fixed P (pooled (Pool.add (.irregular tag operands))) i)
      (hkey : (Pool.Entry.irregular tag operands).key = .irregular tag operands) : False := by
    rw [fixed_add_iff, hkey, ht.regular] at hi
    cases hi
  unfold objectIndex at h
  split at h
  · next n =>
    obtain ⟨i, hi, hbytes⟩ := fixed_index_iff.1 h
    obtain ⟨s, hs, hread⟩ := ht.reads_className hi
    cases hs
    exact ⟨n, i, rfl, hbytes, hread⟩
  · obtain ⟨i, hi, -⟩ := fixed_index_iff.1 h
    obtain ⟨s, hs, -⟩ := ht.reads_className hi
    cases hs
  · obtain ⟨i, hi, -⟩ := fixed_index_iff.1 h
    obtain ⟨j, hj, -⟩ := fixed_pooled_bind_iff.1 hi
    exact (hirregular hj rfl).elim
  · obtain ⟨i, hi, -⟩ := fixed_index_iff.1 h
    obtain ⟨j, hj, -⟩ := fixed_pooled_bind_iff.1 hi
    exact (hirregular hj rfl).elim

/-- The offset of the place that an uninitialized type names. -/
def siteOffset (l : Layout) (payload : Payload) : Result Nat :=
  match payload with
  | .site (.position p) => .ok (l.offset p)
  | .site (.label label) => l.resolve label
  | _ => .error (.undefined .kind)

/-- A type is its tag and, for two of the tags, an index or an offset. -/
theorem fixed_verificationType_iff {v : VerificationType} {bytes : Bytes} :
    Fixed P (verificationType l v) bytes ↔
      ∃ b : UInt8, v.tag = b.toNat ∧
        ((b.toNat = 7 ∧ ∃ i, Fixed P (objectIndex v.payload) i ∧ bytes = [b] ++ i) ∨
          (b.toNat = 8 ∧ ∃ offset i, siteOffset l v.payload = .ok offset ∧
            Bytes.unsigned? 2 (offset : Nat) = some i ∧ bytes = [b] ++ i) ∨
          (b.toNat ≠ 7 ∧ b.toNat ≠ 8 ∧ bytes = [b])) := by
  have heq : verificationType l v = (do
      let tag ← u1 v.tag
      if v.tag = 7 then return tag ++ (← objectIndex v.payload)
      else if v.tag = 8 then return tag ++ (← u2 (← siteOffset l v.payload))
      else return tag) := by
    unfold verificationType siteOffset
    refine bind_congr fun tag => ?_
    split
    · rfl
    · split
      · generalize v.payload = payload
        rcases payload with _ | n | label | place
        · exact (lift_error_bind _ _).symm
        · exact (lift_error_bind _ _).symm
        · rfl
        · exact (lift_ok_bind _ _).symm
      · rfl
  rw [heq]
  simp only [fixed_bind_iff, fixed_u1_iff, Bytes.unsigned?_one_eq_some_iff]
  constructor
  · rintro ⟨tag, ⟨b, rfl, hb⟩, h⟩
    refine ⟨b, hb, ?_⟩
    rw [hb] at h
    split at h
    · next h7 =>
      simp only [fixed_bind_iff, fixed_pure_iff] at h
      exact .inl ⟨by omega, h⟩
    · split at h
      · next h8 =>
        simp only [fixed_bind_iff, fixed_lift_iff, fixed_u2_iff, fixed_pure_iff] at h
        obtain ⟨offset, hoffset, i, hi, rfl⟩ := h
        exact .inr (.inl ⟨by omega, offset, i, hoffset, hi, rfl⟩)
      · next h7 h8 =>
        rw [fixed_pure_iff] at h
        exact .inr (.inr ⟨by omega, by omega, h⟩)
  · rintro ⟨b, hb, h⟩
    refine ⟨[b], ⟨b, rfl, hb⟩, ?_⟩
    rw [hb]
    rcases h with ⟨h7, h⟩ | ⟨h8, offset, i, hoffset, hi, rfl⟩ | ⟨h7, h8, rfl⟩
    · rw [if_pos (by omega)]
      simp only [fixed_bind_iff, fixed_pure_iff]
      exact h
    · rw [if_neg (by omega), if_pos (by omega)]
      simp only [fixed_bind_iff, fixed_lift_iff, fixed_u2_iff, fixed_pure_iff]
      exact ⟨offset, hoffset, i, hi, rfl⟩
    · rw [if_neg (by omega), if_neg (by omega), fixed_pure_iff]

theorem parses_readType (ht : Backs g t P) {v : VerificationType} {bytes : Bytes}
    (htag : total → v.HasTag) (h : Fixed P (verificationType l v) bytes) :
    Parses total (readType t) bytes fun v' => v.readAs? g l = some v' := by
  obtain ⟨b, hb, h⟩ := fixed_verificationType_iff.1 h
  unfold readType
  refine .at_position fun start => ?_
  rcases h with ⟨h7, i, hi, rfl⟩ | ⟨h8, offset, i, hoffset, hi, rfl⟩ | ⟨h7, h8, rfl⟩
  · refine .of_reads (Reads.byte b) ?_
    rw [h7] at hb ⊢
    obtain ⟨n, j, hn, hj, hread⟩ := exists_of_fixed_objectIndex ht hi
    refine ((Reads.of_unsigned? hj).bind_nil (hread.map VerificationType.object)).parses ?_
    unfold VerificationType.readAs?
    rw [hb, hn]
    rfl
  · refine .of_reads (Reads.byte b) ?_
    rw [h8] at hb ⊢
    refine ((Reads.of_unsigned? hi).map
      fun n => VerificationType.uninitialized (.position n)).parses ?_
    unfold VerificationType.readAs?
    rw [hb]
    unfold siteOffset at hoffset
    split at hoffset
    · next p hp =>
      cases hoffset
      rw [hp]
      rfl
    · next label hlabel =>
      rw [hlabel]
      show l.labels[label]?.map _ = _
      unfold Layout.resolve at hoffset
      split at hoffset
      · next found hfound =>
        cases hoffset
        rw [hfound]
        rfl
      · cases hoffset
    · cases hoffset
  · refine .cast (show _ = [b] ++ [] from rfl) (.of_reads (Reads.byte b) ?_)
    by_cases hle : b.toNat ≤ 8
    · have hcases : b.toNat = 0 ∨ b.toNat = 1 ∨ b.toNat = 2 ∨ b.toNat = 3 ∨ b.toNat = 4 ∨
          b.toNat = 5 ∨ b.toNat = 6 := by omega
      unfold VerificationType.readAs?
      rcases hcases with hn | hn | hn | hn | hn | hn | hn <;> rw [hb, hn] <;> exact .pure rfl
    · obtain ⟨k, hk⟩ : ∃ k, b.toNat = k + 9 := ⟨b.toNat - 9, by omega⟩
      rw [hk]
      refine .fail (fun htotal => ?_) _ _
      have hle' : v.tag ≤ 8 := htag htotal
      omega

end Encoding

/-! ## Frames -/

/-- A frame has one to three locals where it appends or chops some. -/
def Frame.HasShape (f : Frame) : Prop :=
  match f.kind with
  | .chop => 1 ≤ f.chop ∧ f.chop ≤ 3
  | .append => 1 ≤ f.locals.length ∧ f.locals.length ≤ 3
  | _ => True

/-- Types that are read back for types. -/
def AreReadAs (g : Text → Text) (l : Layout) (vs vs' : List VerificationType) : Prop :=
  List.Forall₂ (fun v v' => v.readAs? g l = some v') vs vs'

/-- A frame that is read back for a frame: a short kind is kept for a short distance only. -/
inductive Frame.IsReadAs (g : Text → Text) (l : Layout) (distance : Nat) : Frame → Frame → Prop
  | same (locals stack : List VerificationType) (chop : Int) :
    IsReadAs g l distance ⟨.same, locals, stack, chop⟩
      ⟨if distance ≤ maxShortDistance then .same else .sameExtended, [], [], 0⟩
  | sameExtended (locals stack : List VerificationType) (chop : Int) :
    IsReadAs g l distance ⟨.sameExtended, locals, stack, chop⟩ ⟨.sameExtended, [], [], 0⟩
  | sameLocals1 {v v' : VerificationType} (locals stack : List VerificationType) (chop : Int)
    (hv : v.readAs? g l = some v') :
    IsReadAs g l distance ⟨.sameLocals1, locals, v :: stack, chop⟩
      ⟨if distance ≤ maxShortDistance then .sameLocals1 else .sameLocals1Extended, [], [v'], 0⟩
  | sameLocals1Extended {v v' : VerificationType} (locals stack : List VerificationType)
    (chop : Int) (hv : v.readAs? g l = some v') :
    IsReadAs g l distance ⟨.sameLocals1Extended, locals, v :: stack, chop⟩
      ⟨.sameLocals1Extended, [], [v'], 0⟩
  | chop (locals stack : List VerificationType) (chop : Int) :
    IsReadAs g l distance ⟨.chop, locals, stack, chop⟩ ⟨.chop, [], [], chop⟩
  | append {locals locals' : List VerificationType} (stack : List VerificationType) (chop : Int)
    (hlocals : AreReadAs g l locals locals') :
    IsReadAs g l distance ⟨.append, locals, stack, chop⟩ ⟨.append, locals', [], 0⟩
  | full {locals locals' stack stack' : List VerificationType} (chop : Int)
    (hlocals : AreReadAs g l locals locals') (hstack : AreReadAs g l stack stack') :
    IsReadAs g l distance ⟨.full, locals, stack, chop⟩ ⟨.full, locals', stack', 0⟩

/-- What follows on the distance of a frame. -/
def Decoding.readExtended (t : Table) (tag delta : Nat) : Decoder (Nat × Frame) := do
  if tag = 247 then return (delta, ⟨.sameLocals1Extended, [], [← readType t], 0⟩)
  else if tag < 251 then return (delta, ⟨.chop, [], [], 251 - tag⟩)
  else if tag = 251 then return (delta, ⟨.sameExtended, [], [], 0⟩)
  else if tag < 255 then
    return (delta, ⟨.append, ← Decoder.times (tag - 251) (readType t), [], 0⟩)
  else
    let locals ← Decoder.listOf (readType t)
    return (delta, ⟨.full, locals, ← Decoder.listOf (readType t), 0⟩)

namespace Encoding

variable {g : Text → Text} {t : Table} {P : Pool} {l : Layout} {total : Prop}

/-- The head of a frame whose distance stands behind the tag. -/
def tagged (distance : Nat) (tag : Int) : Encoder Bytes := do
  return (← u1 tag) ++ (← u2 distance)

/-- A frame with a distance of its own is parsed by parsing what follows on the distance. -/
theorem parses_tagged {distance : Nat} {tag : Int} {head bytes : Bytes}
    {Q : Nat × Frame → Prop} (hhead : Fixed P (tagged distance tag) head) (hge : 247 ≤ tag)
    (h : ∀ n : Nat, tag = n → Parses total (readExtended t n distance) bytes Q) :
    Parses total (readFrame t) (head ++ bytes) Q := by
  unfold tagged at hhead
  simp only [fixed_bind_iff, fixed_u1_iff, fixed_u2_iff, fixed_pure_iff,
    Bytes.unsigned?_one_eq_some_iff] at hhead
  obtain ⟨_, ⟨b, rfl, hb⟩, d, hd, rfl⟩ := hhead
  rw [List.append_assoc]
  unfold readFrame
  refine .at_position fun start => .of_reads (Reads.byte b) ?_
  dsimp only
  rw [if_neg (by omega), if_neg (by omega), if_neg (by omega)]
  exact .of_reads (Reads.of_unsigned? hd) (h b.toNat hb)

theorem parses_readTypes (ht : Backs g t P) {vs : List VerificationType} {parts : List Bytes}
    (htags : total → ∀ v ∈ vs, v.HasTag)
    (h : List.Forall₂ (fun v part => Fixed P (verificationType l v) part) vs parts) :
    List.Forall₂ (fun v part => Parses total (readType t) part fun v' => v.readAs? g l = some v')
      vs parts := by
  induction h with
  | nil => exact .nil
  | cons hpart _ ih =>
    refine .cons (parses_readType ht (fun htotal => htags htotal _ (by simp)) hpart) (ih ?_)
    exact fun htotal v hv => htags htotal v (by simp [hv])

/-- The head of a frame of a short kind. -/
def shortHead (distance : Nat) (short : Nat) (extended : Int) : Encoder Bytes :=
  if distance ≤ maxShortDistance then u1 (short + distance : Nat) else tagged distance extended

instance steady_tagged (distance : Nat) (tag : Int) : Steady (tagged distance tag) := by
  unfold tagged
  infer_instance

instance steady_shortHead (distance short : Nat) (extended : Int) :
    Steady (shortHead distance short extended) := by
  unfold shortHead
  infer_instance

/-- A frame with one stack item is its head and that item. -/
theorem frame_sameLocals1 {place : Text} {position distance : Nat}
    {locals stack : List VerificationType} {chop : Int} :
    frame l place position distance ⟨.sameLocals1, locals, stack, chop⟩ = (do
      let head ← shortHead distance 64 247
      return head ++ (← stackItem l ⟨.sameLocals1, locals, stack, chop⟩)) := by
  unfold frame shortHead tagged
  dsimp only
  split <;> rfl

/-- The stack item of a frame is the first one. -/
theorem exists_of_fixed_stackItem {f : Frame} {bytes : Bytes} (h : Fixed P (stackItem l f) bytes) :
    ∃ v rest, f.stack = v :: rest ∧ Fixed P (verificationType l v) bytes := by
  unfold stackItem at h
  split at h
  · next v rest hstack => exact ⟨v, rest, hstack, h⟩
  · exact absurd h not_fixed_throw

theorem exists_of_fixed_u1 {n : Nat} {bytes : Bytes} (h : Fixed P (u1 n) bytes) :
    ∃ b : UInt8, bytes = [b] ∧ b.toNat = n := by
  rw [fixed_u1_iff, Bytes.unsigned?_one_eq_some_iff] at h
  obtain ⟨b, rfl, hb⟩ := h
  exact ⟨b, rfl, by omega⟩

/-- A frame is read back as its kind is stored, at the distance that it was written for. The short
kinds have the distance in their tag; behind the other tags it is written out. -/
theorem parses_readFrame (ht : Backs g t P) {place : Text} {position distance : Nat} {f : Frame}
    {bytes : Bytes} (hshape : f.HasShape)
    (htags : total → ∀ v ∈ f.locals ++ f.stack, v.HasTag)
    (h : Fixed P (frame l place position distance f) bytes) :
    Parses total (readFrame t) bytes fun r => r.1 = distance ∧ f.IsReadAs g l distance r.2 := by
  obtain ⟨kind, locals, stack, chop⟩ := f
  have hitem {v : VerificationType} {rest : List VerificationType} {item : Bytes}
      (hstack : stack = v :: rest) (hv : Fixed P (verificationType l v) item) :
      Parses total (readType t) item fun v' => v.readAs? g l = some v' :=
    parses_readType ht (fun htotal => htags htotal v (by simp [hstack])) hv
  cases kind with
  | same =>
    change Fixed P (if distance ≤ maxShortDistance then u1 distance else tagged distance 251) bytes at h
    have hkind : Frame.IsReadAs g l distance ⟨.same, locals, stack, chop⟩ _ := .same locals stack chop
    split at h
    · next hle =>
      rw [if_pos hle] at hkind
      -- in its short form a frame is its tag, and the tag is the distance
      obtain ⟨b, rfl, hb⟩ := exists_of_fixed_u1 h
      unfold maxShortDistance at hle
      unfold readFrame
      refine .cast (show _ = [b] ++ [] from rfl) (.at_position fun start => .of_reads (Reads.byte b) ?_)
      dsimp only
      rw [if_pos (by omega)]
      exact .pure ⟨hb, hkind⟩
    · next hlong =>
      rw [if_neg hlong] at hkind
      rw [← List.append_nil bytes]
      refine parses_tagged h (by omega) fun n hn => ?_
      obtain rfl : n = 251 := by omega
      exact .pure ⟨rfl, hkind⟩
  | sameExtended =>
    rw [← List.append_nil bytes]
    refine parses_tagged (show Fixed P (tagged distance 251) bytes from h) (by omega) fun n hn => ?_
    obtain rfl : n = 251 := by omega
    exact .pure ⟨rfl, .sameExtended locals stack chop⟩
  | sameLocals1 =>
    rw [frame_sameLocals1] at h
    simp only [fixed_bind_iff, fixed_pure_iff] at h
    obtain ⟨head, hhead, item, hstackItem, rfl⟩ := h
    obtain ⟨v, rest, rfl, hv⟩ := exists_of_fixed_stackItem hstackItem
    unfold shortHead at hhead
    split at hhead
    · next hle =>
      obtain ⟨b, rfl, hb⟩ := exists_of_fixed_u1 hhead
      have hle' := hle
      unfold maxShortDistance at hle'
      unfold readFrame
      refine .at_position fun start => .of_reads (Reads.byte b) ?_
      dsimp only
      rw [if_neg (by omega), if_pos (by omega)]
      refine (hitem rfl hv).map (fun v' => (b.toNat - 64, (⟨.sameLocals1, [], [v'], 0⟩ : Frame))) ?_
      intro v' hv'
      have hkind : Frame.IsReadAs g l distance _ _ := .sameLocals1 locals rest chop hv'
      rw [if_pos hle] at hkind
      exact ⟨by simp [hb], hkind⟩
    · next hlong =>
      refine parses_tagged hhead (by omega) fun n hn => ?_
      obtain rfl : n = 247 := by omega
      refine (hitem rfl hv).map (fun v' => (distance, (⟨.sameLocals1Extended, [], [v'], 0⟩ : Frame)))
        ?_
      intro v' hv'
      have hkind : Frame.IsReadAs g l distance _ _ := .sameLocals1 locals rest chop hv'
      rw [if_neg hlong] at hkind
      exact ⟨rfl, hkind⟩
  | sameLocals1Extended =>
    change Fixed P (do
      return (← tagged distance 247) ++ (← stackItem l ⟨.sameLocals1Extended, locals, stack, chop⟩))
      bytes at h
    simp only [fixed_bind_iff, fixed_pure_iff] at h
    obtain ⟨head, hhead, item, hstackItem, rfl⟩ := h
    obtain ⟨v, rest, rfl, hv⟩ := exists_of_fixed_stackItem hstackItem
    refine parses_tagged hhead (by omega) fun n hn => ?_
    obtain rfl : n = 247 := by omega
    refine (hitem rfl hv).map (fun v' => (distance, (⟨.sameLocals1Extended, [], [v'], 0⟩ : Frame))) ?_
    intro v' hv'
    exact ⟨rfl, .sameLocals1Extended locals rest chop hv'⟩
  | chop =>
    obtain ⟨hone, hthree⟩ : 1 ≤ chop ∧ chop ≤ 3 := hshape
    rw [← List.append_nil bytes]
    refine parses_tagged (show Fixed P (tagged distance (251 - chop)) bytes from h) (by omega)
      fun n hn => ?_
    unfold readExtended
    rw [if_neg (by omega), if_pos (by omega)]
    refine .pure ⟨rfl, ?_⟩
    obtain rfl : chop = 251 - n := by omega
    exact .chop locals stack _
  | append =>
    obtain ⟨hone, hthree⟩ : 1 ≤ locals.length ∧ locals.length ≤ 3 := hshape
    change Fixed P (do
      return (← tagged distance (251 + locals.length : Nat)) ++ (← all (verificationType l) locals))
      bytes at h
    simp only [fixed_bind_iff, fixed_all_iff, fixed_pure_iff] at h
    obtain ⟨head, hhead, _, ⟨parts, hparts, rfl⟩, rfl⟩ := h
    refine parses_tagged hhead (by omega) fun n hn => ?_
    have hcount : n - 251 = locals.length := by omega
    unfold readExtended
    rw [if_neg (by omega), if_neg (by omega), if_neg (by omega), if_pos (by omega), hcount]
    have htypes := parses_readTypes ht (fun htotal v hv => htags htotal v (by simp [hv])) hparts
    refine (Parses.times htypes).map (fun vs => (distance, (⟨.append, vs, [], 0⟩ : Frame))) ?_
    intro vs hvs
    exact ⟨rfl, .append stack chop hvs⟩
  | full =>
    change Fixed P (do
      let head ← tagged distance 255
      let first ← listOf (verificationType l) locals
      return head ++ first ++ (← listOf (verificationType l) stack)) bytes at h
    simp only [fixed_bind_iff, fixed_listOf_iff, fixed_pure_iff] at h
    obtain ⟨head, hhead, _, ⟨count, hcount, parts, hparts, rfl⟩, _, ⟨count', hcount', parts', hparts',
      rfl⟩, rfl⟩ := h
    have htypes := parses_readTypes ht (fun htotal v hv => htags htotal v (by simp [hv])) hparts
    have htypes' := parses_readTypes ht (fun htotal v hv => htags htotal v (by simp [hv])) hparts'
    rw [List.append_assoc]
    refine parses_tagged hhead (by omega) fun n hn => ?_
    obtain rfl : n = 255 := by omega
    refine (Parses.listOf hcount htypes).bind fun vs hvs => ?_
    refine (Parses.listOf hcount' htypes').map (fun vs' => (distance, (⟨.full, vs, vs', 0⟩ : Frame))) ?_
    intro vs' hvs'
    exact ⟨rfl, .full chop hvs hvs'⟩
  | unknown name => exact absurd h not_fixed_throw

/-! ## Stack maps -/

/-- Frames written one after another, in order of their offsets; `next` is the least offset that the
first one may have. -/
inductive AreFrames (P : Pool) (l : Layout) (place : Text) :
    Nat → List (Nat × Frame) → List Bytes → Prop
  | nil (next : Nat) : AreFrames P l place next [] []
  | cons {next position : Nat} {f : Frame} {frames : List (Nat × Frame)} {part : Bytes}
    {parts : List Bytes} (hnext : next ≤ l.offset position)
    (hpart : Fixed P (frame l place position (l.offset position - next) f) part)
    (hrest : AreFrames P l place (l.offset position + 1) frames parts) :
    AreFrames P l place next ((position, f) :: frames) (part :: parts)

/-- Frames that are read back for frames, with their offsets. -/
inductive AreReadBack (g : Text → Text) (l : Layout) :
    Nat → List (Nat × Frame) → List RawFrame → Prop
  | nil (next : Nat) : AreReadBack g l next [] []
  | cons {next position : Nat} {f f' : Frame} {frames : List (Nat × Frame)} {raws : List RawFrame}
    (hnext : next ≤ l.offset position) (hframe : f.IsReadAs g l (l.offset position - next) f')
    (hrest : AreReadBack g l (l.offset position + 1) frames raws) :
    AreReadBack g l next ((position, f) :: frames) (⟨l.offset position, f'⟩ :: raws)

variable {place : Text}

/-- Frames are written one after another, each with its distance to the one before, and refused
where an offset does not increase. The parts written so far are carried in reverse. -/
theorem fixed_framesFrom_iff {next : Nat} {frames : List (Nat × Frame)} {acc : List Bytes}
    {bytes : Bytes} :
    Fixed P (framesFrom l place next frames acc) bytes ↔
      ∃ parts, AreFrames P l place next frames parts ∧ bytes = (acc.reverse ++ parts).flatten := by
  induction frames generalizing next acc with
  | nil =>
    rw [framesFrom, fixed_pure_iff]
    constructor
    · rintro rfl
      exact ⟨[], .nil next, by rw [List.append_nil]⟩
    · rintro ⟨_, ⟨⟩, rfl⟩
      rw [List.append_nil]
  | cons head rest ih =>
    obtain ⟨position, f⟩ := head
    rw [framesFrom]
    dsimp only
    by_cases hlt : l.offset position < next
    · rw [if_pos hlt]
      constructor
      · intro h
        cases h
      · rintro ⟨_, _ | ⟨hnext, -, -⟩, -⟩
        omega
    · rw [if_neg hlt]
      show Fixed P (do
        let part ← frame l place position (l.offset position - next) f
        framesFrom l place (l.offset position + 1) rest (part :: acc)) bytes ↔ _
      simp only [fixed_bind_iff, ih]
      constructor
      · rintro ⟨part, hpart, parts, hparts, rfl⟩
        refine ⟨part :: parts, .cons (Nat.le_of_not_lt hlt) hpart hparts, ?_⟩
        rw [List.reverse_cons, List.append_assoc]
        rfl
      · rintro ⟨_, _ | ⟨hnext, hpart, hparts⟩, rfl⟩
        refine ⟨_, hpart, _, hparts, ?_⟩
        rw [List.reverse_cons, List.append_assoc]
        rfl

/-- A stack map is the number of its frames and the frames. -/
theorem fixed_stackMap_iff {frames : List (Nat × Frame)} {bytes : Bytes} :
    Fixed P (stackMap l place frames) bytes ↔
      ∃ count parts, Bytes.unsigned? 2 (frames.length : Nat) = some count ∧
        AreFrames P l place 0 frames parts ∧ bytes = count ++ parts.flatten := by
  unfold stackMap
  simp only [fixed_bind_iff, fixed_u2_iff, fixed_framesFrom_iff, fixed_pure_iff, List.reverse_nil,
    List.nil_append]
  constructor
  · rintro ⟨count, hcount, _, ⟨parts, hparts, rfl⟩, rfl⟩
    exact ⟨count, parts, hcount, hparts, rfl⟩
  · rintro ⟨count, parts, hcount, hparts, rfl⟩
    exact ⟨count, hcount, _, ⟨parts, hparts, rfl⟩, rfl⟩

/-- Placing frames puts them behind those that have been placed. -/
theorem placeFrames_eq (next : Nat) (deltas : List (Nat × Frame)) (acc : List RawFrame) :
    placeFrames next deltas acc = acc.reverse ++ placeFrames next deltas [] := by
  induction deltas generalizing next acc with
  | nil => simp [placeFrames]
  | cons head rest ih =>
    obtain ⟨delta, f⟩ := head
    rw [placeFrames, ih, placeFrames, ih _ [_]]
    simp

/-- Frames in a row are read back, each with its distance. -/
theorem parses_readFrames (ht : Backs g t P) {next : Nat} {frames : List (Nat × Frame)}
    {parts : List Bytes} (hshape : ∀ f ∈ frames, f.2.HasShape)
    (htags : total → ∀ f ∈ frames, ∀ v ∈ f.2.locals ++ f.2.stack, v.HasTag)
    (h : AreFrames P l place next frames parts) (acc : List (Nat × Frame)) :
    Parses total (Decoder.timesOnto frames.length (readFrame t) acc) parts.flatten fun deltas =>
      ∃ found, deltas = acc.reverse ++ found ∧
        AreReadBack g l next frames (placeFrames next found []) := by
  induction h generalizing acc with
  | nil next => exact .pure ⟨[], (List.append_nil _).symm, .nil next⟩
  | @cons next position f frames part parts hnext hpart _ ih =>
    refine (parses_readFrame ht (hshape (position, f) (by simp))
      (fun htotal => htags htotal (position, f) (by simp)) hpart).bind ?_
    rintro ⟨delta, f'⟩ ⟨rfl, hframe⟩
    refine (ih (fun f hf => hshape f (by simp [hf])) (fun htotal f hf => htags htotal f (by simp [hf]))
      (_ :: acc)).imp ?_
    rintro deltas ⟨found, rfl, hfound⟩
    refine ⟨(l.offset position - next, f') :: found, by simp, ?_⟩
    have hplace : next + (l.offset position - next) = l.offset position := by omega
    rw [placeFrames, placeFrames_eq, hplace]
    exact .cons hnext hframe hfound

theorem parses_readStackMap (ht : Backs g t P) {frames : List (Nat × Frame)} {bytes : Bytes}
    (hshape : ∀ f ∈ frames, f.2.HasShape)
    (htags : total → ∀ f ∈ frames, ∀ v ∈ f.2.locals ++ f.2.stack, v.HasTag)
    (h : Fixed P (stackMap l place frames) bytes) :
    Parses total (readStackMap t) bytes (AreReadBack g l 0 frames) := by
  obtain ⟨count, parts, hcount, hparts, rfl⟩ := fixed_stackMap_iff.1 h
  have hlist : Parses total (Decoder.listOf (readFrame t)) (count ++ parts.flatten) fun deltas =>
      AreReadBack g l 0 frames (placeFrames 0 deltas []) := by
    refine .of_reads (Reads.of_unsigned? hcount) ((parses_readFrames ht hshape htags hparts []).imp ?_)
    rintro deltas ⟨found, rfl, hfound⟩
    exact hfound
  exact hlist.map (fun deltas => placeFrames 0 deltas []) fun _ h => h

end Encoding

end ClassTree
