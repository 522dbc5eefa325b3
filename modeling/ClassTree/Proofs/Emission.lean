/-
# ClassTree.Proofs.Emission — a body laid out, written and read back

A body whose instructions are well-formed always has a layout. If it is then written, each item
comes to stand at its offset in the layout, every near jump reaches its target, and each instruction
is read back at its offset with its targets as code offsets. Three forms do not come back as they
were: a constant with an index of two bytes is loaded by the longer code, a far jump has its far
code, and a far conditional jump is the opposite jump over a far one.
-/
import ClassTree.Proofs.Class.Sound
import ClassTree.Proofs.Exact
import ClassTree.Proofs.Pool.Sound

namespace ClassTree

open Encoder (Fixed Growing Steady pooled)
open Encoding Decoding

namespace Instruction

variable {τ σ : Type} {R : τ → σ → Prop} {i : Instruction τ} {j : Instruction σ}

/-! ## Instructions with their places exchanged -/

/-- Exchanging the places keeps everything else. -/
theorem matches_of_fixed_mapTargets {P : Pool} {f : τ → Encoder σ} [∀ t, Growing (f t)]
    (hf : ∀ t s, Fixed P (f t) s → R t s) (h : Fixed P (i.mapTargets f) j) : i.Matches R j := by
  cases i with
  | jump op t =>
    simp only [mapTargets, Encoder.fixed_bind_iff, Encoder.fixed_pure_iff] at h
    obtain ⟨s, hs, rfl⟩ := h
    exact .jump op (hf t s hs)
  | tableSwitch low high t ts =>
    simp only [mapTargets, Encoder.fixed_bind_iff, Encoder.fixed_mapM_iff,
      Encoder.fixed_pure_iff] at h
    obtain ⟨s, hs, ss, hss, rfl⟩ := h
    exact .tableSwitch low high (hf t s hs) (hss.imp fun _ _ => hf _ _)
  | lookupSwitch t keys ts =>
    simp only [mapTargets, Encoder.fixed_bind_iff, Encoder.fixed_mapM_iff,
      Encoder.fixed_pure_iff] at h
    obtain ⟨s, hs, ss, hss, rfl⟩ := h
    exact .lookupSwitch keys (hf t s hs) (hss.imp fun _ _ => hf _ _)
  | _ =>
    simp only [mapTargets, Encoder.fixed_pure_iff] at h
    subst h
    constructor

namespace Matches

theorem opcode_eq (h : Matches R i j) : j.opcode = i.opcode := by cases h <;> rfl

theorem family_eq (h : Matches R i j) : j.family = i.family := by cases h <;> rfl

theorem inFamily (h : Matches R i j) (hi : i.InFamily) : j.InFamily := by
  unfold InFamily
  rw [h.opcode_eq, h.family_eq]
  exact hi

theorem hasTargets (h : Matches R i j) (hi : i.HasTargets) : j.HasTargets := by
  cases h with
  | tableSwitch low high h hs =>
    have hlength := hs.length_eq
    exact ⟨hlength ▸ hi.1, hlength ▸ hi.2⟩
  | lookupSwitch keys h hs => exact Eq.trans hi hs.length_eq
  | _ => exact hi

theorem isExact (h : Matches R i j) (hi : i.IsExact) : j.IsExact := by
  cases h <;> exact hi

end Matches

end Instruction

namespace Encoding

/-- A body whose instructions are of the shapes of their codes, have targets that fit their keys,
refer to what the pool represents exactly, and jump to labels that are each defined at one place. A
class without a name counts as inexact: a pool with one cannot be written. -/
structure IsEncodable (body : List Item) : Prop where
  inFamily : ∀ i, .instruction i ∈ body → i.InFamily
  hasTargets : ∀ i, .instruction i ∈ body → i.HasTargets
  isExact : ∀ i, .instruction i ∈ body → i.IsExact
  defined : ∀ i, .instruction i ∈ body → ∀ l ∈ i.targets,
    ∃! position : Nat, body[position]? = some (.label l)

/-! ## Layouts -/

theorem exists_addConstant {kind : Text} {v : Constant} (h : v.IsExact kind) (p : Pool) :
    ∃ k q, addConstant kind v p = .ok (k, q) := by
  cases h with
  | @float x h =>
    have heq : addFloat (.float x.toDouble) = pooled (Pool.add (.float x)) := by
      unfold addFloat
      rw [singleOf_toDouble h, Encoder.lift_ok_bind]
    show ∃ k q, addFloat (.float x.toDouble) p = .ok (k, q)
    rw [heq]
    exact ⟨_, _, rfl⟩
  | _ => exact ⟨_, _, rfl⟩

/-- A constant that is loaded can be added if it is exact. What cannot be loaded is not. -/
theorem exists_addLoaded {op : Opcode} {v : Constant} (h : v.IsExact (Literal.loadedKind op v))
    (p : Pool) : ∃ k q, addLoaded op v p = .ok (k, q) := by
  have hconstant := exists_addConstant h p
  have hnot {kind : Text} {v : Constant} (h : v.IsExact kind) :
      v ≠ .null ∧ (∀ b, v ≠ .bytes b) ∧ ∀ l, v ≠ .label l := by
    cases h <;> exact ⟨nofun, nofun, nofun⟩
  obtain ⟨hnull, hbytes, hlabel⟩ := hnot h
  unfold addLoaded
  split
  · exact absurd rfl hnull
  · exact absurd rfl (hbytes _)
  · exact absurd rfl (hlabel _)
  · exact hconstant

/-- An instruction that refers to what is exact has a room. -/
theorem exists_roomOf {i : Instruction Label} (h : i.IsExact) (p : Pool) :
    ∃ room q, roomOf i p = .ok (room, q) := by
  cases i with
  | constant op v =>
    rw [roomOf]
    split
    · obtain ⟨k, q, hk⟩ := exists_addLoaded h p
      exact ⟨_, q, Encoder.bind_eq_ok_iff.2 ⟨k, q, hk, rfl⟩⟩
    · exact ⟨_, _, rfl⟩
  | _ => exact ⟨_, _, rfl⟩

/-- A body whose instructions refer to what is exact has a layout. -/
theorem exists_layout {body : List Item} (h : ∀ i, .instruction i ∈ body → i.IsExact) (p : Pool) :
    ∃ l q, Layout.of body p = .ok (l, q) := by
  have hrooms : ∃ rooms q, roomsOf body p = .ok (rooms, q) ∧ True := by
    refine Encoder.exists_mapM (fun item hitem p _ => ?_) trivial
    cases item with
    | instruction i =>
      obtain ⟨room, q, hroom⟩ := exists_roomOf (h i hitem) p
      exact ⟨room, q, hroom, trivial⟩
    | _ => exact ⟨_, _, rfl, trivial⟩
  obtain ⟨rooms, q, hrooms, -⟩ := hrooms
  exact ⟨_, q, Encoder.bind_eq_ok_iff.2 ⟨rooms, q, hrooms, rfl⟩⟩

namespace Layout

/-! ## Labels -/

/-- The offsets of labels, found in the items from a position on and before in a map. -/
def labelsFrom (offsets : Array Nat) (items : List (Item × Nat)) (found : Std.HashMap Label Nat) :
    Std.HashMap Label Nat :=
  items.foldl
    (fun found (item, i) => match item with
      | .label l => found.insert l (offsets.getD i 0)
      | _ => found)
    found

/-- A label that is defined nowhere later stands where it was found. -/
theorem getElem?_labelsFrom (offsets : Array Nat) {l : Label} {body : List Item}
    (h : Item.label l ∉ body) (start : Nat) (found : Std.HashMap Label Nat) :
    (labelsFrom offsets (body.zipIdx start) found)[l]? = found[l]? := by
  induction body generalizing start found with
  | nil => rfl
  | cons item body ih =>
    rw [List.zipIdx_cons]
    have hrest := ih (fun hmem => h (List.mem_cons_of_mem _ hmem)) (start + 1)
    cases item with
    | label l' =>
      have hne : l' ≠ l := fun heq => h (by simp [heq])
      refine (hrest _).trans ?_
      rw [Std.HashMap.getElem?_insert]
      simp [hne]
    | _ => exact hrest found

/-- The last definition of a label is the one that counts. -/
theorem getElem?_labelsFrom_of_last (offsets : Array Nat) {l : Label} {body : List Item}
    {position : Nat} (hat : body[position]? = some (.label l))
    (hlast : Item.label l ∉ body.drop (position + 1)) (start : Nat) (found : Std.HashMap Label Nat) :
    (labelsFrom offsets (body.zipIdx start) found)[l]? =
      some (offsets.getD (start + position) 0) := by
  induction body generalizing start position found with
  | nil => cases hat
  | cons item body ih =>
    rw [List.zipIdx_cons]
    cases position with
    | zero =>
      obtain rfl : item = .label l := by simpa using hat
      refine (getElem?_labelsFrom offsets hlast _ _).trans ?_
      simp
    | succ position =>
      have hrest := ih hat hlast (start + 1)
      rw [show start + 1 + position = start + (position + 1) by omega] at hrest
      cases item <;> exact hrest _

/-- A label that is found was found before or is defined in the items. -/
theorem exists_of_getElem?_labelsFrom (offsets : Array Nat) {l : Label} {body : List Item}
    {start : Nat} {found : Std.HashMap Label Nat} {offset : Nat}
    (h : (labelsFrom offsets (body.zipIdx start) found)[l]? = some offset) :
    found[l]? = some offset ∨ ∃ position : Nat, body[position]? = some (.label l) ∧
      offset = offsets.getD (start + position) 0 := by
  induction body generalizing start found with
  | nil => exact .inl h
  | cons item body ih =>
    have hstep {found : Std.HashMap Label Nat}
        (h : (labelsFrom offsets (body.zipIdx (start + 1)) found)[l]? = some offset) :
        found[l]? = some offset ∨ ∃ position : Nat, (item :: body)[position]? = some (.label l) ∧
          offset = offsets.getD (start + position) 0 := by
      rcases ih h with h | ⟨position, hat, rfl⟩
      · exact .inl h
      · exact .inr ⟨position + 1, hat, by rw [Nat.add_assoc, Nat.add_comm 1]⟩
    rw [List.zipIdx_cons, labelsFrom, List.foldl_cons] at h
    cases item with
    | label l' =>
      rcases hstep h with hfound | hlater
      · rw [Std.HashMap.getElem?_insert] at hfound
        split at hfound
        · next heq =>
          obtain rfl := eq_of_beq heq
          exact .inr ⟨0, rfl, (Option.some.inj hfound).symm⟩
        · exact .inl hfound
      · exact .inr hlater
    | _ => exact hstep h

end Layout

/-- A label that is found, wherever the items are placed, is found at a place where it is defined.
-/
theorem Layout.exists_of_getElem?_labels {body : List Item} {rooms : List Room} {far : List Bool}
    {label : Label} {offset : Nat} (h : (Layout.place body rooms far).labels[label]? = some offset) :
    ∃ position : Nat, body[position]? = some (.label label) ∧
      offset = (Layout.place body rooms far).offset position := by
  rcases exists_of_getElem?_labelsFrom _ h with hnone | ⟨position, hat, heq⟩
  · simp at hnone
  · exact ⟨position, hat, by rw [heq, Nat.zero_add]; rfl⟩

/-- A label leads to a place where it is defined. -/
theorem Layout.exists_of_resolve {P : Pool} {body : List Item} {l : Layout}
    (hl : Fixed P (Layout.of body) l) {label : Label} {offset : Nat}
    (h : l.resolve label = .ok offset) :
    ∃ position : Nat, body[position]? = some (.label label) ∧ offset = l.offset position := by
  obtain ⟨rooms, far, -, -, rfl, -⟩ := fixed_of hl
  refine Layout.exists_of_getElem?_labels ?_
  unfold resolve at h
  split at h
  · next hfound => rw [hfound, Except.ok.inj h]
  · cases h

/-- A label that is defined at one place leads there. -/
theorem resolve_of_existsUnique {body : List Item} {rooms : List Room} {far : List Bool} {l : Label}
    (h : ∃! position : Nat, body[position]? = some (.label l)) {position : Nat}
    (hat : body[position]? = some (.label l)) :
    (Layout.place body rooms far).resolve l =
      .ok ((Layout.place body rooms far).offset position) := by
  have hlast : Item.label l ∉ body.drop (position + 1) := by
    intro hmem
    obtain ⟨later, hlater⟩ := List.mem_iff_getElem?.1 hmem
    rw [List.getElem?_drop] at hlater
    have heq := h.unique hlater hat
    omega
  have hfound := Layout.getElem?_labelsFrom_of_last (Layout.place body rooms far).offsets hat hlast
    0 {}
  rw [Nat.zero_add] at hfound
  have hlabels : (Layout.place body rooms far).labels[l]? = _ := hfound
  simp only [Layout.resolve, hlabels]
  rfl

theorem Layout.resolve_eq_ok_iff {l : Layout} {label : Label} {offset : Nat} :
    l.resolve label = .ok offset ↔ l.labels[label]? = some offset := by
  unfold resolve
  cases l.labels[label]? with
  | none => simp
  | some there => simp

/-- A jump reaches a label unless it is far or overreaches. -/
theorem Layout.isNear_of_not_overreaches {l : Layout} {position : Nat} {op : Opcode} {label : Label}
    (h : l.overreaches position (.instruction (.jump op label)) = false) (hop : op.isFar = false)
    {target : Nat} (hlabel : l.resolve label = .ok target) :
    -0x8000 ≤ (target : Int) - l.offset position ∧ (target : Int) - l.offset position ≤ 0x7FFF := by
  simpa [overreaches, resolve_eq_ok_iff.1 hlabel, hop, isNear] using h

/-! ## What is emitted -/

/-- A label leads to its offset in a layout. -/
def Layout.Leads (l : Layout) (label : Label) (target : Int) : Prop :=
  ∃ offset : Nat, l.resolve label = .ok offset ∧ target = offset

/-- The index under which a pool finds a constant that is loaded. -/
def loadedIndex (P : Pool) (op : Opcode) (v : Constant) : Nat :=
  match addLoaded op v P with
  | .ok (k, _) => k
  | .error _ => 0

/-- The instructions that the code at a position of a body consists of. -/
def rewritten (P : Pool) (l : Layout) (position : Nat) : Instruction Int → List (Instruction Int)
  | .constant op v =>
    [.constant (if op = .ldc ∧ maxByte < loadedIndex P op v then .ldc_w else op) v]
  | .jump op target =>
    if l.isFar position = true ∧ op.isFar = false then
      match op.opposite? with
      | some opposite => [.jump opposite (l.offset (position + 1)), .jump .goto_w target]
      | none => [.jump (farCode op) target]
    else [.jump op target]
  | i => [i]

/-- Instructions are read one after another, the first of them at an offset. -/
inductive ReadsRow (t : Table) : Nat → Bytes → List (Instruction Int) → Prop
  | nil (offset : Nat) : ReadsRow t offset [] []
  | cons {offset : Nat} {first rest : Bytes} {i : Instruction Int} {row : List (Instruction Int)}
      (h : Reads (readInstruction t offset) first i)
      (hrow : ReadsRow t (offset + first.length) rest row) :
      ReadsRow t offset (first ++ rest) (i :: row)

theorem ReadsRow.single {t : Table} {offset : Nat} {bytes : Bytes} {i : Instruction Int}
    (h : Reads (readInstruction t offset) bytes i) : ReadsRow t offset bytes [i] := by
  have hrow := ReadsRow.cons h (.nil _)
  rwa [List.append_nil] at hrow

/-- A table of the entries of a pool, with numbers counted by value: the entries as they are, or as
they are read back from the bytes of the pool. -/
def IsTableOf (P : Pool) (t : Table) : Prop :=
  t.bootstrap = P.bootstrap ∧ (t.entries = P.entries.map (Option.map Pool.Entry.key) ∨
    ∃ bytes, P.encode = .ok bytes ∧ Reads Table.readPool bytes t.entries)

/-- A table of a pool has the bootstrap methods that the pool finds. -/
theorem IsTableOf.hasSites {P : Pool} (hP : P.IsReachable) {t : Table} (ht : IsTableOf P t) :
    HasSites t P := by
  intro method k hk
  rw [ht.1]
  exact hP.wellFormed.getElem?_of_bootstrapIndex hk

/-- A table of a pool has the entries that the pool finds, and whole texts as they are. -/
theorem IsTableOf.exists_carries {P : Pool} (hP : P.IsReachable) {t : Table} (ht : IsTableOf P t) :
    ∃ g, (∀ s : Text, s.IsWhole → g s = s) ∧ Carries g t P := by
  rcases ht with ⟨hbootstrap, hentries | ⟨bytes, hbytes, hread⟩⟩
  · have ht : t = ⟨P.entries.map (Option.map Pool.Entry.key), P.bootstrap⟩ := by
      rw [← hentries, ← hbootstrap]
    exact ⟨id, fun _ _ => rfl, ht ▸ carries_key hP.wellFormed P.bootstrap⟩
  · have hencode := Pool.encode_eq_ok_iff.1 hbytes
    have hread' := Pool.reads_pool hP.wellFormed (fun _ he => hP.allowed he) hencode
    have ht : t = ⟨P.entries.map (Option.map Pool.Entry.stored), P.bootstrap⟩ := by
      rw [← hread.unique hread', ← hbootstrap]
    have hbacks := backs_of_encode? hP.wellFormed (fun _ he => hP.allowed he) hencode P.bootstrap
    exact ⟨ModifiedUtf8.stored, fun s hs => ModifiedUtf8.stored_of_isWhole hs,
      ht ▸ hbacks.toCarries⟩

/-- What has been emitted of a body agrees with its layout. -/
structure Agrees (body : List Item) (l : Layout) (place : Text) (q : Pool) (bytes : Bytes)
    (P : Pool) : Prop where
  /-- What is emitted before a position is as long as the offset of the position says. -/
  offset : ∀ position ≤ body.length, ∃ before q',
    operations l place (body.take position) q = .ok (before, q') ∧ before <+: bytes ∧
      before.length = l.offset position
  /-- A label that is used leads to the offset of its definition. -/
  label : ∀ i, .instruction i ∈ body → ∀ label ∈ i.targets, ∃ position : Nat,
    body[position]? = some (.label label) ∧ l.resolve label = .ok (l.offset position)
  /-- A jump that has been left short reaches its target. -/
  near : ∀ position op label, body[position]? = some (.instruction (.jump op label)) →
    op.isFar = false → l.isFar position = false → ∃ target : Nat, l.resolve label = .ok target ∧
      -0x8000 ≤ (target : Int) - l.offset position ∧ (target : Int) - l.offset position ≤ 0x7FFF
  /-- An instruction is read back at its offset, with the offsets of its labels for targets. -/
  decoded : ∀ t, IsTableOf P t → ∀ position i, body[position]? = some (.instruction i) →
    ∃ j row, i.Matches l.Leads j ∧
      List.Forall₂ (fun expected found => expected.same found = true) (rewritten P l position j)
        row ∧
      ReadsRow t (l.offset position)
        ((bytes.take (l.offset (position + 1))).drop (l.offset position)) row

/-! ## One instruction -/

/-- A switch with a target for each key has a key for each target. -/
theorem hasKeys_of_hasTargets {τ : Type} {i : Instruction τ} (h : i.HasTargets) : HasKeys i := by
  cases i with
  | lookupSwitch otherwise keys targets => exact Nat.le_of_eq (Eq.symm h)
  | _ => trivial

/-- An instruction is written with the offsets of its labels for targets. -/
theorem exists_of_fixed_item {P : Pool} {l : Layout} {place : Text} {position : Nat}
    {i : Instruction Label} {bytes : Bytes}
    (h : Fixed P (item l place position (.instruction i)) bytes) :
    ∃ j, i.Matches l.Leads j ∧
      Fixed P (operation (l.offset position) (l.isFar position) j) bytes := by
  unfold item at h
  simp only [Encoder.fixed_bind_iff, fixed_naming_iff] at h
  obtain ⟨j, hj, hbytes⟩ := h
  refine ⟨j, Instruction.matches_of_fixed_mapTargets (fun label target htarget => ?_) hj, hbytes⟩
  simp only [Encoder.fixed_bind_iff, Encoder.fixed_lift_iff, Encoder.fixed_pure_iff] at htarget
  exact htarget

section Instructions

variable {g : Text → Text} {t : Table} {P : Pool} {l : Layout} {position : Nat} {j : Instruction Int}
  {bytes : Bytes}

/-- A constant that is found is found under its index. -/
theorem loadedIndex_eq {op : Opcode} {v : Constant} {k : Nat} (h : Fixed P (addLoaded op v) k) :
    loadedIndex P op v = k := by
  unfold loadedIndex
  rw [h]

/-- The kind of a loaded constant does not depend on the length of its index. -/
theorem loadedKind_ldc_w (v : Constant) :
    Literal.loadedKind .ldc_w v = Literal.loadedKind .ldc v := by
  simp [Literal.loadedKind]

/-- An instruction is read back as what is stored of the code at its position. The next item stands
where the bytes of this one end. -/
theorem exists_stores_readsRow (ht : Carries g t P) (hsites : HasSites t P) (hfamily : j.InFamily)
    (htargets : j.HasTargets) (hregular : j.IsRegular)
    (h : Fixed P (operation (l.offset position) (l.isFar position) j) bytes)
    (hnext : l.offset (position + 1) = l.offset position + bytes.length) :
    ∃ row, List.Forall₂ (Instruction.Stores g) (rewritten P l position j) row ∧
      ReadsRow t (l.offset position) bytes row := by
  by_cases hconstant : j.family = .constant
  · -- a constant is read under the code for its index
    cases j with
    | constant op v =>
      have hop : op.family = .constant := hfamily
      obtain ⟨k, v', hk, hstores, hread⟩ := ht.exists_reads_loadConstant hop hregular h
      rw [← loadedIndex_eq hk] at hread
      refine ⟨_, .cons (.constant _ ?_) .nil, .single hread⟩
      split
      · next hlong => rwa [loadedKind_ldc_w, ← hlong.1]
      · exact hstores
    | _ => cases hconstant
  by_cases hjump : j.family = .jump
  · cases j with
    | jump op target =>
      have hop : op.family = .jump := hfamily
      by_cases hfar : l.isFar position = true ∧ op.isFar = false
      · cases hopposite : op.opposite? with
        | some opposite =>
          -- two jumps stand for one
          rw [operation, hfar.1] at h
          obtain ⟨first, second, rfl, hfirst, hsecond, hread, hread'⟩ :=
            reads_farConditional hopposite h
          have hlength : l.offset (position + 1) = l.offset position + 8 := by
            rw [hnext, List.length_append, hfirst, hsecond]
          refine ⟨[.jump opposite (l.offset (position + 1)), .jump .goto_w target], ?_, ?_⟩
          · rw [rewritten, if_pos hfar, hopposite]
            exact .cons (.free trivial) (.cons (.free trivial) .nil)
          · rw [hlength]
            refine .cons hread (.single ?_)
            rw [hfirst]
            exact hread'
        | none =>
          have hconditional : op.isConditional = false := by
            simp [Opcode.isConditional, hopposite]
          have hread := reads_jump (t := t) hop (fun _ => .inr hconditional) h
          rw [if_pos hfar] at hread
          refine ⟨_, ?_, .single hread⟩
          rw [rewritten, if_pos hfar, hopposite]
          exact .cons (.free trivial) .nil
      · have hnear : l.isFar position = true → op.isFar = true ∨ op.isConditional = false := by
          intro hpos
          cases hop : op.isFar with
          | true => exact .inl rfl
          | false => exact absurd ⟨hpos, hop⟩ hfar
        have hread := reads_jump (t := t) hop hnear h
        rw [if_neg hfar] at hread
        refine ⟨_, ?_, .single hread⟩
        rw [rewritten, if_neg hfar]
        exact .cons (.free trivial) .nil
    | _ => cases hjump
  · obtain ⟨i', hstores, hread⟩ := ht.exists_reads_operation hsites hfamily htargets hregular
      hconstant hjump h
    refine ⟨[i'], ?_, .single hread⟩
    cases j with
    | constant op v => exact absurd rfl hconstant
    | jump op target => exact absurd rfl hjump
    | _ => exact .cons hstores .nil

/-- The code at the position of an exact instruction is exact. -/
theorem isExact_of_mem_rewritten (hexact : j.IsExact) {i : Instruction Int}
    (hi : i ∈ rewritten P l position j) : i.IsExact := by
  cases j with
  | constant op v =>
    obtain rfl := List.mem_singleton.1 hi
    have hexact : v.IsExact (Literal.loadedKind op v) := hexact
    show v.IsExact (Literal.loadedKind _ v)
    split
    · next hlong => rwa [loadedKind_ldc_w, ← hlong.1]
    · exact hexact
  | jump op target =>
    rw [rewritten] at hi
    split at hi
    · split at hi
      · rcases List.mem_pair.1 hi with rfl | rfl <;> trivial
      · obtain rfl := List.mem_singleton.1 hi
        trivial
    · obtain rfl := List.mem_singleton.1 hi
      trivial
  | _ =>
    obtain rfl := List.mem_singleton.1 hi
    exact hexact

/-- An exact instruction is read back as the code at its position says. -/
theorem exists_readsRow (ht : Carries g t P) (hsites : HasSites t P)
    (hg : ∀ s : Text, s.IsWhole → g s = s) (hfamily : j.InFamily) (htargets : j.HasTargets)
    (hexact : j.IsExact)
    (h : Fixed P (operation (l.offset position) (l.isFar position) j) bytes)
    (hnext : l.offset (position + 1) = l.offset position + bytes.length) :
    ∃ row, List.Forall₂ (fun expected found => expected.same found = true)
        (rewritten P l position j) row ∧ ReadsRow t (l.offset position) bytes row := by
  obtain ⟨row, hstores, hread⟩ :=
    exists_stores_readsRow ht hsites hfamily htargets hexact.isRegular h hnext
  refine ⟨row, ?_, hread⟩
  rw [List.forall₂_iff_zip] at hstores ⊢
  refine ⟨hstores.1, fun {i i'} hi => ?_⟩
  exact (isExact_of_mem_rewritten hexact (List.of_mem_zip hi).1).same_of_stores hg (hstores.2 hi)

end Instructions

/-! ## The whole body -/

section Body

variable {body : List Item} {l : Layout} {place : Text} {q P : Pool} {bytes : Bytes}

/-- What is written of a body is written item by item, and the first items are written first. -/
theorem exists_operations_take (h : operations l place body q = .ok (bytes, P)) (n : Nat) :
    ∃ before q', operations l place (body.take n) q = .ok (before, q') ∧ Pool.Grows .all q' P ∧
      before <+: bytes := by
  have hsplit : body.zipIdx = (body.take n).zipIdx ++
      (body.drop n).zipIdx (0 + (body.take n).length) := by
    rw [← List.zipIdx_append, List.take_append_drop]
  unfold operations Encoder.all at h ⊢
  rw [hsplit, List.mapM_append] at h
  obtain ⟨parts, q', hparts, hrest⟩ := Encoder.bind_eq_ok_iff.1 h
  obtain ⟨first, q₁, hfirst, hparts⟩ := Encoder.bind_eq_ok_iff.1 hparts
  obtain ⟨second, q₂, hsecond, hparts⟩ := Encoder.bind_eq_ok_iff.1 hparts
  cases hparts
  cases hrest
  exact ⟨first.flatten, q₁, Encoder.bind_eq_ok_iff.2 ⟨first, q₁, hfirst, rfl⟩,
    Growing.grows hsecond, by simp⟩

/-- What is written of the first items are the first parts of the whole. -/
theorem fixed_operations_take {parts : List Bytes}
    (h : List.Forall₂ (fun (entry : Item × Nat) part => Fixed P (item l place entry.2 entry.1) part)
      body.zipIdx parts) (n : Nat) :
    Fixed P (operations l place (body.take n)) (parts.take n).flatten := by
  refine Encoder.fixed_all_iff.2 ⟨parts.take n, ?_, rfl⟩
  have hfirst : (body.take n).zipIdx = body.zipIdx.take n := by
    refine List.ext_getElem? fun index => ?_
    simp only [List.getElem?_zipIdx, List.getElem?_take]
    split <;> rfl
  rw [hfirst]
  exact List.forall₂_take n h

theorem flatten_take_succ {parts : List Bytes} {index : Nat} {part : Bytes}
    (h : parts[index]? = some part) :
    (parts.take (index + 1)).flatten = (parts.take index).flatten ++ part := by
  rw [List.take_add_one, h, Option.toList_some, List.flatten_append, List.flatten_singleton]

/-- A part of a whole stands between the parts before it and those behind it. -/
theorem drop_take_flatten (parts : List Bytes) {index : Nat} {part : Bytes}
    (h : parts[index]? = some part) :
    (parts.flatten.take (parts.take (index + 1)).flatten.length).drop
      (parts.take index).flatten.length = part := by
  have hall : parts.flatten = (parts.take (index + 1)).flatten ++ (parts.drop (index + 1)).flatten := by
    rw [← List.flatten_append, List.take_append_drop]
  rw [hall, List.take_left, flatten_take_succ h, List.drop_left]

end Body

/-- A well-formed body has a layout, and what is then emitted of it agrees with that: every item
starts at the offset that the layout gives it, a jump is near exactly if the layout says so, and the
bytes decode to the instructions of the body, but for the three forms in which the writer may put
one instruction in the place of another. -/
theorem IsEncodable.exists_agrees {body : List Item} (hbody : IsEncodable body) {p : Pool}
    (hp : p.IsReachable) : ∃ l q, Layout.of body p = .ok (l, q) ∧
      ∀ place bytes P, operations l place body q = .ok (bytes, P) →
        Agrees body l place q bytes P := by
  obtain ⟨l, q, hlayout⟩ := exists_layout hbody.isExact p
  refine ⟨l, q, hlayout, fun place bytes P h => ?_⟩
  have hreachable : P.IsReachable := (hp.grows (Growing.grows hlayout)).grows (Growing.grows h)
  -- the pool in the end has everything, so all can be looked at as written with it
  have hfixed : Fixed P (operations l place body) bytes := Steady.fixed h (.refl P)
  have hl : Fixed P (Layout.of body) l := Steady.fixed hlayout (Growing.grows h).within
  obtain ⟨parts, hparts, rfl⟩ := Encoder.fixed_all_iff.1 hfixed
  have hkeys : ∀ i, Item.instruction i ∈ body → HasKeys i :=
    fun i hi => hasKeys_of_hasTargets (hbody.hasTargets i hi)
  have hoffset {index : Nat} (hindex : index ≤ body.length) :=
    offset_eq_length hl hkeys hparts hindex
  obtain ⟨rooms, far, -, hfar, rfl, hdone⟩ := Layout.fixed_of hl
  have hlabel : ∀ i, .instruction i ∈ body → ∀ label ∈ i.targets, ∃ position : Nat,
      body[position]? = some (.label label) ∧ (Layout.place body rooms far).resolve label =
        .ok ((Layout.place body rooms far).offset position) := by
    intro i hi label hmem
    have hunique := hbody.defined i hi label hmem
    obtain ⟨position, hat⟩ := hunique.exists
    exact ⟨position, hat, resolve_of_existsUnique hunique hat⟩
  refine ⟨?_, hlabel, ?_, ?_⟩
  · intro position hposition
    obtain ⟨before, q', hbefore, hgrows, hprefix⟩ := exists_operations_take h position
    have heq := (Steady.fixed hbefore hgrows.within).unique (fixed_operations_take hparts position)
    exact ⟨before, q', hbefore, hprefix, by rw [heq, hoffset hposition]⟩
  · intro position op label hitem hop hnear
    obtain ⟨there, -, hthere⟩ := hlabel _ (List.mem_of_getElem? hitem) label
      (by simp [Instruction.targets])
    have hposition : position < far.length := by
      rw [hfar]
      exact (List.getElem?_eq_some_iff.1 hitem).1
    have hmark : far[position]? = some false := by
      rw [Layout.isFar_place, List.getElem?_eq_getElem hposition] at hnear
      rw [List.getElem?_eq_getElem hposition]
      exact congrArg some hnear
    have hreach := Layout.not_overreaches hdone hitem hmark
    exact ⟨_, hthere, Layout.isNear_of_not_overreaches hreach hop hthere⟩
  · intro t ht position i hitem
    obtain ⟨g, hg, hcarries⟩ := ht.exists_carries hreachable
    have hsites := ht.hasSites hreachable
    have hmem := List.mem_of_getElem? hitem
    obtain ⟨hlt, hat⟩ := List.getElem?_eq_some_iff.1 hitem
    have hlt' : position < parts.length := by
      rw [← hparts.length_eq, List.length_zipIdx]
      exact hlt
    -- the part at the position is that of the instruction with its places exchanged
    have hpart := hparts.get (by rwa [List.length_zipIdx]) hlt'
    simp only [List.get_eq_getElem, List.getElem_zipIdx, Nat.zero_add, hat] at hpart
    obtain ⟨j, hmatches, hpart⟩ := exists_of_fixed_item hpart
    have hnext : (Layout.place body rooms far).offset (position + 1) =
        (Layout.place body rooms far).offset position + parts[position].length := by
      rw [hoffset hlt, hoffset (Nat.le_of_lt hlt),
        flatten_take_succ (List.getElem?_eq_getElem hlt'), List.length_append]
    obtain ⟨row, hsame, hread⟩ := exists_readsRow hcarries hsites hg
      (hmatches.inFamily (hbody.inFamily i hmem)) (hmatches.hasTargets (hbody.hasTargets i hmem))
      (hmatches.isExact (hbody.isExact i hmem)) hpart hnext
    refine ⟨j, row, hmatches, hsame, ?_⟩
    rw [hoffset hlt, hoffset (Nat.le_of_lt hlt),
      drop_take_flatten parts (List.getElem?_eq_getElem hlt'), ← hoffset (Nat.le_of_lt hlt)]
    exact hread

/-- A body that loads a number again and again. -/
def loopBody : List Item :=
  [.label ⟨"L"⟩, .instruction (.constant .ldc (.int 5)), .instruction (.plain .pop),
    .instruction (.jump .goto ⟨"L"⟩)]

/-- What is emitted of it agrees with its layout. -/
theorem exists_agrees_loopBody : (IsEncodable loopBody ∧ Pool.empty.IsReachable) ∧
    ∃ l q, Layout.of loopBody Pool.empty = .ok (l, q) ∧
      ∀ place bytes P, operations l place loopBody q = .ok (bytes, P) →
        Agrees loopBody l place q bytes P := by
  have hmem {i : Instruction Label} (hi : .instruction i ∈ loopBody) :
      i = .constant .ldc (.int 5) ∨ i = .plain .pop ∨ i = .jump .goto ⟨"L"⟩ := by
    simpa [loopBody] using hi
  have hdefined : ∃! position : Nat, loopBody[position]? = some (.label ⟨"L"⟩) := by
    refine ⟨0, rfl, fun position hat => ?_⟩
    match position with
    | 0 => rfl
    | 1 | 2 | 3 => cases hat
    | _ + 4 => cases hat
  have hbody : IsEncodable loopBody := by
    constructor
    · intro i hi
      obtain rfl | rfl | rfl := hmem hi <;> rfl
    · intro i hi
      obtain rfl | rfl | rfl := hmem hi <;> trivial
    · intro i hi
      obtain rfl | rfl | rfl := hmem hi
      · exact .int 5
      · trivial
      · trivial
    · intro i hi label hlabel
      obtain rfl | rfl | rfl := hmem hi
      · cases hlabel
      · cases hlabel
      · rw [List.mem_singleton.1 hlabel]
        exact hdefined
  have hpool : Pool.empty.IsReachable := ⟨.empty, .inl rfl, .refl⟩
  exact ⟨⟨hbody, hpool⟩, hbody.exists_agrees hpool⟩

end Encoding

end ClassTree
