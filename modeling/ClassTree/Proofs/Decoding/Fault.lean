/-
# ClassTree.Proofs.Decoding.Fault — decoders that fail in one way only

A decoder *finds* a value of some sort if, wherever it stands, it gives one or reports malformed
bytes with an offset. Nothing else comes out of it, however the input looks, and it never ends up
ahead of where it began. Finding composes as decoders do, and what has been found first may be used
behind it.
-/
import ClassTree.Decoding.Attributes
import ClassTree.Proofs.Decoder

namespace ClassTree.Decoding

variable {α β σ : Type}

/-- Wherever it stands, the decoder gives a value of a sort or reports malformed bytes. -/
def Finds (d : Decoder α) (Q : α → Prop) : Prop :=
  ∀ c, (∃ a c', d c = .ok (a, c') ∧ c.position ≤ c'.position ∧ Q a) ∨
    ∃ cause offset, d c = .error (.malformed cause offset)

namespace Finds

variable {d : Decoder α} {k : α → Decoder β} {Q Q' : α → Prop} {R : β → Prop} {a : α}

/-! ## Composition -/

theorem of_parses (h : Parses True d [] Q) : Finds d Q := by
  rintro ⟨position, rest⟩
  rcases h position rest with ⟨a, ha, heq⟩ | ⟨hnot, -⟩
  · exact .inl ⟨a, _, heq, Nat.le_refl _, ha⟩
  · exact absurd trivial hnot

/-- What is found is of the sort, and the place is no earlier one. -/
theorem of_eq_ok (h : Finds d Q) {c c' : Cursor} (heq : d c = .ok (a, c')) :
    c.position ≤ c'.position ∧ Q a := by
  rcases h c with ⟨b, c'', hok, hle, hb⟩ | ⟨cause, offset, herror⟩
  · rw [heq] at hok
    cases hok
    exact ⟨hle, hb⟩
  · rw [heq] at herror
    cases herror

theorem imp (h : Finds d Q) (hQ : ∀ a, Q a → Q' a) : Finds d Q' := by
  intro c
  rcases h c with ⟨a, c', hok, hle, ha⟩ | hfail
  · exact .inl ⟨a, c', hok, hle, hQ a ha⟩
  · exact .inr hfail

/-- A sort may be narrowed by what is known of every success. -/
theorem and (h : Finds d Q) (hQ : ∀ c a c', d c = .ok (a, c') → Q' a) :
    Finds d fun a => Q a ∧ Q' a := by
  intro c
  rcases h c with ⟨a, c', hok, hle, ha⟩ | hfail
  · exact .inl ⟨a, c', hok, hle, ha, hQ c a c' hok⟩
  · exact .inr hfail

theorem pure (ha : Q a) : Finds (Pure.pure a) Q := fun c => .inl ⟨a, c, rfl, Nat.le_refl _, ha⟩

theorem refuse (cause : Malformed) (offset : Nat) : Finds (Decoder.refuse cause offset) Q :=
  fun _ => .inr ⟨cause, offset, rfl⟩

theorem refuseHere (cause : Malformed) : Finds (Decoder.refuseHere cause) Q :=
  fun c => .inr ⟨cause, c.position, rfl⟩

theorem bind (h : Finds d Q) (hk : ∀ a, Q a → Finds (k a) R) : Finds (d >>= k) R := by
  intro c
  rcases h c with ⟨a, c', hok, hle, ha⟩ | ⟨cause, offset, hfail⟩
  · have hstep : (d >>= k) c = k a c' := by
      show (d c >>= fun r => k r.1 r.2) = _
      rw [hok]
      rfl
    rw [hstep]
    rcases hk a ha c' with ⟨b, c'', hok', hle', hb⟩ | hfail
    · exact .inl ⟨b, c'', hok', Nat.le_trans hle hle', hb⟩
    · exact .inr hfail
  · refine .inr ⟨cause, offset, ?_⟩
    show (d c >>= fun r => k r.1 r.2) = _
    rw [hfail]
    rfl

/-- Decoders in a row, the first of which finds anything. -/
theorem any_bind (h : Finds d fun _ => True) (hk : ∀ a, Finds (k a) R) : Finds (d >>= k) R :=
  h.bind fun a _ => hk a

theorem map (h : Finds d Q) {f : α → β} (hf : ∀ a, Q a → R (f a)) :
    Finds (do return f (← d)) R := h.bind fun a ha => pure (hf a ha)

/-! ## The position -/

theorem get_bind {k : Cursor → Decoder β} (h : ∀ c, Finds (k c) R) :
    Finds (MonadState.get >>= k) R := fun c => h c c

theorem position_bind {k : Nat → Decoder β} (h : ∀ n, Finds (k n) R) :
    Finds (Decoder.position >>= k) R := fun c => h c.position c

/-- Reading from a place and then going on at another one, which is no earlier than `c`. -/
theorem detour (h : Finds d Q) {f : α → β} (hf : ∀ a, Q a → R (f a)) (start : Cursor)
    {c onward : Cursor} (hle : c.position ≤ onward.position) :
    (∃ b c', (d start >>= fun r => .ok (f r.1, onward)) = .ok (b, c') ∧ c.position ≤ c'.position ∧ R b) ∨
      ∃ cause offset, (d start >>= fun r => .ok (f r.1, onward)) =
        (.error (.malformed cause offset) : Except Error (β × Cursor)) := by
  rcases h start with ⟨a, c', hok, -, ha⟩ | ⟨cause, offset, hfail⟩
  · rw [hok]
    exact .inl ⟨f a, onward, rfl, hle, hf a ha⟩
  · rw [hfail]
    exact .inr ⟨cause, offset, rfl⟩

theorem elsewhere (h : Finds d Q) (c : Cursor) : Finds (Decoder.elsewhere c d) Q :=
  fun here => h.detour (R := Q) (f := id) (fun _ ha => ha) c (Nat.le_refl here.position)

theorem skip (count : Nat) : Finds (Decoder.skip count) fun _ => True :=
  fun c => .inl ⟨(), c.skip count, rfl, Nat.le_add_right _ _, trivial⟩

/-! ## Checks -/

/-- A condition that is checked holds from there on. -/
theorem check {p : Prop} [Decidable p] (cause : Malformed) (offset : Nat) :
    Finds (do unless p do Decoder.refuse cause offset) fun _ => p := by
  by_cases h : p
  · rw [if_pos h]
    exact pure h
  · rw [if_neg h]
    exact refuse cause offset

theorem ite {p : Prop} [Decidable p] {d' : Decoder α} (h : p → Finds d Q) (h' : ¬ p → Finds d' Q) :
    Finds (if p then d else d') Q := by
  by_cases hp : p
  · rw [if_pos hp]
    exact h hp
  · rw [if_neg hp]
    exact h' hp

theorem check_bind {p : Prop} [Decidable p] {cause : Malformed} {offset : Nat} {d : Decoder β}
    {k : α → Decoder β} (h : p → Finds d R) :
    Finds (if p then d else Decoder.refuse cause offset >>= k) R :=
  ite h fun _ => (refuse cause offset).bind fun _ (h : False) => h.elim

theorem checkHere_bind {p : Prop} [Decidable p] {cause : Malformed} {d : Decoder β}
    {k : α → Decoder β} (h : p → Finds d R) :
    Finds (if p then d else Decoder.refuseHere cause >>= k) R :=
  ite h fun _ => (refuseHere cause).bind fun _ (h : False) => h.elim

theorem forM {l : List α} {check : α → Decoder PUnit} {P : α → Prop}
    (h : ∀ a ∈ l, Finds (check a) fun _ => P a) : Finds (l.forM check) fun _ => ∀ a ∈ l, P a := by
  induction l with
  | nil => exact pure (by simp)
  | cons a l ih =>
    refine (h a (by simp)).bind fun _ ha => ?_
    refine (ih fun b hb => h b (by simp [hb])).imp ?_
    intro _ hl b hb
    rcases List.mem_cons.1 hb with rfl | hb
    · exact ha
    · exact hl b hb

/-! ## Bytes and numbers -/

theorem need (count : Nat) : Finds (Decoder.need count) fun _ => True :=
  get_bind fun _ => (check _ _).imp fun _ _ => trivial

theorem bytes (count : Nat) : Finds (Decoder.bytes count) fun b => b.length = count := by
  intro c
  by_cases h : Bytes.hasAtLeast count c.rest
  · refine .inl ⟨c.rest.take count, c.skip count, ?_, Nat.le_add_right _ _, ?_⟩
    · show ((if Bytes.hasAtLeast count c.rest = true then Pure.pure PUnit.unit
        else Decoder.refuse (.unexpectedEnd count) c.position : Decoder PUnit) c >>= _) = _
      rw [if_pos h]
      rfl
    · show (c.rest.take count).length = count
      rw [List.length_take, Nat.min_eq_left (Bytes.hasAtLeast_iff.1 h)]
  · refine .inr ⟨.unexpectedEnd count, c.position, ?_⟩
    show ((if Bytes.hasAtLeast count c.rest = true then Pure.pure PUnit.unit
      else Decoder.refuse (.unexpectedEnd count) c.position : Decoder PUnit) c >>= _) = _
    rw [if_neg h]
    rfl

/-- An unsigned number is below the size of its field. -/
theorem unsigned (width : Nat) : Finds (Decoder.unsigned width) fun n => n < 256 ^ width :=
  (bytes width).map fun b hb => hb ▸ Bytes.toNat_lt b

/-- A two's complement number is in the range of its field. -/
theorem signed (width : Nat) : Finds (Decoder.signed (width + 1)) fun n =>
    -(256 ^ width * 128) ≤ n ∧ n < 256 ^ width * 128 :=
  (bytes (width + 1)).map fun _ hb => Bytes.toInt_bounds hb

theorem byte : Finds Decoder.byte fun _ => True := (unsigned 1).map fun _ _ => trivial

theorem u1 : Finds Decoder.u1 fun n => n < 0x100 := unsigned 1

theorem u2 : Finds Decoder.u2 fun n => n < 0x10000 := unsigned 2

theorem u4 : Finds Decoder.u4 fun n => n < 0x100000000 := unsigned 4

/-- A decoder that begins with an unsigned number of two bytes. -/
theorem u2_bind {k : Nat → Decoder β} (h : ∀ n, n < 0x10000 → Finds (k n) R) :
    Finds (Decoder.u2 >>= k) R := u2.bind h

/-! ## Lists -/

theorem timesOnto (h : Finds d Q) (n : Nat) (acc : List α) :
    Finds (Decoder.timesOnto n d acc) fun as =>
      ∃ found, as = acc.reverse ++ found ∧ found.length = n ∧ ∀ a ∈ found, Q a := by
  induction n generalizing acc with
  | zero => exact pure ⟨[], by simp, rfl, by simp⟩
  | succ n ih =>
    refine h.bind fun a ha => ?_
    refine (ih (a :: acc)).imp ?_
    rintro as ⟨found, rfl, hlength, hfound⟩
    exact ⟨a :: found, by simp, by simp [hlength], by simpa [ha] using hfound⟩

theorem times (h : Finds d Q) (n : Nat) :
    Finds (Decoder.times n d) fun as => as.length = n ∧ ∀ a ∈ as, Q a := by
  refine (timesOnto h n []).imp ?_
  rintro as ⟨found, rfl, hlength, hfound⟩
  exact ⟨hlength, hfound⟩

theorem listOf (h : Finds d Q) :
    Finds (Decoder.listOf d) fun as => as.length < 0x10000 ∧ ∀ a ∈ as, Q a :=
  u2_bind fun n hn => (times h n).imp fun _ has => ⟨has.1 ▸ hn, has.2⟩

/-- A list of values, of which only the sort matters. -/
theorem all_listOf (h : Finds d Q) : Finds (Decoder.listOf d) fun as => ∀ a ∈ as, Q a :=
  (listOf h).imp fun _ has => has.2

/-- A decoder for each element of a list. -/
theorem mapM {γ : Type} {l : List γ} {f : γ → Decoder α} {P : γ → α → Prop}
    (h : ∀ x ∈ l, Finds (f x) (P x)) : Finds (l.mapM f) (List.Forall₂ P l) := by
  induction l with
  | nil => exact pure .nil
  | cons x l ih =>
    rw [List.mapM_cons]
    refine (h x (by simp)).bind fun a ha => ?_
    refine (ih fun y hy => h y (by simp [hy])).bind fun as has => ?_
    exact pure (.cons ha has)

/-! ## Attributes -/

variable {t : Table} {read : Text → Nat → σ → Decoder σ} {S : σ → Prop} {s : σ}

theorem entry (i : Nat) : Finds (t.entry i) fun e => some e ∈ t.entries := by
  unfold Table.entry
  split
  · next e he => exact pure (Array.mem_of_getElem? he)
  · exact refuseHere _

theorem wrongTag (expected : List Pool.Tag) (i : Nat) (e : Pool.Entry) :
    Finds (Table.wrongTag expected i e) Q := refuseHere _

theorem utf8 (i : Nat) : Finds (t.utf8 i) fun s => some (.utf8 s) ∈ t.entries := by
  refine (entry i).bind fun e he => ?_
  cases e with
  | utf8 s => exact pure he
  | _ => exact wrongTag _ _ _

section

variable {T : Nat → σ → Prop} {n : Nat} (h : ∀ name length n s, some (.utf8 name) ∈ t.entries →
  length < 0x100000000 → T n s → Finds (read name length s) (T (n + 1)))
include h

/-- An attribute, whose name is in the pool and whose length has four bytes. -/
theorem attribute_counted (hs : T n s) : Finds (Decoding.attribute_ t read s) (T (n + 1)) := by
  refine u2_bind fun i _ => ?_
  refine (utf8 i).bind fun name hname => ?_
  refine u4.bind fun length hlength => ?_
  refine position_bind fun start => ?_
  refine (need length).any_bind fun _ => ?_
  refine (h name length n s hname hlength hs).bind fun s' hs' => ?_
  refine position_bind fun stop => ?_
  exact check_bind fun _ => pure hs'

theorem attributeCount_counted (count : Nat) (hs : T n s) :
    Finds (attributeCount t read count s) (T (n + count)) := by
  induction count generalizing n s with
  | zero => exact pure hs
  | succ count ih =>
    refine (attribute_counted h hs).bind fun s' hs' => ?_
    rw [Nat.add_succ, ← Nat.succ_add]
    exact ih hs'

/-- The attributes of an entity, which are counted in two bytes. -/
theorem attributes_counted (hs : T 0 s) :
    Finds (Decoding.attributes t read s) fun s => ∃ n, n < 0x10000 ∧ T n s :=
  u2_bind fun count hcount => (attributeCount_counted h count hs).imp fun _ hs' =>
    ⟨count, hcount, (Nat.zero_add count) ▸ hs'⟩

end

/-- The attributes of an entity, whose names are in the pool. -/
theorem attributes_named (hs : S s)
    (h : ∀ name length s, some (.utf8 name) ∈ t.entries → S s → Finds (read name length s) S) :
    Finds (Decoding.attributes t read s) S :=
  (attributes_counted (T := fun _ => S) (fun name length _ s hname _ => h name length s hname) hs).imp
    fun _ ⟨_, _, hs'⟩ => hs'

theorem attributes (hs : S s) (h : ∀ name length s, S s → Finds (read name length s) S) :
    Finds (Decoding.attributes t read s) S :=
  attributes_named hs fun name length s _ => h name length s

end Finds

end ClassTree.Decoding
