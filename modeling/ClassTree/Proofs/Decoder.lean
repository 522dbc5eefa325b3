/-
# ClassTree.Proofs.Decoder — what a decoder reads

A decoder *reads* a value from some bytes if it finds that value at the front of every input that
begins with them, and stops right behind them. Reading composes as decoders do: the bytes of two
decoders in a row are those of the first one followed by those of the second one.

Not everything that can be written can be read. A decoder *parses* bytes if it stops right behind
them with a value of some sort, or fails; and a total one does not fail.
-/
import ClassTree.Decoding.Decoder
import ClassTree.Proofs.Bytes
import ClassTree.Proofs.Result

namespace ClassTree.Decoding

variable {α β : Type}

theorem Decoder.bind_eq_ok_iff {d : Decoder α} {k : α → Decoder β} {c c' : Cursor} {b : β} :
    (d >>= k) c = .ok (b, c') ↔ ∃ a middle, d c = .ok (a, middle) ∧ k a middle = .ok (b, c') := by
  show (d c >>= fun r => k r.1 r.2) = .ok (b, c') ↔ _
  rw [Result.bind_eq_ok_iff]
  simp

/-- Decoders in a row fail where one of them does. -/
theorem Decoder.bind_eq_error_iff {d : Decoder α} {k : α → Decoder β} {c : Cursor} {e : Error} :
    (d >>= k) c = .error e ↔ d c = .error e ∨ ∃ a middle, d c = .ok (a, middle) ∧
      k a middle = .error e := by
  show (d c >>= fun r => k r.1 r.2) = .error e ↔ _
  rw [Result.bind_eq_error_iff]
  simp

/-- A decoder finds a value at the front of every input that begins with some bytes, and stops right
behind them. -/
def Reads (d : Decoder α) (bytes : Bytes) (a : α) : Prop :=
  ∀ position rest, d ⟨position, bytes ++ rest⟩ = .ok (a, ⟨position + bytes.length, rest⟩)

namespace Reads

variable {d : Decoder α} {k : α → Decoder β} {bytes bytes' : Bytes} {a : α} {b : β}

/-! ## Composition -/

theorem pure (a : α) : Reads (Pure.pure a) [] a := fun _ _ => rfl

/-- Decoders in a row read bytes in a row. -/
theorem bind (h : Reads d bytes a) (hk : Reads (k a) bytes' b) :
    Reads (d >>= k) (bytes ++ bytes') b := by
  intro position rest
  show (d ⟨position, bytes ++ bytes' ++ rest⟩ >>= fun r => k r.1 r.2) = _
  rw [List.append_assoc, h]
  show k a ⟨position + bytes.length, bytes' ++ rest⟩ = _
  rw [hk, List.length_append, Nat.add_assoc]

theorem cast (heq : bytes' = bytes) (h : Reads d bytes a) : Reads d bytes' a := heq ▸ h

theorem bind_nil (h : Reads d bytes a) (hk : Reads (k a) [] b) : Reads (d >>= k) bytes b := by
  have := h.bind hk
  rwa [List.append_nil] at this

/-- A decoder that reads nothing followed by one that reads all. -/
theorem nil_bind (h : Reads d [] a) (hk : Reads (k a) bytes b) : Reads (d >>= k) bytes b :=
  h.bind hk

theorem map (h : Reads d bytes a) (f : α → β) :
    Reads (do return f (← d)) bytes (f a) := h.bind_nil (pure (f a))

theorem at_position {f : Nat → Decoder α} (h : ∀ n, Reads (f n) bytes a) :
    Reads (Decoder.position >>= f) bytes a := fun position rest => h position position rest

theorem unique {a' : α} (h : Reads d bytes a) (h' : Reads d bytes a') : a = a' := by
  have heq := h 0 []
  rw [h' 0 []] at heq
  cases heq
  rfl

theorem of_bind {position : Nat} {rest : Bytes} {r : Except Error (β × Cursor)} (h : Reads d bytes a)
    (hread : (d >>= k) ⟨position, bytes ++ rest⟩ = r) : k a ⟨position + bytes.length, rest⟩ = r := by
  rw [← hread]
  show _ = d ⟨position, bytes ++ rest⟩ >>= fun p => k p.1 p.2
  rw [h position rest]
  rfl

theorem run_nil (h : Reads d bytes a) (position : Nat) :
    d ⟨position, bytes⟩ = .ok (a, ⟨position + bytes.length, []⟩) := by
  have := h position []
  rwa [List.append_nil] at this

/-! ## Bytes -/

theorem need {count : Nat} {position : Nat} {rest : Bytes} (h : count ≤ rest.length) :
    Decoder.need count ⟨position, rest⟩ = .ok ((), ⟨position, rest⟩) := by
  have hat := Bytes.hasAtLeast_iff.2 h
  show (if Bytes.hasAtLeast count rest = true then Pure.pure PUnit.unit
    else Decoder.refuse (.unexpectedEnd count) position : Decoder PUnit) ⟨position, rest⟩ = _
  rw [if_pos hat]
  rfl

protected theorem bytes (bytes : Bytes) : Reads (Decoder.bytes bytes.length) bytes bytes := by
  intro position rest
  show (Decoder.need bytes.length ⟨position, bytes ++ rest⟩ >>= fun r =>
    (do
      let c ← get
      set (c.skip bytes.length)
      return c.rest.take bytes.length : Decoder Bytes) r.2) = _
  rw [need (by simp)]
  show Except.ok ((bytes ++ rest).take bytes.length,
    (⟨position + bytes.length, (bytes ++ rest).drop bytes.length⟩ : Cursor)) = _
  rw [List.take_left, List.drop_left]

theorem bytes_of_length {count : Nat} (h : bytes.length = count) :
    Reads (Decoder.bytes count) bytes bytes := h ▸ Reads.bytes bytes

theorem skip {count : Nat} (h : bytes.length = count) : Reads (Decoder.skip count) bytes () := by
  intro position rest
  subst h
  show Except.ok ((), (⟨position + bytes.length, (bytes ++ rest).drop bytes.length⟩ : Cursor)) = _
  rw [List.drop_left]

/-! ## Numbers -/

theorem unsigned {width : Nat} (h : bytes.length = width) :
    Reads (Decoder.unsigned width) bytes bytes.toNat := (bytes_of_length h).map Bytes.toNat

theorem signed {width : Nat} (h : bytes.length = width) :
    Reads (Decoder.signed width) bytes bytes.toInt := (bytes_of_length h).map Bytes.toInt

theorem byte (b : UInt8) : Reads Decoder.byte [b] b := by
  have h := (unsigned (rfl : [b].length = 1)).map UInt8.ofNat
  have hb : UInt8.ofNat (Bytes.toNat [b]) = b := by
    rw [← UInt8.toNat_inj, UInt8.toNat_ofNat', Bytes.toNat]
    have := b.toNat_lt
    simp only [List.foldl_cons, List.foldl_nil]
    omega
  rwa [hb] at h

/-- An unsigned number from the field that it was written to. -/
theorem of_unsigned? {width : Nat} {n : Nat} (h : Bytes.unsigned? width n = some bytes) :
    Reads (Decoder.unsigned width) bytes n := by
  obtain ⟨hlength, hn⟩ := Bytes.unsigned?_eq_some_iff.1 h
  have hread := unsigned hlength
  rwa [← Int.ofNat.inj hn] at hread

/-- A two's complement number from the field that it was written to. -/
theorem of_signed? {width : Nat} {n : Int} (h : Bytes.signed? (width + 1) n = some bytes) :
    Reads (Decoder.signed (width + 1)) bytes n := by
  obtain ⟨hlength, hn⟩ := Bytes.signed?_eq_some_iff.1 h
  have hread := signed hlength
  rwa [← hn] at hread

/-! ## Lists -/

theorem timesOnto {as : List α} {parts : List Bytes} (h : List.Forall₂ (Reads d) parts as)
    (acc : List α) :
    Reads (Decoder.timesOnto as.length d acc) parts.flatten (acc.reverse ++ as) := by
  induction h generalizing acc with
  | nil =>
    rw [List.append_nil]
    exact pure acc.reverse
  | @cons part a parts as hpart _ ih =>
    have htail := ih (a :: acc)
    rw [List.reverse_cons, List.append_assoc] at htail
    exact hpart.bind htail

theorem times {as : List α} {parts : List Bytes} (h : List.Forall₂ (Reads d) parts as) :
    Reads (Decoder.times as.length d) parts.flatten as := timesOnto h []

theorem listOf {as : List α} {count : Bytes} {parts : List Bytes}
    (hcount : Bytes.unsigned? 2 as.length = some count) (h : List.Forall₂ (Reads d) parts as) :
    Reads (Decoder.listOf d) (count ++ parts.flatten) as :=
  (of_unsigned? hcount).bind (times h)

end Reads

/-- At the front of every input that begins with some bytes, a decoder finds a value of some sort
and stops right behind the bytes, or else it fails, which a total one does not. -/
def Parses (total : Prop) (d : Decoder α) (bytes : Bytes) (Q : α → Prop) : Prop :=
  ∀ position rest,
    (∃ a, Q a ∧ d ⟨position, bytes ++ rest⟩ = .ok (a, ⟨position + bytes.length, rest⟩)) ∨
      (¬ total ∧ ∃ e, d ⟨position, bytes ++ rest⟩ = .error e)

theorem Reads.parses {d : Decoder α} {bytes : Bytes} {a : α} {Q : α → Prop} {total : Prop}
    (h : Reads d bytes a) (ha : Q a) : Parses total d bytes Q :=
  fun position rest => .inl ⟨a, ha, h position rest⟩

namespace Parses

variable {total : Prop} {d : Decoder α} {k : α → Decoder β} {bytes bytes' : Bytes} {a : α} {b : β}
  {Q Q' : α → Prop} {R : β → Prop}

/-! ## Composition -/

/-- What is parsed without fail as one value is read. -/
theorem reads (h : Parses True d bytes (· = a)) : Reads d bytes a := by
  intro position rest
  rcases h position rest with ⟨a, rfl, heq⟩ | ⟨hnot, -⟩
  · exact heq
  · exact absurd trivial hnot

theorem exists_eq_ok (h : Parses True d bytes Q) (position : Nat) (rest : Bytes) :
    ∃ a, Q a ∧ d ⟨position, bytes ++ rest⟩ = .ok (a, ⟨position + bytes.length, rest⟩) :=
  (h position rest).resolve_right fun hnot => hnot.1 trivial

theorem imp (h : Parses total d bytes Q) (hQ : ∀ a, Q a → Q' a) : Parses total d bytes Q' := by
  intro position rest
  rcases h position rest with ⟨a, ha, heq⟩ | hfail
  · exact .inl ⟨a, hQ a ha, heq⟩
  · exact .inr hfail

theorem cast (heq : bytes' = bytes) (h : Parses total d bytes Q) : Parses total d bytes' Q := heq ▸ h

theorem pure (ha : Q a) : Parses total (Pure.pure a) [] Q := (Reads.pure a).parses ha

theorem fail (h : ¬ total) (cause : Malformed) (offset : Nat) :
    Parses total (Decoder.refuse cause offset : Decoder α) bytes Q :=
  fun _ _ => .inr ⟨h, _, rfl⟩

/-- Decoders in a row parse bytes in a row. -/
theorem bind (h : Parses total d bytes Q) (hk : ∀ a, Q a → Parses total (k a) bytes' R) :
    Parses total (d >>= k) (bytes ++ bytes') R := by
  intro position rest
  rw [List.append_assoc]
  rcases h position (bytes' ++ rest) with ⟨a, ha, heq⟩ | ⟨hnot, e, heq⟩
  · have hstep : (d >>= k) ⟨position, bytes ++ (bytes' ++ rest)⟩ =
        k a ⟨position + bytes.length, bytes' ++ rest⟩ := by
      show (d ⟨position, bytes ++ (bytes' ++ rest)⟩ >>= fun r => k r.1 r.2) = _
      rw [heq]
      rfl
    rw [hstep, List.length_append, ← Nat.add_assoc]
    exact hk a ha _ rest
  · refine .inr ⟨hnot, e, ?_⟩
    show (d ⟨position, bytes ++ (bytes' ++ rest)⟩ >>= fun r => k r.1 r.2) = _
    rw [heq]
    rfl

theorem of_reads (h : Reads d bytes a) (hk : Parses total (k a) bytes' R) :
    Parses total (d >>= k) (bytes ++ bytes') R := by
  refine (h.parses (Q := (· = a)) rfl).bind ?_
  rintro a rfl
  exact hk

/-- A decoder that reads nothing followed by one that parses. -/
theorem nil_bind (h : Reads d [] a) (hk : Parses total (k a) bytes R) :
    Parses total (d >>= k) bytes R := of_reads h hk

theorem bind_nil (h : Parses total d bytes Q) (hk : ∀ a, Q a → Parses total (k a) [] R) :
    Parses total (d >>= k) bytes R := by
  have := h.bind hk
  rwa [List.append_nil] at this

theorem map (h : Parses total d bytes Q) (f : α → β) (hR : ∀ a, Q a → R (f a)) :
    Parses total (do return f (← d)) bytes R := h.bind_nil fun a ha => .pure (hR a ha)

theorem at_position {f : Nat → Decoder α} (h : ∀ n, Parses total (f n) bytes Q) :
    Parses total (Decoder.position >>= f) bytes Q := fun position rest => h position position rest

/-- What is skipped at first is read afterwards: if some bytes have been passed over and a decoder
has read on behind them, going back to them reads them as if nothing had happened in between. -/
theorem elsewhere {γ : Type} {e : Decoder β} {f : Nat → α → β → γ} {n : Nat} {T : γ → Prop}
    (hn : bytes.length = n) (hd : Parses True d bytes' Q) (he : Reads e bytes b)
    (hf : ∀ n a, Q a → T (f n a b)) :
    Parses True (do
      let c ← get
      Decoder.need n
      Decoder.skip n
      let a ← d
      let b ← Decoder.elsewhere c e
      return f c.position a b) (bytes ++ bytes') T := by
  subst hn
  intro position rest
  obtain ⟨a, ha, heq⟩ := hd.exists_eq_ok (position + bytes.length) rest
  refine .inl ⟨f position a b, hf position a ha, ?_⟩
  rw [List.append_assoc, List.length_append, ← Nat.add_assoc]
  refine Decoder.bind_eq_ok_iff.2 ⟨_, _, rfl, ?_⟩
  refine Decoder.bind_eq_ok_iff.2 ⟨_, _, Reads.need (by simp), ?_⟩
  refine Decoder.bind_eq_ok_iff.2 ⟨_, _, Reads.skip rfl position (bytes' ++ rest), ?_⟩
  refine Decoder.bind_eq_ok_iff.2 ⟨a, _, heq, ?_⟩
  refine Decoder.bind_eq_ok_iff.2 ⟨b, ⟨position + bytes.length + bytes'.length, rest⟩, ?_, rfl⟩
  refine Decoder.bind_eq_ok_iff.2 ⟨_, _, rfl, Decoder.bind_eq_ok_iff.2 ⟨_, _, rfl, ?_⟩⟩
  exact Decoder.bind_eq_ok_iff.2 ⟨b, _, he position _, rfl⟩

/-! ## Lists -/

variable {γ : Type} {S : γ → α → Prop}

theorem timesOnto {things : List γ} {parts : List Bytes}
    (h : List.Forall₂ (fun thing part => Parses total d part (S thing)) things parts)
    (acc : List α) :
    Parses total (Decoder.timesOnto things.length d acc) parts.flatten
      (fun as => ∃ found, as = acc.reverse ++ found ∧ List.Forall₂ S things found) := by
  induction h generalizing acc with
  | nil => exact .pure ⟨[], (List.append_nil _).symm, .nil⟩
  | @cons thing part things parts hpart _ ih =>
    refine hpart.bind ?_
    intro a ha
    refine (ih (a :: acc)).imp ?_
    rintro as ⟨found, rfl, hfound⟩
    refine ⟨a :: found, ?_, .cons ha hfound⟩
    rw [List.reverse_cons, List.append_assoc]
    rfl

theorem times {things : List γ} {parts : List Bytes}
    (h : List.Forall₂ (fun thing part => Parses total d part (S thing)) things parts) :
    Parses total (Decoder.times things.length d) parts.flatten (List.Forall₂ S things) := by
  refine (timesOnto h []).imp ?_
  rintro as ⟨found, rfl, hfound⟩
  exact hfound

theorem listOf {things : List γ} {count : Bytes} {parts : List Bytes}
    (hcount : Bytes.unsigned? 2 things.length = some count)
    (h : List.Forall₂ (fun thing part => Parses total d part (S thing)) things parts) :
    Parses total (Decoder.listOf d) (count ++ parts.flatten) (List.Forall₂ S things) :=
  of_reads (Reads.of_unsigned? hcount) (times h)

/-! ## Without bytes -/

theorem check {p : Prop} [Decidable p] (h : p) (cause : Malformed) (offset : Nat) :
    Parses total (do unless p do Decoder.refuse cause offset) [] fun _ => True := by
  rw [if_pos h]
  exact .pure trivial

/-- A decoder that takes no bytes for each element of a list. -/
theorem mapM_nil {l : List γ} {f : γ → Decoder α} (h : ∀ x ∈ l, Parses total (f x) [] (S x)) :
    Parses total (l.mapM f) [] (List.Forall₂ S l) := by
  induction l with
  | nil => exact .pure .nil
  | cons x l ih =>
    rw [List.mapM_cons]
    refine (h x (by simp)).bind_nil fun a ha => ?_
    refine (ih fun y hy => h y (by simp [hy])).bind_nil fun as has => ?_
    exact .pure (.cons ha has)

theorem forM_nil {l : List γ} {f : γ → Decoder PUnit}
    (h : ∀ x ∈ l, Parses total (f x) [] fun _ => True) :
    Parses total (l.forM f) [] fun _ => True := by
  induction l with
  | nil => exact .pure trivial
  | cons x l ih =>
    refine (h x (by simp)).bind_nil fun _ _ => ?_
    exact ih fun y hy => h y (by simp [hy])

end Parses

end ClassTree.Decoding
