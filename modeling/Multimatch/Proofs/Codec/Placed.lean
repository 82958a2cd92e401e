import Multimatch.Codec.Reader

/-!
# Parts of a byte array by their places

`bytes.Holds place part` says that the bytes of `part` are those of `bytes` from `place` on. A
writer that puts its parts one after the other is read back through it: an array that holds `a ++ b`
holds `a`, and `b` behind it (`Holds.left`, `Holds.right`), and a word or a slice is read where it
is held (`Holds.wordAt`, `Holds.slice`). The readers of whole lists go through
`mapM_range_eq_ok_iff`.
-/

namespace Multimatch

theorem Ident.wrap_toNat {kind : IdentKind} (ident : Ident kind) :
    Ident.wrap ident.toNat = ident := by
  cases ident
  simp [Ident.wrap, Ident.toNat]

theorem Ident.toNat_inj {kind : IdentKind} {a b : Ident kind} (h : a.toNat = b.toNat) : a = b := by
  rw [← Ident.wrap_toNat a, ← Ident.wrap_toNat b, h]

theorem Ident.toNat_lt {kind : IdentKind} (ident : Ident kind) : ident.toNat < 1 <<< 32 :=
  ident.val.toNat_lt

theorem Endian.ofLittleBytes_lt (bytes : List UInt8) :
    ofLittleBytes bytes < 1 <<< (8 * bytes.length) := by
  induction bytes with
  | nil => decide
  | cons byte bytes ih =>
    have hbyte := byte.toNat_lt
    rw [ofLittleBytes, List.length_cons, shiftLeft_bytes_succ]
    omega

/-! ## Reading lists -/

section Lists

variable {ε α β : Type}

theorem mapM_eq_ok_iff {f : α → Except ε β} {xs : List α} {ys : List β} :
    xs.mapM f = .ok ys ↔ xs.map f = ys.map .ok := by
  induction xs generalizing ys with
  | nil => cases ys <;> simp [pure, Except.pure]
  | cons x xs ih =>
    rw [List.mapM_cons, List.map_cons]
    cases hx : f x with
    | error e => cases ys <;> simp [bind, Except.bind]
    | ok y =>
      cases hxs : xs.mapM f with
      | error e =>
        cases ys with
        | nil => simp [bind, Except.bind]
        | cons z zs =>
          have hne : xs.map f ≠ zs.map .ok := fun h => by rw [ih.2 h] at hxs; cases hxs
          simp [bind, Except.bind, hne]
      | ok rest =>
        cases ys with
        | nil => simp [bind, Except.bind, pure, Except.pure]
        | cons z zs =>
          have hrest := @ih zs
          rw [hxs, Except.ok.injEq] at hrest
          simp [bind, Except.bind, pure, Except.pure, hrest]

theorem mapM_range_eq_ok_iff {f : Nat → Except ε β} {count : Nat} {ys : List β} :
    (List.range count).mapM f = .ok ys ↔
      ys.length = count ∧ ∀ i (h : i < ys.length), f i = .ok ys[i] := by
  rw [mapM_eq_ok_iff]
  constructor
  · intro h
    have hlen : count = ys.length := by simpa using congrArg List.length h
    refine ⟨hlen.symm, fun i hi => ?_⟩
    have := List.getElem_of_eq h (i := i) (by simpa [hlen] using hi)
    simpa using this
  · rintro ⟨rfl, h⟩
    apply List.ext_getElem (by simp)
    intro i h₁ h₂
    simpa using h i (by simpa using h₂)

theorem length_of_mapM {f : α → Except ε β} {xs : List α} {ys : List β} (h : xs.mapM f = .ok ys) :
    ys.length = xs.length := by
  simpa using (congrArg List.length (mapM_eq_ok_iff.1 h)).symm

/-- A list is read if each of its elements is, and what holds of each of them holds of all. -/
theorem exists_mapM_eq_ok_of_forall {f : α → Except ε β} {P : β → Prop} {xs : List α}
    (h : ∀ x ∈ xs, ∃ y, f x = .ok y ∧ P y) : ∃ ys, xs.mapM f = .ok ys ∧ ∀ y ∈ ys, P y := by
  induction xs with
  | nil => exact ⟨[], rfl, nofun⟩
  | cons x xs ih =>
    obtain ⟨y, hy, hfirst⟩ := h x List.mem_cons_self
    obtain ⟨ys, hys, hrest⟩ := ih fun z hz => h z (List.mem_cons_of_mem _ hz)
    refine ⟨y :: ys, mapM_eq_ok_iff.2 ?_, List.forall_mem_cons.2 ⟨hfirst, hrest⟩⟩
    rw [List.map_cons, hy, mapM_eq_ok_iff.1 hys]
    rfl

theorem exists_mapM_eq_ok {f : α → Except ε β} {xs : List α}
    (h : ∀ x ∈ xs, ∃ y, f x = .ok y) : ∃ ys, xs.mapM f = .ok ys := by
  have hall : ∀ x ∈ xs, ∃ y, f x = .ok y ∧ True := fun x hx =>
    (h x hx).imp fun _ hy => ⟨hy, trivial⟩
  exact (exists_mapM_eq_ok_of_forall hall).imp fun _ hys => hys.1

end Lists

namespace Bytes

/-- From `place` on, the bytes are those of `part`. -/
def Holds (bytes : Bytes) (place : Nat) (part : List UInt8) : Prop :=
  ∃ before after, bytes.toList = before ++ part ++ after ∧ before.length = place

namespace Holds

variable {bytes : Bytes} {place : Nat} {part : List UInt8}

theorem refl (part : List UInt8) : Holds part.toArray 0 part := ⟨[], [], by simp, rfl⟩

theorem left {a b : List UInt8} (h : bytes.Holds place (a ++ b)) : bytes.Holds place a := by
  obtain ⟨before, after, heq, hlen⟩ := h
  exact ⟨before, b ++ after, by simpa using heq, hlen⟩

theorem right {a b : List UInt8} (h : bytes.Holds place (a ++ b)) :
    bytes.Holds (place + a.length) b := by
  obtain ⟨before, after, heq, hlen⟩ := h
  exact ⟨before ++ a, after, by simpa using heq, by simp [hlen]⟩

theorem size_le (h : bytes.Holds place part) : place + part.length ≤ bytes.size := by
  obtain ⟨before, after, heq, hlen⟩ := h
  have := congrArg List.length heq
  simp only [Array.length_toList, List.length_append] at this
  omega

theorem toList_extract (h : bytes.Holds place part) :
    (bytes.extract place (place + part.length)).toList = part := by
  obtain ⟨before, after, heq, rfl⟩ := h
  rw [Array.toList_extract, List.extract_eq_take_drop, heq, Nat.add_sub_cancel_left,
    List.append_assoc, List.drop_left, List.take_left]

theorem slice (h : bytes.Holds place part) :
    bytes.slice place (place + part.length) = .ok part.toArray := by
  rw [slice_eq_ok (Nat.le_add_right ..) h.size_le]
  exact congrArg Except.ok (Array.toList_inj.1 h.toList_extract)

/-- A word is read from the bytes that are held, in whatever order they were written. -/
theorem wordAt_decode (h : bytes.Holds place part) :
    bytes.wordAt place part.length = .ok (Endian.native.decode part) := by
  rw [wordAt_eq_ok h.size_le, h.toList_extract]

/-- A word is read back up to the width in which it was written. -/
theorem wordAt_mod {width value : Nat} (h : bytes.Holds place (Endian.native.encode width value)) :
    bytes.wordAt place width = .ok (value % (1 <<< (8 * width))) := by
  have hword := h.wordAt_decode
  rwa [Endian.length_encode, Endian.decode_encode] at hword

theorem wordAt {width value : Nat} (h : bytes.Holds place (Endian.native.encode width value))
    (hfit : value < 1 <<< (8 * width)) : bytes.wordAt place width = .ok value := by
  rw [h.wordAt_mod, Nat.mod_eq_of_lt hfit]

/-- Parts of one length are found at multiples of it. -/
theorem flatMap {α : Type} {xs : List α} {f : α → List UInt8} {n : Nat}
    (h : bytes.Holds place (xs.flatMap f)) (hlen : ∀ x ∈ xs, (f x).length = n) {i : Nat}
    (hi : i < xs.length) : bytes.Holds (place + n * i) (f xs[i]) := by
  induction xs generalizing place i with
  | nil => cases hi
  | cons x xs ih =>
    rw [List.flatMap_cons] at h
    cases i with
    | zero => exact h.left
    | succ i =>
      have hx := hlen x List.mem_cons_self
      have := ih h.right (fun y hy => hlen y (List.mem_cons_of_mem _ hy))
        (Nat.lt_of_succ_lt_succ hi)
      rw [hx] at this
      rw [Nat.mul_succ, ← Nat.add_assoc, Nat.add_right_comm]
      exact this

end Holds

/-- A word of so many bytes has no more bits than they do. -/
theorem wordAt_lt {bytes : Bytes} {place width word : Nat}
    (h : bytes.wordAt place width = .ok word) : word < 1 <<< (8 * width) := by
  unfold wordAt at h
  split at h
  · next hinside =>
    cases h
    have hlength : (bytes.extract place (place + width)).toList.length = width := by
      rw [Array.length_toList, Array.size_extract]
      omega
    have hlt := Endian.ofLittleBytes_lt (bytes.extract place (place + width)).toList
    rwa [hlength] at hlt
  · cases h

theorem inside_of_wordAt {bytes : Bytes} {place width word : Nat}
    (h : bytes.wordAt place width = .ok word) : place + width ≤ bytes.size := by
  unfold wordAt at h
  split at h
  · assumption
  · cases h

end Bytes

/-! ## Checked readers

Where a word can be read, the readers that check first read the same word. -/

theorem Failure.liftM_ok {ε α : Type} (value : α) :
    (liftM (Except.ok value : Except Fault α) : Except (Failure ε) α) = .ok value := rfl

namespace Reader

theorem tryWordAt_eq {bytes : Bytes} {place width word : Nat} (what : String)
    (h : bytes.wordAt place width = .ok word) : tryWordAt bytes place width what = .ok word := by
  have hin := Bytes.inside_of_wordAt h
  have hplace : ¬ bytes.size < place := by omega
  have hroom : ¬ bytes.size - place < width := by omega
  simp only [tryWordAt, hplace, if_false, checkLength, hroom, h]
  rfl

/-- An identifier that was written is read back if it is valid and else refused. -/
theorem tryLiteralIdAt_eq {bytes : Bytes} {place : Nat} {id : LiteralId} (what : String)
    (h : bytes.wordAt place Ident.byteSize = .ok id.toNat) :
    tryLiteralIdAt bytes place what
      = if id.IsValid then .ok id else .error (.refused (.badLiteralId ⟨id.toNat⟩)) := by
  simp only [tryLiteralIdAt, tryWordAt_eq what h, bind, Except.bind, Ident.ofNat, Ident.IsValid]
  by_cases hvalid : id.toNat ≤ Ident.maxValue
  · simp only [hvalid, if_true, Ident.wrap_toNat]
    rfl
  · simp only [hvalid, if_false]
    rfl

end Reader

end Multimatch
