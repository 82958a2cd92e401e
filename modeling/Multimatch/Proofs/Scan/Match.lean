import Multimatch.Proofs.Scan.Naive
import Multimatch.Proofs.Table.Built

/-!
# What a candidate confirms

An entry of the confirm lists is confirmed exactly where its literal ends and one of its groups is
live: the quick check lets through whatever matches (`ConfirmEntry.passesQuickCheck_of_endsWith`).
The last byte of a match leads to the list that has the entry, so that a bucket confirms exactly its
literals that end at a place (`ConfirmLists.confirm_of`).
-/

namespace Multimatch

/-! ## Letters -/

namespace Letter

theorem forall_of_lt {p : UInt8 → Prop} (h : ∀ value < 256, p (UInt8.ofNat value)) (byte : UInt8) :
    p byte := by
  have hbyte := h byte.toNat byte.toNat_lt
  rwa [UInt8.ofNat_toNat] at hbyte

theorem mem_variants_of_agree {nocase : Bool} {a b : UInt8} (h : agree nocase a b = true) :
    b ∈ variants nocase a := by
  cases nocase with
  | false =>
    have hab : a = b := by simpa [agree] using h
    rw [hab]
    exact List.mem_cons_self
  | true =>
    have hlower : lower a = lower b := by simpa [agree] using h
    have hown := forall_of_lt (p := fun c => c ∈ variants true (lower c)) (by decide +kernel) b
    have hsame := forall_of_lt (p := fun c => variants true (lower c) = variants true c)
      (by decide +kernel) a
    rwa [← hlower, hsame] at hown

/-- What is checked for the variants of every byte holds of a variant. -/
theorem of_mem_variants {p : Bool → UInt8 → UInt8 → Bool}
    (h : ∀ value < 256, ([false, true].all fun nocase =>
      (variants nocase (.ofNat value)).all (p nocase (.ofNat value))) = true)
    {nocase : Bool} {a b : UInt8} (hb : b ∈ variants nocase a) : p nocase a b = true := by
  have hall := forall_of_lt (p := fun a =>
    ([false, true].all fun nocase => (variants nocase a).all (p nocase a)) = true) h a
  have hcase := List.all_eq_true.1 hall nocase (by cases nocase <;> decide)
  exact List.all_eq_true.1 hcase b hb

/-- The cases of a letter do not differ in their low bits. -/
theorem mod_eq_of_mem_variants {nocase : Bool} {a b : UInt8} (h : b ∈ variants nocase a) :
    b.toNat % 32 = a.toNat % 32 :=
  eq_of_beq (of_mem_variants (p := fun _ a b => b.toNat % 32 == a.toNat % 32)
    (by decide +kernel) h)

/-- A quick check takes every byte that agrees with that of the literal. -/
theorem and_quickMaskByte {nocase : Bool} {a b : UInt8} (h : agree nocase a b = true) :
    b &&& ConfirmEntry.quickMaskByte nocase a = ConfirmEntry.quickByte nocase a :=
  eq_of_beq (of_mem_variants (p := fun nocase a b =>
    b &&& ConfirmEntry.quickMaskByte nocase a == ConfirmEntry.quickByte nocase a)
    (by decide +kernel) (mem_variants_of_agree h))

end Letter

/-- The cases of a letter lie in one part of a bucket that is split by at most five bits. -/
theorem Scheme.splitIndex_eq_of_mem_variants {scheme : Scheme} (hsplit : scheme.split ≤ 5)
    {nocase : Bool} {a b : UInt8} (hvariant : b ∈ Letter.variants nocase a) :
    scheme.splitIndex b = scheme.splitIndex a := by
  have hdvd : 1 <<< scheme.split ∣ 32 := by
    rw [Nat.one_shiftLeft]
    exact Nat.pow_dvd_pow 2 hsplit
  rw [splitIndex, splitIndex, ← Nat.mod_mod_of_dvd b.toNat hdvd, ← Nat.mod_mod_of_dvd a.toNat hdvd,
    Letter.mod_eq_of_mem_variants hvariant]

/-- Bytes that agree belong to the same list of a bucket. -/
theorem Scheme.IsKnown.splitIndex_eq {scheme : Scheme} (h : scheme.IsKnown) {nocase : Bool}
    {a b : UInt8} (hvariant : b ∈ Letter.variants nocase a) :
    scheme.splitIndex b = scheme.splitIndex a :=
  splitIndex_eq_of_mem_variants (Nat.le_trans h.split_le (by decide)) hvariant

/-! ## Views -/

namespace View

/-- Where the needle ends, each of its bytes agrees with that of the text. -/
theorem exists_byte_of_endsWith {view : View} {place : Nat} {needle : Bytes} {nocase : Bool}
    (h : view.endsWith place needle nocase = true) {index : Nat} (hindex : index < needle.size) :
    ∃ byte, view.text[place - needle.size + index]? = some byte
      ∧ Letter.agree nocase needle[index] byte = true := by
  have hagrees := (endsWith_eq_true_iff.1 h).2 index hindex
  unfold agreesAt at hagrees
  rw [Array.getElem?_eq_getElem hindex] at hagrees
  cases hbyte : view.text[place - needle.size + index]? with
  | none => rw [hbyte] at hagrees; cases hagrees
  | some byte => exact ⟨byte, rfl, by simpa [hbyte] using hagrees⟩

/-- The needle ends at a place if the text has a byte that agrees for each of its bytes. -/
theorem endsWith_of_forall {view : View} {place : Nat} {needle : Bytes} {nocase : Bool}
    (hroom : needle.size ≤ place)
    (h : ∀ index (hindex : index < needle.size), ∃ byte,
      view.text[place - needle.size + index]? = some byte
        ∧ Letter.agree nocase needle[index] byte = true) :
    view.endsWith place needle nocase = true := by
  refine endsWith_eq_true_iff.2 ⟨hroom, fun index hindex => ?_⟩
  obtain ⟨byte, hbyte, hagree⟩ := h index hindex
  simp only [agreesAt, Array.getElem?_eq_getElem hindex, hbyte, hagree]

/-- Where both views have a byte, counted from the start of the buffer, they have the same one. -/
def Aligned (a b : View) : Prop :=
  ∀ (i j : Nat) (x y : UInt8), i + b.origin = j + a.origin →
    a.text[i]? = some x → b.text[j]? = some y → x = y

theorem Aligned.symm {a b : View} (h : Aligned a b) : Aligned b a :=
  fun i j x y hplaces hx hy => (h j i y x hplaces.symm hy hx).symm

theorem aligned_of_suffix {short long buffer : Bytes} (h : short.toList <:+ long.toList) :
    Aligned (.of short buffer) (.of long buffer) := by
  obtain ⟨more, hmore⟩ := h
  intro i j x y hplaces hx hy
  have hsizes : more.length + short.size = long.size := by
    simpa using congrArg List.length hmore
  have hj : j = more.length + i := by
    simp only [View.of] at hplaces
    omega
  rw [View.of, ← Array.getElem?_toList, Array.toList_append] at hx hy
  rw [hj, ← hmore, List.append_assoc, List.getElem?_append_right (Nat.le_add_right ..),
    Nat.add_sub_cancel_left, hx] at hy
  exact Option.some.inj hy

end View

theorem ScanInput.HistoriesAgree.aligned {input : ScanInput} (h : input.HistoriesAgree) :
    View.Aligned (.of input.history input.buffer) (.of input.caselessHistory input.buffer) :=
  h.elim View.aligned_of_suffix fun hsuffix => (View.aligned_of_suffix hsuffix).symm

namespace Literal

/-- The view that counts for a literal. -/
def viewIn (literal : Literal) (cased caseless : View) : View :=
  if literal.nocase then caseless else cased

/-- The literal matches what the views have before an end of the buffer. -/
def EndsIn (literal : Literal) (cased caseless : View) (matchEnd : Nat) : Prop :=
  let view := literal.viewIn cased caseless
  view.endsWith (view.placeOf matchEnd) literal.bytes.toArray literal.nocase = true

theorem accepts_iff {literal : Literal} {haystack : List UInt8} :
    literal.accepts haystack = true ↔ haystack.length = literal.length
      ∧ ∀ index (hindex : index < literal.bytes.toArray.size), ∃ byte,
          haystack[index]? = some byte
            ∧ Letter.agree literal.nocase literal.bytes.toArray[index] byte = true := by
  rw [accepts, List.isEqv_eq_decide]
  constructor
  · intro h
    split at h
    · next hlength =>
      refine ⟨hlength.symm, fun index hindex => ?_⟩
      have hindex : index < literal.bytes.length := hindex
      exact ⟨haystack[index], List.getElem?_eq_getElem _, of_decide_eq_true h index hindex⟩
    · cases h
  · rintro ⟨hlength, h⟩
    have hlength : literal.bytes.length = haystack.length := hlength.symm
    rw [dif_pos hlength]
    refine decide_eq_true fun index hindex => ?_
    obtain ⟨byte, hbyte, hagree⟩ := h index hindex
    obtain ⟨_, rfl⟩ := List.getElem?_eq_some_iff.1 hbyte
    exact hagree

/-- Each byte of a literal that ends somewhere agrees with the byte of the cased text, if the text
reaches back so far. -/
theorem EndsIn.agree {literal : Literal} {cased caseless : View} {matchEnd : Nat}
    (h : literal.EndsIn cased caseless matchEnd) (haligned : View.Aligned cased caseless)
    {index place : Nat} (hindex : index < literal.bytes.length)
    (hplace : place + literal.length = cased.origin + matchEnd + index) {byte : UInt8}
    (hbyte : cased.text[place]? = some byte) :
    Letter.agree literal.nocase literal.bytes[index] byte = true := by
  have hroom := (View.endsWith_eq_true_iff.1 h).1
  obtain ⟨found, hfound, hagree⟩ := View.exists_byte_of_endsWith h hindex
  have hsame : found = byte := by
    unfold viewIn View.placeOf at hfound hroom
    have hsize : literal.bytes.toArray.size = literal.length := rfl
    rw [hsize] at hfound hroom
    cases hnocase : literal.nocase with
    | false =>
      simp only [hnocase, Bool.false_eq_true, if_false] at hfound hroom
      rw [show cased.origin + matchEnd - literal.length + index = place by omega, hbyte] at hfound
      exact (Option.some.inj hfound).symm
    | true =>
      simp only [hnocase, if_true] at hfound hroom
      exact (haligned place _ byte found (by omega) hbyte hfound).symm
  rw [← hsame]
  exact hagree

theorem EndsIn.mem_variantsAt {literal : Literal} {cased caseless : View} {matchEnd : Nat}
    (h : literal.EndsIn cased caseless matchEnd) (haligned : View.Aligned cased caseless)
    {index place : Nat} (hindex : index < literal.bytes.length)
    (hplace : place + literal.length = cased.origin + matchEnd + index) {byte : UInt8}
    (hbyte : cased.text[place]? = some byte) : byte ∈ literal.variantsAt index := by
  rw [variantsAt, List.getElem?_eq_getElem hindex]
  exact Letter.mem_variants_of_agree (h.agree haligned hindex hplace hbyte)

end Literal

/-- The byte before the end that `place` stands for. -/
theorem View.before?_placeOf {history buffer : Bytes} {place : Nat} (hin : history.size ≤ place) :
    (View.of history buffer).before? ((View.of history buffer).placeOf (place + 1 - history.size))
      = (View.of history buffer).text[place]? := by
  have hplace : (View.of history buffer).placeOf (place + 1 - history.size) = place + 1 :=
    Nat.add_sub_cancel' (Nat.le_succ_of_le hin)
  rw [hplace, View.before?, if_neg (Nat.succ_ne_zero place), Nat.add_sub_cancel]

/-- A literal ends at a place of the text if it accepts the bytes before the place, as many as it is
long. -/
theorem View.endsWith_iff_accepts_take {view : View} {place : Nat} (hplace : place ≤ view.text.size)
    {literal : Literal} : view.endsWith place literal.bytes.toArray literal.nocase = true
      ↔ literal.accepts ((view.text.toList.take place).drop (place - literal.length)) = true := by
  have hsize : literal.bytes.toArray.size = literal.length := rfl
  have hlength : (view.text.toList.take place).length = place := by
    rw [List.length_take, Array.length_toList, Nat.min_eq_left hplace]
  have hbyte (hroom : literal.length ≤ place) {index : Nat} (hindex : index < literal.length) :
      ((view.text.toList.take place).drop (place - literal.length))[index]?
        = view.text[place - literal.length + index]? := by
    rw [List.getElem?_drop, List.getElem?_take_of_lt (by omega), Array.getElem?_toList]
  rw [Literal.accepts_iff, List.length_drop, hlength]
  constructor
  · intro h
    have hroom := (View.endsWith_eq_true_iff.1 h).1
    rw [hsize] at hroom
    refine ⟨by omega, fun index hindex => ?_⟩
    rw [hbyte hroom hindex]
    exact View.exists_byte_of_endsWith h hindex
  · rintro ⟨hroom, h⟩
    have hroom : literal.length ≤ place := by omega
    refine View.endsWith_of_forall hroom fun index hindex => ?_
    rw [hsize, ← hbyte hroom hindex]
    exact h index hindex

theorem View.endsWith_iff_accepts {history buffer : Bytes} {matchEnd : Nat}
    (hend : matchEnd ≤ buffer.size) {literal : Literal} {seen : List UInt8}
    (hseen : seen = history.toList ++ buffer.toList.take matchEnd) :
    (View.of history buffer).endsWith (history.size + matchEnd) literal.bytes.toArray
        literal.nocase = true
      ↔ literal.accepts (seen.drop (seen.length - literal.length)) = true := by
  have hlength : seen.length = history.size + matchEnd := by
    simp [hseen, Nat.min_eq_left hend]
  have htake : (View.of history buffer).text.toList.take (history.size + matchEnd) = seen := by
    simp [View.of, hseen, List.take_append, List.take_of_length_le]
  have hplace : history.size + matchEnd ≤ (View.of history buffer).text.size := by
    simp [View.of, hend]
  rw [View.endsWith_iff_accepts_take hplace, htake, hlength]

/-- What the reference looks for is what the views of a scan show. -/
theorem ScanInput.endsAt_iff {input : ScanInput} {literal : Literal} {matchEnd : Nat}
    (hend : matchEnd ≤ input.buffer.size) : input.endsAt literal matchEnd = true ↔
      literal.EndsIn (.of input.history input.buffer) (.of input.caselessHistory input.buffer)
        matchEnd := by
  have hcased := @View.endsWith_iff_accepts input.history _ _ hend literal _ rfl
  have hcaseless := @View.endsWith_iff_accepts input.caselessHistory _ _ hend literal _ rfl
  unfold Literal.EndsIn Literal.viewIn ScanInput.endsAt ScanInput.before
  cases hnocase : literal.nocase with
  | false => rw [hnocase] at hcased; exact hcased.symm
  | true => rw [hnocase] at hcaseless; exact hcaseless.symm

/-! ## The quick check -/

/-- Words of bytes are joined byte by byte. -/
theorem Endian.ofLittleBytes_and {xs ys : List UInt8} (h : xs.length = ys.length) :
    ofLittleBytes xs &&& ofLittleBytes ys = ofLittleBytes (List.zipWith (· &&& ·) xs ys) := by
  induction xs generalizing ys with
  | nil => simp [ofLittleBytes]
  | cons x xs ih =>
    obtain _ | ⟨y, ys⟩ := ys
    · cases h
    · have hrest := ih (Nat.succ.inj h)
      rw [List.zipWith_cons_cons, ofLittleBytes, ofLittleBytes, ofLittleBytes, ← hrest,
        UInt8.toNat_and]
      apply Nat.eq_of_testBit_eq
      intro i
      have hand : x.toNat &&& y.toNat < 2 ^ 8 :=
        Nat.lt_of_le_of_lt Nat.and_le_left x.toNat_lt
      have hbit {low : Nat} (hlow : low < 2 ^ 8) (high : Nat) : (low + 256 * high).testBit i
          = if i < 8 then low.testBit i else high.testBit (i - 8) := by
        rw [Nat.add_comm]
        exact Nat.testBit_two_pow_mul_add high hlow i
      rw [Nat.testBit_and, hbit x.toNat_lt, hbit y.toNat_lt, hbit hand, Nat.testBit_and,
        Nat.testBit_and]
      split <;> rfl

/-- As many bytes make a word in one way only. -/
theorem Endian.ofLittleBytes_inj {xs ys : List UInt8} (h : xs.length = ys.length) :
    ofLittleBytes xs = ofLittleBytes ys ↔ xs = ys := by
  refine ⟨fun heq => ?_, congrArg _⟩
  induction xs generalizing ys with
  | nil => exact (List.length_eq_zero_iff.1 h.symm).symm
  | cons x xs ih =>
    obtain _ | ⟨y, ys⟩ := ys
    · cases h
    · have hx := x.toNat_lt
      have hy := y.toNat_lt
      rw [ofLittleBytes, ofLittleBytes] at heq
      have hfirst : x = y := UInt8.toNat_inj.1 (by omega)
      rw [hfirst, ih (Nat.succ.inj h) (by omega)]

namespace ConfirmEntry

/-- The bytes of a quick check, filled up to eight, by their places. -/
theorem quickBytes_eq {tail : List UInt8} (h : tail.length ≤ 8) (f : UInt8 → UInt8) :
    List.replicate (8 - (tail.map f).length) 0 ++ tail.map f = (List.range 8).map fun index =>
      if index < 8 - tail.length then 0 else f (tail.getD (index - (8 - tail.length)) 0) := by
  apply List.ext_getElem
  · simp only [List.length_append, List.length_replicate, List.length_map, List.length_range]
    omega
  · intro i h₁ h₂
    have hi : i < 8 := by simpa using h₂
    simp only [List.getElem_append, List.length_replicate, List.length_map, List.getElem_replicate,
      List.getElem_map, List.getElem_range]
    split
    · rfl
    · have hin : i - (8 - tail.length) < tail.length := by omega
      rw [List.getD_eq_getElem?_getD, List.getElem?_eq_getElem hin]
      rfl

/-- A quick check is a check of each of the last bytes. What it does not cover has an empty mask. -/
theorem passesQuickCheck_iff {literal : Literal} {quickLength place : Nat} {view : View}
    (hquick : quickLength ≤ 8) :
    (ConfirmEntry.of literal quickLength).passesQuickCheck view place = true ↔
      ∀ index (hindex : index < literal.bytes.length),
        literal.length ≤ index + quickLength →
        (if place + index < literal.length then 0
            else view.text[place + index - literal.length]?.getD 0)
          &&& quickMaskByte literal.nocase literal.bytes[index]
        = quickByte literal.nocase literal.bytes[index] := by
  have htail := length_quickTail literal quickLength
  have hle : (quickTail literal quickLength).length ≤ 8 := by omega
  have hlength : literal.bytes.length = literal.length := rfl
  obtain ⟨n, hn⟩ : ∃ n, n = min literal.length quickLength := ⟨_, rfl⟩
  rw [← hn] at htail
  show (view.window place &&& quickWord ((quickTail literal quickLength).map
    (quickMaskByte literal.nocase)) == quickWord ((quickTail literal quickLength).map
    (quickByte literal.nocase))) = true ↔ _
  rw [beq_iff_eq, View.window, quickWord, quickWord, quickBytes_eq hle, quickBytes_eq hle,
    Endian.ofLittleBytes_and (by simp), List.zipWith_map, List.zipWith_self,
    Endian.ofLittleBytes_inj (by simp), List.map_inj_left, htail]
  -- Of the eight bytes of a word the last `n` are checked, each against the byte of the literal
  -- that is as far from the end.
  have hbyte {index slot : Nat} (hslot : slot + literal.length = index + 8) :
      (if place + slot < 8 then 0 else view.text[place + slot - 8]?.getD 0)
        = if place + index < literal.length then 0
            else view.text[place + index - literal.length]?.getD 0 := by
    have hmissing : place + slot < 8 ↔ place + index < literal.length := by omega
    have hplace : place + slot - 8 = place + index - literal.length := by omega
    simp only [hmissing, hplace]
  have hwanted {index slot : Nat} (hslot : slot + literal.length = index + 8)
      (hindex : index < literal.bytes.length) (hcovered : ¬slot < 8 - n) :
      (quickTail literal quickLength).getD (slot - (8 - n)) 0 = literal.bytes[index] := by
    have hplace : literal.length - n + (slot - (8 - n)) = index := by omega
    rw [List.getD_eq_getElem?_getD, quickTail, ← hn, List.getElem?_drop, hplace,
      List.getElem?_eq_getElem hindex, Option.getD_some]
  constructor
  · intro h index hindex hcovered
    have hslot : index + 8 - literal.length + literal.length = index + 8 := by omega
    have hin : ¬index + 8 - literal.length < 8 - n := by omega
    have hchecked := h (index + 8 - literal.length) (List.mem_range.2 (by omega))
    rwa [if_neg hin, if_neg hin, hbyte hslot, hwanted hslot hindex hin] at hchecked
  · intro h slot hmem
    have hlt := List.mem_range.1 hmem
    by_cases hin : slot < 8 - n
    · rw [if_pos hin, if_pos hin, UInt8.and_zero]
    · have hslot : slot + literal.length = slot + literal.length - 8 + 8 := by omega
      have hindex : slot + literal.length - 8 < literal.bytes.length := by omega
      rw [if_neg hin, if_neg hin, hbyte hslot, hwanted hslot hindex hin]
      exact h _ hindex (by omega)

/-- The last bytes of a match pass the quick check of its literal. -/
theorem passesQuickCheck_of_endsWith {literal : Literal} {quickLength place : Nat} {view : View}
    (hquick : quickLength ≤ 8)
    (h : view.endsWith place literal.bytes.toArray literal.nocase = true) :
    (ConfirmEntry.of literal quickLength).passesQuickCheck view place = true := by
  have hroom : literal.length ≤ place := (View.endsWith_eq_true_iff.1 h).1
  refine (passesQuickCheck_iff hquick).2 fun index hindex _ => ?_
  obtain ⟨byte, hbyte, hagree⟩ := View.exists_byte_of_endsWith h hindex
  have hsize : literal.bytes.toArray.size = literal.length := rfl
  have hplace : place - literal.bytes.toArray.size + index = place + index - literal.length := by
    omega
  rw [if_neg (Nat.not_lt.2 (Nat.le_add_right_of_le hroom)), ← hplace, hbyte, Option.getD_some]
  exact Letter.and_quickMaskByte hagree

end ConfirmEntry

/-! ## Confirmation -/

/-- The entry of a literal is confirmed exactly where the literal ends, if a group of it is live. -/
theorem ConfirmEntry.isConfirmed_of {literal : Literal} {quickLength : Nat}
    (hquick : quickLength ≤ 8) {cased caseless : View} {matchEnd : Nat} {groups : Groups} :
    (ConfirmEntry.of literal quickLength).isConfirmed cased caseless matchEnd groups = true ↔
      literal.groups.meets groups = true ∧ literal.EndsIn cased caseless matchEnd := by
  have hview : (ConfirmEntry.of literal quickLength).viewFor cased caseless
      = literal.viewIn cased caseless := rfl
  simp only [isConfirmed, hview, Bool.and_eq_true]
  constructor
  · rintro ⟨⟨hgroups, -⟩, hends⟩
    exact ⟨hgroups, hends⟩
  · rintro ⟨hgroups, hends⟩
    exact ⟨⟨hgroups, passesQuickCheck_of_endsWith hquick hends⟩, hends⟩

/-- The last byte of a match belongs to the list that has the literal. -/
theorem Literal.EndsIn.splitIndex_eq {scheme : Scheme} (hscheme : scheme.IsKnown)
    {literal : Literal} {cased caseless : View} {matchEnd : Nat}
    (h : literal.EndsIn cased caseless matchEnd) (haligned : View.Aligned cased caseless)
    (hbytes : literal.bytes ≠ []) {last : UInt8}
    (hlast : cased.before? (cased.placeOf matchEnd) = some last) :
    ∃ wanted, literal.bytes.getLast? = some wanted
      ∧ scheme.splitIndex wanted = scheme.splitIndex last := by
  have hpos : 0 < literal.length := List.length_pos_iff.2 hbytes
  have hindex : literal.length - 1 < literal.bytes.length := Nat.sub_lt hpos Nat.one_pos
  unfold View.before? View.placeOf at hlast
  split at hlast
  · cases hlast
  · next hplace =>
    have hvariant := h.mem_variantsAt haligned hindex (by omega) hlast
    have hget : literal.bytes[literal.length - 1]? = some (literal.bytes.getLast hbytes) :=
      List.getLast?_eq_getElem?.symm.trans (List.getLast?_eq_some_getLast hbytes)
    rw [variantsAt, hget] at hvariant
    exact ⟨_, List.getLast?_eq_some_getLast hbytes, (hscheme.splitIndex_eq hvariant).symm⟩

namespace ConfirmLists

/-- A bucket confirms its literals that end at an end and have a live group. -/
theorem confirm_of {scheme : Scheme} (hscheme : scheme.IsKnown) {buckets : List (List Literal)}
    (hbytes : ∀ bucket ∈ buckets, ∀ literal ∈ bucket, literal.bytes ≠ []) {bucket : Nat}
    (hbucket : bucket < buckets.length) {cased caseless : View}
    (haligned : View.Aligned cased caseless) {matchEnd : Nat} {last : UInt8}
    (hlast : cased.before? (cased.placeOf matchEnd) = some last) (groups : Groups) :
    ∃ ids, (ConfirmLists.of scheme buckets).confirm scheme bucket matchEnd cased caseless groups
        = .ok ids
      ∧ ∀ id, id ∈ ids ↔ ∃ literal ∈ buckets[bucket], literal.id = id
          ∧ literal.groups.meets groups = true ∧ literal.EndsIn cased caseless matchEnd := by
  have hlist := @getElem?_listFor scheme buckets bucket hbucket last
  obtain ⟨hindex, hlist⟩ := List.getElem?_eq_some_iff.1 hlist
  have hquick := scheme.quickLength_le
  refine ⟨((partEntries scheme buckets[bucket] (scheme.splitIndex last)).filter
    (·.isConfirmed cased caseless matchEnd groups)).map (·.id), ?_, fun id => ?_⟩
  · simp only [confirm, hlast, elementAt_eq_ok hindex, hlist, bind, Except.bind]
    rfl
  · simp only [List.mem_map, List.mem_filter, mem_partEntries]
    constructor
    · rintro ⟨entry, ⟨⟨literal, hliteral, -, rfl⟩, hconfirmed⟩, rfl⟩
      obtain ⟨hgroups, hends⟩ := (ConfirmEntry.isConfirmed_of hquick).1 hconfirmed
      exact ⟨literal, hliteral, rfl, hgroups, hends⟩
    · rintro ⟨literal, hliteral, rfl, hgroups, hends⟩
      have hne := hbytes _ (List.getElem_mem hbucket) literal hliteral
      exact ⟨_, ⟨⟨literal, hliteral, hends.splitIndex_eq hscheme haligned hne hlast, rfl⟩,
        (ConfirmEntry.isConfirmed_of hquick).2 ⟨hgroups, hends⟩⟩, rfl⟩

end ConfirmLists

end Multimatch
