import Multimatch.Scheme.Choice

/-!
# Known schemes

`Scheme.IsKnown` is what building and loading establish of a scheme: it is one of `Scheme.known`
with a valid number of hash bits. What the scheme numbers have to do with each other is checked
once, over the list of known schemes, and holds for every domain (`IsKnown.of_base`).
-/

namespace Multimatch.Scheme

/-- A known scheme with a valid number of hash bits. -/
structure IsKnown (scheme : Scheme) : Prop where
  base : ∃ base ∈ known, scheme = { base with bits := scheme.bits }
  domain : IsDomain scheme.bits

namespace IsKnown

variable {scheme : Scheme}

/-- What holds of each known scheme whatever its domain holds of the scheme. -/
@[elab_as_elim]
theorem of_base {motive : Scheme → Prop} (h : scheme.IsKnown)
    (known_base : ∀ base ∈ known, ∀ bits, motive { base with bits }) : motive scheme := by
  obtain ⟨base, hmem, heq⟩ := h.base
  rw [heq]
  exact known_base base hmem _

theorem wordLength_mul (h : scheme.IsKnown) : scheme.wordLength * 8 = scheme.width :=
  h.of_base fun base hmem _ =>
    (by decide : ∀ base ∈ known, base.width / 8 * 8 = base.width) base hmem

theorem width_eq (h : scheme.IsKnown) : scheme.width = scheme.bucketWidth * scheme.buckets :=
  h.of_base fun base hmem _ =>
    (by decide : ∀ base ∈ known, base.width = base.width / base.buckets * base.buckets) base hmem

theorem wordLength_le (h : scheme.IsKnown) : scheme.wordLength ≤ 16 :=
  h.of_base fun base hmem _ => (by decide : ∀ base ∈ known, base.width / 8 ≤ 16) base hmem

theorem buckets_pos (h : scheme.IsKnown) : 0 < scheme.buckets :=
  h.of_base fun base hmem _ => (by decide : ∀ base ∈ known, 0 < base.buckets) base hmem

theorem stride_pos (h : scheme.IsKnown) : 0 < scheme.stride :=
  h.of_base fun base hmem _ => (by decide : ∀ base ∈ known, 0 < base.stride) base hmem

/-- Every end within a stride has a position of its own in each bucket. -/
theorem stride_le (h : scheme.IsKnown) : scheme.stride ≤ scheme.bucketWidth :=
  h.of_base fun base hmem _ =>
    (by decide : ∀ base ∈ known, base.stride ≤ base.width / base.buckets) base hmem

theorem split_le (h : scheme.IsKnown) : scheme.split ≤ 2 :=
  h.of_base fun base hmem _ => (by decide : ∀ base ∈ known, base.split ≤ 2) base hmem

theorem floodSuffix_le (h : scheme.IsKnown) : scheme.floodSuffix ≤ 17 :=
  h.of_base fun base hmem _ => (by decide : ∀ base ∈ known, base.floodSuffix ≤ 17) base hmem

/-- A run of one byte is never enough for the flood path. -/
theorem one_lt_floodSuffix (h : scheme.IsKnown) : 1 < scheme.floodSuffix :=
  h.of_base fun base hmem _ => (by decide : ∀ base ∈ known, 1 < base.floodSuffix) base hmem

theorem id_lt (h : scheme.IsKnown) : scheme.id < 11 :=
  h.of_base fun base hmem _ => (by decide : ∀ base ∈ known, base.id < 11) base hmem

/-- The number of a scheme leads back to it. -/
theorem find?_id (h : scheme.IsKnown) :
    ∃ base, find? scheme.id = some base ∧ scheme = { base with bits := scheme.bits } := by
  obtain ⟨base, hmem, heq⟩ := h.base
  refine ⟨base, ?_, heq⟩
  rw [show scheme.id = base.id by rw [heq]]
  exact (by decide : ∀ base ∈ known, find? base.id = some base) base hmem

theorem entries_le (h : scheme.IsKnown) : scheme.entries ≤ 32768 := by
  have hbits : scheme.bits ≤ 15 := h.domain.2
  rw [entries, Nat.one_shiftLeft]
  exact Nat.pow_le_pow_right (by decide) hbits

theorem entries_pos (h : scheme.IsKnown) : 512 ≤ scheme.entries := by
  have hbits : 9 ≤ scheme.bits := h.domain.1
  rw [entries, Nat.one_shiftLeft]
  exact Nat.pow_le_pow_right (n := 2) (by decide) hbits

theorem tableSize_le (h : scheme.IsKnown) : scheme.tableSize ≤ 524288 :=
  Nat.mul_le_mul h.wordLength_le h.entries_le

theorem bitAt?_eq_ok (h : scheme.IsKnown) {bucket : Nat} (hbucket : bucket < scheme.buckets)
    (behind : Nat) : scheme.bitAt? bucket (scheme.bucketWidth - 1 - behind)
      = .ok (scheme.bitAt bucket (scheme.bucketWidth - 1 - behind)) := by
  have hwidth : 0 < scheme.bucketWidth := Nat.lt_of_lt_of_le h.stride_pos h.stride_le
  exact if_pos ⟨hbucket, by omega⟩

/-- Every position of every bucket has a bit in a word. -/
theorem bitAt_lt (h : scheme.IsKnown) {bucket position : Nat} (hbucket : bucket < scheme.buckets)
    (hposition : position < scheme.bucketWidth) : scheme.bitAt bucket position < scheme.width := by
  have hnext : (position + 1) * scheme.buckets ≤ scheme.bucketWidth * scheme.buckets :=
    Nat.mul_le_mul_right _ hposition
  rw [Nat.succ_mul] at hnext
  rw [h.width_eq, bitAt]
  omega

end IsKnown

theorem splitIndex_lt (scheme : Scheme) (byte : UInt8) :
    scheme.splitIndex byte < scheme.listsPerBucket := by
  apply Nat.mod_lt
  rw [Nat.one_shiftLeft]
  exact Nat.two_pow_pos _

/-- The buckets have room for all literals, as their loads are rounded up. -/
theorem count_le_load {scheme : Scheme} (hpos : 0 < scheme.buckets) (stats : LiteralStats) :
    stats.count ≤ scheme.buckets * scheme.bucketLoad stats := by
  have hdiv := Nat.div_add_mod (stats.count + scheme.buckets - 1) scheme.buckets
  have hmod := Nat.mod_lt (stats.count + scheme.buckets - 1) hpos
  rw [bucketLoad]
  omega

theorem buckets_shiftLeft (scheme : Scheme) :
    scheme.buckets <<< scheme.split = scheme.buckets * scheme.listsPerBucket := by
  rw [Nat.shiftLeft_eq, listsPerBucket, Nat.one_shiftLeft]

/-- Every bucket has a list for every byte. -/
theorem listFor_lt {scheme : Scheme} {bucket : Nat} (hbucket : bucket < scheme.buckets)
    (byte : UInt8) : scheme.listFor bucket byte < scheme.buckets <<< scheme.split := by
  have hsplit := scheme.splitIndex_lt byte
  have hnext : (bucket + 1) * scheme.listsPerBucket ≤ scheme.buckets * scheme.listsPerBucket :=
    Nat.mul_le_mul_right _ hbucket
  rw [Nat.succ_mul] at hnext
  rw [buckets_shiftLeft, listFor]
  omega

/-! ## Moving on by a stride -/

theorem stride_le_bitAt_iff {scheme : Scheme} {bucket position : Nat}
    (hbucket : bucket < scheme.buckets) :
    scheme.stride * scheme.buckets ≤ scheme.bitAt bucket position ↔ scheme.stride ≤ position := by
  rw [bitAt]
  constructor
  · intro h
    have hlt : scheme.stride * scheme.buckets < (position + 1) * scheme.buckets := by
      rw [Nat.succ_mul]
      omega
    exact Nat.le_of_lt_succ (Nat.lt_of_mul_lt_mul_right hlt)
  · intro h
    exact Nat.le_add_right_of_le (Nat.mul_le_mul_right _ h)

theorem bitAt_sub_stride {scheme : Scheme} {bucket position : Nat}
    (h : scheme.stride ≤ position) : scheme.bitAt bucket position - scheme.stride * scheme.buckets
      = scheme.bitAt bucket (position - scheme.stride) := by
  have hmul : scheme.stride * scheme.buckets ≤ position * scheme.buckets :=
    Nat.mul_le_mul_right _ h
  rw [bitAt, bitAt, Nat.sub_mul]
  omega

/-- A scheme that is found by number is known, whatever domain it gets. -/
theorem isKnown_of_find? {id bits : Nat} {base : Scheme} (hfind : find? id = some base)
    (hbits : IsDomain bits) : IsKnown { base with bits } :=
  ⟨⟨base, List.mem_of_find?_eq_some hfind, rfl⟩, hbits⟩

theorem isKnown_of_mem {scheme : Scheme} (h : scheme ∈ known) : scheme.IsKnown :=
  ⟨⟨scheme, h, rfl⟩, (by decide : ∀ base ∈ known, IsDomain base.bits) scheme h⟩

/-! ## Candidates -/

theorem isKnown_of_mem_candidates {target : Target} {scheme : Scheme}
    (h : scheme ∈ candidates target) : scheme.IsKnown := by
  simp only [candidates, List.mem_flatMap, List.mem_map, List.mem_filter] at h
  obtain ⟨base, ⟨hbase, -⟩, bits, hbits, rfl⟩ := h
  exact ⟨⟨base, hbase, rfl⟩, (by decide : ∀ bits ∈ domains, IsDomain bits) bits hbits⟩

/-- The first scheme runs on every target. -/
theorem candidates_ne_nil (target : Target) : candidates target ≠ [] := by
  rcases target with ⟨_ | _, _ | _⟩ <;> decide

theorem mem_of_best? {stats : LiteralStats} {small : Bool} {schemes : List Scheme} {scheme : Scheme}
    (h : best? stats small schemes = some scheme) : scheme ∈ schemes := by
  cases schemes with
  | nil => cases h
  | cons first schemes =>
    rw [best?, Option.some.injEq] at h
    subst h
    induction schemes generalizing first with
    | nil => exact List.mem_cons_self
    | cons next schemes ih =>
      rw [List.foldl_cons]
      split
      · exact List.mem_cons_of_mem _ (ih next)
      · rcases List.mem_cons.1 (ih first) with h | h
        · rw [h]
          exact List.mem_cons_self
        · exact List.mem_cons_of_mem _ (List.mem_cons_of_mem _ h)

/-- Literals with at least one byte each get the best of the candidates. -/
theorem choose_eq_best? (target : Target) {literals : List Literal} (small : Bool)
    (hne : literals ≠ []) (hbytes : ∀ literal ∈ literals, literal.bytes ≠ []) :
    ∃ scheme, choose target literals small = .ok scheme
      ∧ best? (.of literals) small (candidates target) = some scheme := by
  have hempty : literals.find? Literal.isEmpty = none :=
    List.find?_eq_none.2 fun literal h => by simpa [Literal.isEmpty] using hbytes literal h
  have hnil : literals.isEmpty = false := by simpa using hne
  simp only [choose, hnil, hempty]
  cases hbest : best? (.of literals) small (candidates target) with
  | none =>
    cases hc : candidates target with
    | nil => exact absurd hc (candidates_ne_nil target)
    | cons _ _ => rw [hc] at hbest; cases hbest
  | some scheme => exact ⟨scheme, rfl, rfl⟩

/-- Literals with at least one byte each always get a scheme. -/
theorem choose_eq_ok (target : Target) {literals : List Literal} (small : Bool)
    (hne : literals ≠ []) (hbytes : ∀ literal ∈ literals, literal.bytes ≠ []) :
    ∃ scheme, choose target literals small = .ok scheme ∧ scheme.IsKnown := by
  obtain ⟨scheme, hchoose, hbest⟩ := choose_eq_best? target small hne hbytes
  exact ⟨scheme, hchoose, isKnown_of_mem_candidates (mem_of_best? hbest)⟩

end Multimatch.Scheme
