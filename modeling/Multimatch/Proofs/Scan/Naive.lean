import Multimatch.Proofs.Codec.Placed
import Multimatch.Scan.Basic

/-!
# The naive scan

What a scan has to report, said without any table: for every end in ascending order, the groups of
the sink are asked for once, and each literal of these groups that matches the bytes before the end
is reported, by ascending identifier and each identifier once (`Naive.mem_idsAt`,
`Naive.pairwise_idsAt`). A list of identifiers in ascending order is known by its members
(`eq_of_ascending`).
-/

namespace Multimatch

/-! ## Ascending identifiers -/

section Ascending

theorem eraseReps_loop {α : Type} [BEq α] (a : α) (xs seen : List α) :
    List.eraseRepsBy.loop (· == ·) a xs seen = seen.reverse ++ (a :: xs).eraseReps := by
  have hloop (seen : List α) : List.eraseRepsBy.loop (· == ·) a xs seen
      = seen.reverse ++ List.eraseRepsBy.loop (· == ·) a xs [] := by
    induction xs generalizing a seen with
    | nil => simp [List.eraseRepsBy.loop]
    | cons b xs ih =>
      rw [List.eraseRepsBy.loop, List.eraseRepsBy.loop]
      cases a == b with
      | true => exact ih a seen
      | false =>
        dsimp only
        rw [ih b (a :: seen), ih b [a]]
        simp
  exact hloop seen

theorem eraseReps_cons_self {α : Type} [BEq α] [LawfulBEq α] (a : α) (xs : List α) :
    (a :: a :: xs).eraseReps = (a :: xs).eraseReps := by
  simp [List.eraseReps, List.eraseRepsBy, List.eraseRepsBy.loop]

theorem eraseReps_cons_of_ne {α : Type} [BEq α] [LawfulBEq α] {a b : α} (h : a ≠ b)
    (xs : List α) : (a :: b :: xs).eraseReps = a :: (b :: xs).eraseReps := by
  have hne : (a == b) = false := beq_false_of_ne h
  have hloop := eraseReps_loop b xs [a]
  simpa [List.eraseReps, List.eraseRepsBy, List.eraseRepsBy.loop, hne] using hloop

theorem mem_eraseReps {id : LiteralId} {ids : List LiteralId} :
    id ∈ ids.eraseReps ↔ id ∈ ids := by
  induction ids with
  | nil => rfl
  | cons a ids ih =>
    cases ids with
    | nil => rfl
    | cons b ids =>
      by_cases h : a = b
      · subst h
        rw [eraseReps_cons_self, ih]
        simp
      · rw [eraseReps_cons_of_ne h, List.mem_cons, ih, ← List.mem_cons]

/-- Where repeats are next to each other, erasing them leaves each element once. -/
theorem pairwise_eraseReps {ids : List LiteralId} (h : ids.Pairwise (·.toNat ≤ ·.toNat)) :
    ids.eraseReps.Pairwise (·.toNat < ·.toNat) := by
  induction ids with
  | nil => exact .nil
  | cons a ids ih =>
    obtain ⟨hle, hrest⟩ := List.pairwise_cons.1 h
    cases ids with
    | nil => exact List.pairwise_singleton ..
    | cons b ids =>
      by_cases hab : a = b
      · subst hab
        rw [eraseReps_cons_self]
        exact ih hrest
      · rw [eraseReps_cons_of_ne hab]
        refine List.pairwise_cons.2 ⟨fun c hc => ?_, ih hrest⟩
        have hlt : a.toNat < b.toNat :=
          Nat.lt_of_le_of_ne (hle b List.mem_cons_self) fun heq => hab (Ident.toNat_inj heq)
        rcases List.mem_cons.1 (mem_eraseReps.1 hc) with rfl | hc
        · exact hlt
        · exact Nat.lt_of_lt_of_le hlt ((List.pairwise_cons.1 hrest).1 c hc)

/-- Identifiers in ascending order are known by their members. -/
theorem eq_of_ascending {xs ys : List LiteralId} (hxs : xs.Pairwise (·.toNat < ·.toNat))
    (hys : ys.Pairwise (·.toNat < ·.toNat)) (h : ∀ id, id ∈ xs ↔ id ∈ ys) : xs = ys := by
  have hnodup {ids : List LiteralId} (hids : ids.Pairwise (·.toNat < ·.toNat)) : ids.Nodup :=
    hids.imp fun {a b} (hlt : a.toNat < b.toNat) (heq : a = b) => Nat.ne_of_lt hlt (by rw [heq])
  exact List.Perm.eq_of_pairwise (fun _ _ _ _ hab hba => absurd hab (Nat.lt_asymm hba)) hxs hys
    ((List.perm_ext_iff_of_nodup (hnodup hxs) (hnodup hys)).2 h)

end Ascending

namespace Scanner

theorem pairwise_ascending (ids : List LiteralId) :
    (ascending ids).Pairwise (·.toNat < ·.toNat) := by
  apply pairwise_eraseReps
  have hsorted := @List.pairwise_mergeSort _ (fun a b : LiteralId => decide (a.toNat ≤ b.toNat))
    (fun a b c hab hbc => by simp only [decide_eq_true_eq] at *; omega)
    (fun a b => by simp only [Bool.or_eq_true, decide_eq_true_eq]; omega) ids
  exact hsorted.imp fun h => of_decide_eq_true h

theorem mem_ascending {id : LiteralId} {ids : List LiteralId} :
    id ∈ ascending ids ↔ id ∈ ids := by
  rw [ascending, mem_eraseReps, List.mem_mergeSort]

end Scanner

/-! ## The reference -/

/-- Reports what `found` has for an end and the groups of the sink. -/
def Sink.tell {σ : Type} (sink : Sink σ) (found : Nat → Groups → List LiteralId) (matchEnd : Nat) :
    EStateM Fault σ Control := do
  sink.deliver matchEnd (found matchEnd (sink.groups (← get)))

namespace ScanInput

/-- The bytes before an end that count for a literal: its history and the buffer up to the end. -/
def before (input : ScanInput) (nocase : Bool) (matchEnd : Nat) : List UInt8 :=
  (if nocase then input.caselessHistory else input.history).toList
    ++ input.buffer.toList.take matchEnd

/-- The literal matches the last bytes before an end of the buffer. -/
def endsAt (input : ScanInput) (literal : Literal) (matchEnd : Nat) : Bool :=
  let before := input.before literal.nocase matchEnd
  literal.accepts (before.drop (before.length - literal.length))

/-- The ends that a scan visits. -/
def ends (input : ScanInput) : List Nat :=
  List.range' (input.start + 1) (input.buffer.size - input.start)

theorem mem_ends {input : ScanInput} {matchEnd : Nat} :
    matchEnd ∈ input.ends ↔ input.start < matchEnd ∧ matchEnd ≤ input.buffer.size := by
  rw [ends, List.mem_range'_1]
  omega

theorem pairwise_ends (input : ScanInput) : input.ends.Pairwise (· < ·) :=
  List.pairwise_lt_range' _

/-- One of the histories is the end of the other. -/
def HistoriesAgree (input : ScanInput) : Prop :=
  input.history.toList <:+ input.caselessHistory.toList
    ∨ input.caselessHistory.toList <:+ input.history.toList

end ScanInput

namespace Naive

/-- The identifiers of the literals that end at an end and have one of the groups. -/
def idsAt (literals : List Literal) (input : ScanInput) (matchEnd : Nat) (groups : Groups) :
    List LiteralId :=
  Scanner.ascending <|
    (literals.filter fun literal =>
      literal.groups.meets groups && input.endsAt literal matchEnd).map (·.id)

/-- Reports what ends at each end, one after the other. -/
def scan {σ : Type} (literals : List Literal) (input : ScanInput) (sink : Sink σ) :
    EStateM Fault σ Control :=
  Control.visitAll (sink.tell (idsAt literals input)) input.ends

variable {literals : List Literal} {input : ScanInput} {groups : Groups} {matchEnd : Nat}

theorem pairwise_idsAt : (idsAt literals input matchEnd groups).Pairwise (·.toNat < ·.toNat) :=
  Scanner.pairwise_ascending _

theorem mem_idsAt {id : LiteralId} : id ∈ idsAt literals input matchEnd groups ↔
    ∃ literal ∈ literals, literal.id = id ∧ literal.groups.meets groups = true
      ∧ input.endsAt literal matchEnd = true := by
  simp only [idsAt, Scanner.mem_ascending, List.mem_map, List.mem_filter, Bool.and_eq_true]
  constructor
  · rintro ⟨literal, ⟨hmem, hgroups, hends⟩, rfl⟩
    exact ⟨literal, hmem, rfl, hgroups, hends⟩
  · rintro ⟨literal, hmem, rfl, hgroups, hends⟩
    exact ⟨literal, ⟨hmem, hgroups, hends⟩, rfl⟩

/-- Ascending identifiers of the literals that end at an end are what the reference reports. -/
theorem eq_idsAt {ids : List LiteralId} (hascending : ids.Pairwise (·.toNat < ·.toNat))
    (hmem : ∀ id, id ∈ ids ↔ ∃ literal ∈ literals, literal.id = id
      ∧ literal.groups.meets groups = true ∧ input.endsAt literal matchEnd = true) :
    ids = idsAt literals input matchEnd groups :=
  eq_of_ascending hascending pairwise_idsAt fun id => (hmem id).trans mem_idsAt.symm

end Naive

end Multimatch
