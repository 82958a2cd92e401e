import Mathlib.Data.List.Nodup
import Mathlib.Data.List.TakeWhile
import Multimatch.EndOfData.State
import Multimatch.Proofs.Scan.Naive

/-!
# Actions that wait

What waits is kept in the order of the offsets at which it is due, then of its literals
(`Delayed.InOrder`). Adding something keeps that order and adds it once; taking what is due by an
offset from the front leaves nothing that is due by then.

Literals arrive in the order of the offsets at which they end. Each arrival first runs what is due,
then its own action, unless that has to wait. So every live arrival is run or still waits, and it is
either once (`Arrival.perm_allRuns`), and the runs are in order (`Arrival.pairwise_allRuns`).
-/

namespace Multimatch

namespace Delayed

variable {delayed other a b c : Delayed} {waiting : List Delayed} {upTo : Nat}

theorem precedes_iff : a.precedes b = true ↔
    a.due < b.due ∨ (a.due = b.due ∧ a.id.toNat < b.id.toNat) := by
  simp [precedes]

theorem precedes_trans (hab : a.precedes b = true) (hbc : b.precedes c = true) :
    a.precedes c = true := by
  rw [precedes_iff] at *
  omega

theorem precedes_of_not_precedes (h : a.precedes b = false) (hne : a ≠ b) :
    b.precedes a = true := by
  have hnot : ¬a.precedes b = true := Bool.eq_false_iff.1 h
  rw [precedes_iff] at hnot ⊢
  by_cases hdue : a.due = b.due
  · have hid : a.id.toNat ≠ b.id.toNat := by
      intro heq
      apply hne
      cases a
      cases b
      cases hdue
      cases Ident.toNat_inj heq
      rfl
    omega
  · omega

/-- What waits is in its order, and each thing waits once. -/
def InOrder (waiting : List Delayed) : Prop := waiting.Pairwise (·.precedes ·)

theorem mem_insert_iff : other ∈ delayed.insert waiting ↔ other = delayed ∨ other ∈ waiting := by
  induction waiting with
  | nil => simp [insert]
  | cons first rest ih =>
    unfold insert
    by_cases hbefore : delayed.precedes first = true
    · rw [if_pos hbefore, List.mem_cons]
    · by_cases hsame : delayed = first
      · rw [if_neg hbefore, if_pos hsame, hsame]
        simp
      · rw [if_neg hbefore, if_neg hsame, List.mem_cons, ih, List.mem_cons]
        exact or_left_comm

theorem inOrder_insert (h : InOrder waiting) : InOrder (delayed.insert waiting) := by
  induction waiting with
  | nil => exact List.pairwise_singleton ..
  | cons first rest ih =>
    obtain ⟨hfirst, hrest⟩ := List.pairwise_cons.1 h
    unfold insert
    by_cases hbefore : delayed.precedes first = true
    · rw [if_pos hbefore]
      refine List.pairwise_cons.2 ⟨fun d hd => ?_, h⟩
      rcases List.mem_cons.1 hd with rfl | hd
      · exact hbefore
      · exact precedes_trans hbefore (hfirst d hd)
    · by_cases hsame : delayed = first
      · rwa [if_neg hbefore, if_pos hsame]
      · rw [if_neg hbefore, if_neg hsame]
        refine List.pairwise_cons.2 ⟨fun d hd => ?_, ih hrest⟩
        rcases mem_insert_iff.1 hd with rfl | hd
        · exact precedes_of_not_precedes (Bool.eq_false_iff.2 hbefore) hsame
        · exact hfirst d hd

theorem perm_insert (h : delayed ∉ waiting) :
    (delayed.insert waiting).Perm (delayed :: waiting) := by
  induction waiting with
  | nil => exact .refl _
  | cons first rest ih =>
    rw [List.mem_cons, not_or] at h
    unfold insert
    by_cases hbefore : delayed.precedes first = true
    · rw [if_pos hbefore]
    · rw [if_neg hbefore, if_neg h.1]
      exact ((ih h.2).cons first).trans (.swap ..)

theorem of_mem_takeWhile (h : delayed ∈ waiting.takeWhile (·.due ≤ upTo)) :
    delayed ∈ waiting ∧ delayed.due ≤ upTo :=
  ⟨List.takeWhile_subset _ h, by simpa using List.mem_takeWhile_imp h⟩

/-- Nothing comes after something that is not due yet and is due itself. -/
theorem lt_due_of_mem_tail (h : InOrder (delayed :: waiting)) (hdue : ¬delayed.due ≤ upTo)
    (hmem : other ∈ waiting) : upTo < other.due := by
  have hbefore := precedes_iff.1 ((List.pairwise_cons.1 h).1 other hmem)
  omega

/-- Nothing is left that is due. -/
theorem lt_due_of_mem_drop (h : InOrder waiting)
    (hmem : delayed ∈ waiting.drop (waiting.takeWhile (·.due ≤ upTo)).length) :
    upTo < delayed.due := by
  induction waiting with
  | nil => cases hmem
  | cons first rest ih =>
    by_cases hdue : first.due ≤ upTo
    · rw [List.takeWhile_cons_of_pos (by simpa using hdue)] at hmem
      exact ih (List.pairwise_cons.1 h).2 hmem
    · rw [List.takeWhile_cons_of_neg (by simpa using hdue)] at hmem
      rcases List.mem_cons.1 hmem with rfl | hmem
      · exact Nat.lt_of_not_le hdue
      · exact lt_due_of_mem_tail h hdue hmem

theorem filter_eq_takeWhile (h : InOrder waiting) :
    waiting.filter (·.due ≤ upTo) = waiting.takeWhile (·.due ≤ upTo) := by
  induction waiting with
  | nil => rfl
  | cons first rest ih =>
    by_cases hdue : first.due ≤ upTo
    · rw [List.takeWhile_cons_of_pos (by simpa using hdue),
        List.filter_cons_of_pos (by simpa using hdue), ih (List.pairwise_cons.1 h).2]
    · rw [List.takeWhile_cons_of_neg (by simpa using hdue), List.filter_eq_nil_iff]
      intro other hother hle
      have hle : other.due ≤ upTo := by simpa using hle
      rcases List.mem_cons.1 hother with rfl | hother
      · exact hdue hle
      · exact Nat.not_lt.2 hle (lt_due_of_mem_tail h hdue hother)

theorem filter_eq_drop (h : InOrder waiting) : waiting.filter (upTo < ·.due)
    = waiting.drop (waiting.takeWhile (·.due ≤ upTo)).length := by
  induction waiting with
  | nil => rfl
  | cons first rest ih =>
    by_cases hdue : first.due ≤ upTo
    · rw [List.takeWhile_cons_of_pos (by simpa using hdue),
        List.filter_cons_of_neg (by simpa using hdue), ih (List.pairwise_cons.1 h).2]
      rfl
    · rw [List.takeWhile_cons_of_neg (by simpa using hdue), List.filter_eq_self.2]
      · rfl
      · intro other hother
        rcases List.mem_cons.1 hother with rfl | hother
        · simpa using hdue
        · exact decide_eq_true (lt_due_of_mem_tail h hdue hother)

/-- What is due by a later offset is what is due before, then what is due from there. -/
theorem takeWhile_append_takeWhile (waiting : List Delayed) {later : Nat} (h : upTo ≤ later) :
    waiting.takeWhile (·.due ≤ upTo)
      ++ (waiting.drop (waiting.takeWhile (·.due ≤ upTo)).length).takeWhile (·.due ≤ later)
      = waiting.takeWhile (·.due ≤ later) := by
  induction waiting with
  | nil => rfl
  | cons first rest ih =>
    by_cases hdue : first.due ≤ upTo
    · rw [List.takeWhile_cons_of_pos (by simpa using hdue),
        List.takeWhile_cons_of_pos (by simpa using Nat.le_trans hdue h)]
      exact congrArg (first :: ·) ih
    · rw [List.takeWhile_cons_of_neg (by simpa using hdue)]
      rfl

/-- What waited is due or is left. -/
theorem perm_takeWhile_drop (waiting : List Delayed) (upTo : Nat) :
    (waiting.takeWhile (·.due ≤ upTo)
      ++ waiting.drop (waiting.takeWhile (·.due ≤ upTo)).length).Perm waiting := by
  rw [List.prefix_iff_eq_append.1 (List.takeWhile_prefix _)]

end Delayed

/-! ## Arrivals -/

/-- A literal that ended at an offset, and whether its action was live there. -/
structure Arrival where
  offset : Nat
  id : LiteralId
  isLive : Bool

/-- One run comes before another: at one offset, actions that waited come first. -/
def RunsBefore (delayOf : LiteralId → Nat) (a b : Nat × LiteralId) : Prop :=
  a.1 < b.1 ∨ (a.1 = b.1 ∧ ((0 < delayOf a.2 ∧ delayOf b.2 = 0)
    ∨ ((0 < delayOf a.2 ↔ 0 < delayOf b.2) ∧ a.2.toNat < b.2.toNat)))

theorem RunsBefore.fst_le {delayOf : LiteralId → Nat} {run later : Nat × LiteralId}
    (h : RunsBefore delayOf run later) : run.1 ≤ later.1 := by
  rcases h with hlt | ⟨heq, -⟩
  · exact Nat.le_of_lt hlt
  · exact Nat.le_of_eq heq

namespace Delayed

/-- The run of an action that waits. -/
def run (delayed : Delayed) : Nat × LiteralId := (delayed.due, delayed.id)

theorem run_injective : Function.Injective run := by
  rintro ⟨due, id⟩ ⟨due', id'⟩ h
  cases h
  rfl

/-- What waits in order runs in order. -/
theorem InOrder.pairwise_runsBefore {delayOf : LiteralId → Nat} {waiting : List Delayed}
    (h : InOrder waiting) (hpos : ∀ delayed ∈ waiting, 0 < delayOf delayed.id) :
    waiting.Pairwise fun a b => RunsBefore delayOf a.run b.run := by
  refine List.Pairwise.imp_of_mem (fun {a b} ha hb hab => ?_) h
  rcases precedes_iff.1 hab with hlt | ⟨hdue, hid⟩
  · exact .inl hlt
  · exact .inr ⟨hdue, .inr ⟨iff_of_true (hpos a ha) (hpos b hb), hid⟩⟩

end Delayed

namespace Arrival

def Earlier (a b : Arrival) : Prop :=
  a.offset < b.offset ∨ (a.offset = b.offset ∧ a.id.toNat < b.id.toNat)

variable (delayOf : LiteralId → Nat)

/-- Where the action of an arrival is to run. -/
def slot (arrival : Arrival) : Delayed := ⟨arrival.offset + delayOf arrival.id, arrival.id⟩

/-- What is run when a literal arrives. -/
def runs (waiting : List Delayed) (arrival : Arrival) : List Delayed :=
  waiting.takeWhile (·.due ≤ arrival.offset)
    ++ if arrival.isLive ∧ delayOf arrival.id = 0 then [arrival.slot delayOf] else []

/-- What waits afterwards. -/
def waits (waiting : List Delayed) (arrival : Arrival) : List Delayed :=
  let left := waiting.drop (waiting.takeWhile (·.due ≤ arrival.offset)).length
  if arrival.isLive ∧ 0 < delayOf arrival.id then (arrival.slot delayOf).insert left else left

/-- What is run when literals arrive one after the other. -/
def allRuns : List Delayed → List Arrival → List Delayed
  | _, [] => []
  | waiting, arrival :: arrivals =>
    arrival.runs delayOf waiting ++ allRuns (arrival.waits delayOf waiting) arrivals

/-- What waits after all of them. -/
def allWaits (waiting : List Delayed) (arrivals : List Arrival) : List Delayed :=
  arrivals.foldl (waits delayOf) waiting

/-- What waits has a delay and is in order, and what is to arrive does not wait already. -/
structure Expects (waiting : List Delayed) (arrivals : List Arrival) : Prop where
  inOrder : Delayed.InOrder waiting
  delayed : ∀ delayed ∈ waiting, 0 < delayOf delayed.id
  new : ∀ arrival ∈ arrivals, arrival.slot delayOf ∉ waiting
  ascending : arrivals.Pairwise Earlier

variable {delayOf} {waiting : List Delayed} {arrival : Arrival} {arrivals : List Arrival}
  {run : Delayed}

theorem slot_ne_slot {later : Arrival} (h : arrival.Earlier later) :
    later.slot delayOf ≠ arrival.slot delayOf := by
  intro heq
  have hid : later.id = arrival.id := congrArg Delayed.id heq
  have hdue : later.offset + delayOf later.id = arrival.offset + delayOf arrival.id :=
    congrArg Delayed.due heq
  rw [hid] at hdue
  rcases h with h | ⟨-, h⟩
  · omega
  · rw [hid] at h
    exact Nat.lt_irrefl _ h

theorem mem_waits (h : run ∈ arrival.waits delayOf waiting) :
    run ∈ waiting.drop (waiting.takeWhile (·.due ≤ arrival.offset)).length
      ∨ (run = arrival.slot delayOf ∧ 0 < delayOf arrival.id) := by
  unfold waits at h
  by_cases hwait : arrival.isLive ∧ 0 < delayOf arrival.id
  · rw [if_pos hwait] at h
    rcases Delayed.mem_insert_iff.1 h with rfl | h
    · exact .inr ⟨rfl, hwait.2⟩
    · exact .inl h
  · rw [if_neg hwait] at h
    exact .inl h

theorem inOrder_waits (h : Delayed.InOrder waiting) :
    Delayed.InOrder (arrival.waits delayOf waiting) := by
  have hleft : Delayed.InOrder
      (waiting.drop (waiting.takeWhile (·.due ≤ arrival.offset)).length) :=
    List.Pairwise.sublist (List.drop_sublist ..) h
  unfold waits
  by_cases hwait : arrival.isLive ∧ 0 < delayOf arrival.id
  · rw [if_pos hwait]
    exact Delayed.inOrder_insert hleft
  · rwa [if_neg hwait]

/-- What waits after an arrival is due later. -/
theorem lt_due_of_mem_waits (h : Delayed.InOrder waiting)
    (hrun : run ∈ arrival.waits delayOf waiting) : arrival.offset < run.due := by
  rcases mem_waits hrun with hrun | ⟨rfl, hpos⟩
  · exact Delayed.lt_due_of_mem_drop h hrun
  · exact Nat.lt_add_of_pos_right hpos

namespace Expects

variable (h : Expects delayOf waiting (arrival :: arrivals))
include h

theorem slot_not_mem_drop (count : Nat) : arrival.slot delayOf ∉ waiting.drop count :=
  fun hmem => h.new arrival List.mem_cons_self (List.mem_of_mem_drop hmem)

/-- One arrival keeps what the next ones expect. -/
theorem waits : Expects delayOf (arrival.waits delayOf waiting) arrivals where
  inOrder := inOrder_waits h.inOrder
  delayed run hrun := by
    rcases mem_waits hrun with hrun | ⟨rfl, hpos⟩
    · exact h.delayed run (List.mem_of_mem_drop hrun)
    · exact hpos
  new later hlater hmem := by
    rcases mem_waits hmem with hmem | ⟨heq, -⟩
    · exact h.new later (List.mem_cons_of_mem _ hlater) (List.mem_of_mem_drop hmem)
    · exact slot_ne_slot ((List.pairwise_cons.1 h.ascending).1 later hlater) heq
  ascending := (List.pairwise_cons.1 h.ascending).2

/-- An arrival that is live runs or waits, and nothing else is added or lost. -/
theorem perm_runs : (arrival.runs delayOf waiting ++ arrival.waits delayOf waiting).Perm
    (waiting ++ ([arrival].filter (·.isLive)).map (slot delayOf)) := by
  have hsplit := Delayed.perm_takeWhile_drop waiting arrival.offset
  have hnew := h.slot_not_mem_drop (waiting.takeWhile (·.due ≤ arrival.offset)).length
  unfold runs Arrival.waits
  cases hlive : arrival.isLive with
  | false => simpa [hlive] using hsplit
  | true =>
    rcases Nat.eq_zero_or_pos (delayOf arrival.id) with hzero | hpos
    · simpa [hlive, hzero] using List.perm_middle.trans
        ((hsplit.cons _).trans (List.perm_append_singleton _ _).symm)
    · have hinsert := (Delayed.perm_insert hnew).append_left
        (waiting.takeWhile (·.due ≤ arrival.offset))
      have hmove := List.perm_middle.trans
        ((hsplit.cons (arrival.slot delayOf)).trans (List.perm_append_singleton _ _).symm)
      simpa [hlive, hpos, Nat.ne_of_gt hpos] using hinsert.trans hmove

/-- What an arrival runs is due by then, and what did not wait runs there. -/
theorem of_mem_runs (hrun : run ∈ arrival.runs delayOf waiting) :
    (run.due ≤ arrival.offset ∧ 0 < delayOf run.id)
      ∨ (run = ⟨arrival.offset, arrival.id⟩ ∧ delayOf arrival.id = 0) := by
  rcases List.mem_append.1 hrun with hrun | hrun
  · obtain ⟨hmem, hdue⟩ := Delayed.of_mem_takeWhile hrun
    exact .inl ⟨hdue, h.delayed run hmem⟩
  · by_cases hnow : arrival.isLive ∧ delayOf arrival.id = 0
    · rw [if_pos hnow, List.mem_singleton, slot, hnow.2] at hrun
      exact .inr ⟨hrun, hnow.2⟩
    · rw [if_neg hnow] at hrun
      cases hrun

theorem due_le_of_mem_runs (hrun : run ∈ arrival.runs delayOf waiting) :
    run.due ≤ arrival.offset := by
  rcases h.of_mem_runs hrun with ⟨hdue, -⟩ | ⟨rfl, -⟩
  · exact hdue
  · exact Nat.le_refl _

theorem pairwise_runs : (arrival.runs delayOf waiting).Pairwise
    fun a b => RunsBefore delayOf a.run b.run := by
  refine List.pairwise_append.2 ⟨?_, ?_, fun a ha b hb => ?_⟩
  · have hwaiting := h.inOrder.pairwise_runsBefore h.delayed
    exact hwaiting.sublist (List.takeWhile_prefix _).sublist
  · by_cases hnow : arrival.isLive ∧ delayOf arrival.id = 0
    · rw [if_pos hnow]
      exact List.pairwise_singleton ..
    · rw [if_neg hnow]
      exact .nil
  · -- What waited comes before what did not wait.
    obtain ⟨hmem, hdue⟩ := Delayed.of_mem_takeWhile ha
    have hpos := h.delayed a hmem
    by_cases hnow : arrival.isLive ∧ delayOf arrival.id = 0
    · rw [if_pos hnow, List.mem_singleton, slot, hnow.2, Nat.add_zero] at hb
      subst hb
      rcases Nat.lt_or_eq_of_le hdue with hlt | heq
      · exact .inl hlt
      · exact .inr ⟨heq, .inl ⟨hpos, hnow.2⟩⟩
    · rw [if_neg hnow] at hb
      cases hb

end Expects

theorem Expects.allWaits (h : Expects delayOf waiting arrivals) :
    Expects delayOf (allWaits delayOf waiting arrivals) [] := by
  induction arrivals generalizing waiting with
  | nil => exact h
  | cons arrival arrivals ih => exact ih h.waits

/-- Every live arrival was run or waits, and everything once. -/
theorem perm_allRuns (h : Expects delayOf waiting arrivals) :
    (allRuns delayOf waiting arrivals ++ allWaits delayOf waiting arrivals).Perm
      (waiting ++ (arrivals.filter (·.isLive)).map (slot delayOf)) := by
  induction arrivals generalizing waiting with
  | nil => simp [allRuns, allWaits]
  | cons arrival arrivals ih =>
    have hrest := (ih h.waits).append_left (arrival.runs delayOf waiting)
    have hfirst := h.perm_runs.append_right ((arrivals.filter (·.isLive)).map (slot delayOf))
    rw [← List.append_assoc] at hrest
    rw [List.append_assoc, List.append_assoc, ← List.map_append, ← List.filter_append,
      List.singleton_append] at hfirst
    exact hrest.trans hfirst

/-- What runs after an arrival comes later: at the same offset only what did not wait. -/
theorem Expects.later_of_mem_allRuns (h : Expects delayOf waiting (arrival :: arrivals))
    (hrun : run ∈ allRuns delayOf (arrival.waits delayOf waiting) arrivals) :
    arrival.offset < run.due
      ∨ (run.due = arrival.offset ∧ delayOf run.id = 0 ∧ arrival.id.toNat < run.id.toNat) := by
  have hmem := (perm_allRuns h.waits).subset (List.mem_append_left _ hrun)
  rcases List.mem_append.1 hmem with hmem | hmem
  · exact .inl (lt_due_of_mem_waits h.inOrder hmem)
  · obtain ⟨later, hlater, rfl⟩ := List.mem_map.1 hmem
    have hearlier := (List.pairwise_cons.1 h.ascending).1 later (List.mem_filter.1 hlater).1
    unfold Earlier at hearlier
    simp only [slot]
    omega

theorem pairwise_allRuns (h : Expects delayOf waiting arrivals) :
    (allRuns delayOf waiting arrivals).Pairwise fun a b => RunsBefore delayOf a.run b.run := by
  induction arrivals generalizing waiting with
  | nil => exact .nil
  | cons arrival arrivals ih =>
    refine List.pairwise_append.2 ⟨h.pairwise_runs, ih h.waits, fun a ha b hb => ?_⟩
    have hlater := h.later_of_mem_allRuns hb
    simp only [RunsBefore, Delayed.run]
    rcases h.of_mem_runs ha with ⟨hdue, hpos⟩ | ⟨rfl, hzero⟩
    · omega
    · simp only [hzero]
      omega

/-- What is left waiting is due after everything that was run. -/
theorem lt_of_mem_allWaits (h : Expects delayOf waiting arrivals) {left : Delayed}
    (hrun : run ∈ allRuns delayOf waiting arrivals)
    (hleft : left ∈ allWaits delayOf waiting arrivals) : run.due < left.due := by
  induction arrivals generalizing waiting with
  | nil => cases hrun
  | cons arrival arrivals ih =>
    rcases List.mem_append.1 hrun with hrun | hrun
    · have hdue := h.due_le_of_mem_runs hrun
      have hmem := (perm_allRuns h.waits).subset (List.mem_append_right _ hleft)
      rcases List.mem_append.1 hmem with hmem | hmem
      · exact Nat.lt_of_le_of_lt hdue (lt_due_of_mem_waits h.inOrder hmem)
      · have hpos := h.waits.allWaits.delayed left hleft
        obtain ⟨later, hlater, rfl⟩ := List.mem_map.1 hmem
        have hearlier := (List.pairwise_cons.1 h.ascending).1 later (List.mem_filter.1 hlater).1
        unfold Earlier at hearlier
        simp only [slot] at hpos ⊢
        omega
    · exact ih h.waits hrun hleft

theorem exists_of_mem_allRuns (h : Expects delayOf waiting arrivals)
    (hrun : run ∈ allRuns delayOf waiting arrivals) :
    ∃ arrival ∈ arrivals, run.due ≤ arrival.offset := by
  induction arrivals generalizing waiting with
  | nil => cases hrun
  | cons arrival arrivals ih =>
    rcases List.mem_append.1 hrun with hrun | hrun
    · exact ⟨arrival, List.mem_cons_self, h.due_le_of_mem_runs hrun⟩
    · obtain ⟨later, hlater, hdue⟩ := ih h.waits hrun
      exact ⟨later, List.mem_cons_of_mem _ hlater, hdue⟩

/-! ## Everything that is due by an offset -/

section Limit

variable (h : Expects delayOf waiting arrivals) {limit : Nat}
include h

theorem pairwise_allRuns_append :
    (allRuns delayOf waiting arrivals
      ++ (allWaits delayOf waiting arrivals).takeWhile (·.due ≤ limit)).Pairwise
      fun a b => RunsBefore delayOf a.run b.run := by
  refine List.pairwise_append.2 ⟨pairwise_allRuns h, ?_, fun a ha b hb => ?_⟩
  · have hlast := h.allWaits.inOrder.pairwise_runsBefore h.allWaits.delayed
    exact hlast.sublist (List.takeWhile_prefix _).sublist
  · exact .inl (lt_of_mem_allWaits h ha (Delayed.of_mem_takeWhile hb).1)

/-- What is due by an offset at or after every arrival is run, once, and nothing else. -/
theorem perm_allRuns_append (hlimit : ∀ arrival ∈ arrivals, arrival.offset ≤ limit) :
    (allRuns delayOf waiting arrivals
      ++ (allWaits delayOf waiting arrivals).takeWhile (·.due ≤ limit)).Perm
      ((waiting ++ (arrivals.filter (·.isLive)).map (slot delayOf)).filter (·.due ≤ limit)) := by
  have hran : (allRuns delayOf waiting arrivals).filter (·.due ≤ limit)
      = allRuns delayOf waiting arrivals := by
    refine List.filter_eq_self.2 fun run hrun => ?_
    obtain ⟨arrival, harrival, hdue⟩ := exists_of_mem_allRuns h hrun
    exact decide_eq_true (Nat.le_trans hdue (hlimit arrival harrival))
  have hperm := (perm_allRuns h).filter (·.due ≤ limit)
  rwa [List.filter_append, hran, Delayed.filter_eq_takeWhile h.allWaits.inOrder] at hperm

end Limit

/-- Live arrivals are to run at different places. -/
theorem nodup_slots (h : arrivals.Pairwise Earlier) :
    (arrivals.map (slot delayOf)).Nodup := by
  refine List.pairwise_map.2 (h.imp fun hearlier heq => ?_)
  exact slot_ne_slot hearlier heq.symm

section Once

variable (h : Expects delayOf [] arrivals) {limit : Nat}
  (hlimit : ∀ arrival ∈ arrivals, arrival.offset ≤ limit)
include h hlimit

theorem exists_of_mem_ran (hrun : run ∈ allRuns delayOf [] arrivals
      ++ (allWaits delayOf [] arrivals).takeWhile (·.due ≤ limit)) :
    ∃ arrival ∈ arrivals, arrival.isLive = true ∧ arrival.slot delayOf = run := by
  have hmem := (perm_allRuns_append h hlimit).subset hrun
  obtain ⟨arrival, harrival, hslot⟩ := List.mem_map.1 (List.mem_filter.1 hmem).1
  obtain ⟨harrival, hlive⟩ := List.mem_filter.1 harrival
  exact ⟨arrival, harrival, hlive, hslot⟩

/-- Where nothing waits at first, a live arrival is run once if it is due in time, else never. -/
theorem count_ran (harrival : arrival ∈ arrivals) (hlive : arrival.isLive = true) :
    (allRuns delayOf [] arrivals
      ++ (allWaits delayOf [] arrivals).takeWhile (·.due ≤ limit)).count (arrival.slot delayOf)
      = if (arrival.slot delayOf).due ≤ limit then 1 else 0 := by
  have hmem : arrival.slot delayOf ∈ (arrivals.filter (·.isLive)).map (slot delayOf) :=
    List.mem_map_of_mem (List.mem_filter.2 ⟨harrival, hlive⟩)
  have hnodup : ((arrivals.filter (·.isLive)).map (slot delayOf)).Nodup :=
    (nodup_slots h.ascending).sublist (List.filter_sublist.map _)
  rw [(perm_allRuns_append h hlimit).count_eq, List.nil_append]
  by_cases hdue : (arrival.slot delayOf).due ≤ limit
  · rw [if_pos hdue]
    exact List.count_eq_one_of_mem (hnodup.filter _)
      (List.mem_filter.2 ⟨hmem, decide_eq_true hdue⟩)
  · rw [if_neg hdue, List.count_eq_zero]
    intro hfiltered
    exact hdue (of_decide_eq_true (List.mem_filter.1 hfiltered).2)

end Once

end Arrival

end Multimatch
