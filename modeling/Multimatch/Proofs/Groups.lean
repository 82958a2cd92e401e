import Mathlib.Data.List.Basic
import Mathlib.Tactic.ByContra
import Multimatch.Groups

/-!
# Sets of groups

Two sets meet if they have a group in common (`Groups.meets_iff`), and one is within the other if it
has no group that the other lacks. What else there is to say about sets of groups is said group by
group.
-/

namespace Multimatch

namespace Groups

variable {a b c : Groups}

theorem meets_iff : a.meets b = true ↔ ∃ bit, a.getLsbD bit = true ∧ b.getLsbD bit = true := by
  constructor
  · intro h
    by_contra hnone
    have hzero : a &&& b = 0#64 := by
      refine BitVec.eq_of_getLsbD_eq fun bit _ => ?_
      rw [BitVec.getLsbD_and, BitVec.getLsbD_zero, Bool.and_eq_false_iff]
      by_contra hboth
      rw [not_or, Bool.not_eq_false, Bool.not_eq_false] at hboth
      exact hnone ⟨bit, hboth⟩
    simp [meets, hzero] at h
  · rintro ⟨bit, ha, hb⟩
    have hne : a &&& b ≠ 0#64 := by
      intro hzero
      have hbit := congrArg (BitVec.getLsbD · bit) hzero
      simp [ha, hb] at hbit
    simpa [meets] using hne

theorem not_both_of_meets (h : a.meets b = false) {bit : Nat} :
    ¬ (a.getLsbD bit = true ∧ b.getLsbD bit = true) := by
  intro hboth
  rw [meets_iff.2 ⟨bit, hboth⟩] at h
  cases h

/-- Every group of one set is in the other. -/
def Within (a b : Groups) : Prop := ∀ bit, a.getLsbD bit = true → b.getLsbD bit = true

theorem Within.trans (hab : a.Within b) (hbc : b.Within c) : a.Within c :=
  fun bit ha => hbc bit (hab bit ha)

theorem Within.meets (h : a.Within b) (hmeets : c.meets a = true) : c.meets b = true := by
  obtain ⟨bit, hc, ha⟩ := meets_iff.1 hmeets
  exact meets_iff.2 ⟨bit, hc, h bit ha⟩

theorem getLsbD_without (bit : Nat) :
    (a.without b).getLsbD bit = (a.getLsbD bit && !b.getLsbD bit) := by
  rw [without, BitVec.getLsbD_and, BitVec.getLsbD_not]
  cases ha : a.getLsbD bit with
  | false => rfl
  | true => rw [decide_eq_true (BitVec.lt_of_getLsbD ha), Bool.true_and, Bool.true_and]

theorem within_of_without_eq_none (h : a.without b = none) : a.Within b := by
  intro bit ha
  have hbit : (a.without b).getLsbD bit = false := by rw [h, none, BitVec.getLsbD_zero]
  rw [getLsbD_without, ha, Bool.true_and, Bool.not_eq_false'] at hbit
  exact hbit

theorem without_within (a b : Groups) : (a.without b).Within a := by
  intro bit h
  rw [getLsbD_without, Bool.and_eq_true] at h
  exact h.1

/-- What is switched off is not missed by a set that does not have it. -/
theorem meets_without (h : b.meets c = false) (hmeets : c.meets a = true) :
    c.meets (a.without b) = true := by
  obtain ⟨bit, hc, ha⟩ := meets_iff.1 hmeets
  have hb : b.getLsbD bit = false :=
    Bool.eq_false_iff.2 fun hb => not_both_of_meets h ⟨hb, hc⟩
  refine meets_iff.2 ⟨bit, hc, ?_⟩
  rw [getLsbD_without, ha, hb]
  rfl

/-- The groups of some sets, taken together. -/
def union (sets : List Groups) : Groups := sets.foldl (· ||| ·) none

theorem getLsbD_union {sets : List Groups} {bit : Nat} :
    (union sets).getLsbD bit = true ↔ ∃ groups ∈ sets, groups.getLsbD bit = true := by
  have hfold (start : Groups) : (sets.foldl (· ||| ·) start).getLsbD bit = true
      ↔ start.getLsbD bit = true ∨ ∃ groups ∈ sets, groups.getLsbD bit = true := by
    induction sets generalizing start with
    | nil => simp
    | cons groups sets ih =>
      rw [List.foldl_cons, ih, BitVec.getLsbD_or, Bool.or_eq_true, List.exists_mem_cons_iff,
        or_assoc]
  rw [union, hfold, none, BitVec.getLsbD_zero]
  simp

end Groups

end Multimatch
