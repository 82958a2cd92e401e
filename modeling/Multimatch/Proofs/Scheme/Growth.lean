import Multimatch.Proofs.Scheme.Optimal

/-!
# How the cost grows

More literals never cost less, as long as the shortest one does not get longer
(`Scheme.costOf_le`). Every term of the estimate grows along `LiteralStats.NoHarder`, because the
divisions and shifts that cut something off keep the order: a shorter literal makes the window
narrower, hence the shift smaller and the chance of a candidate greater.

`Scheme.InWords.cost` is the estimate as a machine finds it, in words of 64 bits and, for the size
of the table, of 32. It stops at a step whose value does not fit, and `Scheme.cost_grows` says that
it never does.
-/

namespace Multimatch

/-! ## Words -/

namespace Word

/-- The value, if it fits so many bits. -/
def fit (bits value : Nat) : Option Nat := if value < 1 <<< bits then some value else none

/-- The difference, if it is not negative. -/
def minus (a b : Nat) : Option Nat := if b ≤ a then some (a - b) else none

theorem fit_eq {bits value : Nat} (h : value < 1 <<< bits) : fit bits value = some value :=
  if_pos h

theorem minus_eq {a b : Nat} (h : b ≤ a) : minus a b = some (a - b) := if_pos h

end Word

namespace Scheme

namespace InWords

section Definitions

variable (scheme : Scheme) (stats : LiteralStats)

def probeCost : Option Nat := do
  return (← Word.fit 64 (1024 * scheme.wordCost)) / scheme.stride

def occupancy : Option Nat := do
  let spread ← Word.minus (← Word.fit 64 (stats.count + scheme.buckets)) 1
  Word.fit 64 (spread / scheme.buckets * scheme.stride)

def windowShift : Option Nat := do
  let more ← Word.minus (scheme.window stats) 1
  return min 20 (← Word.fit 64 (4 * more))

/-- The step to the left is the one that grows most. -/
def flagged : Option Nat := do
  let scaled ← Word.fit 64 ((← occupancy scheme stats) <<< 20)
  return (scaled >>> scheme.bits) >>> (← windowShift scheme stats)

def confirmCost : Option Nat := do
  let candidates ← Word.fit 64 ((← flagged scheme stats) * scheme.buckets)
  return (← Word.fit 64 (candidates * 1024)) >>> 20

def memoryCost : Option Nat := do
  let entries ← Word.fit 32 scheme.entries
  return (← Word.fit 32 (scheme.wordLength * entries)) / 64

/-- The cost of a scheme, found step by step in words: nothing where a step does not fit. -/
def cost : Option Nat := do
  let scanning ← Word.fit 64 ((← probeCost scheme) + (← confirmCost scheme stats))
  let standing ← Word.fit 64 (scanning + (← memoryCost scheme))
  Word.fit 64 (standing + scheme.stridePenalty stats)

end Definitions

variable {scheme : Scheme} {stats : LiteralStats}

theorem probeCost_eq (scheme : Scheme) : probeCost scheme = some scheme.probeCost := by
  have hproduct : 1024 * scheme.wordCost < 1 <<< 64 := by
    unfold wordCost
    split <;> decide
  rw [probeCost, Word.fit_eq hproduct]
  rfl

theorem windowShift_eq (h : scheme.IsKnown) :
    windowShift scheme stats = some (scheme.windowShift stats) := by
  have hpos : 1 ≤ scheme.window stats := Nat.le_max_left ..
  have hwidth : scheme.bucketWidth ≤ 16 :=
    h.of_base fun base hmem _ =>
      (by decide : ∀ base ∈ known, base.width / base.buckets ≤ 16) base hmem
  have hsteps : 4 * (scheme.window stats - 1) < 1 <<< 64 := by
    have hprobes := Nat.div_le_self scheme.bucketWidth scheme.stride
    unfold window
    omega
  rw [windowShift, Word.minus_eq hpos, Option.bind_eq_bind, Option.bind_some, Word.fit_eq hsteps]
  rfl

theorem memoryCost_eq (h : scheme.IsKnown) : memoryCost scheme = some scheme.memoryCost := by
  have hentries : scheme.entries < 1 <<< 32 := Nat.lt_of_le_of_lt h.entries_le (by decide)
  have hsize : scheme.wordLength * scheme.entries < 1 <<< 32 :=
    Nat.lt_of_le_of_lt h.tableSize_le (by decide)
  rw [memoryCost, Word.fit_eq hentries, Option.bind_eq_bind, Option.bind_some, Word.fit_eq hsize]
  rfl

section Fits

variable (h : scheme.IsKnown) (hfits : scheme.CostFits stats)
include h hfits

theorem occupancy_eq : occupancy scheme stats = some (scheme.occupancy stats) := by
  have hpos : 1 ≤ stats.count + scheme.buckets :=
    Nat.le_trans h.buckets_pos (Nat.le_add_left ..)
  have hfit : scheme.occupancy stats < 1 <<< 64 := by
    have hscaled := hfits.occupancy
    rw [Nat.shiftLeft_eq] at hscaled
    omega
  rw [occupancy, Word.fit_eq hfits.load, Option.bind_eq_bind, Option.bind_some, Word.minus_eq hpos]
  exact Word.fit_eq hfit

theorem flagged_eq : flagged scheme stats = some (scheme.flagged stats) := by
  rw [flagged, occupancy_eq h hfits, Option.bind_eq_bind, Option.bind_some,
    Word.fit_eq hfits.occupancy, windowShift_eq h]
  rfl

theorem confirmCost_eq : confirmCost scheme stats = some (scheme.confirmCost stats) := by
  have hproduct := hfits.confirm
  have hcandidates : scheme.flagged stats * scheme.buckets < 1 <<< 64 := by omega
  rw [confirmCost, flagged_eq h hfits, Option.bind_eq_bind, Option.bind_some,
    Word.fit_eq hcandidates, Option.bind_some, Word.fit_eq hproduct]
  rfl

/-- Every step fits its word, so that the machine finds the cost. -/
theorem cost_eq : cost scheme stats = some (scheme.costOf stats) := by
  have htotal := hfits.total
  rw [costOf] at htotal
  have hscanning : scheme.probeCost + scheme.confirmCost stats < 1 <<< 64 := by omega
  have hstanding : scheme.probeCost + scheme.confirmCost stats + scheme.memoryCost < 1 <<< 64 := by
    omega
  simp only [cost, probeCost_eq, confirmCost_eq h hfits, memoryCost_eq h, Word.fit_eq hscanning,
    Word.fit_eq hstanding, bind, Option.bind_some]
  exact Word.fit_eq htotal

end Fits

end InWords

end Scheme

/-! ## Harder literals -/

/-- Literals with these facts are no harder than those with the others: they are no more, and the
shortest of them is no shorter. -/
structure LiteralStats.NoHarder (a b : LiteralStats) : Prop where
  count : a.count ≤ b.count
  minLength : b.minLength ≤ a.minLength

/-- Literals are no harder than more literals that they are among. -/
theorem LiteralStats.noHarder_of_subset {literals more : List Literal} (hne : literals ≠ [])
    (hsubset : literals ⊆ more) (hcount : literals.length ≤ more.length) :
    (of literals).NoHarder (of more) := by
  obtain ⟨shortest, hshortest, hlength⟩ := exists_minLength hne
  exact ⟨hcount, hlength ▸ minLength_le (hsubset hshortest)⟩

namespace Scheme

section NoHarder

variable {scheme : Scheme} {a b : LiteralStats} (h : a.NoHarder b)
include h

theorem occupancy_le : scheme.occupancy a ≤ scheme.occupancy b := by
  have hspread : a.count + scheme.buckets - 1 ≤ b.count + scheme.buckets - 1 :=
    Nat.sub_le_sub_right (Nat.add_le_add_right h.count _) 1
  exact Nat.mul_le_mul_right _ (Nat.div_le_div_right hspread)

/-- The window of harder literals is no wider, so that it rules out no more. -/
theorem windowShift_le : scheme.windowShift b ≤ scheme.windowShift a := by
  have hlength := h.minLength
  simp only [windowShift, window]
  omega

theorem flagged_le : scheme.flagged a ≤ scheme.flagged b := by
  simp only [flagged, Nat.shiftLeft_eq, Nat.shiftRight_eq_div_pow]
  have hscaled : scheme.occupancy a * 2 ^ 20 / 2 ^ scheme.bits
      ≤ scheme.occupancy b * 2 ^ 20 / 2 ^ scheme.bits :=
    Nat.div_le_div_right (Nat.mul_le_mul_right _ (occupancy_le h))
  exact Nat.div_le_div hscaled (Nat.pow_le_pow_right (by decide) (windowShift_le h))
    (Nat.ne_of_gt (Nat.two_pow_pos _))

theorem confirmCost_le : scheme.confirmCost a ≤ scheme.confirmCost b := by
  simp only [confirmCost, Nat.shiftRight_eq_div_pow]
  exact Nat.div_le_div_right (Nat.mul_le_mul_right _ (Nat.mul_le_mul_right _ (flagged_le h)))

theorem stridePenalty_le : scheme.stridePenalty a ≤ scheme.stridePenalty b := by
  have hlength := h.minLength
  unfold stridePenalty
  split
  · next hshort => rw [if_pos (Nat.lt_of_le_of_lt hlength hshort)]
  · exact Nat.zero_le _

/-- No scheme costs less for literals that are harder. -/
theorem costOf_le : scheme.costOf a ≤ scheme.costOf b := by
  have hconfirm := @confirmCost_le scheme _ _ h
  have hpenalty := @stridePenalty_le scheme _ _ h
  rw [costOf, costOf]
  omega

end NoHarder

/-- The cost of a scheme for fewer than `1 <<< 36` literals is found without a step that leaves its
word, also when there is one more. One more literal, wherever it goes, never lowers the cost, and
neither do any literals that are no fewer and whose shortest is no longer. -/
theorem cost_grows {scheme : Scheme} (h : scheme.IsKnown) {literals : List Literal}
    (hne : literals ≠ []) (hcount : literals.length < 1 <<< 36) :
    InWords.cost scheme (.of literals) = some (scheme.cost literals)
      ∧ (∀ (literal : Literal) (more : List Literal), more.Perm (literal :: literals) →
          InWords.cost scheme (.of more) = some (scheme.cost more)
            ∧ scheme.cost literals ≤ scheme.cost more)
      ∧ ∀ more : List Literal, literals.length ≤ more.length →
          (LiteralStats.of more).minLength ≤ (LiteralStats.of literals).minLength →
          scheme.cost literals ≤ scheme.cost more := by
  refine ⟨InWords.cost_eq h (h.costFits hcount), fun literal more hperm => ⟨?_, ?_⟩,
    fun more hmore hshortest => costOf_le ⟨hmore, hshortest⟩⟩
  · have hmore : more.length ≤ 1 <<< 36 := by
      rw [hperm.length_eq]
      exact hcount
    exact InWords.cost_eq h (h.costFits_of_le hmore)
  · have hsubset : literals ⊆ more := fun other hother =>
      hperm.mem_iff.2 (List.mem_cons_of_mem _ hother)
    have hmore : literals.length ≤ more.length := by
      rw [hperm.length_eq]
      exact Nat.le_succ _
    exact costOf_le (LiteralStats.noHarder_of_subset hne hsubset hmore)

/-- A literal of one byte is shorter than a stride of four, and costs the penalty. -/
theorem cost_grows_by_penalty :
    let scheme : Scheme := ⟨2, 32, 8, 4, .none, 3, 0, 9⟩
    let literals : List Literal := [{ id := .wrap 7, bytes := [97, 98, 99, 100] }]
    let short : Literal := { id := .wrap 8, bytes := [97] }
    scheme.IsKnown ∧ literals ≠ [] ∧ literals.length < 1 <<< 36
      ∧ (literals ++ [short]).Perm (short :: literals)
      ∧ InWords.cost scheme (.of literals) = some 608
      ∧ InWords.cost scheme (.of (literals ++ [short])) = some (608 + 1 <<< 30)
      ∧ scheme.cost literals ≤ scheme.cost (literals ++ [short]) := by
  intro scheme literals short
  have hscheme : scheme.IsKnown :=
    ⟨⟨{ scheme with bits := defaultDomain }, by decide, rfl⟩, by decide⟩
  have hne : literals ≠ [] := by decide
  have hcount : literals.length < 1 <<< 36 := by decide
  have hperm : (literals ++ [short]).Perm (short :: literals) := by decide
  obtain ⟨hwords, hmore, -⟩ := cost_grows hscheme hne hcount
  obtain ⟨hwords', hle⟩ := hmore short _ hperm
  refine ⟨hscheme, hne, hcount, hperm, hwords.trans ?_, hwords'.trans ?_, hle⟩ <;> decide

end Scheme

end Multimatch
