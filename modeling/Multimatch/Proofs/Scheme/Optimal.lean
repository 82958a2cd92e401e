import Mathlib.Data.Nat.Basic
import Multimatch.Proofs.Scheme.Known

/-!
# The best scheme

The scheme that is chosen is the least of all candidates by `Scheme.weights`, and it is the only
least one, as no two candidates have the same number and the same size (`Scheme.choose_optimal`).
Size comes first for a small table, so that it never takes more than the table chosen otherwise.
Costs are numbers without a bound here, and `IsKnown.costFits` says why words of 64 bits do.

A scheme that strides over the shortest literal is never chosen (`Scheme.stride_le_of_choose`): the
scheme of the same domain with the narrowest words and no stride is smaller and cheaper
(`Scheme.costOf_plain_lt`). For this the penalty has to outweigh no more than what the stride saves
on probes, as all other costs grow with it, however many literals there are.
-/

namespace Multimatch

namespace LiteralStats

variable {literals : List Literal}

theorem minLength_le {literal : Literal} (h : literal ∈ literals) :
    (of literals).minLength ≤ literal.length := by
  have hmem : literal.length ∈ literals.map Literal.length := List.mem_map_of_mem h
  cases hmin : (literals.map Literal.length).min? with
  | none => rw [List.min?_eq_none_iff.1 hmin] at hmem; cases hmem
  | some shortest =>
    simp only [of, hmin, Option.getD_some]
    exact (List.min?_eq_some_iff.1 hmin).2 _ hmem

theorem exists_minLength (hne : literals ≠ []) :
    ∃ literal ∈ literals, literal.length = (of literals).minLength := by
  cases hmin : (literals.map Literal.length).min? with
  | none => exact absurd (List.map_eq_nil_iff.1 (List.min?_eq_none_iff.1 hmin)) hne
  | some shortest =>
    simp only [of, hmin, Option.getD_some]
    exact List.mem_map.1 (List.min?_eq_some_iff.1 hmin).1

end LiteralStats

namespace Scheme

/-! ## Weights -/

/-- What candidates are weighed by, the most important part first. -/
def weights (literals : List Literal) (small : Bool) (scheme : Scheme) : List Nat :=
  if small then [scheme.tableSize, scheme.cost literals, scheme.id]
  else [scheme.cost literals, scheme.tableSize, scheme.id]

/-- Ranks end with the cost once more, which decides nothing. -/
theorem isBetter_of_iff {literals : List Literal} {small : Bool} {a b : Scheme} :
    (Rank.of a (.of literals) small).isBetter (Rank.of b (.of literals) small) = true
      ↔ weights literals small a < weights literals small b := by
  rw [Rank.isBetter, decide_eq_true_iff]
  cases small
  · simp only [Rank.parts, Rank.of, weights, cost, Bool.false_eq_true, if_false,
      List.cons_lt_cons_iff, List.lt_irrefl, and_false, or_false]
    omega
  · simp only [Rank.parts, Rank.of, weights, cost, if_true, List.cons_lt_cons_iff, List.lt_irrefl,
      and_false, or_false]
    omega

theorem IsKnown.eq_of_tableSize_eq {a b : Scheme} (ha : a.IsKnown) (hb : b.IsKnown)
    (hid : a.id = b.id) (hsize : a.tableSize = b.tableSize) : a = b := by
  obtain ⟨base, hfind, ha'⟩ := ha.find?_id
  obtain ⟨base', hfind', hb'⟩ := hb.find?_id
  rw [hid, hfind', Option.some.injEq] at hfind
  subst hfind
  have hword : a.wordLength = b.wordLength := by rw [ha', hb']; rfl
  have hpos : 0 < b.wordLength :=
    hb.of_base fun base hmem _ => (by decide : ∀ base ∈ known, 0 < base.width / 8) base hmem
  rw [tableSize, tableSize, hword] at hsize
  have hentries := Nat.eq_of_mul_eq_mul_left hpos hsize
  rw [entries, entries, Nat.one_shiftLeft, Nat.one_shiftLeft] at hentries
  have hbits : a.bits = b.bits := Nat.pow_right_injective (Nat.le_refl 2) hentries
  rw [ha', hb', hbits]

/-- Different candidates have different weights. -/
theorem IsKnown.eq_of_weights_eq {literals : List Literal} {small : Bool} {a b : Scheme}
    (ha : a.IsKnown) (hb : b.IsKnown) (h : weights literals small a = weights literals small b) :
    a = b := by
  cases small <;> simp only [weights, Bool.false_eq_true, if_false, if_true, List.cons.injEq] at h
  · exact ha.eq_of_tableSize_eq hb h.2.2.1 h.2.1
  · exact ha.eq_of_tableSize_eq hb h.2.2.1 h.1

/-! ## Sixty-four bits -/

/-- Each step of the estimate fits 64 bits, those within a term too. -/
structure CostFits (scheme : Scheme) (stats : LiteralStats) : Prop where
  load : stats.count + scheme.buckets < 1 <<< 64
  occupancy : scheme.occupancy stats <<< 20 < 1 <<< 64
  confirm : scheme.flagged stats * scheme.buckets * 1024 < 1 <<< 64
  total : scheme.costOf stats < 1 <<< 64

section CostFits

variable {scheme : Scheme} (h : scheme.IsKnown)
include h

theorem IsKnown.le_buckets : 8 ≤ scheme.buckets :=
  h.of_base fun base hmem _ => (by decide : ∀ base ∈ known, 8 ≤ base.buckets) base hmem

theorem IsKnown.buckets_le : scheme.buckets ≤ 16 :=
  h.of_base fun base hmem _ => (by decide : ∀ base ∈ known, base.buckets ≤ 16) base hmem

theorem IsKnown.stride_le_four : scheme.stride ≤ 4 :=
  h.of_base fun base hmem _ => (by decide : ∀ base ∈ known, base.stride ≤ 4) base hmem

/-- No more literals than this fit a machine, by far. -/
theorem IsKnown.costFits_of_le {stats : LiteralStats} (hcount : stats.count ≤ 1 <<< 36) :
    scheme.CostFits stats := by
  have hle := h.le_buckets
  have hbuckets := h.buckets_le
  have hload : scheme.bucketLoad stats ≤ 2 ^ 34 :=
    calc scheme.bucketLoad stats ≤ (stats.count + scheme.buckets - 1) / 8 :=
          Nat.div_le_div_left hle (by decide)
      _ ≤ 2 ^ 34 := by omega
  have hoccupancy : scheme.occupancy stats ≤ 2 ^ 34 * 4 :=
    Nat.mul_le_mul hload h.stride_le_four
  have hflagged : scheme.flagged stats ≤ 2 ^ 47 := by
    have hbits : 2 ^ 9 ≤ 2 ^ scheme.bits := Nat.pow_le_pow_right (by decide) h.domain.1
    simp only [flagged, Nat.shiftRight_eq_div_pow, Nat.shiftLeft_eq]
    calc scheme.occupancy stats * 2 ^ 20 / 2 ^ scheme.bits / 2 ^ scheme.windowShift stats
        ≤ scheme.occupancy stats * 2 ^ 20 / 2 ^ scheme.bits := Nat.div_le_self ..
      _ ≤ scheme.occupancy stats * 2 ^ 20 / 2 ^ 9 := Nat.div_le_div_left hbits (by decide)
      _ ≤ 2 ^ 47 := by omega
  have hproduct : scheme.flagged stats * scheme.buckets * 1024 ≤ 2 ^ 47 * 16 * 1024 :=
    Nat.mul_le_mul_right 1024 (Nat.mul_le_mul hflagged hbuckets)
  have hprobe : scheme.probeCost ≤ 3072 := by
    have hword : scheme.wordCost ≤ 3 := by
      unfold wordCost
      split <;> decide
    exact Nat.le_trans (Nat.div_le_self ..) (Nat.mul_le_mul_left 1024 hword)
  have hconfirm : scheme.confirmCost stats ≤ 2 ^ 47 * 16 * 1024 := by
    rw [confirmCost, Nat.shiftRight_eq_div_pow]
    exact Nat.le_trans (Nat.div_le_self ..) hproduct
  have hmemory : scheme.memoryCost ≤ 524288 :=
    Nat.le_trans (Nat.div_le_self ..) h.tableSize_le
  have hpenalty : scheme.stridePenalty stats ≤ 2 ^ 30 := by
    unfold stridePenalty
    split <;> decide
  refine ⟨by omega, ?_, by omega, ?_⟩
  · rw [Nat.shiftLeft_eq]
    omega
  · rw [costOf]
    omega

theorem IsKnown.costFits {stats : LiteralStats} (hcount : stats.count < 1 <<< 36) :
    scheme.CostFits stats :=
  h.costFits_of_le (Nat.le_of_lt hcount)

end CostFits

/-! ## The least candidate -/

theorem mem_candidates {target : Target} {scheme : Scheme} :
    scheme ∈ candidates target ↔ scheme.IsKnown ∧ scheme.runsOn target = true := by
  constructor
  · intro h
    refine ⟨isKnown_of_mem_candidates h, ?_⟩
    simp only [candidates, List.mem_flatMap, List.mem_map, List.mem_filter] at h
    obtain ⟨base, ⟨-, hruns⟩, bits, -, rfl⟩ := h
    exact hruns
  · rintro ⟨hknown, hruns⟩
    obtain ⟨base, hbase, heq⟩ := hknown.base
    have hbits : scheme.bits ∈ domains := by
      rw [domains, List.mem_range'_1]
      exact ⟨hknown.domain.1, Nat.lt_succ_of_le hknown.domain.2⟩
    simp only [candidates, List.mem_flatMap, List.mem_map, List.mem_filter]
    exact ⟨base, ⟨hbase, by rw [heq] at hruns; exact hruns⟩, scheme.bits, hbits, heq.symm⟩

/-- By induction on the candidates, while the best of those before them takes the lead. -/
theorem not_lt_of_best? {literals : List Literal} {small : Bool} {schemes : List Scheme}
    {best : Scheme} (h : best? (.of literals) small schemes = some best) :
    ∀ other ∈ schemes, ¬ weights literals small other < weights literals small best := by
  cases schemes with
  | nil => cases h
  | cons first schemes =>
    rw [best?, Option.some.injEq] at h
    subst h
    induction schemes generalizing first with
    | nil =>
      intro other hother
      rw [List.mem_singleton.1 hother]
      exact List.lt_irrefl _
    | cons next schemes ih =>
      rw [List.foldl_cons]
      split
      · next hbetter =>
        have hlead := ih next
        have hlt := isBetter_of_iff.1 hbetter
        intro other hother
        rcases List.mem_cons.1 hother with rfl | hother
        · exact fun hfirst => hlead _ List.mem_cons_self (List.lt_trans hlt hfirst)
        · exact hlead other hother
      · next hbetter =>
        have hlead := ih first
        have hnot := mt isBetter_of_iff.2 hbetter
        intro other hother
        rcases List.mem_cons.1 hother with rfl | hother
        · exact hlead _ List.mem_cons_self
        · rcases List.mem_cons.1 hother with rfl | hother
          · exact List.not_lt.2 (List.le_trans (List.not_lt.1 (hlead _ List.mem_cons_self))
              (List.not_lt.1 hnot))
          · exact hlead other (List.mem_cons_of_mem _ hother)

/-- Among the schemes that run on the target, with every domain, this one has the least weights, and
no other has the same. -/
structure IsBest (target : Target) (literals : List Literal) (small : Bool) (scheme : Scheme) :
    Prop where
  known : scheme.IsKnown
  runsOn : scheme.runsOn target = true
  least : ∀ other : Scheme, other.IsKnown → other.runsOn target = true → other ≠ scheme →
    weights literals small scheme < weights literals small other

theorem IsBest.not_lt {target : Target} {literals : List Literal} {small : Bool}
    {scheme other : Scheme} (h : scheme.IsBest target literals small) (hother : other.IsKnown)
    (hruns : other.runsOn target = true) :
    ¬ weights literals small other < weights literals small scheme := by
  by_cases heq : other = scheme
  · rw [heq]
    exact List.lt_irrefl _
  · exact List.lt_asymm (h.least other hother hruns heq)

theorem choose_isBest (target : Target) {literals : List Literal} (small : Bool)
    (hne : literals ≠ []) (hbytes : ∀ literal ∈ literals, literal.bytes ≠ []) :
    ∃ scheme, choose target literals small = .ok scheme
      ∧ scheme.IsBest target literals small := by
  obtain ⟨scheme, hchoose, hbest⟩ := choose_eq_best? target small hne hbytes
  obtain ⟨hknown, hruns⟩ := mem_candidates.1 (mem_of_best? hbest)
  refine ⟨scheme, hchoose, hknown, hruns, fun other hother hothers hdiffers => ?_⟩
  have hnot := not_lt_of_best? hbest other (mem_candidates.2 ⟨hother, hothers⟩)
  refine List.not_le.1 fun hge => hdiffers ?_
  exact hother.eq_of_weights_eq hknown (List.le_antisymm hge (List.not_lt.1 hnot))

theorem cost_le_of_not_lt {literals : List Literal} {a b : Scheme}
    (h : ¬ weights literals false b < weights literals false a) :
    a.cost literals ≤ b.cost literals :=
  Nat.not_lt.1 fun hlt => h (List.cons_lt_cons_iff.2 (.inl hlt))

theorem tableSize_le_of_not_lt {literals : List Literal} {a b : Scheme}
    (h : ¬ weights literals true b < weights literals true a) : a.tableSize ≤ b.tableSize :=
  Nat.not_lt.1 fun hlt => h (List.cons_lt_cons_iff.2 (.inl hlt))

/-- The choice is the one best candidate, be it for a small table or for any other. So no candidate
costs less than the one chosen when size does not come first, and its table is never smaller than
the one chosen when it does. This is so for any number of literals, and for fewer than `1 <<< 36`
words of 64 bits are enough to find the costs. -/
theorem choose_optimal (target : Target) {literals : List Literal} (hne : literals ≠ [])
    (hbytes : ∀ literal ∈ literals, literal.bytes ≠ []) :
    ∃ normal small, choose target literals false = .ok normal
      ∧ choose target literals true = .ok small
      ∧ normal.IsBest target literals false ∧ small.IsBest target literals true
      ∧ (∀ other : Scheme, other.IsKnown → other.runsOn target = true →
          normal.cost literals ≤ other.cost literals)
      ∧ small.tableSize ≤ normal.tableSize
      ∧ (literals.length < 1 <<< 36 →
          ∀ other : Scheme, other.IsKnown → other.CostFits (.of literals)) := by
  obtain ⟨normal, hnormal, hbest⟩ := choose_isBest target false hne hbytes
  obtain ⟨small, hsmall, hbest'⟩ := choose_isBest target true hne hbytes
  exact ⟨normal, small, hnormal, hsmall, hbest, hbest',
    fun other hother hruns => cost_le_of_not_lt (hbest.not_lt hother hruns),
    tableSize_le_of_not_lt (hbest'.not_lt hbest.known hbest.runsOn),
    fun hcount _ hother => hother.costFits hcount⟩

/-- Literals of four bytes get the wider words of two schemes, unless the table has to be small. -/
theorem choose_optimal_smaller_table :
    let literals : List Literal := [{ id := .wrap 7, bytes := [97, 98, 99, 100] }]
    ∃ normal small, literals ≠ [] ∧ (∀ literal ∈ literals, literal.bytes ≠ [])
      ∧ choose .all literals false = .ok normal ∧ choose .all literals true = .ok small
      ∧ normal.IsBest .all literals false ∧ small.IsBest .all literals true
      ∧ small.tableSize < normal.tableSize := by
  intro literals
  have hne : literals ≠ [] := by decide
  have hbytes : ∀ literal ∈ literals, literal.bytes ≠ [] := by decide
  obtain ⟨normal, small, hnormal, hsmall, hbest, hbest', -⟩ := choose_optimal .all hne hbytes
  have hwide : choose .all literals false = .ok ⟨5, 64, 8, 4, .none, 3, 1, 9⟩ := by decide +kernel
  have hnarrow : choose .all literals true = .ok ⟨2, 32, 8, 4, .none, 3, 0, 9⟩ := by decide +kernel
  have hsmaller : small.tableSize < normal.tableSize := by
    cases hwide.symm.trans hnormal
    cases hnarrow.symm.trans hsmall
    decide
  exact ⟨normal, small, hne, hbytes, hnormal, hsmall, hbest, hbest', hsmaller⟩

/-! ## Long strides -/

/-- The scheme with the narrowest words that probes at every byte. -/
def plain (bits : Nat) : Scheme := ⟨0, 32, 8, 1, .none, 0, 0, bits⟩

theorem isKnown_plain {bits : Nat} (hbits : IsDomain bits) : (plain bits).IsKnown :=
  ⟨⟨plain defaultDomain, by decide, rfl⟩, hbits⟩

theorem runsOn_plain (bits : Nat) (target : Target) : (plain bits).runsOn target = true := rfl

theorem wordLength_plain (bits : Nat) : (plain bits).wordLength = 4 := by
  simp only [wordLength, plain, Nat.reduceDiv]

theorem probeCost_plain (bits : Nat) : (plain bits).probeCost = 2048 := by
  simp only [probeCost, wordCost, plain, true_or, if_true, Nat.reduceMul, Nat.reduceDiv]

section Strides

variable {scheme : Scheme} (h : scheme.IsKnown) {stats : LiteralStats}
  (hlong : stats.minLength < scheme.stride)
include h

theorem tableSize_plain_le : (plain scheme.bits).tableSize ≤ scheme.tableSize := by
  have hword : 4 ≤ scheme.wordLength :=
    h.of_base fun base hmem _ => (by decide : ∀ base ∈ known, 4 ≤ base.width / 8) base hmem
  rw [tableSize, tableSize, wordLength_plain]
  exact Nat.mul_le_mul_right _ hword

include hlong

/-- All probes of a window that is shorter than a stride tell candidates apart without one too. -/
theorem windowShift_le_plain :
    scheme.windowShift stats ≤ (plain scheme.bits).windowShift stats := by
  have hstride := h.stride_le_four
  have hwindow : scheme.window stats ≤ (plain scheme.bits).window stats := by
    simp only [window, bucketWidth, plain, Nat.reduceDiv]
    omega
  simp only [windowShift]
  omega

/-- Twice as many buckets are no use where every literal is there for two alignments. -/
theorem occupancy_plain_le (hpos : 0 < stats.minLength) :
    (plain scheme.bits).occupancy stats ≤ scheme.occupancy stats := by
  have hbuckets : scheme.buckets ≤ 8 * scheme.stride :=
    (h.of_base (motive := fun scheme => 1 < scheme.stride → scheme.buckets ≤ 8 * scheme.stride)
      fun base hmem _ => (by decide : ∀ base ∈ known, 1 < base.stride →
        base.buckets ≤ 8 * base.stride) base hmem) (Nat.lt_of_le_of_lt hpos hlong)
  have hcount : stats.count ≤ 8 * (scheme.bucketLoad stats * scheme.stride) :=
    calc stats.count ≤ scheme.buckets * scheme.bucketLoad stats := count_le_load h.buckets_pos stats
      _ ≤ 8 * scheme.stride * scheme.bucketLoad stats := Nat.mul_le_mul_right _ hbuckets
      _ = 8 * (scheme.bucketLoad stats * scheme.stride) := by
        rw [Nat.mul_assoc, Nat.mul_comm scheme.stride]
  show (stats.count + 8 - 1) / 8 * 1 ≤ scheme.bucketLoad stats * scheme.stride
  omega

theorem confirmCost_plain_le (hpos : 0 < stats.minLength) :
    (plain scheme.bits).confirmCost stats ≤ scheme.confirmCost stats := by
  have hflagged : (plain scheme.bits).flagged stats ≤ scheme.flagged stats := by
    simp only [flagged, Nat.shiftRight_eq_div_pow, Nat.shiftLeft_eq]
    refine Nat.le_trans (Nat.div_le_div_right (Nat.div_le_div_right (Nat.mul_le_mul_right _
      (occupancy_plain_le h hlong hpos)))) (Nat.div_le_div_left ?_ (Nat.two_pow_pos _))
    exact Nat.pow_le_pow_right (by decide) (windowShift_le_plain h hlong)
  simp only [confirmCost, Nat.shiftRight_eq_div_pow]
  exact Nat.div_le_div_right (Nat.mul_le_mul_right _ (Nat.mul_le_mul hflagged h.le_buckets))

/-- A stride that is longer than the shortest literal costs more than it saves. -/
theorem costOf_plain_lt (hpos : 0 < stats.minLength) :
    (plain scheme.bits).costOf stats < scheme.costOf stats := by
  have hconfirm := confirmCost_plain_le h hlong hpos
  have hmemory : (plain scheme.bits).memoryCost ≤ scheme.memoryCost :=
    Nat.div_le_div_right (tableSize_plain_le h)
  have hnone : (plain scheme.bits).stridePenalty stats = 0 := if_neg (Nat.not_lt.2 hpos)
  have hpenalty : scheme.stridePenalty stats = 1 <<< 30 := if_pos hlong
  rw [costOf, costOf, probeCost_plain, hnone, hpenalty]
  omega

end Strides

/-- It weighs less too, whether size comes first or cost. -/
theorem weights_plain_lt {scheme : Scheme} (h : scheme.IsKnown) {literals : List Literal}
    (hpos : 0 < (LiteralStats.of literals).minLength)
    (hlong : (LiteralStats.of literals).minLength < scheme.stride) (small : Bool) :
    weights literals small (plain scheme.bits) < weights literals small scheme := by
  have hcost : (plain scheme.bits).cost literals < scheme.cost literals :=
    costOf_plain_lt h hlong hpos
  have hsize := tableSize_plain_le h
  cases small <;>
    simp only [weights, Bool.false_eq_true, if_false, if_true, List.cons_lt_cons_iff] <;> omega

/-- The scheme that is chosen never strides over the shortest literal. -/
theorem stride_le_of_choose (target : Target) {literals : List Literal} (small : Bool)
    (hne : literals ≠ []) (hbytes : ∀ literal ∈ literals, literal.bytes ≠ []) :
    ∃ scheme, choose target literals small = .ok scheme
      ∧ ∀ literal ∈ literals, scheme.stride ≤ literal.length := by
  obtain ⟨scheme, hchoose, hbest⟩ := choose_isBest target small hne hbytes
  obtain ⟨shortest, hshortest, hlength⟩ := LiteralStats.exists_minLength hne
  have hpos : 0 < (LiteralStats.of literals).minLength := by
    rw [← hlength]
    exact List.length_pos_iff.2 (hbytes shortest hshortest)
  have hstride : scheme.stride ≤ (LiteralStats.of literals).minLength := by
    refine Nat.not_lt.1 fun hlong => ?_
    have hplain := isKnown_plain hbest.known.domain
    exact hbest.not_lt hplain (runsOn_plain _ target)
      (weights_plain_lt hbest.known hpos hlong small)
  exact ⟨scheme, hchoose, fun literal hliteral =>
    Nat.le_trans hstride (LiteralStats.minLength_le hliteral)⟩

/-- The longest stride goes to a literal of four bytes, and to none that is shorter. -/
theorem stride_le_of_choose_longest :
    let literals : List Literal := [{ id := .wrap 7, bytes := [97, 98, 99, 100] }]
    literals ≠ [] ∧ (∀ literal ∈ literals, literal.bytes ≠ [])
      ∧ ∃ scheme, choose .all literals true = .ok scheme ∧ scheme.stride = 4
        ∧ ∀ literal ∈ literals, scheme.stride ≤ literal.length := by
  intro literals
  have hne : literals ≠ [] := by decide
  have hbytes : ∀ literal ∈ literals, literal.bytes ≠ [] := by decide
  obtain ⟨scheme, hchoose, hstride⟩ := stride_le_of_choose .all true hne hbytes
  have hnarrow : choose .all literals true = .ok ⟨2, 32, 8, 4, .none, 3, 0, 9⟩ := by decide +kernel
  have hfour : scheme.stride = 4 := by
    cases hnarrow.symm.trans hchoose
    rfl
  exact ⟨hne, hbytes, scheme, hchoose, hfour, hstride⟩

end Scheme

end Multimatch
