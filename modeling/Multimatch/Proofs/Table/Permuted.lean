import Mathlib.Data.List.Nodup
import Multimatch.Proofs.Table.Built

/-!
# The order of the literals

A table does not depend on the order in which its literals are given (`LiteralTable.build_perm`), if
no two of them have both the same identifier and the same length (`Literal.Distinct`). Each part of
the table is made from the literals in an order of its own, by length and identifier for the buckets
and by identifier and length for the flood records, and distinct literals have only one such order
(`Literal.Distinct.mergeSort_eq`). Everything else depends on the number of the literals and on
their least and greatest length alone, the choice of a scheme included.
-/

namespace Multimatch

/-! ## Orders -/

/-- Lists of the same elements are sorted to the same list by two keys, if no two different elements
have both keys in common. -/
theorem mergeSort_eq_of_perm {α : Type} (first second : α → Nat) {xs ys : List α}
    (hperm : xs.Perm ys)
    (hkeys : ∀ a ∈ xs, ∀ b ∈ xs, first a = first b → second a = second b → a = b) :
    (xs.mergeSort fun a b => first a < first b || (first a == first b && second a ≤ second b))
      = ys.mergeSort fun a b =>
        first a < first b || (first a == first b && second a ≤ second b) := by
  have hsorted (zs : List α) := @List.pairwise_mergeSort α
    (fun a b => first a < first b || (first a == first b && second a ≤ second b))
    (fun a b c => by
      simp only [Bool.or_eq_true, Bool.and_eq_true, decide_eq_true_eq, beq_iff_eq]
      omega)
    (fun a b => by
      simp only [Bool.or_eq_true, Bool.and_eq_true, decide_eq_true_eq, beq_iff_eq]
      omega) zs
  refine List.Perm.eq_of_pairwise (fun a b ha hb hab hba => ?_) (hsorted xs) (hsorted ys)
    (((List.mergeSort_perm xs _).trans hperm).trans (List.mergeSort_perm ys _).symm)
  simp only [Bool.or_eq_true, Bool.and_eq_true, decide_eq_true_eq, beq_iff_eq] at hab hba
  exact hkeys a (List.mem_mergeSort.1 ha) b (hperm.mem_iff.2 (List.mem_mergeSort.1 hb))
    (by omega) (by omega)

theorem max?_eq_of_perm {xs ys : List Nat} (hperm : xs.Perm ys) : xs.max? = ys.max? :=
  Option.ext fun _ => by simp only [List.max?_eq_some_iff, hperm.mem_iff]

theorem min?_eq_of_perm {xs ys : List Nat} (hperm : xs.Perm ys) : xs.min? = ys.min? :=
  Option.ext fun _ => by simp only [List.min?_eq_some_iff, hperm.mem_iff]

namespace Literal

/-- No two of the literals have both the same identifier and the same length. -/
def Distinct (literals : List Literal) : Prop :=
  (literals.map fun literal => (literal.id, literal.length)).Nodup

instance (literals : List Literal) : Decidable (Distinct literals) :=
  inferInstanceAs (Decidable (List.Nodup _))

theorem Distinct.eq {literals : List Literal} (h : Distinct literals) {a b : Literal}
    (ha : a ∈ literals) (hb : b ∈ literals) (hid : a.id.toNat = b.id.toNat)
    (hlength : a.length = b.length) : a = b :=
  List.inj_on_of_nodup_map h ha hb (Prod.ext (Ident.toNat_inj hid) hlength)

end Literal

/-! ## Parts of a table -/

section Permuted

variable {literals literals' : List Literal} (hperm : literals.Perm literals')
include hperm

theorem Literal.maxLength_perm : maxLength literals = maxLength literals' := by
  rw [maxLength, maxLength, max?_eq_of_perm (hperm.map length)]

theorem LiteralStats.of_perm : of literals = of literals' := by
  rw [of, of, hperm.length_eq, min?_eq_of_perm (hperm.map Literal.length)]

theorem FloodIndex.suffixFor_perm (scheme : Scheme) :
    suffixFor scheme literals = suffixFor scheme literals' := by
  rw [suffixFor, suffixFor, Literal.maxLength_perm hperm]

section Distinct

variable (hdistinct : Literal.Distinct literals)
include hdistinct

theorem Buckets.sorted_perm : sorted literals = sorted literals' :=
  mergeSort_eq_of_perm Literal.length (·.id.toNat) hperm fun _ ha _ hb hlength hid =>
    hdistinct.eq ha hb hid hlength

theorem FloodIndex.sorted_perm : sorted literals = sorted literals' :=
  mergeSort_eq_of_perm (fun literal : Literal => literal.id.toNat) Literal.length hperm
    fun _ ha _ hb => hdistinct.eq ha hb

theorem Buckets.assign_perm (scheme : Scheme) :
    assign scheme literals = assign scheme literals' := by
  rw [assign, assign, load, load, Buckets.sorted_perm hperm hdistinct, hperm.length_eq]

theorem FloodIndex.of_perm (scheme : Scheme) : of scheme literals = of scheme literals' := by
  rw [of, of, FloodIndex.sorted_perm hperm hdistinct, FloodIndex.suffixFor_perm hperm]

theorem Contents.ofLiterals_perm (scheme : Scheme) :
    ofLiterals scheme literals = ofLiterals scheme literals' := by
  rw [ofLiterals, ofLiterals, ofBuckets, ofBuckets, Buckets.assign_perm hperm hdistinct,
    FloodIndex.of_perm hperm hdistinct, Literal.maxLength_perm hperm]

end Distinct

end Permuted

/-! ## Building -/

section Building

variable {literals literals' : List Literal} (hperm : literals.Perm literals')
  (hbytes : ∀ literal ∈ literals, literal.bytes ≠ [])
include hperm hbytes

/-- Permutations of literals with bytes are accepted or refused alike. -/
theorem find?_isEmpty_perm :
    literals.find? Literal.isEmpty = none ∧ literals'.find? Literal.isEmpty = none := by
  have hnone (literal : Literal) (hliteral : literal ∈ literals) : ¬ literal.isEmpty = true := by
    simpa [Literal.isEmpty] using hbytes literal hliteral
  exact ⟨List.find?_eq_none.2 hnone,
    List.find?_eq_none.2 fun literal hliteral => hnone literal (hperm.mem_iff.2 hliteral)⟩

theorem Scheme.choose_perm (target : Target) (small : Bool) :
    choose target literals small = choose target literals' small := by
  obtain ⟨hfind, hfind'⟩ := find?_isEmpty_perm hperm hbytes
  simp only [choose, hfind, hfind', hperm.isEmpty_eq, LiteralStats.of_perm hperm]

theorem Options.schemeFor_perm (options : Options) :
    options.schemeFor literals = options.schemeFor literals' := by
  obtain ⟨hfind, hfind'⟩ := find?_isEmpty_perm hperm hbytes
  simp only [schemeFor, baseScheme, hfind, hfind', hperm.isEmpty_eq,
    Scheme.choose_perm hperm hbytes]

namespace LiteralTable

/-- Building ends with the same error or with the same table, arena and all, however the literals
are permuted. -/
theorem build_perm (hdistinct : Literal.Distinct literals) (options : Options) :
    build options literals = build options literals' := by
  have hfor := Options.schemeFor_perm hperm hbytes options
  cases hscheme : options.schemeFor literals with
  | error error => simp only [build, ← hfor, hscheme, bind, Except.bind]
  | ok scheme =>
    rw [build_eq_of_schemeFor hscheme, build_eq_of_schemeFor (hfor.symm.trans hscheme),
      Contents.ofLiterals_perm hperm hdistinct]

omit hperm hbytes

/-- Two of the literals have one identifier, and two of them have one length. -/
theorem build_perm_shared_id :
    let options : Options := { target? := some .all, domain? := some (some 9) }
    let short : Literal := { id := .wrap 7, bytes := [97] }
    let long : Literal := { id := .wrap 7, bytes := [97, 98] }
    let other : Literal := { id := .wrap 9, bytes := [66, 65], nocase := true }
    [short, long, other].Perm [other, short, long]
      ∧ (∀ literal ∈ [short, long, other], literal.bytes ≠ [])
      ∧ Literal.Distinct [short, long, other]
      ∧ ∃ table, build options [short, long, other] = .ok table
        ∧ build options [other, short, long] = .ok table := by
  intro options short long other
  have hperm : [short, long, other].Perm [other, short, long] := by decide
  have hbytes : ∀ literal ∈ [short, long, other], literal.bytes ≠ [] := by decide
  have hdistinct : Literal.Distinct [short, long, other] := by decide
  have hfor : options.schemeFor [short, long, other] = .ok ⟨0, 32, 8, 1, .none, 0, 0, 9⟩ := by
    decide +kernel
  have hbuckets : Buckets.sorted [short, long, other] = [short, long, other] :=
    List.mergeSort_of_pairwise (by decide)
  have hflood : FloodIndex.sorted [short, long, other] = [short, long, other] :=
    List.mergeSort_of_pairwise (by decide)
  have hsize : (Contents.ofLiterals ⟨0, 32, 8, 1, .none, 0, 0, 9⟩
      [short, long, other]).bodyLength ≤ maxSize := by
    rw [Contents.ofLiterals, Contents.ofBuckets, Buckets.assign, hbuckets, FloodIndex.of, hflood]
    decide +kernel
  have hbuild := build_of_schemeFor hfor hsize
  exact ⟨hperm, hbytes, hdistinct, _, hbuild,
    (build_perm hperm hbytes hdistinct options).symm.trans hbuild⟩

end LiteralTable

end Building

end Multimatch
