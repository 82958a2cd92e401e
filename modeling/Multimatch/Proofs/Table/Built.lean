import Mathlib.Data.List.Forall2
import Multimatch.Proofs.Table.Layout
import Multimatch.Proofs.Table.PrimaryBits
import Multimatch.Proofs.Table.Written
import Multimatch.Table.Build

/-!
# The contents of a built table

Where the literals go: the buckets are the sorted literals cut into runs (`Buckets.flatten_assign`),
every literal is in the confirm list of its bucket and its last byte
(`ConfirmLists.getElem?_listFor`), and a byte has the flood record of the literals that are runs of
it (`FloodIndex.lookup?_of`). Contents made of literals fit a table that is small enough
(`Contents.fits_ofLiterals`).
-/

namespace Multimatch

/-! ## Lists of parts -/

section Parts

variable {α β : Type}

theorem length_flatMap_of_length {xs : List α} {f : α → List β} {n : Nat}
    (h : ∀ x ∈ xs, (f x).length = n) : (xs.flatMap f).length = xs.length * n := by
  induction xs with
  | nil => simp
  | cons x xs ih =>
    rw [List.flatMap_cons, List.length_append, h x List.mem_cons_self,
      ih fun y hy => h y (List.mem_cons_of_mem _ hy), List.length_cons, Nat.succ_mul, Nat.add_comm]

theorem getElem?_flatMap_of_length {xs : List α} {f : α → List β} {n : Nat}
    (h : ∀ x ∈ xs, (f x).length = n) {i j : Nat} (hj : j < n) :
    (xs.flatMap f)[i * n + j]? = xs[i]?.bind fun x => (f x)[j]? := by
  induction xs generalizing i with
  | nil => simp
  | cons x xs ih =>
    have hx := h x List.mem_cons_self
    rw [List.flatMap_cons]
    cases i with
    | zero => rw [Nat.zero_mul, Nat.zero_add, List.getElem?_append_left (by omega)]; rfl
    | succ i =>
      rw [Nat.succ_mul, List.getElem?_append_right (by omega), hx,
        show i * n + n + j - n = i * n + j by omega,
        ih fun y hy => h y (List.mem_cons_of_mem _ hy)]
      rfl

/-- Cutting a list into `count` runs of one length leaves nothing out up to their end. -/
theorem flatten_runs (xs : List α) (size count : Nat) :
    ((List.range count).map fun i => (xs.drop (i * size)).take size).flatten
      = xs.take (count * size) := by
  induction count with
  | zero => simp
  | succ count ih =>
    rw [List.range_succ, List.map_append, List.flatten_append, ih, Nat.succ_mul, List.take_add]
    simp

/-- One more element goes to the end of the run that its position falls into. -/
theorem runs_concat (xs : List α) (x : α) {size count : Nat} (hsize : 0 < size) :
    ((List.range count).map fun i => ((xs ++ [x]).drop (i * size)).take size)
      = ((List.range count).map fun i => (xs.drop (i * size)).take size).set (xs.length / size)
          ((xs.drop (xs.length / size * size)).take size ++ [x]) := by
  have hle : xs.length / size * size ≤ xs.length := Nat.div_mul_le_self ..
  have hlt : xs.length < xs.length / size * size + size := Nat.lt_div_mul_add hsize
  apply List.ext_getElem (by simp)
  intro i _ _
  simp only [List.getElem_map, List.getElem_range, List.getElem_set]
  split
  · next heq =>
    subst heq
    have hfew : (xs.drop (xs.length / size * size)).length < size := by
      rw [List.length_drop]
      omega
    rw [List.drop_append_of_le_length hle, List.take_of_length_le (Nat.le_of_lt hfew),
      List.take_of_length_le (by rw [List.length_append]; exact hfew)]
  · next hne =>
    rcases Nat.lt_or_gt_of_ne hne with hbehind | hbefore
    · have hmul := Nat.mul_le_mul_right size hbehind
      rw [Nat.succ_mul] at hmul
      rw [List.drop_of_length_le (by rw [List.length_append, List.length_singleton]; omega),
        List.drop_of_length_le (by omega)]
    · have hmul := Nat.mul_le_mul_right size hbefore
      rw [Nat.succ_mul] at hmul
      rw [List.drop_append_of_le_length (by omega),
        List.take_append_of_le_length (by rw [List.length_drop]; omega)]

end Parts

/-! ## Buckets -/

namespace Buckets

theorem length_assign (scheme : Scheme) (literals : List Literal) :
    (assign scheme literals).length = scheme.buckets := by
  simp [assign]

theorem le_load (scheme : Scheme) (literals : List Literal) (hpos : 0 < scheme.buckets) :
    literals.length ≤ scheme.buckets * load scheme literals :=
  Scheme.count_le_load hpos (.of literals)

/-- One after the other, the buckets are the sorted literals. -/
theorem flatten_assign (scheme : Scheme) (literals : List Literal) (hpos : 0 < scheme.buckets) :
    (assign scheme literals).flatten = sorted literals := by
  rw [assign, flatten_runs]
  apply List.take_of_length_le
  rw [sorted, List.length_mergeSort]
  exact le_load scheme literals hpos

/-- The literals dealt out so far, as runs. -/
def dealt (scheme : Scheme) (size : Nat) (prior : List Literal) : List (List Literal) :=
  (List.range scheme.buckets).map fun bucket => (prior.drop (bucket * size)).take size

theorem dealOne_dealt {scheme : Scheme} {size : Nat} {prior : List Literal} (hsize : 0 < size)
    (hroom : prior.length < scheme.buckets * size) (literal : Literal) :
    dealOne size (dealt scheme size prior) (literal, prior.length)
      = .ok (dealt scheme size (prior ++ [literal])) := by
  have hbucket : prior.length / size < scheme.buckets :=
    Nat.div_lt_of_lt_mul (by rwa [Nat.mul_comm])
  have hin : prior.length / size < (dealt scheme size prior).length := by
    simpa [dealt] using hbucket
  have hmembers : (dealt scheme size prior)[prior.length / size]
      = (prior.drop (prior.length / size * size)).take size := by simp [dealt]
  simp only [dealOne, elementAt_eq_ok hin, replaceAt, hin, if_true, bind, Except.bind, hmembers]
  rw [dealt, dealt, runs_concat prior literal hsize]

/-- By induction on what is still to be dealt out, while `prior` grows towards all the literals. -/
theorem deal_dealt {scheme : Scheme} {size : Nat} (hsize : 0 < size) (rest : List Literal) :
    ∀ prior : List Literal, (prior ++ rest).length ≤ scheme.buckets * size →
      (rest.zipIdx prior.length).foldlM (dealOne size) (dealt scheme size prior)
        = .ok (dealt scheme size (prior ++ rest)) := by
  induction rest with
  | nil => exact fun prior _ => by rw [List.append_nil]; rfl
  | cons literal rest ih =>
    intro prior hroom
    have hone : prior.length < scheme.buckets * size := by
      rw [List.length_append, List.length_cons] at hroom
      omega
    have hrest := ih (prior ++ [literal]) (by rwa [List.append_assoc])
    rw [List.length_append, List.length_singleton, List.append_assoc] at hrest
    rw [List.zipIdx_cons, List.foldlM_cons, dealOne_dealt hsize hone]
    exact hrest

/-- Every literal finds its bucket, and in the end the buckets are runs of the sorted literals. -/
theorem deal_eq (scheme : Scheme) (literals : List Literal) (hpos : 0 < scheme.buckets) :
    deal scheme literals = .ok (assign scheme literals) := by
  have hroom : (sorted literals).length ≤ scheme.buckets * load scheme literals := by
    rw [sorted, List.length_mergeSort]
    exact le_load scheme literals hpos
  have hnone : List.replicate scheme.buckets [] = dealt scheme (load scheme literals) [] := by
    simp [dealt]
  rcases Nat.eq_zero_or_pos (load scheme literals) with hzero | hload
  · rw [hzero, Nat.mul_zero, Nat.le_zero, List.length_eq_zero_iff] at hroom
    rw [deal, assign, hroom, hnone, dealt]
    rfl
  · rw [deal, hnone]
    exact deal_dealt hload (sorted literals) [] hroom

theorem mem_assign {scheme : Scheme} {literals : List Literal} (hpos : 0 < scheme.buckets)
    {literal : Literal} :
    (∃ bucket ∈ assign scheme literals, literal ∈ bucket) ↔ literal ∈ literals := by
  rw [← List.mem_flatten, flatten_assign scheme literals hpos, sorted, List.mem_mergeSort]

end Buckets

/-! ## Confirm lists -/

namespace ConfirmEntry

theorem quickWord_lt {bytes : List UInt8} (hlen : bytes.length ≤ 8) :
    quickWord bytes < 1 <<< 64 := by
  have h := Endian.ofLittleBytes_lt (List.replicate (8 - bytes.length) 0 ++ bytes)
  rwa [List.length_append, List.length_replicate, Nat.sub_add_cancel hlen] at h

theorem length_quickTail (literal : Literal) (quickLength : Nat) :
    (quickTail literal quickLength).length = min literal.length quickLength := by
  rw [quickTail, List.length_drop]
  simp only [Literal.length]
  omega

theorem fits_of {literal : Literal} {quickLength : Nat} (hbytes : literal.bytes ≠ [])
    (hquick : quickLength ≤ 8) : (ConfirmEntry.of literal quickLength).Fits := by
  have htail := length_quickTail literal quickLength
  refine ⟨?_, quickWord_lt ?_, quickWord_lt ?_⟩
  · simpa [ConfirmEntry.of] using hbytes
  · rw [List.length_map]
    omega
  · rw [List.length_map]
    omega

end ConfirmEntry

theorem Scheme.quickLength_le (scheme : Scheme) : scheme.quickLength ≤ 8 := Nat.sub_le ..

namespace ConfirmLists

variable {scheme : Scheme} {buckets : List (List Literal)}

/-- The entries of one part of a bucket, by identifier. -/
def partEntries (scheme : Scheme) (literals : List Literal) (part : Nat) : List ConfirmEntry :=
  ((partOf scheme literals part).map (ConfirmEntry.of · scheme.quickLength)).mergeSort
    fun a b => a.id.toNat ≤ b.id.toNat

theorem of_eq (scheme : Scheme) (buckets : List (List Literal)) :
    ConfirmLists.of scheme buckets = buckets.flatMap fun literals =>
      (List.range scheme.listsPerBucket).map (partEntries scheme literals) := rfl

theorem length_of (scheme : Scheme) (buckets : List (List Literal)) :
    (ConfirmLists.of scheme buckets).length = buckets.length * scheme.listsPerBucket := by
  rw [of_eq]
  exact length_flatMap_of_length fun _ _ => by simp

theorem mem_partEntries {literals : List Literal} {part : Nat} {entry : ConfirmEntry} :
    entry ∈ partEntries scheme literals part ↔ ∃ literal ∈ literals,
      (∃ last, literal.bytes.getLast? = some last ∧ scheme.splitIndex last = part)
        ∧ entry = ConfirmEntry.of literal scheme.quickLength := by
  simp only [partEntries, List.mem_mergeSort, List.mem_map, partOf, List.mem_filter,
    Option.any_eq_true, beq_iff_eq, and_assoc, eq_comm (a := entry)]

/-- The list for a bucket and a last byte has the literals of the bucket that may end so. -/
theorem getElem?_listFor {bucket : Nat} (hbucket : bucket < buckets.length) (last : UInt8) :
    (ConfirmLists.of scheme buckets)[scheme.listFor bucket last]?
      = some (partEntries scheme buckets[bucket] (scheme.splitIndex last)) := by
  have hsplit := scheme.splitIndex_lt last
  rw [of_eq, Scheme.listFor, getElem?_flatMap_of_length (fun _ _ => by simp) hsplit,
    List.getElem?_eq_getElem hbucket]
  simp [hsplit]

theorem exists_literal {list : List ConfirmEntry} (hlist : list ∈ ConfirmLists.of scheme buckets)
    {entry : ConfirmEntry} (hentry : entry ∈ list) : ∃ bucket ∈ buckets, ∃ literal ∈ bucket,
      entry = ConfirmEntry.of literal scheme.quickLength := by
  simp only [of_eq, List.mem_flatMap, List.mem_map] at hlist
  obtain ⟨bucket, hbucket, part, -, rfl⟩ := hlist
  obtain ⟨literal, hliteral, -, rfl⟩ := mem_partEntries.1 hentry
  exact ⟨bucket, hbucket, literal, hliteral, rfl⟩

theorem exists_entry {bucket : List Literal} (hbucket : bucket ∈ buckets) {literal : Literal}
    (hliteral : literal ∈ bucket) (hbytes : literal.bytes ≠ []) :
    ∃ list ∈ ConfirmLists.of scheme buckets,
      ConfirmEntry.of literal scheme.quickLength ∈ list := by
  obtain ⟨i, hi, rfl⟩ := List.getElem_of_mem hbucket
  have hlast := List.getLast?_eq_some_getLast hbytes
  have hget := @getElem?_listFor scheme buckets i hi (literal.bytes.getLast hbytes)
  exact ⟨_, List.mem_of_getElem? hget, mem_partEntries.2 ⟨literal, hliteral, ⟨_, hlast, rfl⟩, rfl⟩⟩

/-- A literal takes its part of the strings. -/
theorem size_le_strings {lists : ConfirmLists} {list : List ConfirmEntry} (hlist : list ∈ lists)
    {entry : ConfirmEntry} (hentry : entry ∈ list) :
    entry.bytes.size ≤ (strings lists).length := by
  obtain ⟨before, after, hsplit⟩ := List.append_of_mem (List.mem_flatten.2 ⟨list, hlist, hentry⟩)
  simp only [strings, hsplit, List.flatMap_append, List.flatMap_cons, List.length_append,
    Array.length_toList]
  omega

end ConfirmLists

/-! ## Flood records -/

namespace FloodIndex

/-- The number answers what a byte asked for: zero if nothing, and else that of the record. -/
def Answers (records : List FloodRecord) : Option FloodRecord → Nat → Prop
  | none, number => number = 0
  | some record, number => number ≠ 0 ∧ records[number]? = some record

theorem Answers.append {records : List FloodRecord} (more : List FloodRecord) :
    ∀ (record? : Option FloodRecord) (number : Nat), Answers records record? number →
      Answers (records ++ more) record? number
  | none, _, h => h
  | some _, _, ⟨hne, hget⟩ =>
    ⟨hne, by rw [List.getElem?_append_left (List.getElem?_eq_some_iff.1 hget).1, hget]⟩

/-- The index answers what the bytes so far asked for, and every record but the empty one was asked
for. -/
structure Serves (flood : FloodIndex) (asked : List (Option FloodRecord)) : Prop where
  first : flood.records[0]? = some (FloodRecord.empty 0)
  index : List.Forall₂ (Answers flood.records) asked flood.index
  records : ∀ record ∈ flood.records, record = FloodRecord.empty 0 ∨ some record ∈ asked

theorem serves_nil : Serves ⟨[], [FloodRecord.empty 0]⟩ [] :=
  ⟨rfl, .nil, fun _ h => .inl (List.mem_singleton.1 h)⟩

/-- A record that is there already lies behind the empty one, so that its number is not zero. -/
theorem Serves.add {flood : FloodIndex} {asked : List (Option FloodRecord)}
    (h : flood.Serves asked) (record? : Option FloodRecord)
    (hused : ∀ record, record? = some record → record.entries ≠ []) :
    (flood.add record?).Serves (asked ++ [record?]) := by
  have hmem (record : FloodRecord) (hrecord : record ∈ flood.records) :
      record = FloodRecord.empty 0 ∨ some record ∈ asked ++ [record?] :=
    (h.records record hrecord).imp_right (List.mem_append_left _)
  have hfirst := List.getElem?_eq_some_iff.1 h.first
  unfold FloodIndex.add
  cases record? with
  | none => exact ⟨h.first, List.rel_append h.index (.cons rfl .nil), hmem⟩
  | some new =>
    dsimp only
    split
    · next place hplace =>
      obtain ⟨hlt, hfound, -⟩ := List.findIdx?_eq_some_iff_getElem.1 hplace
      have heq : flood.records[place] = new := by simpa using hfound
      have hne : place ≠ 0 := by
        rintro rfl
        exact hused new rfl (by rw [← heq, hfirst.2]; rfl)
      have hanswer : Answers flood.records (some new) place :=
        ⟨hne, by rw [List.getElem?_eq_getElem hlt, heq]⟩
      exact ⟨h.first, List.rel_append h.index (.cons hanswer .nil), hmem⟩
    · have hanswer : Answers (flood.records ++ [new]) (some new) flood.records.length :=
        ⟨Nat.ne_of_gt hfirst.1, by simp⟩
      refine ⟨?_, List.rel_append (h.index.imp (Answers.append [new])) (.cons hanswer .nil), ?_⟩
      · dsimp only
        rw [List.getElem?_append_left hfirst.1, h.first]
      · intro record hr
        rcases List.mem_append.1 hr with hr | hr
        · exact hmem record hr
        · exact .inr (by simp [List.mem_singleton.1 hr])

theorem serves_foldl {asked done : List (Option FloodRecord)} {flood : FloodIndex}
    (h : flood.Serves done) (hused : ∀ record, some record ∈ asked → record.entries ≠ []) :
    (asked.foldl FloodIndex.add flood).Serves (done ++ asked) := by
  induction asked generalizing flood done with
  | nil => simpa using h
  | cons record? asked ih =>
    have hnext := h.add record? fun record hr => hused record (by rw [hr]; exact List.mem_cons_self)
    simpa using ih hnext fun record hr => hused record (List.mem_cons_of_mem _ hr)

theorem Serves.lookup? {flood : FloodIndex} {asked : List (Option FloodRecord)}
    (h : flood.Serves asked) (hused : ∀ record, some record ∈ asked → record.entries ≠ [])
    {byte : UInt8} (hbyte : byte.toNat < asked.length) :
    flood.lookup? byte = asked[byte.toNat] := by
  have hlen : byte.toNat < flood.index.length := by rwa [← h.index.length_eq]
  have hanswer := h.index.get hbyte hlen
  simp only [List.get_eq_getElem] at hanswer
  rw [FloodIndex.lookup?, List.getElem?_eq_getElem hlen]
  have hmem := List.getElem_mem hbyte
  cases hasked : asked[byte.toNat] with
  | none =>
    rw [hasked] at hanswer
    rw [show flood.index[byte.toNat] = 0 from hanswer]
  | some record =>
    rw [hasked] at hanswer hmem
    obtain ⟨hne, hget⟩ := hanswer
    obtain ⟨number, hnumber⟩ := Nat.exists_eq_succ_of_ne_zero hne
    rw [hnumber] at hget ⊢
    dsimp only
    rw [hget, Option.filter_some, if_pos (by simpa using hused record hmem)]

/-- What each byte asks for. -/
def asked (scheme : Scheme) (literals : List Literal) : List (Option FloodRecord) :=
  (List.range 256).map fun byte =>
    recordFor? (suffixFor scheme literals) (sorted literals) (UInt8.ofNat byte)

theorem recordFor?_eq_some {suffix : Nat} {literals : List Literal} {byte : UInt8}
    {record : FloodRecord} : recordFor? suffix literals byte = some record ↔
      (literals.filter (·.isRunOf byte) ≠ [] ∧
        (literals.filter (·.isRunOf byte)).length ≤ FloodRecord.maxEntries) ∧
      record = recordOf suffix (literals.filter (·.isRunOf byte)) := by
  simp only [recordFor?, Bool.or_eq_true, List.isEmpty_iff, decide_eq_true_eq]
  split
  · next h =>
    refine ⟨fun hc => (nomatch hc), fun ⟨⟨hne, hle⟩, _⟩ => ?_⟩
    rcases h with h | h
    · exact absurd h hne
    · exact absurd hle (Nat.not_le.2 h)
  · next h =>
    simp only [not_or, Nat.not_lt] at h
    simp only [Option.some.injEq, h, not_false_eq_true, ne_eq, true_and, and_self, eq_comm]

theorem mem_asked {scheme : Scheme} {literals : List Literal} {record : FloodRecord}
    (h : some record ∈ asked scheme literals) : ∃ byte,
      recordFor? (suffixFor scheme literals) (sorted literals) byte = some record := by
  simp only [asked, List.mem_map] at h
  obtain ⟨byte, -, h⟩ := h
  exact ⟨_, h⟩

theorem asked_used {scheme : Scheme} {literals : List Literal} (record : FloodRecord)
    (h : some record ∈ asked scheme literals) : record.entries ≠ [] := by
  obtain ⟨byte, hbyte⟩ := mem_asked h
  obtain ⟨⟨hne, -⟩, rfl⟩ := recordFor?_eq_some.1 hbyte
  simpa [recordOf] using hne

theorem serves_of (scheme : Scheme) (literals : List Literal) :
    (FloodIndex.of scheme literals).Serves (asked scheme literals) := by
  have h := serves_foldl serves_nil (@asked_used scheme literals)
  rw [List.nil_append, asked, List.foldl_map] at h
  exact h

/-- A byte has the record of the literals that are runs of it. -/
theorem lookup?_of (scheme : Scheme) (literals : List Literal) (byte : UInt8) :
    (FloodIndex.of scheme literals).lookup? byte
      = recordFor? (suffixFor scheme literals) (sorted literals) byte := by
  have hbyte : byte.toNat < (asked scheme literals).length := by
    simpa [asked] using byte.toNat_lt
  rw [(serves_of scheme literals).lookup? asked_used hbyte]
  simp [asked]

theorem fits_of {scheme : Scheme} {literals : List Literal}
    (hlengths : ∀ literal ∈ literals, literal.length < 1 <<< 32)
    (hsuffix : suffixFor scheme literals < 1 <<< 32) : (FloodIndex.of scheme literals).Fits := by
  have h := serves_of scheme literals
  refine ⟨?_, ?_, fun record hrecord => ?_, _, h.first, rfl⟩
  · rw [← h.index.length_eq]
    simp [asked]
  · intro number hnumber
    obtain ⟨i, hi, rfl⟩ := List.getElem_of_mem hnumber
    have hasked : i < (asked scheme literals).length := by rwa [h.index.length_eq]
    have hanswer := h.index.get hasked hi
    simp only [List.get_eq_getElem] at hanswer
    have hpos := (List.getElem?_eq_some_iff.1 h.first).1
    cases hrecord : (asked scheme literals)[i] with
    | none =>
      rw [hrecord] at hanswer
      rwa [show (FloodIndex.of scheme literals).index[i] = 0 from hanswer]
    | some record =>
      rw [hrecord] at hanswer
      exact (List.getElem?_eq_some_iff.1 hanswer.2).1
  · rcases h.records record hrecord with rfl | hasked
    · exact FloodRecord.fits_empty (by decide)
    · obtain ⟨byte, hbyte⟩ := mem_asked hasked
      obtain ⟨⟨-, hle⟩, rfl⟩ := recordFor?_eq_some.1 hbyte
      have hmem (literal : Literal)
          (hl : literal ∈ (sorted literals).filter (·.isRunOf byte)) : literal ∈ literals :=
        List.mem_mergeSort.1 (List.mem_filter.1 hl).1
      refine ⟨by rwa [recordOf, List.length_map], hsuffix, fun entry hentry => ?_⟩
      obtain ⟨literal, hliteral, rfl⟩ := List.mem_map.1 hentry
      exact hlengths literal (hmem literal hliteral)

/-- The records list identifiers of the literals. -/
theorem idsValid_of {scheme : Scheme} {literals : List Literal}
    (hids : ∀ literal ∈ literals, literal.id.IsValid) {record : FloodRecord}
    (hrecord : record ∈ (FloodIndex.of scheme literals).records) : record.IdsValid := by
  intro entry hentry
  rcases (serves_of scheme literals).records record hrecord with rfl | hasked
  · cases hentry
  · obtain ⟨byte, hbyte⟩ := mem_asked hasked
    obtain ⟨-, rfl⟩ := recordFor?_eq_some.1 hbyte
    obtain ⟨literal, hliteral, rfl⟩ := List.mem_map.1 hentry
    exact hids literal (List.mem_mergeSort.1 (List.mem_filter.1 hliteral).1)

end FloodIndex

/-! ## Contents -/

namespace Literal

theorem le_maxLength {literals : List Literal} {literal : Literal} (h : literal ∈ literals) :
    literal.length ≤ maxLength literals := by
  have hmem : literal.length ∈ literals.map length := List.mem_map_of_mem h
  cases hmax : (literals.map length).max? with
  | none => rw [List.max?_eq_none_iff.1 hmax] at hmem; cases hmem
  | some longest =>
    rw [maxLength, hmax]
    exact (List.max?_eq_some_iff.1 hmax).2 _ hmem

theorem exists_maxLength {literals : List Literal} (h : literals ≠ []) :
    ∃ literal ∈ literals, literal.length = maxLength literals := by
  cases hmax : (literals.map length).max? with
  | none => exact absurd (List.map_eq_nil_iff.1 (List.max?_eq_none_iff.1 hmax)) h
  | some longest =>
    rw [maxLength, hmax]
    exact List.mem_map.1 (List.max?_eq_some_iff.1 hmax).1

end Literal

namespace Contents

variable {scheme : Scheme} {literals : List Literal}

theorem flood_ofLiterals (scheme : Scheme) (literals : List Literal) :
    (ofLiterals scheme literals).flood = FloodIndex.of scheme literals := by
  rw [ofLiterals, ofBuckets]

/-- Every literal takes its part of the table. -/
theorem length_le_bodyLength (hscheme : scheme.IsKnown) {literal : Literal}
    (hliteral : literal ∈ literals) (hbytes : literal.bytes ≠ []) :
    literal.length ≤ (ofLiterals scheme literals).bodyLength := by
  obtain ⟨bucket, hbucket, hin⟩ := (Buckets.mem_assign hscheme.buckets_pos).2 hliteral
  obtain ⟨list, hlist, hentry⟩ := @ConfirmLists.exists_entry scheme _ _ hbucket _ hin hbytes
  have hle := ConfirmLists.size_le_strings hlist hentry
  have hsize : (ConfirmEntry.of literal scheme.quickLength).bytes.size = literal.length := rfl
  simp only [bodyLength, floodOffset, ConfirmLists.encodedLength, ConfirmLists.bareLength,
    ofLiterals, ofBuckets]
  omega

theorem fits_ofLiterals (hscheme : scheme.IsKnown) (hne : literals ≠ [])
    (hbytes : ∀ literal ∈ literals, literal.bytes ≠ [])
    (hsize : (ofLiterals scheme literals).bodyLength < offsetLimit) :
    (ofLiterals scheme literals).Fits := by
  have hlengths (literal : Literal) (h : literal ∈ literals) : literal.length < 1 <<< 32 :=
    Nat.lt_of_le_of_lt (length_le_bodyLength hscheme h (hbytes literal h)) hsize
  obtain ⟨longest, hlongest, hmax⟩ := Literal.exists_maxLength hne
  have hmaxLength : Literal.maxLength literals < 1 <<< 32 := hmax ▸ hlengths longest hlongest
  refine ⟨hscheme, ?_, hmaxLength, Primary.length_words _ _, fun _ => Primary.words_lt, ?_, ?_, ?_,
    hsize⟩
  · show Literal.maxLength literals ≠ 0
    rw [← hmax]
    exact fun h => hbytes longest hlongest (List.length_eq_zero_iff.1 h)
  · show (ConfirmLists.of scheme (Buckets.assign scheme literals)).length = _
    rw [ConfirmLists.length_of, Buckets.length_assign]
    exact scheme.buckets_shiftLeft.symm
  · intro list hlist entry hentry
    obtain ⟨bucket, hbucket, literal, hliteral, rfl⟩ := ConfirmLists.exists_literal hlist hentry
    have hmem := (Buckets.mem_assign hscheme.buckets_pos).1 ⟨bucket, hbucket, hliteral⟩
    exact ConfirmEntry.fits_of (hbytes literal hmem) scheme.quickLength_le
  · have hsuffix : FloodIndex.suffixFor scheme literals < 1 <<< 32 :=
      Nat.max_lt.2 ⟨Nat.lt_of_le_of_lt hscheme.floodSuffix_le (by decide), hmaxLength⟩
    rw [flood_ofLiterals]
    exact FloodIndex.fits_of hlengths hsuffix

theorem idsValid_ofLiterals (hscheme : scheme.IsKnown)
    (hids : ∀ literal ∈ literals, literal.id.IsValid) : (ofLiterals scheme literals).IdsValid := by
  refine ⟨fun list hlist entry hentry => ?_, fun record hrecord => ?_⟩
  · obtain ⟨bucket, hbucket, literal, hliteral, rfl⟩ := ConfirmLists.exists_literal hlist hentry
    exact hids literal ((Buckets.mem_assign hscheme.buckets_pos).1 ⟨bucket, hbucket, hliteral⟩)
  · rw [flood_ofLiterals] at hrecord
    exact FloodIndex.idsValid_of hids hrecord

end Contents

/-! ## Building -/

namespace Options

/-- What the options force exists. -/
structure Sound (options : Options) : Prop where
  scheme : ∀ id, options.forcedScheme? = some id → ∃ scheme, Scheme.find? id = some scheme
  domain : ∀ bits, options.forcedDomain? = some bits → Scheme.IsDomain bits

theorem baseScheme_eq_ok {options : Options}
    (hforces : ∀ id, options.forcedScheme? = some id → ∃ scheme, Scheme.find? id = some scheme)
    {literals : List Literal} (hne : literals ≠ [])
    (hbytes : ∀ literal ∈ literals, literal.bytes ≠ []) :
    ∃ scheme, options.baseScheme literals = .ok scheme ∧ scheme.IsKnown := by
  unfold baseScheme
  cases hforced : options.forcedScheme? with
  | none => exact Scheme.choose_eq_ok _ _ hne hbytes
  | some id =>
    obtain ⟨scheme, hfind⟩ := hforces id hforced
    exact ⟨scheme, by simp only [hfind],
      Scheme.isKnown_of_mem (List.mem_of_find?_eq_some hfind)⟩

theorem withForcedDomain_eq_ok {options : Options} (hoptions : options.Sound) {scheme : Scheme}
    (hscheme : scheme.IsKnown) :
    ∃ scheme', options.withForcedDomain scheme = .ok scheme' ∧ scheme'.IsKnown := by
  unfold withForcedDomain
  cases hforced : options.forcedDomain? with
  | none => exact ⟨scheme, rfl, hscheme⟩
  | some bits =>
    have hbits := hoptions.domain bits hforced
    obtain ⟨base, hbase, heq⟩ := hscheme.base
    exact ⟨{ scheme with bits }, if_pos hbits, ⟨base, hbase, by rw [heq]⟩, hbits⟩

/-- A scheme is found for literals with at least one byte each. -/
theorem schemeFor_eq_ok {options : Options} (hoptions : options.Sound) {literals : List Literal}
    (hne : literals ≠ []) (hbytes : ∀ literal ∈ literals, literal.bytes ≠ []) :
    ∃ scheme, options.schemeFor literals = .ok scheme ∧ scheme.IsKnown := by
  obtain ⟨base, hbase, hknown⟩ := baseScheme_eq_ok hoptions.scheme hne hbytes
  obtain ⟨scheme, hscheme, hknown⟩ := withForcedDomain_eq_ok hoptions hknown
  have hempty : literals.find? Literal.isEmpty = none :=
    List.find?_eq_none.2 fun literal h => by simpa [Literal.isEmpty] using hbytes literal h
  have hnil : literals.isEmpty = false := by simpa using hne
  refine ⟨scheme, ?_, hknown⟩
  simp [schemeFor, hnil, hempty, hbase, hscheme, bind, Except.bind]

/-- Whenever a scheme is found, there are literals, they have bytes, and the options are sound. -/
theorem of_schemeFor {options : Options} {literals : List Literal} {scheme : Scheme}
    (h : options.schemeFor literals = .ok scheme) :
    literals ≠ [] ∧ (∀ literal ∈ literals, literal.bytes ≠ []) ∧ options.Sound := by
  unfold schemeFor at h
  cases hnil : literals.isEmpty with
  | true => rw [hnil] at h; cases h
  | false =>
    cases hempty : literals.find? Literal.isEmpty with
    | some literal => rw [hnil, hempty] at h; cases h
    | none =>
      simp only [hnil, hempty] at h
      cases hbase : options.baseScheme literals with
      | error e => rw [hbase] at h; cases h
      | ok base =>
        rw [hbase] at h
        have hdomain : options.withForcedDomain base = .ok scheme := h
        refine ⟨by simpa using hnil, fun literal hl => ?_, fun id hid => ?_, fun bits hbits => ?_⟩
        · simpa [Literal.isEmpty] using List.find?_eq_none.1 hempty literal hl
        · rw [baseScheme, hid] at hbase
          cases hfind : Scheme.find? id with
          | none => simp only [hfind] at hbase; cases hbase
          | some scheme => exact ⟨scheme, rfl⟩
        · rw [withForcedDomain, hbits] at hdomain
          dsimp only at hdomain
          split at hdomain
          · assumption
          · cases hdomain

theorem isKnown_of_schemeFor {options : Options} {literals : List Literal} {scheme : Scheme}
    (h : options.schemeFor literals = .ok scheme) : scheme.IsKnown := by
  obtain ⟨hne, hbytes, hsound⟩ := of_schemeFor h
  obtain ⟨scheme', h', hknown⟩ := schemeFor_eq_ok hsound hne hbytes
  cases h.symm.trans h'
  exact hknown

end Options

namespace LiteralTable

variable {options : Options} {literals : List Literal} {scheme : Scheme}

theorem fits_of_schemeFor (hfor : options.schemeFor literals = .ok scheme)
    (hsize : (Contents.ofLiterals scheme literals).bodyLength ≤ maxSize) :
    (Contents.ofLiterals scheme literals).Fits := by
  obtain ⟨hne, hbytes, -⟩ := Options.of_schemeFor hfor
  exact Contents.fits_ofLiterals (Options.isKnown_of_schemeFor hfor) hne hbytes
    (Nat.lt_of_le_of_lt hsize (by decide))

/-- Once there is a scheme, only the size of the table decides whether there is a table. -/
theorem build_eq_of_schemeFor (hfor : options.schemeFor literals = .ok scheme) :
    build options literals
      = if maxSize < (Contents.ofLiterals scheme literals).bodyLength then .error .tooBig
        else .ok (.ofContents (Contents.ofLiterals scheme literals)) := by
  have hpos := (Options.isKnown_of_schemeFor hfor).buckets_pos
  simp only [build, hfor, Buckets.deal_eq scheme literals hpos, Except.mapError, bind, Except.bind]
  rw [← Contents.ofLiterals]
  split
  · rfl
  · next hsize =>
    have hfits := fits_of_schemeFor hfor (Nat.not_lt.1 hsize)
    simp only [hfits.write_replicate_eq .native]
    rfl

theorem build_of_schemeFor (hfor : options.schemeFor literals = .ok scheme)
    (hsize : (Contents.ofLiterals scheme literals).bodyLength ≤ maxSize) :
    build options literals = .ok (.ofContents (Contents.ofLiterals scheme literals)) := by
  rw [build_eq_of_schemeFor hfor, if_neg (Nat.not_lt.2 hsize)]

/-- A table that was built is laid out from the contents of its literals, which fit it, for the
scheme that was chosen. -/
theorem schemeFor_of_build {table : LiteralTable} (hbuild : build options literals = .ok table) :
    ∃ scheme, options.schemeFor literals = .ok scheme
      ∧ (Contents.ofLiterals scheme literals).Fits
      ∧ table = ofContents (Contents.ofLiterals scheme literals) := by
  cases hfor : options.schemeFor literals with
  | error e => simp only [build, hfor, bind, Except.bind] at hbuild; cases hbuild
  | ok scheme =>
    rw [build_eq_of_schemeFor hfor] at hbuild
    split at hbuild
    · cases hbuild
    · next hsize =>
      cases hbuild
      exact ⟨scheme, rfl, fits_of_schemeFor hfor (Nat.not_lt.1 hsize), rfl⟩

/-- Literals that a table was built from are some, and none of them is empty. -/
theorem of_build {table : LiteralTable} (hbuild : build options literals = .ok table) :
    ∃ scheme, scheme.IsKnown ∧ literals ≠ [] ∧ (∀ literal ∈ literals, literal.bytes ≠ [])
      ∧ (Contents.ofLiterals scheme literals).Fits
      ∧ table = ofContents (Contents.ofLiterals scheme literals) := by
  obtain ⟨scheme, hfor, hfits, htable⟩ := schemeFor_of_build hbuild
  obtain ⟨hne, hbytes, -⟩ := Options.of_schemeFor hfor
  exact ⟨scheme, Options.isKnown_of_schemeFor hfor, hne, hbytes, hfits, htable⟩

/-- Literals with at least one byte each get a table unless it would be too big. -/
theorem build_eq_ok (hsound : options.Sound) (hne : literals ≠ [])
    (hbytes : ∀ literal ∈ literals, literal.bytes ≠ [])
    (hsize : ∀ scheme, options.schemeFor literals = .ok scheme →
      (Contents.ofLiterals scheme literals).bodyLength ≤ maxSize) :
    ∃ table, build options literals = .ok table := by
  obtain ⟨scheme, hfor, -⟩ := Options.schemeFor_eq_ok hsound hne hbytes
  exact ⟨_, build_of_schemeFor hfor (hsize scheme hfor)⟩

end LiteralTable

end Multimatch
