import Multimatch.Proofs.Groups
import Multimatch.Proofs.Scan.Naive

/-!
# Flood records as bounded sets

A flood record takes entries until it is full (`FloodRecord.pushAll_eq`): it lists the first ones,
with their groups taken together, and refuses all others. What ends in a run is then a set that is
listed in order: the identifiers of the entries that fit the run and have a live group, each once
(`FloodRecord.mem_ending`, `FloodRecord.Sorted.pairwise_ending`).
-/

namespace Multimatch.FloodRecord

/-! ## What ends in a run -/

theorem eraseReps_ids (id : LiteralId) (entries : List FloodEntry) :
    (id :: entries.map (·.id)).eraseReps = id :: distinctIds (some id) entries := by
  induction entries generalizing id with
  | nil => rfl
  | cons entry entries ih =>
    rw [List.map_cons, distinctIds]
    by_cases h : id = entry.id
    · rw [← h, eraseReps_cons_self, ih, if_pos rfl]
    · rw [eraseReps_cons_of_ne h, ih, if_neg fun heq => h (Option.some.inj heq)]

theorem distinctIds_eq (entries : List FloodEntry) :
    distinctIds none entries = (entries.map (·.id)).eraseReps := by
  cases entries with
  | nil => rfl
  | cons entry entries =>
    rw [List.map_cons, eraseReps_ids, distinctIds, if_neg nofun]

/-- The entries of a record are listed by identifier. -/
def Sorted (record : FloodRecord) : Prop :=
  record.entries.Pairwise (·.id.toNat ≤ ·.id.toNat)

variable {record : FloodRecord}

theorem Sorted.pairwise_ending (h : record.Sorted) (runLength : Nat) (groups : Groups) :
    (record.ending runLength groups).Pairwise (·.toNat < ·.toNat) := by
  rw [ending, distinctIds_eq]
  exact pairwise_eraseReps (List.pairwise_map.2 (h.filter _))

theorem mem_ending {runLength : Nat} {groups : Groups} {id : LiteralId} :
    id ∈ record.ending runLength groups ↔ ∃ entry ∈ record.entries, entry.id = id
      ∧ entry.length ≤ runLength ∧ entry.groups.meets groups = true := by
  rw [ending, distinctIds_eq, mem_eraseReps]
  simp only [List.mem_map, List.mem_filter, endsWithin, Bool.and_eq_true, decide_eq_true_eq]
  constructor
  · rintro ⟨entry, ⟨hmem, hlength, hgroups⟩, rfl⟩
    exact ⟨entry, hmem, rfl, hlength, hgroups⟩
  · rintro ⟨entry, hmem, rfl, hlength, hgroups⟩
    exact ⟨entry, ⟨hmem, hlength, hgroups⟩, rfl⟩

/-- A longer run and more live groups leave nothing out. -/
theorem ending_subset {runLength longer : Nat} {groups wider : Groups}
    (hlonger : runLength ≤ longer) (hwider : groups.Within wider) :
    record.ending runLength groups ⊆ record.ending longer wider := by
  intro id hid
  obtain ⟨entry, hentry, heq, hfits, hmeets⟩ := mem_ending.1 hid
  exact mem_ending.2 ⟨entry, hentry, heq, Nat.le_trans hfits hlonger, hwider.meets hmeets⟩

/-! ## Taking entries -/

/-- Adds an entry if there is room for it, and says whether there was. -/
def push (record : FloodRecord) (entry : FloodEntry) : Bool × FloodRecord :=
  match record.push? entry with
  | some record => (true, record)
  | none => (false, record)

/-- Adds entries one after the other, with an answer for each of them. -/
def pushAll (record : FloodRecord) : List FloodEntry → List Bool × FloodRecord
  | [] => ([], record)
  | entry :: entries =>
    let step := record.push entry
    let rest := step.2.pushAll entries
    (step.1 :: rest.1, rest.2)

/-- The record that lists the entries, whatever their number. -/
def listing (suffix : Nat) (entries : List FloodEntry) : FloodRecord :=
  ⟨Groups.union (entries.map (·.groups)), suffix, entries⟩

theorem getLsbD_allGroups_listing {suffix : Nat} {entries : List FloodEntry} {bit : Nat} :
    (listing suffix entries).allGroups.getLsbD bit = true
      ↔ ∃ entry ∈ entries, entry.groups.getLsbD bit = true := by
  simp only [listing, Groups.getLsbD_union, List.mem_map, exists_exists_and_eq_and]

/-- Nothing ends for groups that no entry has. -/
theorem ending_listing_eq_nil {suffix : Nat} {entries : List FloodEntry} {groups : Groups}
    (h : (listing suffix entries).allGroups.meets groups = false) (runLength : Nat) :
    (listing suffix entries).ending runLength groups = [] := by
  refine List.eq_nil_iff_forall_not_mem.2 fun id hid => ?_
  obtain ⟨entry, hentry, -, -, hmeets⟩ := mem_ending.1 hid
  obtain ⟨bit, hbit, hlive⟩ := Groups.meets_iff.1 hmeets
  have hall : (listing suffix entries).allGroups.getLsbD bit = true :=
    getLsbD_allGroups_listing.2 ⟨entry, hentry, hbit⟩
  exact Groups.not_both_of_meets h ⟨hall, hlive⟩

theorem push_listing (suffix : Nat) {entries : List FloodEntry} (entry : FloodEntry)
    (hroom : entries.length < maxEntries) :
    (listing suffix entries).push entry = (true, listing suffix (entries ++ [entry])) := by
  have hnot : (listing suffix entries).entries.length ≠ maxEntries := Nat.ne_of_lt hroom
  rw [push, push?, if_neg hnot]
  simp only [listing, Groups.union, List.map_append, List.foldl_append]
  rfl

theorem push_of_full (hfull : record.entries.length = maxEntries) (entry : FloodEntry) :
    record.push entry = (false, record) := by
  rw [push, (push?_eq_none_iff record entry).2 hfull]

theorem pushAll_append (record : FloodRecord) (entries more : List FloodEntry) :
    record.pushAll (entries ++ more)
      = ((record.pushAll entries).1 ++ ((record.pushAll entries).2.pushAll more).1,
        ((record.pushAll entries).2.pushAll more).2) := by
  induction entries generalizing record with
  | nil => rfl
  | cons entry entries ih => simp only [List.cons_append, pushAll, ih]

/-- By induction on the entries, while those listed before them grow. -/
theorem pushAll_listing (suffix : Nat) (entries : List FloodEntry) :
    ∀ before : List FloodEntry, (before ++ entries).length ≤ maxEntries →
      (listing suffix before).pushAll entries
        = (List.replicate entries.length true, listing suffix (before ++ entries)) := by
  induction entries with
  | nil => exact fun before _ => by rw [List.append_nil]; rfl
  | cons entry entries ih =>
    intro before hroom
    have hone : before.length < maxEntries := by
      rw [List.length_append, List.length_cons] at hroom
      omega
    have hrest := ih (before ++ [entry]) (by rwa [List.append_assoc])
    rw [List.append_assoc] at hrest
    rw [pushAll, push_listing suffix entry hone]
    simp only [hrest]
    rfl

theorem pushAll_of_full (hfull : record.entries.length = maxEntries) (entries : List FloodEntry) :
    record.pushAll entries = (List.replicate entries.length false, record) := by
  induction entries with
  | nil => rfl
  | cons entry entries ih =>
    rw [pushAll, push_of_full hfull]
    simp only [ih]
    rfl

/-- A new record takes the first entries that it has room for, and no others. -/
theorem pushAll_eq (suffix : Nat) (entries : List FloodEntry) :
    (empty suffix).pushAll entries
      = (List.replicate (min maxEntries entries.length) true
          ++ List.replicate (entries.length - maxEntries) false,
        listing suffix (entries.take maxEntries)) := by
  have htake : (entries.take maxEntries).length = min maxEntries entries.length :=
    List.length_take
  have hdrop : (entries.drop maxEntries).length = entries.length - maxEntries := List.length_drop
  have hfirst := pushAll_listing suffix (entries.take maxEntries) []
    (by rw [List.nil_append, htake]; exact Nat.min_le_left ..)
  have hempty : empty suffix = listing suffix [] := rfl
  conv => lhs; rw [← List.take_append_drop maxEntries entries]
  rw [hempty, pushAll_append, hfirst, htake, List.nil_append]
  rcases Nat.le_total entries.length maxEntries with hfew | hmany
  · rw [List.drop_of_length_le hfew, Nat.sub_eq_zero_of_le hfew]
    rfl
  · have hfull : (listing suffix (entries.take maxEntries)).entries.length = maxEntries :=
      htake.trans (Nat.min_eq_left hmany)
    rw [pushAll_of_full hfull, hdrop]

/-- Entries that come in the order of their identifiers make a record a set. The first sixteen are
accepted, and each later one is refused and changes nothing. The record has all groups of its
entries. What ends in a run is in ascending order, each identifier once, and is what some entry has
that fits the run and is in a live group: so it grows with the run and with the groups, and it is
empty for groups that the record does not have. -/
theorem pushAll_ascending (suffix : Nat) {entries : List FloodEntry}
    (hsorted : entries.Pairwise (·.id.toNat ≤ ·.id.toNat)) :
    ∃ record, (empty suffix).pushAll entries
        = (List.replicate (min maxEntries entries.length) true
            ++ List.replicate (entries.length - maxEntries) false, record)
      ∧ record.suffix = suffix ∧ record.entries = entries.take maxEntries
      ∧ (maxEntries ≤ entries.length → ∀ entry, record.push entry = (false, record))
      ∧ (∀ bit, record.allGroups.getLsbD bit = true
          ↔ ∃ entry ∈ record.entries, entry.groups.getLsbD bit = true)
      ∧ (∀ runLength groups, (record.ending runLength groups).Pairwise (·.toNat < ·.toNat)
          ∧ ∀ id, id ∈ record.ending runLength groups ↔ ∃ entry ∈ record.entries, entry.id = id
            ∧ entry.length ≤ runLength ∧ entry.groups.meets groups = true)
      ∧ (∀ runLength longer groups wider, runLength ≤ longer → Groups.Within groups wider →
          record.ending runLength groups ⊆ record.ending longer wider)
      ∧ ∀ runLength groups, record.allGroups.meets groups = false →
          record.ending runLength groups = [] := by
  refine ⟨_, pushAll_eq suffix entries, rfl, rfl, fun hmany => push_of_full ?_,
    fun bit => getLsbD_allGroups_listing, fun runLength groups => ⟨?_, fun id => mem_ending⟩,
    fun _ _ _ _ => ending_subset, fun runLength groups hnone => ending_listing_eq_nil hnone _⟩
  · exact List.length_take.trans (Nat.min_eq_left hmany)
  · exact Sorted.pairwise_ending (hsorted.sublist (List.take_sublist ..)) runLength groups

/-- The identifier 4 stands twice, and is found by its second entry where the first is too long. -/
theorem pushAll_ascending_repeated :
    let entries : List FloodEntry := [⟨.wrap 2, 1, 1⟩, ⟨.wrap 4, 1, 9⟩, ⟨.wrap 4, 6, 3⟩]
    entries.Pairwise (·.id.toNat ≤ ·.id.toNat)
      ∧ ∃ record, (empty 8).pushAll entries = ([true, true, true], record)
        ∧ .wrap 4 ∈ record.ending 3 4 ∧ record.ending 9 8 = [] := by
  intro entries
  have hsorted : entries.Pairwise (·.id.toNat ≤ ·.id.toNat) := by decide
  obtain ⟨record, hpush, -, hentries, -, hall, hending, -, hnone⟩ := pushAll_ascending 8 hsorted
  refine ⟨hsorted, record, hpush, ?_, hnone 9 8 ?_⟩
  · refine ((hending 3 4).2 _).2 ⟨⟨.wrap 4, 6, 3⟩, ?_, rfl, Nat.le_refl 3, rfl⟩
    rw [hentries]
    decide
  · refine Bool.eq_false_iff.2 fun hmeets => ?_
    obtain ⟨bit, hbit, hlive⟩ := Groups.meets_iff.1 hmeets
    obtain ⟨entry, hentry, hgroups⟩ := (hall bit).1 hbit
    have hmissed : ∀ entry ∈ entries.take maxEntries, entry.groups.meets 8 = false := by decide
    exact Groups.not_both_of_meets (hmissed entry (hentries ▸ hentry)) ⟨hgroups, hlive⟩

end Multimatch.FloodRecord
