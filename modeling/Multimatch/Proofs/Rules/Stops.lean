import Mathlib.Data.Finset.Sort
import Mathlib.Data.List.Induction
import Multimatch.Rules.Role

/-!
# Stops that were gathered entry by entry

The stops of a plan come of entries that were added one after the other. Read in the order of the
stops, the entries are in the order of their flags and, for one flag, in the order in which they
were added (`WalkStop.flatMap_gather`). There is one stop for every flag (`WalkStop.gather_eq`).
-/

namespace Multimatch

/-! ## Lists in the order of a key -/

section Keys

variable {α : Type} {key : α → Nat} {xs : List α}

theorem filter_lt_succ (hsorted : xs.Pairwise fun x y => key x ≤ key y) (bound : Nat) :
    xs.filter (key · < bound + 1) = xs.filter (key · < bound) ++ xs.filter (key · = bound) := by
  simp only [Nat.lt_add_one_iff]
  induction xs with
  | nil => rfl
  | cons x xs ih =>
    obtain ⟨hfirst, hrest⟩ := List.pairwise_cons.1 hsorted
    have hrec := ih hrest
    rcases Nat.lt_trichotomy (key x) bound with hlt | heq | hgt
    · simp [hlt, Nat.le_of_lt hlt, Nat.ne_of_lt hlt, hrec]
    · -- Nothing behind the first element of a key comes before it.
      have hnone : xs.filter (key · < bound) = [] :=
        List.filter_eq_nil_iff.2 fun y hy => by simpa [← heq] using hfirst y hy
      simp [heq, hnone, hrec]
    · have hlt : ¬ key x < bound := Nat.not_lt_of_gt hgt
      have hle : ¬ key x ≤ bound := Nat.not_le_of_gt hgt
      simp [hlt, hle, Nat.ne_of_gt hgt, hrec]

/-- A list in the order of a key is that of its parts, one for every key. -/
theorem eq_flatMap_filter (hsorted : xs.Pairwise fun x y => key x ≤ key y) {bound : Nat}
    (hbound : ∀ x ∈ xs, key x < bound) :
    xs = (List.range bound).flatMap fun k => xs.filter (key · = k) := by
  have hbelow : xs.filter (key · < bound)
      = (List.range bound).flatMap fun k => xs.filter (key · = k) := by
    clear hbound
    induction bound with
    | zero => simp
    | succ bound ih =>
      rw [filter_lt_succ hsorted, ih, List.range_succ, List.flatMap_append, List.flatMap_singleton]
  rw [← hbelow, List.filter_eq_self.2 fun x hx => decide_eq_true (hbound x hx)]

end Keys

/-! ## Stops -/

namespace WalkStop

/-- The entries of a stop, each with the flag that leads to it. -/
def calls (stop : WalkStop) : List (Nat × WalkEntry) := stop.entries.map (stop.state, ·)

/-- The stops that come of some entries, as `Plan.addWalkEntry` adds them. -/
def gather (calls : List (Nat × WalkEntry)) : List WalkStop :=
  calls.foldl (fun stops call => addEntry call.1 call.2 stops) []

/-- Stops are in the order of their flags, and no two of them have one flag. -/
def Ascending (stops : List WalkStop) : Prop := stops.Pairwise (·.state < ·.state)

variable {stops : List WalkStop} {state : Nat} {entry : WalkEntry}

theorem state_of_mem_calls {stop : WalkStop} {call : Nat × WalkEntry} (h : call ∈ stop.calls) :
    call.1 = stop.state := by
  obtain ⟨entry, -, rfl⟩ := List.mem_map.1 h
  rfl

theorem state_of_mem_addEntry {stop : WalkStop} (h : stop ∈ addEntry state entry stops) :
    stop.state = state ∨ ∃ other ∈ stops, stop.state = other.state := by
  induction stops with
  | nil =>
    rw [List.mem_singleton.1 h]
    exact .inl rfl
  | cons first stops ih =>
    rw [addEntry] at h
    split at h
    · rcases List.mem_cons.1 h with rfl | h
      · exact .inl rfl
      · exact .inr ⟨stop, h, rfl⟩
    · split at h
      · rcases List.mem_cons.1 h with rfl | h
        · exact .inr ⟨first, List.mem_cons_self, rfl⟩
        · exact .inr ⟨stop, List.mem_cons_of_mem _ h, rfl⟩
      · rcases List.mem_cons.1 h with rfl | h
        · exact .inr ⟨stop, List.mem_cons_self, rfl⟩
        · rcases ih h with hstate | ⟨other, hother, hstate⟩
          · exact .inl hstate
          · exact .inr ⟨other, List.mem_cons_of_mem _ hother, hstate⟩

theorem ascending_addEntry (h : Ascending stops) : Ascending (addEntry state entry stops) := by
  induction stops with
  | nil => exact List.pairwise_singleton ..
  | cons first stops ih =>
    obtain ⟨hfirst, hrest⟩ := List.pairwise_cons.1 h
    rw [addEntry]
    split
    · next hlt =>
      refine List.pairwise_cons.2 ⟨fun stop hstop => ?_, h⟩
      rcases List.mem_cons.1 hstop with rfl | hstop
      · exact hlt
      · exact Nat.lt_trans hlt (hfirst stop hstop)
    · next hnotlt =>
      split
      · exact List.pairwise_cons.2 ⟨hfirst, hrest⟩
      · next hne =>
        refine List.pairwise_cons.2 ⟨fun stop hstop => ?_, ih hrest⟩
        rcases state_of_mem_addEntry hstop with hstate | ⟨other, hother, hstate⟩
        · omega
        · exact hstate ▸ hfirst other hother

theorem filter_flatMap_calls_eq_nil {flag : Nat} (h : ∀ stop ∈ stops, stop.state ≠ flag) :
    (stops.flatMap calls).filter (·.1 = flag) = [] := by
  refine List.filter_eq_nil_iff.2 fun call hcall => ?_
  obtain ⟨stop, hstop, hcall⟩ := List.mem_flatMap.1 hcall
  rw [state_of_mem_calls hcall]
  simpa using h stop hstop

/-- An added entry comes behind those of its flag. -/
theorem filter_addEntry (h : Ascending stops) (flag : Nat) :
    ((addEntry state entry stops).flatMap calls).filter (·.1 = flag)
      = (stops.flatMap calls).filter (·.1 = flag) ++ [(state, entry)].filter (·.1 = flag) := by
  induction stops with
  | nil => rfl
  | cons first stops ih =>
    obtain ⟨hfirst, hrest⟩ := List.pairwise_cons.1 h
    rw [addEntry]
    split
    · next hlt =>
      by_cases hflag : state = flag
      · have hnone : ((first :: stops).flatMap calls).filter (·.1 = flag) = [] :=
          filter_flatMap_calls_eq_nil fun stop hstop => by
            rcases List.mem_cons.1 hstop with rfl | hstop
            · omega
            · have := hfirst stop hstop
              omega
        rw [hnone, List.flatMap_cons, List.filter_append, hnone]
        simp [calls]
      · simp [calls, hflag]
    · split
      · next heq =>
        subst heq
        by_cases hflag : first.state = flag
        · have hnone : (stops.flatMap calls).filter (·.1 = flag) = [] :=
            filter_flatMap_calls_eq_nil fun stop hstop => by
              have := hfirst stop hstop
              omega
          simp [calls, hflag, hnone]
        · simp [calls, hflag]
      · rw [List.flatMap_cons, List.filter_append, ih hrest, List.flatMap_cons, List.filter_append,
          List.append_assoc]

theorem gather_concat (before : List (Nat × WalkEntry)) (call : Nat × WalkEntry) :
    gather (before ++ [call]) = addEntry call.1 call.2 (gather before) :=
  List.foldl_concat ..

theorem ascending_gather (added : List (Nat × WalkEntry)) : Ascending (gather added) := by
  induction added using List.reverseRecOn with
  | nil => exact .nil
  | append_singleton before call ih =>
    rw [gather_concat]
    exact ascending_addEntry ih

theorem filter_gather (added : List (Nat × WalkEntry)) (flag : Nat) :
    ((gather added).flatMap calls).filter (·.1 = flag) = added.filter (·.1 = flag) := by
  induction added using List.reverseRecOn with
  | nil => rfl
  | append_singleton before call ih =>
    rw [gather_concat, filter_addEntry (ascending_gather before), ih, List.filter_append]

theorem mem_flatMap_gather {added : List (Nat × WalkEntry)} {call : Nat × WalkEntry} :
    call ∈ (gather added).flatMap calls ↔ call ∈ added := by
  have hpart (some : List (Nat × WalkEntry)) : call ∈ some ↔ call ∈ some.filter (·.1 = call.1) := by
    simp
  rw [hpart, filter_gather, ← hpart]

/-- Entries by their flags, which are below a bound, and for one flag as they were added. -/
def inOrder (states : Nat) (added : List (Nat × WalkEntry)) : List (Nat × WalkEntry) :=
  (List.range states).flatMap fun flag => added.filter (·.1 = flag)

theorem mem_inOrder {added : List (Nat × WalkEntry)} {states : Nat}
    (hstates : ∀ call ∈ added, call.1 < states) {call : Nat × WalkEntry} :
    call ∈ inOrder states added ↔ call ∈ added := by
  simp only [inOrder, List.mem_flatMap, List.mem_range, List.mem_filter, decide_eq_true_eq]
  exact ⟨fun ⟨_, _, hcall, _⟩ => hcall, fun hcall => ⟨_, hstates call hcall, hcall, rfl⟩⟩

theorem flatMap_gather {added : List (Nat × WalkEntry)} {states : Nat}
    (hstates : ∀ call ∈ added, call.1 < states) :
    (gather added).flatMap calls = inOrder states added := by
  have hsorted : ((gather added).flatMap calls).Pairwise fun call later => call.1 ≤ later.1 := by
    refine List.pairwise_flatMap.2 ⟨fun stop _ => ?_, (ascending_gather added).imp ?_⟩
    · exact List.pairwise_map.2 (List.pairwise_of_forall fun _ _ => Nat.le_refl _)
    · intro stop later hlt call hcall other hother
      rw [state_of_mem_calls hcall, state_of_mem_calls hother]
      exact Nat.le_of_lt hlt
  rw [eq_flatMap_filter hsorted fun call hcall => hstates call (mem_flatMap_gather.1 hcall)]
  simp only [filter_gather, inOrder]

theorem state_mem_addEntry {flag : Nat} : flag ∈ (addEntry state entry stops).map (·.state)
    ↔ flag ∈ stops.map (·.state) ∨ flag = state := by
  induction stops with
  | nil => simp [addEntry]
  | cons first stops ih =>
    rw [addEntry]
    split
    · simp [or_comm]
    · split
      · next heq => simp [heq, or_comm]
      · rw [List.map_cons, List.mem_cons, ih, List.map_cons, List.mem_cons, or_assoc]

theorem state_mem_gather {added : List (Nat × WalkEntry)} {flag : Nat} :
    flag ∈ (gather added).map (·.state) ↔ flag ∈ added.map (·.1) := by
  induction added using List.reverseRecOn with
  | nil => rfl
  | append_singleton before call ih =>
    rw [gather_concat, state_mem_addEntry, ih, List.map_append, List.mem_append,
      List.map_singleton, List.mem_singleton]

/-- The entries of a stop are those of its flag. -/
theorem filter_calls_of_mem (h : Ascending stops) {stop : WalkStop} (hstop : stop ∈ stops) :
    (stops.flatMap calls).filter (·.1 = stop.state) = stop.calls := by
  have hown : stop.calls.filter (·.1 = stop.state) = stop.calls :=
    List.filter_eq_self.2 fun call hcall => by simp [state_of_mem_calls hcall]
  induction stops with
  | nil => cases hstop
  | cons first stops ih =>
    obtain ⟨hfirst, hrest⟩ := List.pairwise_cons.1 h
    rw [List.flatMap_cons, List.filter_append]
    rcases List.mem_cons.1 hstop with rfl | hstop
    · have hlater : ∀ later ∈ stops, later.state ≠ stop.state := fun later hlater =>
        Nat.ne_of_gt (hfirst later hlater)
      rw [hown, filter_flatMap_calls_eq_nil hlater, List.append_nil]
    · have hother : first.calls.filter (·.1 = stop.state) = [] :=
        List.filter_eq_nil_iff.2 fun call hcall => by
          simpa [state_of_mem_calls hcall] using Nat.ne_of_lt (hfirst stop hstop)
      rw [hother, List.nil_append, ih hrest hstop]

/-- The flags of some entries, in ascending order. -/
def flags (added : List (Nat × WalkEntry)) : List Nat := (added.map (·.1)).toFinset.sort

/-- The entries of one flag, as they were added. -/
def entriesAt (added : List (Nat × WalkEntry)) (flag : Nat) : List WalkEntry :=
  (added.filter (·.1 = flag)).map (·.2)

variable {added : List (Nat × WalkEntry)} {flag : Nat}

theorem mem_flags : flag ∈ flags added ↔ ∃ entry, (flag, entry) ∈ added := by
  simp [flags]

theorem mem_entriesAt : entry ∈ entriesAt added flag ↔ (flag, entry) ∈ added := by
  simp [entriesAt]

theorem gather_eq (added : List (Nat × WalkEntry)) :
    gather added = (flags added).map fun flag => ⟨flag, entriesAt added flag⟩ := by
  have hflags : (gather added).map (·.state) = flags added := by
    have hsorted : ((gather added).map (·.state)).SortedLT :=
      List.sortedLT_iff_pairwise.2 (List.pairwise_map.2 (ascending_gather added))
    refine hsorted.eq_of_mem_iff (Finset.sortedLT_sort _) fun flag => ?_
    rw [state_mem_gather, flags, Finset.mem_sort, List.mem_toFinset]
  rw [← hflags, List.map_map]
  refine (List.map_id _).symm.trans (List.map_congr_left fun stop hstop => ?_)
  have hcalls := (filter_gather added stop.state).symm.trans
    (filter_calls_of_mem (ascending_gather added) hstop)
  simp [entriesAt, hcalls, calls, Function.comp_def]

end WalkStop

end Multimatch
