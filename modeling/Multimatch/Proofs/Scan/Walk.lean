import Mathlib.Tactic.Choose
import Multimatch.Proofs.Scan.Naive

/-!
# The walk of a scan

A scan alternates probes and floods, but all that a sink sees is one end after the other. What a
scanner can do from a cursor is described by an invariant of the cursor and by what it reports for a
place (`Scanner.Sound`). One step visits the places up to the next cursor (`Scanner.Sound.step_eq`),
a run visits all the places that are left (`Scanner.Sound.run_eq`), and so a scan tells its sink
about every end (`Scanner.Sound.scan_eq`).
-/

namespace Multimatch

theorem EStateM.liftM_ok {σ α : Type} (value : α) :
    (liftM (Except.ok value : Except Fault α) : EStateM Fault σ α) = pure value := rfl

/-- What answers after two computations is what the second one answers after the first. -/
theorem EStateM.exists_of_bind_eq_ok {σ α β : Type} {first : EStateM Fault σ α}
    {next : α → EStateM Fault σ β} {s s' : σ} {b : β} (h : (first >>= next) s = .ok b s') :
    ∃ a middle, first s = .ok a middle ∧ next a middle = .ok b s' := by
  simp only [bind, EStateM.bind] at h
  split at h
  · next a middle hfirst => exact ⟨a, middle, hfirst, h⟩
  · cases h

theorem Control.visitAll_congr {m : Type → Type} [Monad m] {α : Type} {f g : α → m Control}
    {xs : List α} (h : ∀ x ∈ xs, f x = g x) : visitAll f xs = visitAll g xs := by
  induction xs with
  | nil => rfl
  | cons x xs ih =>
    rw [visitAll_cons, visitAll_cons, h x List.mem_cons_self,
      ih fun y hy => h y (List.mem_cons_of_mem _ hy)]

theorem Control.visitAll_map {m : Type → Type} [Monad m] {α β : Type} (visit : β → m Control)
    (f : α → β) (xs : List α) :
    visitAll visit (xs.map f) = visitAll (fun x => visit (f x)) xs := by
  induction xs with
  | nil => rfl
  | cons x xs ih => rw [List.map_cons, visitAll_cons, visitAll_cons, ih]

/-- The places from one on, cut in two. -/
theorem range'_split {start middle stop : Nat} (hstart : start ≤ middle) (hstop : middle ≤ stop) :
    List.range' start (stop - start)
      = List.range' start (middle - start) ++ List.range' middle (stop - middle) := by
  have h := @List.range'_append_1 start (middle - start) (stop - middle)
  rw [Nat.add_sub_cancel' hstart,
    show middle - start + (stop - middle) = stop - start by omega] at h
  exact h.symm

namespace Scanner

variable {scanner : Scanner} {σ : Type}

/-- Reports what `found` has for a place and the groups of the sink. -/
def announce (scanner : Scanner) (sink : Sink σ) (found : Nat → Groups → List LiteralId)
    (place : Nat) : EStateM Fault σ Control := do
  sink.deliver (scanner.endOf place) (found place (sink.groups (← get)))

/-- What `found` has before a place and `later` has from there on. -/
def spliced (middle : Nat) (found later : Nat → Groups → List LiteralId) (place : Nat) :
    Groups → List LiteralId :=
  if place < middle then found place else later place

theorem announce_spliced_of_lt (sink : Sink σ) {found later : Nat → Groups → List LiteralId}
    {middle place : Nat} (h : place < middle) :
    scanner.announce sink (spliced middle found later) place
      = scanner.announce sink found place := by
  simp only [announce, spliced, if_pos h]

theorem announce_spliced_of_ge (sink : Sink σ) {found later : Nat → Groups → List LiteralId}
    {middle place : Nat} (h : middle ≤ place) :
    scanner.announce sink (spliced middle found later) place
      = scanner.announce sink later place := by
  simp only [announce, spliced, if_neg (Nat.not_lt.2 h)]

/-- Visiting with spliced reports is visiting with the first ones, then with the later ones. -/
theorem visitAll_spliced (sink : Sink σ) {found later : Nat → Groups → List LiteralId}
    {start middle stop : Nat} (hmiddle : start ≤ middle) (hstop : start ≤ stop) :
    Control.visitAll (scanner.announce sink (spliced middle found later))
        (List.range' start (stop - start))
      = Control.andThen
        (Control.visitAll (scanner.announce sink found)
          (List.range' start (min middle stop - start)))
        (Control.visitAll (scanner.announce sink later)
          (List.range' middle (stop - middle))) := by
  have hfirst : Control.visitAll (scanner.announce sink (spliced middle found later))
        (List.range' start (min middle stop - start))
      = Control.visitAll (scanner.announce sink found)
        (List.range' start (min middle stop - start)) := by
    refine Control.visitAll_congr fun place hplace => announce_spliced_of_lt sink ?_
    have hin := (List.mem_range'_1.1 hplace).2
    omega
  have hsecond : Control.visitAll (scanner.announce sink (spliced middle found later))
        (List.range' middle (stop - middle))
      = Control.visitAll (scanner.announce sink later) (List.range' middle (stop - middle)) :=
    Control.visitAll_congr fun place hplace =>
      announce_spliced_of_ge sink (List.mem_range'_1.1 hplace).1
  -- The last stride may reach beyond the text: then nothing is left for the later reports.
  have hlast : List.range' (min middle stop) (stop - min middle stop)
      = List.range' middle (stop - middle) := by
    rcases Nat.le_total middle stop with hin | hout
    · rw [Nat.min_eq_left hin]
    · rw [Nat.min_eq_right hout, Nat.sub_self, Nat.sub_eq_zero_of_le hout, List.range'_zero,
        List.range'_zero]
  rw [range'_split (show start ≤ min middle stop by omega) (Nat.min_le_right ..), hlast,
    Control.visitAll_append, hfirst, hsecond]

/-- Where the invariant holds, probes and floods have an answer, what they have for a place is
something to report there, and the invariant holds again behind them. -/
structure Sound (scanner : Scanner) (Inv : (state next : Nat) → Prop)
    (Reports : (place : Nat) → Groups → List LiteralId → Prop) : Prop where
  stride_pos : 0 < scanner.table.scheme.stride
  probed : ∀ {state next}, Inv state next → next < scanner.length →
    ∃ word, scanner.probeWord (next + scanner.table.scheme.stride - 1) = .ok word
      ∧ Inv (scanner.shift state word) (next + scanner.table.scheme.stride)
      ∧ ∀ place groups, next ≤ place → place < next + scanner.table.scheme.stride →
        place < scanner.length → ∃ ids,
          scanner.matchesAt (scanner.shift state word)
              (next + scanner.table.scheme.stride - 1 - place) place groups = .ok ids
            ∧ Reports place groups ids
  flooded : ∀ {state next}, Inv state next → next < scanner.length →
    ∃ decision, scanner.floodAt next = .ok decision
      ∧ ∀ record start stop, decision = .take record start stop →
        next < stop ∧ stop ≤ scanner.length ∧ Inv 0 stop
          ∧ ∀ place groups, next ≤ place → place < stop →
            Reports place groups (record.ending (place - start + 1) groups)

namespace Sound

variable {Inv : Nat → Nat → Prop} {Reports : Nat → Groups → List LiteralId → Prop}
  (h : scanner.Sound Inv Reports)
include h

/-- A probe visits the places of its stride that the text has. -/
theorem probeStep_eq {cursor : ScanCursor} (hinv : Inv cursor.state cursor.next)
    (hnext : cursor.next < scanner.length) :
    ∃ cursor' found, cursor.next < cursor'.next ∧ Inv cursor'.state cursor'.next
      ∧ (∀ place groups, cursor.next ≤ place → place < cursor'.next → place < scanner.length →
          Reports place groups (found place groups))
      ∧ ∀ (σ : Type) (sink : Sink σ), scanner.probeStep sink cursor = do
          let control ← Control.visitAll (scanner.announce sink found)
            (List.range' cursor.next (min cursor'.next scanner.length - cursor.next))
          return (control, cursor') := by
  have hstride := h.stride_pos
  obtain ⟨word, hword, hinv', hfound⟩ := h.probed hinv hnext
  choose! found hmatches hreports using hfound
  refine ⟨{ cursor with
      state := scanner.shift cursor.state word
      next := cursor.next + scanner.table.scheme.stride }, found, ?_, hinv', hreports, ?_⟩
  · exact Nat.lt_add_of_pos_right hstride
  · intro σ sink
    have hprobe : cursor.next + scanner.table.scheme.stride - 1 + 1
        = cursor.next + scanner.table.scheme.stride := by omega
    have hcount : min (cursor.next + scanner.table.scheme.stride - 1) (scanner.length - 1) + 1
        = min (cursor.next + scanner.table.scheme.stride) scanner.length := by omega
    have hvisit : ∀ place ∈ List.range' cursor.next
        (min (cursor.next + scanner.table.scheme.stride) scanner.length - cursor.next),
        scanner.reportAt sink (scanner.shift cursor.state word)
            (cursor.next + scanner.table.scheme.stride - 1 - place) place
          = scanner.announce sink found place := by
      intro place hplace
      obtain ⟨hle, hlt⟩ := List.mem_range'_1.1 hplace
      have hids (groups : Groups) := hmatches place groups hle (by omega) (by omega)
      simp only [reportAt, announce, hids, EStateM.liftM_ok, pure_bind]
    simp only [probeStep, hword, EStateM.liftM_ok, pure_bind, reportUpTo, hprobe, hcount,
      Control.visitAll_congr hvisit]

/-- A step visits the places up to the next cursor. -/
theorem step_eq {cursor : ScanCursor} (hinv : Inv cursor.state cursor.next)
    (hnext : cursor.next < scanner.length) :
    ∃ cursor' found, cursor.next < cursor'.next ∧ Inv cursor'.state cursor'.next
      ∧ (∀ place groups, cursor.next ≤ place → place < cursor'.next → place < scanner.length →
          Reports place groups (found place groups))
      ∧ ∀ (σ : Type) (sink : Sink σ), scanner.step sink cursor = do
          let control ← Control.visitAll (scanner.announce sink found)
            (List.range' cursor.next (min cursor'.next scanner.length - cursor.next))
          return (control, cursor') := by
  by_cases htry : scanner.floodFrom ≤ cursor.next ∧ cursor.noFloodUntil ≤ cursor.next
  · obtain ⟨decision, hdecision, htake⟩ := h.flooded hinv hnext
    cases decision with
    | skip resume =>
      obtain ⟨cursor', found, hlt, hinv', hreports, hstep⟩ :=
        @probeStep_eq _ _ _ h { cursor with noFloodUntil := resume } hinv hnext
      refine ⟨cursor', found, hlt, hinv', hreports, fun σ sink => ?_⟩
      rw [step, if_pos htry, hdecision, EStateM.liftM_ok, pure_bind]
      exact hstep σ sink
    | take record start stop =>
      obtain ⟨hlt, hle, hinv', hreports⟩ := htake record start stop rfl
      refine ⟨{ cursor with state := 0, next := stop },
        fun place groups => record.ending (place - start + 1) groups, hlt, hinv',
        fun place groups hplace hstop _ => hreports place groups hplace hstop, fun σ sink => ?_⟩
      rw [step, if_pos htry, hdecision, EStateM.liftM_ok, pure_bind, Nat.min_eq_left hle]
      rfl
  · obtain ⟨cursor', found, hlt, hinv', hreports, hstep⟩ := h.probeStep_eq hinv hnext
    refine ⟨cursor', found, hlt, hinv', hreports, fun σ sink => ?_⟩
    rw [step, if_neg htry]
    exact hstep σ sink

/-- With a step for every byte left, a run visits the places that are left, one after the other.
More steps make no difference. -/
theorem run_eq {cursor : ScanCursor} (hinv : Inv cursor.state cursor.next) :
    ∃ found, (∀ place groups, cursor.next ≤ place → place < scanner.length →
        Reports place groups (found place groups))
      ∧ ∀ (σ : Type) (sink : Sink σ) (steps : Nat), scanner.length - cursor.next ≤ steps →
        scanner.run sink steps cursor = Control.visitAll (scanner.announce sink found)
          (List.range' cursor.next (scanner.length - cursor.next)) := by
  -- A step may leave many places behind, so that the induction is on the bytes left, not the steps.
  induction hleft : scanner.length - cursor.next using Nat.strongRecOn generalizing cursor with
  | ind left ih =>
    subst hleft
    by_cases hdone : scanner.length ≤ cursor.next
    · refine ⟨fun _ _ => [], fun place _ hge hlt => by omega, fun σ sink steps _ => ?_⟩
      rw [Nat.sub_eq_zero_of_le hdone, List.range'_zero]
      cases steps with
      | zero => rfl
      | succ steps => rw [run, if_pos hdone]; rfl
    · have hnext : cursor.next < scanner.length := Nat.not_le.1 hdone
      obtain ⟨cursor', found, hlt, hinv', hreports, hstep⟩ := h.step_eq hinv hnext
      obtain ⟨later, hlater, hrun⟩ := ih _ (by omega) hinv' rfl
      refine ⟨spliced cursor'.next found later, ?_, ?_⟩
      · intro place groups hge hplace
        unfold spliced
        split
        · next hin => exact hreports place groups hge hin hplace
        · next hout => exact hlater place groups (Nat.not_lt.1 hout) hplace
      · intro σ sink steps hsteps
        obtain ⟨steps, rfl⟩ : ∃ rest, steps = rest + 1 := ⟨steps - 1, by omega⟩
        rw [run, if_neg hdone, hstep σ sink, visitAll_spliced sink (Nat.le_of_lt hlt)
          (Nat.le_of_lt hnext), ← hrun σ sink steps (by omega)]
        simp only [Control.andThen, bind_assoc, pure_bind]
        congr 1
        funext control
        cases control <;> rfl

end Sound

/-! ## A whole scan -/

/-- The scanner of an input for a table whose regions are decoded. -/
def made (table : LiteralTable) (confirm : ConfirmLists) (flood : FloodRegion) (input : ScanInput) :
    Scanner :=
  { table, confirm, flood
    cased := .of input.history input.buffer
    caseless := .of input.caselessHistory input.buffer
    reach := input.history.size - min input.history.size input.caselessHistory.size
    floodFrom := (input.history.size + input.floodFrom) % Reader.wordLimit }

variable {table : LiteralTable} {region : ConfirmRegion} {confirm : ConfirmLists}
  {flood : FloodRegion} {input : ScanInput}

theorem of_eq_made (hregion : table.confirmRegion = .ok region)
    (hlists : region.lists = .ok confirm) (hflood : table.floodRegion = .ok flood) :
    Scanner.of table input = .ok (made table confirm flood input) := by
  simp only [Scanner.of, hregion, hlists, hflood, bind, Except.bind]
  rfl

/-- A probe looks up the key of its byte and the byte before it. -/
theorem probeWord_of_lt {scanner : Scanner} {probe : Nat} (hlt : probe < scanner.length)
    (hpos : probe ≠ 0) :
    ∃ first second, scanner.cased.text[probe - 1]? = some first
      ∧ scanner.cased.text[probe]? = some second
      ∧ scanner.probeWord probe = scanner.table.wordAt
          (((first.toNat <<< 8) ||| second.toNat) &&& scanner.table.header.keyMask) := by
  have hbefore : probe - 1 < scanner.cased.text.size := Nat.lt_of_le_of_lt (Nat.sub_le ..) hlt
  refine ⟨_, _, Array.getElem?_eq_getElem hbefore, Array.getElem?_eq_getElem hlt, ?_⟩
  rw [probeWord, if_neg (not_or.2 ⟨Nat.not_le.2 hlt, hpos⟩), Bytes.byteAt_eq_ok hbefore,
    Bytes.byteAt_eq_ok hlt]
  rfl

theorem length_made :
    (made table confirm flood input).length = input.history.size + input.buffer.size :=
  Array.size_append

theorem endOf_made {matchEnd : Nat} (h : 0 < matchEnd) :
    (made table confirm flood input).endOf (input.history.size + matchEnd - 1) = matchEnd := by
  show input.history.size + matchEnd - 1 + 1 - input.history.size = matchEnd
  omega

/-- The places of the ends that a scan visits. -/
theorem map_ends (input : ScanInput) : input.ends.map (input.history.size + · - 1)
    = List.range' (input.history.size + input.start) (input.buffer.size - input.start) := by
  apply List.ext_getElem (by simp [ScanInput.ends])
  intro i h₁ h₂
  simp only [ScanInput.ends, List.getElem_map, List.getElem_range']
  omega

/-- The cursor of a scan before its first step. -/
def startOf (input : ScanInput) : ScanCursor := ⟨0, input.history.size + input.start, 0⟩

/-- A scan tells the sink about every end from the start on, and so does a run with more steps than
the scan allows for. -/
theorem Sound.scan_eq {Inv : Nat → Nat → Prop} {Reports : Nat → Groups → List LiteralId → Prop}
    (h : (made table confirm flood input).Sound Inv Reports)
    (hof : Scanner.of table input = .ok (made table confirm flood input))
    (hinv : Inv 0 (input.history.size + input.start)) :
    ∃ found, (∀ matchEnd groups, input.start ≤ matchEnd → matchEnd < input.buffer.size →
        Reports (input.history.size + matchEnd) groups (found (matchEnd + 1) groups))
      ∧ ∀ (σ : Type) (sink : Sink σ),
        table.scan input sink = Control.visitAll (sink.tell found) input.ends
          ∧ ∀ steps, input.buffer.size - input.start ≤ steps →
            (made table confirm flood input).run sink steps (startOf input)
              = Control.visitAll (sink.tell found) input.ends := by
  obtain ⟨found, hreports, hrun⟩ := @Sound.run_eq _ _ _ h (startOf input) hinv
  have hlength : (made table confirm flood input).length - (startOf input).next
      = input.buffer.size - input.start := by
    rw [length_made]
    show input.history.size + input.buffer.size - (input.history.size + input.start) = _
    omega
  have hends {σ : Type} (sink : Sink σ) :
      Control.visitAll ((made table confirm flood input).announce sink found)
          (List.range' (startOf input).next (input.buffer.size - input.start))
        = Control.visitAll (sink.tell fun matchEnd => found (input.history.size + matchEnd - 1))
          input.ends := by
    rw [startOf, ← map_ends, Control.visitAll_map]
    refine Control.visitAll_congr fun matchEnd hend => ?_
    have hpos : 0 < matchEnd := Nat.lt_of_lt_of_le (Nat.succ_pos _) (List.mem_range'_1.1 hend).1
    simp only [announce, Sink.tell, endOf_made hpos]
  simp only [hlength, hends] at hrun
  refine ⟨fun matchEnd => found (input.history.size + matchEnd - 1), ?_, fun σ sink =>
    ⟨?_, hrun σ sink⟩⟩
  · intro matchEnd groups hstart hstop
    exact hreports _ groups (by rw [startOf]; dsimp only; omega) (by rw [length_made]; omega)
  · rw [LiteralTable.scan]
    split
    · next hempty =>
      rw [ScanInput.ends, Nat.sub_eq_zero_of_le hempty]
      rfl
    · rw [hof, EStateM.liftM_ok, pure_bind]
      exact hrun σ sink _ (Nat.le_refl _)

end Scanner

end Multimatch
