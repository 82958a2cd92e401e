import Multimatch.Proofs.Scan.FloodRuns
import Multimatch.Proofs.Scan.Walk

/-!
# The flood path

A flood that is taken is a run of one byte over the place, with enough of it behind and ahead
(`Scanner.Flood`); this holds of every scanner whose flood region can be read. In a table that was
built for literals, what the record of the byte has for a place of the flood is what ends there:
every literal fits in the part of the run that lies behind, so that the literals that end are those
that are runs of the byte (`Scanner.Flood.endsIn_iff`).
-/

namespace Multimatch

namespace Scanner

/-! ## Runs -/

variable {scanner : Scanner} {byte : UInt8}

theorem runStart_le (place : Nat) : scanner.runStart byte place ≤ place := by
  induction place with
  | zero => exact Nat.le_refl 0
  | succ place ih =>
    rw [runStart]
    split
    · exact Nat.le_succ_of_le ih
    · exact Nat.le_refl _

theorem reach_le_runStart {place : Nat} (h : scanner.reach ≤ place) :
    scanner.reach ≤ scanner.runStart byte place := by
  induction place with
  | zero => exact h
  | succ place ih =>
    rw [runStart]
    split
    · next hmore => exact ih (Nat.le_of_lt_succ hmore.1)
    · exact h

theorem getElem?_of_runStart {place i : Nat} (hstart : scanner.runStart byte place ≤ i)
    (hi : i < place) : scanner.cased.text[i]? = some byte := by
  induction place with
  | zero => cases hi
  | succ place ih =>
    rw [runStart] at hstart
    split at hstart
    · next hmore =>
      rcases Nat.lt_or_ge i place with hlt | hge
      · exact ih hstart hlt
      · rw [show i = place by omega]
        exact hmore.2
    · omega

theorem le_runStop (count place : Nat) : place ≤ scanner.runStop byte count place := by
  induction count generalizing place with
  | zero => exact Nat.le_refl _
  | succ count ih =>
    rw [runStop]
    split
    · exact Nat.le_of_succ_le (ih (place + 1))
    · exact Nat.le_refl _

theorem runStop_le (count place : Nat) : scanner.runStop byte count place ≤ place + count := by
  induction count generalizing place with
  | zero => exact Nat.le_refl _
  | succ count ih =>
    rw [runStop]
    split
    · exact Nat.le_trans (ih (place + 1)) (by omega)
    · exact Nat.le_add_right ..

theorem getElem?_of_runStop {count place i : Nat} (hplace : place ≤ i)
    (hi : i < scanner.runStop byte count place) : scanner.cased.text[i]? = some byte := by
  induction count generalizing place with
  | zero =>
    rw [runStop] at hi
    omega
  | succ count ih =>
    rw [runStop] at hi
    split at hi
    · next hbyte =>
      rcases Nat.eq_or_lt_of_le hplace with heq | hlt
      · rw [← heq]
        exact hbyte
      · exact ih hlt hi
    · omega

/-- The flood path is taken at a place: a run of the byte reaches from `start` to `stop`, with the
suffix of the record behind the place and enough bytes ahead of it. -/
structure Flood (scanner : Scanner) (record : FloodRecord) (byte : UInt8) (place start stop : Nat) :
    Prop where
  found : scanner.flood.record? byte = .ok (some record)
  suffix : record.suffix ≤ place - start + 1
  start_le : start ≤ place
  reach_le : scanner.reach ≤ place → scanner.reach ≤ start
  ahead : place + minAhead ≤ stop
  stop_le : stop ≤ scanner.length
  run : ∀ i, start ≤ i → i < stop → scanner.cased.text[i]? = some byte

theorem Flood.lt_stop {record : FloodRecord} {place start stop : Nat}
    (h : scanner.Flood record byte place start stop) : place < stop := by
  have hahead := h.ahead
  unfold minAhead at hahead
  omega

/-- There is no flood of a byte that has no record. -/
theorem floodAt_of_none {place : Nat} (hbyte : scanner.cased.text[place]? = some byte)
    (hrecord : scanner.flood.record? byte = .ok none) :
    scanner.floodAt place = .ok (.skip (place + 1)) := by
  simp only [floodAt, Bytes.byteAt, hbyte, hrecord, bind, Except.bind]
  rfl

/-- For a byte that has a record, the run around the place decides. -/
theorem floodAt_of_some {record : FloodRecord} {place : Nat}
    (hbyte : scanner.cased.text[place]? = some byte)
    (hrecord : scanner.flood.record? byte = .ok (some record)) :
    let start := scanner.runStart byte place
    let stop := scanner.runStop byte (scanner.length - place) place
    scanner.floodAt place = .ok (
      if place - start + 1 < record.suffix then .skip (start + record.suffix - 1)
      else if stop - place < minAhead then .skip stop
      else .take record start stop) := by
  simp only [floodAt, Bytes.byteAt, hbyte, hrecord, bind, Except.bind]
  split
  · rfl
  · split <;> rfl

/-- Where the records can be read, the flood path is decided on, and it is taken for floods only. -/
theorem floodAt_eq_ok (hrecords : ∀ byte, ∃ record?, scanner.flood.record? byte = .ok record?)
    {place : Nat} (hplace : place < scanner.length) :
    ∃ decision, scanner.floodAt place = .ok decision
      ∧ ∀ record start stop, decision = .take record start stop →
        ∃ byte, scanner.Flood record byte place start stop := by
  have hbyte : scanner.cased.text[place]? = some scanner.cased.text[place] :=
    Array.getElem?_eq_getElem hplace
  obtain ⟨record?, hrecord⟩ := hrecords scanner.cased.text[place]
  cases record? with
  | none => exact ⟨_, floodAt_of_none hbyte hrecord, fun _ _ _ h => nomatch h⟩
  | some record =>
    refine ⟨_, floodAt_of_some hbyte hrecord, fun record' start stop htake => ?_⟩
    split at htake
    · cases htake
    · next hsuffix =>
      split at htake
      · cases htake
      · next hahead =>
        cases htake
        have hle := @runStart_le scanner scanner.cased.text[place] place
        have hge := @le_runStop scanner scanner.cased.text[place] (scanner.length - place) place
        have hstop := @runStop_le scanner scanner.cased.text[place] (scanner.length - place) place
        refine ⟨_, hrecord, Nat.not_lt.1 hsuffix, hle, reach_le_runStart, by omega, by omega, ?_⟩
        intro i hstart hi
        rcases Nat.lt_or_ge i place with hlt | hge
        · exact getElem?_of_runStart hstart hlt
        · exact getElem?_of_runStop hge hi

end Scanner

/-! ## What ends in a flood -/

namespace Scanner.Flood

variable {table : LiteralTable} {confirm : ConfirmLists} {region : FloodRegion} {input : ScanInput}
  {record : FloodRecord} {byte : UInt8} {next start stop : Nat}

/-- The history that counts for a literal reaches back to the start of the run. -/
theorem size_le_start (h : (made table confirm region input).Flood record byte next start stop)
    (hnext : input.history.size ≤ next) (literal : Literal) :
    input.history.size ≤ start + (literal.viewIn (.of input.history input.buffer)
      (.of input.caselessHistory input.buffer)).origin := by
  have hreach : input.history.size - min input.history.size input.caselessHistory.size ≤ start :=
    h.reach_le (show input.history.size - min input.history.size input.caselessHistory.size ≤ next
      by omega)
  unfold Literal.viewIn
  cases literal.nocase with
  | false => exact Nat.le_add_left ..
  | true =>
    show input.history.size ≤ start + input.caselessHistory.size
    omega

/-- As the run starts where both histories reach, it is a run for literals without regard to case
too. -/
theorem getElem?_viewIn (h : (made table confirm region input).Flood record byte next start stop)
    (hagree : input.HistoriesAgree) (literal : Literal) {i j : Nat} (hstart : start ≤ i)
    (hstop : i < stop)
    (hplaces : i + (literal.viewIn (.of input.history input.buffer)
      (.of input.caselessHistory input.buffer)).origin = j + input.history.size) :
    (literal.viewIn (.of input.history input.buffer)
      (.of input.caselessHistory input.buffer)).text[j]? = some byte := by
  have hcased : (View.of input.history input.buffer).text[i]? = some byte := h.run i hstart hstop
  unfold Literal.viewIn at hplaces ⊢
  cases hnocase : literal.nocase with
  | false =>
    simp only [hnocase, Bool.false_eq_true, if_false] at hplaces ⊢
    rw [show j = i from Nat.add_right_cancel hplaces.symm]
    exact hcased
  | true =>
    simp only [hnocase, if_true] at hplaces ⊢
    have hlength := h.stop_le
    rw [length_made] at hlength
    have hin : j < (View.of input.caselessHistory input.buffer).text.size := by
      simp only [View.of, Array.size_append] at hplaces ⊢
      omega
    rw [Array.getElem?_eq_getElem hin, Option.some.injEq]
    exact (hagree.aligned i j byte _ hplaces hcased (Array.getElem?_eq_getElem hin)).symm

/-- Inside a flood, the literals that end at a place are the runs of its byte. -/
theorem endsIn_iff (h : (made table confirm region input).Flood record byte next start stop)
    (hagree : input.HistoriesAgree) (hnext : input.history.size ≤ next) {literal : Literal}
    (hbytes : literal.bytes ≠ []) (hlength : literal.length ≤ record.suffix) {matchEnd : Nat}
    (hplace : next < input.history.size + matchEnd)
    (hstop : input.history.size + matchEnd ≤ stop) :
    literal.EndsIn (.of input.history input.buffer) (.of input.caselessHistory input.buffer)
        matchEnd ↔ literal.isRunOf byte = true := by
  have hstart := h.start_le
  have hsuffix := h.suffix
  rw [Literal.isRunOf_iff hbytes]
  constructor
  · intro hends index hindex
    have hindex' : index < literal.length := hindex
    refine hends.agree hagree.aligned hindex
      (show input.history.size + matchEnd + index - literal.length + literal.length
        = input.history.size + matchEnd + index by omega) ?_
    exact h.run _ (by omega) (by omega)
  · intro hall
    have hsize : literal.bytes.toArray.size = literal.length := rfl
    have horigin := h.size_le_start hnext literal
    refine View.endsWith_of_forall ?_ fun index hindex => ⟨byte, ?_, hall index hindex⟩
    · rw [hsize, View.placeOf]
      omega
    · rw [hsize] at hindex ⊢
      refine h.getElem?_viewIn hagree literal
        (i := input.history.size + matchEnd - literal.length + index) (by omega) (by omega) ?_
      rw [View.placeOf]
      omega

/-- What the record has for a place of the flood is what the reference reports there. -/
theorem ending_eq_idsAt (h : (made table confirm region input).Flood record byte next start stop)
    (hagree : input.HistoriesAgree) (hnext : input.history.size ≤ next) {scheme : Scheme}
    {literals : List Literal} (hbytes : ∀ literal ∈ literals, literal.bytes ≠ [])
    (hlookup : (FloodIndex.of scheme literals).lookup? byte = some record) {place : Nat}
    (hplace : next ≤ place) (hstop : place < stop) (groups : Groups) :
    record.ending (place - start + 1) groups
      = Naive.idsAt literals input (place + 1 - input.history.size) groups := by
  obtain ⟨hlists, hlongest⟩ := FloodIndex.lookup?_of_eq_some hlookup
  have hsuffix (literal : Literal) (hliteral : literal ∈ literals) :
      literal.length ≤ record.suffix :=
    hlongest ▸ FloodIndex.length_le_suffixFor scheme hliteral
  have hstart := h.start_le
  have hbehind := h.suffix
  have hlength := h.stop_le
  rw [length_made] at hlength
  have hend : input.history.size + (place + 1 - input.history.size) = place + 1 := by omega
  have hends (literal : Literal) (hliteral : literal ∈ literals) :
      input.endsAt literal (place + 1 - input.history.size) = true
        ↔ literal.isRunOf byte = true :=
    (ScanInput.endsAt_iff (by omega)).trans
      (h.endsIn_iff hagree hnext (hbytes literal hliteral) (hsuffix literal hliteral)
        (by omega) (by omega))
  refine Naive.eq_idsAt (hlists.sorted.pairwise_ending _ groups) fun id => ?_
  rw [FloodRecord.mem_ending]
  constructor
  · rintro ⟨entry, hentry, rfl, -, hgroups⟩
    obtain ⟨literal, hmem, rfl⟩ := hlists.mem_entries.1 hentry
    obtain ⟨hliteral, hrun⟩ := List.mem_filter.1 hmem
    exact ⟨literal, hliteral, rfl, hgroups, (hends literal hliteral).2 hrun⟩
  · rintro ⟨literal, hliteral, rfl, hgroups, hmatch⟩
    have hrun := (hends literal hliteral).1 hmatch
    have hfits := hsuffix literal hliteral
    have hentry := hlists.mem_entries.2 ⟨literal, List.mem_filter.2 ⟨hliteral, hrun⟩, rfl⟩
    refine ⟨_, hentry, rfl, ?_, hgroups⟩
    show literal.length ≤ place - start + 1
    omega

end Scanner.Flood

end Multimatch
