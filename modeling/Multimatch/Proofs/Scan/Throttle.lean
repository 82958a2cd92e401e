import Multimatch.Proofs.Scan.Exact
import Multimatch.Proofs.Scan.Loaded

/-!
# The flood throttle

Where a scan does not take the flood path, it is told from which place on it is worth asking again,
and until then it does not ask. Whether the flood path is taken at a place can be said without the
walks along the run: where all records ask for the same suffix, as those of a built table do, it is
taken if and only if the suffix up to the place and sixteen bytes from it on are in one run
(`Scanner.takesFlood_iff`). So no flood can be taken among the places that a refusal passes over
(`Scanner.exists_decided`). That holds of the places where a scan does not ask after one step
(`Scanner.Throttled.of_step`) and so throughout a run (`Scanner.Reaches.throttled`), and a scan
takes every flood that it comes to (`LiteralTable.floodThrottle_exact`).
-/

namespace Multimatch

/-! ## Runs of a text -/

/-- There is only this byte from one place up to another. -/
def Bytes.IsRun (text : Bytes) (byte : UInt8) (start stop : Nat) : Prop :=
  ∀ place, start ≤ place → place < stop → text[place]? = some byte

namespace Bytes.IsRun

variable {text : Bytes} {byte : UInt8} {start stop : Nat}

theorem mono (h : text.IsRun byte start stop) {start' stop' : Nat} (hstart : start ≤ start')
    (hstop : stop' ≤ stop) : text.IsRun byte start' stop' :=
  fun place hle hlt => h place (Nat.le_trans hstart hle) (Nat.lt_of_lt_of_le hlt hstop)

theorem append {middle : Nat} (hfirst : text.IsRun byte start middle)
    (hsecond : text.IsRun byte middle stop) : text.IsRun byte start stop := fun place hle hlt =>
  (Nat.lt_or_ge place middle).elim (hfirst place hle) fun hge => hsecond place hge hlt

theorem single (h : text[start]? = some byte) : text.IsRun byte start (start + 1) :=
  fun place hle hlt => by rwa [show place = start by omega]

theorem le_size (h : text.IsRun byte start stop) (hlt : start < stop) : stop ≤ text.size := by
  obtain ⟨hin, -⟩ := Array.getElem?_eq_some_iff.1 (h (stop - 1) (by omega) (by omega))
  omega

/-- What is at a place of a run is its byte. -/
theorem byte_eq {other : UInt8} {place : Nat} (h : text.IsRun byte start stop)
    (hstart : start ≤ place) (hstop : place < stop) (hplace : text[place]? = some other) :
    byte = other :=
  Option.some.inj ((h place hstart hstop).symm.trans hplace)

end Bytes.IsRun

namespace Scanner

variable {scanner : Scanner} {byte : UInt8}

/-- No byte before the reach of both histories is looked at. -/
theorem runStart_of_le_reach {place : Nat} (h : place ≤ scanner.reach) :
    scanner.runStart byte place = place := by
  cases place with
  | zero => rfl
  | succ place => rw [runStart, if_neg fun hmore => Nat.not_lt.2 h hmore.1]

/-- The walk back finds the longest run that both histories reach. -/
theorem runStart_le_iff {start place : Nat} (hreach : scanner.reach ≤ start)
    (hle : start ≤ place) :
    scanner.runStart byte place ≤ start ↔ scanner.cased.text.IsRun byte start place := by
  refine ⟨fun h i hstart => getElem?_of_runStart (Nat.le_trans h hstart), fun hrun => ?_⟩
  induction place with
  | zero => exact Nat.zero_le _
  | succ place ih =>
    rcases Nat.eq_or_lt_of_le hle with rfl | hlt
    · exact runStart_le _
    · rw [runStart, if_pos ⟨by omega, hrun place (by omega) (Nat.lt_succ_self _)⟩]
      exact ih (Nat.le_of_lt_succ hlt) (hrun.mono (Nat.le_refl _) (Nat.le_succ _))

theorem isRun_runStop (count place : Nat) :
    scanner.cased.text.IsRun byte place (scanner.runStop byte count place) :=
  fun _ => getElem?_of_runStop

/-- The walk ahead finds the longest run within its count. -/
theorem le_runStop_iff {count place stop : Nat} (hle : place ≤ stop)
    (hcount : stop ≤ place + count) :
    stop ≤ scanner.runStop byte count place ↔ scanner.cased.text.IsRun byte place stop := by
  refine ⟨fun h => (isRun_runStop count place).mono (Nat.le_refl _) h, fun hrun => ?_⟩
  induction count generalizing place with
  | zero => exact hcount
  | succ count ih =>
    rcases Nat.eq_or_lt_of_le hle with rfl | hlt
    · exact le_runStop ..
    · rw [runStop, if_pos (hrun place (Nat.le_refl _) hlt)]
      exact ih hlt (by omega) (hrun.mono (Nat.le_succ _) (Nat.le_refl _))

/-- A run that starts at a place is no longer than what the walk ahead from there finds. -/
theorem le_runStop_of_isRun {place stop : Nat} (hlt : place < stop)
    (hrun : scanner.cased.text.IsRun byte place stop) :
    stop ≤ scanner.runStop byte (scanner.length - place) place := by
  have hsize : stop ≤ scanner.length := hrun.le_size hlt
  exact (le_runStop_iff (Nat.le_of_lt hlt) (by omega)).2 hrun

/-- The walk back ends where the run does or at the reach of both histories. -/
theorem getElem?_runStart_ne {place : Nat} (h : scanner.reach < scanner.runStart byte place) :
    scanner.cased.text[scanner.runStart byte place - 1]? ≠ some byte := by
  intro hbefore
  have hle := @runStart_le scanner byte place
  have hfirst := Bytes.IsRun.single hbefore
  rw [Nat.sub_add_cancel (Nat.zero_lt_of_lt h)] at hfirst
  have hrun := hfirst.append ((runStart_le_iff (Nat.le_of_lt h) hle).1 (Nat.le_refl _))
  have hfound := (runStart_le_iff (Nat.le_sub_one_of_lt h) (by omega)).2 hrun
  omega

/-- The walk ahead ends where the run does. -/
theorem getElem?_runStop_ne (place : Nat) :
    scanner.cased.text[scanner.runStop byte (scanner.length - place) place]? ≠ some byte := by
  intro hnext
  have hle := @le_runStop scanner byte (scanner.length - place) place
  have hrun := (isRun_runStop (scanner.length - place) place).append (.single hnext)
  have hfound := le_runStop_of_isRun (Nat.lt_succ_of_le hle) hrun
  omega

/-! ## Where the flood path is taken -/

/-- The flood path is taken at a place that a scan asks about. -/
def TakesFlood (scanner : Scanner) (place : Nat) : Prop :=
  ∃ record start stop, scanner.floodAt place = .ok (.take record start stop)

/-- Every byte has an answer about floods, and all records ask for the same suffix, which is more
than the byte at a place. -/
structure SharesSuffix (scanner : Scanner) (suffix : Nat) : Prop where
  exists_record? : ∀ byte, ∃ record?, scanner.flood.record? byte = .ok record?
  suffix_eq : ∀ {byte record}, scanner.flood.record? byte = .ok (some record) →
    record.suffix = suffix
  one_lt : 1 < suffix

/-- Outside the text there is no decision to take the flood path. -/
theorem TakesFlood.exists_byte {place : Nat} (h : scanner.TakesFlood place) :
    ∃ byte, scanner.cased.text[place]? = some byte := by
  obtain ⟨record, start, stop, h⟩ := h
  cases hbyte : scanner.cased.text[place]? with
  | some byte => exact ⟨byte, rfl⟩
  | none =>
    simp only [floodAt, Bytes.byteAt, hbyte, bind, Except.bind] at h
    cases h

/-- For a byte that has a record, the flood path is taken if the run around the place is long enough
on both sides. -/
theorem takesFlood_of_some {record : FloodRecord} {place : Nat}
    (hbyte : scanner.cased.text[place]? = some byte)
    (hrecord : scanner.flood.record? byte = .ok (some record)) :
    scanner.TakesFlood place ↔ record.suffix ≤ place - scanner.runStart byte place + 1
      ∧ place + 16 ≤ scanner.runStop byte (scanner.length - place) place := by
  have hahead : scanner.runStop byte (scanner.length - place) place - place < minAhead
      ↔ scanner.runStop byte (scanner.length - place) place < place + 16 := by
    have := @le_runStop scanner byte (scanner.length - place) place
    unfold minAhead
    omega
  simp only [TakesFlood, floodAt_of_some hbyte hrecord, ← Nat.not_lt, ← hahead]
  split
  · next hshort => exact iff_of_false (fun ⟨_, _, _, h⟩ => nomatch h) fun h => h.1 hshort
  · next hsuffix =>
    split
    · next hshort => exact iff_of_false (fun ⟨_, _, _, h⟩ => nomatch h) fun h => h.2 hshort
    · next hlong => exact iff_of_true ⟨_, _, _, rfl⟩ ⟨hsuffix, hlong⟩

/-- What a decision about a place has to keep to. A refusal names a later place, and the flood path
is taken nowhere before that. A flood that is taken is one, and it is the whole run, as far back as
both histories reach. -/
def Decided (scanner : Scanner) (place : Nat) : FloodDecision → Prop
  | .skip resume =>
    place < resume ∧ ∀ later, place ≤ later → later < resume → ¬ scanner.TakesFlood later
  | .take record start stop => ∃ byte, scanner.Flood record byte place start stop
    ∧ scanner.cased.text[stop]? ≠ some byte
    ∧ (scanner.reach < start → scanner.cased.text[start - 1]? ≠ some byte)

section Decisions

variable {suffix : Nat} (hsame : scanner.SharesSuffix suffix)
include hsame

/-- The flood path is taken where a run that both histories reach has the suffix behind the place,
and goes on for sixteen bytes from there, and nowhere else. -/
theorem takesFlood_iff {place : Nat} : scanner.TakesFlood place ↔ ∃ byte record start,
    scanner.flood.record? byte = .ok (some record) ∧ scanner.reach ≤ start
      ∧ start + record.suffix = place + 1
      ∧ scanner.cased.text.IsRun byte start (place + 16) := by
  have hone := hsame.one_lt
  constructor
  · intro htakes
    obtain ⟨byte, hbyte⟩ := htakes.exists_byte
    obtain ⟨record?, hrecord⟩ := hsame.exists_record? byte
    cases record? with
    | none =>
      obtain ⟨record, start, stop, htake⟩ := htakes
      rw [floodAt_of_none hbyte hrecord] at htake
      cases htake
    | some record =>
      obtain ⟨hbehind, hahead⟩ := (takesFlood_of_some hbyte hrecord).1 htakes
      have hsuffix := hsame.suffix_eq hrecord
      have hle := @runStart_le scanner byte place
      -- A place that the histories do not both reach has nothing but its own byte behind it.
      have hreach : scanner.reach ≤ place := Nat.not_lt.1 fun hlt => by
        rw [runStart_of_le_reach (Nat.le_of_lt hlt)] at hbehind
        omega
      have hstart := @reach_le_runStart scanner byte place hreach
      refine ⟨byte, record, place + 1 - suffix, hrecord, by omega, by omega, ?_⟩
      refine .append ((runStart_le_iff (by omega) (by omega)).1 (by omega))
        ((le_runStop_iff (Nat.le_add_right ..) ?_).1 hahead)
      have hstop := @runStop_le scanner byte (scanner.length - place) place
      omega
  · rintro ⟨byte, record, start, hrecord, hreach, hstart, hrun⟩
    have hsuffix := hsame.suffix_eq hrecord
    have hbehind := (runStart_le_iff hreach (show start ≤ place by omega)).2
      (hrun.mono (Nat.le_refl _) (Nat.le_add_right ..))
    have hahead := le_runStop_of_isRun (show place < place + 16 by omega)
      (hrun.mono (by omega) (Nat.le_refl _))
    exact (takesFlood_of_some (hrun place (by omega) (by omega)) hrecord).2 ⟨by omega, hahead⟩

/-! ## What a refusal passes over -/

/-- Where the run behind is too short, no flood can be taken until it has become long enough: a run
of another byte starts later, and asks for as much. -/
theorem not_takesFlood_of_behind {place later : Nat}
    (hbyte : scanner.cased.text[place]? = some byte) (hle : place ≤ later)
    (hlater : later < scanner.runStart byte place + suffix - 1) : ¬ scanner.TakesFlood later := by
  intro htakes
  obtain ⟨other, record, start, hrecord, hreach, hstart, hrun⟩ := (takesFlood_iff hsame).1 htakes
  have hsuffix := hsame.suffix_eq hrecord
  have hplace := @runStart_le scanner byte place
  obtain rfl : other = byte := hrun.byte_eq (show start ≤ place by omega) (by omega) hbyte
  have hfirst := (runStart_le_iff hreach (show start ≤ place by omega)).2
    (hrun.mono (Nat.le_refl _) (by omega))
  omega

/-- Where too little of the run is left, no flood can be taken before its end: what is left gets
less. -/
theorem not_takesFlood_of_ahead {place later : Nat}
    (hshort : scanner.runStop byte (scanner.length - place) place < place + 16)
    (hle : place ≤ later)
    (hlater : later < scanner.runStop byte (scanner.length - place) place) :
    ¬ scanner.TakesFlood later := by
  intro htakes
  obtain ⟨other, record, start, hrecord, hreach, hstart, hrun⟩ := (takesFlood_iff hsame).1 htakes
  have hone := hsame.one_lt
  have hsuffix := hsame.suffix_eq hrecord
  have hbefore := @isRun_runStop scanner byte (scanner.length - place) place
  obtain rfl : other = byte :=
    hrun.byte_eq (show start ≤ later by omega) (by omega) (hbefore later hle hlater)
  have hstop := le_runStop_of_isRun (show place < later + 16 by omega)
    (hbefore.append (hrun.mono (by omega) (Nat.le_refl _)))
  omega

/-- Every decision keeps to that. -/
theorem exists_decided {place : Nat} (hplace : place < scanner.length) :
    ∃ decision, scanner.floodAt place = .ok decision ∧ scanner.Decided place decision := by
  obtain ⟨decision, hdecision, hfloods⟩ := floodAt_eq_ok hsame.exists_record? hplace
  refine ⟨decision, hdecision, ?_⟩
  have hbyte : scanner.cased.text[place]? = some scanner.cased.text[place] :=
    Array.getElem?_eq_getElem hplace
  generalize scanner.cased.text[place] = byte at hbyte
  obtain ⟨record?, hrecord⟩ := hsame.exists_record? byte
  cases record? with
  | none =>
    cases hdecision.symm.trans (floodAt_of_none hbyte hrecord)
    refine ⟨Nat.lt_succ_self _, fun later hle hlater => ?_⟩
    obtain rfl : later = place := by omega
    rintro ⟨record, start, stop, htake⟩
    cases hdecision.symm.trans htake
  | some record =>
    have hsuffix := hsame.suffix_eq hrecord
    have hstart := @runStart_le scanner byte place
    have hfound := hdecision.symm.trans (floodAt_of_some hbyte hrecord)
    split at hfound
    · next hbehind =>
      cases hfound
      exact ⟨by omega, fun later hle hlater =>
        not_takesFlood_of_behind hsame hbyte hle (by omega)⟩
    · split at hfound
      · next hahead =>
        cases hfound
        have hstop := le_runStop_of_isRun (Nat.lt_succ_self _) (Bytes.IsRun.single hbyte)
        unfold minAhead at hahead
        exact ⟨hstop, fun later hle hlater =>
          not_takesFlood_of_ahead hsame (by omega) hle hlater⟩
      · cases hfound
        obtain ⟨byte', hflood⟩ := hfloods _ _ _ rfl
        obtain rfl : byte' = byte := Bytes.IsRun.byte_eq hflood.run hstart hflood.lt_stop hbyte
        exact ⟨byte', hflood, getElem?_runStop_ne place, getElem?_runStart_ne⟩

end Decisions

/-! ## Steps -/

/-- Where a scan does not ask, the flood path would not be taken. -/
def Throttled (scanner : Scanner) (cursor : ScanCursor) : Prop :=
  ∀ place, cursor.next ≤ place → place < cursor.noFloodUntil → ¬ scanner.TakesFlood place

/-- Follows a flood from a cursor to its end. -/
def floodStep {σ : Type} (scanner : Scanner) (sink : Sink σ) (record : FloodRecord)
    (start stop : Nat) (cursor : ScanCursor) : EStateM Fault σ (Control × ScanCursor) := do
  let control ← scanner.reportFlood sink record start (stop - cursor.next) cursor.next
  return (control, { cursor with state := 0, next := stop })

/-- A step visits the places from one cursor up to the next one, whatever the sink does: only the
sink can end it. -/
structure Moves (scanner : Scanner) (cursor cursor' : ScanCursor) : Prop where
  lt : cursor.next < cursor'.next
  step_eq : ∃ found : Nat → Groups → List LiteralId, ∀ (σ : Type) (sink : Sink σ),
    scanner.step sink cursor = do
      let control ← Control.visitAll (scanner.announce sink found)
        (List.range' cursor.next (min cursor'.next scanner.length - cursor.next))
      return (control, cursor')

theorem Sound.exists_moves {Inv : Nat → Nat → Prop} {Reports : Nat → Groups → List LiteralId → Prop}
    (h : scanner.Sound Inv Reports) {cursor : ScanCursor} (hinv : Inv cursor.state cursor.next)
    (hnext : cursor.next < scanner.length) : ∃ cursor', scanner.Moves cursor cursor' := by
  obtain ⟨cursor', found, hlt, -, -, hstep⟩ := h.step_eq hinv hnext
  exact ⟨cursor', hlt, found, hstep⟩

section Steps

variable {σ : Type} {sink : Sink σ} {cursor cursor' : ScanCursor} {s s' : σ} {control : Control}

theorem of_probeStep (h : scanner.probeStep sink cursor s = .ok (control, cursor') s') :
    cursor.next ≤ cursor'.next ∧ cursor'.noFloodUntil = cursor.noFloodUntil := by
  obtain ⟨word, middle, -, h⟩ := EStateM.exists_of_bind_eq_ok h
  obtain ⟨control', s'', -, hpure⟩ := EStateM.exists_of_bind_eq_ok h
  cases hpure
  exact ⟨by dsimp only; omega, rfl⟩

theorem of_floodStep {record : FloodRecord} {start stop : Nat}
    (h : scanner.floodStep sink record start stop cursor s = .ok (control, cursor') s') :
    cursor'.next = stop ∧ cursor'.noFloodUntil = cursor.noFloodUntil := by
  obtain ⟨control', s'', -, hpure⟩ := EStateM.exists_of_bind_eq_ok h
  cases hpure
  exact ⟨rfl, rfl⟩

namespace Throttled

theorem of_le (h : scanner.Throttled cursor) (hle : cursor.next ≤ cursor'.next)
    (huntil : cursor'.noFloodUntil = cursor.noFloodUntil) : scanner.Throttled cursor' :=
  fun place hplace hlt => h place (Nat.le_trans hle hplace) (huntil ▸ hlt)

variable {suffix : Nat} (hsame : scanner.SharesSuffix suffix) (h : scanner.Throttled cursor)
  (hnext : cursor.next < scanner.length)
include hsame h hnext

/-- Where floods count, a step follows the flood if there is one, and makes a probe otherwise. -/
theorem step_cases (hfrom : scanner.floodFrom ≤ cursor.next) :
    (∃ record start stop, scanner.floodAt cursor.next = .ok (.take record start stop)
        ∧ cursor.next < stop
        ∧ ∀ (σ : Type) (sink : Sink σ),
          scanner.step sink cursor = scanner.floodStep sink record start stop cursor)
      ∨ ¬ scanner.TakesFlood cursor.next
        ∧ ∃ resume, scanner.Throttled { cursor with noFloodUntil := resume }
          ∧ ∀ (σ : Type) (sink : Sink σ),
            scanner.step sink cursor
              = scanner.probeStep sink { cursor with noFloodUntil := resume } := by
  by_cases hask : cursor.noFloodUntil ≤ cursor.next
  · obtain ⟨decision, hdecision, hdecided⟩ := exists_decided hsame hnext
    cases decision with
    | skip resume =>
      obtain ⟨hlt, hnone⟩ := hdecided
      refine .inr ⟨hnone _ (Nat.le_refl _) hlt, resume, hnone, fun σ sink => ?_⟩
      rw [step, if_pos ⟨hfrom, hask⟩, hdecision, EStateM.liftM_ok, pure_bind]
    | take record start stop =>
      obtain ⟨byte, hflood, -, -⟩ := hdecided
      refine .inl ⟨record, start, stop, hdecision, hflood.lt_stop, fun σ sink => ?_⟩
      rw [step, if_pos ⟨hfrom, hask⟩, hdecision, EStateM.liftM_ok, pure_bind]
      rfl
  · refine .inr ⟨h _ (Nat.le_refl _) (Nat.not_le.1 hask), _, h, fun σ sink => ?_⟩
    rw [step, if_neg fun hboth => hask hboth.2]

/-- A step does not put off asking for too long. -/
theorem of_step (hstep : scanner.step sink cursor s = .ok (control, cursor') s') :
    scanner.Throttled cursor' := by
  by_cases hfrom : scanner.floodFrom ≤ cursor.next
  · rcases h.step_cases hsame hnext hfrom with
      ⟨record, start, stop, -, hlt, hfollows⟩ | ⟨-, resume, hresume, hprobes⟩
    · rw [hfollows] at hstep
      obtain ⟨hstop, huntil⟩ := of_floodStep hstep
      exact h.of_le (hstop ▸ Nat.le_of_lt hlt) huntil
    · rw [hprobes] at hstep
      obtain ⟨hle, huntil⟩ := of_probeStep hstep
      exact hresume.of_le hle huntil
  · rw [step, if_neg fun hboth => hfrom hboth.1] at hstep
    obtain ⟨hle, huntil⟩ := of_probeStep hstep
    exact h.of_le hle huntil

end Throttled

end Steps

/-! ## Runs of the scanner -/

section Reached

variable {σ : Type} {sink : Sink σ} {first cursor : ScanCursor} {s s' : σ}

/-- From a cursor and a state of the sink on, a run comes to others: by steps after which it goes
on. -/
inductive Reaches (scanner : Scanner) (sink : Sink σ) (first : ScanCursor) (s : σ) :
    ScanCursor → σ → Prop where
  | start : Reaches scanner sink first s first s
  | step {cursor cursor' : ScanCursor} {middle s' : σ}
      (reached : Reaches scanner sink first s cursor middle) (more : cursor.next < scanner.length)
      (went : scanner.step sink cursor middle = .ok (.proceed, cursor') s') :
      Reaches scanner sink first s cursor' s'

namespace Reaches

theorem throttled {suffix : Nat} (hsame : scanner.SharesSuffix suffix)
    (hfirst : scanner.Throttled first) (h : scanner.Reaches sink first s cursor s') :
    scanner.Throttled cursor := by
  induction h with
  | start => exact hfirst
  | step _ more went ih => exact ih.of_step hsame more went

/-- Where a run comes to, it goes on as a run from there. -/
theorem exists_run_eq (h : scanner.Reaches sink first s cursor s') :
    ∃ count, ∀ steps,
      scanner.run sink (count + steps) first s = scanner.run sink steps cursor s' := by
  induction h with
  | start => exact ⟨0, fun steps => by rw [Nat.zero_add]⟩
  | @step cursor cursor' middle s' _ more went ih =>
    obtain ⟨count, hrun⟩ := ih
    refine ⟨count + 1, fun steps => ?_⟩
    rw [Nat.add_assoc, Nat.add_comm 1 steps, hrun, run, if_neg (Nat.not_le.2 more)]
    simp only [bind, EStateM.bind, went]

end Reaches

end Reached

end Scanner

/-! ## Built tables -/

/-- A table that was laid out can be scanned with as if it had been loaded. -/
theorem Contents.Fits.loaded {contents : Contents} (h : contents.Fits) :
    (LiteralTable.ofContents contents).Loaded := by
  have hheader := (Header.validate_ensures contents.header contents.bodyLength).of_ok h.validate_eq
  rw [← h.size_arena] at hheader
  exact ⟨hheader.1, ⟨_, _, h.confirmRegion_eq, h.confirm_lists_eq, h.confirm_length⟩,
    _, h.floodRegion_eq, fun byte => ⟨_, h.flood_record?_eq byte⟩⟩

namespace Scanner

variable {scheme : Scheme} {literals : List Literal}
  (hfits : (Contents.ofLiterals scheme literals).Fits) (input : ScanInput)
include hfits

theorem sharesSuffix_builtFor : (builtFor scheme literals input).SharesSuffix
    (FloodIndex.suffixFor scheme literals) := by
  have hone : 1 < scheme.floodSuffix := hfits.scheme.one_lt_floodSuffix
  have hrecord := @record?_builtFor scheme literals input hfits
  refine ⟨fun byte => ⟨_, hrecord byte⟩, fun {byte record} hfound => ?_,
    Nat.lt_of_lt_of_le hone (Nat.le_max_left ..)⟩
  have hlookup := Except.ok.inj ((hrecord byte).symm.trans hfound)
  exact (FloodIndex.lookup?_of_eq_some (Option.filter_eq_some_iff.1 hlookup).1).2

/-- Every step of a scan with a built table has an answer, whatever the histories are. -/
theorem soundSteps_builtFor :
    (builtFor scheme literals input).Sound (fun _ _ => True) fun _ _ _ => True :=
  hfits.loaded.sound_made hfits.confirm_length (sharesSuffix_builtFor hfits input).exists_record?
    input

/-- What is left of a scan where a run comes to is a run from there. Steps that are left over change
nothing, there as little as at the start. -/
theorem scan_eq_run_of_reaches {input : ScanInput} {σ : Type} {sink : Sink σ} {s s' : σ}
    {cursor : ScanCursor}
    (h : (builtFor scheme literals input).Reaches sink (startOf input) s cursor s') {steps : Nat}
    (hsteps : (builtFor scheme literals input).length - cursor.next ≤ steps) :
    (LiteralTable.ofContents (.ofLiterals scheme literals)).scan input sink s
      = (builtFor scheme literals input).run sink steps cursor s' := by
  have hsound := soundSteps_builtFor hfits input
  obtain ⟨found, -, hscan⟩ := hsound.scan_eq (of_eq_builtFor hfits) trivial
  obtain ⟨later, -, hlater⟩ := @Sound.run_eq _ _ _ hsound cursor trivial
  obtain ⟨count, hrun⟩ := h.exists_run_eq
  obtain ⟨hscan, henough⟩ := hscan σ sink
  let more := steps + (input.buffer.size - input.start)
  have hstart := henough (count + more) (by omega)
  have hmore := hlater σ sink more (by omega)
  calc (LiteralTable.ofContents (.ofLiterals scheme literals)).scan input sink s
      = (builtFor scheme literals input).run sink (count + more) (startOf input) s :=
        congrFun (hscan.trans hstart.symm) s
    _ = (builtFor scheme literals input).run sink more cursor s' := hrun more
    _ = (builtFor scheme literals input).run sink steps cursor s' :=
        congrFun (hmore.trans (hlater σ sink steps hsteps).symm) s'

end Scanner

namespace LiteralTable

/-- A flood may be taken at a place of the text: its byte has a record, and there is a run of the
byte, as far back as both histories go, that has the suffix of the record up to the place, and
sixteen bytes from the place on. -/
def FloodsAt (table : LiteralTable) (input : ScanInput) (place : Nat) : Prop :=
  ∃ byte record start, table.floodRecord? byte = .ok (some record)
    ∧ input.history.size - min input.history.size input.caselessHistory.size ≤ start
    ∧ start + record.suffix = place + 1
    ∧ (input.history ++ input.buffer : Bytes).IsRun byte start (place + 16)

/-- The throttle hides no flood. At every place of the text there is a decision: a refusal names a
later place, and the flood path is taken nowhere before that; a flood that is taken has sixteen
bytes ahead and is followed to the end of its run. The flood path is taken exactly where a flood may
be taken. Wherever a scan comes to, what is left of it is a run from there. While there are bytes
left, the next step gets further: before the place from which floods count it makes a probe, and
from there on it follows a flood if one may be taken, and makes a probe otherwise. -/
theorem floodThrottle_exact {options : Options} {literals : List Literal} {table : LiteralTable}
    (hbuild : build options literals = .ok table) (input : ScanInput) :
    ∃ scanner, Scanner.of table input = .ok scanner
      ∧ (∀ place < scanner.length, ∃ decision,
        scanner.floodAt place = .ok decision ∧ scanner.Decided place decision)
      ∧ (∀ place, scanner.TakesFlood place ↔ table.FloodsAt input place)
      ∧ ∀ (σ : Type) (sink : Sink σ) (s s' : σ) (cursor : ScanCursor),
        scanner.Reaches sink (Scanner.startOf input) s cursor s' →
        (∀ steps, scanner.length - cursor.next ≤ steps →
          table.scan input sink s = scanner.run sink steps cursor s')
        ∧ (cursor.next < scanner.length →
          (∃ cursor', scanner.Moves cursor cursor')
          ∧ (cursor.next < input.history.size + input.floodFrom →
            input.history.size + input.floodFrom < Reader.wordLimit →
              scanner.step sink cursor = scanner.probeStep sink cursor)
          ∧ (input.history.size + input.floodFrom ≤ cursor.next →
            (table.FloodsAt input cursor.next → ∃ record start stop,
              scanner.floodAt cursor.next = .ok (.take record start stop)
                ∧ scanner.step sink cursor = scanner.floodStep sink record start stop cursor)
            ∧ (¬ table.FloodsAt input cursor.next → ∃ resume,
              scanner.step sink cursor
                = scanner.probeStep sink { cursor with noFloodUntil := resume }))) := by
  obtain ⟨scheme, -, -, -, hfits, rfl⟩ := of_build hbuild
  have hsame := Scanner.sharesSuffix_builtFor hfits input
  have hsound := Scanner.soundSteps_builtFor hfits input
  have hfloods (place : Nat) : (Scanner.builtFor scheme literals input).TakesFlood place
      ↔ (ofContents (.ofLiterals scheme literals)).FloodsAt input place := by
    rw [Scanner.takesFlood_iff hsame]
    simp only [FloodsAt, floodRecord?, hfits.floodRegion_eq, bind, Except.bind]
    rfl
  refine ⟨_, Scanner.of_eq_builtFor hfits, fun place => Scanner.exists_decided hsame, hfloods,
    fun σ sink s s' cursor hreached => ⟨fun steps => Scanner.scan_eq_run_of_reaches hfits hreached,
      fun hnext => ⟨hsound.exists_moves trivial hnext, fun hbefore hlimit => ?_, fun hfrom => ?_⟩⟩⟩
  · have hfrom : (Scanner.builtFor scheme literals input).floodFrom
        = input.history.size + input.floodFrom := Nat.mod_eq_of_lt hlimit
    rw [Scanner.step, if_neg fun hboth => Nat.not_le.2 hbefore (hfrom ▸ hboth.1)]
  · have hthrottled := hreached.throttled hsame fun _ _ hlt => absurd hlt (Nat.not_lt_zero _)
    have hfrom : (Scanner.builtFor scheme literals input).floodFrom ≤ cursor.next :=
      Nat.le_trans (Nat.mod_le ..) hfrom
    rw [← hfloods]
    rcases hthrottled.step_cases hsame hnext hfrom with
      ⟨record, start, stop, htake, -, hfollows⟩ | ⟨hnone, resume, -, hprobes⟩
    · exact ⟨fun _ => ⟨record, start, stop, htake, hfollows σ sink⟩,
        fun hnone => absurd ⟨record, start, stop, htake⟩ hnone⟩
    · exact ⟨fun htakes => absurd htakes hnone, fun _ => ⟨resume, hprobes σ sink⟩⟩

/-- The shortest flood: with the history, five bytes of the run are behind its first place in the
buffer, and sixteen are ahead. -/
theorem floodThrottle_exact_shortest :
    let options : Options := { scheme? := some (some 0), domain? := some (some 9) }
    let literals : List Literal := [{ id := .wrap 7, bytes := [97] }]
    let input : ScanInput :=
      { buffer := .replicate 16 97, history := .replicate 4 97, caselessHistory := .replicate 4 97 }
    ∃ table scanner record, build options literals = .ok table
      ∧ Scanner.of table input = .ok scanner ∧ table.FloodsAt input 4
      ∧ ∀ (σ : Type) (sink : Sink σ) (s : σ),
        scanner.step sink (Scanner.startOf input) s
          = scanner.floodStep sink record 0 20 (Scanner.startOf input) s := by
  intro options literals input
  let scheme : Scheme := ⟨0, 32, 8, 1, .none, 0, 0, 9⟩
  have hfor : options.schemeFor literals = .ok scheme := by decide +kernel
  have hsize : (Contents.ofLiterals scheme literals).bodyLength ≤ maxSize := by decide +kernel
  have hbuild := build_of_schemeFor hfor hsize
  have hfits := fits_of_schemeFor hfor hsize
  obtain ⟨scanner, hof, hdecided, hfloods, hreached⟩ := floodThrottle_exact hbuild input
  obtain rfl := Except.ok.inj (hof.symm.trans (Scanner.of_eq_builtFor hfits))
  have hrecord := hfits.floodRecord?_eq 97
  rw [Contents.flood_ofLiterals] at hrecord
  obtain ⟨record, hsome⟩ := Option.isSome_iff_exists.1
    ((@FloodIndex.isSome_filter_lookup?_iff scheme literals 97).2 (by decide))
  rw [hsome] at hrecord
  have hsuffix := (FloodIndex.lookup?_of_eq_some (Option.filter_eq_some_iff.1 hsome).1).2
  have htext : (input.history ++ input.buffer : Bytes).IsRun 97 0 20 := fun place _ hlt => by
    simp only [input, Array.replicate_append_replicate, Array.getElem?_replicate]
    exact if_pos hlt
  have hhere : (ofContents (.ofLiterals scheme literals)).FloodsAt input 4 :=
    ⟨97, record, 0, hrecord, Nat.zero_le _, by rw [hsuffix]; decide, htext⟩
  obtain ⟨found, start, stop, htake⟩ := (hfloods 4).2 hhere
  have hlength : (Scanner.builtFor scheme literals input).length = 20 := Scanner.length_made
  have hnext : 4 < (Scanner.builtFor scheme literals input).length := by
    rw [hlength]
    decide
  obtain ⟨decision, hdecision, hkeeps⟩ := hdecided 4 hnext
  cases hdecision.symm.trans htake
  obtain ⟨byte, hflood, hstop, hstart⟩ := hkeeps
  obtain rfl : byte = 97 := Option.some.inj
    ((hflood.run 4 hflood.start_le hflood.lt_stop).symm.trans (htext 4 (by decide) (by decide)))
  obtain rfl : stop = 20 := Nat.le_antisymm (hlength ▸ hflood.stop_le) <|
    Nat.not_lt.1 fun hlt => hstop (htext stop (Nat.zero_le _) hlt)
  obtain rfl : start = 0 := Nat.eq_zero_of_not_pos fun hpos => by
    have hle := hflood.start_le
    exact hstart hpos (htext (start - 1) (Nat.zero_le _) (by omega))
  refine ⟨_, _, found, hbuild, hof, hhere, fun σ sink s => ?_⟩
  obtain ⟨-, hstep⟩ := hreached σ sink s s (Scanner.startOf input) .start
  obtain ⟨-, -, hfrom⟩ := hstep hnext
  obtain ⟨record', start', stop', htake', hfollows⟩ := (hfrom (Nat.le_refl 4)).1 hhere
  cases htake.symm.trans htake'
  rw [hfollows]

end LiteralTable

end Multimatch
