import Multimatch.Proofs.Scan.ClearBits
import Multimatch.Proofs.Scan.Flood

/-!
# A scan is exact

The state of a scan never rules out a match that is still to be reported. Bit `behind` positions
below the top of a bucket stands for the ends that the probe which is `behind / stride` strides
ahead will report `behind % stride` bytes before it; `Scanner.Admits` says that it is clear if a
literal of the bucket ends there. A probe preserves this, because the word of its key is clear
wherever a literal over the probed bytes needs it (`Scanner.probeWord_eq`), and a flood starts it
anew.
-/

namespace Multimatch

/-! ## Words -/

namespace Primary

/-- A probe sees the byte of a literal that the position looks at. -/
theorem lookedAt_eq {scheme : Scheme} {behind probe stop : Nat} (length : Nat)
    (hbehind : behind < scheme.bucketWidth)
    (hstop : stop + behind % scheme.stride = probe + 1 + behind / scheme.stride * scheme.stride) :
    lookedAt scheme length (scheme.bucketWidth - 1 - behind) = (probe + length : Nat) - stop := by
  have hback : scheme.bucketWidth - 1 - (scheme.bucketWidth - 1 - behind) = behind := by omega
  simp only [lookedAt, hback]
  omega

end Primary

namespace Scanner

/-- The scanner of an input for the table of literals. -/
def builtFor (scheme : Scheme) (literals : List Literal) (input : ScanInput) : Scanner :=
  let contents := Contents.ofLiterals scheme literals
  made (.ofContents contents) contents.confirm ⟨(contents.flood.encode .native).toArray⟩ input

variable {scheme : Scheme} {literals : List Literal} {input : ScanInput}

/-- A literal of a bucket ends at an end of the buffer. -/
def EndsInBucket (scheme : Scheme) (literals : List Literal) (input : ScanInput)
    (bucket matchEnd : Nat) (literal : Literal) : Prop :=
  (∃ members, (Buckets.assign scheme literals)[bucket]? = some members ∧ literal ∈ members)
    ∧ literal.EndsIn (.of input.history input.buffer) (.of input.caselessHistory input.buffer)
      matchEnd

theorem of_eq_builtFor (hfits : (Contents.ofLiterals scheme literals).Fits) :
    Scanner.of (.ofContents (.ofLiterals scheme literals)) input
      = .ok (builtFor scheme literals input) :=
  of_eq_made hfits.confirmRegion_eq hfits.confirm_lists_eq hfits.floodRegion_eq

/-- The scanner finds the records that were made for the literals. -/
theorem record?_builtFor (hfits : (Contents.ofLiterals scheme literals).Fits) (byte : UInt8) :
    (builtFor scheme literals input).flood.record? byte
      = .ok (((FloodIndex.of scheme literals).lookup? byte).filter (·.IdsValid)) := by
  rw [← Contents.flood_ofLiterals scheme literals]
  exact hfits.flood_record?_eq byte

/-- The word of the two bytes at a probe is clear wherever a literal that ends close enough to it
needs that. -/
theorem testBit_probed (hscheme : scheme.IsKnown) (hagree : input.HistoriesAgree) {probe : Nat}
    (hprobe : probe ≠ 0) {first second : UInt8}
    (hfirst : (View.of input.history input.buffer).text[probe - 1]? = some first)
    (hsecond : (View.of input.history input.buffer).text[probe]? = some second)
    (hkey : Primary.keyOf scheme first second
      < (Primary.words scheme (Buckets.assign scheme literals)).length)
    {bucket matchEnd : Nat} {literal : Literal}
    (h : EndsInBucket scheme literals input bucket matchEnd literal) {behind : Nat}
    (hbehind : behind < scheme.bucketWidth)
    (hplace : input.history.size + matchEnd + behind % scheme.stride
      = probe + 1 + behind / scheme.stride * scheme.stride) :
    ((Primary.words scheme (Buckets.assign scheme literals))[
        Primary.keyOf scheme first second]).testBit
      (scheme.bitAt bucket (scheme.bucketWidth - 1 - behind)) = false := by
  obtain ⟨⟨members, hmembers, hliteral⟩, hends⟩ := h
  obtain ⟨hbucket, rfl⟩ := List.getElem?_eq_some_iff.1 hmembers
  have hlength := Buckets.length_assign scheme literals
  refine (Primary.testBit_words_eq_false_iff hscheme (Nat.le_of_eq hlength) hkey (hlength ▸ hbucket)
    (by omega)).2 ⟨literal, Primary.mem_getD.2 ⟨hbucket, hliteral⟩, ?_⟩
  have hlooked := Primary.lookedAt_eq literal.length hbehind hplace
  by_cases hin : input.history.size + matchEnd ≤ probe + literal.length
      ∧ probe < input.history.size + matchEnd
  · obtain ⟨index, hat⟩ := Nat.exists_eq_add_of_le hin.1
    have hindex : index < literal.bytes.length := show index < literal.length by omega
    refine .inr ⟨index, by omega, second, hends.mem_variantsAt hagree.aligned hindex hat hsecond,
      first, fun hpos => ?_, (Primary.keyOf_eq scheme first second).symm⟩
    have hat' : probe - 1 + literal.length = input.history.size + matchEnd + (index - 1) := by
      omega
    have hindex' : index - 1 < literal.bytes.length := Nat.lt_of_le_of_lt (Nat.sub_le ..) hindex
    exact hends.mem_variantsAt hagree.aligned hindex' hat' hfirst
  · exact .inl (by omega)

/-- The word for a probe is clear wherever a literal that ends close enough to it needs that. -/
theorem probeWord_eq (hfits : (Contents.ofLiterals scheme literals).Fits)
    (hagree : input.HistoriesAgree) (probe : Nat) :
    ∃ word, (builtFor scheme literals input).probeWord probe = .ok word
      ∧ ∀ bucket matchEnd literal, EndsInBucket scheme literals input bucket matchEnd literal →
        ∀ behind < scheme.bucketWidth,
          input.history.size + matchEnd + behind % scheme.stride
            = probe + 1 + behind / scheme.stride * scheme.stride →
          word.testBit (scheme.bitAt bucket (scheme.bucketWidth - 1 - behind)) = false := by
  by_cases hnone : (builtFor scheme literals input).length ≤ probe ∨ probe = 0
  · exact ⟨0, if_pos hnone, fun _ _ _ _ _ _ _ => Nat.zero_testBit _⟩
  · obtain ⟨hlength, hpos⟩ := not_or.1 hnone
    obtain ⟨first, second, hfirst, hsecond, hprobe⟩ :=
      probeWord_of_lt (Nat.not_le.1 hlength) hpos
    have hentries : 512 ≤ scheme.entries := hfits.scheme.entries_pos
    have hkey : Primary.keyOf scheme first second
        < (Primary.words scheme (Buckets.assign scheme literals)).length := by
      have hle : Primary.keyOf scheme first second ≤ scheme.entries - 1 := Nat.and_le_right
      rw [Primary.length_words]
      omega
    refine ⟨_, hprobe.trans (hfits.wordAt_eq hkey), fun bucket matchEnd literal hends => ?_⟩
    intro behind hbehind hplace
    exact testBit_probed hfits.scheme hagree hpos hfirst hsecond hkey hends hbehind hplace

/-! ## The state -/

/-- The state rules out no match that ends at `next` or after it. -/
def Admits (scheme : Scheme) (literals : List Literal) (input : ScanInput) (state next : Nat) :
    Prop :=
  input.history.size ≤ next ∧ ∀ bucket matchEnd literal,
    EndsInBucket scheme literals input bucket matchEnd literal →
      ∀ behind < scheme.bucketWidth,
        input.history.size + matchEnd + behind % scheme.stride
          = next + behind / scheme.stride * scheme.stride →
        state.testBit (scheme.bitAt bucket (scheme.bucketWidth - 1 - behind)) = false

theorem admits_zero {next : Nat} (h : input.history.size ≤ next) :
    Admits scheme literals input 0 next :=
  ⟨h, fun _ _ _ _ _ _ _ => Nat.zero_testBit _⟩

/-- A probe keeps every match possible. -/
theorem Admits.shift (hfits : (Contents.ofLiterals scheme literals).Fits)
    (hagree : input.HistoriesAgree) {state next : Nat}
    (h : Admits scheme literals input state next) :
    ∃ word, (builtFor scheme literals input).probeWord (next + scheme.stride - 1) = .ok word
      ∧ Admits scheme literals input ((builtFor scheme literals input).shift state word)
        (next + scheme.stride) := by
  obtain ⟨hnext, hstate⟩ := h
  have hstride : 0 < scheme.stride := hfits.scheme.stride_pos
  have hprobe : next + scheme.stride - 1 + 1 = next + scheme.stride := by omega
  obtain ⟨word, hword, hclear⟩ := probeWord_eq hfits hagree (next + scheme.stride - 1)
  rw [hprobe] at hclear
  refine ⟨word, hword, by omega, fun bucket matchEnd literal hends behind hbehind hplace => ?_⟩
  have hbucket : bucket < scheme.buckets := by
    obtain ⟨⟨members, hmembers, -⟩, -⟩ := hends
    rw [← Buckets.length_assign scheme literals]
    exact (List.getElem?_eq_some_iff.1 hmembers).1
  have hbit := @testBit_shift (builtFor scheme literals input) hfits.scheme state word bucket
    (scheme.bucketWidth - 1 - behind) hbucket (show _ < scheme.bucketWidth by omega)
  refine hbit.trans (Bool.or_eq_false_iff.2
    ⟨?_, hclear bucket matchEnd literal hends behind hbehind hplace⟩)
  rw [Bool.and_eq_false_imp]
  intro hstays
  have hstays : scheme.stride ≤ scheme.bucketWidth - 1 - behind := of_decide_eq_true hstays
  -- The bit came from a stride below, where it stood for the same end, one probe further ahead.
  have hearlier := hstate bucket matchEnd literal hends (behind + scheme.stride) (by omega) (by
    rw [Nat.add_mod_right, Nat.add_div_right _ hstride, Nat.succ_mul]
    omega)
  rw [show scheme.bucketWidth - 1 - (behind + scheme.stride)
    = scheme.bucketWidth - 1 - behind - scheme.stride by omega] at hearlier
  exact hearlier

/-! ## Candidates -/

variable (hfits : (Contents.ofLiterals scheme literals).Fits)
  (hbytes : ∀ literal ∈ literals, literal.bytes ≠ []) (hagree : input.HistoriesAgree)
include hfits hbytes hagree

/-- A bucket has its literals that end at a place of the stride, whatever the state rules out. -/
theorem bucketMatches_eq {state next : Nat} (hstate : Admits scheme literals input state next)
    {back place : Nat} (hback : back < scheme.stride) (hplace : place + 1 + back = next)
    (hin : input.history.size ≤ place)
    (hlength : place < input.history.size + input.buffer.size) (groups : Groups) {bucket : Nat}
    (hbucket : bucket < scheme.buckets) :
    ∃ ids, (builtFor scheme literals input).bucketMatches state back place groups bucket = .ok ids
      ∧ ∀ id, id ∈ ids ↔ ∃ literal,
        EndsInBucket scheme literals input bucket (place + 1 - input.history.size) literal
          ∧ literal.id = id ∧ literal.groups.meets groups = true := by
  have hwidth : scheme.stride ≤ scheme.bucketWidth := hfits.scheme.stride_le
  have hbit : (builtFor scheme literals input).table.scheme.bitAt? bucket
        ((builtFor scheme literals input).table.scheme.bucketWidth - 1 - back)
      = .ok (scheme.bitAt bucket (scheme.bucketWidth - 1 - back)) :=
    hfits.scheme.bitAt?_eq_ok hbucket back
  have hlt : bucket < (Buckets.assign scheme literals).length := by
    rwa [Buckets.length_assign]
  have hclear (literal : Literal)
      (h : EndsInBucket scheme literals input bucket (place + 1 - input.history.size) literal) :
      state.testBit (scheme.bitAt bucket (scheme.bucketWidth - 1 - back)) = false := by
    refine hstate.2 bucket _ literal h back (by omega) ?_
    rw [Nat.mod_eq_of_lt hback, Nat.div_eq_of_lt hback]
    omega
  simp only [bucketMatches, hbit, bind, Except.bind]
  split
  · next hset =>
    refine ⟨[], rfl, fun id => ⟨fun h => absurd h List.not_mem_nil, ?_⟩⟩
    rintro ⟨literal, hends, -, -⟩
    rw [hclear literal hends] at hset
    cases hset
  · have hmembers : (Buckets.assign scheme literals)[bucket]?
        = some (Buckets.assign scheme literals)[bucket] := List.getElem?_eq_getElem hlt
    have hne : ∀ members ∈ Buckets.assign scheme literals, ∀ literal ∈ members,
        literal.bytes ≠ [] := fun members hmember literal hliteral =>
      hbytes literal ((Buckets.mem_assign hfits.scheme.buckets_pos).1 ⟨members, hmember, hliteral⟩)
    obtain ⟨last, hlast⟩ : ∃ last, (View.of input.history input.buffer).text[place]? = some last :=
      ⟨_, Array.getElem?_eq_getElem (by rwa [View.of, Array.size_append])⟩
    have hbefore := (View.before?_placeOf hin).trans hlast
    obtain ⟨ids, hids, hmem⟩ :=
      ConfirmLists.confirm_of hfits.scheme hne hlt hagree.aligned hbefore groups
    refine ⟨ids, hids, fun id => (hmem id).trans ?_⟩
    constructor
    · rintro ⟨literal, hliteral, rfl, hgroups, hends⟩
      exact ⟨literal, ⟨⟨_, hmembers, hliteral⟩, hends⟩, rfl, hgroups⟩
    · rintro ⟨literal, ⟨⟨members, hmembers', hliteral⟩, hends⟩, rfl, hgroups⟩
      cases hmembers.symm.trans hmembers'
      exact ⟨literal, hliteral, rfl, hgroups, hends⟩

/-- After a probe, each place of its stride has what the reference reports there. -/
theorem matchesAt_eq {state next : Nat} (hstate : Admits scheme literals input state next)
    {back place : Nat} (hback : back < scheme.stride) (hplace : place + 1 + back = next)
    (hin : input.history.size ≤ place)
    (hlength : place < input.history.size + input.buffer.size) (groups : Groups) :
    (builtFor scheme literals input).matchesAt state back place groups
      = .ok (Naive.idsAt literals input (place + 1 - input.history.size) groups) := by
  have hall (bucket : Nat) (hbucket : bucket < scheme.buckets) :=
    bucketMatches_eq hfits hbytes hagree hstate hback hplace hin hlength groups hbucket
  choose! found hfound hmem using hall
  have hrange : (List.range (builtFor scheme literals input).table.scheme.buckets).mapM
        ((builtFor scheme literals input).bucketMatches state back place groups)
      = .ok ((List.range scheme.buckets).map found) := by
    refine mapM_range_eq_ok_iff.2 ⟨by rw [List.length_map, List.length_range]; rfl, fun i hi => ?_⟩
    have hi' : i < scheme.buckets := by simpa using hi
    rw [hfound i hi', List.getElem_map, List.getElem_range]
  have hids : ascending ((List.range scheme.buckets).map found).flatten
      = Naive.idsAt literals input (place + 1 - input.history.size) groups := by
    refine Naive.eq_idsAt (pairwise_ascending _) fun id => ?_
    have hend := @ScanInput.endsAt_iff input
    simp only [mem_ascending, List.mem_flatten, List.mem_map, List.mem_range]
    constructor
    · rintro ⟨_, ⟨bucket, hbucket, rfl⟩, hid⟩
      obtain ⟨literal, ⟨⟨members, hmembers, hliteral⟩, hends⟩, rfl, hgroups⟩ :=
        (hmem bucket hbucket id).1 hid
      have hmember := (Buckets.mem_assign hfits.scheme.buckets_pos).1
        ⟨members, List.mem_of_getElem? hmembers, hliteral⟩
      exact ⟨literal, hmember, rfl, hgroups, (hend (by omega)).2 hends⟩
    · rintro ⟨literal, hliteral, rfl, hgroups, hends⟩
      obtain ⟨members, hmember, hin⟩ := (Buckets.mem_assign hfits.scheme.buckets_pos).2 hliteral
      obtain ⟨bucket, hbucket, rfl⟩ := List.getElem_of_mem hmember
      have hlt : bucket < scheme.buckets := by rwa [Buckets.length_assign] at hbucket
      refine ⟨_, ⟨bucket, hlt, rfl⟩,
        (hmem bucket hlt _).2 ⟨literal, ⟨⟨_, ?_, hin⟩, ?_⟩, rfl, hgroups⟩⟩
      · exact List.getElem?_eq_getElem hbucket
      · exact (hend (by omega)).1 hends
  simp only [matchesAt, hrange, hids, bind, Except.bind]
  rfl

/-! ## The scan -/

theorem sound_builtFor : (builtFor scheme literals input).Sound (Admits scheme literals input)
    fun place groups ids =>
      ids = Naive.idsAt literals input (place + 1 - input.history.size) groups := by
  have hlength : (builtFor scheme literals input).length
      = input.history.size + input.buffer.size := length_made
  have hstride : 0 < scheme.stride := hfits.scheme.stride_pos
  refine ⟨hstride, fun {state next} hstate hnext => ?_, fun {state next} hstate hnext => ?_⟩
  · obtain ⟨word, hword, hshift⟩ := hstate.shift hfits hagree
    refine ⟨word, hword, hshift, fun place groups hge hlt hin => ⟨_, ?_, rfl⟩⟩
    have hlt : place < next + scheme.stride := hlt
    have hnext := hstate.1
    exact matchesAt_eq hfits hbytes hagree hshift
      (show next + scheme.stride - 1 - place < scheme.stride by omega)
      (show place + 1 + (next + scheme.stride - 1 - place) = next + scheme.stride by omega)
      (by omega) (by omega) groups
  · have hrecord := @record?_builtFor scheme literals input hfits
    obtain ⟨decision, hdecision, htake⟩ := floodAt_eq_ok (fun byte => ⟨_, hrecord byte⟩) hnext
    refine ⟨decision, hdecision, fun record start stop heq => ?_⟩
    obtain ⟨byte, hflood⟩ := htake record start stop heq
    have hsome := Except.ok.inj ((hrecord byte).symm.trans hflood.found)
    have hlookup := (Option.filter_eq_some_iff.1 hsome).1
    have hlt := hflood.lt_stop
    exact ⟨hlt, hflood.stop_le, admits_zero (Nat.le_trans hstate.1 (Nat.le_of_lt hlt)),
      fun place groups hge hstop =>
        hflood.ending_eq_idsAt hagree hstate.1 hbytes hlookup hge hstop groups⟩

/-- The table of literals reports what the reference does. -/
theorem scan_ofContents {σ : Type} (sink : Sink σ) :
    (LiteralTable.ofContents (.ofLiterals scheme literals)).scan input sink
      = Naive.scan literals input sink := by
  obtain ⟨found, hfound, hscan⟩ := (sound_builtFor hfits hbytes hagree).scan_eq
    (of_eq_builtFor hfits) (admits_zero (Nat.le_add_right ..))
  rw [(hscan σ sink).1, Naive.scan]
  refine Control.visitAll_congr fun matchEnd hend => ?_
  obtain ⟨hstart, hstop⟩ := List.mem_range'_1.1 hend
  obtain ⟨matchEnd, rfl⟩ : ∃ before, matchEnd = before + 1 := ⟨matchEnd - 1, by omega⟩
  have hids (groups : Groups) : found (matchEnd + 1) groups
      = Naive.idsAt literals input (matchEnd + 1) groups := by
    have h := hfound matchEnd groups (by omega) (by omega)
    rwa [show input.history.size + matchEnd + 1 - input.history.size = matchEnd + 1 by omega] at h
  simp only [Sink.tell, hids]

end Scanner

namespace LiteralTable

/-- Literals of at least one byte each whose table is not too big get one, and a scan with it makes
the calls of the naive scan: at each end, once and in ascending order, the identifiers of the
literals with a live group that match there. -/
theorem scan_eq_naive {options : Options} {literals : List Literal} (hsound : options.Sound)
    (hne : literals ≠ []) (hbytes : ∀ literal ∈ literals, literal.bytes ≠ [])
    (hsize : ∀ scheme, options.schemeFor literals = .ok scheme →
      (Contents.ofLiterals scheme literals).bodyLength ≤ maxSize) :
    ∃ table, build options literals = .ok table
      ∧ ∀ input : ScanInput, input.HistoriesAgree →
        (∀ (σ : Type) (sink : Sink σ), table.scan input sink = Naive.scan literals input sink)
        ∧ ∀ matchEnd groups,
          (Naive.idsAt literals input matchEnd groups).Pairwise (·.toNat < ·.toNat)
          ∧ ∀ id, id ∈ Naive.idsAt literals input matchEnd groups ↔
              ∃ literal ∈ literals, literal.id = id ∧ literal.groups.meets groups = true
                ∧ input.endsAt literal matchEnd = true := by
  obtain ⟨table, hbuild⟩ := build_eq_ok hsound hne hbytes hsize
  obtain ⟨scheme, -, -, -, hfits, rfl⟩ := of_build hbuild
  exact ⟨_, hbuild, fun input hagree =>
    ⟨fun σ sink => Scanner.scan_ofContents hfits hbytes hagree sink,
      fun matchEnd groups => ⟨Naive.pairwise_idsAt, fun id => Naive.mem_idsAt⟩⟩⟩

theorem scan_eq_naive_across_history :
    let options : Options := { scheme? := some (some 1), domain? := some (some 9) }
    let literals : List Literal := [{ id := .wrap 7, bytes := [97, 66], nocase := true }]
    let input : ScanInput := { buffer := #[98, 99], caselessHistory := #[65] }
    (∃ table, build options literals = .ok table
      ∧ ∀ (σ : Type) (sink : Sink σ), table.scan input sink = Naive.scan literals input sink)
      ∧ Naive.idsAt literals input 1 Groups.all = [.wrap 7] := by
  intro options literals input
  have hfor : options.schemeFor literals = .ok ⟨1, 32, 8, 2, .none, 1, 0, 9⟩ := by decide +kernel
  have hsound : options.Sound :=
    ⟨fun id hid => by cases hid; exact ⟨_, rfl⟩, fun bits hbits => by cases hbits; decide⟩
  have hsize (scheme : Scheme) (h : options.schemeFor literals = .ok scheme) :
      (Contents.ofLiterals scheme literals).bodyLength ≤ maxSize := by
    cases hfor.symm.trans h
    decide +kernel
  have hagree : input.HistoriesAgree := .inl List.nil_suffix
  obtain ⟨table, hbuild, hscan⟩ :=
    scan_eq_naive hsound (by decide) (by decide) hsize
  exact ⟨⟨table, hbuild, (hscan input hagree).1⟩, by decide +kernel⟩

end LiteralTable

end Multimatch
