import Multimatch.Codec.Bytes
import Multimatch.Rules.Engine

/-!
# Watching for bytes

Triggers are looked for by their bytes, and there is room for three different ones. A place that is
not in use holds a zero and is not looked for. Each byte needs to be found only once, so what a
`ByteSearch` finds is gone through only until every byte was seen.
-/

namespace Multimatch

/-- A routine that looks for some bytes in a window. It may be any routine that names all places of
theirs, in ascending order. -/
structure ByteSearch where
  places : List UInt8 → Bytes → List Nat
  mem_places_iff : ∀ {needles : List UInt8} {window : Bytes} {place : Nat},
    place ∈ places needles window ↔ ∃ byte ∈ needles, window[place]? = some byte
  pairwise_places : ∀ needles window, (places needles window).Pairwise (· < ·)

namespace ByteSearch

def plainPlaces (needles : List UInt8) (window : Bytes) : List Nat :=
  (List.range window.size).filter fun place => (window[place]?).any needles.contains

theorem mem_plainPlaces_iff {needles : List UInt8} {window : Bytes} {place : Nat} :
    place ∈ plainPlaces needles window ↔ ∃ byte ∈ needles, window[place]? = some byte := by
  rw [plainPlaces, List.mem_filter, List.mem_range]
  constructor
  · rintro ⟨inside, found⟩
    rw [Array.getElem?_eq_getElem inside] at found
    exact ⟨_, List.contains_iff_mem.1 found, Array.getElem?_eq_getElem inside⟩
  · rintro ⟨byte, hneedle, hbyte⟩
    refine ⟨(Array.getElem?_eq_some_iff.1 hbyte).1, ?_⟩
    rw [hbyte]
    exact List.contains_iff_mem.2 hneedle

/-- The search that looks at every place. -/
def plain : ByteSearch where
  places := plainPlaces
  mem_places_iff := mem_plainPlaces_iff
  pairwise_places _ _ := List.pairwise_lt_range.filter _

end ByteSearch

/-- The bytes to look for, in the first places. -/
structure TriggerWatch where
  bytes : Vector UInt8 3 := .replicate 3 0
  /-- The places in use. -/
  count : Nat := 0

namespace TriggerWatch

/-- The place of a byte that is looked for. -/
def place? (watch : TriggerWatch) (byte : UInt8) : Option (Fin 3) :=
  (List.finRange 3).find? fun place => place < watch.count && watch.bytes[place] == byte

theorem place?_isSome_iff {watch : TriggerWatch} {byte : UInt8} :
    (watch.place? byte).isSome = true
      ↔ ∃ place : Fin 3, place < watch.count ∧ watch.bytes[place] = byte := by
  simp [place?, List.find?_isSome]

theorem of_place? {watch : TriggerWatch} {byte : UInt8} {place : Fin 3}
    (h : watch.place? byte = some place) : place < watch.count ∧ watch.bytes[place] = byte := by
  simpa [place?] using List.find?_some h

/-- Looks for one byte more. There has to be a place for it. -/
def add (watch : TriggerWatch) (byte : UInt8) : Except Fault TriggerWatch :=
  if (watch.place? byte).isSome then .ok watch
  else if h : watch.count < 3 then .ok ⟨watch.bytes.set watch.count byte, watch.count + 1⟩
  else .error (.outOfBounds watch.count 3)

def addAll (watch : TriggerWatch) : List UInt8 → Except Fault TriggerWatch
  | [] => .ok watch
  | byte :: bytes => do
    let watch ← watch.add byte
    addAll watch bytes

/-- What a search goes by. There is one for one byte, one for two and one for three. -/
def needles (watch : TriggerWatch) : List UInt8 :=
  match watch.count with
  | 1 => [watch.bytes[0]]
  | 2 => [watch.bytes[0], watch.bytes[1]]
  | _ => [watch.bytes[0], watch.bytes[1], watch.bytes[2]]

/-- The bytes that were seen, by their places. -/
abbrev Seen := Vector Bool 3

def mark (watch : TriggerWatch) (byte : UInt8) (seen : Seen) : Seen :=
  match watch.place? byte with
  | some place => seen.set place true
  | none => seen

theorem getElem_mark {watch : TriggerWatch} {byte : UInt8} {place : Fin 3} (seen : Seen) :
    (watch.mark byte seen)[place] = true ↔ seen[place] = true ∨ watch.place? byte = some place := by
  unfold mark
  cases watch.place? byte with
  | none => simp
  | some other => simp [Vector.getElem_set, Fin.val_inj, or_comm]

/-- Every byte was seen. -/
def isDone (watch : TriggerWatch) (seen : Seen) : Bool :=
  (List.finRange 3).all fun place => !(place < watch.count) || seen[place]

/-- Marks what a search finds, one place after the other, as long as some byte was not seen. -/
def look (watch : TriggerWatch) (window : Bytes) : List Nat → Seen → Except Fault Seen
  | [], seen => .ok seen
  | place :: places, seen => do
    let byte ← window.byteAt place
    let seen := watch.mark byte seen
    if watch.isDone seen then return seen else look watch window places seen

/-- A search that ends early has seen every byte already. -/
theorem exists_look {watch : TriggerWatch} {window : Bytes} {places : List Nat}
    (hinside : ∀ place ∈ places, place < window.size) (seen : Seen) :
    ∃ found, watch.look window places seen = .ok found
      ∧ ∀ {byte : UInt8} {index : Fin 3}, watch.place? byte = some index →
        (found[index] = true
          ↔ seen[index] = true ∨ ∃ place ∈ places, window[place]? = some byte) := by
  induction places generalizing seen with
  | nil => exact ⟨seen, rfl, fun _ => by simp⟩
  | cons first places ih =>
    obtain ⟨hfirst, hrest⟩ := List.forall_mem_cons.1 hinside
    have hmark {byte : UInt8} {index : Fin 3} (h : watch.place? byte = some index) :
        (seen[index] = true ∨ ∃ place ∈ first :: places, window[place]? = some byte)
          ↔ (watch.mark window[first] seen)[index] = true
            ∨ ∃ place ∈ places, window[place]? = some byte := by
      have hbyte : window[first] = byte ↔ watch.place? window[first] = some index := by
        refine ⟨fun heq => heq ▸ h, fun hindex => ?_⟩
        rw [← (of_place? h).2, (of_place? hindex).2]
      simp only [List.mem_cons, exists_eq_or_imp, Array.getElem?_eq_getElem hfirst,
        Option.some.injEq, getElem_mark, hbyte, or_assoc]
    rw [look, Bytes.byteAt_eq_ok hfirst]
    by_cases hdone : watch.isDone (watch.mark window[first] seen) = true
    · refine ⟨watch.mark window[first] seen, if_pos hdone, fun {byte index} h => ?_⟩
      have hseen : (watch.mark window[first] seen)[index] = true := by
        simpa [(of_place? h).1] using List.all_eq_true.1 hdone index (List.mem_finRange index)
      rw [hmark h]
      simp only [hseen, true_or]
    · obtain ⟨found, hlook, hfound⟩ := ih hrest (watch.mark window[first] seen)
      exact ⟨found, (if_neg hdone).trans hlook, fun h => (hfound h).trans (hmark h).symm⟩

/-- The bytes that are seen in a window. -/
def seenIn (watch : TriggerWatch) (search : ByteSearch) (window : Bytes) : Except Fault Seen :=
  watch.look window (search.places watch.needles window) (.replicate 3 false)

def saw (watch : TriggerWatch) (seen : Seen) (byte : UInt8) : Bool :=
  match watch.place? byte with
  | some place => seen[place]
  | none => false

end TriggerWatch

/-- The roles of the enabled triggers whose byte is in a window. -/
def Engine.pulled (engine : Engine) (search : ByteSearch) (enabled : List Bool) (window : Bytes) :
    Except Fault (List RoleId) := do
  let triggers := ((engine.triggers.zip enabled).filter (·.2)).map (·.1)
  let watch ← TriggerWatch.addAll {} (triggers.map (·.byte))
  if watch.count = 0 then return []
  let seen ← watch.seenIn search window
  return (triggers.filter fun trigger => watch.saw seen trigger.byte).map (·.role)

end Multimatch
