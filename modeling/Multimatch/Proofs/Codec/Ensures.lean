import Mathlib.Data.List.Forall2
import Multimatch.Proofs.Codec.Placed

/-!
# What reading ensures

`Load.Ensures read Q` says that a reader does not fault, whatever bytes it gets, and that what it
accepts has `Q`: bytes that it refuses are no concern of a later read. There is one rule for each
way to put readers together, and one for each checked reader.
-/

namespace Multimatch

namespace Load

variable {α β : Type}

/-- The reader does not fault, and what it gives has the property. -/
def Ensures (read : Load α) (Q : α → Prop) : Prop :=
  match read with
  | .ok value => Q value
  | .error (.refused _) => True
  | .error (.fault _) => False

variable {read : Load α} {P Q : α → Prop}

theorem Ensures.of_ok (h : Ensures read Q) {value : α} (hread : read = .ok value) : Q value := by
  rw [hread] at h
  exact h

theorem Ensures.ne_fault (h : Ensures read Q) (fault : Fault) : read ≠ .error (.fault fault) := by
  intro hread
  rw [hread] at h
  exact h

theorem Ensures.imp (h : Ensures read P) (himp : ∀ value, P value → Q value) : Ensures read Q := by
  match read, h with
  | .ok value, h => exact himp value h
  | .error (.refused _), _ => exact trivial

/-- What is ensured of a reader is ensured of what it reads. -/
theorem Ensures.and_eq (h : Ensures read Q) :
    Ensures read fun value => read = .ok value ∧ Q value := by
  match read, h with
  | .ok value, h => exact ⟨rfl, h⟩
  | .error (.refused _), _ => exact trivial

theorem Ensures.bind {next : α → Load β} {R : β → Prop} (h : Ensures read P)
    (hnext : ∀ value, P value → Ensures (next value) R) : Ensures (read >>= next) R := by
  match read, h with
  | .ok value, h => exact hnext value h
  | .error (.refused _), _ => exact trivial

/-- A part that has its word goes on with it. -/
theorem ensures_liftM_bind {part : Except Fault α} {value : α} {next : α → Load β} {R : β → Prop}
    (hpart : part = .ok value) (hnext : Ensures (next value) R) :
    Ensures (liftM part >>= next) R := by
  rw [hpart]
  exact hnext

/-- A part that may be refused goes on with what it accepts. -/
theorem ensures_accepted {part : Except LoadError α} (h : ∀ value, part = .ok value → Q value) :
    Ensures (liftM part) Q := by
  cases part with
  | ok value => exact h value rfl
  | error error => exact trivial

theorem ensures_require {condition : Prop} [Decidable condition] {flaw : Flaw} :
    Ensures (require condition flaw) fun _ => condition := by
  unfold require
  split
  · assumption
  · exact trivial

theorem ensures_mapM {f : α → Load β} {R : α → β → Prop} {xs : List α}
    (h : ∀ x ∈ xs, Ensures (f x) (R x)) : Ensures (xs.mapM f) (List.Forall₂ R xs) := by
  induction xs with
  | nil => exact .nil
  | cons x xs ih =>
    rw [List.mapM_cons]
    refine (h x List.mem_cons_self).bind fun y hy => ?_
    refine (ih fun z hz => h z (List.mem_cons_of_mem _ hz)).bind fun ys hys => ?_
    exact .cons hy hys

theorem ensures_mapM_forall {f : α → Load β} {R : β → Prop} {xs : List α}
    (h : ∀ x ∈ xs, Ensures (f x) R) :
    Ensures (xs.mapM f) fun ys => ys.length = xs.length ∧ ∀ y ∈ ys, R y := by
  refine (ensures_mapM h).imp fun ys hall => ⟨hall.length_eq.symm, ?_⟩
  induction hall with
  | nil => exact nofun
  | cons hfirst _ ih =>
    exact List.forall_mem_cons.2 ⟨hfirst, ih fun x hx => h x (List.mem_cons_of_mem _ hx)⟩

theorem ensures_forM {f : α → Load Unit} {R : α → Prop} {xs : List α}
    (h : ∀ x ∈ xs, Ensures (f x) fun _ => R x) : Ensures (xs.forM f) fun _ => ∀ x ∈ xs, R x := by
  induction xs with
  | nil => exact nofun
  | cons x xs ih =>
    rw [List.forM_eq_forM, List.forM_cons]
    refine (h x List.mem_cons_self).bind fun _ hx => ?_
    exact (ih fun z hz => h z (List.mem_cons_of_mem _ hz)).imp fun _ hxs =>
      List.forall_mem_cons.2 ⟨hx, hxs⟩

end Load

/-! ## Checked readers -/

namespace Reader

open Load (Ensures)

theorem ensures_checkLength {length atLeast : Nat} {what : String} :
    Ensures (liftM (checkLength length atLeast what)) fun _ => atLeast ≤ length :=
  Load.ensures_accepted fun _ h => by
    unfold checkLength at h
    split at h
    · cases h
    · next hle => exact Nat.not_lt.1 hle

theorem ensures_add {a b : Nat} {what : String} :
    Ensures (liftM (add a b what)) fun sum => sum = a + b :=
  Load.ensures_accepted fun sum h => by
    unfold add at h
    split at h
    · exact (Except.ok.inj h).symm
    · cases h

theorem ensures_multiply {a b : Nat} {what : String} :
    Ensures (liftM (multiply a b what)) fun product => product = a * b :=
  Load.ensures_accepted fun product h => by
    unfold multiply at h
    split at h
    · exact (Except.ok.inj h).symm
    · cases h

/-- A word whose place exists is read or refused. -/
theorem ensures_tryWordAt {bytes : Bytes} {place width : Nat} {what : String}
    (h : place ≤ bytes.size) : Ensures (tryWordAt bytes place width what) fun word =>
      bytes.wordAt place width = .ok word := by
  rw [tryWordAt, if_neg (Nat.not_lt.2 h)]
  refine ensures_checkLength.bind fun _ hroom => ?_
  have hword := Bytes.wordAt_eq_ok (show place + width ≤ bytes.size by omega)
  rw [hword]
  exact rfl

/-- So is an identifier, and one that is read is valid. -/
theorem ensures_tryLiteralIdAt {bytes : Bytes} {place : Nat} {what : String}
    (h : place ≤ bytes.size) : Ensures (tryLiteralIdAt bytes place what) fun id =>
      id.IsValid ∧ bytes.wordAt place Ident.byteSize = .ok id.toNat := by
  refine (ensures_tryWordAt h).bind fun word hword => ?_
  by_cases hvalid : word ≤ Ident.maxValue
  · have htoNat : (Ident.wrap word : LiteralId).toNat = word :=
      UInt32.toNat_ofNat_of_lt' (Nat.lt_of_le_of_lt hvalid (by decide))
    rw [Ident.ofNat, if_pos hvalid]
    refine ⟨?_, ?_⟩
    · rw [Ident.IsValid, htoNat]
      exact hvalid
    · rw [htoNat]
      exact hword
  · rw [Ident.ofNat, if_neg hvalid]
    exact trivial

end Reader

end Multimatch
