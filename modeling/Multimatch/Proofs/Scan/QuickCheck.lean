import Multimatch.Proofs.Scan.Folding

/-!
# The quick check

What a scan asks of an entry before it compares bytes is never more than that the literal ends at
the place, and it is no less where the check covers the whole literal and the text reaches back as
far (`ConfirmEntry.quickCheck_exact`). Bytes before the start of the history are read as zeros,
which a check may take for bytes of a longer literal.
-/

namespace Multimatch

namespace ConfirmEntry

variable {literal : Literal} {quickLength place : Nat} {view : View}

theorem passesQuickCheck_of : (ConfirmEntry.of literal quickLength).passesQuickCheck view place = true
    ↔ view.window place &&& (quickCheck literal quickLength).2
      = (quickCheck literal quickLength).1 :=
  beq_iff_eq

/-- A check that covers a literal for which there is room lets it through only where it ends. -/
theorem endsWith_of_passesQuickCheck (hquick : quickLength ≤ 8)
    (hcovered : literal.length ≤ quickLength) (hroom : literal.length ≤ place)
    (hplace : place ≤ view.text.size)
    (h : (ConfirmEntry.of literal quickLength).passesQuickCheck view place = true) :
    view.endsWith place literal.bytes.toArray literal.nocase = true := by
  refine View.endsWith_of_forall hroom fun index hindex => ?_
  have hlength : literal.bytes.toArray.size = literal.length := rfl
  have hbytes : literal.bytes.length = literal.length := rfl
  have hin : place + index - literal.length < view.text.size := by omega
  have hbyte := (passesQuickCheck_iff hquick).1 h index hindex (by omega)
  rw [if_neg (Nat.not_lt.2 (Nat.le_add_right_of_le hroom)), Array.getElem?_eq_getElem hin,
    Option.getD_some] at hbyte
  refine ⟨_, ?_, Letter.and_quickMaskByte_iff.1 hbyte⟩
  rw [hlength, ← Array.getElem?_eq_getElem hin]
  congr 1
  omega

/-- At every end from the start of the history to the end of the buffer, a literal ends where there
is room for it and it accepts the bytes before. There it passes its quick check, however long, and
a literal that the check covers passes it nowhere else that there is room for it. -/
theorem quickCheck_exact {history buffer : Bytes} {matchEnd : Int}
    (hfrom : -(history.size : Int) ≤ matchEnd) (hto : matchEnd ≤ buffer.size) (literal : Literal)
    {quickLength : Nat} (hquick : quickLength ≤ 8) :
    let view := View.of history buffer
    let place := (history.size + matchEnd).toNat
    let seen := (history.toList ++ buffer.toList).take place
    let check := quickCheck literal quickLength
    (view.endsWith place literal.bytes.toArray literal.nocase = true
        ↔ literal.length ≤ place ∧ literal.accepts (seen.drop (place - literal.length)) = true)
      ∧ (view.endsWith place literal.bytes.toArray literal.nocase = true →
        view.window place &&& check.2 = check.1)
      ∧ (literal.length ≤ quickLength → literal.length ≤ place →
        view.window place &&& check.2 = check.1 →
        view.endsWith place literal.bytes.toArray literal.nocase = true) := by
  intro view place seen check
  have hplace : place ≤ view.text.size := by
    simp only [view, place, View.of, Array.size_append]
    omega
  have hseen : view.text.toList = history.toList ++ buffer.toList := Array.toList_append
  have hends := @View.endsWith_iff_accepts_take view place hplace literal
  rw [hseen] at hends
  refine ⟨⟨fun h => ⟨(View.endsWith_eq_true_iff.1 h).1, hends.1 h⟩, fun h => hends.2 h.2⟩,
    fun h => ?_, fun hcovered hroom h => ?_⟩
  · exact passesQuickCheck_of.1 (passesQuickCheck_of_endsWith hquick h)
  · exact endsWith_of_passesQuickCheck hquick hcovered hroom hplace (passesQuickCheck_of.2 h)

/-- A literal that begins in the history and ends with the buffer, and one that ends before the
last byte of the history. -/
theorem quickCheck_exact_straddling :
    let history : Bytes := #[88, 120]
    let buffer : Bytes := #[121, 90]
    let long : Literal := { id := .wrap 1, bytes := [120, 89, 122], nocase := true }
    let short : Literal := { id := .wrap 2, bytes := [88] }
    (2 : Int) ≤ buffer.size ∧ -(history.size : Int) ≤ -1 ∧ 8 ≤ 8
      ∧ (View.of history buffer).endsWith 4 long.bytes.toArray long.nocase = true
      ∧ (View.of history buffer).window 4 &&& (quickCheck long 8).2 = (quickCheck long 8).1
      ∧ (View.of history buffer).endsWith 1 short.bytes.toArray short.nocase = true := by
  intro history buffer long short
  have hfrom : -(history.size : Int) ≤ -1 := by decide
  have hto : (2 : Int) ≤ buffer.size := by decide
  have hlong := quickCheck_exact (Int.le_trans hfrom (by decide)) hto long (Nat.le_refl 8)
  have hshort := quickCheck_exact hfrom (Int.le_trans (by decide) hto) short (Nat.le_refl 8)
  have hends := hlong.1.2 ⟨by decide, by decide⟩
  exact ⟨hto, hfrom, Nat.le_refl 8, hends, hlong.2.1 hends,
    hshort.2.2 (by decide) (by decide) (by decide +kernel)⟩

end ConfirmEntry

end Multimatch
