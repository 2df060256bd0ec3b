import FormCompiler.Code.Type
import FormCompiler.Proofs.Decimal.Numerals

namespace FormCompiler

namespace Decimal

def isFigure (c : Char) : Bool := c.isAlphanum || c == '.' || c == '-'

theorem isFigure_of_isDigit {c : Char} (h : c.isDigit = true) : isFigure c = true := by
  simp only [isFigure, Char.isAlphanum, h, Bool.or_true, Bool.true_or]

theorem isFigure_toDigits {n : Nat} : (Nat.toDigits 10 n).all isFigure = true :=
  List.all_eq_true.mpr fun _ hc => isFigure_of_isDigit (isDigit_of_mem hc)

theorem isFigure_nat (n : Nat) : (toString n).toList.all isFigure = true := by
  rw [Nat.toString_eq_ofList_toDigits, String.toList_ofList]
  exact isFigure_toDigits

theorem isFigure_int (n : Int) : (toString n).toList.all isFigure = true := by
  cases n with
  | ofNat n => exact isFigure_nat n
  | negSucc n =>
    change ("-" ++ toString (n + 1)).toList.all isFigure = true
    rw [String.toList_append, List.all_append, isFigure_nat]
    rfl

theorem isFigure_zeros (n : Nat) : (zeros n).all isFigure = true := by
  rw [zeros, List.all_replicate]
  split <;> rfl

theorem isFigure_layout {ds : List Char} (h : ds.all isFigure = true) (point : Int) :
    (layout ds point).all isFigure = true := by
  have hsub {cs cs' : List Char} (hsubset : cs ⊆ cs') (h : cs'.all isFigure = true) :
      cs.all isFigure = true :=
    List.all_eq_true.mpr fun c hc => List.all_eq_true.mp h c (hsubset hc)
  unfold layout
  split
  · split
    · simp only [List.all_cons, List.all_append, isFigure_zeros, h]
      rfl
    · have hpadded : (ds ++ zeros (point.toNat - ds.length)).all isFigure = true := by
        rw [List.all_append, h, isFigure_zeros]
        rfl
      simp only [List.all_append, List.all_cons, hsub (List.take_subset _ _) hpadded]
      split
      · rfl
      · rw [hsub (List.drop_subset _ _) h]
        rfl
  · simp only [List.all_append, List.all_cons, hsub (List.take_subset _ _) h, isFigure_int]
    split
    · rfl
    · rw [List.all_cons, hsub (List.drop_subset _ _) h]
      rfl

theorem isFigure_dropTrailingZeros {ds : List Char} (h : ds.all isFigure = true) :
    (dropTrailingZeros ds).all isFigure = true := by
  rw [List.all_eq_true] at h ⊢
  intro c hc
  exact h c (List.mem_reverse.mp ((List.dropWhile_suffix _).subset (List.mem_reverse.mp hc)))

theorem isFigure_text (x : Float) : (text x).toList.all isFigure = true := by
  unfold text
  split
  · rfl
  · have hsigned {body : String} (h : body.toList.all isFigure = true) :
        ((if x.toBits < 0x8000000000000000 then "" else "-") ++ body).toList.all isFigure =
          true := by
      rw [String.toList_append, List.all_append, h]
      split <;> rfl
    dsimp only
    split
    · exact hsigned rfl
    · split
      · exact hsigned rfl
      · apply hsigned
        rw [String.toList_ofList]
        exact isFigure_layout (isFigure_dropTrailingZeros isFigure_toDigits) _

end Decimal

theorem Value.isFigure_text (v : Value) : v.text.toList.all Decimal.isFigure = true := by
  cases v with
  | void => rfl
  | of c =>
    cases c with
    | i1 value => cases value <;> rfl
    | i32 value => exact Decimal.isFigure_int value.toInt
    | f64 value => exact Decimal.isFigure_text value

theorem Value.newline_not_mem_text (v : Value) : '\n' ∉ v.text.toList := by
  intro h
  cases List.all_eq_true.mp v.isFigure_text _ h

end FormCompiler
