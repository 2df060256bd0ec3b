import FormCompiler.Expr.Parser
import FormCompiler.Proofs.Decimal.Exact

namespace FormCompiler

namespace Decimal

theorem digits?_eq {cs : List Char} (h : ∀ c ∈ cs, c.isDigit = true) :
    digits? cs = some (Nat.ofDigitChars 10 cs 0) := by
  have hfold : ∀ (cs : List Char) (n : Nat), (∀ c ∈ cs, c.isDigit = true) →
      cs.foldl (fun n c => if c.isDigit then n.map (10 * · + (c.toNat - '0'.toNat)) else none)
        (some n) = some (Nat.ofDigitChars 10 cs n) := by
    intro cs
    induction cs with
    | nil => exact fun n _ => rfl
    | cons c cs ih =>
      intro n h
      rw [List.foldl_cons, if_pos (h c List.mem_cons_self), Nat.ofDigitChars_cons]
      exact ih _ fun d hd => h d (List.mem_cons_of_mem _ hd)
  exact hfold cs 0 h

theorem isDigit_of_mem {n : Nat} {c : Char} (h : c ∈ Nat.toDigits 10 n) : c.isDigit = true :=
  Nat.isDigit_of_mem_toDigits (by decide) (by decide) h

theorem ne_point {n : Nat} {c : Char} (h : c ∈ Nat.toDigits 10 n) : (c != '.') = true := by
  rw [bne_iff_ne]
  rintro rfl
  cases isDigit_of_mem h

theorem digits?_toDigits (n : Nat) : digits? (Nat.toDigits 10 n) = some n := by
  rw [digits?_eq fun _ => isDigit_of_mem, Nat.ofDigitChars_ten_toDigits]

def IsDecimal (c : Char) : Prop := c.isDigit = true ∨ c = '.'

theorem IsDecimal.toLower {c : Char} (h : IsDecimal c) : c.toLower = c := by
  obtain h | rfl := h
  · have hnine : c.val.toNat ≤ 57 := by
      simp only [Char.isDigit, Bool.and_eq_true, decide_eq_true_eq, UInt32.le_iff_toNat_le] at h
      exact h.2
    refine dif_neg fun hupper => ?_
    have hletter : 65 ≤ c.val.toNat := UInt32.le_iff_toNat_le.mp hupper.1
    omega
  · decide

theorem splitSign_of_isDecimal {cs : List Char} (h : ∀ c ∈ cs, IsDecimal c) :
    splitSign cs = (false, cs) := by
  unfold splitSign
  split
  next => cases h '-' List.mem_cons_self <;> contradiction
  next => cases h '+' List.mem_cons_self <;> contradiction
  next => rfl

theorem integer?_of_isDigit {cs : List Char} (hne : cs ≠ []) (h : ∀ c ∈ cs, c.isDigit = true) :
    integer? cs = some (Nat.ofDigitChars 10 cs 0 : Int) := by
  unfold integer?
  simp only [splitSign_of_isDecimal fun c hc => .inl (h c hc), List.isEmpty_eq_false_iff.mpr hne,
    digits?_eq h]
  rfl

theorem magnitude?_of_isDecimal {cs : List Char} (h : ∀ c ∈ cs, IsDecimal c) :
    magnitude? cs = point? cs 0 := by
  have hne : ∀ c, ¬ IsDecimal c → c ∉ cs := fun c hc hmem => hc (h c hmem)
  have hi := hne 'i' (by simp [IsDecimal])
  have ha := hne 'a' (by simp [IsDecimal])
  have he := hne 'e' (by simp [IsDecimal])
  unfold magnitude?
  rw [if_neg (by rintro (rfl | rfl) <;> simp at hi), if_neg (by rintro rfl; simp at ha),
    if_neg (by simpa using he)]

theorem read?_of_isDecimal {cs : List Char} (h : ∀ c ∈ cs, IsDecimal c) :
    read? (String.ofList cs) = point? cs 0 := by
  have hlower : cs.map Char.toLower = cs :=
    (List.map_congr_left fun c hc => (h c hc).toLower).trans cs.map_id
  unfold read?
  simp only [String.toList_ofList, hlower, splitSign_of_isDecimal h, magnitude?_of_isDecimal h]
  exact congrFun Option.map_id _

def padded (length n : Nat) : List Char :=
  zeros (length - (Nat.toDigits 10 n).length) ++ Nat.toDigits 10 n

theorem isDigit_of_mem_padded {length n : Nat} {c : Char} (h : c ∈ padded length n) :
    c.isDigit = true := by
  rcases List.mem_append.mp h with h | h
  · rw [(List.mem_replicate.mp h).2]
    rfl
  · exact isDigit_of_mem h

theorem length_padded {length n : Nat} (hn : n < 10 ^ length) (hlength : 0 < length) :
    (padded length n).length = length := by
  have hle := (Nat.length_toDigits_le_iff (by decide : 1 < 10) hlength).mpr hn
  rw [padded, List.length_append, zeros, List.length_replicate]
  omega

theorem ofDigitChars_padded (length n init : Nat) :
    Nat.ofDigitChars 10 (padded length n) init = 10 ^ (padded length n).length * init + n := by
  rw [Nat.ofDigitChars_eq_ofDigitChars_zero, padded, Nat.ofDigitChars_append, zeros,
    Nat.ofDigitChars_replicate_zero, Nat.mul_zero, Nat.ofDigitChars_ten_toDigits]

def plain (n places : Nat) : List Char :=
  Nat.toDigits 10 (n / 10 ^ places) ++ '.' :: padded places (n % 10 ^ places)

theorem isDecimal_plain {n places : Nat} : ∀ c ∈ plain n places, IsDecimal c := by
  intro c hc
  obtain hc | hc := List.mem_append.mp hc
  · exact .inl (isDigit_of_mem hc)
  · obtain rfl | hc := List.mem_cons.mp hc
    · exact .inr rfl
    · exact .inl (isDigit_of_mem_padded hc)

theorem point?_plain {n places : Nat} (hplaces : 0 < places) :
    point? (plain n places) 0 = some (Float.ofScientific n true places) := by
  have hlength : (padded places (n % 10 ^ places)).length = places :=
    length_padded (Nat.mod_lt _ (Nat.pow_pos (by decide))) hplaces
  have hsplit : splitAt '.' (plain n places) =
      (Nat.toDigits 10 (n / 10 ^ places), padded places (n % 10 ^ places)) := by
    rw [splitAt, plain, List.takeWhile_append_of_pos fun _ => ne_point,
      List.dropWhile_append_of_pos fun _ => ne_point]
    simp
  have hdigits : digits? (Nat.toDigits 10 (n / 10 ^ places) ++ padded places (n % 10 ^ places)) =
      some n := by
    rw [digits?_eq fun c hc => (List.mem_append.mp hc).elim isDigit_of_mem isDigit_of_mem_padded,
      Nat.ofDigitChars_append, Nat.ofDigitChars_ten_toDigits, ofDigitChars_padded, hlength,
      Nat.div_add_mod]
  have hempty : (Nat.toDigits 10 (n / 10 ^ places)).isEmpty = false := by
    rw [List.isEmpty_eq_false_iff]
    exact Nat.toDigits_ne_nil
  have hsign : (decide ((0 : Int) - places < 0)) = true := decide_eq_true (by omega)
  have habs : ((0 : Int) - places).natAbs = places := by omega
  unfold point?
  simp only [hsplit, ofParts?, hempty, hdigits, hlength, hsign, habs]
  rfl

theorem isDecimal_whole (n : Nat) : ∀ c ∈ Nat.toDigits 10 n ++ ['.'], IsDecimal c := by
  intro c hc
  obtain hc | hc := List.mem_append.mp hc
  · exact .inl (isDigit_of_mem hc)
  · exact .inr (List.mem_singleton.mp hc)

theorem point?_whole (n : Nat) :
    point? (Nat.toDigits 10 n ++ ['.']) 0 = some (Float.ofScientific n false 0) := by
  have hsplit : splitAt '.' (Nat.toDigits 10 n ++ ['.']) = (Nat.toDigits 10 n, []) := by
    rw [splitAt, List.takeWhile_append_of_pos (fun _ => ne_point),
      List.dropWhile_append_of_pos (fun _ => ne_point)]
    simp
  have hempty : (Nat.toDigits 10 n).isEmpty = false := by
    rw [List.isEmpty_eq_false_iff]
    exact Nat.toDigits_ne_nil
  unfold point?
  simp only [hsplit, ofParts?, hempty, List.append_nil, digits?_toDigits]
  rfl

theorem ofScientific_overflow :
    (Float.ofScientific (2 ^ 1024) false 0).toBits.toNat = 2047 * 2 ^ 52 := by
  decide +kernel

end Decimal

namespace Literal

def ofInt (value : Int64) : String := toString value.toNatClampNeg

theorem int?_of_isDigit {cs : List Char} (hne : cs ≠ []) (h : ∀ c ∈ cs, c.isDigit = true)
    (hsmall : Nat.ofDigitChars 10 cs 0 < 2 ^ 63) :
    int? (String.ofList cs) = some (Int64.ofNat (Nat.ofDigitChars 10 cs 0)) := by
  unfold int?
  rw [String.toList_ofList, Decimal.integer?_of_isDigit hne h, Option.bind_eq_bind,
    Option.bind_some, if_pos (by omega), Int64.ofInt_eq_ofNat]

theorem int?_ofInt {value : Int64} (h : 0 ≤ value) : int? (ofInt value) = some value := by
  rw [ofInt, Nat.toString_eq_ofList_toDigits, int?_of_isDigit Nat.toDigits_ne_nil
    (fun _ => Decimal.isDigit_of_mem), Nat.ofDigitChars_ten_toDigits,
    Int64.ofNat_toNatClampNeg value h]
  rw [Nat.ofDigitChars_ten_toDigits]
  exact value.toNatClampNeg_lt

def ofFloat (value : Float) : String :=
  String.ofList (if value.toBits.toNat < 2047 * 2 ^ 52 then
    Decimal.plain (Decimal.exactDigits value.toBits.toNat) 1074
  else Nat.toDigits 10 (2 ^ 1024) ++ ['.'])

theorem float?_ofFloat {value : Float} (h : value.toBits ≤ 0x7ff0000000000000) :
    float? (ofFloat value) = some value := by
  unfold float? ofFloat
  split
  next hfinite =>
    rw [Decimal.read?_of_isDecimal Decimal.isDecimal_plain, Decimal.point?_plain (by decide),
      Decimal.ofScientific_exactDigits hfinite]
  next hinfinite =>
    have hbits : value.toBits.toNat = 2047 * 2 ^ 52 := by
      have : value.toBits.toNat ≤ 2047 * 2 ^ 52 := UInt64.le_iff_toNat_le.mp h
      omega
    rw [Decimal.read?_of_isDecimal (Decimal.isDecimal_whole _), Decimal.point?_whole]
    exact congrArg some (Decimal.eq_of_toBits (Decimal.ofScientific_overflow.trans hbits.symm))

end Literal

end FormCompiler
