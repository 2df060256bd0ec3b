import FormCompiler.Decimal.Text
import Mathlib.Tactic.Ring

namespace FormCompiler.Decimal

open Float.Model Float.Model.UnpackedFloat

def Canonical (m : Nat) (q : Int) : Prop :=
  Format.binary64.targetExponent (totalExponent m q) = q

theorem targetExponent_mono {s t : Int} (h : s ≤ t) :
    Format.binary64.targetExponent s ≤ Format.binary64.targetExponent t := by
  unfold Format.targetExponent
  omega

theorem log2_mul_two_pow {n : Nat} (hn : n ≠ 0) (k : Nat) : (n * 2 ^ k).log2 = n.log2 + k := by
  have hpow := Nat.two_pow_pos k
  have hne : n * 2 ^ k ≠ 0 := Nat.mul_ne_zero hn hpow.ne'
  apply Nat.le_antisymm
  · apply Nat.le_of_lt_succ
    rw [Nat.log2_lt hne, Nat.succ_eq_add_one, Nat.add_right_comm, Nat.pow_add]
    exact Nat.mul_lt_mul_of_pos_right Nat.lt_log2_self hpow
  · rw [Nat.le_log2 hne, Nat.pow_add]
    exact Nat.mul_le_mul_right _ (Nat.log2_self_le hn)

theorem log2_mul_le {m n : Nat} (hm : m ≠ 0) (hn : n ≠ 0) :
    (m * n).log2 ≤ m.log2 + n.log2 + 1 := by
  apply Nat.le_of_lt_succ
  rw [Nat.log2_lt (Nat.mul_ne_zero hm hn)]
  calc m * n < 2 ^ (m.log2 + 1) * 2 ^ (n.log2 + 1) :=
        Nat.mul_lt_mul'' Nat.lt_log2_self Nat.lt_log2_self
    _ = 2 ^ (m.log2 + n.log2 + 1 + 1) := by ring

theorem shiftRight_exact (m k : Nat) :
    ExtendedMantissa.ofMantissaAndAccuracy (m * 2 ^ k) .exact >>> k = ⟨m, false, false⟩ := by
  have hrepeated : ∀ k m, Nat.repeat ExtendedMantissa.shiftRightOne k ⟨m * 2 ^ k, false, false⟩ =
      ⟨m, false, false⟩ := by
    intro k
    induction k with
    | zero => simp [Nat.repeat]
    | succ k ih =>
      intro m
      rw [Nat.repeat, Nat.pow_succ', ← Nat.mul_assoc, ih (m * 2)]
      simp [ExtendedMantissa.shiftRightOne]
  exact hrepeated k m

theorem shiftToTarget_exact {m k : Nat} {q e : Int} (hm : 0 < m) (hq : Canonical m q)
    (he : e + k = q) : shiftToTargetExponent Format.binary64 (m * 2 ^ k) e .exact =
      (⟨m, false, false⟩, q) := by
  have htotal : totalExponent (m * 2 ^ k) e = totalExponent m q := by
    unfold totalExponent
    rw [log2_mul_two_pow hm.ne']
    omega
  unfold shiftToTargetExponent
  rw [htotal, hq]
  unfold shiftToExponent
  have hk : (q - e).toNat = k := by omega
  simp only [hk, shiftRight_exact, he]

theorem round_exact {m k : Nat} {q e : Int} (hm : 0 < m) (hq : Canonical m q) (he : e + k = q) :
    roundWithAccuracy Format.binary64 .positive (m * 2 ^ k) e .exact =
      .finite .positive m q hm := by
  have hagain := shiftToTarget_exact (k := 0) hm hq (Int.add_zero q)
  rw [Nat.pow_zero, Nat.mul_one] at hagain
  rw [roundWithAccuracy, shiftToTarget_exact hm hq he]
  dsimp only [ExtendedMantissa.roundedMantissa, ExtendedMantissa.accuracy,
    Accuracy.roundToNearestEven]
  rw [hagain]
  exact dif_neg hm.ne'

theorem totalExponent_sub_le {m a k : Nat} {q : Int} (hm : 0 < m) (ha : (a : Int) = q + k) :
    totalExponent (m * 2 ^ a * 5 ^ k) 0 - totalExponent (10 ^ k) 0 ≤ totalExponent m q := by
  have hfive : 5 ^ k ≠ 0 := (Nat.pow_pos (by decide)).ne'
  have hnumerator : (m * 2 ^ a * 5 ^ k).log2 = (m * 5 ^ k).log2 + a := by
    rw [Nat.mul_right_comm, log2_mul_two_pow (Nat.mul_ne_zero hm.ne' hfive)]
  have hdenominator : (10 ^ k).log2 = (5 ^ k).log2 + k := by
    rw [show 10 = 5 * 2 from rfl, Nat.mul_pow, log2_mul_two_pow hfive]
  have hproduct := log2_mul_le hm.ne' hfive
  unfold totalExponent
  omega

theorem divCore_exact {m a k : Nat} {q : Int} (hm : 0 < m) (hq : Canonical m q)
    (ha : (a : Int) = q + k) : ∃ (j : Nat) (e : Int), e + j = q ∧
      divCore Format.binary64 (m * 2 ^ a * 5 ^ k) 0 (10 ^ k) 0 = (m * 2 ^ j, e, .exact) := by
  obtain ⟨e, he⟩ : ∃ e, e = min (0 : Int) (Format.binary64.targetExponent
      (totalExponent (m * 2 ^ a * 5 ^ k) 0 - totalExponent (10 ^ k) 0)) := ⟨_, rfl⟩
  have htarget := targetExponent_mono (totalExponent_sub_le hm ha)
  rw [hq] at htarget
  obtain ⟨j, hj⟩ : ∃ j : Nat, e + j = q := ⟨(q - e).toNat, by omega⟩
  have hshift : a + (0 - e).toNat = j + k := by omega
  have hnumerator : (m * 2 ^ a * 5 ^ k) <<< (0 - e).toNat = m * 2 ^ j * 10 ^ k := by
    rw [Nat.shiftLeft_eq, show 10 = 2 * 5 from rfl, Nat.mul_pow]
    calc m * 2 ^ a * 5 ^ k * 2 ^ (0 - e).toNat = m * 2 ^ (a + (0 - e).toNat) * 5 ^ k := by ring
      _ = m * 2 ^ j * (2 ^ k * 5 ^ k) := by rw [hshift]; ring
  refine ⟨j, e, hj, ?_⟩
  unfold divCore
  simp only [sub_self, ← he]
  rw [hnumerator, Nat.mul_div_cancel _ (Nat.pow_pos (by decide)), Nat.mul_mod_left]
  rfl

theorem div_of_divCore {n d m : Nat} {e : Int} {hn : 0 < n} {hd : 0 < d}
    (h : divCore Format.binary64 n 0 d 0 = (m, e, .exact)) :
    UnpackedFloat.div Format.binary64 (.finite .positive n 0 hn) (.finite .positive d 0 hd) =
      roundWithAccuracy Format.binary64 .positive m e .exact := by
  dsimp only [UnpackedFloat.div]
  rw [h]
  rfl

theorem ofScientific_of_divCore {n m k : Nat} {e : Int} (hn : n ≠ 0) (hk : 0 < k)
    (hsmall : k ≤ 2048) (h : divCore Format.binary64 n 0 (10 ^ k) 0 = (m, e, .exact)) :
    UnpackedFloat.ofScientific Format.binary64 n (-k) =
      roundWithAccuracy Format.binary64 .positive m e .exact := by
  have hbits : (2 : Int) ^ Format.binary64.exponentBits = 2048 := by norm_num
  have hneg : (- -(k : Int)).toNat = k := by omega
  unfold UnpackedFloat.ofScientific
  rw [dif_neg hn, if_neg (by omega), if_neg (by omega), if_neg (by omega)]
  exact div_of_divCore (by rwa [hneg])

/-- A positive double `m · 2 ^ q` is the decimal with digits `m · 2 ^ (q + k) · 5 ^ k`, with `k`
of them behind the point. -/
theorem ofScientific_exact {m a k : Nat} {q : Int} (hm : 0 < m) (hq : Canonical m q)
    (ha : (a : Int) = q + k) (hk : 0 < k) (hsmall : k ≤ 2048) :
    UnpackedFloat.ofScientific Format.binary64 (m * 2 ^ a * 5 ^ k) (-k) =
      .finite .positive m q hm := by
  have hne : m * 2 ^ a * 5 ^ k ≠ 0 :=
    Nat.mul_ne_zero (Nat.mul_ne_zero hm.ne' (Nat.two_pow_pos a).ne') (Nat.pow_pos (by decide)).ne'
  obtain ⟨j, e, hj, hdiv⟩ := divCore_exact hm hq ha
  exact (ofScientific_of_divCore hne hk hsmall hdiv).trans (round_exact hm hq hj)

theorem toNat_packComponents (e : BitVec 11) (f : BitVec 52) :
    (packComponents Format.binary64 .positive e f).toNat = e.toNat * 2 ^ 52 + f.toNat := by
  have hf := f.isLt
  unfold packComponents
  rw [BitVec.toNat_append, ← Nat.shiftLeft_add_eq_or_of_lt hf, BitVec.toNat_append,
    ← Nat.shiftLeft_add_eq_or_of_lt e.isLt, Nat.shiftLeft_eq]
  simp [Sign.toBitVec]

def mantissa (bits : Nat) : Nat :=
  if bits / 2 ^ 52 = 0 then bits else 2 ^ 52 + bits % 2 ^ 52

def exponent (bits : Nat) : Int := (bits / 2 ^ 52 - 1 : Nat) - 1074

theorem log2_mantissa {bits : Nat} (hm : 0 < mantissa bits) :
    if bits / 2 ^ 52 = 0 then (mantissa bits).log2 < 52 else (mantissa bits).log2 = 52 := by
  unfold mantissa at hm ⊢
  split
  · rw [if_pos ‹_›] at hm
    rw [Nat.log2_lt hm.ne']
    omega
  · rw [if_neg ‹_›] at hm
    rw [Nat.log2_eq_iff hm.ne']
    omega

theorem canonical_bits {bits : Nat} (hm : 0 < mantissa bits) :
    Canonical (mantissa bits) (exponent bits) := by
  have hmin : Format.binary64.minExponent = -1074 := by decide
  have hbits : (Format.binary64.mantissaBits : Int) = 53 := by decide
  have hlog := log2_mantissa hm
  unfold Canonical Format.targetExponent totalExponent
  rw [hmin, hbits]
  unfold exponent
  split at hlog <;> omega

theorem toNat_pack {bits : Nat} (hm : 0 < mantissa bits) (hbits : bits < 2047 * 2 ^ 52) :
    (UnpackedFloat.pack Format.binary64
      (.finite .positive (mantissa bits) (exponent bits) hm)).toNat
      = bits := by
  have hlog := log2_mantissa hm
  have hbiased : (exponent bits + (Format.binary64.exponentBias : Nat) + (52 : Nat)).toNat =
      bits / 2 ^ 52 - 1 + 1 := by
    rw [show Format.binary64.exponentBias = 1023 by decide]
    unfold exponent
    omega
  unfold UnpackedFloat.pack
  dsimp only
  rw [hbiased]
  rw [if_neg (by omega)]
  unfold mantissa at hlog ⊢
  split at hlog
  next he =>
    rw [if_pos he, if_neg (by rw [show Format.binary64.mantissaBits = 53 by decide]; omega),
      toNat_packComponents, BitVec.toNat_ofNat, BitVec.toNat_ofNat]
    omega
  next he =>
    rw [if_neg he, if_pos (by rw [show Format.binary64.mantissaBits = 53 by decide]; omega),
      toNat_packComponents, BitVec.toNat_ofNat, BitVec.toNat_ofNat]
    omega

theorem eq_of_toBits {x y : Float} (h : x.toBits.toNat = y.toBits.toNat) : x = y := by
  obtain ⟨bits, hx⟩ := x
  obtain ⟨bits', hy⟩ := y
  obtain rfl : bits = bits' := UInt64.toNat_inj.mp h
  rfl

theorem ofScientific_eq {n k : Nat} (hk : 22 < k) :
    (Float.ofScientific n true k).toBits.toNat = (UnpackedFloat.pack Format.binary64
      (UnpackedFloat.ofScientific Format.binary64 n (-k))).toNat := by
  unfold Float.ofScientific
  rw [dif_neg (by omega), if_pos rfl, Int.negOfNat_eq]
  rfl

def exactDigits (bits : Nat) : Nat := mantissa bits * 2 ^ (bits / 2 ^ 52 - 1) * 5 ^ 1074

theorem ofScientific_exactDigits {x : Float} (hx : x.toBits.toNat < 2047 * 2 ^ 52) :
    Float.ofScientific (exactDigits x.toBits.toNat) true 1074 = x := by
  apply eq_of_toBits
  generalize x.toBits.toNat = bits at hx
  rw [ofScientific_eq (by decide)]
  obtain hm | hm := Nat.eq_zero_or_pos (mantissa bits)
  · have hbits : bits = 0 := by
      unfold mantissa at hm
      split at hm <;> omega
    rw [exactDigits, hm, Nat.zero_mul, Nat.zero_mul, UnpackedFloat.ofScientific, dif_pos rfl, hbits]
    exact toNat_packComponents 0 0
  · have ha : ((bits / 2 ^ 52 - 1 : Nat) : Int) = exponent bits + (1074 : Nat) := by
      unfold exponent
      omega
    rw [exactDigits, ofScientific_exact hm (canonical_bits hm) ha (by decide) (by decide)]
    exact toNat_pack hm hx

end FormCompiler.Decimal
