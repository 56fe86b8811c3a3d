/-
# Brindle.Lib.Signs — what the rounded operations make of signs.

Round to nearest is symmetric about zero, so a difference and the one the other way around are each
other's mirror image: the same magnitude, and the same square. Sums and squares of what is not negative
are not negative, and no NaN comes of them. All of it is read off the decoded values, where negation
flips one bit.
-/
import Brindle.Lib.FloatOrder

namespace Ieee754

namespace Datum

/-- The mirror image about zero. -/
def neg : Datum → Datum
  | .nan => .nan
  | .inf s => .inf !s
  | .finite s m e => .finite (!s) m e

/-- The magnitude. -/
def abs : Datum → Datum
  | .nan => .nan
  | .inf _ => .inf false
  | .finite _ m e => .finite false m e

@[simp] theorem neg_neg (d : Datum) : d.neg.neg = d := by
  rcases d with _ | s | ⟨s, m, e⟩ <;> simp [neg]

end Datum

namespace Format

variable {f : Format}

/-! ## Patterns and their signs -/

/-- A pattern is a sign and a magnitude. -/
theorem exists_withSign {bits : Nat} (hbits : bits < 2 * f.signBit) :
    ∃ s, ∃ low < f.signBit, bits = f.withSign s low := by
  rcases Nat.lt_or_ge bits f.signBit with hlow | hhigh
  · exact ⟨false, bits, hlow, rfl⟩
  · refine ⟨true, bits - f.signBit, by omega, ?_⟩
    show bits = f.signBit + (bits - f.signBit)
    omega

theorem neg_withSign (s : Bool) {low : Nat} (hlow : low < f.signBit) :
    f.neg (f.withSign s low) = f.withSign (!s) low := by
  rcases s with _ | _
  · simp [neg, withSign, hlow, Nat.add_comm]
  · simp [neg, withSign]

section Patterns

variable (hprec : 1 < f.prec) (hexp : 0 < f.expBits)
include hprec hexp

/-- The sign of a pattern is the sign of its value. -/
theorem decode_not (s : Bool) {low : Nat} (hlow : low < f.signBit) :
    f.decode (f.withSign (!s) low) = (f.decode (f.withSign s low)).neg := by
  rcases Nat.lt_trichotomy low f.infBits with hfinite | rfl | hnan
  · simp [decode_withSign (Nat.zero_lt_of_lt hprec) hexp _ hfinite, Datum.neg]
  · simp [decode_inf hprec hexp, Datum.neg]
  · simp [decode_nan hprec hexp _ hnan hlow, Datum.neg]

theorem decode_neg {bits : Nat} (hbits : bits < 2 * f.signBit) :
    f.decode (f.neg bits) = (f.decode bits).neg := by
  obtain ⟨s, low, hlow, rfl⟩ := exists_withSign hbits
  rw [neg_withSign s hlow, decode_not hprec hexp s hlow]

theorem abs_decode_withSign (s t : Bool) {low : Nat} (hlow : low ≤ f.infBits) :
    (f.decode (f.withSign s low)).abs = (f.decode (f.withSign t low)).abs := by
  rcases hlow.lt_or_eq with hfinite | rfl
  · simp [decode_withSign (Nat.zero_lt_of_lt hprec) hexp _ hfinite, Datum.abs]
  · simp [decode_inf hprec hexp, Datum.abs]

end Patterns

/-! ## Sums -/

/-- The rounded sum of two values. -/
def sum (f : Format) : Datum → Datum → Nat
  | .nan, _ | _, .nan => f.nanBits
  | .inf s, .inf t => if s = t then f.withSign s f.infBits else f.nanBits
  | .inf s, _ | _, .inf s => f.withSign s f.infBits
  | .finite s m e, .finite t k d =>
    let low := min e d
    let x : Int := (if s then -1 else 1) * (m * 2 ^ (e - low).toNat : Nat)
    let y : Int := (if t then -1 else 1) * (k * 2 ^ (d - low).toNat : Nat)
    if x + y = 0 then f.withSign (s && t) 0
    else f.roundDyadic (decide (x + y < 0)) (x + y).natAbs low

/-- The exact sum of two finite values, in units of the lower exponent. -/
def exactSum (s : Bool) (m : Nat) (e : Int) (t : Bool) (k : Nat) (d : Int) : Int :=
  (if s then -1 else 1) * (m * 2 ^ (e - min e d).toNat : Nat) +
    (if t then -1 else 1) * (k * 2 ^ (d - min e d).toNat : Nat)

theorem exactSum_neg (s : Bool) (m : Nat) (e : Int) (t : Bool) (k : Nat) (d : Int) :
    exactSum (!s) m e (!t) k d = -exactSum s m e t k d := by
  rcases s with _ | _ <;> rcases t with _ | _ <;> simp [exactSum] <;> ring

theorem exactSum_nonneg (m : Nat) (e : Int) (k : Nat) (d : Int) :
    0 ≤ exactSum false m e false k d := by
  simp only [exactSum, Bool.false_eq_true, if_false, one_mul]
  positivity

theorem sum_finite (s : Bool) (m : Nat) (e : Int) (t : Bool) (k : Nat) (d : Int) :
    f.sum (.finite s m e) (.finite t k d) =
      if exactSum s m e t k d = 0 then f.withSign (s && t) 0
      else f.roundDyadic (decide (exactSum s m e t k d < 0)) (exactSum s m e t k d).natAbs
        (min e d) := rfl

theorem add_eq_sum (a b : Nat) : f.add a b = f.sum (f.decode a) (f.decode b) := rfl

theorem sum_comm (x y : Datum) : f.sum x y = f.sum y x := by
  rcases x with _ | s | ⟨s, m, e⟩ <;> rcases y with _ | t | ⟨t, k, d⟩ <;> try rfl
  · rcases s with _ | _ <;> rcases t with _ | _ <;> rfl
  · simp only [sum, min_comm e d, Bool.and_comm s t, Int.add_comm]

theorem roundDyadic_sign (s : Bool) (m : Nat) (e : Int) :
    f.roundDyadic s m e = f.withSign s (f.roundDyadic false m e) :=
  roundRat_sign ..

theorem nanBits_lt_signBit (hprec : 1 < f.prec) (hexp : 0 < f.expBits) : f.nanBits < f.signBit := by
  have hsign : f.signBit = 2 ^ f.expBits * 2 ^ (f.prec - 1) := by
    rw [← Nat.pow_add, signBit]
    congr 1
    omega
  have hquiet : 2 ^ (f.prec - 2) < 2 ^ (f.prec - 1) :=
    Nat.pow_lt_pow_right (by omega) (by omega)
  have hfill : (2 ^ f.expBits - 1) * 2 ^ (f.prec - 1) + 2 ^ (f.prec - 1) =
      2 ^ f.expBits * 2 ^ (f.prec - 1) := by
    rw [← Nat.succ_mul, Nat.succ_eq_add_one, Nat.sub_add_cancel (Nat.two_pow_pos _)]
  unfold nanBits infBits
  omega

theorem withSign_lt (hprec : 0 < f.prec) (hexp : 0 < f.expBits) (s : Bool) {low : Nat}
    (hlow : low ≤ f.infBits) : f.withSign s low < 2 * f.signBit := by
  have hinf := infBits_lt_signBit (f := f) hprec hexp
  unfold withSign
  split_ifs <;> omega

section Mirror

variable (hprec : 1 < f.prec) (hexp : 0 < f.expBits)
include hprec hexp

/-- A sum is a pattern of the format. -/
theorem sum_lt (x y : Datum) : f.sum x y < 2 * f.signBit := by
  have hprec' : 0 < f.prec := Nat.zero_lt_of_lt hprec
  have hnan := nanBits_lt_signBit (f := f) hprec hexp
  rcases x with _ | s | ⟨s, m, e⟩ <;> rcases y with _ | t | ⟨t, k, d⟩
  all_goals first
    | (show f.nanBits < _; omega)
    | exact withSign_lt hprec' hexp _ le_rfl
    | skip
  · show (if s = t then _ else f.nanBits) < _
    split_ifs
    · exact withSign_lt hprec' hexp _ le_rfl
    · omega
  · rw [sum_finite]
    split_ifs
    · exact withSign_lt hprec' hexp _ (Nat.zero_le _)
    · rw [roundDyadic_sign]
      exact withSign_lt hprec' hexp _ (roundDyadic_le_infBits hprec' _ _)

/-- **Rounding is symmetric about zero**: two values mirrored have a sum of the same magnitude. -/
theorem abs_sum_neg (x y : Datum) :
    (f.decode (f.sum x.neg y.neg)).abs = (f.decode (f.sum x y)).abs := by
  rcases x with _ | s | ⟨s, m, e⟩ <;> rcases y with _ | t | ⟨t, k, d⟩ <;> try rfl
  · rcases s with _ | _ <;> rcases t with _ | _ <;>
      simp [sum, Datum.neg, decode_inf hprec hexp, Datum.abs]
  · exact abs_decode_withSign hprec hexp _ _ le_rfl
  · exact abs_decode_withSign hprec hexp _ _ le_rfl
  · show (f.decode (f.sum (.finite (!s) m e) (.finite (!t) k d))).abs = _
    rw [sum_finite, sum_finite, exactSum_neg]
    generalize exactSum s m e t k d = z
    by_cases hz : z = 0
    · simp only [hz, neg_zero, if_true]
      exact abs_decode_withSign hprec hexp _ _ (Nat.zero_le _)
    · rw [if_neg hz, if_neg (neg_ne_zero.mpr hz), Int.natAbs_neg, roundDyadic_sign,
        roundDyadic_sign (decide (z < 0))]
      exact abs_decode_withSign hprec hexp _ _
        (roundDyadic_le_infBits (Nat.zero_lt_of_lt hprec) _ _)

/-- A difference and the one the other way around have one magnitude. -/
theorem abs_sub_comm {a b : Nat} (ha : a < 2 * f.signBit) (hb : b < 2 * f.signBit) :
    (f.decode (f.sub a b)).abs = (f.decode (f.sub b a)).abs := by
  have hmirror := abs_sum_neg hprec hexp (f.decode b) (f.decode a).neg
  rw [Datum.neg_neg, sum_comm] at hmirror
  unfold sub
  rw [add_eq_sum, add_eq_sum, decode_neg hprec hexp ha, decode_neg hprec hexp hb]
  exact hmirror

/-- A finite value less itself is the positive zero. -/
theorem sub_self {s : Bool} {a : Nat} (ha : a < f.infBits) :
    f.sub (f.withSign s a) (f.withSign s a) = 0 := by
  have hprec' : 0 < f.prec := Nat.zero_lt_of_lt hprec
  unfold sub
  rw [neg_withSign s (ha.trans (infBits_lt_signBit hprec' hexp)), add_eq_sum,
    decode_withSign hprec' hexp s ha, decode_withSign hprec' hexp (!s) ha]
  rcases s with _ | _ <;> simp [sum, withSign]

/-- The difference of two finite values is finite or infinite, never a NaN. -/
theorem exists_sub {s t : Bool} {a b : Nat} (ha : a < f.infBits) (hb : b < f.infBits) :
    ∃ u, ∃ low ≤ f.infBits, f.sub (f.withSign s a) (f.withSign t b) = f.withSign u low := by
  have hprec' : 0 < f.prec := Nat.zero_lt_of_lt hprec
  unfold sub
  rw [neg_withSign t (hb.trans (infBits_lt_signBit hprec' hexp)), add_eq_sum,
    decode_withSign hprec' hexp s ha, decode_withSign hprec' hexp (!t) hb]
  rw [sum_finite]
  split_ifs
  · exact ⟨_, 0, Nat.zero_le _, rfl⟩
  · rw [roundDyadic_sign]
    exact ⟨_, _, roundDyadic_le_infBits hprec' _ _, rfl⟩

/-- What is not negative adds up to what is not. -/
theorem add_le_infBits {a b : Nat} (ha : a ≤ f.infBits) (hb : b ≤ f.infBits) :
    f.add a b ≤ f.infBits := by
  have hprec' : 0 < f.prec := Nat.zero_lt_of_lt hprec
  rw [add_eq_sum]
  rcases ha.lt_or_eq with ha | rfl <;> rcases hb.lt_or_eq with hb | rfl
  · rw [decode_finite hprec hexp ha, decode_finite hprec hexp hb]
    rw [sum_finite]
    split_ifs
    · exact Nat.zero_le _
    · rw [decide_eq_false (not_lt.mpr (exactSum_nonneg ..))]
      exact roundDyadic_le_infBits hprec' _ _
  · rw [decode_finite hprec hexp ha, decode_infBits hprec hexp]
    exact le_rfl
  · rw [decode_infBits hprec hexp, decode_finite hprec hexp hb]
    exact le_rfl
  · rw [decode_infBits hprec hexp]
    exact le_rfl

end Mirror

/-! ## Squares -/

/-- A square is a matter of the magnitude. -/
theorem mul_self_congr {a b : Nat} (h : (f.decode a).abs = (f.decode b).abs) :
    f.mul a a = f.mul b b := by
  unfold mul
  generalize f.decode a = x, f.decode b = y at h
  rcases x with _ | s | ⟨s, m, e⟩ <;> rcases y with _ | t | ⟨t, k, d⟩ <;>
    simp_all [Datum.abs]

/-- And never negative. -/
theorem mul_self_le_infBits (hprec : 0 < f.prec) {a : Nat} (ha : f.decode a ≠ .nan) :
    f.mul a a ≤ f.infBits := by
  unfold mul
  generalize f.decode a = x at ha
  rcases x with _ | s | ⟨s, m, e⟩
  · exact absurd rfl ha
  · simp [withSign]
  · simp only [bne_self_eq_false]
    exact roundDyadic_le_infBits hprec _ _

end Format

end Ieee754
