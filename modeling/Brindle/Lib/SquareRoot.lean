/-
# Brindle.Lib.SquareRoot — the rounded square root keeps order.

The root is computed at a precision that depends on the operand's exponent: so many bits, and below them
one that says whether anything was cut off. Results at different precisions do not compare directly, but
the last bit keeps a result strictly between the same two points of the grid as the root itself, and
rounding is constant there. So every operand may as well be rooted on one grid fine enough for all, where
the root with its last bit runs in the order of the operands.
-/
import Brindle.Lib.FloatOrder

namespace Ieee754

/-! ## The integer root -/

theorem isqrtFrom_spec (n k root : Nat) (hlow : root * root ≤ n)
    (hhigh : n < (root + 2 ^ k) * (root + 2 ^ k)) :
    isqrtFrom n k root * isqrtFrom n k root ≤ n ∧
      n < (isqrtFrom n k root + 1) * (isqrtFrom n k root + 1) := by
  induction k generalizing root with
  | zero => exact ⟨hlow, hhigh⟩
  | succ k ih =>
    unfold isqrtFrom
    split_ifs with hfits
    · refine ih _ hfits ?_
      rw [Nat.add_assoc, ← Nat.two_mul, ← Nat.pow_succ']
      exact hhigh
    · exact ih _ hlow (Nat.not_le.mp hfits)

theorem isqrt_eq_sqrt (n : Nat) : isqrt n = n.sqrt := by
  refine Nat.eq_sqrt.mpr (isqrtFrom_spec n _ 0 (Nat.zero_le _) ?_)
  rw [Nat.zero_add, ← Nat.pow_add]
  exact Nat.lt_log2_self.trans_le (Nat.pow_le_pow_right (by omega) (by omega))

/-- The root, and below it a bit for what was cut off. -/
def stickyRoot (n : Nat) : Nat :=
  2 * n.sqrt + if n.sqrt * n.sqrt = n then 0 else 1

theorem stickyRoot_of_square {n : Nat} (h : n.sqrt * n.sqrt = n) : stickyRoot n = 2 * n.sqrt := by
  simp [stickyRoot, h]

theorem stickyRoot_of_cut {n : Nat} (h : n.sqrt * n.sqrt ≠ n) : stickyRoot n = 2 * n.sqrt + 1 := by
  simp [stickyRoot, h]

theorem stickyRoot_mono {a b : Nat} (hab : a ≤ b) : stickyRoot a ≤ stickyRoot b := by
  rcases (Nat.sqrt_le_sqrt hab).lt_or_eq with hlt | heq
  · unfold stickyRoot
    split_ifs <;> omega
  · by_cases ha : a.sqrt * a.sqrt = a
    · rw [stickyRoot_of_square ha, heq]
      exact Nat.le_add_right _ _
    · -- with one root, what is cut off from `a` is cut off from `b`
      have hb : b.sqrt * b.sqrt ≠ b := by
        intro hb
        have hle : a.sqrt * a.sqrt ≤ a := Nat.sqrt_le a
        rw [← heq] at hb
        exact ha (by omega)
      rw [stickyRoot_of_cut ha, stickyRoot_of_cut hb, heq]

/-- On a grid finer by `j` bits, a root that was cut off stays between the same two points. -/
theorem stickyRoot_refine {n : Nat} (hcut : n.sqrt * n.sqrt ≠ n) (j : Nat) :
    2 * n.sqrt * 2 ^ j < stickyRoot (n * 4 ^ j) ∧
      stickyRoot (n * 4 ^ j) < 2 * (n.sqrt + 1) * 2 ^ j := by
  have hfour : (4 : Nat) ^ j = 2 ^ j * 2 ^ j := by
    rw [← Nat.mul_pow]
  have hpow : 0 < 2 ^ j * 2 ^ j := by positivity
  have hbelow : n.sqrt * n.sqrt < n := Nat.lt_of_le_of_ne (Nat.sqrt_le n) hcut
  have hlow : (n.sqrt * 2 ^ j) * (n.sqrt * 2 ^ j) < n * 4 ^ j := by
    rw [hfour, Nat.mul_mul_mul_comm]
    exact Nat.mul_lt_mul_of_pos_right hbelow hpow
  have hhigh : n * 4 ^ j < ((n.sqrt + 1) * 2 ^ j) * ((n.sqrt + 1) * 2 ^ j) := by
    rw [hfour, Nat.mul_mul_mul_comm]
    exact Nat.mul_lt_mul_of_pos_right (Nat.lt_succ_sqrt n) hpow
  have hroot : (n * 4 ^ j).sqrt < (n.sqrt + 1) * 2 ^ j := Nat.sqrt_lt.mpr hhigh
  have hroot' : n.sqrt * 2 ^ j ≤ (n * 4 ^ j).sqrt := Nat.le_sqrt.mpr hlow.le
  rw [Nat.mul_assoc, Nat.mul_assoc]
  by_cases hsquare : (n * 4 ^ j).sqrt * (n * 4 ^ j).sqrt = n * 4 ^ j
  · have hne : n.sqrt * 2 ^ j ≠ (n * 4 ^ j).sqrt := by
      intro heq
      rw [heq] at hlow
      omega
    rw [stickyRoot_of_square hsquare]
    omega
  · rw [stickyRoot_of_cut hsquare]
    omega

theorem stickyRoot_square {n : Nat} (hsquare : n.sqrt * n.sqrt = n) (j : Nat) :
    stickyRoot (n * 4 ^ j) = stickyRoot n * 2 ^ j := by
  have hroot : n * 4 ^ j = (n.sqrt * 2 ^ j) * (n.sqrt * 2 ^ j) := by
    rw [Nat.mul_mul_mul_comm, hsquare, ← Nat.mul_pow]
  have hsqrt : (n * 4 ^ j).sqrt = n.sqrt * 2 ^ j := by
    rw [hroot, Nat.sqrt_eq]
  rw [stickyRoot_of_square hsquare, stickyRoot_of_square (by rw [hsqrt, ← hroot]), hsqrt]
  ring

/-! ## Rounding between two points of a grid -/

/-- Between two halves, rounding is constant. -/
theorem roundHalfEven_between {x y : ℚ} {n : Nat} (hx : (n : ℚ) < 2 * x) (hx' : 2 * x < n + 1)
    (hy : (n : ℚ) < 2 * y) (hy' : 2 * y < n + 1) : roundHalfEven x = roundHalfEven y := by
  have hfloor : ∀ z : ℚ, (n : ℚ) < 2 * z → 2 * z < n + 1 → ⌊z⌋₊ = n / 2 := by
    intro z hz hz'
    have hhalf : ((n / 2 : Nat) : ℚ) * 2 + (n % 2 : Nat) = n := by
      exact_mod_cast Nat.div_add_mod' n 2
    have hmod : ((n % 2 : Nat) : ℚ) ≤ 1 := by
      exact_mod_cast Nat.lt_succ_iff.mp (Nat.mod_lt n two_pos)
    have hmod' : (0 : ℚ) ≤ (n % 2 : Nat) := by positivity
    refine (Nat.floor_eq_iff (by linarith [Nat.cast_nonneg (α := ℚ) n])).mpr ⟨?_, ?_⟩ <;> linarith
  have hup : ∀ z : ℚ, (n : ℚ) < 2 * z → 2 * z < n + 1 →
      ((1 < 2 * (z - (n / 2 : Nat)) ∨ (2 * (z - (n / 2 : Nat)) = 1 ∧ n / 2 % 2 = 1)) ↔
        n % 2 = 1) := by
    intro z hz hz'
    have hhalf : (n : ℚ) = 2 * (n / 2 : Nat) + (n % 2 : Nat) := by
      exact_mod_cast (Nat.div_add_mod n 2).symm
    rcases Nat.mod_two_eq_zero_or_one n with hmod | hmod
    · rw [hmod, Nat.cast_zero, add_zero] at hhalf
      refine iff_of_false ?_ (by omega)
      rintro (hgt | ⟨heq, -⟩) <;> linarith
    · rw [hmod, Nat.cast_one] at hhalf
      exact iff_of_true (.inl (by linarith)) hmod
  unfold roundHalfEven
  rw [hfloor x hx hx', hfloor y hy hy']
  simp only [hup x hx hx', hup y hy hy']

/-- Strictly between two neighbors of the grid of step `2 ^ g`. -/
structure Between (r : Nat) (g : Int) (x : ℚ) : Prop where
  low : (r : ℚ) * 2 ^ g < x
  high : x < (r + 1) * 2 ^ g

/-- On a grid coarser by `j` bits it is between two neighbors too. -/
theorem Between.coarsen {r j : Nat} {g : Int} {x : ℚ} (B : Between r g x) :
    Between (r / 2 ^ j) (g + j) x := by
  have hlow : ((r / 2 ^ j : Nat) : ℚ) * 2 ^ j ≤ r := by
    exact_mod_cast Nat.div_mul_le_self r (2 ^ j)
  have hhigh : (r : ℚ) + 1 ≤ ((r / 2 ^ j : Nat) + 1) * 2 ^ j := by
    have hlt : r < (r / 2 ^ j + 1) * 2 ^ j :=
      (Nat.div_lt_iff_lt_mul (Nat.two_pow_pos j)).mp (Nat.lt_succ_self _)
    exact_mod_cast hlt
  have hsplit : ∀ z : ℚ, z * 2 ^ (g + j) = z * 2 ^ j * 2 ^ g := by
    intro z
    rw [zpow_add₀ two_ne_zero, zpow_natCast]
    ring
  constructor
  · rw [hsplit]
    exact (mul_le_mul_of_nonneg_right hlow (by positivity)).trans_lt B.low
  · rw [hsplit]
    exact B.high.trans_le (mul_le_mul_of_nonneg_right hhigh (by positivity))

/-- No multiple of the step separates two values between the same neighbors. -/
theorem Between.lt_mul_iff {r n : Nat} {g : Int} {x : ℚ} (B : Between r g x) :
    x < n * 2 ^ g ↔ r < n := by
  have hpos : (0 : ℚ) < 2 ^ g := by positivity
  constructor
  · intro hlt
    have hcast : (r : ℚ) < n := lt_of_mul_lt_mul_right (B.low.trans hlt) hpos.le
    exact_mod_cast hcast
  · intro hlt
    have hcast : (r : ℚ) + 1 ≤ n := by exact_mod_cast hlt
    exact B.high.trans_le (mul_le_mul_of_nonneg_right hcast hpos.le)

namespace Format

variable {f : Format} {r : Nat} {g d : Int} {x y : ℚ}

/-- A power of two below the last place, in steps of the grid. -/
theorem pow_eq_steps (k : Nat) {j : Nat} (hd : d = g + j) :
    (2 : ℚ) ^ k * 2 ^ d = ((2 ^ k * 2 ^ j : Nat) : ℚ) * 2 ^ g := by
  rw [hd, zpow_add₀ two_ne_zero, zpow_natCast]
  push_cast
  ring

theorem mul_neg_zpow_lt {c : ℚ} : x * 2 ^ (-d) < c ↔ x < c * 2 ^ d := by
  rw [zpow_neg, ← div_eq_mul_inv, div_lt_iff₀ (by positivity)]

/-- A grid with more points below than the significand has is finer than the last place. -/
theorem Placed.grid_le (P : Placed f d x) (B : Between r g x) (hr : 2 ^ (f.prec + 1) ≤ r) :
    g + 2 ≤ d := by
  by_contra hlt
  have hsteps : (2 : ℚ) ^ f.prec * 2 ^ d ≤ r * 2 ^ g := by
    have hr' : (2 : ℚ) ^ (f.prec + 1) ≤ r := by exact_mod_cast hr
    calc (2 : ℚ) ^ f.prec * 2 ^ d ≤ 2 ^ f.prec * 2 ^ (g + 1) := by
          gcongr
          · exact one_le_two
          · omega
      _ = 2 ^ (f.prec + 1) * 2 ^ g := by
          rw [zpow_add_one₀ two_ne_zero, pow_succ]
          ring
      _ ≤ r * 2 ^ g := by gcongr
  exact absurd (mul_neg_zpow_lt.mp P.lt) (not_lt.mpr (hsteps.trans B.low.le))

/-- What is between the same neighbors of a grid finer than the last place is placed alike. -/
theorem Placed.between (P : Placed f d x) (hgd : g ≤ d) (B : Between r g x) (B' : Between r g y) :
    Placed f d y := by
  obtain ⟨j, rfl⟩ : ∃ j : Nat, d = g + j := ⟨(d - g).toNat, by omega⟩
  refine ⟨P.minExp_le, ?_, P.full.imp_right fun hfull => ?_⟩
  · have hlt := mul_neg_zpow_lt.mp P.lt
    rw [pow_eq_steps _ rfl, B.lt_mul_iff, ← B'.lt_mul_iff, ← pow_eq_steps _ rfl] at hlt
    exact mul_neg_zpow_lt.mpr hlt
  · rw [← not_lt, mul_neg_zpow_lt, pow_eq_steps _ rfl, B.lt_mul_iff] at hfull
    rw [← not_lt, mul_neg_zpow_lt, pow_eq_steps _ rfl, B'.lt_mul_iff]
    exact hfull

theorem roundedAt_between (hgd : g < d) (B : Between r g x) (B' : Between r g y) :
    f.roundedAt d x = f.roundedAt d y := by
  obtain ⟨j, hj⟩ : ∃ j : Nat, d = g + j + 1 := ⟨(d - g - 1).toNat, by omega⟩
  -- halves of the last place are points of the grid
  have hhalf : ∀ z : ℚ, Between r g z →
      ((r / 2 ^ j : Nat) : ℚ) < 2 * (z * 2 ^ (-d)) ∧ 2 * (z * 2 ^ (-d)) < (r / 2 ^ j : Nat) + 1 := by
    intro z hz
    have hunits : 2 * (z * 2 ^ (-d)) = z / 2 ^ (g + j) := by
      rw [hj, div_eq_mul_inv, ← zpow_neg, neg_add, zpow_add₀ two_ne_zero, zpow_neg_one]
      ring
    rw [hunits, lt_div_iff₀ (by positivity), div_lt_iff₀ (by positivity)]
    exact ⟨hz.coarsen.low, hz.coarsen.high⟩
  unfold roundedAt
  rw [roundHalfEven_between (hhalf x B).1 (hhalf x B).2 (hhalf y B').1 (hhalf y B').2]

/-- **Between two neighbors of a fine enough grid, rounding is constant.** -/
theorem roundDyadic_between (hprec : 0 < f.prec) {m m' : Nat} {e e' : Int}
    (hr : 2 ^ (f.prec + 1) ≤ r) (B : Between r g (m * 2 ^ e)) (B' : Between r g (m' * 2 ^ e')) :
    f.roundDyadic false m e = f.roundDyadic false m' e' := by
  obtain ⟨d, P, hround⟩ := roundRat_placed hprec (m * 2 ^ e.toNat) (Nat.two_pow_pos (-e).toNat).ne'
  obtain ⟨d', P', hround'⟩ := roundRat_placed hprec (m' * 2 ^ e'.toNat)
    (Nat.two_pow_pos (-e').toNat).ne'
  rw [dyadic] at P hround P' hround'
  have hgd := P.grid_le B hr
  have hplaced : Placed f d (m' * 2 ^ e') := P.between (by omega) B B'
  have hd : d' = d :=
    le_antisymm (P'.le_of_le hprec hplaced le_rfl) (hplaced.le_of_le hprec P' le_rfl)
  unfold roundDyadic
  rw [hround, hround', hd, roundedAt_between (by omega) B B']

/-! ## The rounded root -/

/-- The root of `n * 4 ^ p`, taken on the grid of step `2 ^ p` and rounded. -/
def rootAt (f : Format) (n : Nat) (p : Int) : Nat := f.roundDyadic false (stickyRoot n) (p - 1)

/-- **A finer grid changes nothing.** -/
theorem rootAt_refine (hprec : 0 < f.prec) {n : Nat} (hn : 4 ^ (f.prec + 1) ≤ n) (p : Int) (j : Nat) :
    f.rootAt (n * 4 ^ j) (p - j) = f.rootAt n p := by
  have hpow : (2 : ℚ) ^ (p - 1 : Int) = 2 ^ j * 2 ^ (p - j - 1 : Int) := by
    rw [← zpow_natCast, ← zpow_add₀ two_ne_zero]
    congr 1
    omega
  unfold rootAt
  by_cases hsquare : n.sqrt * n.sqrt = n
  · refine le_antisymm (roundDyadic_mono hprec ?_) (roundDyadic_mono hprec ?_) <;>
      rw [stickyRoot_square hsquare, hpow] <;> push_cast <;> linarith
  · have hroot : 2 ^ (f.prec + 1) ≤ n.sqrt := by
      refine Nat.le_sqrt.mpr ?_
      rw [← Nat.mul_pow]
      exact hn
    have hstep : ∀ z : ℚ, z * 2 ^ (p : Int) = 2 * z * 2 ^ j * 2 ^ (p - j - 1 : Int) := by
      intro z
      have hlast : (2 : ℚ) ^ p = 2 * 2 ^ (p - 1) := by
        rw [← zpow_one_add₀ two_ne_zero]
        congr 1
        omega
      rw [hlast, hpow]
      ring
    have hfine := stickyRoot_refine hsquare j
    have hcoarse := stickyRoot_of_cut hsquare
    refine roundDyadic_between (g := p) hprec hroot ⟨?_, ?_⟩ ⟨?_, ?_⟩
    · rw [hstep]
      gcongr
      exact_mod_cast hfine.1
    · rw [hstep]
      gcongr
      exact_mod_cast hfine.2
    · rw [hstep, hpow, hcoarse, ← mul_assoc]
      gcongr
      push_cast
      linarith
    · rw [hstep, hpow, hcoarse, ← mul_assoc]
      gcongr
      push_cast
      linarith

/-- On one grid the root keeps order. -/
theorem rootAt_mono (hprec : 0 < f.prec) {a b : Nat} (hab : a ≤ b) (p : Int) :
    f.rootAt a p ≤ f.rootAt b p := by
  refine roundDyadic_mono hprec ?_
  have hle : (stickyRoot a : ℚ) ≤ stickyRoot b := by exact_mod_cast stickyRoot_mono hab
  gcongr

/-- The significand brought to an even exponent. -/
def radicand (m : Nat) (e : Int) : Nat := if e % 2 == 1 then 2 * m else m

theorem radicand_value (m : Nat) (e : Int) : (radicand m e : ℚ) * 4 ^ (e / 2) = m * 2 ^ e := by
  have hfour : (4 : ℚ) ^ (e / 2) = 2 ^ (2 * (e / 2)) := by
    rw [zpow_mul]
    norm_num
  unfold radicand
  rw [hfour]
  split_ifs with hodd
  · have he : e = 2 * (e / 2) + 1 := by
      simp only [beq_iff_eq] at hodd
      omega
    conv_rhs => rw [he, zpow_add_one₀ two_ne_zero]
    push_cast
    ring
  · have he : 2 * (e / 2) = e := by
      simp only [beq_iff_eq] at hodd
      omega
    rw [he]

theorem le_radicand {m : Nat} (hm : m ≠ 0) (e : Int) : 1 ≤ radicand m e := by
  unfold radicand
  split_ifs <;> omega

theorem sqrt_of_decode {a m : Nat} {e : Int} (hdec : f.decode a = .finite false m e) (hm : m ≠ 0) :
    f.sqrt a = f.rootAt (radicand m e * 4 ^ (f.prec + 2)) (e / 2 - (f.prec + 2)) := by
  unfold sqrt
  rw [hdec]
  simp only [if_neg hm, isqrt_eq_sqrt, Bool.false_eq_true, if_false]
  rfl

section Order

variable (hprec : 1 < f.prec) (hexp : 0 < f.expBits)
include hprec hexp

theorem sqrt_infBits : f.sqrt f.infBits = f.infBits := by
  unfold sqrt
  rw [decode_infBits hprec hexp]
  rfl

theorem sqrt_zero : f.sqrt 0 = 0 := by
  have hinf : 0 < f.infBits := Nat.mul_pos (Nat.sub_pos_of_lt (Nat.one_lt_two_pow hexp.ne'))
    (Nat.two_pow_pos _)
  unfold sqrt
  rw [decode_finite hprec hexp hinf]
  simp [significand, field, withSign]

theorem sqrt_le_infBits {a : Nat} (ha : a ≤ f.infBits) : f.sqrt a ≤ f.infBits := by
  rcases ha.lt_or_eq with ha | rfl
  · rcases Nat.eq_zero_or_pos a with rfl | hpos
    · rw [sqrt_zero hprec hexp]
      exact Nat.zero_le _
    · rw [sqrt_of_decode (decode_finite hprec hexp ha) (significand_ne_zero hpos)]
      exact roundDyadic_le_infBits (Nat.zero_lt_of_lt hprec) _ _
  · exact (sqrt_infBits hprec hexp).le

/-- **The square root keeps order.** -/
theorem sqrt_mono {a b : Nat} (hab : a ≤ b) (hb : b ≤ f.infBits) : f.sqrt a ≤ f.sqrt b := by
  have hprec' : 0 < f.prec := Nat.zero_lt_of_lt hprec
  rcases hb.lt_or_eq with hb | rfl
  · rcases Nat.eq_zero_or_pos a with rfl | hpos
    · rw [sqrt_zero hprec hexp]
      exact Nat.zero_le _
    · have hvalue := value_mono (f := f) hab
      have hma := significand_ne_zero (f := f) hpos
      have hmb := significand_ne_zero (f := f) (hpos.trans_le hab)
      rw [sqrt_of_decode (decode_finite hprec hexp (hab.trans_lt hb)) hma,
        sqrt_of_decode (decode_finite hprec hexp hb) hmb]
      generalize f.significand a = m, f.significand b = k at *
      generalize f.minExp + (f.field a - 1 : Nat) = e, f.minExp + (f.field b - 1 : Nat) = d at *
      -- both are rooted on the finer of the two grids
      obtain ⟨i, hi⟩ : ∃ i : Nat, e / 2 = min (e / 2) (d / 2) + i :=
        ⟨(e / 2 - min (e / 2) (d / 2)).toNat, by omega⟩
      obtain ⟨j, hj⟩ : ∃ j : Nat, d / 2 = min (e / 2) (d / 2) + j :=
        ⟨(d / 2 - min (e / 2) (d / 2)).toNat, by omega⟩
      generalize min (e / 2) (d / 2) = p at hi hj
      have hradicand : radicand m e * 4 ^ i ≤ radicand k d * 4 ^ j := by
        rw [← radicand_value, ← radicand_value, hi, hj, zpow_add₀ four_ne_zero,
          zpow_add₀ four_ne_zero, mul_left_comm, mul_left_comm (radicand k d : ℚ)] at hvalue
        have hcast := le_of_mul_le_mul_left hvalue (by positivity)
        exact_mod_cast hcast
      have hfine : ∀ n : Nat, n ≠ 0 → ∀ (q : Int) (c : Nat), q / 2 = p + c →
          f.rootAt (radicand n q * 4 ^ (f.prec + 2)) (q / 2 - (f.prec + 2)) =
            f.rootAt (radicand n q * 4 ^ c * 4 ^ (f.prec + 2)) (p - (f.prec + 2)) := by
        intro n hn q c hq
        have hlarge : 4 ^ (f.prec + 1) ≤ radicand n q * 4 ^ (f.prec + 2) :=
          (Nat.pow_le_pow_right (by omega) (by omega)).trans
            (Nat.le_mul_of_pos_left _ (le_radicand hn q))
        rw [← rootAt_refine hprec' hlarge _ c, Nat.mul_right_comm, hq]
        congr 1
        omega
      rw [hfine m hma e i hi, hfine k hmb d j hj]
      exact rootAt_mono hprec' (Nat.mul_le_mul_right _ hradicand) _
  · rw [sqrt_infBits hprec hexp]
    exact sqrt_le_infBits hprec hexp hab

end Order

end Format

end Ieee754
