/-
# Brindle.Lib.Ieee754 — executable IEEE 754 binary arithmetic on bit patterns.

One definition per operation, parametric in the interchange format: a bit pattern is decoded to an
exact dyadic number, the operation is carried out exactly, and the result is rounded once, to
nearest with ties to even. Every NaN result is the canonical quiet NaN; the standard leaves the sign
and payload of a computed NaN open, so developments that care quantify over that choice instead.

The natural logarithm is the one function here that is not rounded from an exact value: it is
evaluated in fixed point with `lnBits` fractional bits, far past the 53 of binary64, and then
rounded.
-/
import Mathlib.Algebra.Group.Int.Defs
import Mathlib.Algebra.Group.Nat.Defs
import Mathlib.Data.Int.Basic
import Mathlib.Data.Nat.Log

namespace Ieee754

/-- An interchange format: significand bits (the hidden one included) and exponent bits. -/
structure Format where
  prec : Nat
  expBits : Nat

def binary32 : Format := ⟨24, 8⟩
def binary64 : Format := ⟨53, 11⟩

/-- The exact value of a bit pattern; `finite neg m e` is `(-1)^neg * m * 2^e`. -/
inductive Datum where
  | nan
  | inf (neg : Bool)
  | finite (neg : Bool) (m : Nat) (e : Int)

namespace Format

variable (f : Format)

def signBit : Nat := 2 ^ (f.prec + f.expBits - 1)
def infBits : Nat := (2 ^ f.expBits - 1) * 2 ^ (f.prec - 1)
def nanBits : Nat := f.infBits + 2 ^ (f.prec - 2)

/-- The exponent of the last bit of a subnormal. -/
def minExp : Int := 3 - (f.prec : Int) - 2 ^ (f.expBits - 1)

def withSign (neg : Bool) (bits : Nat) : Nat := if neg then f.signBit + bits else bits

def decode (bits : Nat) : Datum :=
  let neg := bits / f.signBit % 2 == 1
  let frac := bits % 2 ^ (f.prec - 1)
  let field := bits / 2 ^ (f.prec - 1) % 2 ^ f.expBits
  if field = 2 ^ f.expBits - 1 then
    if frac = 0 then .inf neg else .nan
  else if field = 0 then .finite neg frac f.minExp
  else .finite neg (frac + 2 ^ (f.prec - 1)) (f.minExp + field - 1)

/-- Round the positive rational `num / den` to nearest, ties to even. -/
def roundRat (neg : Bool) (num den : Nat) : Nat :=
  if num = 0 then f.withSign neg 0 else
    let scaleNum (e : Int) : Nat := num * 2 ^ (-e).toNat
    let scaleDen (e : Int) : Nat := den * 2 ^ e.toNat
    let guess : Int := max f.minExp ((Nat.log2 num : Int) - Nat.log2 den - f.prec)
    let e := if scaleNum guess / scaleDen guess < 2 ^ f.prec then guess else guess + 1
    let q := scaleNum e / scaleDen e
    let r := scaleNum e % scaleDen e
    let up := 2 * r > scaleDen e || (2 * r == scaleDen e && q % 2 == 1)
    let mag := (e - f.minExp).toNat * 2 ^ (f.prec - 1) + (if up then q + 1 else q)
    f.withSign neg (min mag f.infBits)

/-- Round `(-1)^neg * m * 2^e`. -/
def roundDyadic (neg : Bool) (m : Nat) (e : Int) : Nat :=
  f.roundRat neg (m * 2 ^ e.toNat) (2 ^ (-e).toNat)

def ofNat (n : Nat) : Nat := f.roundRat false n 1

def neg (bits : Nat) : Nat :=
  if bits < f.signBit then bits + f.signBit else bits - f.signBit

def add (a b : Nat) : Nat :=
  match f.decode a, f.decode b with
  | .nan, _ | _, .nan => f.nanBits
  | .inf s, .inf t => if s = t then f.withSign s f.infBits else f.nanBits
  | .inf s, _ | _, .inf s => f.withSign s f.infBits
  | .finite s m e, .finite t k d =>
    let low := min e d
    let x : Int := (if s then -1 else 1) * (m * 2 ^ (e - low).toNat : Nat)
    let y : Int := (if t then -1 else 1) * (k * 2 ^ (d - low).toNat : Nat)
    if x + y = 0 then f.withSign (s && t) 0
    else f.roundDyadic (decide (x + y < 0)) (x + y).natAbs low

def sub (a b : Nat) : Nat := f.add a (f.neg b)

def mul (a b : Nat) : Nat :=
  match f.decode a, f.decode b with
  | .nan, _ | _, .nan => f.nanBits
  | .inf s, .inf t => f.withSign (s != t) f.infBits
  | .inf s, .finite t m _ | .finite s m _, .inf t =>
    if m = 0 then f.nanBits else f.withSign (s != t) f.infBits
  | .finite s m e, .finite t k d => f.roundDyadic (s != t) (m * k) (e + d)

def div (a b : Nat) : Nat :=
  match f.decode a, f.decode b with
  | .nan, _ | _, .nan => f.nanBits
  | .inf _, .inf _ => f.nanBits
  | .inf s, .finite t _ _ => f.withSign (s != t) f.infBits
  | .finite s _ _, .inf t => f.withSign (s != t) 0
  | .finite s m e, .finite t k d =>
    if k = 0 then if m = 0 then f.nanBits else f.withSign (s != t) f.infBits
    else f.roundRat (s != t) (m * 2 ^ (e - d).toNat) (k * 2 ^ (d - e).toNat)

end Format

/-- `⌊√n⌋`, one bit at a time from the top. -/
def isqrtFrom (n : Nat) : Nat → Nat → Nat
  | 0, root => root
  | k + 1, root =>
    if (root + 2 ^ k) * (root + 2 ^ k) ≤ n then isqrtFrom n k (root + 2 ^ k)
    else isqrtFrom n k root

def isqrt (n : Nat) : Nat := isqrtFrom n (Nat.log2 n / 2 + 1) 0

def Format.sqrt (f : Format) (a : Nat) : Nat :=
  match f.decode a with
  | .nan => f.nanBits
  | .inf s => if s then f.nanBits else f.infBits
  | .finite s m e =>
    if m = 0 then f.withSign s 0
    else if s then f.nanBits
    else
      let odd := e % 2 == 1
      let wide := (if odd then 2 * m else m) * 4 ^ (f.prec + 2)
      let root := isqrt wide
      -- one sticky bit below the root keeps the final rounding exact
      let sticky := if root * root = wide then 0 else 1
      f.roundDyadic false (2 * root + sticky) (e / 2 - (f.prec + 2) - 1)

/-- Fractional bits of the fixed-point logarithm. -/
def lnBits : Nat := 160

/-- `Σ z^(2i+1) / (2i+1)` over `terms` terms from `i`, in fixed point. -/
def atanhSeries (z : Nat) : Nat → Nat → Nat → Nat
  | 0, _, _ => 0
  | terms + 1, i, power =>
    power / (2 * i + 1) + atanhSeries z terms (i + 1) (power * z / 2 ^ lnBits * z / 2 ^ lnBits)

/-- `ln (num / den)` in fixed point, for `1 ≤ num / den ≤ 2`. -/
def lnUnit (num den : Nat) : Nat :=
  let z := (num - den) * 2 ^ lnBits / (num + den)
  2 * atanhSeries z 52 0 z

def Format.ln (f : Format) (a : Nat) : Nat :=
  match f.decode a with
  | .nan => f.nanBits
  | .inf s => if s then f.nanBits else f.infBits
  | .finite s m e =>
    if m = 0 then f.withSign true f.infBits
    else if s then f.nanBits
    else
      let top := Nat.log2 m
      let value : Int := (e + top) * (lnUnit 2 1 : Nat) + (lnUnit m (2 ^ top) : Nat)
      if value = 0 then 0 else f.roundRat (decide (value < 0)) value.natAbs (2 ^ lnBits)

/-- `⌊x⌋` of a non-negative finite value, as a natural; zero for everything negative or NaN and the
ceiling `cap` for what exceeds it: a saturating float-to-integer cast. -/
def Format.truncNat (f : Format) (cap : Nat) (a : Nat) : Nat :=
  match f.decode a with
  | .nan => 0
  | .inf s => if s then 0 else cap
  | .finite s m e => if s then 0 else min cap (m * 2 ^ e.toNat / 2 ^ (-e).toNat)

/-- Round to the nearest integer, halves away from zero. -/
def Format.roundInt (f : Format) (a : Nat) : Nat :=
  match f.decode a with
  | .nan => f.nanBits
  | .inf s => f.withSign s f.infBits
  | .finite s m e => f.withSign s
      (f.ofNat ((2 * m * 2 ^ e.toNat + 2 ^ (-e).toNat) / (2 * 2 ^ (-e).toNat)))

/-- Round to an integer towards negative infinity. -/
def Format.floor (f : Format) (a : Nat) : Nat :=
  match f.decode a with
  | .nan => f.nanBits
  | .inf s => f.withSign s f.infBits
  | .finite s m e =>
    let den := 2 ^ (-e).toNat
    let num := m * 2 ^ e.toNat
    f.withSign s (f.ofNat (if s then (num + den - 1) / den else num / den))

end Ieee754
