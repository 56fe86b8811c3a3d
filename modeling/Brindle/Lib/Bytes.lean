/-
# Brindle.Lib.Bytes — little-endian integers as byte strings.

`leBytes k n` is the `k`-byte little-endian form of `n`, keeping `n` modulo `256 ^ k` as a narrowing
cast does; `ofLe` reads any byte string back as a natural. The two are inverse in both directions:
on naturals that fit, and on byte strings of the declared width. `chunks` cuts a string into runs of
one size, the last of them shorter.
-/
import Mathlib.Algebra.Order.Ring.Nat

namespace Bytes

/-- The `k` low bytes of `n`, least significant first. -/
def leBytes : Nat → Nat → List UInt8
  | 0, _ => []
  | k + 1, n => UInt8.ofNat n :: leBytes k (n / 256)

/-- The natural a little-endian byte string spells. -/
def ofLe : List UInt8 → Nat
  | [] => 0
  | b :: bs => b.toNat + 256 * ofLe bs

@[simp] theorem leBytes_length (k n : Nat) : (leBytes k n).length = k := by
  induction k generalizing n with
  | zero => rfl
  | succ k ih => simp [leBytes, ih]

theorem ofLe_leBytes (k n : Nat) : ofLe (leBytes k n) = n % 256 ^ k := by
  induction k generalizing n with
  | zero => simp [leBytes, ofLe, Nat.mod_one]
  | succ k ih =>
    have hb : (UInt8.ofNat n).toNat = n % 256 := UInt8.toNat_ofNat'
    rw [leBytes, ofLe, ih, hb, pow_succ', Nat.mod_mul]

/-- A natural that fits its width survives the round trip. -/
theorem ofLe_leBytes_of_lt {k n : Nat} (h : n < 256 ^ k) : ofLe (leBytes k n) = n := by
  rw [ofLe_leBytes, Nat.mod_eq_of_lt h]

/-- A byte string is the little-endian form of what it spells, at its own width. -/
theorem leBytes_ofLe (bs : List UInt8) : leBytes bs.length (ofLe bs) = bs := by
  induction bs with
  | nil => rfl
  | cons b bs ih =>
    have hb : b.toNat < 256 := b.toNat_lt
    have hlow : UInt8.ofNat (b.toNat + 256 * ofLe bs) = b := by
      apply UInt8.toNat_inj.mp
      rw [UInt8.toNat_ofNat']
      omega
    have hrest : (b.toNat + 256 * ofLe bs) / 256 = ofLe bs := by omega
    rw [List.length_cons, ofLe, leBytes, hlow, hrest, ih]

theorem ofLe_lt (bs : List UInt8) : ofLe bs < 256 ^ bs.length := by
  induction bs with
  | nil => simp [ofLe]
  | cons b bs ih =>
    have hb : b.toNat < 256 := b.toNat_lt
    rw [ofLe, List.length_cons, pow_succ']
    omega

/-! ## Chunks -/

/-- Consecutive runs of `size` elements; the last run may be shorter. -/
def chunks {α : Type} (size : Nat) (xs : List α) : List (List α) :=
  (List.range ((xs.length + size - 1) / size)).map fun i => (xs.drop (i * size)).take size

theorem flatten_runs {α : Type} (size : Nat) (xs : List α) (count : Nat) :
    ((List.range count).map fun i => (xs.drop (i * size)).take size).flatten =
      xs.take (count * size) := by
  induction count with
  | zero => simp
  | succ count ih =>
    rw [List.range_succ, List.map_append, List.flatten_append, ih, Nat.succ_mul, List.take_add]
    simp

theorem chunks_flatten {α : Type} {size : Nat} (h : 0 < size) (xs : List α) :
    (chunks size xs).flatten = xs := by
  have hcover : xs.length ≤ (xs.length + size - 1) / size * size := by
    have hlt := Nat.lt_div_mul_add h (a := xs.length + size - 1)
    omega
  rw [chunks, flatten_runs, List.take_of_length_le hcover]

theorem length_le_of_mem_chunks {α : Type} {size : Nat} {xs chunk : List α}
    (h : chunk ∈ chunks size xs) : chunk.length ≤ size := by
  obtain ⟨i, -, rfl⟩ := List.mem_map.mp h
  exact List.length_take_le _ _

/-- Runs of at most `size` elements hold at most `size` each. -/
theorem length_flatten_le {α : Type} {size : Nat} (runs : List (List α))
    (h : ∀ run ∈ runs, run.length ≤ size) : runs.flatten.length ≤ runs.length * size := by
  induction runs with
  | nil => simp
  | cons run runs ih =>
    have hfirst := h run List.mem_cons_self
    have hrest := ih fun r hr => h r (List.mem_cons_of_mem _ hr)
    rw [List.flatten_cons, List.length_append, List.length_cons, Nat.succ_mul]
    omega

end Bytes
