/-
# Brindle.Lib.Outcome — checked computations and their postconditions.

A computation over borrowed data either returns a value, returns an error its caller can handle,
panics (an index past the end of a buffer), or is cut off by the step bound a model puts on a loop
the source leaves unbounded. `Outcome ε α` is that sum, and `Ensures` is its total-correctness
postcondition: the computation returns, and what it returns satisfies `Q`. The rules below (bind,
consequence, the invariant rule for a `foldlM` over a list) are all a proof about a loop needs; the
loop body is then reasoned about once, for one element.
-/
import Mathlib.Algebra.Group.Int.Defs
import Mathlib.Algebra.Group.Nat.Defs
import Mathlib.Data.List.Basic

namespace Outcome

/-- Why a computation did not return a value. -/
inductive Fault (ε : Type) where
  /-- An error value handed back to the caller. -/
  | error (e : ε)
  /-- An index or a slice out of range. -/
  | panic
  /-- The step bound of a loop ran out. -/
  | fuel
  deriving Repr, DecidableEq

end Outcome

/-- A computation that may fail with an `ε`, panic, or run out of steps. -/
abbrev Outcome (ε α : Type) := Except (Outcome.Fault ε) α

namespace Outcome

variable {ε α β γ : Type}

/-- An error handed back to the caller. -/
def fail (e : ε) : Outcome ε α := .error (.error e)

/-- An index out of range. -/
def panicked : Outcome ε α := .error .panic

/-- The step bound ran out. -/
def starved : Outcome ε α := .error .fuel

/-- Read element `i`, panicking past the end. -/
def index (xs : List α) (i : Nat) : Outcome ε α :=
  match xs[i]? with
  | some x => .ok x
  | none => panicked

/-- Read `count` elements from `start`, panicking when the run leaves the list. -/
def slice (xs : List α) (start count : Nat) : Outcome ε (List α) :=
  if start + count ≤ xs.length then .ok ((xs.drop start).take count) else panicked

/-- Replace a run of elements in place, panicking when it leaves the list. -/
def overwrite (xs : List α) (start : Nat) (ys : List α) : Outcome ε (List α) :=
  if start + ys.length ≤ xs.length then .ok (xs.take start ++ ys ++ xs.drop (start + ys.length))
  else panicked

theorem index_ok {xs : List α} {i : Nat} {x : α} (h : xs[i]? = some x) :
    (index xs i : Outcome ε α) = .ok x := by
  simp [index, h]

theorem index_lt {xs : List α} {i : Nat} (d : α) (h : i < xs.length) :
    (index xs i : Outcome ε α) = .ok (xs.getD i d) := by
  simp [index, h]

theorem slice_ok {xs : List α} {start count : Nat} (h : start + count ≤ xs.length) :
    (slice xs start count : Outcome ε (List α)) = .ok ((xs.drop start).take count) :=
  if_pos h

/-- The same computation, its error value translated. -/
def mapError {ε' : Type} (f : ε → ε') : Outcome ε α → Outcome ε' α
  | .ok a => .ok a
  | .error (.error e) => fail (f e)
  | .error .panic => panicked
  | .error .fuel => starved

@[simp] theorem mapError_eq_ok {ε' : Type} {f : ε → ε'} {x : Outcome ε α} {a : α} :
    x.mapError f = .ok a ↔ x = .ok a := by
  cases x with
  | ok b => simp [mapError]
  | error fault => cases fault <;> simp [mapError, fail, panicked, starved]

/-! ## Postconditions -/

/-- The computation returns, and its value satisfies `Q`. -/
def Ensures (x : Outcome ε α) (Q : α → Prop) : Prop := ∃ a, x = .ok a ∧ Q a

instance {Q : α → Prop} [DecidablePred Q] : ∀ x : Outcome ε α, Decidable (Ensures x Q)
  | .ok a => decidable_of_iff (Q a) ⟨fun h => ⟨a, rfl, h⟩, fun ⟨_, hb, hq⟩ => by cases hb; exact hq⟩
  | .error _ => .isFalse fun ⟨_, hb, _⟩ => nomatch hb

@[simp] theorem ensures_ok {a : α} {Q : α → Prop} :
    Ensures (.ok a : Outcome ε α) Q ↔ Q a :=
  ⟨fun ⟨_, hb, hq⟩ => by cases hb; exact hq, fun h => ⟨a, rfl, h⟩⟩

@[simp] theorem ensures_pure {a : α} {Q : α → Prop} :
    Ensures (pure a : Outcome ε α) Q ↔ Q a :=
  ensures_ok

theorem Ensures.mono {x : Outcome ε α} {P Q : α → Prop} (h : Ensures x P)
    (hpq : ∀ a, P a → Q a) : Ensures x Q := by
  obtain ⟨a, ha, hp⟩ := h
  exact ⟨a, ha, hpq a hp⟩

/-- Run `x`, then `f` on its value. -/
theorem Ensures.bind {x : Outcome ε α} {f : α → Outcome ε β} {P : α → Prop} {Q : β → Prop}
    (hx : Ensures x P) (hf : ∀ a, P a → Ensures (f a) Q) : Ensures (x >>= f) Q := by
  obtain ⟨a, rfl, hp⟩ := hx
  exact hf a hp

/-- What a returned value satisfies, once it is known which value was returned. -/
theorem Ensures.elim {x : Outcome ε α} {Q : α → Prop} {a : α} (h : Ensures x Q)
    (ha : x = .ok a) : Q a := by
  obtain ⟨b, hb, hq⟩ := h
  rw [ha] at hb
  cases hb
  exact hq

theorem Ensures.and {x : Outcome ε α} {P Q : α → Prop} (hp : Ensures x P) (hq : Ensures x Q) :
    Ensures x fun a => P a ∧ Q a := by
  obtain ⟨a, hx, ha⟩ := hp
  exact ⟨a, hx, ha, hq.elim hx⟩

/-- A sequenced computation returned exactly when both halves did. -/
theorem bind_eq_ok {x : Outcome ε α} {f : α → Outcome ε β} {b : β} :
    x >>= f = .ok b ↔ ∃ a, x = .ok a ∧ f a = .ok b := by
  cases x with
  | error e =>
    constructor
    · intro h
      cases h
    · rintro ⟨_, h, _⟩
      cases h
  | ok a =>
    constructor
    · intro h
      exact ⟨a, rfl, h⟩
    · rintro ⟨_, ha, h⟩
      cases ha
      exact h

@[simp] theorem ok_bind (a : α) (f : α → Outcome ε β) : (Except.ok a >>= f) = f a := rfl

@[simp] theorem error_bind (e : Fault ε) (f : α → Outcome ε β) :
    (Except.error e >>= f) = .error e := rfl

/-- The computation returns or hands back an error: it neither panics nor runs out of steps. -/
def Safe (x : Outcome ε α) : Prop := ∀ fault, x = .error fault → ∃ e, fault = .error e

theorem Ensures.safe {x : Outcome ε α} {Q : α → Prop} (h : Ensures x Q) : Safe x := by
  obtain ⟨a, rfl, -⟩ := h
  intro fault hf
  cases hf

theorem safe_pure (a : α) : Safe (pure a : Outcome ε α) := by
  intro fault hf
  cases hf

theorem safe_fail (e : ε) : Safe (fail e : Outcome ε α) := by
  intro fault hf
  cases hf
  exact ⟨e, rfl⟩

/-- The computation comes to an end, whatever it ends with. -/
def Halts (x : Outcome ε α) : Prop := x ≠ starved

theorem Ensures.halts {x : Outcome ε α} {Q : α → Prop} (h : Ensures x Q) : Halts x := by
  obtain ⟨a, rfl, -⟩ := h
  exact nofun

theorem halts_pure (a : α) : Halts (pure a : Outcome ε α) := by
  intro h
  cases h

theorem Halts.bind {x : Outcome ε α} {f : α → Outcome ε β} (hx : Halts x)
    (hf : ∀ a, x = .ok a → Halts (f a)) : Halts (x >>= f) := by
  cases x with
  | ok a => exact hf a rfl
  | error fault =>
    intro hstarved
    exact hx (congrArg Except.error (Except.error.inj hstarved))

theorem halts_foldlM {f : β → α → Outcome ε β} (xs : List α) (hstep : ∀ b, ∀ x ∈ xs, Halts (f b x))
    (b : β) : Halts (xs.foldlM f b) := by
  induction xs generalizing b with
  | nil => exact nofun
  | cons x xs ih =>
    rw [List.foldlM_cons]
    exact (hstep b x List.mem_cons_self).bind fun b' _ =>
      ih (fun b y hy => hstep b y (List.mem_cons_of_mem x hy)) b'

/-! ## Two computations side by side -/

/-- The same fault, or values related by `P`. -/
inductive Alike (P : α → β → Prop) : Outcome ε α → Outcome ε β → Prop where
  | ok {a : α} {b : β} (h : P a b) : Alike P (.ok a) (.ok b)
  | error (fault : Fault ε) : Alike P (.error fault) (.error fault)

theorem alike_self (x : Outcome ε α) : Alike Eq x x := by
  cases x with
  | ok a => exact .ok rfl
  | error fault => exact .error fault

theorem Alike.of_left {P : α → β → Prop} {x : Outcome ε α} {y : Outcome ε β} {a : α}
    (h : Alike P x y) (hx : x = .ok a) : ∃ b, y = .ok b ∧ P a b := by
  subst hx
  cases h with
  | ok hab => exact ⟨_, rfl, hab⟩

theorem Alike.of_right {P : α → β → Prop} {x : Outcome ε α} {y : Outcome ε β} {b : β}
    (h : Alike P x y) (hy : y = .ok b) : ∃ a, x = .ok a ∧ P a b := by
  subst hy
  cases h with
  | ok hab => exact ⟨_, rfl, hab⟩

theorem Alike.bind {δ : Type} {P : α → β → Prop} {Q : γ → δ → Prop} {x : Outcome ε α}
    {y : Outcome ε β} {f : α → Outcome ε γ} {g : β → Outcome ε δ} (h : Alike P x y)
    (hfg : ∀ a b, P a b → Alike Q (f a) (g b)) : Alike Q (x >>= f) (y >>= g) := by
  cases h with
  | ok hab => exact hfg _ _ hab
  | error fault => exact .error fault

theorem Alike.imp {P Q : α → β → Prop} {x : Outcome ε α} {y : Outcome ε β} (h : Alike P x y)
    (hpq : ∀ a b, P a b → Q a b) : Alike Q x y := by
  cases h with
  | ok hab => exact .ok (hpq _ _ hab)
  | error fault => exact .error fault

theorem Alike.mapError {ε' : Type} {P : α → β → Prop} {x : Outcome ε α} {y : Outcome ε β}
    (f : ε → ε') (h : Alike P x y) : Alike P (x.mapError f) (y.mapError f) := by
  cases h with
  | ok hab => exact .ok hab
  | error fault => cases fault <;> exact .error _

/-- Two loops over lists related element by element. -/
theorem Alike.foldlM {δ : Type} {f : β → α → Outcome ε β} {g : γ → δ → Outcome ε γ}
    {P : β → γ → Prop} {R : α → δ → Prop}
    (h : ∀ b c x y, P b c → R x y → Alike P (f b x) (g c y)) {xs : List α} {ys : List δ}
    (hxs : List.Forall₂ R xs ys) {b : β} {c : γ} (hbc : P b c) :
    Alike P (xs.foldlM f b) (ys.foldlM g c) := by
  induction hxs generalizing b c with
  | nil => exact .ok hbc
  | cons hxy _ ih =>
    rw [List.foldlM_cons, List.foldlM_cons]
    exact (h b c _ _ hbc hxy).bind fun b' c' hbc' => ih hbc'

/-! ## Loops -/

theorem mapM_ok {f : α → Outcome ε β} {g : α → β} (xs : List α) (h : ∀ x ∈ xs, f x = .ok (g x)) :
    xs.mapM f = .ok (xs.map g) := by
  induction xs with
  | nil => rfl
  | cons x xs ih =>
    rw [List.mapM_cons, h x List.mem_cons_self, ok_bind,
      ih fun y hy => h y (List.mem_cons_of_mem _ hy)]
    rfl

/-- A test that succeeds on every element keeps what passes it. -/
theorem filterM_ok {p : α → Outcome ε Bool} {q : α → Bool} (xs : List α)
    (h : ∀ x ∈ xs, p x = .ok (q x)) : xs.filterM p = .ok (xs.filter q) := by
  have hloop : ∀ (xs : List α) (kept : List α), (∀ x ∈ xs, p x = .ok (q x)) →
      List.filterAuxM p xs kept = .ok ((xs.filter q).reverse ++ kept) := by
    intro xs
    induction xs with
    | nil =>
      intro kept _
      rfl
    | cons x xs ih =>
      intro kept h
      rw [List.filterAuxM, h x List.mem_cons_self, ok_bind,
        ih _ fun y hy => h y (List.mem_cons_of_mem x hy), List.filter_cons]
      cases q x <;> simp
  rw [List.filterM, hloop xs [] h, ok_bind, List.append_nil, List.reverse_reverse]
  rfl

/-- A loop that appends one element each turn maps. -/
theorem foldlM_push {f : List β → α → Outcome ε (List β)} {g : α → β} (xs : List α)
    (h : ∀ x ∈ xs, ∀ ys, f ys x = .ok (ys ++ [g x])) (ys : List β) :
    xs.foldlM f ys = .ok (ys ++ xs.map g) := by
  induction xs generalizing ys with
  | nil =>
    rw [List.map_nil, List.append_nil]
    rfl
  | cons x xs ih =>
    rw [List.foldlM_cons, h x List.mem_cons_self, ok_bind,
      ih fun y hy => h y (List.mem_cons_of_mem x hy)]
    simp

/-- A loop that adds to a total each turn sums. -/
theorem foldlM_add {M : Type} [AddMonoid M] {f : M → α → Outcome ε M} {g : α → M} (xs : List α)
    (h : ∀ x ∈ xs, ∀ n, f n x = .ok (n + g x)) (n : M) :
    xs.foldlM f n = .ok (n + (xs.map g).sum) := by
  induction xs generalizing n with
  | nil =>
    rw [List.map_nil, List.sum_nil, add_zero]
    rfl
  | cons x xs ih =>
    rw [List.foldlM_cons, h x List.mem_cons_self, ok_bind,
      ih fun y hy => h y (List.mem_cons_of_mem x hy), List.map_cons, List.sum_cons, add_assoc]

/-- A traversal that succeeded, element by element. -/
theorem mapM_getElem? {ε : Type} {f : α → Except ε β} {xs : List α} {ys : List β}
    (h : xs.mapM f = .ok ys) {i : Nat} {x : α} (hx : xs[i]? = some x) :
    ∃ y, ys[i]? = some y ∧ f x = .ok y := by
  induction xs generalizing ys i with
  | nil => cases hx
  | cons a xs ih =>
    rw [List.mapM_cons] at h
    cases ha : f a with
    | error e =>
      rw [ha] at h
      cases h
    | ok b =>
      cases hrest : xs.mapM f with
      | error e =>
        rw [ha, hrest] at h
        cases h
      | ok bs =>
        rw [ha, hrest] at h
        cases h
        cases i with
        | zero =>
          cases hx
          exact ⟨b, rfl, ha⟩
        | succ i => exact ih hrest hx

/-- **The invariant rule.** `I done acc` holds before the loop with nothing done, and one step over
the next element keeps it; then it holds when the loop is over. -/
theorem ensures_foldlM {f : β → α → Outcome ε β} (I : List α → β → Prop) (xs : List α)
    (step : ∀ done x rest b, xs = done ++ x :: rest → I done b →
      Ensures (f b x) (I (done ++ [x])))
    {b : β} (hb : I [] b) : Ensures (xs.foldlM f b) (I xs) := by
  -- generalise over the part already done, then recurse on what is left
  suffices H : ∀ rest done b, xs = done ++ rest → I done b → Ensures (rest.foldlM f b) (I xs) from
    H xs [] b rfl hb
  intro rest
  induction rest with
  | nil =>
    intro done b hxs hI
    rw [List.append_nil] at hxs
    subst hxs
    exact ensures_pure.mpr hI
  | cons x rest ih =>
    intro done b hxs hI
    rw [List.foldlM_cons]
    refine (step done x rest b hxs hI).bind fun b' hb' => ?_
    exact ih (done ++ [x]) b' (by simp [hxs]) hb'

/-- A loop over a state that is partly bookkeeping is, without it, the loop over the rest. -/
theorem map_foldlM {f : β → α → Outcome ε β} {g : γ → α → Outcome ε γ} (proj : β → γ)
    (hstep : ∀ b x, proj <$> f b x = g (proj b) x) (xs : List α) (b : β) :
    proj <$> xs.foldlM f b = xs.foldlM g (proj b) := by
  induction xs generalizing b with
  | nil => rfl
  | cons x xs ih =>
    rw [List.foldlM_cons, List.foldlM_cons, ← hstep]
    cases f b x with
    | error fault => rfl
    | ok b' => exact ih b'

/-- The invariant rule when the invariant does not mention what has been done. -/
theorem ensures_foldlM_const {f : β → α → Outcome ε β} (I : β → Prop) (xs : List α)
    (step : ∀ x ∈ xs, ∀ b, I b → Ensures (f b x) I) {b : β} (hb : I b) :
    Ensures (xs.foldlM f b) I :=
  ensures_foldlM (fun _ => I) xs
    (fun done x rest b hxs hI => step x (by simp [hxs]) b hI) hb

end Outcome
