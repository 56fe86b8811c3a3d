/-
# Brindle.Lib.Run — runs of a checked step function.

A system takes actions one after another, each of which may fault. `run` is the whole run, `Along`
says that every action of a run meets a side condition in the state it is taken in, and `Throughout`
that every state passed through has a property. The two rules are the usual ones: an invariant that
every admissible action keeps holds at the end of every admissible run, and where the side condition
is exactly what keeps the property, a run has it throughout iff it meets the condition along.
-/
import Brindle.Lib.Outcome

namespace Run

variable {ε σ α : Type} (step : σ → α → Outcome ε σ)

/-- Take the actions one after another. -/
def run (s : σ) (actions : List α) : Outcome ε σ := actions.foldlM step s

/-- `P` holds of the state the step returns, if it returns one. -/
def After (P : σ → Prop) (r : Outcome ε σ) : Prop :=
  match r with
  | .ok s => P s
  | .error _ => True

/-- Every action meets `C` in the state it is taken in. -/
def Along (C : σ → α → Prop) : σ → List α → Prop
  | _, [] => True
  | s, a :: rest => C s a ∧ After (fun s' => Along C s' rest) (step s a)

/-- Every state passed through satisfies `P`. -/
def Throughout (P : σ → Prop) : σ → List α → Prop
  | s, [] => P s
  | s, a :: rest => P s ∧ After (fun s' => Throughout P s' rest) (step s a)

instance {P : σ → Prop} [DecidablePred P] : ∀ r : Outcome ε σ, Decidable (After P r)
  | .ok s => inferInstanceAs (Decidable (P s))
  | .error _ => inferInstanceAs (Decidable True)

instance decidableAlong {C : σ → α → Prop} [∀ s a, Decidable (C s a)] :
    ∀ s actions, Decidable (Along step C s actions)
  | _, [] => inferInstanceAs (Decidable True)
  | s, a :: rest =>
    have : DecidablePred fun s' => Along step C s' rest := fun s' => decidableAlong s' rest
    inferInstanceAs (Decidable (C s a ∧ After _ (step s a)))

variable {step}

theorem After.of_ensures {P Q : σ → Prop} {r : Outcome ε σ} (ha : After P r)
    (he : Outcome.Ensures r Q) : Outcome.Ensures r fun s => P s ∧ Q s := by
  obtain ⟨s, rfl, hq⟩ := he
  exact ⟨s, rfl, ha, hq⟩

/-! ## Partial correctness -/

theorem after_iff {P : σ → Prop} {r : Outcome ε σ} : After P r ↔ ∀ s, r = .ok s → P s := by
  cases r with
  | error e =>
    constructor
    · intro _ s hs
      cases hs
    · intro _
      trivial
  | ok s =>
    constructor
    · intro h t ht
      cases ht
      exact h
    · intro h
      exact h s rfl

theorem After.elim {P : σ → Prop} {r : Outcome ε σ} {s : σ} (h : After P r) (hr : r = .ok s) :
    P s :=
  after_iff.mp h s hr

theorem After.mono {P Q : σ → Prop} {r : Outcome ε σ} (h : After P r) (hpq : ∀ s, P s → Q s) :
    After Q r :=
  after_iff.mpr fun s hs => hpq s (h.elim hs)

theorem After.and {P Q : σ → Prop} {r : Outcome ε σ} (hp : After P r) (hq : After Q r) :
    After (fun s => P s ∧ Q s) r :=
  after_iff.mpr fun _ hs => ⟨hp.elim hs, hq.elim hs⟩

/-- A computation whose value is not looked at returns something or faults. -/
theorem after_true (r : Outcome ε σ) : After (fun _ => True) r :=
  after_iff.mpr fun _ _ => trivial

/-- Run `x`, then `f` on what it returned. -/
theorem After.bind {τ : Type} {x : Outcome ε σ} {f : σ → Outcome ε τ} {P : σ → Prop} {Q : τ → Prop}
    (hx : After P x) (hf : ∀ s, P s → After Q (f s)) : After Q (x >>= f) := by
  cases x with
  | error e => trivial
  | ok s => exact hf s hx

/-- The invariant rule for a loop that may fault: `I done s` speaks of the elements done so far. -/
theorem after_foldlM {f : σ → α → Outcome ε σ} (I : List α → σ → Prop) (xs : List α)
    (hstep : ∀ done x s, x ∈ xs → I done s → After (I (done ++ [x])) (f s x)) {s : σ}
    (hs : I [] s) : After (I xs) (xs.foldlM f s) := by
  suffices H : ∀ rest done s, (∀ x ∈ rest, x ∈ xs) → I done s →
      After (I (done ++ rest)) (rest.foldlM f s) from H xs [] s (fun _ hx => hx) hs
  intro rest
  induction rest with
  | nil =>
    intro done s _ hI
    rw [List.append_nil]
    exact hI
  | cons x rest ih =>
    intro done s hmem hI
    rw [List.foldlM_cons]
    refine After.bind (hstep done x s (hmem x List.mem_cons_self) hI) fun s' hs' => ?_
    have hrest := ih (done ++ [x]) s' (fun y hy => hmem y (List.mem_cons_of_mem _ hy)) hs'
    rw [List.append_assoc] at hrest
    exact hrest

/-- The same rule where the invariant does not mention what has been done. -/
theorem after_foldlM_const {f : σ → α → Outcome ε σ} (I : σ → Prop) (xs : List α)
    (hstep : ∀ x s, x ∈ xs → I s → After I (f s x)) {s : σ} (hs : I s) :
    After I (xs.foldlM f s) :=
  after_foldlM (fun _ => I) xs (fun _ => hstep) hs

/-! ## Runs -/

theorem Throughout.head {P : σ → Prop} {s : σ} {actions : List α}
    (h : Throughout step P s actions) : P s := by
  cases actions with
  | nil => exact h
  | cons _ _ => exact h.1

/-- What holds of every action holds along. -/
theorem along_and {C : σ → α → Prop} {Q : α → Prop} {s : σ} {actions : List α}
    (h : Along step C s actions) (hq : ∀ a ∈ actions, Q a) :
    Along step (fun s a => C s a ∧ Q a) s actions := by
  induction actions generalizing s with
  | nil => trivial
  | cons a rest ih =>
    refine ⟨⟨h.1, hq a List.mem_cons_self⟩, ?_⟩
    have hrest := h.2
    cases hs : step s a with
    | error e => trivial
    | ok s' =>
      rw [hs] at hrest
      exact ih hrest fun b hb => hq b (List.mem_cons_of_mem _ hb)

theorem Along.mono {C C' : σ → α → Prop} {s : σ} {actions : List α} (h : Along step C s actions)
    (hc : ∀ s a, C s a → C' s a) : Along step C' s actions := by
  induction actions generalizing s with
  | nil => trivial
  | cons a rest ih => exact ⟨hc s a h.1, h.2.mono fun _ hrest => ih hrest⟩

/-- A condition holds along two stretches when it holds along each. -/
theorem along_append {C : σ → α → Prop} {s s' : σ} {actions rest : List α}
    (h : Along step C s actions) (hrun : run step s actions = .ok s')
    (hrest : Along step C s' rest) : Along step C s (actions ++ rest) := by
  induction actions generalizing s with
  | nil =>
    cases hrun
    exact hrest
  | cons a actions ih =>
    refine ⟨h.1, ?_⟩
    cases hs : step s a with
    | error e => trivial
    | ok t =>
      have hfirst := h.2
      rw [hs] at hfirst
      simp only [run, List.foldlM_cons, hs, Outcome.ok_bind] at hrun
      exact ih hfirst hrun

/-- A condition that holds along two stretches holds along each. -/
theorem along_split {C : σ → α → Prop} {s : σ} {actions rest : List α}
    (h : Along step C s (actions ++ rest)) :
    Along step C s actions ∧ After (fun s' => Along step C s' rest) (run step s actions) := by
  induction actions generalizing s with
  | nil => exact ⟨trivial, h⟩
  | cons a actions ih =>
    obtain ⟨hfirst, hrest⟩ := h
    cases hs : step s a with
    | error e =>
      refine ⟨⟨hfirst, ?_⟩, ?_⟩
      · rw [hs]
        trivial
      · simp only [run, List.foldlM_cons, hs, Outcome.error_bind]
        trivial
    | ok t =>
      rw [hs] at hrest
      obtain ⟨hactions, hafter⟩ := ih hrest
      refine ⟨⟨hfirst, ?_⟩, ?_⟩
      · rw [hs]
        exact hactions
      · simp only [run, List.foldlM_cons, hs, Outcome.ok_bind]
        exact hafter

/-- A condition that every action meets in any state holds along. -/
theorem along_of_forall {C : σ → α → Prop} {actions : List α} (h : ∀ a ∈ actions, ∀ s, C s a)
    (s : σ) : Along step C s actions := by
  induction actions generalizing s with
  | nil => trivial
  | cons a rest ih =>
    exact ⟨h a List.mem_cons_self s,
      after_iff.mpr fun s' _ => ih (fun b hb => h b (List.mem_cons_of_mem a hb)) s'⟩

/-- One action that always meets the condition, any number of times. -/
theorem along_replicate {C : σ → α → Prop} {a : α} (ha : ∀ s, C s a) (n : Nat) (s : σ) :
    Along step C s (List.replicate n a) :=
  along_of_forall (fun _ hb => List.eq_of_mem_replicate hb ▸ ha) s

theorem run_append {s : σ} {actions rest : List α} :
    run step s (actions ++ rest) = run step s actions >>= fun s' => run step s' rest :=
  List.foldlM_append ..

/-- **The invariant rule for runs.** -/
theorem ensures_run {I : σ → Prop} {C : σ → α → Prop}
    (hstep : ∀ s a, I s → C s a → Outcome.Ensures (step s a) I) {s : σ} {actions : List α}
    (hs : I s) (ha : Along step C s actions) : Outcome.Ensures (run step s actions) I := by
  induction actions generalizing s with
  | nil => exact Outcome.ensures_pure.mpr hs
  | cons a rest ih =>
    obtain ⟨s', hs', hrest, hI⟩ := ha.2.of_ensures (hstep s a hs ha.1)
    simp only [run, List.foldlM_cons, hs', Outcome.ok_bind]
    exact ih hI hrest

/-- The invariant rule where a step may also fault. -/
theorem after_run {I : σ → Prop} {C : σ → α → Prop}
    (hstep : ∀ s a, I s → C s a → After I (step s a)) {s : σ} {actions : List α} (hs : I s)
    (ha : Along step C s actions) : After I (run step s actions) := by
  induction actions generalizing s with
  | nil => exact hs
  | cons a rest ih =>
    have hI := hstep s a hs ha.1
    have hrest := ha.2
    simp only [run, List.foldlM_cons]
    cases hs' : step s a with
    | error e => trivial
    | ok s' =>
      rw [hs'] at hI hrest
      exact ih hI hrest

/-- What an invariant implies holds throughout. -/
theorem throughout_of_invariant {I P : σ → Prop} {C : σ → α → Prop}
    (hstep : ∀ s a, I s → C s a → After I (step s a)) (himp : ∀ s, I s → P s) {s : σ}
    {actions : List α} (hs : I s) (ha : Along step C s actions) : Throughout step P s actions := by
  induction actions generalizing s with
  | nil => exact himp s hs
  | cons a rest ih =>
    refine ⟨himp s hs, after_iff.mpr fun s' hs' => ?_⟩
    exact ih ((hstep s a hs ha.1).elim hs') (ha.2.elim hs')

/-- What holds throughout holds of every state an action is taken in, and of the last one. -/
theorem along_of_throughout {C : σ → α → Prop} {P : σ → Prop} {s : σ} {actions : List α}
    (ha : Along step C s actions) (ht : Throughout step P s actions) :
    Along step (fun s a => C s a ∧ P s) s actions ∧ After P (run step s actions) := by
  induction actions generalizing s with
  | nil => exact ⟨trivial, ht⟩
  | cons a rest ih =>
    simp only [run, List.foldlM_cons]
    cases hs : step s a with
    | error e =>
      refine ⟨⟨⟨ha.1, ht.1⟩, ?_⟩, trivial⟩
      rw [hs]
      trivial
    | ok s' =>
      obtain ⟨hrest, hlast⟩ := ih (ha.2.elim hs) (ht.2.elim hs)
      refine ⟨⟨⟨ha.1, ht.1⟩, ?_⟩, hlast⟩
      rw [hs]
      exact hrest

/-- Where `C` is exactly what keeps `P`, a run has `P` throughout iff it meets `C` along. -/
theorem throughout_iff {I P : σ → Prop} {F C : σ → α → Prop}
    (hstep : ∀ s a, I s → F s a → Outcome.Ensures (step s a) I)
    (hkeep : ∀ s a s', I s → F s a → P s → step s a = .ok s' → (P s' ↔ C s a))
    {s : σ} {actions : List α} (hI : I s) (hP : P s) (hF : Along step F s actions) :
    Throughout step P s actions ↔ Along step C s actions := by
  induction actions generalizing s with
  | nil => exact ⟨fun _ => trivial, fun _ => hP⟩
  | cons a rest ih =>
    obtain ⟨s', hs', hF', hI'⟩ := hF.2.of_ensures (hstep s a hI hF.1)
    have hiff := hkeep s a s' hI hF.1 hP hs'
    unfold Throughout Along
    rw [hs']
    constructor
    · rintro ⟨-, hrest⟩
      have hP' : P s' := Throughout.head hrest
      exact ⟨hiff.mp hP', (ih hI' hP' hF').mp hrest⟩
    · rintro ⟨hC, hrest⟩
      exact ⟨hP, (ih hI' (hiff.mpr hC) hF').mpr hrest⟩

end Run
