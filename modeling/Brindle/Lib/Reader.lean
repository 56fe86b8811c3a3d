/-
# Brindle.Lib.Reader — reasoning about decoders.

A decoder consumes a source from the front and may fail. Two judgements cover it. `Yields d Q` is
partial correctness: whatever source it succeeds on, the value satisfies `Q`; it is what accepting
untrusted input gives. `Reads d bs rest a` is the forward direction: on the bytes `bs` followed by
`rest` the decoder returns `a` and leaves `rest`; chaining it through a decoder is a round trip.
`Consumes` adds to the first which bytes were used up, so that chaining it re-encodes what was
accepted, and `Extends` says what becomes of an accepted source with more behind it. `Avoids` rules
one error out. Last, `Agrees` compares one decoder on two kinds of source: from related sources it
does the same on both.
-/
import Brindle.Lib.Outcome

/-- A computation that consumes a source front to back. -/
abbrev Reader (ε σ α : Type) := StateT σ (Outcome ε) α

namespace Reader

variable {ε σ α β γ : Type}

theorem bind_apply (d : Reader ε σ α) (f : α → Reader ε σ β) (s : σ) :
    (d >>= f) s = (d s >>= fun p => f p.1 p.2) := rfl

/-! ## Whatever is accepted -/

/-- Every value the decoder returns satisfies `Q`. -/
def Yields (d : Reader ε σ α) (Q : α → Prop) : Prop := ∀ s a s', d s = .ok (a, s') → Q a

theorem Yields.pure {a : α} {Q : α → Prop} (h : Q a) : Yields (pure a : Reader ε σ α) Q := by
  intro s b s' hb
  cases hb
  exact h

theorem Yields.bind {d : Reader ε σ α} {f : α → Reader ε σ β} {P : α → Prop} {Q : β → Prop}
    (hd : Yields d P) (hf : ∀ a, P a → Yields (f a) Q) : Yields (d >>= f) Q := by
  intro s b s' hb
  rw [bind_apply] at hb
  obtain ⟨⟨a, t⟩, ha, hb⟩ := Outcome.bind_eq_ok.mp hb
  exact hf a (hd s a t ha) t b s' hb

theorem Yields.any (d : Reader ε σ α) : Yields d fun _ => True := fun _ _ _ _ => trivial

theorem Yields.mono {d : Reader ε σ α} {P Q : α → Prop} (h : Yields d P) (hpq : ∀ a, P a → Q a) :
    Yields d Q :=
  fun s a s' ha => hpq a (h s a s' ha)

/-- The invariant rule for a decoding loop. -/
theorem Yields.foldlM {f : β → α → Reader ε σ β} (I : List α → β → Prop) (xs : List α)
    (step : ∀ done x rest b, xs = done ++ x :: rest → I done b →
      Yields (f b x) (I (done ++ [x])))
    {b : β} (hb : I [] b) : Yields (xs.foldlM f b) (I xs) := by
  suffices H : ∀ rest done b, xs = done ++ rest → I done b → Yields (rest.foldlM f b) (I xs) from
    H xs [] b rfl hb
  intro rest
  induction rest with
  | nil =>
    intro done b hxs hI
    rw [List.append_nil] at hxs
    subst hxs
    exact Yields.pure hI
  | cons x rest ih =>
    intro done b hxs hI
    rw [List.foldlM_cons]
    exact (step done x rest b hxs hI).bind fun b' hb' => ih (done ++ [x]) b' (by simp [hxs]) hb'

/-! ## Reading back what was written -/

/-- On `bs` followed by `rest` the decoder returns `a` and leaves `rest`. -/
def Reads (d : Reader ε (List γ) α) (bs rest : List γ) (a : α) : Prop := d (bs ++ rest) = .ok (a, rest)

theorem Reads.pure (a : α) (rest : List γ) : Reads (pure a : Reader ε (List γ) α) [] rest a := rfl

theorem Reads.bind {d : Reader ε (List γ) α} {f : α → Reader ε (List γ) β} {bs bs' rest : List γ}
    {a : α} {b : β} (hd : Reads d bs (bs' ++ rest) a) (hf : Reads (f a) bs' rest b) :
    Reads (d >>= f) (bs ++ bs') rest b := by
  unfold Reads at hd hf ⊢
  rw [bind_apply, List.append_assoc, hd]
  exact hf

/-- A step that consumes one element. -/
theorem Reads.bind_cons {d : Reader ε (List γ) α} {f : α → Reader ε (List γ) β} {c : γ}
    {bs rest : List γ} {a : α} {b : β} (hd : Reads d [c] (bs ++ rest) a)
    (hf : Reads (f a) bs rest b) : Reads (d >>= f) (c :: bs) rest b :=
  Reads.bind hd hf

/-- A step that consumes nothing. -/
theorem Reads.bind_nil {d : Reader ε (List γ) α} {f : α → Reader ε (List γ) β} {bs rest : List γ}
    {a : α} {b : β} (hd : Reads d [] (bs ++ rest) a) (hf : Reads (f a) bs rest b) :
    Reads (d >>= f) bs rest b :=
  Reads.bind hd hf

/-- The last step of a decoder. -/
theorem Reads.bind_pure {d : Reader ε (List γ) α} {f : α → β} {bs rest : List γ} {a : α}
    (hd : Reads d bs rest a) : Reads (d >>= fun a => Pure.pure (f a)) bs rest (f a) := by
  have h : Reads (d >>= fun a => Pure.pure (f a)) (bs ++ []) rest (f a) :=
    Reads.bind hd (Reads.pure (f a) rest)
  rwa [List.append_nil] at h

/-- A loop that reads one chunk per element. -/
theorem Reads.foldlM {f : β → α → Reader ε (List γ) β} {chunk : α → List γ} (I : List α → β)
    (xs : List α) (rest : List γ)
    (step : ∀ done x todo, xs = done ++ x :: todo →
      Reads (f (I done) x) (chunk x) (todo.flatMap chunk ++ rest) (I (done ++ [x]))) :
    Reads (xs.foldlM f (I [])) (xs.flatMap chunk) rest (I xs) := by
  suffices H : ∀ todo done, xs = done ++ todo →
      Reads (todo.foldlM f (I done)) (todo.flatMap chunk) rest (I xs) from H xs [] rfl
  intro todo
  induction todo with
  | nil =>
    intro done hxs
    rw [List.append_nil] at hxs
    subst hxs
    exact Reads.pure _ rest
  | cons x todo ih =>
    intro done hxs
    rw [List.foldlM_cons, List.flatMap_cons]
    exact (step done x todo hxs).bind (ih (done ++ [x]) (by simp [hxs]))

/-- On `bs` followed by `rest` the decoder succeeds exactly when `C` holds, and then returns `a` and
leaves `rest`. -/
structure ReadsIff (d : Reader ε (List γ) α) (bs rest : List γ) (C : Prop) (a : α) : Prop where
  reads : C → Reads d bs rest a
  forces : ∀ p, d (bs ++ rest) = .ok p → C

theorem Reads.readsIff {d : Reader ε (List γ) α} {bs rest : List γ} {a : α}
    (h : Reads d bs rest a) : ReadsIff d bs rest True a :=
  ⟨fun _ => h, fun _ _ => trivial⟩

namespace ReadsIff

variable {d : Reader ε (List γ) α} {f : α → Reader ε (List γ) β} {bs bs' rest : List γ}
  {C C' : Prop} {a : α} {b : β}

theorem congr (h : ReadsIff d bs rest C a) (hc : C ↔ C') : ReadsIff d bs rest C' a :=
  ⟨fun hc' => h.reads (hc.mpr hc'), fun p hp => hc.mp (h.forces p hp)⟩

theorem bind (hd : ReadsIff d bs (bs' ++ rest) C a)
    (hf : C → ReadsIff (f a) bs' rest C' b) : ReadsIff (d >>= f) (bs ++ bs') rest (C ∧ C') b where
  reads := fun ⟨hc, hc'⟩ => (hd.reads hc).bind ((hf hc).reads hc')
  forces p hp := by
    rw [bind_apply, List.append_assoc] at hp
    obtain ⟨q, hq, hp⟩ := Outcome.bind_eq_ok.mp hp
    have hc := hd.forces q hq
    have hread := hd.reads hc
    rw [hread] at hq
    cases hq
    exact ⟨hc, (hf hc).forces p hp⟩

/-- A step that always succeeds adds no condition. -/
theorem bind_reads (hd : Reads d bs (bs' ++ rest) a) (hf : ReadsIff (f a) bs' rest C b) :
    ReadsIff (d >>= f) (bs ++ bs') rest C b :=
  (bind hd.readsIff fun _ => hf).congr (by simp)

theorem bind_nil (hd : Reads d [] (bs ++ rest) a) (hf : ReadsIff (f a) bs rest C b) :
    ReadsIff (d >>= f) bs rest C b :=
  bind_reads hd hf

theorem bind_cons {c : γ} (hd : Reads d [c] (bs ++ rest) a) (hf : ReadsIff (f a) bs rest C b) :
    ReadsIff (d >>= f) (c :: bs) rest C b :=
  bind_reads hd hf

/-- A check: a step that consumes nothing and may fail. -/
theorem bind_check (hd : ReadsIff d [] (bs ++ rest) C a)
    (hf : C → ReadsIff (f a) bs rest C' b) : ReadsIff (d >>= f) bs rest (C ∧ C') b :=
  bind hd hf

end ReadsIff

/-! ## What was used up -/

/-- A decoder that succeeds has taken some `bs` off the front, and `Q bs` holds of what it returns. -/
def Consumes (d : Reader ε (List γ) α) (Q : List γ → α → Prop) : Prop :=
  ∀ s a s', d s = .ok (a, s') → ∃ bs, s = bs ++ s' ∧ Q bs a

namespace Consumes

variable {d : Reader ε (List γ) α} {f : α → Reader ε (List γ) β} {P Q : List γ → α → Prop}
  {R : List γ → β → Prop}

theorem pure {a : α} (h : Q [] a) : Consumes (Pure.pure a : Reader ε (List γ) α) Q := by
  intro s b s' hb
  cases hb
  exact ⟨[], rfl, h⟩

theorem mono (h : Consumes d P) (hpq : ∀ bs a, P bs a → Q bs a) : Consumes d Q := by
  intro s a s' ha
  obtain ⟨bs, hs, hp⟩ := h s a s' ha
  exact ⟨bs, hs, hpq bs a hp⟩

theorem and_yields {Y : α → Prop} (h : Consumes d P) (hy : Yields d Y) :
    Consumes d fun bs a => P bs a ∧ Y a := by
  intro s a s' ha
  obtain ⟨bs, hs, hp⟩ := h s a s' ha
  exact ⟨bs, hs, hp, hy s a s' ha⟩

theorem bind (hd : Consumes d P)
    (hf : ∀ bs a, P bs a → Consumes (f a) fun bs' b => R (bs ++ bs') b) :
    Consumes (d >>= f) R := by
  intro s b s' hb
  rw [bind_apply] at hb
  obtain ⟨⟨a, t⟩, ha, hfirst⟩ := Outcome.bind_eq_ok.mp hb
  obtain ⟨bs, rfl, hp⟩ := hd s a t ha
  obtain ⟨bs', rfl, hr⟩ := hf bs a hp t b s' hfirst
  exact ⟨bs ++ bs', (List.append_assoc bs bs' s').symm, hr⟩

/-- What a decoder consumes aside, it is what it yields. -/
theorem yields {Y : α → Prop} (h : Consumes d P) (hy : ∀ bs a, P bs a → Y a) : Yields d Y := by
  intro s a s' ha
  obtain ⟨bs, -, hp⟩ := h s a s' ha
  exact hy bs a hp

/-- A step that takes nothing. -/
theorem bind_check {P : α → Prop} (hd : Consumes d fun bs a => bs = [] ∧ P a)
    (hf : ∀ a, P a → Consumes (f a) R) : Consumes (d >>= f) R := by
  refine hd.bind ?_
  rintro bs a ⟨rfl, hp⟩
  exact hf a hp

/-- A loop that takes one chunk per element. -/
theorem foldlM {f : β → α → Reader ε (List γ) β} (I : List α → List γ → β → Prop) (xs : List α)
    (step : ∀ done x rest bs b, xs = done ++ x :: rest → I done bs b →
      Consumes (f b x) fun bs' b' => I (done ++ [x]) (bs ++ bs') b')
    {b : β} (hb : I [] [] b) : Consumes (xs.foldlM f b) (I xs) := by
  suffices H : ∀ rest done bs b, xs = done ++ rest → I done bs b →
      Consumes (rest.foldlM f b) fun bs' b' => I xs (bs ++ bs') b' from
    (H xs [] [] b rfl hb).mono fun bs b hI => hI
  intro rest
  induction rest with
  | nil =>
    intro done bs b hxs hI
    rw [List.append_nil] at hxs
    subst hxs
    exact Consumes.pure (by rwa [List.append_nil])
  | cons x rest ih =>
    intro done bs b hxs hI
    rw [List.foldlM_cons]
    refine (step done x rest bs b hxs hI).bind fun bs' b' hb' => ?_
    refine (ih (done ++ [x]) (bs ++ bs') b' (by simp [hxs]) hb').mono fun bs'' b'' h => ?_
    rwa [List.append_assoc] at h

end Consumes

/-! ## A longer source -/

/-- What `d` accepts, `e` accepts with anything behind it, which it leaves alone. -/
def Extends (d e : Reader ε (List γ) α) : Prop :=
  ∀ s a s', d s = .ok (a, s') → ∀ tail, e (s ++ tail) = .ok (a, s' ++ tail)

namespace Extends

theorem pure (a : α) : Extends (Pure.pure a : Reader ε (List γ) α) (Pure.pure a) := by
  intro s b s' hb tail
  cases hb
  rfl

theorem bind {d e : Reader ε (List γ) α} {f g : α → Reader ε (List γ) β} (h : Extends d e)
    (hfg : ∀ a, Extends (f a) (g a)) : Extends (d >>= f) (e >>= g) := by
  intro s b s' hb tail
  rw [bind_apply] at hb ⊢
  obtain ⟨⟨a, t⟩, ha, hb⟩ := Outcome.bind_eq_ok.mp hb
  rw [h s a t ha tail]
  exact hfg a t b s' hb tail

theorem foldlM {f g : β → α → Reader ε (List γ) β} (h : ∀ b a, Extends (f b a) (g b a))
    (xs : List α) (b : β) : Extends (xs.foldlM f b) (xs.foldlM g b) := by
  induction xs generalizing b with
  | nil => exact pure b
  | cons x xs ih =>
    rw [List.foldlM_cons, List.foldlM_cons]
    exact (h b x).bind ih

end Extends

/-! ## Untrusted sources -/

/-- From any source the decoder returns or reports an error; what it returns satisfies `Q`, and the
source has not grown. -/
structure Handles (size : σ → Nat) (d : Reader ε σ α) (Q : α → Prop) : Prop where
  safe : ∀ s, Outcome.Safe (d s)
  post : ∀ s a s', d s = .ok (a, s') → Q a ∧ size s' ≤ size s

namespace Handles

variable {size : σ → Nat} {d : Reader ε σ α} {f : α → Reader ε σ β} {P Q : α → Prop}
  {R : β → Prop}

theorem pure {a : α} (h : Q a) : Handles size (Pure.pure a : Reader ε σ α) Q where
  safe _ := Outcome.safe_pure _
  post s b s' hb := by
    cases hb
    exact ⟨h, Nat.le_refl _⟩

theorem mono (h : Handles size d P) (hpq : ∀ a, P a → Q a) : Handles size d Q where
  safe := h.safe
  post s a s' ha := by
    obtain ⟨hp, hle⟩ := h.post s a s' ha
    exact ⟨hpq a hp, hle⟩

theorem bind (hd : Handles size d P) (hf : ∀ a, P a → Handles size (f a) R) :
    Handles size (d >>= f) R where
  safe s := by
    rw [bind_apply]
    cases hs : d s with
    | error fault =>
      intro fault' hfault
      cases hfault
      exact hd.safe s fault hs
    | ok p => exact (hf p.1 (hd.post s p.1 p.2 hs).1).safe p.2
  post s b s' hb := by
    rw [bind_apply] at hb
    obtain ⟨⟨a, t⟩, ha, hrest⟩ := Outcome.bind_eq_ok.mp hb
    obtain ⟨hp, hle⟩ := hd.post s a t ha
    obtain ⟨hr, hle'⟩ := (hf a hp).post t b s' hrest
    exact ⟨hr, Nat.le_trans hle' hle⟩

/-- The invariant rule for a decoding loop. -/
theorem foldlM {f : β → α → Reader ε σ β} (I : List α → β → Prop) (xs : List α)
    (step : ∀ done x rest b, xs = done ++ x :: rest → I done b →
      Handles size (f b x) (I (done ++ [x])))
    {b : β} (hb : I [] b) : Handles size (xs.foldlM f b) (I xs) := by
  suffices H : ∀ rest done b, xs = done ++ rest → I done b →
      Handles size (rest.foldlM f b) (I xs) from H xs [] b rfl hb
  intro rest
  induction rest with
  | nil =>
    intro done b hxs hI
    rw [List.append_nil] at hxs
    subst hxs
    exact pure hI
  | cons x rest ih =>
    intro done b hxs hI
    rw [List.foldlM_cons]
    exact (step done x rest b hxs hI).bind fun b' hb' => ih (done ++ [x]) b' (by simp [hxs]) hb'

end Handles

/-- On every source of at most `limit` the two do the same. -/
def Matches (size : σ → Nat) (limit : Nat) (g d : Reader ε σ α) : Prop :=
  ∀ s, size s ≤ limit → g s = d s

namespace Matches

variable {size : σ → Nat} {limit : Nat} {g d : Reader ε σ α}

theorem refl (d : Reader ε σ α) : Matches size limit d d := fun _ _ => rfl

theorem bind {f f' : α → Reader ε σ β} {P : α → Prop} (h : Matches size limit g d)
    (hd : Handles size d P) (hf : ∀ a, P a → Matches size limit (f' a) (f a)) :
    Matches size limit (g >>= f') (d >>= f) := by
  intro s hs
  rw [bind_apply, bind_apply, h s hs]
  cases hrun : d s with
  | error fault => rfl
  | ok p =>
    obtain ⟨hp, hle⟩ := hd.post s p.1 p.2 hrun
    exact hf p.1 hp p.2 (Nat.le_trans hle hs)

/-- A first step the two have in common. -/
theorem step {f f' : α → Reader ε σ β} {P : α → Prop} (hd : Handles size d P)
    (hf : ∀ a, P a → Matches size limit (f' a) (f a)) :
    Matches size limit (d >>= f') (d >>= f) :=
  (refl d).bind hd hf

/-- The same loop over bodies that match wherever the invariant holds. -/
theorem foldlM {f f' : β → α → Reader ε σ β} (I : List α → β → Prop) (xs : List α)
    (step : ∀ done x rest b, xs = done ++ x :: rest → I done b →
      Matches size limit (f' b x) (f b x) ∧ Handles size (f b x) (I (done ++ [x])))
    {b : β} (hb : I [] b) : Matches size limit (xs.foldlM f' b) (xs.foldlM f b) := by
  suffices H : ∀ rest done b, xs = done ++ rest → I done b →
      Matches size limit (rest.foldlM f' b) (rest.foldlM f b) from H xs [] b rfl hb
  intro rest
  induction rest with
  | nil =>
    intro done b _ _
    exact refl _
  | cons x rest ih =>
    intro done b hxs hI
    rw [List.foldlM_cons, List.foldlM_cons]
    obtain ⟨hm, hh⟩ := step done x rest b hxs hI
    exact hm.bind hh fun b' hb' => ih (done ++ [x]) b' (by simp [hxs]) hb'

end Matches

/-! ## Errors that are not handed back -/

/-- From this source the decoder does not hand back `e`. -/
def Avoids (e : ε) (d : Reader ε σ α) (s : σ) : Prop := d s ≠ Outcome.fail e

namespace Avoids

variable {e : ε}

theorem pure (a : α) (s : σ) : Avoids e (Pure.pure a : Reader ε σ α) s := nofun

theorem bind {d : Reader ε σ α} {f : α → Reader ε σ β} {s : σ} (hd : Avoids e d s)
    (hf : ∀ a s', d s = .ok (a, s') → Avoids e (f a) s') : Avoids e (d >>= f) s := by
  unfold Avoids
  rw [bind_apply]
  cases hs : d s with
  | error fault =>
    intro heq
    exact hd (hs.trans (congrArg Except.error (Except.error.inj heq)))
  | ok p => exact hf p.1 p.2 hs

/-- A step that reads a known prefix. -/
theorem reads {d : Reader ε (List γ) α} {f : α → Reader ε (List γ) β} {bs rest : List γ} {a : α}
    (hd : Reads d bs rest a) (hf : Avoids e (f a) rest) : Avoids e (d >>= f) (bs ++ rest) := by
  unfold Avoids at hf ⊢
  rw [bind_apply, hd]
  exact hf

/-- A step that consumes one element. -/
theorem reads_cons {d : Reader ε (List γ) α} {f : α → Reader ε (List γ) β} {c : γ} {rest : List γ}
    {a : α} (hd : Reads d [c] rest a) (hf : Avoids e (f a) rest) : Avoids e (d >>= f) (c :: rest) :=
  reads hd hf

/-- A step that consumes nothing. -/
theorem reads_nil {d : Reader ε (List γ) α} {f : α → Reader ε (List γ) β} {rest : List γ} {a : α}
    (hd : Reads d [] rest a) (hf : Avoids e (f a) rest) : Avoids e (d >>= f) rest :=
  reads hd hf

theorem foldlM {f : β → α → Reader ε σ β} (h : ∀ b x s, Avoids e (f b x) s) (xs : List α) (b : β)
    (s : σ) : Avoids e (xs.foldlM f b) s := by
  induction xs generalizing b s with
  | nil => exact pure b s
  | cons x xs ih =>
    rw [List.foldlM_cons]
    exact (h b x s).bind fun b' s' _ => ih b' s'

end Avoids

/-! ## Two kinds of source -/

/-- From related sources the two fail alike, or return one value and leave related sources. -/
def Agrees {τ : Type} (R : σ → τ → Prop) (d : Reader ε σ α) (e : Reader ε τ α) : Prop :=
  ∀ s t, R s t → Outcome.Alike (fun p q => p.1 = q.1 ∧ R p.2 q.2) (d s) (e t)

namespace Agrees

variable {τ : Type} {R : σ → τ → Prop}

theorem pure (a : α) : Agrees R (Pure.pure a : Reader ε σ α) (Pure.pure a) :=
  fun _ _ h => .ok ⟨rfl, h⟩

theorem bind {d : Reader ε σ α} {e : Reader ε τ α} {f : α → Reader ε σ β} {g : α → Reader ε τ β}
    (h : Agrees R d e) (hfg : ∀ a, Agrees R (f a) (g a)) : Agrees R (d >>= f) (e >>= g) := by
  intro s t hst
  rw [bind_apply, bind_apply]
  refine (h s t hst).bind ?_
  rintro ⟨a, s'⟩ ⟨_, t'⟩ ⟨rfl, hst'⟩
  exact hfg a s' t' hst'

theorem foldlM {f : β → α → Reader ε σ β} {g : β → α → Reader ε τ β}
    (h : ∀ b a, Agrees R (f b a) (g b a)) (xs : List α) (b : β) :
    Agrees R (xs.foldlM f b) (xs.foldlM g b) := by
  induction xs generalizing b with
  | nil => exact pure b
  | cons x xs ih =>
    rw [List.foldlM_cons, List.foldlM_cons]
    exact (h b x).bind ih

end Agrees

end Reader
