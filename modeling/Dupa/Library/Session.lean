import Mathlib.Logic.Basic

/-!
# Computations on a state that can fail

What a computation did to the state before it failed is not undone. `of_on_bind` takes
a run that succeeded apart; `on_bind` puts one together. `of_on_foldlM` and
`on_foldlM` do the same for a loop, with an invariant on the part of the list already
consumed. `Focus.run` lifts a computation to a larger state.
-/

def Session (ε σ α : Type) := σ → Except ε α × σ

namespace Session

variable {ε σ α β : Type}

/-- The result, and the state it leaves. -/
def on (x : Session ε σ α) (s : σ) : Except ε α × σ := x s

def andThen (x : Session ε σ α) (f : α → Session ε σ β) : Session ε σ β := fun s =>
  match x s with
  | (.ok a, t) => f a t
  | (.error e, t) => (.error e, t)

instance : Monad (Session ε σ) where
  pure a := fun s => (.ok a, s)
  bind := andThen

instance : LawfulMonad (Session ε σ) :=
  .mk' _
    (fun x => by
      funext s
      change andThen x (fun a => pure a) s = x s
      unfold andThen
      cases x s with
      | mk result t => cases result <;> rfl)
    (fun _ _ => rfl)
    (fun x f g => by
      funext s
      change andThen (andThen x f) g s = andThen x (fun a => andThen (f a) g) s
      simp only [andThen]
      cases x s with
      | mk result t => cases result <;> rfl)

def get : Session ε σ σ := fun s => (.ok s, s)

def set (s : σ) : Session ε σ Unit := fun _ => (.ok (), s)

/-- A result that no state is needed for. -/
def lift (x : Except ε α) : Session ε σ α := fun s => (x, s)

/-- Runs the handler on a failure, and fails all the same. -/
def onError (x : Session ε σ α) (handler : Session ε σ Unit) : Session ε σ α := fun s =>
  match x s with
  | (.ok a, t) => (.ok a, t)
  | (.error e, t) =>
    match handler t with
    | (.ok _, u) => (.error e, u)
    | (.error e', u) => (.error e', u)

variable {x : Session ε σ α} {f : α → Session ε σ β} {s t u : σ} {a : α} {b : β}

@[simp] theorem on_pure : on (pure a : Session ε σ α) s = (.ok a, s) := rfl

@[simp] theorem on_get : on (get : Session ε σ σ) s = (.ok s, s) := rfl

@[simp] theorem on_set : on (set s : Session ε σ Unit) t = (.ok (), s) := rfl

@[simp] theorem on_lift (x : Except ε α) : on (lift x : Session ε σ α) s = (x, s) := rfl

theorem on_bind (h : x.on s = (.ok a, t)) : on (x >>= f) s = (f a).on t := by
  change andThen x f s = f a t
  rw [andThen, show x s = (.ok a, t) from h]

theorem on_bind_error {e : ε} (h : x.on s = (.error e, t)) : on (x >>= f) s = (.error e, t) := by
  change andThen x f s = (.error e, t)
  rw [andThen, show x s = (.error e, t) from h]

/-- A computation that succeeds succeeds in its first part. -/
theorem of_on_bind (h : on (x >>= f) s = (.ok b, u)) :
    ∃ a t, x.on s = (.ok a, t) ∧ (f a).on t = (.ok b, u) := by
  change andThen x f s = (.ok b, u) at h
  unfold andThen at h
  cases hx : x s with
  | mk result t =>
    rw [hx] at h
    cases result with
    | ok a => exact ⟨a, t, hx, h⟩
    | error e => cases h

/-- A computation that fails fails in its first part or after it. -/
theorem of_on_bind_error {e : ε} (h : on (x >>= f) s = (.error e, u)) :
    x.on s = (.error e, u) ∨ ∃ a t, x.on s = (.ok a, t) ∧ (f a).on t = (.error e, u) := by
  change andThen x f s = (.error e, u) at h
  unfold andThen at h
  cases hx : x s with
  | mk result t =>
    rw [hx] at h
    cases result with
    | ok a => exact Or.inr ⟨a, t, hx, h⟩
    | error e' =>
      cases h
      exact Or.inl hx

theorem on_onError {handler : Session ε σ Unit} :
    (x.onError handler).on s = (.ok a, t) ↔ x.on s = (.ok a, t) := by
  unfold on onError
  cases hx : x s with
  | mk result t' =>
    cases result with
    | ok a' => exact Iff.rfl
    | error e =>
      cases hh : handler t' with
      | mk last u => cases last <;> simp [hh]

theorem on_onError_error {handler : Session ε σ Unit} {e : ε} (h : x.on s = (.error e, t))
    (handled : handler.on t = (.ok (), u)) : (x.onError handler).on s = (.error e, u) := by
  unfold on onError
  rw [show x s = (.error e, t) from h]
  dsimp only
  rw [show handler t = (.ok (), u) from handled]

/-- The handler has run after a failure. -/
theorem of_on_onError_error {handler : Session ε σ Unit} {e : ε}
    (h : (x.onError handler).on s = (.error e, u)) :
    ∃ e' t last, x.on s = (.error e', t) ∧ handler.on t = (last, u) := by
  change onError x handler s = (.error e, u) at h
  unfold onError at h
  cases hx : x s with
  | mk result t =>
    rw [hx] at h
    cases result with
    | ok a => cases h
    | error e' =>
      dsimp only at h
      cases hh : handler t with
      | mk last v =>
        rw [hh] at h
        cases last <;> cases h <;> exact ⟨_, t, _, hx, hh⟩

/-- What every turn of a fold that succeeds keeps holds at the end. -/
theorem of_on_foldlM {γ : Type} {f : β → γ → Session ε σ β} {I : List γ → β → σ → Prop}
    (turn : ∀ done y b s b' s', I done b s → (f b y).on s = (.ok b', s') → I (done ++ [y]) b' s')
    {l : List γ} {b' : β} (start : I [] b s) (h : on (l.foldlM f b) s = (.ok b', t)) : I l b' t := by
  have run : ∀ rest done b s, I done b s → on (rest.foldlM f b) s = (.ok b', t) →
      I (done ++ rest) b' t := by
    intro rest
    induction rest with
    | nil =>
      intro done b s hi h
      cases h
      rwa [List.append_nil]
    | cons y rest ih =>
      intro done b s hi h
      rw [List.foldlM_cons] at h
      obtain ⟨b₁, s₁, hy, h⟩ := of_on_bind h
      have := ih (done ++ [y]) b₁ s₁ (turn done y b s b₁ s₁ hi hy) h
      rwa [List.append_assoc] at this
  exact run l [] b s start h

/-- A fold that fails fails in one of its turns. -/
theorem of_on_foldlM_error {γ : Type} {f : β → γ → Session ε σ β} {I : List γ → β → σ → Prop}
    (turn : ∀ done y b s b' s', I done b s → (f b y).on s = (.ok b', s') → I (done ++ [y]) b' s')
    {l : List γ} {e : ε} (start : I [] b s) (h : on (l.foldlM f b) s = (.error e, t)) :
    ∃ done y rest b' s', l = done ++ y :: rest ∧ I done b' s' ∧ (f b' y).on s' = (.error e, t) := by
  have run : ∀ rest done b s, I done b s → on (rest.foldlM f b) s = (.error e, t) →
      ∃ before y after b' s', rest = before ++ y :: after ∧ I (done ++ before) b' s' ∧
        (f b' y).on s' = (.error e, t) := by
    intro rest
    induction rest with
    | nil =>
      intro done b s hi h
      cases h
    | cons y rest ih =>
      intro done b s hi h
      rw [List.foldlM_cons] at h
      rcases of_on_bind_error h with failed | ⟨b₁, s₁, hy, h⟩
      · exact ⟨[], y, rest, b, s, rfl, by rwa [List.append_nil], failed⟩
      · obtain ⟨before, z, after, b', s', rfl, hi', failed⟩ :=
          ih (done ++ [y]) b₁ s₁ (turn done y b s b₁ s₁ hi hy) h
        exact ⟨y :: before, z, after, b', s', rfl, by simpa using hi', failed⟩
  simpa using run l [] b s start h

theorem on_foldlM {γ : Type} {f : β → γ → Session ε σ β} {I : List γ → β → σ → Prop} {l : List γ}
    (turn : ∀ done y rest b s, l = done ++ y :: rest → I done b s →
      ∃ b' s', (f b y).on s = (.ok b', s') ∧ I (done ++ [y]) b' s')
    (start : I [] b s) : ∃ b' s', on (l.foldlM f b) s = (.ok b', s') ∧ I l b' s' := by
  have run : ∀ rest done b s, l = done ++ rest → I done b s →
      ∃ b' s', on (rest.foldlM f b) s = (.ok b', s') ∧ I l b' s' := by
    intro rest
    induction rest with
    | nil =>
      intro done b s hl hi
      rw [List.append_nil] at hl
      exact ⟨b, s, rfl, hl ▸ hi⟩
    | cons y rest ih =>
      intro done b s hl hi
      obtain ⟨b₁, s₁, hy, hi₁⟩ := turn done y rest b s hl hi
      obtain ⟨b', s', h, hi'⟩ := ih (done ++ [y]) b₁ s₁ (by simp [hl]) hi₁
      exact ⟨b', s', by rw [List.foldlM_cons, on_bind hy, h], hi'⟩
  exact run l [] b s rfl start

/-! ## Parts of a state -/

/-- A part of a state, and how another one is put in its place. -/
structure Focus (σ τ : Type) where
  get : σ → τ
  put : σ → τ → σ
  get_put : ∀ s t, get (put s t) = t

namespace Focus

variable {τ ρ : Type}

def whole : Focus σ σ := ⟨fun s => s, fun _ t => t, fun _ _ => rfl⟩

def second : Focus (ρ × σ) σ := ⟨Prod.snd, fun s t => (s.1, t), fun _ _ => rfl⟩

/-- Runs on a part and leaves the rest alone. -/
def run (p : Focus σ τ) (x : Session ε τ α) : Session ε σ α := fun s =>
  ((x.on (p.get s)).1, p.put s (x.on (p.get s)).2)

theorem on_run (p : Focus σ τ) {x : Session ε τ α} {s : σ} {result : Except ε α} {t : τ}
    (h : x.on (p.get s) = (result, t)) : (p.run x).on s = (result, p.put s t) := by
  change ((x.on (p.get s)).1, p.put s (x.on (p.get s)).2) = _
  rw [h]

theorem of_on_run {p : Focus σ τ} {x : Session ε τ α} {s s' : σ} {result : Except ε α}
    (h : (p.run x).on s = (result, s')) :
    x.on (p.get s) = (result, p.get s') ∧ s' = p.put s (p.get s') := by
  obtain ⟨rfl, rfl⟩ := Prod.mk.inj h
  rw [p.get_put]
  exact ⟨rfl, rfl⟩

end Focus

end Session
