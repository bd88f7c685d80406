import Dupa.Library.Sql

/-!
# Transactions in a larger state

A body between `BEGIN` and `COMMIT` that does not end the transaction itself takes effect
when it is committed (`of_transacted`, `transacted_on`). What it does to the rest of the
state is not undone when it fails (`of_transacted_error`).
-/

namespace Sql

open Checked Session

variable {V σ α β : Type}

/-- What is left in the database if the program ends here. -/
def Connection.durable (c : Connection V) : Database V := c.saved.getD c.tables

/-- Neither begins nor ends a transaction. -/
def Confined (p : Focus σ (Connection V)) (x : Session Error σ α) : Prop :=
  ∀ s, (p.get (x.on s).2).saved = (p.get s).saved

namespace Confined

variable {p : Focus σ (Connection V)} {x : Session Error σ α} {f : α → Session Error σ β}

theorem pure (a : α) : Confined p (Pure.pure a) := fun _ => rfl

theorem lift (x : Except Error α) : Confined p (Session.lift x) := fun _ => rfl

/-- The second part is only run on what the first part returns. -/
theorem bind_of (first : Confined p x) (second : ∀ s a t, x.on s = (.ok a, t) → Confined p (f a)) :
    Confined p (x >>= f) := by
  intro s
  cases h : x.on s with
  | mk result t =>
    have kept : (p.get t).saved = (p.get s).saved := by simpa [h] using first s
    cases result with
    | ok a => rw [on_bind h, second s a t h t, kept]
    | error e => rw [on_bind_error h, kept]

theorem bind (first : Confined p x) (second : ∀ a, Confined p (f a)) : Confined p (x >>= f) :=
  first.bind_of fun _ a _ _ => second a

/-- Every turn keeps `I`. -/
theorem foldlM {γ : Type} {f : β → γ → Session Error σ β} {I : β → Prop}
    (turn : ∀ b y, I b → Confined p (f b y))
    (keeps : ∀ b y s b' s', I b → (f b y).on s = (.ok b', s') → I b')
    {b : β} (start : I b) (l : List γ) : Confined p (l.foldlM f b) := by
  induction l generalizing b with
  | nil => exact pure b
  | cons y l ih =>
    rw [List.foldlM_cons]
    exact (turn b y start).bind_of fun s b' s' h => ih (keeps b y s b' s' start h)

theorem run {x : Session Error (Connection V) α} (confined : Confined .whole x) :
    Confined p (p.run x) := by
  intro s
  change (p.get (p.put s (x.on (p.get s)).2)).saved = _
  rw [p.get_put]
  exact confined (p.get s)

theorem tick : Confined .whole (tick (V := V)) := by
  intro c
  obtain ⟨tables, saved, failing⟩ := c
  cases failing with
  | none => rfl
  | some k => cases k <;> rfl

theorem prepare (count : ℕ) (statement : Cells V → Statement V) :
    Confined .whole (prepare count statement) :=
  tick.bind fun _ => pure _

end Confined

/-- The statement is none of those that begin and end a transaction. -/
def Statement.Inside : Statement V → Prop
  | .begin | .commit | .rollback => False
  | _ => True

variable [DecidableEq V]

theorem Statement.Inside.apply_saved {s : Statement V} (inside : s.Inside) {c d : Connection V}
    (h : c.apply s = .ok d) : d.saved = c.saved := by
  cases s with
  | begin | commit | rollback => exact absurd inside id
  | dropTableIfExists | createTable | insert | update =>
    obtain ⟨db, -, h⟩ := of_bind_ok h
    cases h
    rfl

theorem Confined.exec {s : Statement V} (inside : s.Inside) : Confined .whole (exec s) := by
  apply Confined.tick.bind
  intro _ c
  cases h : c.apply s with
  | ok d =>
    have ran : Session.on (do let c ← Session.get; let c ← Session.lift (c.apply s); Session.set c)
        c = (.ok (), d) := by rw [on_bind on_get, on_bind (by rw [on_lift, h]), on_set]
    rw [ran]
    exact inside.apply_saved h
  | error e =>
    have ran : Session.on (do let c ← Session.get; let c ← Session.lift (c.apply s); Session.set c)
        c = (.error e, c) := by
      rw [on_bind on_get]
      exact on_bind_error (by rw [on_lift, h])
    rw [ran]

/-- The body in a transaction on a part of the state. A failure rolls it back. -/
def transacted (p : Focus σ (Connection V)) (body : Session Error σ Unit) : Session Error σ Unit := do
  p.run (exec .begin)
  (do body; p.run (exec .commit)).onError (p.run (exec .rollback))

section
variable {p : Focus σ (Connection V)} {body : Session Error σ Unit} {s t : σ}

theorem of_transacted (h : (transacted p body).on s = (.ok (), t)) :
    ∃ v c, body.on (p.put s c) = (.ok (), v) ∧ c.tables = (p.get s).tables ∧
      t = p.put v (p.get t) ∧ (p.get t).tables = (p.get v).tables ∧ (p.get t).saved = none := by
  obtain ⟨_, u, begins, h⟩ := of_on_bind h
  obtain ⟨begins, there⟩ := p.of_on_run begins
  obtain ⟨_, v, ran, commits⟩ := of_on_bind (on_onError.mp h)
  obtain ⟨commits, back⟩ := p.of_on_run commits
  obtain ⟨tables, saved⟩ := of_exec_commit commits
  exact ⟨v, p.get u, there ▸ ran, of_exec_begin begins, back, tables, saved⟩

theorem transacted_on {c : Connection V} (calm : (p.get s).failing = none)
    (idle : (p.get s).saved = none)
    (h : body.on (p.put s { p.get s with saved := some (p.get s).tables }) = (.ok (), t))
    (calm' : (p.get t).failing = none) (ongoing : (p.get t).saved.isSome)
    (after : c = { p.get t with saved := none }) :
    (transacted p body).on s = (.ok (), p.put t c) := by
  subst after
  rw [transacted, on_bind (p.on_run (exec_on calm (apply_begin idle))), on_onError, on_bind h]
  exact p.on_run (exec_on calm' (apply_commit ongoing))

/-- A failure is rolled back in the database only: what is seen of the rest is what the
body has left, if it ran at all. -/
theorem of_transacted_error {ρ : Type} (seen : σ → ρ) (blind : ∀ s c, seen (p.put s c) = seen s)
    {e : Error} (h : (transacted p body).on s = (.error e, t)) :
    seen t = seen s ∨ ∃ c result v, body.on (p.put s c) = (result, v) ∧
      c.tables = (p.get s).tables ∧ seen t = seen v := by
  rcases of_on_bind_error h with failed | ⟨_, u, begins, h⟩
  · left
    rw [(p.of_on_run failed).2, blind]
  · right
    obtain ⟨begins, there⟩ := p.of_on_run begins
    obtain ⟨e', w, last, stopped, rolled⟩ := of_on_onError_error h
    rw [(p.of_on_run rolled).2, blind]
    rw [there] at stopped
    rcases of_on_bind_error stopped with failed | ⟨_, v, ran, failed⟩
    · exact ⟨p.get u, _, w, failed, of_exec_begin begins, rfl⟩
    · exact ⟨p.get u, _, v, ran, of_exec_begin begins, by rw [(p.of_on_run failed).2, blind]⟩

end

end Sql
