import Mathlib.Data.Nat.Notation

/-!
# Operations with error codes

An operation runs on a state and ends with a value or an error code, and with the state it leaves in
either case; a failed assertion has no result.  `Op.wp x Q s` says that `x` started in `s` fails no
assertion and ends as `Q` says.
-/

/-- `none` is a failed assertion. -/
def Op (σ ε α : Type) : Type := σ → Option (Except ε α × σ)

namespace Op

variable {σ τ ε α β : Type}

protected def pure (a : α) : Op σ ε α := fun s => some (.ok a, s)

protected def bind (x : Op σ ε α) (f : α → Op σ ε β) : Op σ ε β := fun s =>
  match x s with
  | none => none
  | some (.error e, s') => some (.error e, s')
  | some (.ok a, s') => f a s'

instance : Monad (Op σ ε) where
  pure := Op.pure
  bind := Op.bind

def throw (e : ε) : Op σ ε α := fun s => some (.error e, s)

def assert (p : Prop) [Decidable p] : Op σ ε Unit := fun s => if p then some (.ok (), s) else none

def gets (f : σ → α) : Op σ ε α := fun s => some (.ok (f s), s)

def modify (f : σ → σ) : Op σ ε Unit := fun s => some (.ok (), f s)

/-- The outcome of an operation as a value. -/
def attempt (x : Op σ ε α) : Op σ ε (Except ε α) := fun s =>
  (x s).map fun (r, s') => (.ok r, s')

/-- An operation on a part of the state. -/
def zoom (get : τ → σ) (set : τ → σ → τ) (x : Op σ ε α) : Op τ ε α := fun t =>
  (x (get t)).map fun (r, s) => (r, set t s)

/-- The operation fails no assertion, and its outcome and the state it leaves satisfy `Q`. -/
def wp (x : Op σ ε α) (Q : Except ε α → σ → Prop) (s : σ) : Prop :=
  match x s with
  | none => False
  | some (r, s') => Q r s'

variable {x : Op σ ε α} {Q Q' : Except ε α → σ → Prop} {s : σ}

theorem wp_iff : wp x Q s ↔ ∃ r s', x s = some (r, s') ∧ Q r s' := by
  unfold wp
  cases h : x s with
  | none => simp
  | some p =>
    obtain ⟨r, s'⟩ := p
    refine ⟨fun hq => ⟨r, s', rfl, hq⟩, ?_⟩
    rintro ⟨r', s'', heq, hq⟩
    cases heq
    exact hq

theorem wp_mono (h : wp x Q s) (hQ : ∀ r s', Q r s' → Q' r s') : wp x Q' s := by
  obtain ⟨r, s', hx, hq⟩ := wp_iff.mp h
  exact wp_iff.mpr ⟨r, s', hx, hQ r s' hq⟩

theorem wp_pure {a : α} : wp (pure a : Op σ ε α) Q s ↔ Q (.ok a) s := Iff.rfl

theorem wp_assert {p : Prop} [Decidable p] {R : Except ε Unit → σ → Prop} :
    wp (assert p : Op σ ε Unit) R s ↔ p ∧ R (.ok ()) s := by
  unfold wp assert
  split
  · split at * <;> simp_all
  · split at * <;> simp_all

theorem wp_bind {f : α → Op σ ε β} {R : Except ε β → σ → Prop} :
    wp (x >>= f) R s ↔ wp x (fun r s' =>
      match r with
      | .ok a => wp (f a) R s'
      | .error e => R (.error e) s') s := by
  show wp (Op.bind x f) R s ↔ _
  unfold wp Op.bind
  cases x s with
  | none => exact Iff.rfl
  | some p =>
    obtain ⟨r, s'⟩ := p
    cases r with
    | ok a => exact Iff.rfl
    | error e => exact Iff.rfl

theorem wp_attempt {R : Except ε (Except ε α) → σ → Prop} :
    wp (attempt x) R s ↔ wp x (fun r s' => R (.ok r) s') s := by
  unfold wp attempt
  cases x s with
  | none => exact Iff.rfl
  | some p => exact Iff.rfl

theorem wp_zoom {get : τ → σ} {set : τ → σ → τ} {R : Except ε α → τ → Prop} {t : τ} :
    wp (zoom get set x) R t ↔ wp x (fun r s' => R r (set t s')) (get t) := by
  unfold wp zoom
  cases x (get t) with
  | none => exact Iff.rfl
  | some p => exact Iff.rfl

theorem bind_of_ok {f : α → Op σ ε β} {a : α} {s' : σ} (h : x s = some (.ok a, s')) :
    (x >>= f) s = f a s' := by
  show Op.bind x f s = _
  unfold Op.bind
  rw [h]

theorem bind_assoc {γ : Type} (x : Op σ ε α) (f : α → Op σ ε β) (g : β → Op σ ε γ) :
    x >>= f >>= g = x >>= fun a => f a >>= g := by
  funext s
  show Op.bind (Op.bind x f) g s = Op.bind x (fun a => Op.bind (f a) g) s
  unfold Op.bind
  cases x s with
  | none => rfl
  | some p =>
    obtain ⟨r, s'⟩ := p
    cases r with
    | ok a => rfl
    | error e => rfl

theorem bind_of_error {f : α → Op σ ε β} {e : ε} {s' : σ} (h : x s = some (.error e, s')) :
    (x >>= f) s = some (.error e, s') := by
  show Op.bind x f s = _
  unfold Op.bind
  rw [h]

theorem attempt_of_eq {r : Except ε α} {s' : σ} (h : x s = some (r, s')) : attempt x s = some (.ok r, s') := by
  unfold attempt
  rw [h]
  rfl

theorem bind_of_none {f : α → Op σ ε β} (h : x s = none) : (x >>= f) s = none := by
  show Op.bind x f s = _
  unfold Op.bind
  rw [h]

/-- An operation that has succeeded, taken apart. -/
theorem ok_of_bind {f : α → Op σ ε β} {b : β} {s' : σ} (h : (x >>= f) s = some (.ok b, s')) :
    ∃ a s₁, x s = some (.ok a, s₁) ∧ f a s₁ = some (.ok b, s') := by
  cases hx : x s with
  | none =>
    rw [bind_of_none hx] at h
    cases h
  | some p =>
    obtain ⟨r, s₁⟩ := p
    cases r with
    | error e =>
      rw [bind_of_error hx] at h
      cases h
    | ok a =>
      rw [bind_of_ok hx] at h
      exact ⟨a, s₁, rfl, h⟩

theorem of_assert {p : Prop} [Decidable p] {r : Except ε Unit} {s' : σ}
    (h : (assert p : Op σ ε Unit) s = some (r, s')) : p ∧ s' = s := by
  unfold assert at h
  split at h
  · cases h
    exact ⟨by assumption, rfl⟩
  · cases h

section Rules

variable {f : α → Op σ ε β} {R : Except ε β → σ → Prop}

/-- A first operation whose outcome is known. -/
theorem wp_bind_of_ok {a : α} {s' : σ} (h : x s = some (.ok a, s')) :
    wp (x >>= f) R s ↔ wp (f a) R s' := by
  rw [wp_bind]
  unfold wp
  rw [h]

theorem wp_bind_gets {g : σ → α} : wp (gets g >>= f) R s ↔ wp (f (g s)) R s := Iff.rfl

theorem wp_bind_modify {g : σ → σ} {f : Unit → Op σ ε β} :
    wp (modify g >>= f) R s ↔ wp (f ()) R (g s) := Iff.rfl

theorem wp_bind_assert {p : Prop} [Decidable p] {f : Unit → Op σ ε β} :
    wp (assert p >>= f) R s ↔ p ∧ wp (f ()) R s := by
  rw [wp_bind, wp_assert]

end Rules

/-- A first operation that succeeds. -/
theorem wp_bind_ok {f : α → Op σ ε β} {R : Except ε β → σ → Prop} {P : α → σ → Prop}
    (h : wp x (fun r s' => ∃ a, r = .ok a ∧ P a s') s)
    (hf : ∀ a s', P a s' → wp (f a) R s') : wp (x >>= f) R s := by
  refine wp_bind.mpr (wp_mono h ?_)
  rintro r s' ⟨a, rfl, hp⟩
  exact hf a s' hp

/-! ## Operations that may fail an assertion -/

/-- `wp`, except that an assertion may fail if `F` holds. -/
def wpx (F : Prop) (x : Op σ ε α) (Q : Except ε α → σ → Prop) (s : σ) : Prop :=
  match x s with
  | none => F
  | some (r, s') => Q r s'

section Partial

variable {F : Prop} {f : α → Op σ ε β} {R : Except ε β → σ → Prop}

theorem wpx_of_wp (h : wp x Q s) : wpx F x Q s := by
  obtain ⟨r, s', hx, hq⟩ := wp_iff.mp h
  unfold wpx
  rw [hx]
  exact hq

theorem wpx_of_none (h : x s = none) (hF : F) : wpx F x Q s := by
  unfold wpx
  rw [h]
  exact hF

theorem wpx_of_eq {r : Except ε α} {s' : σ} (h : x s = some (r, s')) (hq : Q r s') : wpx F x Q s := by
  unfold wpx
  rw [h]
  exact hq

theorem wpx_elim {r : Except ε α} {s' : σ} (h : wpx F x Q s) (hx : x s = some (r, s')) : Q r s' := by
  unfold wpx at h
  rw [hx] at h
  exact h

theorem wpx_mono (h : wpx F x Q s) (hQ : ∀ r s', Q r s' → Q' r s') : wpx F x Q' s := by
  unfold wpx at h ⊢
  cases hx : x s with
  | none =>
    rw [hx] at h
    exact h
  | some p =>
    rw [hx] at h
    exact hQ p.1 p.2 h

theorem wpx_congr {y : Op σ ε α} (hxy : x s = y s) (h : wpx F y Q s) : wpx F x Q s := by
  unfold wpx at h ⊢
  rwa [hxy]

theorem wpx_imp {G : Prop} (hFG : F → G) (h : wpx F x Q s) : wpx G x Q s := by
  unfold wpx at h ⊢
  cases hx : x s with
  | none =>
    rw [hx] at h
    exact hFG h
  | some p =>
    rw [hx] at h
    exact h

theorem wpx_bind (h : wpx F x (fun r s' =>
      match r with
      | .ok a => wpx F (f a) R s'
      | .error e => R (.error e) s') s) : wpx F (x >>= f) R s := by
  show wpx F (Op.bind x f) R s
  unfold wpx Op.bind at *
  cases hx : x s with
  | none =>
    rw [hx] at h
    exact h
  | some p =>
    obtain ⟨r, s'⟩ := p
    rw [hx] at h
    cases r with
    | ok a => exact h
    | error e => exact h

theorem wpx_bind_of_ok {a : α} {s' : σ} (hx : x s = some (.ok a, s')) (h : wpx F (f a) R s') :
    wpx F (x >>= f) R s := wpx_bind (wpx_of_eq hx h)

theorem wpx_bind_of_error {e : ε} {s' : σ} (hx : x s = some (.error e, s'))
    (h : R (.error e) s') : wpx F (x >>= f) R s := wpx_bind (wpx_of_eq hx h)

theorem wpx_bind_assert {p : Prop} [Decidable p] {f : Unit → Op σ ε β} (hp : p)
    (h : wpx F (f ()) R s) : wpx F (assert p >>= f) R s :=
  wpx_bind_of_ok (if_pos hp : assert p s = some (.ok (), s)) h

/-- The value is passed on. -/
theorem wpx_map {g : α → β} (h : wpx F x (fun r s' => R (r.map g) s') s) : wpx F (do pure (g (← x))) R s := by
  refine wpx_bind (wpx_mono h ?_)
  rintro (e | v) s' hq
  · exact hq
  · exact hq

theorem wpx_attempt {R : Except ε (Except ε α) → σ → Prop}
    (h : wpx F x (fun r s' => R (.ok r) s') s) : wpx F (attempt x) R s := by
  unfold wpx attempt at *
  cases hx : x s with
  | none =>
    rw [hx] at h
    exact h
  | some p =>
    rw [hx] at h
    exact h

end Partial

/-! ## What an operation leaves alone -/

end Op
