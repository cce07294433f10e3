import Ucore.Lib.Op

/-!
# One quantity of the state

`Op.Track q A x g l` says what becomes of the quantity `q` of the state when `x` runs: from `A` it goes to
`g a` when `x` returns `a`, and to `l` when `x` returns an error code.  One rule for each way in which
operations are put together.
-/

namespace Op

variable {σ ε α β T : Type} {q : σ → T} {A : T}

/-- `y`, whatever `x` returns. -/
def cleanup (x : Op σ ε α) (y : Op σ ε Unit) : Op σ ε α := do
  let r ← attempt x
  y
  match r with
  | .ok a => pure a
  | .error e => throw e

/-- Where an outcome leaves `q`. -/
def leaves (g : α → T) (l : T) : Except ε α → T
  | .ok a => g a
  | .error _ => l

/-- A failed assertion says nothing about `q`. -/
def Track (q : σ → T) (A : T) (x : Op σ ε α) (g : α → T) (l : T) : Prop :=
  ∀ s, q s = A → wpx True x (fun r s' => q s' = leaves g l r) s

variable {x : Op σ ε α} {g : α → T} {l : T}

theorem Track.elim {s s' : σ} {r : Except ε α} (h : Track q (q s) x g l) (hx : x s = some (r, s')) :
    q s' = leaves g l r := wpx_elim (h s rfl) hx

theorem Track.pure {a : α} (h : A = g a) : Track q A (pure a : Op σ ε α) g l := fun _ hs => hs.trans h

theorem Track.throw {e : ε} (h : A = l) : Track q A (throw e : Op σ ε α) g l := fun _ hs => hs.trans h

theorem Track.gets {f : σ → α} (h : ∀ a, A = g a) : Track q A (gets f : Op σ ε α) g l := fun s hs =>
  hs.trans (h (f s))

theorem Track.assert {p : Prop} [Decidable p] {g : Unit → T} (h : A = g ()) :
    Track q A (assert p : Op σ ε Unit) g l := by
  intro s hs
  unfold wpx Op.assert
  by_cases hp : p
  · rw [if_pos hp]
    exact hs.trans h
  · rw [if_neg hp]
    trivial

theorem Track.bind {f : α → Op σ ε β} {h : β → T} (hx : Track q A x g l) (hf : ∀ a, Track q (g a) (f a) h l) :
    Track q A (x >>= f) h l := by
  intro s hs
  refine wpx_bind (wpx_mono (hx s hs) fun r s' hr => ?_)
  cases r with
  | ok a => exact hf a s' hr
  | error e => exact hr

theorem Track.attempt {l' : T} (hx : Track q A x g l) :
    Track q A (attempt x) (leaves g l) l' := by
  intro s hs
  refine wpx_attempt (wpx_mono (hx s hs) fun r s' hr => ?_)
  cases r with
  | ok a => exact hr
  | error e => exact hr

/-- `y` goes on from wherever `x` has ended. -/
theorem Track.cleanup {y : Op σ ε Unit} {g' : α → T} {l' : T} (hx : Track q A x g l)
    (hok : ∀ a, Track q (g a) y (fun _ => g' a) l') (herr : Track q l y (fun _ => l') l') :
    Track q A (cleanup x y) g' l' := by
  refine Track.bind (Track.attempt hx) fun r => ?_
  cases r with
  | ok a => exact Track.bind (hok a) fun _ => .pure rfl
  | error e => exact Track.bind herr fun _ => .throw rfl

theorem Track.conv {g' : α → T} {l' : T} (hx : Track q A x g l) (hg : ∀ a, g a = g' a) (hl : l = l') :
    Track q A x g' l' := by
  obtain rfl : g = g' := funext hg
  exact hl ▸ hx

theorem Track.ite {p : Prop} [Decidable p] {y : Op σ ε α} (hx : Track q A x g l) (hy : Track q A y g l) :
    Track q A (if p then x else y) g l := by
  split
  · exact hx
  · exact hy

end Op
