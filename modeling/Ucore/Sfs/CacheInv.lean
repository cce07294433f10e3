import Mathlib.Data.List.Nodup
import Ucore.Lib.Count
import Ucore.Sfs.Cache

/-!
# Invariant of the inode cache

`reclaim_count` of a cached inode is the number of `sfs_reclaim` calls that are still to decrement
it, plus one while the inode is referenced.  So the call that finds it at 0 is the last one, and no
reference is left.

* `Inv.step_spec` — no assertion fails, and every step keeps the invariant.
* `inode_cache_protocol` — one cached inode per number, `reclaim_count` counts the pending reclaims,
  and every inode is killed once, when nothing can reach it any more.
-/

namespace Ucore.Icache

open Occurrence

/-- The number of `sfs_reclaim` calls on `x` that have been triggered and have not yet decremented
`reclaim_count`. -/
noncomputable def State.pending (s : State) (x : ℕ) : ℕ := occ s.phase (· = .reclaim x)

/-- The process is tearing `x` down: it has found `reclaim_count` at 0 and still has `fs_sem`. -/
def State.Tears (s : State) (p x : ℕ) : Prop := s.phase p = .truncate x ∨ s.phase p = .fsync x

structure Inv (s : State) : Prop where
  nodup : (s.cache.map fun x => (s.obj x).ino).Nodup
  busy : {p | s.phase p ≠ .idle}.Finite
  count : ∀ x ∈ s.cache,
    (s.obj x).reclaimCount = (if 0 < (s.obj x).refCount then 1 else 0) + s.pending x
  live : ∀ x, 0 < (s.obj x).refCount → x ∈ s.cache
  wait : ∀ p x, s.phase p = .reclaim x → x ∈ s.cache
  tokens : ∀ x, (s.obj x).refCount = s.refs.countP (·.2 = x)
  opened : ∀ x, (s.obj x).openCount = s.opens.countP (·.2 = x)
  openRef : ∀ t, s.opens.count t ≤ s.refs.count t
  read : ∀ p ino, s.phase p = .read ino → s.owner = some p ∧ s.find ino = none
  tear : ∀ p x, s.Tears p x → s.owner = some p ∧ x ∈ s.cache ∧ (s.obj x).reclaimCount = 0
  flush : ∀ p x, s.phase p = .fsync x → (s.obj x).nlinks ≠ 0 ∧ (s.obj x).dirty = true
  release : ∀ p x, s.phase p = .release x → x < s.next ∧ x ∉ s.cache ∧ x ∉ s.kills
  releaseUnique : ∀ p q x, s.phase p = .release x → s.phase q = .release x → p = q
  bound : ∀ x ∈ s.cache, x < s.next
  killed : ∀ x ∈ s.kills, x < s.next ∧ x ∉ s.cache
  killsNodup : s.kills.Nodup
  placed : ∀ x < s.next, x ∈ s.cache ∨ (∃ p, s.phase p = .release x) ∨ x ∈ s.kills
  linger : ∀ x ∈ s.cache, (s.obj x).reclaimCount = 0 →
    (∃ p, s.Tears p x) ∨ (s.obj x).nlinks ≠ 0 ∧ (s.obj x).dirty = true

variable {s : State} {p q x : ℕ} {ph : Phase}

@[simp] theorem setPhase_phase : (s.setPhase p ph).phase p = ph := Function.update_self ..

theorem setPhase_phase_of_ne (h : q ≠ p) : (s.setPhase p ph).phase q = s.phase q :=
  Function.update_of_ne h ..

@[simp] theorem setObj_obj {i : Inode} : (s.setObj x i).obj x = i := Function.update_self ..

theorem setObj_obj_of_ne {y : ℕ} {i : Inode} (h : y ≠ x) : (s.setObj x i).obj y = s.obj y :=
  Function.update_of_ne h ..

theorem setObj_self : s.setObj x (s.obj x) = s := by
  unfold State.setObj
  rw [Function.update_eq_self]

theorem Inv.pending_finite (h : Inv s) (x : ℕ) : {p | s.phase p = .reclaim x}.Finite :=
  h.busy.subset fun p hp hidle => by
    have hp' : s.phase p = .reclaim x := hp
    rw [hidle] at hp'
    cases hp'

theorem Inv.pending_setPhase (h : Inv s) (p : ℕ) (ph : Phase) (x : ℕ) :
    (s.setPhase p ph).pending x + (if s.phase p = .reclaim x then 1 else 0) =
      s.pending x + (if ph = .reclaim x then 1 else 0) := by
  have heq := occ_update (g := s.phase) (P := (· = .reclaim x)) p ph (h.pending_finite x)
  unfold State.pending State.setPhase
  convert heq

theorem Inv.busy_setPhase (h : Inv s) (p : ℕ) (ph : Phase) :
    {q | (s.setPhase p ph).phase q ≠ .idle}.Finite :=
  finite_update (g := s.phase) (P := (· ≠ .idle)) p ph h.busy

theorem Inv.pending_pos (h : Inv s) (hp : s.phase p = .reclaim x) : 0 < s.pending x :=
  Nat.pos_of_ne_zero (occ_ne_zero (h.pending_finite x) hp)

/-- No process needs `fs_sem` to stay where it is. -/
def State.Unheld (s : State) : Prop := (∀ p ino, s.phase p ≠ .read ino) ∧ ∀ p x, ¬ s.Tears p x

theorem Inv.unheld_of_owner (h : Inv s) (ho : s.owner = none) : s.Unheld := by
  refine ⟨fun p ino hp => ?_, fun p x hp => ?_⟩
  · rw [(h.read p ino hp).1] at ho
    cases ho
  · rw [(h.tear p x hp).1] at ho
    cases ho

/-- The process that has `fs_sem` goes to a phase that does not need it. -/
theorem Inv.unheld_setPhase (h : Inv s) (ho : s.owner = some p) (hread : ∀ ino, ph ≠ .read ino)
    (htear : ∀ x, ph ≠ .truncate x ∧ ph ≠ .fsync x) : (s.setPhase p ph).Unheld := by
  refine ⟨fun q ino hq => ?_, fun q x hq => ?_⟩
  · by_cases hqp : q = p
    · rw [hqp, setPhase_phase] at hq
      exact hread ino hq
    · rw [setPhase_phase_of_ne hqp] at hq
      have := (h.read q ino hq).1
      rw [ho] at this
      exact hqp (Option.some.inj this).symm
  · by_cases hqp : q = p
    · rw [hqp, State.Tears, setPhase_phase] at hq
      exact hq.elim (htear x).1 (htear x).2
    · rw [State.Tears, setPhase_phase_of_ne hqp] at hq
      have := (h.tear q x hq).1
      rw [ho] at this
      exact hqp (Option.some.inj this).symm

theorem Inv.setSem (h : Inv s) (hu : s.Unheld) (owner : Option ℕ) (queue : List ℕ) :
    Inv { s with owner, queue } :=
  { h with
    read := fun p ino hp => absurd hp (hu.1 p ino)
    tear := fun p x hp => absurd hp (hu.2 p x) }

theorem Inv.unlockFs (h : Inv s) (hu : s.Unheld) : Inv s.unlockFs := by
  unfold State.unlockFs
  split
  · exact h.setSem hu none s.queue
  · exact h.setSem hu _ _

theorem Inv.lockFs (h : Inv s) (p : ℕ) : Inv (s.lockFs p) := by
  unfold State.lockFs
  split
  · rename_i ho
    exact h.setSem (h.unheld_of_owner ho) _ s.queue
  · exact { h with }

/-- A process moves between phases in which it neither reclaims nor tears an inode down; one that
was tearing it down has failed to write it. -/
theorem Inv.setPhase (h : Inv s) (hold : ∀ x, s.phase p ≠ .reclaim x ∧ s.phase p ≠ .release x)
    (hnew : ∀ x, ph ≠ .reclaim x ∧ ph ≠ .release x ∧ ph ≠ .truncate x ∧ ph ≠ .fsync x)
    (hread : ∀ ino, ph = .read ino → s.owner = some p ∧ s.find ino = none)
    (hfail : ∀ x, s.phase p ≠ .truncate x) : Inv (s.setPhase p ph) := by
  have hpend : ∀ x, (s.setPhase p ph).pending x = s.pending x := by
    intro x
    have heq := h.pending_setPhase p ph x
    rwa [if_neg (hold x).1, if_neg (hnew x).1] at heq
  -- the phases of the other processes, and of `p` where it matters, are the old ones
  have hrel : ∀ q x, (s.setPhase p ph).phase q = .release x ↔ s.phase q = .release x := by
    intro q x
    by_cases hq : q = p
    · rw [hq, setPhase_phase]
      exact ⟨fun he => absurd he (hnew x).2.1, fun he => absurd he (hold x).2⟩
    · rw [setPhase_phase_of_ne hq]
  have htear : ∀ q x, (s.setPhase p ph).Tears q x ↔ q ≠ p ∧ s.Tears q x := by
    intro q x
    by_cases hq : q = p
    · rw [hq, State.Tears, setPhase_phase]
      exact ⟨fun he => (he.elim (hnew x).2.2.1 (hnew x).2.2.2).elim, fun he => absurd rfl he.1⟩
    · rw [State.Tears, setPhase_phase_of_ne hq]
      exact ⟨fun he => ⟨hq, he⟩, fun he => he.2⟩
  refine { h with busy := h.busy_setPhase p ph, count := ?_, wait := ?_, read := ?_, tear := ?_,
                  flush := ?_, release := ?_, releaseUnique := ?_, placed := ?_, linger := ?_ }
  · intro x hx
    rw [hpend]
    exact h.count x hx
  · intro q x hq
    by_cases hqp : q = p
    · rw [hqp, setPhase_phase] at hq
      exact absurd hq (hnew x).1
    · rw [setPhase_phase_of_ne hqp] at hq
      exact h.wait q x hq
  · intro q ino hq
    by_cases hqp : q = p
    · rw [hqp, setPhase_phase] at hq
      rw [hqp]
      exact hread ino hq
    · rw [setPhase_phase_of_ne hqp] at hq
      exact h.read q ino hq
  · exact fun q x hq => h.tear q x ((htear q x).mp hq).2
  · intro q x hq
    rcases ((htear q x).mp (.inr hq)).2 with hq' | hq'
    · by_cases hqp : q = p
      · exact absurd hqp ((htear q x).mp (.inr hq)).1
      · rw [setPhase_phase_of_ne hqp, hq'] at hq
        cases hq
    · exact h.flush q x hq'
  · exact fun q x hq => h.release q x ((hrel q x).mp hq)
  · exact fun q r x hq hr => h.releaseUnique q r x ((hrel q x).mp hq) ((hrel r x).mp hr)
  · intro x hx
    exact (h.placed x hx).imp id (Or.imp (fun ⟨q, hq⟩ => ⟨q, (hrel q x).mpr hq⟩) id)
  · intro x hx h0
    rcases h.linger x hx h0 with ⟨q, hq⟩ | hdirty
    · by_cases hqp : q = p
      · rw [hqp] at hq
        exact .inr (h.flush p x (hq.resolve_left (hfail x)))
      · exact .inl ⟨q, (htear q x).mpr ⟨hqp, hq⟩⟩
    · exact .inr hdirty

/-! ## Changes of one inode -/

theorem map_ino_setObj {i : Inode} (hino : i.ino = (s.obj x).ino) (l : List ℕ) :
    (l.map fun y => ((s.setObj x i).obj y).ino) = l.map fun y => (s.obj y).ino := by
  refine List.map_congr_left fun y _ => ?_
  by_cases hy : y = x
  · rw [hy, setObj_obj, hino]
  · rw [setObj_obj_of_ne hy]

theorem find_setObj {i : Inode} (hino : i.ino = (s.obj x).ino) (ino : ℕ) :
    (s.setObj x i).find ino = s.find ino := by
  have hsame : ∀ y, ((s.setObj x i).obj y).ino = (s.obj y).ino := by
    intro y
    by_cases hy : y = x
    · rw [hy, setObj_obj, hino]
    · rw [setObj_obj_of_ne hy]
  show s.cache.find? _ = s.cache.find? _
  simp only [hsame]

/-- The references recorded for every inode are those its counts say. -/
structure Counted (s : State) (x : ℕ) (i : Inode) (refs opens : List (ℕ × ℕ)) : Prop where
  refs_eq : i.refCount = refs.countP (·.2 = x)
  opens_eq : i.openCount = opens.countP (·.2 = x)
  refs_ne : ∀ y, y ≠ x → refs.countP (·.2 = y) = s.refs.countP (·.2 = y)
  opens_ne : ∀ y, y ≠ x → opens.countP (·.2 = y) = s.opens.countP (·.2 = y)
  le : ∀ t, opens.count t ≤ refs.count t

/-- A cached inode changes together with the phase of `p`, which is not releasing any inode and
reclaims or tears down no other inode than `x`, before or after. -/
theorem Inv.move (h : Inv s) {i : Inode} {refs opens : List (ℕ × ℕ)} (hx : x ∈ s.cache)
    (hino : i.ino = (s.obj x).ino) (hc : Counted s x i refs opens)
    (hcount : i.reclaimCount + (if s.phase p = .reclaim x then 1 else 0) =
      (if 0 < i.refCount then 1 else 0) + s.pending x + (if ph = .reclaim x then 1 else 0))
    (hother : ∀ y, y ≠ x → s.phase p ≠ .reclaim y ∧ ph ≠ .reclaim y)
    (hold : ∀ y, s.phase p ≠ .release y ∧ ¬ s.Tears p y)
    (hnew : ∀ y, ph ≠ .release y ∧ ph ≠ .read y)
    (hnobody : ∀ q, ¬ s.Tears q x)
    (hph : ∀ y, ph = .truncate y ∨ ph = .fsync y →
      s.owner = some p ∧ y = x ∧ i.reclaimCount = 0)
    (hflush : ph = .fsync x → i.nlinks ≠ 0 ∧ i.dirty = true)
    (hlinger : i.reclaimCount = 0 → ph = .truncate x ∨ ph = .fsync x) :
    Inv ({ s.setObj x i with refs, opens }.setPhase p ph) := by
  have hpend := h.pending_setPhase p ph
  have hrel : ∀ q y, (s.setPhase p ph).phase q = .release y ↔ s.phase q = .release y := by
    intro q y
    by_cases hq : q = p
    · rw [hq, setPhase_phase]
      exact ⟨fun he => absurd he (hnew y).1, fun he => absurd he (hold y).1⟩
    · rw [setPhase_phase_of_ne hq]
  have htears : ∀ q y, (s.setPhase p ph).Tears q y ↔
      q ≠ p ∧ s.Tears q y ∨ q = p ∧ (ph = .truncate y ∨ ph = .fsync y) := by
    intro q y
    by_cases hq : q = p
    · rw [hq, State.Tears, setPhase_phase]
      simp
    · rw [State.Tears, setPhase_phase_of_ne hq]
      simp [hq, State.Tears]
  have hobj : ∀ y, y ≠ x → Function.update s.obj x i y = s.obj y :=
    fun y hy => Function.update_of_ne hy ..
  have hobjx : Function.update s.obj x i x = i := Function.update_self ..
  constructor
  case nodup => exact (map_ino_setObj hino s.cache).symm ▸ h.nodup
  case busy => exact h.busy_setPhase p ph
  case count =>
    intro y hy
    show (Function.update s.obj x i y).reclaimCount = (if 0 < (Function.update s.obj x i y).refCount
      then 1 else 0) + (s.setPhase p ph).pending y
    have heq := hpend y
    by_cases hyx : y = x
    · subst hyx
      rw [hobjx]
      omega
    · rw [if_neg (hother y hyx).1, if_neg (hother y hyx).2] at heq
      rw [hobj y hyx, h.count y hy]
      omega
  case live =>
    intro y hy
    change 0 < (Function.update s.obj x i y).refCount at hy
    by_cases hyx : y = x
    · rw [hyx]
      exact hx
    · rw [hobj y hyx] at hy
      exact h.live y hy
  case wait =>
    intro q y hq
    by_cases hqp : q = p
    · rw [hqp, setPhase_phase] at hq
      by_cases hyx : y = x
      · rw [hyx]
        exact hx
      · exact absurd hq (hother y hyx).2
    · rw [setPhase_phase_of_ne hqp] at hq
      exact h.wait q y hq
  case tokens =>
    intro y
    show (Function.update s.obj x i y).refCount = refs.countP (·.2 = y)
    by_cases hyx : y = x
    · rw [hyx, hobjx]
      exact hc.refs_eq
    · rw [hobj y hyx, hc.refs_ne y hyx]
      exact h.tokens y
  case opened =>
    intro y
    show (Function.update s.obj x i y).openCount = opens.countP (·.2 = y)
    by_cases hyx : y = x
    · rw [hyx, hobjx]
      exact hc.opens_eq
    · rw [hobj y hyx, hc.opens_ne y hyx]
      exact h.opened y
  case openRef => exact hc.le
  case read =>
    intro q ino hq
    by_cases hqp : q = p
    · rw [hqp, setPhase_phase] at hq
      exact absurd hq (hnew ino).2
    · rw [setPhase_phase_of_ne hqp] at hq
      exact ⟨(h.read q ino hq).1, (find_setObj hino ino).trans (h.read q ino hq).2⟩
  case tear =>
    intro q y hq
    show s.owner = some q ∧ y ∈ s.cache ∧ (Function.update s.obj x i y).reclaimCount = 0
    rcases (htears q y).mp hq with ⟨-, hq'⟩ | ⟨rfl, hq'⟩
    · obtain ⟨ho, hy, h0⟩ := h.tear q y hq'
      refine ⟨ho, hy, ?_⟩
      by_cases hyx : y = x
      · subst hyx
        exact absurd hq' (hnobody q)
      · rw [hobj y hyx]
        exact h0
    · obtain ⟨ho, rfl, h0⟩ := hph y hq'
      exact ⟨ho, hx, by rw [hobjx]; exact h0⟩
  case flush =>
    intro q y hq
    show (Function.update s.obj x i y).nlinks ≠ 0 ∧ (Function.update s.obj x i y).dirty = true
    by_cases hqp : q = p
    · rw [hqp, setPhase_phase] at hq
      obtain ⟨-, rfl, -⟩ := hph y (.inr hq)
      rw [hobjx]
      exact hflush hq
    · rw [setPhase_phase_of_ne hqp] at hq
      have hyx : y ≠ x := by
        intro hyx
        rw [hyx] at hq
        exact hnobody q (.inr hq)
      rw [hobj y hyx]
      exact h.flush q y hq
  case release => exact fun q y hq => h.release q y ((hrel q y).mp hq)
  case releaseUnique =>
    exact fun q r y hq hr => h.releaseUnique q r y ((hrel q y).mp hq) ((hrel r y).mp hr)
  case bound => exact h.bound
  case killed => exact h.killed
  case killsNodup => exact h.killsNodup
  case placed =>
    intro y hy
    exact (h.placed y hy).imp id (Or.imp (fun ⟨q, hq⟩ => ⟨q, (hrel q y).mpr hq⟩) id)
  case linger =>
    intro y hy h0
    change (Function.update s.obj x i y).reclaimCount = 0 at h0
    show (∃ q, (s.setPhase p ph).Tears q y) ∨ (Function.update s.obj x i y).nlinks ≠ 0 ∧
      (Function.update s.obj x i y).dirty = true
    have hkeep : (∃ q, s.Tears q y) → ∃ q, (s.setPhase p ph).Tears q y := by
      intro ⟨q, hq⟩
      refine ⟨q, (htears q y).mpr (.inl ⟨?_, hq⟩)⟩
      intro hqp
      rw [hqp] at hq
      exact (hold y).2 hq
    by_cases hyx : y = x
    · subst hyx
      rw [hobjx] at h0 ⊢
      exact .inl ⟨p, (htears p y).mpr (.inr ⟨rfl, hlinger h0⟩)⟩
    · rw [hobj y hyx] at h0 ⊢
      exact (h.linger y hy h0).imp hkeep id

/-! ## Inodes that enter and leave the cache -/

theorem Inv.cache_nodup (h : Inv s) : s.cache.Nodup := h.nodup.of_map

theorem Inv.pending_eq_zero (h : Inv s) (hx : x ∉ s.cache) : s.pending x = 0 :=
  (occ_eq_zero (h.pending_finite x)).mpr fun _ hp => hx (h.wait _ _ hp)

/-- An inode without references is not open. -/
theorem Inv.openCount_eq_zero (h : Inv s) (hx : (s.obj x).refCount = 0) :
    (s.obj x).openCount = 0 := by
  rw [h.tokens, List.countP_eq_zero] at hx
  rw [h.opened, List.countP_eq_zero]
  intro t ht
  have hle := h.openRef t
  have hpos : 0 < s.opens.count t := List.count_pos_iff.mpr ht
  exact hx t (List.count_pos_iff.mp (Nat.lt_of_lt_of_le hpos hle))

/-- An inode that is being torn down has no references and no other reclaim. -/
theorem Inv.torn (h : Inv s) (hp : s.Tears p x) : (s.obj x).refCount = 0 ∧ s.pending x = 0 := by
  obtain ⟨-, hx, h0⟩ := h.tear p x hp
  have hc := h.count x hx
  rw [h0] at hc
  split_ifs at hc <;> omega

/-- The process that has `fs_sem` is the only one that tears an inode down, and it is only one
inode. -/
theorem Inv.tears_unique (h : Inv s) {y : ℕ} (hp : s.Tears p x) (hq : s.Tears q y) :
    q = p ∧ y = x := by
  have ho := (h.tear p x hp).1
  have ho' := (h.tear q y hq).1
  rw [ho] at ho'
  obtain rfl : p = q := Option.some.inj ho'
  refine ⟨rfl, ?_⟩
  rcases hp with hp | hp <;> rcases hq with hq | hq <;> rw [hp] at hq <;> cases hq <;> rfl

/-- The inode leaves the cache; `dirty` is what the flush has left. -/
theorem Inv.removeLinks (h : Inv s) (hp : s.Tears p x) (dirty : Bool) :
    Inv ((s.setObj x { s.obj x with dirty }).removeLinks p x) := by
  obtain ⟨ho, hx, h0⟩ := h.tear p x hp
  obtain ⟨href, hpend⟩ := h.torn hp
  have hne : ∀ y, s.phase p ≠ .reclaim y ∧ s.phase p ≠ .release y ∧ s.phase p ≠ .read y := by
    intro y
    rcases hp with hp | hp <;> rw [hp] <;> simp
  have hobj : ∀ y, ∃ d, (s.setObj x { s.obj x with dirty }).obj y = { s.obj y with dirty := d } := by
    intro y
    by_cases hyx : y = x
    · subst hyx
      exact ⟨dirty, setObj_obj⟩
    · exact ⟨(s.obj y).dirty, setObj_obj_of_ne hyx⟩
  have hu : ({ s with cache := s.cache.erase x }.setPhase p (.release x)).Unheld :=
    h.unheld_setPhase ho (by simp) (by simp)
  have hpend' : ∀ y, (s.setPhase p (.release x)).pending y = s.pending y := by
    intro y
    have heq := h.pending_setPhase p (.release x) y
    rwa [if_neg (hne y).1, if_neg (by simp)] at heq
  have hrel : ∀ q y, (s.setPhase p (.release x)).phase q = .release y ↔
      q ≠ p ∧ s.phase q = .release y ∨ q = p ∧ y = x := by
    intro q y
    by_cases hq : q = p
    · rw [hq, setPhase_phase]
      simp [eq_comm]
    · rw [setPhase_phase_of_ne hq]
      simp [hq]
  refine Inv.unlockFs ?_ hu
  constructor
  case nodup =>
    have hsub := h.nodup.sublist ((List.erase_sublist (a := x) (l := s.cache)).map _)
    rw [← map_ino_setObj (x := x) (i := { s.obj x with dirty }) rfl] at hsub
    exact hsub
  case busy => exact h.busy_setPhase p _
  case count =>
    intro y hy
    obtain ⟨d, hd⟩ := hobj y
    show ((s.setObj x { s.obj x with dirty }).obj y).reclaimCount =
      (if 0 < ((s.setObj x { s.obj x with dirty }).obj y).refCount then 1 else 0) +
        (s.setPhase p (.release x)).pending y
    rw [hpend', hd]
    exact h.count y (List.mem_of_mem_erase hy)
  case live =>
    intro y hy
    obtain ⟨d, hd⟩ := hobj y
    change 0 < ((s.setObj x { s.obj x with dirty }).obj y).refCount at hy
    rw [hd] at hy
    refine (List.mem_erase_of_ne ?_).mpr (h.live y hy)
    intro hyx
    subst hyx
    exact absurd href (Nat.pos_iff_ne_zero.mp hy)
  case wait =>
    intro q y hq
    by_cases hqp : q = p
    · rw [hqp, setPhase_phase] at hq
      cases hq
    · rw [setPhase_phase_of_ne hqp] at hq
      refine (List.mem_erase_of_ne ?_).mpr (h.wait q y hq)
      intro hyx
      subst hyx
      exact absurd hpend (Nat.pos_iff_ne_zero.mp (h.pending_pos hq))
  case tokens =>
    intro y
    obtain ⟨d, hd⟩ := hobj y
    exact (congrArg Inode.refCount hd).trans (h.tokens y)
  case opened =>
    intro y
    obtain ⟨d, hd⟩ := hobj y
    exact (congrArg Inode.openCount hd).trans (h.opened y)
  case openRef => exact h.openRef
  case read => exact fun q ino hq => absurd hq (hu.1 q ino)
  case tear => exact fun q y hq => absurd hq (hu.2 q y)
  case flush => exact fun q y hq => absurd (.inr hq) (hu.2 q y)
  case release =>
    intro q y hq
    show y < s.next ∧ y ∉ s.cache.erase x ∧ y ∉ s.kills
    rcases (hrel q y).mp hq with ⟨-, hq'⟩ | ⟨-, rfl⟩
    · obtain ⟨hlt, hc, hk⟩ := h.release q y hq'
      exact ⟨hlt, fun hm => hc (List.mem_of_mem_erase hm), hk⟩
    · exact ⟨h.bound y hx, h.cache_nodup.not_mem_erase, fun hk => (h.killed y hk).2 hx⟩
  case releaseUnique =>
    intro q r y hq hr
    rcases (hrel q y).mp hq with ⟨-, hq'⟩ | ⟨hqp, hyq⟩ <;>
      rcases (hrel r y).mp hr with ⟨-, hr'⟩ | ⟨hrp, hyr⟩
    · exact h.releaseUnique q r y hq' hr'
    · exact absurd hx (hyr ▸ (h.release q y hq').2.1)
    · exact absurd hx (hyq ▸ (h.release r y hr').2.1)
    · rw [hqp, hrp]
  case bound => exact fun y hy => h.bound y (List.mem_of_mem_erase hy)
  case killed =>
    exact fun y hy => ⟨(h.killed y hy).1, fun hm => (h.killed y hy).2 (List.mem_of_mem_erase hm)⟩
  case killsNodup => exact h.killsNodup
  case placed =>
    intro y hy
    by_cases hyx : y = x
    · exact .inr (.inl ⟨p, (hrel p y).mpr (.inr ⟨rfl, hyx⟩)⟩)
    rcases h.placed y hy with hc | ⟨q, hq⟩ | hk
    · exact .inl ((List.mem_erase_of_ne hyx).mpr hc)
    · refine .inr (.inl ⟨q, (hrel q y).mpr (.inl ⟨?_, hq⟩)⟩)
      intro hqp
      rw [hqp] at hq
      exact (hne y).2.1 hq
    · exact .inr (.inr hk)
  case linger =>
    intro y hy hy0
    have hyx : y ≠ x := by
      intro hyx
      rw [hyx] at hy
      exact absurd hy h.cache_nodup.not_mem_erase
    change ((s.setObj x { s.obj x with dirty }).obj y).reclaimCount = 0 at hy0
    show _ ∨ ((s.setObj x { s.obj x with dirty }).obj y).nlinks ≠ 0 ∧
      ((s.setObj x { s.obj x with dirty }).obj y).dirty = true
    rw [setObj_obj_of_ne hyx] at hy0 ⊢
    rcases h.linger y (List.mem_of_mem_erase hy) hy0 with ⟨q, hq⟩ | hd
    · exact absurd (h.tears_unique hp hq).2 hyx
    · exact .inr hd

theorem Inv.removeLinks_same (h : Inv s) (hp : s.Tears p x) : Inv (s.removeLinks p x) := by
  have hrem := h.removeLinks hp (s.obj x).dirty
  rwa [setObj_self] at hrem

theorem Inv.kill (h : Inv s) (hp : s.phase p = .release x) :
    Inv { s.setPhase p .idle with kills := x :: s.kills } := by
  obtain ⟨hlt, hcache, hkills⟩ := h.release p x hp
  have hpend : ∀ y, (s.setPhase p .idle).pending y = s.pending y := by
    intro y
    have heq := h.pending_setPhase p .idle y
    rwa [if_neg (by rw [hp]; simp), if_neg (by simp)] at heq
  have hphase : ∀ q ph, ph ≠ .idle → (s.setPhase p .idle).phase q = ph → s.phase q = ph ∧ q ≠ p := by
    intro q ph hne hq
    by_cases hqp : q = p
    · rw [hqp, setPhase_phase] at hq
      exact absurd hq.symm hne
    · rw [setPhase_phase_of_ne hqp] at hq
      exact ⟨hq, hqp⟩
  have htears : ∀ q y, (s.setPhase p .idle).Tears q y → s.Tears q y := fun q y hq =>
    hq.imp (fun hq => (hphase q _ (by simp) hq).1) (fun hq => (hphase q _ (by simp) hq).1)
  constructor
  case nodup => exact h.nodup
  case busy => exact h.busy_setPhase p _
  case count =>
    intro y hy
    show (s.obj y).reclaimCount = _ + (s.setPhase p .idle).pending y
    rw [hpend]
    exact h.count y hy
  case live => exact h.live
  case wait => exact fun q y hq => h.wait q y (hphase q _ (by simp) hq).1
  case tokens => exact h.tokens
  case opened => exact h.opened
  case openRef => exact h.openRef
  case read => exact fun q ino hq => h.read q ino (hphase q _ (by simp) hq).1
  case tear => exact fun q y hq => h.tear q y (htears q y hq)
  case flush => exact fun q y hq => h.flush q y (hphase q _ (by simp) hq).1
  case release =>
    intro q y hq
    obtain ⟨hq', hqp⟩ := hphase q _ (by simp) hq
    obtain ⟨hlt', hc, hk⟩ := h.release q y hq'
    refine ⟨hlt', hc, fun hmem => ?_⟩
    rcases List.mem_cons.mp hmem with rfl | hmem
    · exact hqp (h.releaseUnique q p y hq' hp)
    · exact hk hmem
  case releaseUnique =>
    exact fun q r y hq hr => h.releaseUnique q r y (hphase q _ (by simp) hq).1
      (hphase r _ (by simp) hr).1
  case bound => exact h.bound
  case killed =>
    intro y hy
    rcases List.mem_cons.mp hy with rfl | hy
    · exact ⟨hlt, hcache⟩
    · exact h.killed y hy
  case killsNodup => exact List.nodup_cons.mpr ⟨hkills, h.killsNodup⟩
  case placed =>
    intro y hy
    rcases h.placed y hy with hc | ⟨q, hq⟩ | hk
    · exact .inl hc
    · by_cases hqp : q = p
      · rw [hqp, hp] at hq
        cases hq
        exact .inr (.inr List.mem_cons_self)
      · exact .inr (.inl ⟨q, by rw [← hq]; exact setPhase_phase_of_ne hqp⟩)
    · exact .inr (.inr (List.mem_cons_of_mem _ hk))
  case linger =>
    intro y hy hy0
    refine (h.linger y hy hy0).imp ?_ id
    intro ⟨q, hq⟩
    have hqp : q ≠ p := by
      intro hqp
      rw [hqp, State.Tears, hp] at hq
      simp at hq
    refine ⟨q, ?_⟩
    show (s.setPhase p .idle).Tears q y
    rwa [State.Tears, setPhase_phase_of_ne hqp]

theorem find_eq_none_iff {ino : ℕ} : s.find ino = none ↔ ino ∉ s.cache.map fun x => (s.obj x).ino := by
  unfold State.find
  rw [List.find?_eq_none, List.mem_map]
  simp

theorem Inv.unallocated (h : Inv s) (hx : s.next ≤ x) : x ∉ s.cache ∧ (s.obj x).refCount = 0 := by
  have hc : x ∉ s.cache := fun hm => absurd (h.bound x hm) (Nat.not_lt.mpr hx)
  exact ⟨hc, Nat.eq_zero_of_not_pos fun hpos => hc (h.live x hpos)⟩

theorem Inv.create (h : Inv s) {ino nlinks : ℕ} (hp : s.phase p = .read ino) :
    Inv ((s.create p ino nlinks).setPhase p .idle) := by
  obtain ⟨ho, hfind⟩ := h.read p ino hp
  obtain ⟨hfresh, href⟩ := h.unallocated (Nat.le_refl s.next)
  have hopen := h.openCount_eq_zero href
  rw [h.tokens] at href
  rw [h.opened] at hopen
  have hu : (s.setPhase p .idle).Unheld := h.unheld_setPhase ho (by simp) (by simp)
  have hpend : ∀ y, (s.setPhase p .idle).pending y = s.pending y := by
    intro y
    have heq := h.pending_setPhase p .idle y
    rwa [if_neg (by rw [hp]; simp), if_neg (by simp)] at heq
  have hrel : ∀ q y, (s.setPhase p .idle).phase q = .release y ↔ s.phase q = .release y := by
    intro q y
    by_cases hq : q = p
    · rw [hq, setPhase_phase, hp]
      simp
    · rw [setPhase_phase_of_ne hq]
  have hobj : ∀ y, y ≠ s.next → ((s.create p ino nlinks).setPhase p .idle).obj y = s.obj y :=
    fun y hy => Function.update_of_ne hy ..
  have hobjn : ((s.create p ino nlinks).setPhase p .idle).obj s.next =
      ⟨ino, 1, 0, 1, nlinks, false⟩ := Function.update_self ..
  have hmem : ∀ y ∈ s.cache, y ≠ s.next := fun y hy hyn => hfresh (hyn ▸ hy)
  constructor
  case nodup =>
    show (((s.next :: s.cache).map fun y => (_ : Inode).ino)).Nodup
    rw [List.map_cons, List.nodup_cons]
    have heq : (s.cache.map fun y => (((s.create p ino nlinks).setPhase p .idle).obj y).ino) =
        s.cache.map fun y => (s.obj y).ino :=
      List.map_congr_left fun y hy => by rw [hobj y (hmem y hy)]
    refine ⟨?_, heq ▸ h.nodup⟩
    rw [heq, hobjn]
    exact find_eq_none_iff.mp hfind
  case busy => exact h.busy_setPhase p _
  case count =>
    intro y hy
    show _ = _ + (s.setPhase p .idle).pending y
    rw [hpend]
    rcases List.mem_cons.mp hy with rfl | hy
    · rw [hobjn, h.pending_eq_zero hfresh]
      rfl
    · rw [hobj y (hmem y hy)]
      exact h.count y hy
  case live =>
    intro y hy
    by_cases hyn : y = s.next
    · rw [hyn]
      exact List.mem_cons_self
    · rw [hobj y hyn] at hy
      exact List.mem_cons_of_mem _ (h.live y hy)
  case wait =>
    intro q y hq
    by_cases hqp : q = p
    · rw [hqp, setPhase_phase] at hq
      cases hq
    · rw [setPhase_phase_of_ne hqp] at hq
      exact List.mem_cons_of_mem _ (h.wait q y hq)
  case tokens =>
    intro y
    show _ = ((p, s.next) :: s.refs).countP (·.2 = y)
    by_cases hyn : y = s.next
    · rw [hyn, hobjn, List.countP_cons_of_pos (by simp), href]
    · rw [hobj y hyn, List.countP_cons_of_neg (by simpa using Ne.symm hyn)]
      exact h.tokens y
  case opened =>
    intro y
    by_cases hyn : y = s.next
    · rw [hyn, hobjn]
      exact hopen.symm
    · rw [hobj y hyn]
      exact h.opened y
  case openRef =>
    exact fun t => Nat.le_trans (h.openRef t) (List.count_le_count_cons)
  case read => exact fun q i hq => absurd hq (hu.1 q i)
  case tear => exact fun q y hq => absurd hq (hu.2 q y)
  case flush => exact fun q y hq => absurd (.inr hq) (hu.2 q y)
  case release =>
    intro q y hq
    obtain ⟨hlt, hc, hk⟩ := h.release q y ((hrel q y).mp hq)
    refine ⟨Nat.lt_succ_of_lt hlt, fun hm => ?_, hk⟩
    rcases List.mem_cons.mp hm with rfl | hm
    · exact Nat.lt_irrefl _ hlt
    · exact hc hm
  case releaseUnique =>
    exact fun q r y hq hr => h.releaseUnique q r y ((hrel q y).mp hq) ((hrel r y).mp hr)
  case bound =>
    intro y hy
    rcases List.mem_cons.mp hy with rfl | hy
    · exact Nat.lt_succ_self _
    · exact Nat.lt_succ_of_lt (h.bound y hy)
  case killed =>
    intro y hy
    obtain ⟨hlt, hc⟩ := h.killed y hy
    refine ⟨Nat.lt_succ_of_lt hlt, fun hm => ?_⟩
    rcases List.mem_cons.mp hm with rfl | hm
    · exact Nat.lt_irrefl _ hlt
    · exact hc hm
  case killsNodup => exact h.killsNodup
  case placed =>
    intro y hy
    rcases Nat.lt_succ_iff_lt_or_eq.mp hy with hy | rfl
    · rcases h.placed y hy with hc | ⟨q, hq⟩ | hk
      · exact .inl (List.mem_cons_of_mem _ hc)
      · exact .inr (.inl ⟨q, (hrel q y).mpr hq⟩)
      · exact .inr (.inr hk)
    · exact .inl List.mem_cons_self
  case linger =>
    intro y hy hy0
    rcases List.mem_cons.mp hy with rfl | hy
    · rw [hobjn] at hy0
      cases hy0
    · rw [hobj y (hmem y hy)] at hy0 ⊢
      rcases h.linger y hy hy0 with ⟨q, hq⟩ | hd
      · exact absurd ((h.tear q y hq).1.symm.trans ho) fun he => by
          rw [Option.some.inj he, State.Tears, hp] at hq
          simp at hq
      · exact .inr hd

/-! ## Steps -/

theorem setPhase_self (hp : s.phase p = ph) : s.setPhase p ph = s := by
  unfold State.setPhase
  rw [← hp, Function.update_eq_self]

theorem countP_snd_cons {l : List (ℕ × ℕ)} {y : ℕ} (h : y ≠ x) :
    ((p, x) :: l).countP (·.2 = y) = l.countP (·.2 = y) :=
  List.countP_cons_of_neg (by simpa using Ne.symm h)

theorem countP_snd_cons_self {l : List (ℕ × ℕ)} :
    ((p, x) :: l).countP (·.2 = x) = l.countP (·.2 = x) + 1 :=
  List.countP_cons_of_pos (by simp)

theorem countP_snd_erase {l : List (ℕ × ℕ)} {y : ℕ} (h : y ≠ x) :
    (l.erase (p, x)).countP (·.2 = y) = l.countP (·.2 = y) := by
  by_cases hm : (p, x) ∈ l
  · rw [(List.perm_cons_erase hm).countP_eq, countP_snd_cons h]
  · rw [List.erase_of_not_mem hm]

theorem countP_snd_erase_self {l : List (ℕ × ℕ)} (hm : (p, x) ∈ l) :
    l.countP (·.2 = x) = (l.erase (p, x)).countP (·.2 = x) + 1 := by
  rw [(List.perm_cons_erase hm).countP_eq, countP_snd_cons_self]

theorem Inv.referenced (h : Inv s) (hm : (p, x) ∈ s.refs) :
    0 < (s.obj x).refCount ∧ x ∈ s.cache := by
  have hpos : 0 < (s.obj x).refCount := by
    rw [h.tokens, countP_snd_erase_self hm]
    exact Nat.succ_pos _
  exact ⟨hpos, h.live x hpos⟩

/-- A referenced inode is not being torn down. -/
theorem Inv.not_torn (h : Inv s) (hx : 0 < (s.obj x).refCount) (q : ℕ) : ¬ s.Tears q x :=
  fun hq => absurd (h.torn hq).1 (Nat.pos_iff_ne_zero.mp hx)

/-- `x` with one more reference, and one more pending reclaim if it was the first. -/
theorem lookupFound_eq : s.lookupFound p x =
    { s.setObj x { s.obj x with
        refCount := (s.obj x).refCount + 1
        reclaimCount := (s.obj x).reclaimCount + if (s.obj x).refCount = 0 then 1 else 0 } with
      refs := (p, x) :: s.refs } := by
  unfold State.lookupFound State.refInc State.setObj
  by_cases h0 : (s.obj x).refCount = 0 <;> simp [h0]

theorem Counted.refInc (h : Inv s) {i : Inode} (hr : i.refCount = (s.obj x).refCount + 1)
    (ho : i.openCount = (s.obj x).openCount) : Counted s x i ((p, x) :: s.refs) s.opens where
  refs_eq := by rw [hr, h.tokens, countP_snd_cons_self]
  opens_eq := by rw [ho, h.opened]
  refs_ne _ hy := countP_snd_cons hy
  opens_ne _ _ := rfl
  le t := Nat.le_trans (h.openRef t) List.count_le_count_cons

theorem Counted.refDec (h : Inv s) {i : Inode} (hlt : s.opens.count (p, x) < s.refs.count (p, x))
    (hr : i.refCount = (s.obj x).refCount - 1) (ho : i.openCount = (s.obj x).openCount) :
    Counted s x i (s.refs.erase (p, x)) s.opens where
  refs_eq := by
    rw [hr, h.tokens, countP_snd_erase_self (List.count_pos_iff.mp (Nat.zero_lt_of_lt hlt))]
    rfl
  opens_eq := by rw [ho, h.opened]
  refs_ne _ hy := countP_snd_erase hy
  opens_ne _ _ := rfl
  le t := by
    by_cases ht : t = (p, x)
    · rw [ht, List.count_erase_self]
      omega
    · rw [List.count_erase_of_ne ht]
      exact h.openRef t

theorem Counted.openInc (h : Inv s) {i : Inode} (hlt : s.opens.count (p, x) < s.refs.count (p, x))
    (hr : i.refCount = (s.obj x).refCount) (ho : i.openCount = (s.obj x).openCount + 1) :
    Counted s x i s.refs ((p, x) :: s.opens) where
  refs_eq := by rw [hr, h.tokens]
  opens_eq := by rw [ho, h.opened, countP_snd_cons_self]
  refs_ne _ _ := rfl
  opens_ne _ hy := countP_snd_cons hy
  le t := by
    by_cases ht : t = (p, x)
    · rw [ht, List.count_cons_self]
      omega
    · rw [List.count_cons_of_ne (Ne.symm ht)]
      exact h.openRef t

theorem Counted.openDec (h : Inv s) {i : Inode} (hm : (p, x) ∈ s.opens)
    (hr : i.refCount = (s.obj x).refCount) (ho : i.openCount = (s.obj x).openCount - 1) :
    Counted s x i s.refs (s.opens.erase (p, x)) where
  refs_eq := by rw [hr, h.tokens]
  opens_eq := by
    rw [ho, h.opened, countP_snd_erase_self hm]
    rfl
  refs_ne _ _ := rfl
  opens_ne _ hy := countP_snd_erase hy
  le t := by
    by_cases ht : t = (p, x)
    · rw [ht, List.count_erase_self]
      exact Nat.le_trans (Nat.sub_le _ _) (h.openRef _)
    · rw [List.count_erase_of_ne ht]
      exact h.openRef t

/-- A process that is in none of the calls changes an inode that is referenced and stays so. -/
theorem Inv.change (h : Inv s) {i : Inode} {refs opens : List (ℕ × ℕ)} (hp : s.phase p = .idle)
    (hx : 0 < (s.obj x).refCount) (hr : 0 < i.refCount) (hino : i.ino = (s.obj x).ino)
    (hrc : i.reclaimCount = (s.obj x).reclaimCount) (hc : Counted s x i refs opens) :
    Inv { s.setObj x i with refs, opens } := by
  have hcount := h.count x (h.live x hx)
  rw [if_pos hx] at hcount
  have hself : { s.setObj x i with refs, opens }.setPhase p .idle = { s.setObj x i with refs, opens } :=
    setPhase_self hp
  have hmove : Inv ({ s.setObj x i with refs, opens }.setPhase p .idle) := by
    refine h.move (h.live x hx) hino hc ?_ (by simp [hp]) (by simp [hp, State.Tears]) (by simp)
      (h.not_torn hx) (by simp) (by simp) ?_
    · rw [if_pos hr, hp, hrc]
      simpa using hcount
    · intro h0
      omega
  rwa [hself] at hmove

theorem Inv.step_refDec (h : Inv s) (hp : s.phase p = .idle)
    (hlt : s.opens.count (p, x) < s.refs.count (p, x)) : ∃ t, s.refDec p x = some t ∧ Inv t := by
  have hm : (p, x) ∈ s.refs := List.count_pos_iff.mp (Nat.zero_lt_of_lt hlt)
  obtain ⟨hpos, hx⟩ := h.referenced hm
  have hcount := h.count x hx
  rw [if_pos hpos] at hcount
  have hc : Counted s x { s.obj x with refCount := (s.obj x).refCount - 1 } (s.refs.erase (p, x))
      s.opens := .refDec h hlt rfl rfl
  unfold State.refDec
  dsimp only
  rw [if_pos hpos]
  split
  · rename_i hlast
    refine ⟨_, rfl, Inv.lockFs ?_ p⟩
    -- the last reference goes, and one reclaim is to come
    refine h.move hx rfl hc ?_ ?_ (by simp [hp, State.Tears]) (by simp)
      (h.not_torn hpos) (by simp) (by simp) (fun h0 => ?_)
    · rw [hp, if_neg (by simp), if_pos rfl, if_neg (by simp [hlast])]
      dsimp only
      omega
    · exact fun y hy => ⟨by rw [hp]; simp, fun he => hy (Phase.reclaim.inj he).symm⟩
    · dsimp only at h0
      omega
  · rename_i hlast
    exact ⟨_, rfl, h.change hp hpos (Nat.pos_of_ne_zero hlast) rfl rfl hc⟩

theorem Inv.loadLocked (h : Inv s) {ino : ℕ} (hp : s.phase p = .load ino) (ho : s.owner = some p)
    (fail : Bool) : Inv (s.loadLocked p ino fail) := by
  have hu : (s.setPhase p .idle).Unheld := h.unheld_setPhase ho (by simp) (by simp)
  have hquiet : ∀ x, s.phase p ≠ .reclaim x ∧ s.phase p ≠ .release x := by simp [hp]
  have hnot : ∀ x, ¬ s.Tears p x := by simp [hp, State.Tears]
  unfold State.loadLocked
  split
  · rename_i x hx
    have hmem : x ∈ s.cache := List.mem_of_find?_eq_some hx
    have hcount := h.count x hmem
    rw [lookupFound_eq]
    refine Inv.unlockFs (h.move hmem rfl (.refInc h rfl rfl) ?_ (by simp [hp])
      (fun y => ⟨(hquiet y).2, hnot y⟩) (by simp) ?_ (by simp) (by simp) ?_) hu
    · have hload : (if s.phase p = .reclaim x then 1 else 0) = 0 := if_neg (hquiet x).1
      have hidle : (if Phase.idle = .reclaim x then 1 else 0) = 0 := if_neg (by simp)
      rw [hload, hidle, if_pos (Nat.succ_pos _)]
      dsimp only
      by_cases h0 : (s.obj x).refCount = 0
      · rw [if_neg (by omega)] at hcount
        rw [if_pos h0]
        omega
      · rw [if_pos (by omega)] at hcount
        rw [if_neg h0]
        omega
    · -- `fs_sem` is here, so no inode is being torn down
      intro q hq
      obtain rfl : p = q := Option.some.inj (ho.symm.trans (h.tear q x hq).1)
      exact absurd hq (hnot x)
    · intro h0
      dsimp only at h0
      by_cases hr : (s.obj x).refCount = 0
      · rw [if_pos hr] at h0
        omega
      · rw [if_pos (by omega)] at hcount
        omega
  · rename_i hnone
    split
    · exact Inv.unlockFs (h.setPhase hquiet (by simp) (by simp) (by simp [hp])) hu
    · refine h.setPhase hquiet (by simp) ?_ (by simp [hp])
      intro i hi
      cases hi
      exact ⟨ho, hnone⟩

theorem removeLinks_setPhase : (s.setPhase p ph).removeLinks p x = s.removeLinks p x := by
  unfold State.removeLinks State.setPhase
  simp

theorem Inv.reclaimLocked (h : Inv s) (hp : s.phase p = .reclaim x) (ho : s.owner = some p) :
    ∃ t, s.reclaimLocked p x = some t ∧ Inv t := by
  have hx := h.wait p x hp
  have hcount := h.count x hx
  have hpend := h.pending_pos hp
  have hnot : ∀ y, ¬ s.Tears p y := by simp [hp, State.Tears]
  have hnobody : ∀ q y, ¬ s.Tears q y := by
    intro q y hq
    obtain rfl : p = q := Option.some.inj (ho.symm.trans (h.tear q y hq).1)
    exact hnot y hq
  have hother : ∀ ph : Phase, (∀ y, ph ≠ .reclaim y) → ∀ y, y ≠ x →
      s.phase p ≠ .reclaim y ∧ ph ≠ .reclaim y :=
    fun ph hph y hy => ⟨by rw [hp]; exact fun he => hy (Phase.reclaim.inj he).symm, hph y⟩
  have hold : ∀ y, s.phase p ≠ .release y ∧ ¬ s.Tears p y := fun y => ⟨by simp [hp], hnot y⟩
  have hc : Counted s x { s.obj x with reclaimCount := (s.obj x).reclaimCount - 1 } s.refs s.opens :=
    ⟨h.tokens x, h.opened x, fun _ _ => rfl, fun _ _ => rfl, h.openRef⟩
  have hmove : ∀ ph : Phase, (∀ y, ph ≠ .reclaim y ∧ ph ≠ .release y ∧ ph ≠ .read y) →
      (∀ y, ph = .truncate y ∨ ph = .fsync y → y = x ∧ (s.obj x).reclaimCount - 1 = 0) →
      (ph = .fsync x → (s.obj x).nlinks ≠ 0 ∧ (s.obj x).dirty = true) →
      ((s.obj x).reclaimCount - 1 = 0 → ph = .truncate x ∨ ph = .fsync x) →
      Inv ((s.setObj x { s.obj x with reclaimCount := (s.obj x).reclaimCount - 1 }).setPhase p ph) := by
    intro ph hph htear hflush hzero
    refine h.move hx rfl hc ?_ (hother ph fun y => (hph y).1) hold (fun y => (hph y).2)
      (fun q => hnobody q x) (fun y hy => ⟨ho, htear y hy⟩) hflush hzero
    rw [hp, if_pos rfl, if_neg (hph x).1]
    dsimp only
    omega
  unfold State.reclaimLocked
  dsimp only
  rw [if_pos (by omega)]
  split
  · rename_i hbusy
    exact ⟨_, rfl, Inv.unlockFs (hmove .idle (by simp) (by simp) (by simp) fun h0 => absurd h0 hbusy)
      (h.unheld_setPhase ho (by simp) (by simp))⟩
  rename_i hbusy
  have hzero : (s.obj x).reclaimCount - 1 = 0 := not_not.mp hbusy
  have href : (s.obj x).refCount = 0 := by
    split_ifs at hcount <;> omega
  rw [if_pos ⟨href, h.openCount_eq_zero href⟩]
  split
  · exact ⟨_, rfl, hmove (.truncate x) (by simp) (by simp [hzero]) (by simp) (by simp)⟩
  rename_i hnlinks
  split
  · rename_i hdirty
    exact ⟨_, rfl, hmove (.fsync x) (by simp) (by simp [hzero]) (fun _ => ⟨hnlinks, hdirty⟩)
      (by simp)⟩
  · -- as if there were something to free first
    have hinv := hmove (.truncate x) (by simp) (by simp [hzero]) (by simp) (by simp)
    have htear := hinv.removeLinks_same (.inl setPhase_phase)
    rw [removeLinks_setPhase] at htear
    exact ⟨_, rfl, htear⟩

/-- No assertion fails, and every step keeps the invariant. -/
theorem Inv.step_spec (h : Inv s) {a : Act} (he : s.Enabled a) :
    ∃ t, s.step a = some t ∧ Inv t := by
  cases a with
  | load p ino =>
    have hp : s.phase p = .idle := he
    refine ⟨_, rfl, Inv.lockFs ?_ p⟩
    exact h.setPhase (by simp [hp]) (by simp) (by simp) (by simp [hp])
  | refInc p x =>
    obtain ⟨hp, hm⟩ : s.phase p = .idle ∧ (p, x) ∈ s.refs := he
    exact ⟨_, rfl, h.change hp (h.referenced hm).1 (Nat.succ_pos _) rfl rfl (.refInc h rfl rfl)⟩
  | refDec p x => exact h.step_refDec he.1 he.2
  | openInc p x =>
    obtain ⟨hp, hlt⟩ : s.phase p = .idle ∧ s.opens.count (p, x) < s.refs.count (p, x) := he
    have hpos := (h.referenced (List.count_pos_iff.mp (Nat.zero_lt_of_lt hlt))).1
    exact ⟨_, rfl, h.change hp hpos hpos rfl rfl (.openInc h hlt rfl rfl)⟩
  | openDec p x =>
    obtain ⟨hp, hm⟩ : s.phase p = .idle ∧ (p, x) ∈ s.opens := he
    have href : (p, x) ∈ s.refs :=
      List.count_pos_iff.mp (Nat.lt_of_lt_of_le (List.count_pos_iff.mpr hm) (h.openRef _))
    have hpos := (h.referenced href).1
    exact ⟨_, rfl, h.change hp hpos hpos rfl rfl (.openDec h hm rfl rfl)⟩
  | modify p x nlinks dirty =>
    obtain ⟨hp, hm⟩ : s.phase p = .idle ∧ (p, x) ∈ s.refs := he
    have hpos := (h.referenced hm).1
    exact ⟨_, rfl, h.change hp hpos hpos rfl rfl
      ⟨h.tokens x, h.opened x, fun _ _ => rfl, fun _ _ => rfl, h.openRef⟩⟩
  | run p fail nlinks =>
    dsimp only [State.Enabled] at he
    dsimp only [State.step]
    cases hp : s.phase p with
    | idle =>
      rw [hp] at he
      exact he.elim
    | load ino =>
      rw [hp] at he
      exact ⟨_, rfl, h.loadLocked hp he fail⟩
    | read ino =>
      have ho := (h.read p ino hp).1
      have hu : (s.setPhase p .idle).Unheld := h.unheld_setPhase ho (by simp) (by simp)
      refine ⟨_, rfl, ?_⟩
      cases fail
      · exact (h.create hp).unlockFs hu
      · exact (h.setPhase (by simp [hp]) (by simp) (by simp) (by simp [hp])).unlockFs hu
    | reclaim x =>
      rw [hp] at he
      exact h.reclaimLocked hp he
    | truncate x => exact ⟨_, rfl, h.removeLinks_same (.inl hp)⟩
    | fsync x =>
      have ho := (h.tear p x (.inr hp)).1
      cases fail
      · exact ⟨_, rfl, h.removeLinks (.inr hp) false⟩
      · refine ⟨_, rfl, Inv.unlockFs ?_ (h.unheld_setPhase ho (by simp) (by simp))⟩
        exact h.setPhase (by simp [hp]) (by simp) (by simp) (by simp [hp])
    | release x =>
      obtain ⟨hlt, hx, hk⟩ := h.release p x hp
      have href : (s.obj x).refCount = 0 := Nat.eq_zero_of_not_pos fun hpos => hx (h.live x hpos)
      exact ⟨_, if_pos ⟨href, h.openCount_eq_zero href⟩, h.kill hp⟩

theorem mounted_inv : Inv mounted where
  nodup := List.nodup_nil
  busy := by simp [mounted]
  count := by simp [mounted]
  live := by simp [mounted]
  wait := by simp [mounted]
  tokens := by simp [mounted]
  opened := by simp [mounted]
  openRef := by simp [mounted]
  read := by simp [mounted]
  tear := by simp [mounted, State.Tears]
  flush := by simp [mounted]
  release := by simp [mounted]
  releaseUnique := by simp [mounted]
  bound := by simp [mounted]
  killed := by simp [mounted]
  killsNodup := List.nodup_nil
  placed := by simp [mounted]
  linger := by simp [mounted]

theorem Reachable.inv (h : Reachable s) : Inv s := by
  induction h with
  | mounted => exact mounted_inv
  | step _ he hs ih =>
    obtain ⟨t, ht, hinv⟩ := ih.step_spec he
    rw [hs] at ht
    cases ht
    exact hinv

/-- What holds of an inode that has been killed, or is about to be: no references, no open files, no
lookup returns it. -/
structure State.Gone (s : State) (x : ℕ) : Prop where
  ref : (s.obj x).refCount = 0
  opened : (s.obj x).openCount = 0
  refs : ∀ p, (p, x) ∉ s.refs
  find : ∀ ino, s.find ino ≠ some x
  pending : s.pending x = 0

theorem Inv.gone (h : Inv s) (hx : x ∉ s.cache) : s.Gone x := by
  have href : (s.obj x).refCount = 0 := Nat.eq_zero_of_not_pos fun hpos => hx (h.live x hpos)
  refine ⟨href, h.openCount_eq_zero href, fun p hp => hx (h.referenced hp).2, fun ino hf => ?_,
    h.pending_eq_zero hx⟩
  exact hx (List.mem_of_find?_eq_some hf)

/-- **Inode cache and reclaim protocol.**  In every state of every interleaving: an inode number has
at most one cached inode; `reclaim_count` of a cached inode is one if it is referenced, plus the
reclaims that are still to decrement it; no assertion fails; an allocated inode that is not cached any
more is being killed by one process or has been killed, once, and nothing can reach it; a cached
inode with no references and no reclaim to come is being torn down, or its flush has failed. -/
theorem inode_cache_protocol (hr : Reachable s) :
    (∀ x ∈ s.cache, ∀ y ∈ s.cache, (s.obj x).ino = (s.obj y).ino → x = y) ∧
    (∀ x ∈ s.cache,
      (s.obj x).reclaimCount = (if 0 < (s.obj x).refCount then 1 else 0) + s.pending x) ∧
    (∀ a, s.Enabled a → ∃ t, s.step a = some t) ∧
    (∀ x < s.next, s.kills.count x ≤ 1 ∧
      (s.kills.count x = 1 ↔ x ∉ s.cache ∧ ∀ p, s.phase p ≠ .release x)) ∧
    (∀ x, (∃ p, s.phase p = .release x) ∨ x ∈ s.kills → s.Gone x) ∧
    (∀ p q x, s.phase p = .release x → s.phase q = .release x → p = q) ∧
    (∀ x ∈ s.cache, (s.obj x).refCount = 0 → s.pending x = 0 →
      (∃ p, s.Tears p x) ∨ (s.obj x).nlinks ≠ 0 ∧ (s.obj x).dirty = true) := by
  have h := hr.inv
  refine ⟨?_, h.count, ?_, ?_, ?_, h.releaseUnique, ?_⟩
  · exact fun x hx y hy heq => List.inj_on_of_nodup_map h.nodup hx hy heq
  · intro a ha
    obtain ⟨t, ht, -⟩ := h.step_spec ha
    exact ⟨t, ht⟩
  · intro x hx
    refine ⟨List.nodup_iff_count_le_one.mp h.killsNodup x, fun h1 => ?_, fun hgone => ?_⟩
    · have hk : x ∈ s.kills := List.count_pos_iff.mp (by omega)
      exact ⟨(h.killed x hk).2, fun p hp => (h.release p x hp).2.2 hk⟩
    · have hk : x ∈ s.kills := by
        rcases h.placed x hx with hc | ⟨p, hp⟩ | hk
        · exact absurd hc hgone.1
        · exact absurd hp (hgone.2 p)
        · exact hk
      exact List.count_eq_one_of_mem h.killsNodup hk
  · rintro x (⟨p, hp⟩ | hk)
    · exact h.gone (h.release p x hp).2.1
    · exact h.gone (h.killed x hk).2
  · intro x hx href hpend
    refine h.linger x hx ?_
    rw [h.count x hx, href, hpend]
    rfl

/-- The root inode is loaded again while its last reference is given back, so that it stays; then it is dropped and
killed, once. -/
theorem inode_cache_protocol_revived : ∃ s t, Reachable s ∧ s.cache = [0] ∧ s.refs = [(1, 0)] ∧
    s.phase 0 = .idle ∧ s.kills = [] ∧ Reachable t ∧ t.kills.count 0 = 1 ∧ t.Gone 0 := by
  have h := Reachable.mounted
  have h := h.step (a := .load 0 1) rfl rfl
  have h := h.step (a := .run 0 false 0) rfl rfl
  have h := h.step (a := .run 0 false 2) ⟨rfl, by decide⟩ rfl
  have h := h.step (a := .load 1 1) rfl rfl
  have h := h.step (a := .refDec 0 0) ⟨rfl, by decide⟩ rfl
  have h := h.step (a := .run 1 false 0) rfl rfl
  have hkept := h.step (a := .run 0 false 0) rfl rfl
  have h := hkept.step (a := .refDec 1 0) ⟨rfl, by decide⟩ rfl
  have h := h.step (a := .run 1 false 0) rfl rfl
  have h := h.step (a := .run 1 false 0) trivial rfl
  obtain ⟨-, -, -, -, hgone, -⟩ := inode_cache_protocol h
  exact ⟨_, _, hkept, rfl, rfl, rfl, rfl, h, by decide, hgone 0 (.inr List.mem_cons_self)⟩

end Ucore.Icache
