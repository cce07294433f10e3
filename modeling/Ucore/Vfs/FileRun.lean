import Ucore.Vfs.FileInv

/-!
# What the functions keep up

* `Lived` — the log tells for each descriptor a life in the right order, and where it stands;
* `Good.openDec`, `Good.refDec`, `Good.vopReclaim`, `Good.dying` — the counters of inodes;
* `Inv.alloc`, `Inv.openFile`, `Inv.keep`, `Inv.lastClose`, `Inv.freeFile`, `Inv.dupFile` — the ways in
  which a file changes.
-/

namespace Ucore.Vfs

open Occurrence

/-- Where the descriptor stands in its life. -/
def File.life (f : File) : Life :=
  match f.status with
  | .none | .init => .idle
  | .opened => .opened (f.openCount - 1)
  | .closed => if f.openCount = 0 then .idle else .closed f.openCount

/-- Where the thread goes. -/
def Next.pc : Next → Pc
  | .ret _ => .run
  | .free x r => .free x (.ret r)
  | .closeall table i => .closeall table i
  | .destroy table i => .destroyCheck table i

theorem Next.opens_pc (next : Next) : next.pc.opens = none := by cases next <;> rfl

theorem Next.refs_pc (next : Next) : next.pc.refs = none := by cases next <;> rfl

theorem Next.reclaims_pc (next : Next) : next.pc.reclaims = none := by cases next <;> rfl

theorem Next.dies_pc (next : Next) : next.pc.dies = none := by cases next <;> rfl

theorem Next.uses_pc (next : Next) : next.pc.uses = none := by cases next <;> rfl

theorem Next.inits_pc (next : Next) : next.pc.inits = next.inits := by cases next <;> rfl

theorem Next.frees_pc (next : Next) : next.pc.frees = [] := by cases next <;> rfl

theorem Next.tables_pc (next : Next) : next.pc.tables = next.tables := by cases next <;> rfl

theorem Next.destroys_pc (next : Next) : next.pc.destroys = next.destroys := by cases next <;> rfl

theorem Next.checks_pc (next : Next) : next.pc.checks = next.checks := by cases next <;> rfl

/-! ## The life of an inode -/

theorem Inode.Ok.setOpen {i : Inode} {r d : ℕ} (h : i.Ok r d) (k : ℕ) :
    Inode.Ok { i with openCount := k } r d := h

section Life

variable {i : Inode} {r d : ℕ}

theorem Inode.Ok.alive_of_ref (h : i.Ok r d) (href : 0 < i.refCount) : i.alive = true := by
  unfold Inode.Ok at h
  grind

/-- What `vop_reclaim` finds. -/
theorem Inode.Ok.reclaimed (h : i.Ok (r + 1) d) : i.alive = true ∧ (i.kind = .pipe → i.refCount = 0) ∧
    (i.kind = .fifo ∨ i.kind = .sfs → 0 < i.reclaimCount ∧ (i.reclaimCount - 1 = 0 → i.refCount = 0)) := by
  unfold Inode.Ok at h
  grind

/-- Only `sfs_reclaim` takes time to take an inode down. -/
theorem Inode.Ok.died (h : i.Ok r (d + 1)) : i.refCount = 0 := by
  unfold Inode.Ok at h
  grind

theorem Inode.Ok.refDec (h : i.Ok r d) (href : 0 < i.refCount) :
    Inode.Ok { i with refCount := i.refCount - 1 } (r + if i.refCount - 1 = 0 then 1 else 0) d := by
  obtain ⟨kind, ref, count, rc, alive, dying⟩ := i
  have hne : ref ≠ 0 := Nat.pos_iff_ne_zero.mp href
  unfold Inode.Ok at h ⊢
  dsimp only at h ⊢
  by_cases hone : ref - 1 = 0
  · simp only [hne, hone, if_false, if_true] at h ⊢
    cases alive <;> cases kind <;> cases dying <;> simp at h ⊢ <;> omega
  · simp only [hne, hone, if_false, Nat.add_zero] at h ⊢
    cases alive <;> cases kind <;> cases dying <;> simp at h ⊢ <;> omega

theorem Inode.Ok.device (h : i.Ok (r + 1) d) (hk : i.kind = .device) : i.Ok r d := by
  unfold Inode.Ok at h ⊢
  grind

theorem Inode.Ok.busy (h : i.Ok (r + 1) d) (hk : i.kind = .fifo ∨ i.kind = .sfs) :
    Inode.Ok { i with reclaimCount := i.reclaimCount - 1 } r d := by
  unfold Inode.Ok at h ⊢
  grind

theorem Inode.Ok.kill (h : i.Ok (r + 1) d) (hk : i.kind = .pipe ∨ i.kind = .fifo ∧ i.reclaimCount - 1 = 0) :
    Inode.Ok { i with alive := false, dying := false } r d := by
  unfold Inode.Ok at h ⊢
  grind

theorem Inode.Ok.die (h : i.Ok (r + 1) d) (hk : i.kind = .sfs) (hcount : i.reclaimCount - 1 = 0) :
    Inode.Ok { i with reclaimCount := i.reclaimCount - 1, dying := true } r (d + 1) := by
  obtain ⟨kind, ref, count, rc, alive, dying⟩ := i
  dsimp only at hk hcount
  subst hk
  unfold Inode.Ok at h ⊢
  by_cases href : ref = 0
  · cases alive <;> cases dying <;> simp [href] at h ⊢
    omega
  · cases alive <;> cases dying <;> simp [href] at h ⊢
    omega

theorem Inode.Ok.killed (h : i.Ok r (d + 1)) : Inode.Ok { i with alive := false, dying := false } r d := by
  obtain ⟨kind, ref, count, rc, alive, dying⟩ := i
  unfold Inode.Ok at h ⊢
  cases alive <;> cases kind <;> cases dying <;> simp at h ⊢
  omega

/-- `sfs_reclaim` gives up. -/
theorem Inode.Ok.back (h : i.Ok r (d + 1)) : Inode.Ok { i with dying := false } r d := by
  obtain ⟨kind, ref, count, rc, alive, dying⟩ := i
  unfold Inode.Ok at h ⊢
  by_cases href : ref = 0
  · cases alive <;> cases kind <;> cases dying <;> simp [href] at h ⊢
    omega
  · cases alive <;> cases kind <;> cases dying <;> simp [href] at h ⊢

/-- `vop_ref_inc` for an inode that is referred to. -/
theorem Inode.Ok.refInc (h : i.Ok r d) (href : 0 < i.refCount) (k : ℕ) :
    Inode.Ok { i with refCount := i.refCount + 1, openCount := k } r d := by
  unfold Inode.Ok at h ⊢
  grind

theorem Inode.Ok.found (h : i.Ok r d) (halive : i.alive = true) (hdying : i.dying = false)
    (hpipe : i.kind = .pipe → 0 < i.refCount) :
    Inode.Ok { i with
      refCount := i.refCount + 1
      reclaimCount :=
        if (i.kind = .sfs ∨ i.kind = .fifo) ∧ i.refCount + 1 = 1 then i.reclaimCount + 1
        else i.reclaimCount } r d := by
  unfold Inode.Ok at h ⊢
  grind

theorem Inode.Ok.init (h : i.Ok r d) (halive : i.alive = false) (kind : Kind) :
    Inode.Ok ⟨kind, 1, 0, 1, true, false⟩ r d := by
  unfold Inode.Ok at h ⊢
  grind

end Life

namespace Threads

variable {s s' : Threads} {t u n : ℕ} {pc : Pc} {x y : Slot} {f : File} {table : ℕ} {after : After}
  {nx : Next} {i : Inode}

/-- Each descriptor has had a life in the right order. -/
def Lived (s : Threads) : Prop := ∀ x, lifeOf x s.log = some (s.file x).life

structure Good (s : Threads) : Prop where
  inv : Inv s
  lived : Lived s

/-- No file changes as a descriptor. -/
theorem Lived.quiet (h : Lived s) (hlog : s'.log = s.log) (hfile : ∀ y, (s'.file y).life = (s.file y).life) :
    Lived s' := fun y => by rw [hlog, hfile]; exact h y

theorem Lived.happens (h : Lived s) {e : Event} (hlog : s'.log = (x, e) :: s.log)
    (hx : (s.file x).life.next e = some (s'.file x).life) (hne : ∀ y, y ≠ x → s'.file y = s.file y) :
    Lived s' := by
  intro y
  rw [hlog]
  show (if x = y then (lifeOf y s.log).bind (·.next e) else lifeOf y s.log) = _
  by_cases hxy : x = y
  · subst hxy
    rw [if_pos rfl, h x]
    exact hx
  · rw [if_neg hxy, hne y fun heq => hxy heq.symm]
    exact h y

theorem Lived.happens₂ (h : Lived s) {e e' : Event} (hlog : s'.log = (x, e') :: (x, e) :: s.log)
    (hx : ((s.file x).life.next e).bind (·.next e') = some (s'.file x).life)
    (hne : ∀ y, y ≠ x → s'.file y = s.file y) : Lived s' := by
  intro y
  rw [hlog]
  show (if x = y then (if x = y then (lifeOf y s.log).bind (·.next e) else lifeOf y s.log).bind (·.next e')
    else if x = y then (lifeOf y s.log).bind (·.next e) else lifeOf y s.log) = _
  by_cases hxy : x = y
  · subst hxy
    rw [if_pos rfl, if_pos rfl, h x]
    exact hx
  · rw [if_neg hxy, if_neg hxy, hne y fun heq => hxy heq.symm]
    exact h y

/-! ## Inodes -/

theorem setInode_self (s : Threads) (n : ℕ) (i : Inode) : (s.setInode n i).inode n = i :=
  Function.update_self ..

theorem setInode_setInode (s : Threads) (n : ℕ) (i j : Inode) :
    (s.setInode n i).setInode n j = s.setInode n j := by
  unfold Threads.setInode
  simp only [Function.update_idem]

theorem Inv.setInode (h : Inv s) (hsame : pc.Same (s.pc t))
    (hold : ∀ m, m ≠ n → (s.pc t).opens ≠ some m ∧ (s.pc t).refs ≠ some m ∧ (s.pc t).reclaims ≠ some m ∧
      (s.pc t).dies ≠ some m)
    (hnew : ∀ m, m ≠ n → pc.opens ≠ some m ∧ pc.refs ≠ some m ∧ pc.reclaims ≠ some m ∧ pc.dies ≠ some m)
    (hopens : i.openCount + (if (s.pc t).opens = some n then 1 else 0) =
      (s.inode n).openCount + (if pc.opens = some n then 1 else 0))
    (hrefs : i.refCount + (if (s.pc t).opens = some n then 1 else 0) +
        (if (s.pc t).refs = some n then 1 else 0) =
      (s.inode n).refCount + (if pc.opens = some n then 1 else 0) + (if pc.refs = some n then 1 else 0))
    (hok : ∀ r d r' d', (s.inode n).Ok r d →
      r' + (if (s.pc t).reclaims = some n then 1 else 0) = r + (if pc.reclaims = some n then 1 else 0) →
      d' + (if (s.pc t).dies = some n then 1 else 0) = d + (if pc.dies = some n then 1 else 0) →
      i.Ok r' d') : Inv ((s.setInode n i).setPc t pc) := by
  have hmove := h.moveInode (o := s.others n) hsame hold hnew hopens (by omega) hok
  rw [Function.update_eq_self] at hmove
  exact hmove

theorem Refs.open_le (h : Refs s) (n : ℕ) : (s.inode n).openCount ≤ (s.inode n).refCount := by
  have hopens := h.opens n
  have hrefs := h.refs n
  omega

theorem occ_pc_pos (h : Support s) {β : Type} (g : Pc → Option β) (hg : g .run = none) {m : β}
    (ht : g (s.pc t) = some m) : 0 < occ (fun u => g (s.pc u)) (· = some m) := by
  refine Nat.pos_of_ne_zero (occ_ne_zero (h.pcs.subset fun u hu => ?_) ht)
  show s.pc u ≠ .run
  intro hrun
  rw [Set.mem_ofPred_eq, hrun, hg] at hu
  cases hu

/-- Who has an inode open counts. -/
theorem Inv.open_pos (h : Inv s) (ht : (s.pc t).opens = some n) : 0 < (s.inode n).openCount := by
  have hpos : 0 < s.opening n := occ_pc_pos h.support Pc.opens rfl ht
  rw [h.refs.opens]
  omega

theorem Inv.ref_pos (h : Inv s) (ht : (s.pc t).refs = some n) : 0 < (s.inode n).refCount := by
  have hpos : 0 < s.referring n := occ_pc_pos h.support Pc.refs rfl ht
  rw [h.refs.refs]
  omega

theorem Good.openDec (h : Good s) (hpc : s.pc t = .vfsClose n after) :
    ∃ s', s.openDec t n after = some s' ∧ Good s' := by
  have hpos := h.inv.open_pos (t := t) (n := n) (by rw [hpc]; rfl)
  have hinv : ∀ pc, pc.Same (.vfsClose n after) → pc.opens = none → pc.refs = some n → pc.reclaims = none →
      pc.dies = none →
      Inv ((s.setInode n { s.inode n with openCount := (s.inode n).openCount - 1 }).setPc t pc) := by
    intro pc hsame hopens hrefs hreclaims hdies
    refine h.inv.setInode (by rw [hpc]; exact hsame) ?_ ?_ ?_ ?_ ?_
    · intro m hm
      rw [hpc]
      simp [Pc.opens, Pc.refs, Pc.reclaims, Pc.dies, hm.symm]
    · intro m hm
      simp [hopens, hrefs, hreclaims, hdies, hm.symm]
    · rw [hpc, hopens]
      simp [Pc.opens]
      omega
    · rw [hpc, hopens, hrefs]
      simp [Pc.opens, Pc.refs]
    · intro r d r' d' hok hr hd
      rw [hpc, hreclaims] at hr
      rw [hpc, hdies] at hd
      simp only [Pc.reclaims, Pc.dies, reduceCtorEq, if_false, Nat.add_zero] at hr hd
      rw [hr, hd]
      exact hok.setOpen _
  unfold Threads.openDec
  rw [guard, if_pos hpos]
  dsimp only [Option.bind_eq_bind, pure, Option.bind_some]
  split
  · exact ⟨_, rfl, hinv _ ⟨rfl, rfl, rfl, rfl, rfl, rfl⟩ rfl rfl rfl rfl, h.lived⟩
  · exact ⟨_, rfl, hinv _ ⟨rfl, rfl, rfl, rfl, rfl, rfl⟩ rfl rfl rfl rfl, h.lived⟩

theorem Good.refDec (h : Good s) (hpc : s.pc t = .refDec n after) :
    ∃ s', s.refDec t n after = some s' ∧ Good s' := by
  have hpos := h.inv.ref_pos (t := t) (n := n) (by rw [hpc]; rfl)
  have hinv : ∀ pc, pc.Same (.refDec n after) → pc.opens = none → pc.refs = none → pc.dies = none →
      (pc.reclaims = if (s.inode n).refCount - 1 = 0 then some n else none) →
      Inv ((s.setInode n { s.inode n with refCount := (s.inode n).refCount - 1 }).setPc t pc) := by
    intro pc hsame hopens hrefs hdies hreclaims
    refine h.inv.setInode (by rw [hpc]; exact hsame) ?_ ?_ ?_ ?_ ?_
    · intro m hm
      rw [hpc]
      simp [Pc.opens, Pc.refs, Pc.reclaims, Pc.dies, hm.symm]
    · intro m hm
      rw [hreclaims]
      split
      · simp [hopens, hrefs, hdies, hm.symm]
      · simp [hopens, hrefs, hdies]
    · rw [hpc, hopens]
      simp [Pc.opens]
    · rw [hpc, hopens, hrefs]
      simp [Pc.opens, Pc.refs]
      omega
    · intro r d r' d' hok hr hd
      rw [hpc, hreclaims] at hr
      rw [hpc, hdies] at hd
      simp only [Pc.reclaims, Pc.dies, reduceCtorEq, if_false, Nat.add_zero] at hr hd
      have hr : r' = r + if (s.inode n).refCount - 1 = 0 then 1 else 0 := by
        rw [hr]
        split <;> simp
      rw [hd, hr]
      exact hok.refDec hpos
  unfold Threads.refDec
  rw [guard, if_pos hpos]
  dsimp only [Option.bind_eq_bind, pure, Option.bind_some]
  have hcount : ((s.setInode n { s.inode n with refCount := (s.inode n).refCount - 1 }).inode n).refCount =
      (s.inode n).refCount - 1 := by
    show (Function.update s.inode n _ n).refCount = _
    rw [Function.update_self]
  rw [hcount]
  split
  · rename_i hzero
    exact ⟨_, rfl, hinv _ ⟨rfl, rfl, rfl, rfl, rfl, rfl⟩ rfl rfl rfl (if_pos hzero).symm, h.lived⟩
  · rename_i hzero
    exact ⟨_, rfl, hinv _ (after.same_pc ⟨rfl, rfl, rfl, rfl, rfl, rfl⟩) after.opens_pc after.refs_pc after.dies_pc
      (after.reclaims_pc.trans (if_neg hzero).symm), h.lived⟩

/-- A thread leaves `vop_reclaim`, and the inode changes. -/
theorem Inv.reclaimed (h : Inv s) (hpc : s.pc t = .reclaim n after) (hsame : pc.Same (.reclaim n after))
    (hopens : pc.opens = none) (hrefs : pc.refs = none) (hreclaims : pc.reclaims = none)
    (hdies : ∀ m, m ≠ n → pc.dies ≠ some m) (hcount : i.openCount = (s.inode n).openCount)
    (href : i.refCount = (s.inode n).refCount)
    (hok : ∀ r d, (s.inode n).Ok (r + 1) d → i.Ok r (d + if pc.dies = some n then 1 else 0)) :
    Inv ((s.setInode n i).setPc t pc) := by
  refine h.setInode (by rw [hpc]; exact hsame) ?_ ?_ ?_ ?_ ?_
  · intro m hm
    rw [hpc]
    simp [Pc.opens, Pc.refs, Pc.reclaims, Pc.dies, hm.symm]
  · intro m hm
    simp [hopens, hrefs, hreclaims, hdies m hm]
  · rw [hpc, hopens, hcount]
    rfl
  · rw [hpc, hopens, hrefs, href]
    rfl
  · intro r d r' d' hok' hr hd
    rw [hpc, hreclaims] at hr
    rw [hpc] at hd
    simp only [Pc.reclaims, Pc.dies, reduceCtorEq, if_false, if_true, Nat.add_zero] at hr hd
    subst hr
    rw [hd]
    exact hok r' d hok'

theorem inodeKill_eq (href : (s.inode n).refCount = 0) (hopen : (s.inode n).openCount = 0) :
    s.inodeKill n = some (s.setInode n { s.inode n with alive := false, dying := false }) := by
  unfold Threads.inodeKill
  simp [href, hopen, guard]

theorem Inv.setInode_done (h : Inv s) (hpc : s.pc t = .reclaim n after) (hcount : i.openCount = (s.inode n).openCount)
    (href : i.refCount = (s.inode n).refCount) (hok : ∀ r d, (s.inode n).Ok (r + 1) d → i.Ok r d) :
    Inv ((s.setInode n i).setPc t after.pc) := by
  refine h.reclaimed hpc (after.same_pc ⟨rfl, rfl, rfl, rfl, rfl, rfl⟩) after.opens_pc after.refs_pc
    after.reclaims_pc ?_ hcount
    href fun r d hold => ?_
  · intro m _
    rw [after.dies_pc]
    nofun
  · rw [after.dies_pc]
    exact hok r d hold

theorem Good.vopReclaim (h : Good s) (hpc : s.pc t = .reclaim n after) :
    ∃ s', s.vopReclaim t n after = some s' ∧ Good s' := by
  obtain ⟨r, hr⟩ : ∃ r, s.reclaiming n = r + 1 := Nat.exists_eq_succ_of_ne_zero
    (occ_pc_pos h.inv.support Pc.reclaims rfl (t := t) (by rw [hpc]; rfl)).ne'
  have hok := h.inv.lives n
  rw [hr] at hok
  obtain ⟨halive, hpipe, hcount⟩ := hok.reclaimed
  have hopen : (s.inode n).refCount = 0 → (s.inode n).openCount = 0 := fun href =>
    Nat.le_zero.mp (href ▸ h.inv.refs.open_le n)
  unfold Threads.vopReclaim
  dsimp only
  cases hk : (s.inode n).kind with
  | device =>
    have hinv : Inv ((s.setInode n (s.inode n)).setPc t after.pc) :=
      h.inv.setInode_done hpc rfl rfl fun r d hold => hold.device hk
    unfold Threads.setInode at hinv
    rw [Function.update_eq_self] at hinv
    exact ⟨_, rfl, hinv, h.lived⟩
  | pipe =>
    rw [inodeKill_eq (hpipe hk) (hopen (hpipe hk))]
    exact ⟨_, rfl, h.inv.setInode_done hpc rfl rfl fun r d hold => hold.kill (Or.inl hk), h.lived⟩
  | fifo =>
    obtain ⟨hpos, hlast⟩ := hcount (Or.inl hk)
    simp only [guard, if_pos hpos, Option.bind_eq_bind, Option.bind_some, pure]
    split
    · refine ⟨_, rfl, h.inv.setInode_done hpc rfl rfl fun r d hold => ?_, h.lived⟩
      have hbusy := hold.busy (Or.inl hk)
      rw [hk] at hbusy
      exact hbusy
    · rename_i hno
      have hzero : (s.inode n).reclaimCount - 1 = 0 := by
        by_contra hne
        exact hno (Or.inl hne)
      have href := hlast hzero
      rw [inodeKill_eq (by rw [setInode_self]; exact href) (by rw [setInode_self]; exact hopen href),
        setInode_self]
      refine ⟨_, rfl, ?_, h.lived⟩
      simp only [setInode_setInode]
      refine h.inv.setInode_done hpc rfl rfl fun r d hold => ?_
      have hkill := hold.kill (Or.inr ⟨hk, hzero⟩)
      rw [hk] at hkill
      exact hkill
  | sfs =>
    obtain ⟨hpos, hlast⟩ := hcount (Or.inr hk)
    simp only [guard, if_pos hpos, Option.bind_eq_bind, Option.bind_some, pure]
    split
    · refine ⟨_, rfl, h.inv.setInode_done hpc rfl rfl fun r d hold => ?_, h.lived⟩
      have hbusy := hold.busy (Or.inr hk)
      rw [hk] at hbusy
      exact hbusy
    · rename_i hno
      have hzero : (s.inode n).reclaimCount - 1 = 0 := by
        by_contra hne
        exact hno hne
      rw [if_pos ⟨hlast hzero, hopen (hlast hzero)⟩]
      refine ⟨_, rfl, h.inv.reclaimed hpc ⟨rfl, rfl, rfl, rfl, rfl, rfl⟩ rfl rfl rfl ?_ rfl rfl ?_, h.lived⟩
      · intro m hm
        simp [Pc.dies, hm.symm]
      · intro r d hold
        have hdie := hold.die hk hzero
        rw [hk] at hdie
        simp only [Pc.dies, if_true]
        exact hdie

theorem Good.dying (h : Good s) (hpc : s.pc t = .dying n after) :
    (∃ s', (s.inodeKill n).map (·.setPc t after.pc) = some s' ∧ Good s') ∧
      Good ((s.setInode n { s.inode n with dying := false }).setPc t after.pc) := by
  obtain ⟨d, hd⟩ : ∃ d, s.dying n = d + 1 := Nat.exists_eq_succ_of_ne_zero
    (occ_pc_pos h.inv.support Pc.dies rfl (t := t) (by rw [hpc]; rfl)).ne'
  have hok := h.inv.lives n
  rw [hd] at hok
  have href := hok.died
  have hopen : (s.inode n).openCount = 0 := Nat.le_zero.mp (href ▸ h.inv.refs.open_le n)
  have hmove : ∀ i : Inode, i.openCount = (s.inode n).openCount → i.refCount = (s.inode n).refCount →
      (∀ r d, (s.inode n).Ok r (d + 1) → i.Ok r d) → Good ((s.setInode n i).setPc t after.pc) := by
    intro i hcount href hok
    refine ⟨h.inv.setInode ?_ ?_ ?_ ?_ ?_ ?_, h.lived⟩
    · rw [hpc]
      exact after.same_pc ⟨rfl, rfl, rfl, rfl, rfl, rfl⟩
    · intro m hm
      rw [hpc]
      simp [Pc.opens, Pc.refs, Pc.reclaims, Pc.dies, hm.symm]
    · intro m hm
      simp [after.opens_pc, after.refs_pc, after.reclaims_pc, after.dies_pc]
    · rw [hpc, after.opens_pc, hcount]
      rfl
    · rw [hpc, after.opens_pc, after.refs_pc, href]
      rfl
    · intro r d r' d' hold hr hd
      rw [hpc, after.reclaims_pc] at hr
      rw [hpc, after.dies_pc] at hd
      simp only [Pc.reclaims, Pc.dies, reduceCtorEq, if_false, if_true, Nat.add_zero] at hr hd
      subst hr hd
      exact hok _ d' hold
  constructor
  · rw [inodeKill_eq href hopen]
    exact ⟨_, rfl, hmove _ rfl rfl fun r d hold => hold.killed⟩
  · exact hmove _ rfl rfl fun r d hold => hold.back

/-! ## Files -/

/-- Only what has been changed is in `Steady`: the inodes and the tables are as they were. -/
structure Steady (s s' : Threads) : Prop where
  inode : s'.inode = s.inode
  others : s'.others = s.others
  table : s'.table = s.table
  fsCount : s'.fsCount = s.fsCount

/-- Neither reclaim nor death of an inode. -/
structure Calm (pc : Pc) : Prop where
  reclaims : pc.reclaims = none
  dies : pc.dies = none

theorem Lives.calm (h : Lives s) (hs : Support s) (c : Change s s' t pc x f) (hst : Steady s s')
    (hold : Calm (s.pc t)) (hnew : Calm pc) : Lives s' := by
  refine h.change hs c fun m r d r' d' hok hr hd => ?_
  rw [hold.reclaims, hnew.reclaims] at hr
  rw [hold.dies, hnew.dies] at hd
  rw [hst.inode, show r' = r by omega, show d' = d by omega]
  exact hok

theorem Owners.not_owns (h : Owners s) (hinit : (s.file x).status ≠ .init)
    (hclosed : (s.file x).status = .closed → (s.file x).openCount ≠ 0) (u : ℕ) : ¬ (s.pc u).Owns x := by
  rintro (hu | hu)
  · exact hinit (h.init u x hu)
  · exact hclosed (h.freed u x hu).1 (h.freed u x hu).2

theorem not_owns_nil (hinits : pc.inits = []) (hfrees : pc.frees = []) (y : Slot) : ¬ pc.Owns y := by
  unfold Pc.Owns
  rw [hinits, hfrees]
  simp

/-- `filemap_alloc`. -/
theorem Inv.alloc (h : Inv s) (c : Change s s' t pc x f) (hst : Steady s s')
    (hx : (s.file x).status = .none) (hf : f.status = .init) (hcount : f.openCount = (s.file x).openCount)
    (hold : Calm (s.pc t)) (hnew : Calm pc) (hopens : pc.opens = (s.pc t).opens)
    (hrefs : pc.refs = (s.pc t).refs) (huses : pc.uses = (s.pc t).uses)
    (hinits : pc.inits = (s.pc t).inits ++ [x]) (hfrees : pc.frees = (s.pc t).frees)
    (hhome : ∀ table ∈ pc.tables, s.table t = some table) (hdestroys : pc.destroys = none)
    (hchecks : pc.checks = none) : Inv s' := by
  have hno := h.owners.not_owns (x := x) (by rw [hx]; nofun) (by rw [hx]; nofun)
  have hholds : f.holds = (s.file x).holds := by
    unfold File.holds
    rw [hf, hx]
  refine ⟨h.support.change c, h.counts.change h.support c ?_ ?_ ?_ ?_, h.refs.change h.support c ?_ ?_,
    h.lives.calm h.support c hst hold hnew, h.owners.change c ?_ ?_ ?_ ?_ ?_ ?_,
    h.homes.change c hst.table hst.fsCount ?_ ?_ ?_ ?_⟩
  · rw [huses, hcount, hf, hx]
    simp
  · intro y _
    rw [huses]
  · intro _
    rw [hcount]
    exact h.counts.idle x (Or.inl hx)
  · rw [hf]
    rintro (hno | hno)
    · cases hno
    · cases hno
  · intro m
    rw [hst.inode, hholds, hopens]
  · intro m
    rw [hst.inode, hst.others, hholds, hopens, hrefs]
  · intro y hy
    rw [hinits, List.mem_append, List.mem_singleton] at hy
    rcases hy with hy | hy
    · exact Or.inr ⟨fun heq => hno t (Or.inl (heq ▸ hy)), hy⟩
    · exact Or.inl ⟨hy, hf⟩
  · intro y hy
    rw [hfrees] at hy
    exact Or.inr ⟨fun heq => hno t (Or.inr (heq ▸ hy)), hy⟩
  · rw [hinits]
    exact (h.owners.nodup t).append (List.nodup_singleton x) fun y hy hyx =>
      hno t (Or.inl (List.mem_singleton.mp hyx ▸ hy))
  · rintro y - (hy | hy)
    · refine Or.inl ?_
      rw [hinits]
      exact List.mem_append_left _ hy
    · refine Or.inr ?_
      rw [hfrees]
      exact hy
  · exact Or.inl fun u _ => hno u
  · intro _
    refine Or.inl (Or.inl ?_)
    rw [hinits]
    exact List.mem_append_right _ (List.mem_singleton_self x)
  · exact fun table hmem => Or.inl (hhome table hmem)
  · rw [hdestroys]
    nofun
  · rw [hchecks]
    nofun
  · rw [hf]
    nofun

/-- `filemap_open`, for an inode that the thread has open. -/
theorem Inv.openFile (h : Inv s) (c : Change s s' t pc x f) (hst : Steady s s')
    (hf : f.status = .opened) (hnode : f.node = some n) (hcount : f.openCount = (s.file x).openCount + 1)
    (hold : Calm (s.pc t)) (hnew : Calm pc) (hopened : (s.pc t).opens = some n) (hopens : pc.opens = none)
    (hrefs : pc.refs = (s.pc t).refs) (huses : pc.uses = (s.pc t).uses)
    (hinits : (s.pc t).inits = x :: pc.inits) (hfrees : pc.frees = (s.pc t).frees)
    (htable : s.table t = some x.1) (hhome : ∀ table ∈ pc.tables, s.table t = some table)
    (hdestroys : pc.destroys = none) (hchecks : pc.checks = none) : Inv s' := by
  have hmem : x ∈ (s.pc t).inits := by
    rw [hinits]
    exact List.mem_cons_self
  have hx := h.owners.init t x hmem
  have hnodup := h.owners.nodup t
  rw [hinits] at hnodup
  have hother : ∀ u, u ≠ t → ¬ (s.pc u).Owns x := fun u hu hno =>
    hu (h.owners.one u t x hno (Or.inl hmem))
  have holdholds : (s.file x).holds = none := by
    unfold File.holds
    rw [hx]
  have hholds : f.holds = some n := by
    unfold File.holds
    rw [hf]
    exact hnode
  refine ⟨h.support.change c, h.counts.change h.support c ?_ ?_ ?_ ?_, h.refs.change h.support c ?_ ?_,
    h.lives.calm h.support c hst hold hnew, h.owners.change c ?_ ?_ ?_ ?_ ?_ ?_,
    h.homes.change c hst.table hst.fsCount ?_ ?_ ?_ ?_⟩
  · rw [huses, hcount, hf, hx]
    simp
    omega
  · intro y _
    rw [huses]
  · rw [hf]
    rintro (hno | hno)
    · cases hno
    · cases hno
  · intro _
    rw [hnode]
    nofun
  · intro m
    rw [hst.inode, hholds, holdholds, hopened, hopens]
    simp
  · intro m
    rw [hst.inode, hst.others, hholds, holdholds, hopened, hopens, hrefs]
    simp
  · intro y hy
    exact Or.inr ⟨fun heq => (List.nodup_cons.mp hnodup).1 (heq ▸ hy), by
      rw [hinits]
      exact List.mem_cons_of_mem x hy⟩
  · intro y hy
    rw [hfrees] at hy
    refine Or.inr ⟨fun heq => ?_, hy⟩
    have hst' := (h.owners.freed t y hy).1
    rw [heq, hx] at hst'
    cases hst'
  · exact (List.nodup_cons.mp hnodup).2
  · rintro y hyx (hy | hy)
    · rw [hinits] at hy
      exact Or.inl ((List.mem_cons.mp hy).resolve_left hyx)
    · refine Or.inr ?_
      rw [hfrees]
      exact hy
  · exact Or.inl hother
  · rw [hf]
    rintro (hno | ⟨hno, -⟩)
    · cases hno
    · cases hno
  · exact fun table hmem => Or.inl (hhome table hmem)
  · rw [hdestroys]
    nofun
  · rw [hchecks]
    nofun
  · exact fun _ => Or.inr fun u => h.homes.not_destroys htable u

/-- `filemap_acquire`, `filemap_release` and `filemap_close`, when the file stays in use. -/
theorem Inv.keep (h : Inv s) (c : Change s s' t pc x f) (hst : Steady s s')
    (hholds : f.holds = (s.file x).holds) (hsome : f.holds ≠ none) (hne : f.openCount ≠ 0)
    (hx : (s.file x).status = .opened ∨ (s.file x).status = .closed ∧ (s.file x).openCount ≠ 0)
    (hf : f.status = .opened ∨ f.status = .closed)
    (hcount : f.openCount + (if (s.pc t).uses = some x then 1 else 0) +
        (if (s.file x).status = .opened then 1 else 0) =
      (s.file x).openCount + (if pc.uses = some x then 1 else 0) + (if f.status = .opened then 1 else 0))
    (hother : ∀ y, y ≠ x → (pc.uses = some y ↔ (s.pc t).uses = some y))
    (hstill : f.status = .opened → (s.file x).status = .opened)
    (hold : Calm (s.pc t)) (hnew : Calm pc)
    (hopens : pc.opens = (s.pc t).opens) (hrefs : pc.refs = (s.pc t).refs)
    (hinits : pc.inits = (s.pc t).inits) (hfrees : pc.frees = (s.pc t).frees)
    (hhome : ∀ table ∈ pc.tables, s.table t = some table ∨ pc.destroys = some table)
    (hdestroys : ∀ table, pc.destroys = some table → (s.pc t).destroys = some table)
    (hchecks : ∀ y, pc.checks = some y → (s'.file y).status ≠ .opened) : Inv s' := by
  have hno := h.owners.not_owns (x := x)
    (by rcases hx with hx | ⟨hx, -⟩ <;> rw [hx] <;> nofun)
    (by
      rcases hx with hx | ⟨-, hx⟩
      · rw [hx]
        nofun
      · exact fun _ => hx)
  refine ⟨h.support.change c, h.counts.change h.support c hcount hother ?_ ?_,
    h.refs.change h.support c ?_ ?_, h.lives.calm h.support c hst hold hnew,
    h.owners.change c ?_ ?_ ?_ ?_ ?_ ?_,
    h.homes.change c hst.table hst.fsCount hhome hdestroys hchecks fun heq => Or.inl (hstill heq)⟩
  · rcases hf with hf | hf
    · rw [hf]
      rintro (hno | hno)
      · cases hno
      · cases hno
    · rw [hf]
      rintro (hno | hno)
      · cases hno
      · cases hno
  · intro _ hnone
    refine hsome ?_
    unfold File.holds
    split
    · exact hnone
    · split
      · rfl
      · exact hnone
    · rfl
  · intro m
    rw [hst.inode, hholds, hopens]
  · intro m
    rw [hst.inode, hst.others, hholds, hopens, hrefs]
  · intro y hy
    rw [hinits] at hy
    exact Or.inr ⟨fun heq => hno t (Or.inl (heq ▸ hy)), hy⟩
  · intro y hy
    rw [hfrees] at hy
    exact Or.inr ⟨fun heq => hno t (Or.inr (heq ▸ hy)), hy⟩
  · rw [hinits]
    exact h.owners.nodup t
  · rintro y - hy
    unfold Pc.Owns
    rw [hinits, hfrees]
    exact hy
  · exact Or.inl fun u _ => hno u
  · rintro (hinit | ⟨-, hzero⟩)
    · rcases hf with hf | hf
      · rw [hf] at hinit
        cases hinit
      · rw [hf] at hinit
        cases hinit
    · exact absurd hzero hne

/-- The last release of a closed file: what it refers to goes to the thread, which calls `vfs_close`. -/
theorem Inv.lastClose (h : Inv s) (c : Change s s' t (.vfsClose n (.freed x nx)) x f) (hst : Steady s s')
    (hholds : (s.file x).holds = some n) (hne : (s.file x).openCount ≠ 0)
    (hcount : (s.file x).openCount =
      (if (s.pc t).uses = some x then 1 else 0) + if (s.file x).status = .opened then 1 else 0)
    (hother : ∀ y, y ≠ x → (s.pc t).uses ≠ some y) (hf : f.status = .closed) (hzero : f.openCount = 0)
    (hnode : f.node ≠ none) (hold : Calm (s.pc t)) (hopens : (s.pc t).opens = none)
    (hrefs : (s.pc t).refs = none) (hinits : (s.pc t).inits = []) (hfrees : (s.pc t).frees = [])
    (hnx : nx.inits = [])
    (hhome : ∀ table ∈ x.1 :: nx.tables, s.table t = some table ∨ nx.destroys = some table)
    (hdestroys : ∀ table, nx.destroys = some table → (s.pc t).destroys = some table)
    (hchecks : ∀ y, nx.checks = some y → y = x) : Inv s' := by
  have hx : (s.file x).status = .opened ∨ (s.file x).status = .closed := by
    unfold File.holds at hholds
    split at hholds
    · exact Or.inl ‹_›
    · exact Or.inr ‹_›
    · cases hholds
  have hno := h.owners.not_owns (x := x) (by rcases hx with hx | hx <;> rw [hx] <;> nofun) fun _ => hne
  have hnone := not_owns_nil hinits hfrees
  have hnew : f.holds = none := by
    unfold File.holds
    rw [hf]
    exact if_pos hzero
  refine ⟨h.support.change c, h.counts.change h.support c ?_ ?_ ?_ fun _ => hnode,
    h.refs.change h.support c ?_ ?_, h.lives.calm h.support c hst hold ⟨rfl, rfl⟩,
    h.owners.change c ?_ ?_ ?_ ?_ ?_ ?_, h.homes.change c hst.table hst.fsCount hhome hdestroys ?_ ?_⟩
  · rw [hcount, hzero, hf]
    simp [Pc.uses]
  · intro y hy
    exact ⟨nofun, fun hu => absurd hu (hother y hy)⟩
  · intro _
    exact hzero
  · intro m
    rw [hst.inode, hholds, hnew, hopens]
    simp [Pc.opens]
  · intro m
    rw [hst.inode, hst.others, hholds, hnew, hopens, hrefs]
    simp [Pc.opens, Pc.refs]
  · intro y hy
    have hy : y ∈ nx.inits := hy
    rw [hnx] at hy
    cases hy
  · intro y hy
    exact Or.inl ⟨List.mem_singleton.mp hy, hf, hzero⟩
  · show nx.inits.Nodup
    rw [hnx]
    exact List.nodup_nil
  · exact fun y _ hy => absurd hy (hnone y)
  · exact Or.inl fun u _ => hno u
  · exact fun _ => Or.inl (Or.inr (List.mem_singleton_self x))
  · intro y hy
    rw [hchecks y hy, c.file_self, hf]
    nofun
  · rw [hf]
    nofun

/-- `file->status = FD_NONE`. -/
theorem Inv.freeFile (h : Inv s) (c : Change s s' t pc x f) (hst : Steady s s')
    (hx : (s.pc t).Owns x) (hf : f.status = .none) (hcount : f.openCount = (s.file x).openCount)
    (hold : Calm (s.pc t)) (hnew : Calm pc) (hopens : pc.opens = (s.pc t).opens)
    (hrefs : pc.refs = (s.pc t).refs) (huses : pc.uses = (s.pc t).uses)
    (hinits : ∀ y, y ∈ pc.inits ↔ y ≠ x ∧ y ∈ (s.pc t).inits)
    (hfrees : ∀ y, y ∈ pc.frees ↔ y ≠ x ∧ y ∈ (s.pc t).frees) (hnodup : pc.inits.Nodup)
    (hhome : ∀ table ∈ pc.tables, table ∈ (s.pc t).tables) (hdestroys : pc.destroys = (s.pc t).destroys)
    (hchecks : ∀ y, pc.checks = some y → (s.pc t).checks = some y) : Inv s' := by
  have hother : ∀ u, u ≠ t → ¬ (s.pc u).Owns x := fun u hu hno => hu (h.owners.one u t x hno hx)
  have hstatus : (s.file x).status = .init ∨ (s.file x).status = .closed ∧ (s.file x).openCount = 0 := by
    rcases hx with hx | hx
    · exact Or.inl (h.owners.init t x hx)
    · exact Or.inr (h.owners.freed t x hx)
  have hzero : (s.file x).openCount = 0 := by
    rcases hstatus with hinit | ⟨-, hzero⟩
    · exact h.counts.idle x (Or.inr hinit)
    · exact hzero
  have holdholds : (s.file x).holds = none := by
    unfold File.holds
    rcases hstatus with hinit | ⟨hclosed, -⟩
    · rw [hinit]
    · rw [hclosed]
      exact if_pos hzero
  have hnopen : (s.file x).status ≠ .opened := by
    rcases hstatus with hinit | ⟨hclosed, -⟩
    · rw [hinit]
      nofun
    · rw [hclosed]
      nofun
  have hholds : f.holds = none := by
    unfold File.holds
    rw [hf]
  refine ⟨h.support.change c, h.counts.change h.support c ?_ ?_ ?_ ?_, h.refs.change h.support c ?_ ?_,
    h.lives.calm h.support c hst hold hnew, h.owners.change c ?_ ?_ hnodup ?_ (Or.inl hother) ?_,
    h.homes.change c hst.table hst.fsCount ?_ ?_ ?_ ?_⟩
  · rw [huses, hcount, hf]
    simp [hnopen]
  · intro y _
    rw [huses]
  · intro _
    rw [hcount]
    exact hzero
  · rw [hf]
    rintro (hno | hno)
    · cases hno
    · cases hno
  · intro m
    rw [hst.inode, hholds, holdholds, hopens]
  · intro m
    rw [hst.inode, hst.others, hholds, holdholds, hopens, hrefs]
  · exact fun y hy => Or.inr ((hinits y).mp hy)
  · exact fun y hy => Or.inr ((hfrees y).mp hy)
  · rintro y hyx (hy | hy)
    · exact Or.inl ((hinits y).mpr ⟨hyx, hy⟩)
    · exact Or.inr ((hfrees y).mpr ⟨hyx, hy⟩)
  · rw [hf]
    rintro (hno | ⟨hno, -⟩)
    · cases hno
    · cases hno
  · intro table hmem
    rw [hdestroys]
    exact h.homes.home t table (hhome table hmem)
  · intro table hd
    rw [← hdestroys]
    exact hd
  · intro y hy
    by_cases hyx : y = x
    · rw [hyx, c.file_self, hf]
      nofun
    · rw [c.file_other hyx]
      exact h.homes.checked t y (hchecks y hy)
  · rw [hf]
    nofun

/-- `filemap_dup` into a free file. -/
theorem Inv.dupFile (h : Inv s) (c : Change s s' t (s.pc t) y f) (htable : s'.table = s.table)
    (hcounts : s'.fsCount = s.fsCount) (hothers : s'.others = s.others) (hy : (s.file y).status = .none)
    (hx : (s.file x).status = .opened) (hnode : (s.file x).node = some n) (hf : f.status = .opened)
    (hfnode : f.node = some n) (hcount : f.openCount = (s.file y).openCount + 1)
    (hinode : s'.inode = Function.update s.inode n
      { s.inode n with refCount := (s.inode n).refCount + 1, openCount := (s.inode n).openCount + 1 })
    (hdestroys : ∀ u, (s.pc u).destroys ≠ some y.1) : Inv s' := by
  have hno := h.owners.not_owns (x := y) (by rw [hy]; nofun) (by rw [hy]; nofun)
  have holdholds : (s.file y).holds = none := by
    unfold File.holds
    rw [hy]
  have hholds : f.holds = some n := by
    unfold File.holds
    rw [hf]
    exact hfnode
  have hpos : 0 < s.openFiles n := by
    refine Nat.pos_of_ne_zero (occ_ne_zero (h.support.files.subset fun z hz => ?_) (a := x) ?_)
    · show (s.file z).status ≠ .none
      intro hnone
      have hz : (s.file z).holds = some n := hz
      unfold File.holds at hz
      rw [hnone] at hz
      cases hz
    · show (s.file x).holds = some n
      unfold File.holds
      rw [hx]
      exact hnode
  have href : 0 < (s.inode n).refCount := by
    rw [h.refs.refs]
    omega
  have hmem : ∀ m, s'.inode m = if m = n then
      { s.inode n with refCount := (s.inode n).refCount + 1, openCount := (s.inode n).openCount + 1 }
      else s.inode m := fun m => by rw [hinode, Function.update_apply]
  refine ⟨h.support.change c, h.counts.change h.support c ?_ (fun _ _ => Iff.rfl) ?_ ?_,
    h.refs.change h.support c ?_ ?_, h.lives.change h.support c ?_,
    h.owners.change c ?_ ?_ (h.owners.nodup t) (fun _ _ hown => hown) (Or.inl fun u _ => hno u) ?_,
    h.homes.change c htable hcounts (h.homes.home t) (fun _ hd => hd) ?_ fun _ => Or.inr hdestroys⟩
  · rw [hcount, hf, hy]
    simp
    omega
  · rw [hf]
    rintro (hno | hno)
    · cases hno
    · cases hno
  · intro _
    rw [hfnode]
    nofun
  · intro m
    rw [hmem, hholds, holdholds]
    by_cases hm : m = n
    · rw [if_pos hm, hm]
      simp
    · have hnm : n ≠ m := fun heq => hm heq.symm
      simp [hm, hnm]
  · intro m
    rw [hmem, hothers, hholds, holdholds]
    by_cases hm : m = n
    · rw [if_pos hm, hm]
      simp
    · have hnm : n ≠ m := fun heq => hm heq.symm
      simp [hm, hnm]
  · intro m r d r' d' hok hr hd
    rw [show r' = r by omega, show d' = d by omega, hmem]
    split
    · rename_i hm
      rw [hm] at hok
      exact hok.refInc href _
    · exact hok
  · exact fun z hz => Or.inr ⟨fun heq => hno t (Or.inl (heq ▸ hz)), hz⟩
  · exact fun z hz => Or.inr ⟨fun heq => hno t (Or.inr (heq ▸ hz)), hz⟩
  · rw [hf]
    rintro (hno | ⟨hno, -⟩)
    · cases hno
    · cases hno
  · intro z hz
    have hzy : z ≠ y := fun heq => hdestroys t (heq ▸ Pc.destroys_of_checks hz)
    rw [c.file_other hzy]
    exact h.homes.checked t z hz

end Threads

end Ucore.Vfs
