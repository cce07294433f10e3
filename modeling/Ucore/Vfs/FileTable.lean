import Ucore.Vfs.FileRun

/-!
# Calls on files

Every function of `kern/fs/file.c`, from one program point to the next, keeps the invariants, and none of
its assertions fails.
-/

namespace Ucore.Vfs

open Occurrence
open Function (update update_eq_self update_idem update_of_ne update_self)

/-- The file after `filemap_close`, before it is freed. -/
def File.close (f : File) : File := { f with status := .closed, openCount := f.openCount - 1 }

@[simp] theorem File.close_status (f : File) : f.close.status = .closed := rfl

@[simp] theorem File.close_openCount (f : File) : f.close.openCount = f.openCount - 1 := rfl

@[simp] theorem File.close_node (f : File) : f.close.node = f.node := rfl

theorem File.close_life (f : File) :
    f.close.life = if f.openCount - 1 = 0 then .idle else .closed (f.openCount - 1) := rfl

/-- The file after `filemap_release`, before it is freed. -/
def File.release (f : File) : File := { f with openCount := f.openCount - 1 }

@[simp] theorem File.release_status (f : File) : f.release.status = f.status := rfl

@[simp] theorem File.release_openCount (f : File) : f.release.openCount = f.openCount - 1 := rfl

@[simp] theorem File.release_node (f : File) : f.release.node = f.node := rfl

namespace Threads

variable {s s' : Threads} {t u n : ℕ} {pc : Pc} {x y : Slot} {f : File} {table : ℕ} {after : After}
  {nx : Next} {i : Inode} {p : Pc}

theorem next_pc (s : Threads) (t : ℕ) (nx : Next) : (s.next t nx).pc = update s.pc t nx.pc := by
  cases nx <;> rfl

theorem next_file (s : Threads) (t : ℕ) (nx : Next) : (s.next t nx).file = s.file := by
  cases nx <;> rfl

theorem next_log (s : Threads) (t : ℕ) (nx : Next) : (s.next t nx).log = s.log := by
  cases nx <;> rfl

theorem next_steady (s : Threads) (t : ℕ) (nx : Next) : Steady s (s.next t nx) := by
  cases nx <;> exact ⟨rfl, rfl, rfl, rfl⟩

theorem next_calm (nx : Next) : Calm nx.pc := ⟨nx.reclaims_pc, nx.dies_pc⟩

theorem filemapFree_closed (hst : (s.file x).status = .closed) (hzero : (s.file x).openCount = 0)
    (hnode : (s.file x).node = some n) : s.filemapFree t x nx =
      some ((s.happens x .vfsClose).setPc t (.vfsClose n (.freed x nx))) := by
  unfold Threads.filemapFree
  simp [guard, hst, hzero, hnode]

theorem filemapFree_init (hst : (s.file x).status = .init) (hzero : (s.file x).openCount = 0) :
    s.filemapFree t x nx = some ((s.setFile x { s.file x with status := .none }).next t nx) := by
  unfold Threads.filemapFree
  simp [guard, hst, hzero]

/-- A descriptor has been closed, or an operation on it has finished. -/
def dropped (s : Threads) (x : Slot) (f : File) (e : Event) : Threads := (s.setFile x f).happens x e

theorem dropped_self (s : Threads) (x : Slot) (f : File) (e : Event) : (s.dropped x f e).file x = f :=
  update_self ..

theorem filemapClose_eq (hst : (s.file x).status = .opened) (hne : (s.file x).openCount ≠ 0) :
    s.filemapClose t x nx =
      if (s.file x).openCount - 1 = 0 then
        (s.dropped x (s.file x).close .closed).filemapFree
          t x nx
      else some ((s.dropped x (s.file x).close .closed).next t nx) := by
  unfold Threads.filemapClose
  simp only [guard, hst, if_true, if_pos (Nat.pos_of_ne_zero hne), Option.bind_eq_bind, Option.bind_some, pure]
  rfl

theorem filemapRelease_eq (hst : (s.file x).status = .opened ∨ (s.file x).status = .closed)
    (hne : (s.file x).openCount ≠ 0) : s.filemapRelease t x nx =
      if (s.file x).openCount - 1 = 0 then
        (s.dropped x (s.file x).release .finished).filemapFree t x nx
      else some ((s.dropped x (s.file x).release .finished).next t nx) := by
  unfold Threads.filemapRelease
  simp only [guard, if_pos hst, if_pos (Nat.pos_of_ne_zero hne), Option.bind_eq_bind, Option.bind_some, pure]
  rfl

/-! ## Closing -/

/-- A thread that has nothing in hand. -/
structure Idle (pc : Pc) : Prop where
  calm : Calm pc
  opens : pc.opens = none
  refs : pc.refs = none
  inits : pc.inits = []
  frees : pc.frees = []

/-- A file in use. -/
theorem Inv.inUse (h : Inv s) (hx : (s.file x).status = .opened ∨ (s.file x).status = .closed)
    (hne : (s.file x).openCount ≠ 0) : ∃ n, (s.file x).node = some n ∧ (s.file x).holds = some n := by
  obtain ⟨n, hn⟩ := Option.ne_none_iff_exists'.mp (h.counts.node x hx)
  refine ⟨n, hn, ?_⟩
  unfold File.holds
  rcases hx with hx | hx
  · rw [hx]
    exact hn
  · rw [hx]
    exact (if_neg hne).trans hn

theorem Inv.count_opened (h : Inv s) (hx : (s.file x).status = .opened) :
    (s.file x).openCount = 1 + s.inFlight x := by
  rw [h.counts.count, if_pos hx]

theorem Inv.flight_pos (h : Inv s) (ht : (s.pc t).uses = some x) : 0 < s.inFlight x :=
  occ_pc_pos h.support Pc.uses rfl ht

/-- `filemap_close`, by a thread that has nothing in hand. -/
theorem Good.filemapClose (h : Good s) (hx : (s.file x).status = .opened) (hidle : Idle (s.pc t))
    (huses : (s.pc t).uses = none) (hnx : nx.inits = [])
    (hhome : ∀ table ∈ x.1 :: nx.tables, s.table t = some table ∨ nx.destroys = some table)
    (hdestroys : ∀ table, nx.destroys = some table → (s.pc t).destroys = some table)
    (hchecks : ∀ y, nx.checks = some y → y = x) :
    ∃ s', s.filemapClose t x nx = some s' ∧ Good s' := by
  have hcount := h.inv.count_opened hx
  have hne : (s.file x).openCount ≠ 0 := by omega
  obtain ⟨n, hnode, hholds⟩ := h.inv.inUse (Or.inl hx) hne
  have hlife : (s.file x).life = .opened ((s.file x).openCount - 1) := by
    unfold File.life
    rw [hx]
  rw [filemapClose_eq hx hne]
  split
  · rename_i hzero
    -- the last one
    have hfree : (s.dropped x (s.file x).close .closed).filemapFree t x nx = some _ :=
      filemapFree_closed (n := n) (by rw [dropped_self]; rfl) (by rw [dropped_self]; exact hzero)
        (by rw [dropped_self]; exact hnode)
    refine ⟨_, hfree, h.inv.lastClose ⟨rfl, rfl⟩ ⟨rfl, rfl, rfl, rfl⟩ hholds hne ?_ ?_ rfl hzero
      (h.inv.counts.node x (Or.inl hx)) hidle.calm hidle.opens hidle.refs hidle.inits hidle.frees hnx hhome
      hdestroys hchecks, ?_⟩
    · rw [huses, hx]
      simp
      omega
    · intro y _
      rw [huses]
      nofun
    · refine h.lived.happens₂ rfl ?_ fun y hy => update_of_ne hy ..
      show _ = some (File.life (update s.file x _ x))
      rw [hlife, hzero, update_self, File.close_life, if_pos hzero]
      rfl
  · rename_i hnz
    have hnewholds : (s.file x).close.holds = some n := (if_neg hnz).trans hnode
    have hnew : ((s.dropped x (s.file x).close .closed).next t nx).file =
        update s.file x (s.file x).close := next_file ..
    have hself : (((s.dropped x (s.file x).close .closed).next t nx).file x).status = .closed := by
      rw [hnew, update_self]
      rfl
    refine ⟨_, rfl, h.inv.keep ⟨next_pc .., hnew⟩ ?_ ?_ ?_ hnz (Or.inl hx) (Or.inr rfl)
      ?_ ?_ nofun hidle.calm (next_calm nx) ?_ ?_ ?_ ?_ ?_ ?_ ?_, ?_⟩
    · have hst := next_steady (s.dropped x (s.file x).close .closed) t nx
      exact ⟨hst.inode, hst.others, hst.table, hst.fsCount⟩
    · rw [hholds]
      exact hnewholds
    · rw [hnewholds]
      nofun
    · rw [huses, nx.uses_pc, hx]
      simp
      omega
    · intro y _
      rw [huses, nx.uses_pc]
    · rw [hidle.opens, nx.opens_pc]
    · rw [hidle.refs, nx.refs_pc]
    · rw [hidle.inits, nx.inits_pc, hnx]
    · rw [hidle.frees, nx.frees_pc]
    · rw [nx.tables_pc, nx.destroys_pc]
      exact fun table hmem => hhome table (List.mem_cons_of_mem _ hmem)
    · rw [nx.destroys_pc]
      exact hdestroys
    · rw [nx.checks_pc]
      intro y hy
      rw [hchecks y hy, hself]
      nofun
    · refine h.lived.happens (next_log ..) ?_ fun y hy => ?_
      · rw [hnew, update_self, hlife]
        rw [File.close_life, if_neg hnz]
        rfl
      · rw [hnew]
        exact update_of_ne hy ..

/-- The invariants do not look at `pos`, `readable` and `writable`. -/
theorem Good.data (h : Good s) {f : File} (hst : f.status = (s.file x).status)
    (hcount : f.openCount = (s.file x).openCount) (hnode : f.node = (s.file x).node) :
    Good (s.setFile x f) := by
  have hstatus : ∀ y, ((s.setFile x f).file y).status = (s.file y).status := by
    intro y
    by_cases hy : y = x
    · rw [hy, show (s.setFile x f).file x = f from update_self .., hst]
    · rw [show (s.setFile x f).file y = s.file y from update_of_ne hy ..]
  have hopen : ∀ y, ((s.setFile x f).file y).openCount = (s.file y).openCount := by
    intro y
    by_cases hy : y = x
    · rw [hy, show (s.setFile x f).file x = f from update_self .., hcount]
    · rw [show (s.setFile x f).file y = s.file y from update_of_ne hy ..]
  have hnodes : ∀ y, ((s.setFile x f).file y).node = (s.file y).node := by
    intro y
    by_cases hy : y = x
    · rw [hy, show (s.setFile x f).file x = f from update_self .., hnode]
    · rw [show (s.setFile x f).file y = s.file y from update_of_ne hy ..]
  have hholds : (fun y => ((s.setFile x f).file y).holds) = fun y => (s.file y).holds := by
    funext y
    unfold File.holds
    rw [hstatus, hopen, hnodes]
  have hfiles : ∀ m, (s.setFile x f).openFiles m = s.openFiles m := fun m => by
    unfold openFiles
    rw [hholds]
  refine ⟨⟨⟨h.inv.support.pcs, ?_⟩, ⟨fun y => ?_, fun y => ?_, fun y => ?_⟩, ⟨fun m => ?_, fun m => ?_⟩,
    h.inv.lives, ⟨fun u y hy => ?_, fun u y hy => ?_, h.inv.owners.one, h.inv.owners.nodup, fun y => ?_⟩,
    ⟨h.inv.homes.members, h.inv.homes.fsCount, h.inv.homes.home, h.inv.homes.destroys, h.inv.homes.one,
      fun u y hy => ?_⟩⟩, h.lived.quiet rfl fun y => ?_⟩
  · simp only [hstatus]
    exact h.inv.support.files
  · rw [hstatus, hopen]
    exact h.inv.counts.count y
  · rw [hstatus, hopen]
    exact h.inv.counts.idle y
  · rw [hstatus, hnodes]
    exact h.inv.counts.node y
  · rw [hfiles]
    exact h.inv.refs.opens m
  · rw [hfiles]
    exact h.inv.refs.refs m
  · rw [hstatus]
    exact h.inv.owners.init u y hy
  · rw [hstatus, hopen]
    exact h.inv.owners.freed u y hy
  · rw [hstatus, hopen]
    exact h.inv.owners.owner y
  · rw [hstatus]
    exact h.inv.homes.checked u y hy
  · unfold File.life
    rw [hstatus, hopen]

/-- `filemap_release`, at the end of an operation. -/
theorem Good.filemapRelease (h : Good s) {op : Op} (hpc : s.pc t = .io x op) (r : Int) :
    ∃ s', s.filemapRelease t x (.ret r) = some s' ∧ Good s' := by
  have huses : (s.pc t).uses = some x := by rw [hpc]; rfl
  have hflight := h.inv.flight_pos huses
  have hcount := h.inv.counts.count x
  have hne : (s.file x).openCount ≠ 0 := by omega
  have hst : (s.file x).status = .opened ∨ (s.file x).status = .closed := by
    cases hs : (s.file x).status with
    | none => exact absurd (h.inv.counts.idle x (Or.inl hs)) hne
    | init => exact absurd (h.inv.counts.idle x (Or.inr hs)) hne
    | opened => exact Or.inl rfl
    | closed => exact Or.inr rfl
  have hcalm : Calm (s.pc t) := by
    rw [hpc]
    exact ⟨rfl, rfl⟩
  have hother : ∀ y, y ≠ x → (s.pc t).uses ≠ some y := by
    intro y hy heq
    rw [huses] at heq
    exact hy (Option.some.inj heq).symm
  have htable : ∀ table ∈ [x.1], s.table t = some table ∨ (Next.ret r).destroys = some table := by
    intro table hmem
    have hhome := h.inv.homes.home t table (by rw [hpc]; exact hmem)
    rw [hpc] at hhome
    exact Or.inl (hhome.resolve_right nofun)
  obtain ⟨n, hnode, hholds⟩ := h.inv.inUse hst hne
  rw [filemapRelease_eq hst hne]
  split
  · rename_i hzero
    have hnopen : (s.file x).status ≠ .opened := fun hopen => by
      rw [if_pos hopen] at hcount
      omega
    have hclosed := hst.resolve_left hnopen
    have hfree : (s.dropped x (s.file x).release .finished).filemapFree t x (.ret r) = some _ :=
      filemapFree_closed (n := n) (by rw [dropped_self]; exact hclosed) (by rw [dropped_self]; exact hzero)
        (by rw [dropped_self]; exact hnode)
    refine ⟨_, hfree, h.inv.lastClose ⟨rfl, rfl⟩ ⟨rfl, rfl, rfl, rfl⟩ hholds hne ?_ hother hclosed hzero
      (h.inv.counts.node x hst) hcalm (by rw [hpc]; rfl) (by rw [hpc]; rfl) (by rw [hpc]; rfl)
      (by rw [hpc]; rfl) rfl htable nofun nofun, ?_⟩
    · rw [huses, if_pos rfl, if_neg hnopen]
      omega
    · refine h.lived.happens₂ rfl ?_ fun y hy => update_of_ne hy ..
      show _ = some (File.life (update s.file x _ x))
      rw [update_self]
      have hone : (s.file x).openCount = 0 + 1 := by omega
      unfold File.life
      rw [File.release_status, File.release_openCount, hclosed, hone]
      rfl
  · rename_i hnz
    have hnew : ((s.dropped x (s.file x).release .finished).next t (.ret r)).file =
        update s.file x (s.file x).release := next_file ..
    have hnewholds : (s.file x).release.holds = some n := by
      unfold File.holds
      rw [File.release_status, File.release_openCount, File.release_node, if_neg hnz]
      rcases hst with hst | hst
      · rw [hst]
        exact hnode
      · rw [hst]
        exact hnode
    refine ⟨_, rfl, h.inv.keep ⟨next_pc .., hnew⟩ ⟨rfl, rfl, rfl, rfl⟩ ?_ ?_ hnz ?_ hst ?_ ?_ (fun heq => heq)
      hcalm ⟨rfl, rfl⟩ (by rw [hpc]; rfl) (by rw [hpc]; rfl) (by rw [hpc]; rfl) (by rw [hpc]; rfl) nofun nofun
      nofun, ?_⟩
    · rw [hholds]
      exact hnewholds
    · rw [hnewholds]
      nofun
    · exact hst.imp_right fun hst => ⟨hst, hne⟩
    · simp only [huses, if_true, File.release_openCount, Next.uses_pc, reduceCtorEq, if_false]
      have hsame : (if (s.file x).release.status = .opened then 1 else 0) =
          if (s.file x).status = .opened then 1 else 0 := rfl
      omega
    · intro y hy
      exact ⟨nofun, fun hu => absurd hu (hother y hy)⟩
    · refine h.lived.happens (next_log ..) ?_ fun y hy => ?_
      · rw [hnew, update_self]
        obtain ⟨k, hk⟩ : ∃ k, (s.file x).openCount = k + 2 := ⟨(s.file x).openCount - 2, by omega⟩
        unfold File.life
        rw [File.release_status, File.release_openCount, hk]
        rcases hst with hst | hst
        · rw [hst]
          rfl
        · rw [hst]
          rfl
      · rw [hnew]
        exact update_of_ne hy ..

/-! ## Freeing -/

/-- `filemap_free` of a file that has not been opened. -/
theorem Good.free (h : Good s) (hpc : s.pc t = .free x nx) : ∃ s', s.filemapFree t x nx = some s' ∧ Good s' := by
  have hinits : (s.pc t).inits = x :: nx.inits := by rw [hpc]; rfl
  have hmem : x ∈ (s.pc t).inits := by
    rw [hinits]
    exact List.mem_cons_self
  have hst := h.inv.owners.init t x hmem
  have hzero := h.inv.counts.idle x (Or.inr hst)
  have hnodup := h.inv.owners.nodup t
  rw [hinits] at hnodup
  rw [filemapFree_init hst hzero]
  have hnew : ((s.setFile x { s.file x with status := .none }).next t nx).file =
      update s.file x { s.file x with status := .none } := next_file ..
  have hsteady := next_steady (s.setFile x { s.file x with status := .none }) t nx
  refine ⟨_, rfl, h.inv.freeFile ⟨next_pc .., hnew⟩
    ⟨hsteady.inode, hsteady.others, hsteady.table, hsteady.fsCount⟩ (Or.inl hmem) rfl rfl
    (by rw [hpc]; exact ⟨rfl, rfl⟩) (next_calm nx) ?_ ?_ ?_ ?_ ?_ ?_ ?_ ?_ ?_, h.lived.quiet (next_log ..) ?_⟩
  · rw [hpc, nx.opens_pc]
    rfl
  · rw [hpc, nx.refs_pc]
    rfl
  · rw [hpc, nx.uses_pc]
    rfl
  · intro y
    rw [nx.inits_pc, hinits, List.mem_cons]
    refine ⟨fun hy => ⟨fun heq => (List.nodup_cons.mp hnodup).1 (heq ▸ hy), Or.inr hy⟩, fun hy => ?_⟩
    exact hy.2.resolve_left hy.1
  · intro y
    rw [nx.frees_pc, hpc]
    exact ⟨nofun, fun hy => hy.2⟩
  · rw [nx.inits_pc]
    exact (List.nodup_cons.mp hnodup).2
  · intro table hmem
    rw [nx.tables_pc] at hmem
    rw [hpc]
    exact List.mem_cons_of_mem _ hmem
  · rw [hpc, nx.destroys_pc]
    rfl
  · intro y hy
    rw [nx.checks_pc] at hy
    rw [hpc]
    exact hy
  · intro y
    rw [hnew]
    by_cases hy : y = x
    · rw [hy, update_self]
      unfold File.life
      rw [hst]
    · rw [update_of_ne hy]

/-- The end of `filemap_free`, after `vfs_close`. -/
theorem Good.freed (h : Good s) (hpc : s.pc t = .freed x nx) :
    Good ((s.setFile x { s.file x with status := .none }).next t nx) := by
  have hmem : x ∈ (s.pc t).frees := by
    rw [hpc]
    exact List.mem_singleton_self x
  obtain ⟨hst, hzero⟩ := h.inv.owners.freed t x hmem
  have hinits : (s.pc t).inits = nx.inits := by rw [hpc]; rfl
  have hnew : ((s.setFile x { s.file x with status := .none }).next t nx).file =
      update s.file x { s.file x with status := .none } := next_file ..
  have hsteady := next_steady (s.setFile x { s.file x with status := .none }) t nx
  refine ⟨h.inv.freeFile ⟨next_pc .., hnew⟩
    ⟨hsteady.inode, hsteady.others, hsteady.table, hsteady.fsCount⟩ (Or.inr hmem) rfl rfl
    (by rw [hpc]; exact ⟨rfl, rfl⟩) (next_calm nx) ?_ ?_ ?_ ?_ ?_ ?_ ?_ ?_ ?_, h.lived.quiet (next_log ..) ?_⟩
  · rw [hpc, nx.opens_pc]
    rfl
  · rw [hpc, nx.refs_pc]
    rfl
  · rw [hpc, nx.uses_pc]
    rfl
  · intro y
    rw [nx.inits_pc, hinits]
    refine ⟨fun hy => ⟨fun heq => ?_, hy⟩, fun hy => hy.2⟩
    have hinit := h.inv.owners.init t x (by rw [hinits, ← heq]; exact hy)
    rw [hst] at hinit
    cases hinit
  · intro y
    rw [nx.frees_pc, hpc]
    exact ⟨nofun, fun hy => absurd (List.mem_singleton.mp hy.2) hy.1⟩
  · rw [nx.inits_pc, ← hinits]
    exact h.inv.owners.nodup t
  · intro table hmem
    rw [nx.tables_pc] at hmem
    rw [hpc]
    exact List.mem_cons_of_mem _ hmem
  · rw [hpc, nx.destroys_pc]
    rfl
  · intro y hy
    rw [nx.checks_pc] at hy
    rw [hpc]
    exact hy
  · intro y
    rw [hnew]
    by_cases hy : y = x
    · rw [hy, update_self]
      unfold File.life
      rw [hst, hzero]
      rfl
    · rw [update_of_ne hy]

/-! ## Opening -/

theorem filemapOpen_eq (hst : (s.file x).status = .init) (hnode : (s.file x).node ≠ none) :
    s.filemapOpen x = some ((s.setFile x { s.file x with
      status := .opened, openCount := (s.file x).openCount + 1 }).happens x .opened) := by
  unfold Threads.filemapOpen
  simp only [guard, hst, true_and, if_pos hnode, Option.bind_eq_bind, Option.bind_some, pure]

/-- A file is opened for an inode that the thread has open. -/
theorem Good.opened (h : Good s) (c : Change s s' t p x f) (hst : Steady s s')
    (hlog : s'.log = (x, .opened) :: s.log) (hf : f.status = .opened) (hnode : f.node = some n)
    (hcount : f.openCount = (s.file x).openCount + 1) (hold : Calm (s.pc t)) (hnew : Calm p)
    (hopened : (s.pc t).opens = some n) (hopens : p.opens = none) (hrefs : p.refs = (s.pc t).refs)
    (huses : p.uses = (s.pc t).uses) (hinits : (s.pc t).inits = x :: p.inits)
    (hfrees : p.frees = (s.pc t).frees) (htable : s.table t = some x.1)
    (hhome : ∀ table ∈ p.tables, s.table t = some table) (hdestroys : p.destroys = none)
    (hchecks : p.checks = none) : Good s' := by
  have hinit := h.inv.owners.init t x (by rw [hinits]; exact List.mem_cons_self)
  have hzero := h.inv.counts.idle x (Or.inr hinit)
  refine ⟨h.inv.openFile c hst hf hnode hcount hold hnew hopened hopens hrefs huses hinits hfrees htable hhome
    hdestroys hchecks, h.lived.happens hlog ?_ fun y hy => c.file_other hy⟩
  rw [c.file_self]
  unfold File.life
  rw [hinit, hf, hcount, hzero]
  rfl

theorem Inv.table_of_inits (h : Inv s) (hmem : table ∈ (s.pc t).tables) (hdestroys : (s.pc t).destroys = none) :
    s.table t = some table := by
  refine (h.homes.home t table hmem).resolve_right ?_
  rw [hdestroys]
  nofun

theorem Good.fileOpened (h : Good s) {flags : ℕ}
    (hpc : s.pc t = .truncate x flags n ∨ s.pc t = .fstat x flags n) (pos : Int) :
    ∃ s', s.fileOpened t x flags n pos = some s' ∧ Good s' := by
  have hinits : (s.pc t).inits = [x] := by rcases hpc with hpc | hpc <;> rw [hpc] <;> rfl
  have hopens : (s.pc t).opens = some n := by rcases hpc with hpc | hpc <;> rw [hpc] <;> rfl
  have htable : s.table t = some x.1 := by
    refine h.inv.table_of_inits ?_ ?_
    · rcases hpc with hpc | hpc <;> rw [hpc] <;> exact List.mem_singleton_self _
    · rcases hpc with hpc | hpc <;> rw [hpc] <;> rfl
  have hst := h.inv.owners.init t x (by rw [hinits]; exact List.mem_singleton_self x)
  unfold Threads.fileOpened
  rw [filemapOpen_eq]
  · refine ⟨_, rfl, h.opened (f := { s.file x with
      pos := pos, node := some n, readable := readable flags, writable := writable flags, status := .opened,
      openCount := (s.file x).openCount + 1 }) (p := .run) ⟨rfl, ?_⟩ ⟨rfl, rfl, rfl, rfl⟩ rfl rfl rfl rfl
      ?_ ⟨rfl, rfl⟩ hopens rfl ?_ ?_ hinits ?_ htable nofun rfl rfl⟩
    · show update (update s.file x _) x _ = _
      rw [update_idem]
      congr 1
      rw [show (s.setFile x _).file x = _ from update_self ..]
    · rcases hpc with hpc | hpc <;> rw [hpc] <;> exact ⟨rfl, rfl⟩
    · rcases hpc with hpc | hpc <;> rw [hpc] <;> rfl
    · rcases hpc with hpc | hpc <;> rw [hpc] <;> rfl
    · rcases hpc with hpc | hpc <;> rw [hpc] <;> rfl
  · rw [show (s.setFile x _).file x = _ from update_self ..]
    exact hst
  · rw [show (s.setFile x _).file x = _ from update_self ..]
    nofun

theorem Good.move (h : Good s) (hsame : pc.Same (s.pc t)) (hopens : pc.opens = (s.pc t).opens)
    (hrefs : pc.refs = (s.pc t).refs) (hreclaims : pc.reclaims = (s.pc t).reclaims)
    (hdies : pc.dies = (s.pc t).dies) : Good (s.setPc t pc) :=
  ⟨h.inv.move hsame hopens hrefs hreclaims hdies, h.lived⟩

theorem Good.move_of (h : Good s) {old : Pc} (hpc : s.pc t = old) (hsame : pc.Same old)
    (hopens : pc.opens = old.opens)
    (hrefs : pc.refs = old.refs) (hreclaims : pc.reclaims = old.reclaims) (hdies : pc.dies = old.dies) :
    Good (s.setPc t pc) := by
  subst hpc
  exact h.move hsame hopens hrefs hreclaims hdies

/-- Only `Homes` says which thread has which table. -/
theorem Good.retable (h : Good s) {count : ℕ → ℕ} {tables : ℕ → Option ℕ}
    (hhomes : Homes { s with fsCount := count, table := tables }) :
      Good { s with fsCount := count, table := tables } :=
  ⟨⟨⟨h.inv.support.pcs, h.inv.support.files⟩, ⟨h.inv.counts.count, h.inv.counts.idle, h.inv.counts.node⟩,
    ⟨h.inv.refs.opens, h.inv.refs.refs⟩, h.inv.lives,
    ⟨h.inv.owners.init, h.inv.owners.freed, h.inv.owners.one, h.inv.owners.nodup, h.inv.owners.owner⟩, hhomes⟩,
      h.lived⟩

/-- The invariants do not look at what calls return. -/
theorem Good.ret (h : Good (s.setPc t .run)) (r : Int) : Good (s.leave t r) :=
  ⟨⟨⟨h.inv.support.pcs, h.inv.support.files⟩, ⟨h.inv.counts.count, h.inv.counts.idle, h.inv.counts.node⟩,
    ⟨h.inv.refs.opens, h.inv.refs.refs⟩, h.inv.lives,
    ⟨h.inv.owners.init, h.inv.owners.freed, h.inv.owners.one, h.inv.owners.nodup, h.inv.owners.owner⟩,
    ⟨h.inv.homes.members, h.inv.homes.fsCount, h.inv.homes.home, h.inv.homes.destroys, h.inv.homes.one,
      h.inv.homes.checked⟩⟩, h.lived⟩

theorem Good.leave (h : Good s) (hpc : s.pc t = .run) (r : Int) : Good (s.leave t r) :=
  Good.ret (h.move_of hpc ⟨rfl, rfl, rfl, rfl, rfl, rfl⟩ rfl rfl rfl rfl) r

/-- `file_open` after `vfs_open`. -/
theorem Good.vfsOpened (h : Good s) {flags : ℕ} (hpc : s.pc t = .truncate x flags n) :
    ∃ s', s.vfsOpened t x flags n = some s' ∧ Good s' := by
  unfold Threads.vfsOpened
  split
  · exact ⟨_, rfl, h.move_of hpc ⟨rfl, rfl, rfl, rfl, rfl, rfl⟩ rfl rfl rfl rfl⟩
  · exact h.fileOpened (Or.inl hpc) 0

theorem fileOpened_setPc (s : Threads) (t : ℕ) (pc : Pc) (x : Slot) (flags n : ℕ) (pos : Int) :
    (s.setPc t pc).fileOpened t x flags n pos = s.fileOpened t x flags n pos := by
  unfold Threads.fileOpened Threads.filemapOpen
  by_cases hst : (s.file x).status = .init
  · simp [guard, Threads.setPc, Threads.setFile, Threads.happens, Threads.leave, hst, update_idem]
  · simp [guard, Threads.setPc, Threads.setFile, hst]

theorem vfsOpened_setPc (s : Threads) (t : ℕ) (pc : Pc) (x : Slot) (flags n : ℕ) :
    (s.setPc t pc).vfsOpened t x flags n = s.vfsOpened t x flags n := by
  unfold Threads.vfsOpened
  split
  · simp [Threads.setPc, update_idem]
  · exact fileOpened_setPc ..

/-- `vop_open_inc`, with the reference that the thread has. -/
theorem Good.openInc (h : Good s) {flags : ℕ} (hpc : s.pc t = .vopOpen x flags n) :
    Good ((s.openInc n).setPc t (.truncate x flags n)) := by
  refine ⟨h.inv.setInode (by rw [hpc]; exact ⟨rfl, rfl, rfl, rfl, rfl, rfl⟩) ?_ ?_ ?_ ?_ ?_, h.lived⟩
  · intro m hm
    rw [hpc]
    simp [Pc.opens, Pc.refs, Pc.reclaims, Pc.dies, hm.symm]
  · intro m hm
    simp [Pc.opens, Pc.refs, Pc.reclaims, Pc.dies, hm.symm]
  · rw [hpc]
    simp [Pc.opens]
  · rw [hpc]
    simp [Pc.opens, Pc.refs]
  · intro r d r' d' hok hr hd
    rw [hpc] at hr hd
    simp only [Pc.reclaims, Pc.dies, reduceCtorEq, if_false, Nat.add_zero] at hr hd
    rw [hr, hd]
    exact hok.setOpen _

theorem Good.vfsOpen (h : Good s) {flags : ℕ} (hpc : s.pc t = .vopOpen x flags n) :
    ∃ s', s.vfsOpen t x flags n = some s' ∧ Good s' := by
  have hinc := h.openInc hpc
  unfold Threads.vfsOpen
  dsimp only
  split
  · exact ⟨_, rfl, hinc⟩
  · obtain ⟨s', hrun, hgood⟩ := hinc.vfsOpened (setPc_self ..)
    rw [vfsOpened_setPc] at hrun
    exact ⟨s', hrun, hgood⟩

/-! ## Pipes -/

/-- The file after `filemap_open` for one end of a new pipe. -/
def openEnd (s : Threads) (x : Slot) (n : ℕ) (reader : Bool) : Threads :=
  (s.setFile x { s.file x with
    pos := 0, node := some n, readable := reader, writable := !reader, status := .opened,
    openCount := (s.file x).openCount + 1 }).happens x .opened

theorem pipeEnd_eq (hst : (s.file x).status = .init) (n : ℕ) (reader : Bool) :
    s.pipeEnd x n reader = some (s.openEnd x n reader) := by
  unfold Threads.pipeEnd
  rw [filemapOpen_eq]
  · rw [show (s.setFile x _).file x = _ from update_self ..]
    unfold openEnd Threads.setFile
    rw [update_idem]
  · rw [show (s.setFile x _).file x = _ from update_self ..]
    exact hst
  · rw [show (s.setFile x _).file x = _ from update_self ..]
    nofun

/-- The thread takes a reference to a new inode, and `vop_open_inc`. -/
def takeOpen (s : Threads) (n : ℕ) : Threads :=
  { s.openInc n with others := update s.others n (s.others n - 1) }

theorem Good.takeOpen (h : Good s) (hpos : 0 < s.others n) (hsame : pc.Same (s.pc t)) (hold : Calm (s.pc t))
    (hnew : Calm pc) (hno : (s.pc t).opens = none) (hnor : (s.pc t).refs = none) (hopens : pc.opens = some n)
    (hrefs : pc.refs = none) : Good ((s.takeOpen n).setPc t pc) := by
  refine ⟨h.inv.moveInode hsame ?_ ?_ ?_ ?_ ?_, h.lived⟩
  · intro m _
    simp [hno, hnor, hold.reclaims, hold.dies]
  · intro m hm
    simp [hopens, hrefs, hnew.reclaims, hnew.dies, hm.symm]
  · rw [hno, hopens]
    simp
  · rw [hno, hnor, hopens, hrefs]
    simp
    omega
  · intro r d r' d' hok hr hd
    rw [hold.reclaims, hnew.reclaims] at hr
    rw [hold.dies, hnew.dies] at hd
    rw [show r' = r by omega, show d' = d by omega]
    exact hok.setOpen _

theorem openEnd_file (s : Threads) (n : ℕ) (reader : Bool) (hy : y ≠ x) :
    (s.openEnd x n reader).file y = s.file y := update_of_ne hy ..

theorem Good.filePiped (h : Good s) {env : Env} (hpc : s.pc t = .pipe x y) (hne : env.node ≠ env.wnode)
    (hr : 0 < s.others env.node) (hw : 0 < s.others env.wnode) :
    ∃ s', s.filePiped env t x y = some s' ∧ Good s' := by
  have hinits : (s.pc t).inits = [x, y] := by rw [hpc]; rfl
  have hnodup := h.inv.owners.nodup t
  rw [hinits] at hnodup
  have hxy : y ≠ x := fun heq => by
    rw [heq] at hnodup
    exact (List.nodup_cons.mp hnodup).1 (List.mem_singleton_self x)
  have hx := h.inv.owners.init t x (by rw [hinits]; exact List.mem_cons_self)
  have hy := h.inv.owners.init t y (by rw [hinits]; exact List.mem_cons_of_mem x (List.mem_singleton_self y))
  have hno : (s.pc t).destroys = none := by rw [hpc]; rfl
  have htx : s.table t = some x.1 := h.inv.table_of_inits (by rw [hpc]; exact List.mem_cons_self) hno
  have hty : s.table t = some y.1 :=
    h.inv.table_of_inits (by rw [hpc]; exact List.mem_cons_of_mem _ (List.mem_singleton_self _)) hno
  -- one end after the other, with the inode in hand
  have h₁ : Good ((s.takeOpen env.node).setPc t (.vfsClose env.node (.free x (.free y 0)))) := by
    refine h.takeOpen hr ?_ ?_ ⟨rfl, rfl⟩ ?_ ?_ rfl rfl <;> rw [hpc]
    · exact ⟨rfl, rfl, rfl, rfl, rfl, rfl⟩
    · exact ⟨rfl, rfl⟩
    · rfl
    · rfl
  have h₂ : Good (((s.takeOpen env.node).openEnd x env.node true).setPc t (.lookup y 0)) := by
    refine h₁.opened (n := env.node) (p := .lookup y 0) (x := x) (f := { s.file x with
      pos := 0, node := some env.node, readable := true, writable := false, status := .opened,
      openCount := (s.file x).openCount + 1 }) ⟨?_, rfl⟩ ⟨rfl, rfl, rfl, rfl⟩ rfl rfl rfl rfl ?_ ⟨rfl, rfl⟩ ?_ rfl
      ?_ ?_ ?_ ?_ htx ?_ rfl rfl
    · show update s.pc t _ = update (update s.pc t _) t _
      rw [update_idem]
    · rw [setPc_self]
      exact ⟨rfl, rfl⟩
    · rw [setPc_self]
      rfl
    · rw [setPc_self]
      rfl
    · rw [setPc_self]
      rfl
    · rw [setPc_self]
      rfl
    · rw [setPc_self]
      rfl
    · intro table hmem
      rw [List.mem_singleton.mp hmem]
      exact hty
  have hw₂ : 0 < (((s.takeOpen env.node).openEnd x env.node true).setPc t (.lookup y 0)).others env.wnode := by
    show 0 < update s.others env.node _ env.wnode
    rw [update_of_ne hne.symm]
    exact hw
  have h₃ : Good ((((s.takeOpen env.node).openEnd x env.node true).setPc t (.lookup y 0)).takeOpen env.wnode |>.setPc
      t (.vfsClose env.wnode (.free y (.ret 0)))) := by
    refine h₂.takeOpen hw₂ ?_ ?_ ⟨rfl, rfl⟩ ?_ ?_ rfl rfl <;> rw [setPc_self]
    · exact ⟨rfl, rfl, rfl, rfl, rfl, rfl⟩
    · exact ⟨rfl, rfl⟩
    · rfl
    · rfl
  have h₄ : Good ((((s.takeOpen env.node).openEnd x env.node true).takeOpen env.wnode |>.openEnd y env.wnode
      false).leave t 0) := by
    refine h₃.opened (n := env.wnode) (p := .run) (x := y) (f := { s.file y with
      pos := 0, node := some env.wnode, readable := false, writable := true, status := .opened,
      openCount := (s.file y).openCount + 1 }) ⟨?_, ?_⟩ ⟨rfl, rfl, rfl, rfl⟩ rfl rfl rfl ?_ ?_ ⟨rfl, rfl⟩ ?_ rfl
      ?_ ?_ ?_ ?_ hty nofun rfl rfl
    · show update s.pc t _ = update (update (update s.pc t _) t _) t _
      rw [update_idem, update_idem]
    · show update (update s.file x _) y _ = update (update s.file x _) y _
      congr 1
      rw [show ((s.takeOpen env.node).openEnd x env.node true |>.takeOpen env.wnode).file y = s.file y from
        openEnd_file _ _ _ hxy]
      rfl
    · show (s.file y).openCount + 1 = (update s.file x _ y).openCount + 1
      rw [update_of_ne hxy]
    · rw [setPc_self]
      exact ⟨rfl, rfl⟩
    · rw [setPc_self]
      rfl
    · rw [setPc_self]
      rfl
    · rw [setPc_self]
      rfl
    · rw [setPc_self]
      rfl
    · rw [setPc_self]
      rfl
  refine ⟨_, ?_, h₄⟩
  unfold Threads.filePiped
  dsimp only
  rw [pipeEnd_eq, Option.bind_eq_bind, Option.bind_some, pipeEnd_eq]
  · rw [Option.bind_some]
    refine congrArg some ?_
    unfold Threads.takeOpen openEnd Threads.openInc Threads.setInode Threads.leave Threads.setPc Threads.setFile
      Threads.happens
    dsimp only
  · rw [openEnd_file _ _ _ hxy]
    exact hy
  · exact hx

/-! ## Calls -/

theorem Inv.getFilemap (h : Inv s) (ht : s.table t = some table) : s.getFilemap t = some table := by
  have hpos : 0 < s.fsCount table := Nat.pos_of_ne_zero (h.homes.fsCount_ne ht)
  unfold Threads.getFilemap
  simp [ht, guard, hpos]

theorem filemapFind_ok {fd : Int} (hfind : s.filemapFind table fd = .ok x) :
    x.1 = table ∧ (s.file x).status = .none := by
  unfold Threads.filemapFind at hfind
  split at hfind
  · split at hfind
    · rename_i i hi
      cases hfind
      have hst := List.find?_some hi
      exact ⟨rfl, of_decide_eq_true hst⟩
    · cases hfind
  · split at hfind
    · split at hfind
      · rename_i hst
        cases hfind
        exact ⟨rfl, hst⟩
      · cases hfind
    · cases hfind

theorem fd2file_some {fd : Int} (hfd : s.fd2file table fd = some x) :
    x.1 = table ∧ (s.file x).status = .opened := by
  unfold Threads.fd2file at hfd
  split at hfd
  · rename_i hst
    cases hfd
    exact ⟨rfl, hst.2⟩
  · cases hfd

theorem Inv.filemapInit_eq (h : Inv s) (hx : (s.file x).status = .none) :
    s.filemapInit x = some (s.setFile x { s.file x with status := .init, node := none }) := by
  unfold Threads.filemapInit
  simp [guard, h.counts.idle x (Or.inl hx)]

/-- `filemap_alloc`. -/
theorem Good.alloc (h : Good s) (hx : (s.file x).status = .none) (hold : Calm (s.pc t)) (hnew : Calm p)
    (hopens : p.opens = (s.pc t).opens) (hrefs : p.refs = (s.pc t).refs) (huses : p.uses = (s.pc t).uses)
    (hinits : p.inits = (s.pc t).inits ++ [x]) (hfrees : p.frees = (s.pc t).frees)
    (hhome : ∀ table ∈ p.tables, s.table t = some table) (hdestroys : p.destroys = none)
    (hchecks : p.checks = none) :
    Good ((s.setFile x { s.file x with status := .init, node := none }).setPc t p) := by
  refine ⟨h.inv.alloc ⟨rfl, rfl⟩ ⟨rfl, rfl, rfl, rfl⟩ hx rfl rfl hold hnew hopens hrefs huses hinits hfrees hhome
    hdestroys hchecks, h.lived.quiet rfl fun y => ?_⟩
  by_cases hy : y = x
  · rw [hy, show ((s.setFile x _).setPc t p).file x = _ from update_self ..]
    unfold File.life
    rw [hx]
  · rw [show ((s.setFile x _).setPc t p).file y = s.file y from update_of_ne hy ..]

/-- `filemap_alloc` by a thread that begins a call. -/
theorem Good.allocFirst (h : Good s) (hpc : s.pc t = .run) (ht : s.table t = some x.1)
    (hx : (s.file x).status = .none) (flags : ℕ) :
    Good ((s.setFile x { s.file x with status := .init, node := none }).setPc t (.lookup x flags)) := by
  refine h.alloc hx ?_ ⟨rfl, rfl⟩ ?_ ?_ ?_ ?_ ?_ ?_ rfl rfl
  · rw [hpc]
    exact ⟨rfl, rfl⟩
  · rw [hpc]
    rfl
  · rw [hpc]
    rfl
  · rw [hpc]
    rfl
  · rw [hpc]
    rfl
  · rw [hpc]
    rfl
  · intro table hmem
    rw [List.mem_singleton.mp hmem]
    exact ht

theorem Good.fileOpen (h : Good s) (hpc : s.pc t = .run) (ht : s.table t = some table) (flags : ℕ) :
    ∃ s', s.fileOpen t flags = some s' ∧ Good s' := by
  unfold Threads.fileOpen
  split
  · exact ⟨_, rfl, h.leave hpc _⟩
  rw [h.inv.getFilemap ht, Option.bind_eq_bind, Option.bind_some]
  cases hfind : s.filemapFind table NO_FD with
  | error e => exact ⟨_, rfl, h.leave hpc e⟩
  | ok x =>
    obtain ⟨rfl, hx⟩ := filemapFind_ok hfind
    dsimp only
    rw [h.inv.filemapInit_eq hx]
    exact ⟨_, rfl, h.allocFirst hpc ht hx flags⟩

theorem idle_run : Idle .run := ⟨⟨rfl, rfl⟩, rfl, rfl, rfl, rfl⟩

theorem Good.fileClose (h : Good s) (hpc : s.pc t = .run) (ht : s.table t = some table) (fd : Int) :
    ∃ s', s.fileClose t fd = some s' ∧ Good s' := by
  unfold Threads.fileClose
  rw [h.inv.getFilemap ht, Option.bind_eq_bind, Option.bind_some]
  cases hfd : s.fd2file table fd with
  | none => exact ⟨_, rfl, h.leave hpc _⟩
  | some x =>
    obtain ⟨rfl, hx⟩ := fd2file_some hfd
    refine h.filemapClose hx (by rw [hpc]; exact idle_run) (by rw [hpc]; rfl) rfl ?_ nofun nofun
    intro table hmem
    rw [List.mem_singleton.mp hmem]
    exact Or.inl ht

/-- `filemap_acquire` by a thread that begins an operation. -/
theorem Good.acquire (h : Good s) (hpc : s.pc t = .run) (ht : s.table t = some x.1)
    (hx : (s.file x).status = .opened) (op : Op) :
    ∃ s', s.filemapAcquire x = some s' ∧ Good (s'.setPc t (.io x op)) := by
  have hcount := h.inv.count_opened hx
  obtain ⟨n, hnode, hholds⟩ := h.inv.inUse (Or.inl hx) (by omega)
  have hnew : File.holds { s.file x with openCount := (s.file x).openCount + 1 } = some n := by
    unfold File.holds
    rw [hx]
    exact hnode
  refine ⟨(s.setFile x { s.file x with openCount := (s.file x).openCount + 1 }).happens x .began, ?_,
    h.inv.keep ⟨rfl, rfl⟩ ⟨rfl, rfl, rfl, rfl⟩ ?_ ?_ (Nat.succ_ne_zero _) (Or.inl hx) (Or.inl hx) ?_ ?_
      (fun _ => hx) ?_ ⟨rfl, rfl⟩ ?_ ?_ ?_ ?_ ?_ ?_ ?_, ?_⟩
  · unfold Threads.filemapAcquire
    simp only [guard, if_pos hx, Option.bind_eq_bind, Option.bind_some, pure]
  · rw [hnew, hholds]
  · rw [hnew]
    intro hno
    cases hno
  · rw [hpc]
    simp [Pc.uses, hx]
  · intro y hy
    rw [hpc]
    exact ⟨fun heq => absurd (Option.some.inj heq).symm hy, fun hno => by cases hno⟩
  · rw [hpc]
    exact ⟨rfl, rfl⟩
  · rw [hpc]
    rfl
  · rw [hpc]
    rfl
  · rw [hpc]
    rfl
  · rw [hpc]
    rfl
  · intro table hmem
    rw [List.mem_singleton.mp hmem]
    exact Or.inl ht
  · intro table hno
    cases hno
  · intro y hno
    cases hno
  · refine h.lived.happens rfl ?_ fun y hy => update_of_ne hy ..
    show _ = some (File.life (update s.file x _ x))
    rw [update_self]
    obtain ⟨k, hk⟩ : ∃ k, (s.file x).openCount = k + 1 := ⟨s.inFlight x, by omega⟩
    unfold File.life
    rw [hx, hk]
    rfl

theorem Good.fileRead (h : Good s) (hpc : s.pc t = .run) (ht : s.table t = some table) (fd : Int) :
    ∃ s', s.fileRead t fd = some s' ∧ Good s' := by
  unfold Threads.fileRead
  rw [h.inv.getFilemap ht, Option.bind_eq_bind, Option.bind_some]
  cases hfd : s.fd2file table fd with
  | none => exact ⟨_, rfl, h.leave hpc _⟩
  | some x =>
    obtain ⟨rfl, hx⟩ := fd2file_some hfd
    obtain ⟨s', hrun, hgood⟩ := h.acquire hpc ht hx .read
    dsimp only
    split
    · rw [hrun]
      exact ⟨_, rfl, hgood⟩
    · exact ⟨_, rfl, h.leave hpc _⟩

theorem Good.fileWrite (h : Good s) (hpc : s.pc t = .run) (ht : s.table t = some table) (fd : Int) :
    ∃ s', s.fileWrite t fd = some s' ∧ Good s' := by
  unfold Threads.fileWrite
  rw [h.inv.getFilemap ht, Option.bind_eq_bind, Option.bind_some]
  cases hfd : s.fd2file table fd with
  | none => exact ⟨_, rfl, h.leave hpc _⟩
  | some x =>
    obtain ⟨rfl, hx⟩ := fd2file_some hfd
    obtain ⟨s', hrun, hgood⟩ := h.acquire hpc ht hx .write
    dsimp only
    split
    · rw [hrun]
      exact ⟨_, rfl, hgood⟩
    · exact ⟨_, rfl, h.leave hpc _⟩

theorem Good.fileSeek (h : Good s) (hpc : s.pc t = .run) (ht : s.table t = some table) (fd pos whence : Int) :
    ∃ s', s.fileSeek t fd pos whence = some s' ∧ Good s' := by
  unfold Threads.fileSeek
  rw [h.inv.getFilemap ht, Option.bind_eq_bind, Option.bind_some]
  cases hfd : s.fd2file table fd with
  | none => exact ⟨_, rfl, h.leave hpc _⟩
  | some x =>
    obtain ⟨rfl, hx⟩ := fd2file_some hfd
    obtain ⟨s', hrun, hgood⟩ := h.acquire hpc ht hx (seekOp (s.file x) pos whence)
    dsimp only
    rw [hrun]
    exact ⟨_, rfl, hgood⟩

/-- The end of an operation. -/
theorem Good.ioEnd (h : Good s) {op : Op} (hpc : s.pc t = .io x op) (env : Env) :
    ∃ s', s.ioEnd env t x op = some s' ∧ Good s' := by
  have hdata : Good (s.setFile x { s.file x with pos := (ioPos (s.file x) env op).2 }) :=
    h.data rfl rfl rfl
  have hpc' : (s.setFile x { s.file x with pos := (ioPos (s.file x) env op).2 }).pc t = .io x op := hpc
  exact hdata.filemapRelease hpc' _

/-! ## Copies -/

/-- The descriptor `y` becomes one more for the inode of `x`. -/
theorem Good.dup (h : Good s) (hy : (s.file y).status = .none) (hx : (s.file x).status = .opened)
    (hdestroys : ∀ u, (s.pc u).destroys ≠ some y.1) {f : File} (hf : f.status = .init)
    (hcount : f.openCount = (s.file y).openCount) :
    ∃ s', (s.setFile y f).filemapDup y x = some s' ∧ Good s' ∧ s'.pc = s.pc ∧ s'.table = s.table ∧
      s'.fsCount = s.fsCount ∧ ∀ z, z ≠ y → s'.file z = s.file z := by
  have hxy : x ≠ y := fun heq => by
    rw [heq, hy] at hx
    cases hx
  have hzero := h.inv.counts.idle y (Or.inl hy)
  obtain ⟨n, hn⟩ := Option.ne_none_iff_exists'.mp (h.inv.counts.node x (Or.inl hx))
  have hfy : (s.setFile y f).file y = f := update_self ..
  have hfx : (s.setFile y f).file x = s.file x := update_of_ne hxy ..
  let g : File := { f with
    pos := (s.file x).pos, readable := (s.file x).readable, writable := (s.file x).writable, node := some n,
    status := .opened, openCount := f.openCount + 1 }
  have hrun : (s.setFile y f).filemapDup y x =
      some ((((s.refInc n).openInc n).setFile y g).happens y .opened) := by
    unfold Threads.filemapDup
    simp only [hfy, hfx, guard, hf, hx, true_and, if_true, hn, Option.bind_eq_bind, Option.bind_some]
    rw [filemapOpen_eq]
    · refine congrArg some ?_
      unfold Threads.happens Threads.setFile Threads.openInc Threads.refInc Threads.setInode
      dsimp only
      rw [update_self, update_idem, update_idem, update_idem]
    · show (update (update s.file y f) y _ y).status = _
      rw [update_self]
    · show (update (update s.file y f) y _ y).node ≠ _
      rw [update_self]
      simp
  refine ⟨_, hrun, ⟨?_, ?_⟩, rfl, rfl, rfl, fun z hz => update_of_ne hz ..⟩
  · refine h.inv.dupFile (t := 0) (x := x) (f := g) ⟨(update_eq_self 0 s.pc).symm, rfl⟩ rfl rfl rfl hy hx hn
      rfl rfl ?_ ?_ hdestroys
    · show f.openCount + 1 = _
      rw [hcount]
    · show update (update s.inode n _) n _ = _
      rw [update_idem]
      congr 1
      rw [show (s.refInc n).inode n = _ from update_self ..]
  · refine h.lived.happens (e := .opened) rfl ?_ fun z hz => update_of_ne hz ..
    show _ = some (File.life (update s.file y g y))
    rw [update_self]
    unfold File.life
    rw [hy]
    show some (Life.opened 0) = some (Life.opened (f.openCount + 1 - 1))
    rw [hcount, hzero]

theorem Good.fileDup (h : Good s) (hpc : s.pc t = .run) (ht : s.table t = some table) (fd1 fd2 : Int) :
    ∃ s', s.fileDup t fd1 fd2 = some s' ∧ Good s' := by
  unfold Threads.fileDup
  rw [h.inv.getFilemap ht, Option.bind_eq_bind, Option.bind_some]
  cases hfd : s.fd2file table fd1 with
  | none => exact ⟨_, rfl, h.leave hpc _⟩
  | some x =>
    obtain ⟨-, hx⟩ := fd2file_some hfd
    dsimp only
    rw [Option.bind_eq_bind, Option.bind_some]
    cases hfind : s.filemapFind table fd2 with
    | error e => exact ⟨_, rfl, h.leave hpc e⟩
    | ok y =>
      obtain ⟨rfl, hy⟩ := filemapFind_ok hfind
      obtain ⟨s', hrun, hgood, hpcs, -⟩ := h.dup hy hx (h.inv.homes.not_destroys ht)
        (f := { s.file y with status := .init, node := none }) rfl rfl
      dsimp only
      rw [h.inv.filemapInit_eq hy, Option.bind_some, hrun]
      exact ⟨_, rfl, hgood.leave (by rw [hpcs]; exact hpc) _⟩

theorem filemapFree_setPc (t : ℕ) (pc : Pc) (nx : Next) (hst : (s.file x).status = .init)
    (hzero : (s.file x).openCount = 0) :
    (s.setPc t pc).filemapFree t x nx = s.filemapFree t x nx := by
  rw [filemapFree_init hst hzero, filemapFree_init (s := s.setPc t pc) hst hzero]
  cases nx <;> simp [Threads.setPc, Threads.setFile, Threads.next, Threads.leave, update_idem]

/-- `file_pipe`, up to `pipe_open`. -/
theorem Good.filePipe (h : Good s) (hpc : s.pc t = .run) (ht : s.table t = some table) :
    ∃ s', s.filePipe t = some s' ∧ Good s' := by
  unfold Threads.filePipe
  rw [h.inv.getFilemap ht, Option.bind_eq_bind, Option.bind_some]
  cases hfind : s.filemapFind table NO_FD with
  | error e => exact ⟨_, rfl, h.leave hpc e⟩
  | ok x =>
    obtain ⟨rfl, hx⟩ := filemapFind_ok hfind
    have h₁ := h.allocFirst hpc ht hx 0
    have hself : (s.setFile x { s.file x with status := .init, node := none }).file x =
        { s.file x with status := .init, node := none } := update_self ..
    dsimp only
    rw [h.inv.filemapInit_eq hx, Option.bind_eq_bind, Option.bind_some]
    rw [show (s.setFile x { s.file x with status := .init, node := none }).getFilemap t = some x.1 from
      h.inv.getFilemap ht, Option.bind_some]
    cases hfind' : (s.setFile x { s.file x with status := .init, node := none }).filemapFind x.1 NO_FD with
    | error e =>
      have hmove : Good (((s.setFile x { s.file x with status := .init, node := none }).setPc t (.lookup x 0)).setPc
          t (.free x (.ret e))) := by
        refine h₁.move ?_ ?_ ?_ ?_ ?_ <;> rw [setPc_self]
        · exact ⟨rfl, rfl, rfl, rfl, rfl, rfl⟩
        all_goals rfl
      obtain ⟨s', hrun, hgood⟩ := hmove.free (setPc_self ..)
      have hinit : ((s.setFile x { s.file x with status := .init, node := none }).file x).status = .init := by
        rw [hself]
      have hzero := h₁.inv.counts.idle x (Or.inr hinit)
      have hfree := filemapFree_setPc t (.lookup x 0) (.ret e) hinit hzero
      have hfree' := filemapFree_setPc t (.free x (.ret e)) (.ret e)
        (s := (s.setFile x { s.file x with status := .init, node := none }).setPc t (.lookup x 0)) hinit hzero
      exact ⟨s', (hfree'.trans hfree).symm.trans hrun, hgood⟩
    | ok y =>
      obtain ⟨hyx, hy⟩ := filemapFind_ok hfind'
      dsimp only
      have halloc : (s.setFile x { s.file x with status := .init, node := none }).filemapInit y =
          some ((s.setFile x { s.file x with status := .init, node := none }).setFile y
            { (s.setFile x { s.file x with status := .init, node := none }).file y with
              status := .init, node := none }) := by
        have hzero := h₁.inv.counts.idle y (Or.inl hy)
        have hzero : ((s.setFile x { s.file x with status := .init, node := none }).file y).openCount = 0 := hzero
        unfold Threads.filemapInit
        simp [guard, hzero]
      rw [halloc]
      refine ⟨_, rfl, ?_⟩
      have h₂ := h₁.alloc (t := t) (p := .pipe x y) hy (by rw [setPc_self]; exact ⟨rfl, rfl⟩) ⟨rfl, rfl⟩
        (by rw [setPc_self]; rfl) (by rw [setPc_self]; rfl) (by rw [setPc_self]; rfl) (by rw [setPc_self]; rfl)
        (by rw [setPc_self]; rfl) (fun table hmem => ?_) rfl rfl
      · simp only [Threads.setPc, Threads.setFile, update_idem] at h₂ ⊢
        exact h₂
      · rcases List.mem_cons.mp hmem with heq | hmem
        · rw [heq]
          exact ht
        · rw [List.mem_singleton.mp hmem, hyx]
          exact ht

end Threads

end Ucore.Vfs
