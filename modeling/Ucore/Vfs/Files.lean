import Ucore.Vfs.FileTable

/-!
# Files in every run

* `Good.destroyCheck`, `Good.dupFs`, `Good.putFs` — the loops over a table;
* `Good.step` — every step keeps the invariants, and none of its assertions fails;
* `file_table` — what the counters count in every state that a run can reach, and the life of the
  descriptors.
-/

namespace Ucore.Vfs

open Occurrence

theorem Next.tables_of_inits {x : Slot} (next : Next) (h : x ∈ next.inits) : x.1 ∈ next.tables := by
  cases next with
  | free y r =>
    rw [List.mem_singleton.mp h]
    exact List.mem_cons_self
  | _ => cases h

theorem After.tables_of_inits {x : Slot} (after : After) (h : x ∈ after.inits) : x.1 ∈ after.tables := by
  cases after with
  | done => cases h
  | free y next =>
    rcases List.mem_cons.mp h with heq | h
    · rw [heq]
      exact List.mem_cons_self
    · exact List.mem_cons_of_mem _ (next.tables_of_inits h)
  | freed y next => exact List.mem_cons_of_mem _ (next.tables_of_inits h)

theorem After.tables_of_frees {x : Slot} (after : After) (h : x ∈ after.frees) : x.1 ∈ after.tables := by
  cases after with
  | freed y next =>
    rw [List.mem_singleton.mp h]
    exact List.mem_cons_self
  | _ => cases h

/-- A thread frees files of the tables on which it works. -/
theorem Pc.tables_of_owns {pc : Pc} {x : Slot} (h : pc.Owns x) : x.1 ∈ pc.tables := by
  rcases h with h | h
  · cases pc with
    | lookup y flags | vopOpen y flags n | truncate y flags n | fstat y flags n =>
      rw [List.mem_singleton.mp h]
      exact List.mem_cons_self
    | pipe y z =>
      rcases List.mem_cons.mp h with heq | h
      · rw [heq]
        exact List.mem_cons_self
      · rw [List.mem_singleton.mp h]
        exact List.mem_cons_of_mem _ List.mem_cons_self
    | vfsClose n after | vopClose n after | refDec n after | reclaim n after | dying n after =>
      exact after.tables_of_inits h
    | free y next =>
      rcases List.mem_cons.mp h with heq | h
      · rw [heq]
        exact List.mem_cons_self
      · exact List.mem_cons_of_mem _ (next.tables_of_inits h)
    | freed y next => exact List.mem_cons_of_mem _ (next.tables_of_inits h)
    | _ => cases h
  · cases pc with
    | vfsClose n after | vopClose n after | refDec n after | reclaim n after | dying n after =>
      exact after.tables_of_frees h
    | freed y next =>
      rw [List.mem_singleton.mp h]
      exact List.mem_cons_self
    | _ => cases h

/-- A thread that uses a file works on its table, and destroys none. -/
theorem Pc.tables_of_uses {pc : Pc} {x : Slot} (h : pc.uses = some x) :
    x.1 ∈ pc.tables ∧ pc.destroys = none := by
  cases pc with
  | io y op =>
    cases h
    exact ⟨List.mem_cons_self, rfl⟩
  | _ => cases h

namespace Threads

variable {s s' : Threads} {t u n : ℕ} {pc : Pc} {x y : Slot} {f : File} {table : ℕ} {after : After}
  {nx : Next} {i : Inode}

/-! ## Loops -/

/-- A thread that has nothing in hand moves. -/
theorem Good.idle (h : Good s) (hold : Idle (s.pc t)) (hnew : Idle pc) (huses : (s.pc t).uses = none)
    (huses' : pc.uses = none) (hhomes : Homes (s.setPc t pc)) : Good (s.setPc t pc) := by
  have c : Change s (s.setPc t pc) t pc (0, 0) (s.file (0, 0)) :=
    ⟨rfl, (Function.update_eq_self (0, 0) s.file).symm⟩
  have hno := not_owns_nil hold.inits hold.frees
  have hno' := not_owns_nil hnew.inits hnew.frees
  refine ⟨⟨h.inv.support.change c, h.inv.counts.change h.inv.support c ?_ ?_ (h.inv.counts.idle _)
    (h.inv.counts.node _), h.inv.refs.change h.inv.support c ?_ ?_,
    h.inv.lives.calm h.inv.support c ⟨rfl, rfl, rfl, rfl⟩ hold.calm hnew.calm,
    h.inv.owners.change c ?_ ?_ ?_ ?_ ?_ ?_, hhomes⟩, h.lived⟩
  · rw [huses, huses']
  · intro y _
    rw [huses, huses']
  · intro m
    rw [hold.opens, hnew.opens]
    rfl
  · intro m
    rw [hold.opens, hnew.opens, hold.refs, hnew.refs]
    rfl
  · intro y hy
    exact absurd (Or.inl hy) (hno' y)
  · intro y hy
    exact absurd (Or.inr hy) (hno' y)
  · rw [hnew.inits]
    exact List.nodup_nil
  · exact fun y _ hy => absurd hy (hno y)
  · exact Or.inr ⟨rfl, rfl, hno' _, hno _⟩
  · exact fun _ => Or.inr ⟨rfl, rfl, hno _⟩

/-- It moves within its loop, or begins one over its table. -/
theorem Good.loop (h : Good s) (hold : Idle (s.pc t)) (hnew : Idle pc) (huses : (s.pc t).uses = none)
    (huses' : pc.uses = none)
    (hhome : ∀ table ∈ pc.tables, s.table t = some table ∨ pc.destroys = some table)
    (hdestroys : ∀ table, pc.destroys = some table → (s.pc t).destroys = some table)
    (hchecks : ∀ y, pc.checks = some y → (s.file y).status ≠ .opened) : Good (s.setPc t pc) := by
  have c : Change s (s.setPc t pc) t pc (0, 0) (s.file (0, 0)) :=
    ⟨rfl, (Function.update_eq_self (0, 0) s.file).symm⟩
  exact h.idle hold hnew huses huses'
    (h.inv.homes.change c rfl rfl hhome hdestroys hchecks fun hst => Or.inl hst)

theorem idle_closeall (table i : ℕ) : Idle (.closeall table i) := ⟨⟨rfl, rfl⟩, rfl, rfl, rfl, rfl⟩

theorem idle_destroy (table i : ℕ) : Idle (.destroy table i) := ⟨⟨rfl, rfl⟩, rfl, rfl, rfl, rfl⟩

theorem idle_destroyCheck (table i : ℕ) : Idle (.destroyCheck table i) :=
  ⟨⟨rfl, rfl⟩, rfl, rfl, rfl, rfl⟩

theorem Good.closeallStep (h : Good s) {i : ℕ} (hpc : s.pc t = .closeall table i) :
    ∃ s', s.closeallStep t table i = some s' ∧ Good s' := by
  have hidle : Idle (s.pc t) := by
    rw [hpc]
    exact idle_closeall table i
  have huses : (s.pc t).uses = none := by rw [hpc]; rfl
  have ht : s.table t = some table := h.inv.table_of_inits (by rw [hpc]; exact List.mem_cons_self) (by rw [hpc]; rfl)
  have hhome : ∀ table' ∈ [table], s.table t = some table' := by
    intro table' hmem
    rw [List.mem_singleton.mp hmem]
    exact ht
  unfold Threads.closeallStep
  split
  · split
    · rename_i hx
      refine h.filemapClose hx hidle huses rfl ?_ nofun nofun
      intro table' hmem
      rcases List.mem_cons.mp hmem with heq | hmem
      · exact Or.inl (heq ▸ ht)
      · exact Or.inl (hhome table' hmem)
    · exact ⟨_, rfl, h.loop hidle (idle_closeall table (i + 1)) huses rfl
        (fun table' hmem => Or.inl (hhome table' hmem)) nofun nofun⟩
  · exact ⟨_, rfl, (h.loop hidle idle_run huses rfl nofun nofun nofun).ret 0⟩

theorem Good.destroyStep (h : Good s) {i : ℕ} (hpc : s.pc t = .destroy table i) :
    ∃ s', s.destroyStep t table i = some s' ∧ Good s' := by
  have hidle : Idle (s.pc t) := by
    rw [hpc]
    exact idle_destroy table i
  have huses : (s.pc t).uses = none := by rw [hpc]; rfl
  have hdestroys : ∀ table', some table = some table' → (s.pc t).destroys = some table' := by
    intro table' heq
    rw [hpc, ← heq]
    rfl
  have hhome : ∀ table' ∈ [table], s.table t = some table' ∨ some table = some table' := by
    intro table' hmem
    exact Or.inr (congrArg some (List.mem_singleton.mp hmem).symm)
  unfold Threads.destroyStep
  split
  · split
    · rename_i hx
      refine h.filemapClose hx hidle huses rfl ?_ hdestroys ?_
      · intro table' hmem
        rcases List.mem_cons.mp hmem with heq | hmem
        · exact Or.inr (congrArg some heq.symm)
        · exact hhome table' hmem
      · exact fun y hy => (Option.some.inj hy).symm
    · rename_i hx
      refine ⟨_, rfl, h.loop hidle (idle_destroyCheck table i) huses rfl hhome hdestroys ?_⟩
      intro y hy
      rw [← Option.some.inj hy]
      exact hx
  · exact ⟨_, rfl, (h.loop hidle idle_run huses rfl nofun nofun nofun).ret 0⟩

/-- A table that is destroyed has no other user. -/
theorem Homes.destroyer (h : Homes s) (hd : (s.pc t).destroys = some table) (hu : table ∈ (s.pc u).tables) :
    u = t := by
  rcases h.home u table hu with hown | hdestroys
  · exact absurd hd (h.not_destroys hown t)
  · exact h.one u t table hdestroys hd

/-- The assertion in `fs_destroy`. -/
theorem Inv.checked (h : Inv s) {i : ℕ} (hpc : s.pc t = .destroyCheck table i) :
    (s.file (table, i)).status = .none := by
  have hd : (s.pc t).destroys = some table := by rw [hpc]; rfl
  have hopened : (s.file (table, i)).status ≠ .opened := h.homes.checked t (table, i) (by rw [hpc]; rfl)
  have hno : ∀ u, ¬ (s.pc u).Owns (table, i) := by
    intro u hu
    have hut := h.homes.destroyer hd (Pc.tables_of_owns hu)
    rw [hut, hpc] at hu
    exact not_owns_nil rfl rfl _ hu
  have hflight : s.inFlight (table, i) = 0 := by
    refine (occ_eq_zero (h.support.pcs.subset fun u hu => ?_)).mpr fun u hu => ?_
    · show s.pc u ≠ .run
      intro hrun
      rw [Set.mem_ofPred_eq, hrun] at hu
      cases hu
    · obtain ⟨hmem, hnone⟩ := Pc.tables_of_uses hu
      have hut := h.homes.destroyer hd hmem
      rw [hut, hd] at hnone
      cases hnone
  have hcount := h.counts.count (table, i)
  rw [hflight, if_neg hopened] at hcount
  by_contra hne
  have hown := h.owners.owner (table, i)
  cases hst : (s.file (table, i)).status with
  | none => exact hne hst
  | opened => exact hopened hst
  | init =>
    obtain ⟨u, hu⟩ := hown (Or.inl hst)
    exact hno u hu
  | closed =>
    obtain ⟨u, hu⟩ := hown (Or.inr ⟨hst, hcount⟩)
    exact hno u hu

theorem Good.destroyCheck (h : Good s) {i : ℕ} (hpc : s.pc t = .destroyCheck table i) :
    Good (s.setPc t (.destroy table (i + 1))) := by
  refine h.loop ?_ (idle_destroy table (i + 1)) ?_ rfl ?_ ?_ nofun
  · rw [hpc]
    exact idle_destroyCheck table i
  · rw [hpc]
    rfl
  · intro table' hmem
    exact Or.inr (congrArg some (List.mem_singleton.mp hmem).symm)
  · intro table' heq
    rw [hpc]
    exact heq

/-! ## Tables of processes -/

/-- A new thread with the table. -/
theorem Good.join (h : Good s) (hu : s.table u = none)
    (hno : ∀ v, (s.pc v).destroys ≠ some table) : Good (s.join u table) := by
  have hmem : ∀ v table', s.table v = some table' → (s.join u table).table v = some table' := by
    intro v table' hv
    show Function.update s.table u _ v = _
    rw [Function.update_of_ne fun heq => by rw [heq, hu] at hv; cases hv]
    exact hv
  refine h.retable ⟨?_, fun table' => ?_, fun v table' hv => ?_, fun v table' hv => ?_, h.inv.homes.one,
    h.inv.homes.checked⟩
  · refine (h.inv.homes.members.insert u).subset fun v hv => ?_
    by_cases hvu : v = u
    · exact Or.inl hvu
    · refine Or.inr ?_
      show s.table v ≠ none
      rw [← show (s.join u table).table v = s.table v from Function.update_of_ne hvu ..]
      exact hv
  · have hocc := occ_change (a := u) (b := some table) (m := table') h.inv.homes.members
    rw [hu] at hocc
    have hold := h.inv.homes.fsCount table'
    show Function.update s.fsCount table (s.fsCount table + 1) table' = occ (Function.update s.table u _) _
    by_cases heq : table' = table
    · subst heq
      rw [Function.update_self]
      simp at hocc
      omega
    · have hne : table ≠ table' := fun h => heq h.symm
      rw [Function.update_of_ne heq]
      simp [hne] at hocc
      omega
  · exact (h.inv.homes.home v table' hv).imp_left (hmem v table')
  · show Function.update s.fsCount table _ table' = 0
    have hne : table' ≠ table := fun heq => by
      rw [heq] at hv
      exact hno v hv
    rw [Function.update_of_ne hne]
    exact h.inv.homes.destroys v table' hv

/-- `put_fs` up to the decision to destroy the table. -/
def leaveTable (s : Threads) (t table : ℕ) : Threads :=
  { s with
    fsCount := Function.update s.fsCount table (s.fsCount table - 1)
    table := Function.update s.table t none }

theorem Good.leaveTable (h : Good s) (hrun : s.pc t = .run) (ht : s.table t = some table) :
    Good (s.leaveTable t table) := by
  have hno := h.inv.homes.not_destroys ht
  refine h.retable ⟨?_, fun table' => ?_, fun v table' hv => ?_, fun v table' hv => ?_, h.inv.homes.one,
    h.inv.homes.checked⟩
  · refine h.inv.homes.members.subset fun v hv => ?_
    show s.table v ≠ none
    by_cases hvt : v = t
    · rw [hvt, ht]
      nofun
    · rw [← show (s.leaveTable t table).table v = s.table v from Function.update_of_ne hvt ..]
      exact hv
  · have hocc := occ_change (a := t) (b := none) (m := table') h.inv.homes.members
    rw [ht] at hocc
    have hold := h.inv.homes.fsCount table'
    show Function.update s.fsCount table (s.fsCount table - 1) table' = occ (Function.update s.table t _) _
    by_cases heq : table' = table
    · subst heq
      rw [Function.update_self]
      simp at hocc
      omega
    · have hne : table ≠ table' := fun h => heq h.symm
      rw [Function.update_of_ne heq]
      simp [hne] at hocc
      omega
  · have hvt : v ≠ t := fun heq => by
      have hv : table' ∈ (s.pc v).tables := hv
      rw [heq, hrun] at hv
      cases hv
    refine (h.inv.homes.home v table' hv).imp_left fun hv => ?_
    show Function.update s.table t _ v = _
    rw [Function.update_of_ne hvt]
    exact hv
  · show Function.update s.fsCount table _ table' = 0
    have hne : table' ≠ table := fun heq => by
      rw [heq] at hv
      exact hno v hv
    rw [Function.update_of_ne hne]
    exact h.inv.homes.destroys v table' hv

theorem Good.putFs (h : Good s) (hrun : s.pc t = .run) (ht : s.table t = some table) :
    ∃ s', s.putFs t = some s' ∧ Good s' := by
  have hleave := h.leaveTable hrun ht
  have heq : s.putFs t = if (s.leaveTable t table).fsCount table = 0 then
      some ((s.leaveTable t table).setPc t (.destroy table 0)) else some (s.leaveTable t table) := by
    unfold Threads.putFs
    rw [ht]
    rfl
  rw [heq]
  split
  · rename_i hzero
    refine ⟨_, rfl, hleave.idle ?_ (idle_destroy table 0) ?_ rfl ?_⟩
    · rw [show (s.leaveTable t table).pc t = .run from hrun]
      exact idle_run
    · rw [show (s.leaveTable t table).pc t = .run from hrun]
      rfl
    · -- the thread is the only one that destroys the table
      have hpc : ∀ v table', (((s.leaveTable t table).setPc t (.destroy table 0)).pc v).destroys = some table' →
          v = t ∧ table' = table ∨ v ≠ t ∧ (s.pc v).destroys = some table' := by
        intro v table' hv
        by_cases hvt : v = t
        · rw [hvt, setPc_self] at hv
          exact Or.inl ⟨hvt, (Option.some.inj hv).symm⟩
        · rw [show ((s.leaveTable t table).setPc t (.destroy table 0)).pc v = s.pc v from
            Function.update_of_ne hvt ..] at hv
          exact Or.inr ⟨hvt, hv⟩
      have hno := h.inv.homes.not_destroys ht
      refine ⟨hleave.inv.homes.members, hleave.inv.homes.fsCount, fun v table' hv => ?_, fun v table' hv => ?_,
        fun v w table' hv hw => ?_, fun v y hv => ?_⟩
      · by_cases hvt : v = t
        · rw [hvt, setPc_self] at hv ⊢
          exact Or.inr (congrArg some (List.mem_singleton.mp hv).symm)
        · rw [show ((s.leaveTable t table).setPc t (.destroy table 0)).pc v = s.pc v from
            Function.update_of_ne hvt ..] at hv ⊢
          exact hleave.inv.homes.home v table' hv
      · rcases hpc v table' hv with ⟨-, rfl⟩ | ⟨-, hv⟩
        · exact hzero
        · exact hleave.inv.homes.destroys v table' hv
      · rcases hpc v table' hv with ⟨hvt, hvd⟩ | ⟨-, hv⟩
        · rcases hpc w table' hw with ⟨hwt, -⟩ | ⟨-, hw⟩
          · rw [hvt, hwt]
          · exact absurd (hvd ▸ hw) (hno w)
        · rcases hpc w table' hw with ⟨-, hwd⟩ | ⟨-, hw⟩
          · exact absurd (hwd ▸ hv) (hno v)
          · exact h.inv.homes.one v w table' hv hw
      · by_cases hvt : v = t
        · rw [hvt, setPc_self] at hv
          cases hv
        · rw [show ((s.leaveTable t table).setPc t (.destroy table 0)).pc v = s.pc v from
            Function.update_of_ne hvt ..] at hv
          exact hleave.inv.homes.checked v y hv
  · exact ⟨_, rfl, hleave⟩

/-- `dup_fs`, from some index on. -/
theorem Good.dupFiles (dst src : ℕ) (l : List ℕ) (hl : l.Nodup) :
    ∀ s : Threads, Good s → (∀ i ∈ l, (s.file (dst, i)).status = .none) →
      (∀ u, (s.pc u).destroys ≠ some dst) →
      ∃ s', l.foldlM (fun s i => Threads.dupFile s dst src i) s = some s' ∧ Good s' ∧ s'.pc = s.pc ∧
        s'.table = s.table ∧ s'.fsCount = s.fsCount := by
  induction l with
  | nil =>
    intro s h _ _
    exact ⟨s, rfl, h, rfl, rfl, rfl⟩
  | cons i l ih =>
    intro s h hnone hno
    have hnodup := List.nodup_cons.mp hl
    have hrest : ∀ j ∈ l, (s.file (dst, j)).status = .none := fun j hj =>
      hnone j (List.mem_cons_of_mem i hj)
    rw [List.foldlM_cons]
    by_cases hx : (s.file (src, i)).status = .opened
    · have hi := hnone i List.mem_cons_self
      obtain ⟨s₁, hrun, hgood, hpc, htable, hcount, hfile⟩ := h.dup (y := (dst, i)) hi hx hno
        (f := { s.file (dst, i) with status := .init }) rfl rfl
      obtain ⟨s', hrun', hgood', hpc', htable', hcount'⟩ := ih hnodup.2 s₁ hgood (fun j hj => by
        rw [hfile (dst, j) fun heq => hnodup.1 ((Prod.mk.inj heq).2 ▸ hj)]
        exact hrest j hj) (by rw [hpc]; exact hno)
      refine ⟨s', ?_, hgood', hpc'.trans hpc, htable'.trans htable, hcount'.trans hcount⟩
      rw [show Threads.dupFile s dst src i = some s₁ by
        unfold Threads.dupFile
        rw [if_pos hx]
        exact hrun]
      exact hrun'
    · obtain ⟨s', hrun', hgood'⟩ := ih hnodup.2 s h hrest hno
      refine ⟨s', ?_, hgood'⟩
      rw [show Threads.dupFile s dst src i = some s by
        unfold Threads.dupFile
        rw [if_neg hx]]
      exact hrun'

theorem Good.copyFs (h : Good s) (ht : s.table t = some table)
    (hu : s.table u = none) {dst : Option ℕ} (hnew : ∀ table, dst = some table → s.NewTable table) :
    ∃ s', s.copyFs t u dst = some s' ∧ Good s' := by
  cases dst with
  | none =>
    refine ⟨s.join u table, ?_, h.join hu (h.inv.homes.not_destroys ht)⟩
    unfold Threads.copyFs
    rw [ht]
    rfl
  | some dst =>
    have hnew := hnew dst rfl
    have hpos := Nat.pos_of_ne_zero (h.inv.homes.fsCount_ne ht)
    obtain ⟨s', hfold, hgood, hpc, htable, hcount⟩ := Good.dupFiles dst table
      (List.range FS_STRUCT_NENTRY) List.nodup_range s h (fun i _ => (hnew.file i).1) hnew.destroys
    refine ⟨s'.join u dst, ?_, hgood.join (by rw [htable]; exact hu) (by
      rw [hpc]; exact hnew.destroys)⟩
    have hdup : s.dupFs dst table = some s' := by
      unfold Threads.dupFs
      rw [guard, if_pos ⟨hnew.fsCount, hpos⟩]
      exact hfold
    unfold Threads.copyFs
    rw [ht]
    dsimp only [Option.bind_eq_bind, Option.bind_some]
    rw [hdup]
    rfl

/-! ## Inodes and other code -/

/-- Other code takes or makes an inode. -/
theorem Good.inode (h : Good s) {o : ℕ} (hcount : i.openCount = (s.inode n).openCount)
    (href : i.refCount + s.others n = (s.inode n).refCount + o)
    (hok : ∀ r d, (s.inode n).Ok r d → i.Ok r d) :
    Good { s.setInode n i with others := Function.update s.others n o } := by
  have hinode : ∀ m, (s.setInode n i).inode m = if m = n then i else s.inode m := fun m =>
    Function.update_apply s.inode n i m
  refine ⟨⟨⟨h.inv.support.pcs, h.inv.support.files⟩, ⟨h.inv.counts.count, h.inv.counts.idle, h.inv.counts.node⟩,
    ⟨fun m => ?_, fun m => ?_⟩, fun m => ?_,
    ⟨h.inv.owners.init, h.inv.owners.freed, h.inv.owners.one, h.inv.owners.nodup, h.inv.owners.owner⟩,
    ⟨h.inv.homes.members, h.inv.homes.fsCount, h.inv.homes.home, h.inv.homes.destroys, h.inv.homes.one,
      h.inv.homes.checked⟩⟩, h.lived⟩
  · have hold : _ = s.openFiles m + s.opening m := h.inv.refs.opens m
    show ((s.setInode n i).inode m).openCount = s.openFiles m + s.opening m
    rw [hinode]
    split
    · rename_i hm
      rw [hcount, ← hm]
      exact hold
    · exact hold
  · have hold : _ = s.openFiles m + s.opening m + s.referring m + s.others m := h.inv.refs.refs m
    show ((s.setInode n i).inode m).refCount =
      s.openFiles m + s.opening m + s.referring m + Function.update s.others n o m
    rw [hinode]
    by_cases hm : m = n
    · subst hm
      rw [if_pos rfl, Function.update_self]
      omega
    · rw [if_neg hm, Function.update_of_ne hm]
      exact hold
  · show ((s.setInode n i).inode m).Ok (s.reclaiming m) (s.dying m)
    rw [hinode]
    split
    · rename_i hm
      rw [hm]
      exact hok _ _ (h.inv.lives n)
    · exact h.inv.lives m

theorem Good.create (h : Good s) (halive : (s.inode n).alive = false) (kind : Kind) :
    Good { s.vopInit n kind with others := Function.update s.others n (s.others n + 1) } := by
  have href : (s.inode n).refCount = 0 := by
    by_contra hne
    have htrue := (h.inv.lives n).alive_of_ref (Nat.pos_of_ne_zero hne)
    rw [halive] at htrue
    cases htrue
  have hopen := h.inv.refs.open_le n
  refine h.inode (i := ⟨kind, 1, 0, 1, true, false⟩) (by dsimp only; omega) (by dsimp only; omega) ?_
  exact fun r d hok => hok.init halive kind

theorem Good.found (h : Good s) (halive : (s.inode n).alive = true) (hdying : (s.inode n).dying = false)
    (hpipe : (s.inode n).kind = .pipe → 0 < (s.inode n).refCount) :
    Good { s.found n with others := Function.update s.others n (s.others n + 1) } := by
  refine h.inode rfl ?_ fun r d hok => hok.found halive hdying hpipe
  dsimp only
  omega

/-- A reference goes from other code to a thread. -/
theorem Good.take (h : Good s) (hpos : 0 < s.others n) (hsame : pc.Same (s.pc t)) (hold : Calm (s.pc t))
    (hnew : Calm pc) (hopens : (s.pc t).opens = none) (hopens' : pc.opens = none) (hrefs : (s.pc t).refs = none)
    (hrefs' : pc.refs = some n) :
    Good ({ s with others := Function.update s.others n (s.others n - 1) }.setPc t pc) := by
  have hmove := h.inv.moveInode (n := n) (i := s.inode n) (o := s.others n - 1) hsame ?_ ?_ ?_ ?_ ?_
  · unfold Threads.setInode at hmove
    rw [Function.update_eq_self] at hmove
    exact ⟨hmove, h.lived⟩
  · intro m _
    simp [hopens, hrefs, hold.reclaims, hold.dies]
  · intro m hm
    simp [hopens', hrefs', hnew.reclaims, hnew.dies, hm.symm]
  · rw [hopens, hopens']
  · rw [hopens, hopens', hrefs, hrefs']
    simp
    omega
  · intro r d r' d' hok hr hd
    rw [hold.reclaims, hnew.reclaims] at hr
    rw [hold.dies, hnew.dies] at hd
    rw [show r' = r by omega, show d' = d by omega]
    exact hok

/-! ## Steps -/

/-- A thread goes on. -/
theorem Good.go (h : Good s) {env : Env} (hen : s.Enabled (.go env t)) :
    ∃ s', s.go env t = some s' ∧ Good s' := by
  unfold Threads.go
  unfold Enabled at hen
  dsimp only at hen
  cases hpc : s.pc t with
  | run =>
    rw [hpc] at hen
    exact hen.elim
  | lookup x flags =>
    rw [hpc] at hen
    dsimp only
    split
    · exact ⟨_, rfl, h.move_of hpc ⟨rfl, rfl, rfl, rfl, rfl, rfl⟩ rfl rfl rfl rfl⟩
    · split
      · exact ⟨_, rfl, h.move_of hpc ⟨rfl, rfl, rfl, rfl, rfl, rfl⟩ rfl rfl rfl rfl⟩
      · rename_i hret
        refine ⟨_, rfl, h.take (hen (not_not.mp hret)) ?_ ?_ ⟨rfl, rfl⟩ ?_ rfl ?_ rfl⟩ <;> rw [hpc]
        · exact ⟨rfl, rfl, rfl, rfl, rfl, rfl⟩
        · exact ⟨rfl, rfl⟩
        all_goals rfl
  | vopOpen x flags n =>
    dsimp only
    split
    · exact ⟨_, rfl, h.move_of hpc ⟨rfl, rfl, rfl, rfl, rfl, rfl⟩ rfl rfl rfl rfl⟩
    · exact h.vfsOpen hpc
  | truncate x flags n =>
    dsimp only
    split
    · exact ⟨_, rfl, h.move_of hpc ⟨rfl, rfl, rfl, rfl, rfl, rfl⟩ rfl rfl rfl rfl⟩
    · exact h.vfsOpened hpc
  | fstat x flags n =>
    dsimp only
    split
    · exact ⟨_, rfl, h.move_of hpc ⟨rfl, rfl, rfl, rfl, rfl, rfl⟩ rfl rfl rfl rfl⟩
    · exact h.fileOpened (Or.inr hpc) _
  | pipe x y =>
    rw [hpc] at hen
    dsimp only
    split
    · exact ⟨_, rfl, h.move_of hpc ⟨rfl, rfl, rfl, rfl, rfl, rfl⟩ rfl rfl rfl rfl⟩
    · rename_i hret
      obtain ⟨hne, hr, hw⟩ := hen (not_not.mp hret)
      exact h.filePiped hpc hne hr hw
  | io x op => exact h.ioEnd hpc env
  | vfsClose n after => exact h.openDec hpc
  | vopClose n after => exact ⟨_, rfl, h.move_of hpc ⟨rfl, rfl, rfl, rfl, rfl, rfl⟩ rfl rfl rfl rfl⟩
  | refDec n after => exact h.refDec hpc
  | reclaim n after => exact h.vopReclaim hpc
  | dying n after =>
    obtain ⟨hkill, hback⟩ := h.dying hpc
    dsimp only
    split
    · exact hkill
    · exact ⟨_, rfl, hback⟩
  | free x next => exact h.free hpc
  | freed x next => exact ⟨_, rfl, h.freed hpc⟩
  | closeall table i => exact h.closeallStep hpc
  | destroy table i => exact h.destroyStep hpc
  | destroyCheck table i =>
    dsimp only
    rw [guard, if_pos (h.inv.checked hpc)]
    exact ⟨_, rfl, h.destroyCheck hpc⟩

/-- Every step keeps the invariants, and none of its assertions fails. -/
theorem Good.step (h : Good s) {a : Action} (hen : s.Enabled a) : ∃ s', s.step a = some s' ∧ Good s' := by
  cases a with
  | «open» t flags =>
    obtain ⟨table, ht⟩ := Option.ne_none_iff_exists'.mp hen.2
    exact h.fileOpen hen.1 ht flags
  | close t fd =>
    obtain ⟨table, ht⟩ := Option.ne_none_iff_exists'.mp hen.2
    exact h.fileClose hen.1 ht fd
  | read t fd =>
    obtain ⟨table, ht⟩ := Option.ne_none_iff_exists'.mp hen.2
    exact h.fileRead hen.1 ht fd
  | write t fd =>
    obtain ⟨table, ht⟩ := Option.ne_none_iff_exists'.mp hen.2
    exact h.fileWrite hen.1 ht fd
  | seek t fd pos whence =>
    obtain ⟨table, ht⟩ := Option.ne_none_iff_exists'.mp hen.2
    exact h.fileSeek hen.1 ht fd pos whence
  | dup t fd1 fd2 =>
    obtain ⟨table, ht⟩ := Option.ne_none_iff_exists'.mp hen.2
    exact h.fileDup hen.1 ht fd1 fd2
  | pipe t =>
    obtain ⟨table, ht⟩ := Option.ne_none_iff_exists'.mp hen.2
    exact h.filePipe hen.1 ht
  | closeall t =>
    obtain ⟨hrun, ht⟩ := hen
    obtain ⟨table, ht⟩ := Option.ne_none_iff_exists'.mp ht
    unfold Threads.step
    dsimp only
    rw [h.inv.getFilemap ht]
    refine ⟨_, rfl, h.loop ?_ (idle_closeall table 2) ?_ rfl ?_ nofun nofun⟩
    · rw [hrun]
      exact idle_run
    · rw [hrun]
      rfl
    · intro table' hmem
      rw [List.mem_singleton.mp hmem]
      exact Or.inl ht
  | fork t u dst =>
    obtain ⟨-, ht, -, hu, hnew⟩ := hen
    obtain ⟨table, ht⟩ := Option.ne_none_iff_exists'.mp ht
    exact h.copyFs ht hu hnew
  | exit t =>
    obtain ⟨table, ht⟩ := Option.ne_none_iff_exists'.mp hen.2
    exact h.putFs hen.1 ht
  | go env t => exact h.go hen
  | create n kind => exact ⟨_, rfl, h.create hen kind⟩
  | found n => exact ⟨_, rfl, h.found hen.1 hen.2.1 hen.2.2⟩
  | drop t n =>
    obtain ⟨hrun, hpos⟩ := hen
    refine ⟨_, rfl, h.take hpos ?_ ?_ ⟨rfl, rfl⟩ ?_ rfl ?_ rfl⟩ <;> rw [hrun]
    · exact ⟨rfl, rfl, rfl, rfl, rfl, rfl⟩
    · exact ⟨rfl, rfl⟩
    all_goals rfl

theorem occ_none {α β : Type} [DecidableEq β] (b : β) : occ (fun _ : α => none) (· = some b) = 0 :=
  (occ_eq_zero (Set.finite_empty.subset fun _ hx => by cases hx)).mpr fun _ hx => by cases hx

theorem boot_good : Good .boot := by
  refine ⟨⟨⟨?_, ?_⟩, ⟨?_, ?_, ?_⟩, ⟨?_, ?_⟩, ?_, ⟨?_, ?_, ?_, ?_, ?_⟩, ⟨?_, ?_, ?_, ?_, ?_, ?_⟩⟩, fun _ => rfl⟩
  · exact Set.finite_empty.subset fun t ht => ht rfl
  · exact Set.finite_empty.subset fun x hx => hx rfl
  · intro x
    show 0 = 0 + occ (fun _ : ℕ => none) _
    rw [occ_none]
  · exact fun _ _ => rfl
  · rintro x (hx | hx)
    · cases hx
    · cases hx
  · intro n
    show 0 = occ (fun _ : Slot => none) _ + occ (fun _ : ℕ => none) _
    rw [occ_none, occ_none]
  · intro n
    show 0 = occ (fun _ : Slot => none) _ + occ (fun _ : ℕ => none) _ + occ (fun _ : ℕ => none) _ + 0
    rw [occ_none, occ_none]
  · intro n
    show Inode.Ok _ (occ (fun _ : ℕ => none) _) (occ (fun _ : ℕ => none) _)
    rw [occ_none]
    exact ⟨rfl, rfl, rfl, rfl⟩
  · exact fun t x hx => by cases hx
  · exact fun t x hx => by cases hx
  · rintro t u x (hx | hx)
    · cases hx
    · cases hx
  · exact fun t => List.nodup_nil
  · rintro x (hx | ⟨hx, -⟩)
    · cases hx
    · cases hx
  · refine (Set.finite_singleton 0).subset fun t ht => Set.mem_singleton_iff.mpr ?_
    by_contra hne
    refine ht ?_
    show Function.update (fun _ => none) 0 (some 0) t = none
    rw [Function.update_of_ne hne]
  · intro table
    have hocc := occ_change (g := fun _ : ℕ => none) (a := 0) (b := some 0) (m := table)
      (Set.finite_empty.subset fun t ht => ht rfl)
    rw [occ_none] at hocc
    show Function.update (fun _ => 0) 0 1 table = occ (Function.update _ 0 (some 0)) _
    by_cases heq : table = 0
    · subst heq
      simp at hocc
      rw [hocc]
      rfl
    · have hne : (0 : ℕ) ≠ table := fun h => heq h.symm
      rw [Function.update_of_ne heq]
      simp [hne] at hocc
      exact hocc.symm
  · exact fun t table hmem => by cases hmem
  · exact fun t table hd => by cases hd
  · exact fun t u table hd => by cases hd
  · exact fun t x hx => by cases hx

/-- What `open_count` of a file is. -/
def CountOk (s : Threads) (x : Slot) : Prop :=
  match (s.file x).status with
  | .none | .init => (s.file x).openCount = 0
  | .opened => (s.file x).openCount = 1 + s.inFlight x
  | .closed => (s.file x).openCount = s.inFlight x ∧
      ((s.file x).openCount = 0 → ∃ t, x ∈ (s.pc t).frees)

theorem Inv.countOk (h : Inv s) (x : Slot) : s.CountOk x := by
  have hcount := h.counts.count x
  unfold CountOk
  cases hst : (s.file x).status with
  | none => exact h.counts.idle x (Or.inl hst)
  | init => exact h.counts.idle x (Or.inr hst)
  | opened =>
    rw [hst] at hcount
    exact hcount
  | closed =>
    rw [hst, if_neg nofun, Nat.zero_add] at hcount
    refine ⟨hcount, fun hzero => ?_⟩
    obtain ⟨t, ht | ht⟩ := h.owners.owner x (Or.inr ⟨hst, hzero⟩)
    · have hinit := h.owners.init t x ht
      rw [hst] at hinit
      cases hinit
    · exact ⟨t, ht⟩

end Threads

open Threads

theorem Reaches.good {s : Threads} (h : Reaches s) : s.Good := by
  induction h with
  | boot => exact boot_good
  | step a _ hen hrun ih =>
    obtain ⟨s', hrun', hgood⟩ := ih.step hen
    rw [hrun] at hrun'
    cases hrun'
    exact hgood

/-- **The file table.**  `open_count` of a file counts the descriptor and the operations in flight; a
descriptor is opened, used and closed, and then `vfs_close` is called once; `open_count` of an inode counts
the files that refer to it and the calls on the way to or from one; and no assertion fails. -/
theorem file_table {s : Threads} (h : Reaches s) :
    (∀ x, s.CountOk x) ∧
    (∀ x, lifeOf x s.log = some (s.file x).life) ∧
    (∀ n, (s.inode n).openCount = s.openFiles n + s.opening n ∧
      (s.inode n).openCount ≤ (s.inode n).refCount) ∧
    ∀ a, s.Enabled a → s.step a ≠ none := by
  refine ⟨h.good.inv.countOk, h.good.lived, fun n => ⟨h.good.inv.refs.opens n, h.good.inv.refs.open_le n⟩,
    fun a hen => ?_⟩
  obtain ⟨s', hrun, -⟩ := h.good.step hen
  rw [hrun]
  nofun

/-- A file system answers that all is well. -/
def quietEnv : Env := ⟨0, 0, 0, 0, 1, 2⟩

/-- One thread closes the file that another one reads. -/
theorem file_table_read_closed : ∃ s, Reaches s ∧ (s.file (0, 0)).status = .closed ∧ (s.file (0, 0)).openCount = 1 ∧
    s.CountOk (0, 0) := by
  have h₁ : Reaches _ := .step (.create 1 .sfs) .boot rfl rfl
  have h₂ := h₁.step (.open 0 0) ⟨rfl, nofun⟩ rfl
  have h₃ := h₂.step (.go quietEnv 0) (fun _ => Nat.zero_lt_one) rfl
  have h₄ := h₃.step (.go quietEnv 0) trivial rfl
  have h₅ := h₄.step (.fork 0 1 none) ⟨rfl, nofun, rfl, rfl, nofun⟩ rfl
  have h₆ := h₅.step (.read 1 0) ⟨rfl, nofun⟩ rfl
  have h₇ := h₆.step (.close 0 0) ⟨rfl, nofun⟩ rfl
  exact ⟨_, h₇, rfl, rfl, (file_table h₇).1 (0, 0)⟩

/-- While `file_close` waits in `vop_close`, the file is `FD_CLOSED` with nothing in flight, and its inode
is no longer open. -/
theorem file_table_closing : ∃ s n, Reaches s ∧ s.pc 0 = .vopClose n (.freed (0, 0) (.ret 0)) ∧
    (s.file (0, 0)).status = .closed ∧ (s.file (0, 0)).openCount = 0 ∧ (s.file (0, 0)).node = some n ∧
    (s.inode n).openCount = 0 := by
  have h₁ : Reaches _ := .step (.create 1 .sfs) .boot rfl rfl
  have h₂ := h₁.step (.open 0 0) ⟨rfl, nofun⟩ rfl
  have h₃ := h₂.step (.go quietEnv 0) (fun _ => Nat.zero_lt_one) rfl
  have h₄ := h₃.step (.go quietEnv 0) trivial rfl
  have h₅ := h₄.step (.close 0 0) ⟨rfl, nofun⟩ rfl
  have h₆ := h₅.step (.go quietEnv 0) trivial rfl
  exact ⟨_, 1, h₆, rfl, rfl, rfl, rfl, rfl⟩

end Ucore.Vfs
