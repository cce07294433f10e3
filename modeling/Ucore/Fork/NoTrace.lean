import Ucore.Fork.CopyFs
import Ucore.Fork.CopyMm
import Ucore.Mm.Resolve
import Ucore.Proc.Pid
import Ucore.Proc.TableRun

/-!
# A failed `do_fork` leaves no trace

* `Ok` — the state of the kernel in which a process may call `do_fork`;
* `AsBefore` — what does not change, which is everything but the parent's time slice and the write bit of
  its private page table entries;
* `forkCopy_spec` — the copies are undone in the opposite order, up to the kernel stack;
* `do_fork_failed` — a `do_fork` that returns an error leaves the kernel as it was.
-/

namespace Ucore

namespace Process

/-- The tables have the same processes, with the same fields. -/
structure Table.SameAs (s s' : Table) : Prop where
  live : s'.live = s.live
  procList : s'.procList = s.procList
  hashList : s'.hashList = s.hashList
  nrProcess : s'.nrProcess = s.nrProcess
  nextSafe : s'.nextSafe = s.nextSafe
  lastPid : s'.lastPid = s.lastPid
  idleproc : s'.idleproc = s.idleproc
  initproc : s'.initproc = s.initproc
  state : ∀ a, s.live a = true → s'.state a = s.state a ∧ s'.pid a = s.pid a ∧ s'.exiting a = s.exiting a ∧
    s'.exitCode a = s.exitCode a ∧ s'.waitState a = s.waitState a ∧ s'.pc a = s.pc a
  links : ∀ a, s.live a = true → s'.parent a = s.parent a ∧ s'.cptr a = s.cptr a ∧ s'.yptr a = s.yptr a ∧
    s'.optr a = s.optr a ∧ s'.nextThread a = s.nextThread a ∧ s'.prevThread a = s.prevThread a

section table

variable {s s' s'' : Table} {p c a : ℕ} {cloneFlags : UInt32}

theorem Table.SameAs.refl (s : Table) : s.SameAs s :=
  ⟨rfl, rfl, rfl, rfl, rfl, rfl, rfl, rfl, fun _ _ => ⟨rfl, rfl, rfl, rfl, rfl, rfl⟩,
    fun _ _ => ⟨rfl, rfl, rfl, rfl, rfl, rfl⟩⟩

/-- The structure of the child comes and goes. -/
theorem Table.fork_failed (hc : s.live c = false) (hpc : s.pc p = .run) (hbegin : s.forkBegin p c = some s')
    (hfail : s'.forkFail p c = some s'') : s.SameAs s'' := by
  unfold forkBegin at hbegin
  dsimp only at hbegin
  split at hbegin
  swap
  · cases hbegin
  cases hbegin
  unfold forkFail kfree at hfail
  obtain ⟨u, hkfree, heq⟩ := Option.bind_eq_some_iff.mp hfail
  cases heq
  rw [if_pos (by simp [allocProc, setPc])] at hkfree
  cases hkfree
  have hne : ∀ a, s.live a = true → a ≠ c := by
    rintro a ha rfl
    rw [hc] at ha
    cases ha
  refine ⟨?_, rfl, rfl, rfl, rfl, rfl, rfl, rfl, fun a ha => ?_, fun a ha => ?_⟩
  · show Function.update (Function.update s.live c true) c false = s.live
    rw [Function.update_idem, ← hc, Function.update_eq_self]
  · have hpc' : Function.update (Function.update s.pc p (.fork c)) p .run a = s.pc a := by
      rw [Function.update_idem, ← hpc, Function.update_eq_self]
    refine ⟨?_, ?_, ?_, ?_, ?_, hpc'⟩ <;> simp [allocProc, setPc, hne a ha]
  · simp [allocProc, setPc, hne a ha]

theorem Table.wakeupProc_pid (hrun : s.wakeupProc p = some s') : s'.pid = s.pid := by
  unfold wakeupProc at hrun
  split at hrun
  · cases hrun
  split at hrun
  · cases hrun
    rfl
  · cases hrun
    rfl

theorem Table.forkBegin_lastPid (hbegin : s.forkBegin p c = some s') : s'.lastPid = s.lastPid := by
  unfold forkBegin at hbegin
  dsimp only at hbegin
  split at hbegin
  · cases hbegin
    rfl
  · cases hbegin

/-- A child has a positive pid. -/
theorem Table.forkEnd_pid (hlast : 1 ≤ s.lastPid) (hrun : s.forkEnd p c cloneFlags = some s') : 1 ≤ s'.pid c := by
  unfold forkEnd at hrun
  obtain ⟨⟨last, next⟩, hpid, hrest⟩ := Option.bind_eq_some_iff.mp hrun
  obtain ⟨s₁, hlinks, hrest⟩ := Option.bind_eq_some_iff.mp hrest
  obtain ⟨s₂, hwake, hend⟩ := Option.bind_eq_some_iff.mp hrest
  cases hend
  have hpid₁ : s₁.pid c = last := by
    obtain ⟨_, -, rfl⟩ := Option.map_eq_some_iff.mp hlinks
    simp [hashProc]
  have hpid₂ : s₂.pid = s₁.pid := by
    rw [wakeupProc_pid hwake]
    split <;> rfl
  show 1 ≤ s₂.pid c
  rw [hpid₂, hpid₁]
  exact getPid_pos hlast hpid

end table

end Process

namespace Fork

open Process (Table)
open Sys (Reverted)

/-- A kernel in which the process `p` may call `do_fork`: what the process has is there and has references,
and page tables belong to address spaces. -/
structure Ok (k : Kernel) (p : ℕ) : Prop where
  paging : k.mem.Paging
  dirs : ∀ m idx, k.mem.pde m idx ≠ none → k.kobj.mmAt m ≠ none
  procs : ∀ a, k.table.live a = true → k.kobj a ≠ none
  running : k.table.pc p = .run
  lastPid : 1 ≤ k.table.lastPid
  semQueue : ∀ x q, k.current p = some x → x.semQueue = some q → QueueOk k.kobj q
  fsStruct : ∀ x f, k.current p = some x → x.fsStruct = some f → FsOk k.kobj f
  mm : ∀ x mm, k.current p = some x → x.mm = some mm → MmOk k.kobj mm

/-- The private page table entries of the process. -/
def Kernel.PrivatePte (k : Kernel) (p : ℕ) (y : Loc) : Prop := ∃ x, k.current p = some x ∧ PrivateOf k.kobj x.mm y

/-- The kernel is as it was, but for the time slice and the private page table entries of `p`. -/
structure AsBefore (p : ℕ) (k k' : Kernel) : Prop where
  table : k.table.SameAs k'.table
  kobj : k'.kobj = k.kobj ∨ ∃ c x n, k.kobj p = some ⟨c, .proc x⟩ ∧
    k'.kobj = Function.update k.kobj p (some ⟨c, .proc { x with timeSlice := n }⟩)
  mem : Reverted k.mem k'.mem (k.PrivatePte p)
  procMmList : k'.procMmList = k.procMmList

section copy

variable {k k' : Kernel} {h h' : Heap} {o : Oracle} {p c kstack mm : ℕ} {cloneFlags : UInt32} {x : Resources}
  {ret : Int} {old : Option ℕ} {y : Loc}

theorem AsBefore.refl (p : ℕ) (k : Kernel) : AsBefore p k k := ⟨.refl _, Or.inl rfl, .refl .., rfl⟩

theorem current_eq_some (hx : k.current p = some x) : ∃ d, k.kobj p = some ⟨d, .proc x⟩ := by
  unfold Kernel.current at hx
  split at hx
  · rename_i d z hz
    cases hx
    exact ⟨d, hz⟩
  · cases hx

theorem mmAt_grown (hg : Grown h h') (hm : h.mmAt mm ≠ none) : h'.mmAt mm ≠ none := by
  unfold Heap.mmAt at hm
  split at hm
  · rename_i hx
    obtain ⟨d, -, hx'⟩ := hg _ _ hx nofun
    unfold Heap.mmAt
    rw [hx']
    nofun
  · exact absurd rfl hm

theorem PrivateOf.of_grown (hg : Grown h h') (hok : ∀ mm, old = some mm → MmOk h mm) (hy : PrivateOf h' old y) :
    PrivateOf h old y := by
  obtain ⟨mm, c, x, hmm, hx, hy⟩ := hy
  obtain ⟨d, x', hz, -⟩ := hok mm hmm
  obtain ⟨e, -, hz'⟩ := hg _ _ hz nofun
  cases hx.symm.trans hz'
  exact ⟨mm, d, _, hmm, hz, hy⟩

/-- **The copies of a `do_fork` that fails** are undone, up to the kernel stack. -/
theorem forkCopy_spec (hpaging : k.mem.Paging) (hdirs : ∀ m idx, k.mem.pde m idx ≠ none → k.kobj.mmAt m ≠ none)
    (hlast : 1 ≤ k.table.lastPid) (hsem : ∀ q, x.semQueue = some q → QueueOk k.kobj q)
    (hfs : ∀ f, x.fsStruct = some f → FsOk k.kobj f) (hmm : ∀ mm, x.mm = some mm → MmOk k.kobj mm)
    (hrun : k.forkCopy o p c kstack cloneFlags x = some (ret, k')) (hret : ret < 0) :
    ∃ s, Reverted k.mem s (PrivateOf k.kobj x.mm) ∧
      Kernel.cleanupKstack { k with mem := s } p c kstack = some (ret, k') := by
  unfold Kernel.forkCopy at hrun
  obtain ⟨⟨r, semQueue, h₁⟩, hcopySem, hrest⟩ := Option.bind_eq_some_iff.mp hrun
  obtain ⟨hbad, hgood⟩ := copySem_spec hsem hcopySem
  dsimp only at hrest
  split at hrest
  · rename_i hr
    cases hbad hr
    exact ⟨k.mem, .refl .., hrest⟩
  rename_i hr
  obtain ⟨hg₁, hputSem⟩ := hgood (not_not.mp hr)
  have hcleanSem : ∀ s, Kernel.cleanupSem { k with kobj := h₁, mem := s } p c kstack semQueue = some (ret, k') →
      Kernel.cleanupKstack { k with mem := s } p c kstack = some (ret, k') := by
    intro s hclean
    obtain ⟨h, hput, hclean⟩ := Option.bind_eq_some_iff.mp hclean
    cases hputSem h hput
    exact hclean
  obtain ⟨⟨r, fsStruct, h₂⟩, hcopyFs, hrest⟩ := Option.bind_eq_some_iff.mp hrest
  obtain ⟨hbad, hgood⟩ := copyFs_spec (fun f hf => (hfs f hf).grown hg₁) hcopyFs
  dsimp only at hrest
  split at hrest
  · rename_i hr
    cases hbad hr
    exact ⟨k.mem, .refl .., hcleanSem k.mem hrest⟩
  rename_i hr
  obtain ⟨hg₂, hputFs⟩ := hgood (not_not.mp hr)
  have hg := hg₁.trans hg₂
  obtain ⟨⟨r, mm, k₃⟩, hcopyMm, hrest⟩ := Option.bind_eq_some_iff.mp hrest
  dsimp only at hrest
  split at hrest
  · rename_i hr
    have hdirs₂ : ∀ m idx, k.mem.pde m idx ≠ none → h₂ m ≠ none := by
      intro m idx hidx hnone
      refine mmAt_grown hg (hdirs m idx hidx) ?_
      unfold Heap.mmAt
      rw [hnone]
    obtain ⟨s, rfl, hrev⟩ := copyMm_spec (k := { k with kobj := h₂ }) hpaging hdirs₂
      (fun mm hm => (hmm mm hm).grown hg) hcopyMm hr
    refine ⟨s, hrev.mono fun y hy => hy.of_grown hg hmm, hcleanSem s ?_⟩
    obtain ⟨h, hput, hclean⟩ := Option.bind_eq_some_iff.mp hrest
    cases hputFs h hput
    exact hclean
  · -- the child is there
    obtain ⟨t, hend, hrest⟩ := Option.bind_eq_some_iff.mp hrest
    obtain ⟨_, -, heq⟩ := Option.bind_eq_some_iff.mp hrest
    cases heq
    have hpid : 1 ≤ t.pid c := Table.forkEnd_pid (by rw [copyMm_table hcopyMm]; exact hlast) hend
    omega

/-- **A failed fork leaves no trace.**  Whatever allocation fails, a `do_fork` that returns an error leaves
the process table, the kernel objects with all their counts, and the pages as they were. -/
theorem do_fork_failed (hok : Ok k p) (hrun : k.doFork o p cloneFlags = some (ret, k')) (hret : ret < 0) :
    AsBefore p k k' := by
  unfold Kernel.doFork at hrun
  split at hrun
  · cases hrun
    exact .refl p k
  rcases kmalloc_cases k.kobj (o.kmalloc .proc) fun _ => ⟨0, .proc ⟨0, none, none, none, 0⟩⟩ with
    hfail | ⟨c, hfree, hsome⟩
  · rw [hfail] at hrun
    cases hrun
    exact .refl p k
  rw [hsome] at hrun
  obtain ⟨x, hx, hrest⟩ := Option.bind_eq_some_iff.mp hrun
  obtain ⟨t, hbegin, hrest⟩ := Option.bind_eq_some_iff.mp hrest
  obtain ⟨_, -, hrest⟩ := Option.bind_eq_some_iff.mp hrest
  obtain ⟨h₀, hset, hrest⟩ := Option.bind_eq_some_iff.mp hrest
  obtain ⟨d, hp⟩ := current_eq_some hx
  have hpc : p ≠ c := by
    rintro rfl
    rw [hp] at hfree
    cases hfree
  obtain ⟨z, hz, rfl⟩ := Option.map_eq_some_iff.mp hset
  rw [Function.update_of_ne hpc, hp] at hz
  cases hz
  set new : Obj := ⟨d, .proc { x with timeSlice := x.timeSlice - x.timeSlice / 2 }⟩
  set h₀ := Function.update (Function.update k.kobj c (some ⟨0, .proc ⟨0, none, none, none, 0⟩⟩)) p (some new)
  have hlive : k.table.live c = false := by
    by_contra hlive
    exact hok.procs c (by simpa using hlive) hfree
  -- nothing that the parent has is a process
  have hgrown : Grown k.kobj h₀ := by
    intro a z hz hheld
    have hap : a ≠ p := by
      rintro rfl
      rw [hp] at hz
      cases hz
      exact hheld x rfl
    have hac : a ≠ c := by
      rintro rfl
      rw [hfree] at hz
      cases hz
    refine ⟨0, le_rfl, ?_⟩
    rw [zero_vadd]
    simp [h₀, hap, hac, hz]
  have hdone : ∀ s, Reverted k.mem s (k.PrivatePte p) →
      Kernel.cleanupProc ⟨t, h₀, s, k.procMmList⟩ p c = some (ret, k') → AsBefore p k k' := by
    intro s hrev hclean
    obtain ⟨h₁, hkfree, hclean⟩ := Option.bind_eq_some_iff.mp hclean
    obtain ⟨t', hfail, hend⟩ := Option.bind_eq_some_iff.mp hclean
    cases hend
    obtain ⟨_, -, rfl⟩ := Option.map_eq_some_iff.mp hkfree
    refine ⟨Table.fork_failed hlive hok.running hbegin hfail, Or.inr ⟨d, x, x.timeSlice - x.timeSlice / 2, hp, ?_⟩,
      hrev, rfl⟩
    show Function.update h₀ c none = _
    rw [Function.update_comm hpc, Function.update_idem, ← hfree, Function.update_eq_self]
  rcases k.mem.allocPages_cases o.env o.kstack KSTACKPAGE with hfail | ⟨kstack, hpages, hsome⟩
  · rw [hfail] at hrest
    exact hdone k.mem (.refl ..) hrest
  · rw [hsome] at hrest
    have hold : ∀ mm, x.mm = some mm → MmOk k.kobj mm := fun mm hm => hok.mm x mm hx hm
    obtain ⟨s, hrev, hclean⟩ := forkCopy_spec
      (k := ⟨t, h₀, k.mem.withPages o.env kstack KSTACKPAGE, k.procMmList⟩)
        (hok.paging.withPages o.env kstack KSTACKPAGE)
      (fun m idx hidx => mmAt_grown hgrown (hok.dirs m idx hidx)) (Table.forkBegin_lastPid hbegin ▸ hok.lastPid)
      (fun q hq => (hok.semQueue x q hx hq).grown hgrown) (fun f hf => (hok.fsStruct x f hx hf).grown hgrown)
      (fun mm hm => (hold mm hm).grown hgrown) hrest hret
    refine hdone _ ?_ hclean
    exact Reverted.freePages hok.paging hpages (hrev.mono fun y hy => ⟨x, hx, hy.of_grown hgrown hold⟩)

end copy

/-! ## A process that runs out of memory -/

/-- A process with an open file, a semaphore and a page. -/
def shell : Kernel where
  table := { Process.blank with live := fun a => decide (a = 1), lastPid := Process.MAX_PID }
  kobj
    | 0 => some ⟨0, .vma⟩
    | 1 => some ⟨0, .proc ⟨1, some 2, some 5, some 7, 20⟩⟩
    | 2 => some ⟨(1, 0, 1), .semQueue [3]⟩
    | 3 => some ⟨0, .semu 4⟩
    | 4 => some ⟨(1, 0, 0), .sem true⟩
    | 5 => some ⟨(1, 0, 1), .fs ⟨some 6, fun i =>
        if i = 0 then ⟨.opened, true, false, 0, some 6, 1⟩ else Heap.fileInit⟩⟩
    | 6 => some ⟨(2, 1, 0), .inode⟩
    | 7 => some ⟨(1, 0, 1), .mm ⟨Mm.pageMm, none, some 4, 0, 0⟩⟩
    | _ => none
  mem := Sys.boot
  procMmList := [7]

/-- There is no memory for a VMA. -/
def noVma : Oracle where
  kmalloc
    | .proc => some 10
    | .semQueue => some 11
    | .semu _ => some 12
    | .fs => some 13
    | .mm => some 14
    | _ => none
  kstack := some 5
  pgdir := some 8
  env := Sys.bootEnv
  rbMem _ := ⟨fun _ => false, id, fun _ => id⟩

theorem shell_ok : Ok shell 1 := by
  have hp : ∀ x, shell.current 1 = some x → x = ⟨1, some 2, some 5, some 7, 20⟩ := fun x hx =>
    (Option.some.inj hx).symm
  have hnode : NodeOpen shell.kobj 6 := ⟨(2, 1, 0), rfl, by decide, by decide⟩
  refine ⟨Sys.boot_init.paging, fun m idx hidx => absurd rfl hidx, fun a ha => ?_, rfl, by decide, ?_, ?_, ?_⟩
  · cases of_decide_eq_true ha
    nofun
  · rintro x q hx hq
    cases hp x hx
    cases hq
    refine ⟨(1, 0, 1), [3], rfl, by decide, fun u hu => ?_⟩
    cases List.mem_singleton.mp hu
    exact ⟨0, 4, rfl, (1, 0, 0), true, rfl, by decide⟩
  · rintro x f hx hf
    cases hp x hx
    cases hf
    refine ⟨(1, 0, 1), _, rfl, by decide, fun n hn => ?_, fun i _ ho n hn => ?_⟩
    · cases hn
      exact ⟨(2, 1, 0), rfl, by decide⟩
    · dsimp only at ho hn
      split at hn
      · cases hn
        exact hnode
      · cases hn
  · rintro x mm hx hm
    cases hp x hx
    cases hm
    refine ⟨(1, 0, 1), _, rfl, by decide, Mm.pageMm_inv, fun v hv hs => ?_⟩
    cases List.mem_singleton.mp hv
    exact absurd hs (by decide)

/-- The copy of the page's VMA fails, after everything else has been copied. -/
theorem do_fork_failed_shell : ∃ k', shell.doFork noVma 1 0 = some (-E_NO_MEM, k') ∧ AsBefore 1 shell k' := by
  have hret : (shell.doFork noVma 1 0).map Prod.fst = some (-E_NO_MEM) := by decide +kernel
  obtain ⟨⟨ret, k'⟩, hrun, rfl⟩ := Option.map_eq_some_iff.mp hret
  exact ⟨k', hrun, do_fork_failed shell_ok hrun (by decide)⟩

end Fork

end Ucore
