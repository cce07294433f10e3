import Ucore.Mm.Faults

/-!
# Page faults in every run

* `Locks` — the lock of the address space has one holder, and a thread inside `do_pgfault` is it;
* `Areas` — each call has found its VMA, and shared pages that may be written can be written;
* `concurrent_faults` — as long as no page becomes accessible between a fault and the lock, the
  assertion of `do_pgfault` holds.
-/

namespace Ucore.Fault

open Sys (ptep)

/-- The call of a thread inside `do_pgfault`. -/
def Pc.call : Pc → Option Call
  | .locked c | .table c _ | .empty c _ | .newpage c _ | .swapIn c _ _ _ => some c
  | _ => none

/-- The same, where the page table exists. -/
def Pc.tabled : Pc → Option Call
  | .empty c _ | .newpage c _ | .swapIn c _ _ _ => some c
  | _ => none

namespace Threads

variable {s s' : Threads} {t u : ℕ} {c : Call} {vma : Vma} {pc : Pc} {env : Env}

/-! ## The lock -/

/-- `t` has the lock: it is on record, or it has been handed the lock and has not gone on. -/
def Holder (s : Threads) (t : ℕ) : Prop :=
  t ≠ 0 ∧ (s.lockedBy = t ∨ (∃ call, s.pc t = .wait call) ∧ t ∉ s.waitQueue)

structure Locks (s : Threads) : Prop where
  sem : s.semValue ≤ 1
  free : s.semValue ≠ 0 → s.waitQueue = [] ∧ s.lockedBy = 0 ∧ ∀ t call, s.pc t ≠ .wait call
  one : ∀ t u, s.Holder t → s.Holder u → t = u
  inside : ∀ t c, (s.pc t).call = some c → s.lockedBy = t ∧ t ≠ 0
  wait : ∀ t call, s.pc t = .wait call → t ≠ 0
  queue : ∀ t ∈ s.waitQueue, ∃ call, s.pc t = .wait call
  nodup : s.waitQueue.Nodup

@[simp] theorem setPc_self (s : Threads) (t : ℕ) (pc : Pc) : (s.setPc t pc).pc t = pc :=
  Function.update_self ..

theorem setPc_of_ne (s : Threads) (pc : Pc) (hne : u ≠ t) : (s.setPc t pc).pc u = s.pc u :=
  Function.update_of_ne hne ..

theorem Locks.sys (h : Locks s) (sys : Sys) (mm : Mm) : Locks { s with sys := sys, mm := mm } :=
  ⟨h.sem, h.free, h.one, h.inside, h.wait, h.queue, h.nodup⟩

theorem Locks.holder (h : Locks s) (hc : (s.pc t).call = some c) : s.Holder t :=
  ⟨(h.inside t c hc).2, Or.inl (h.inside t c hc).1⟩

/-- A thread that has the lock, or does not need it, goes on. -/
theorem Locks.setPc (h : Locks s) (hold : ∀ call, s.pc t ≠ .wait call) (hnew : ∀ call, pc ≠ .wait call)
    (hin : pc.call ≠ none → s.lockedBy = t ∧ t ≠ 0) : Locks (s.setPc t pc) := by
  have hwait : ∀ u call, (s.setPc t pc).pc u = .wait call ↔ s.pc u = .wait call := by
    intro u call
    by_cases hut : u = t
    · subst hut
      rw [setPc_self]
      exact ⟨fun hno => absurd hno (hnew call), fun hno => absurd hno (hold call)⟩
    · rw [setPc_of_ne s pc hut]
  have hholder : ∀ u, (s.setPc t pc).Holder u ↔ s.Holder u := by
    intro u
    unfold Holder
    simp only [hwait]
    rfl
  refine ⟨h.sem, fun hsem => ?_, fun u v hu hv => ?_, fun u d hd => ?_, fun u call hu => ?_,
    fun u hu => ?_, h.nodup⟩
  · obtain ⟨hq, hl, hno⟩ := h.free hsem
    exact ⟨hq, hl, fun u call hu => hno u call ((hwait u call).mp hu)⟩
  · exact h.one u v ((hholder u).mp hu) ((hholder v).mp hv)
  · by_cases hut : u = t
    · subst hut
      rw [setPc_self] at hd
      exact hin (by rw [hd]; nofun)
    · rw [setPc_of_ne s pc hut] at hd
      exact h.inside u d hd
  · exact h.wait u call ((hwait u call).mp hu)
  · obtain ⟨call, hw⟩ := h.queue u hu
    exact ⟨call, (hwait u call).mpr hw⟩

theorem Locks.takeLock (h : Locks s) (ht : t ≠ 0) (hsem : 0 < s.semValue)
    (hpc : ∀ call, pc ≠ .wait call) : Locks (s.takeLock t pc) := by
  obtain ⟨hq, hl, hno⟩ := h.free (Nat.pos_iff_ne_zero.mp hsem)
  have hwait : ∀ u call, (s.takeLock t pc).pc u ≠ .wait call := by
    intro u call
    by_cases hut : u = t
    · subst hut
      show Function.update s.pc u pc u ≠ _
      rw [Function.update_self]
      exact hpc call
    · show Function.update s.pc t pc u ≠ _
      rw [Function.update_of_ne hut]
      exact hno u call
  have hval : (s.takeLock t pc).semValue = 0 := by
    show s.semValue - 1 = 0
    have hle := h.sem
    omega
  refine ⟨by omega, fun hne => absurd hval hne, fun u v hu hv => ?_, fun u d hd => ?_,
    fun u call hu => absurd hu (hwait u call), fun u hu => ?_, h.nodup⟩
  · have hown : ∀ u, (s.takeLock t pc).Holder u → u = t := fun u hu =>
      (hu.2.resolve_right fun hw => by obtain ⟨⟨call, hw⟩, -⟩ := hw; exact hwait u call hw).symm
    rw [hown u hu, hown v hv]
  · by_cases hut : u = t
    · subst hut
      exact ⟨rfl, ht⟩
    · have hd : (Function.update s.pc t pc u).call = some d := hd
      rw [Function.update_of_ne hut] at hd
      obtain ⟨hlu, hu⟩ := h.inside u d hd
      exact absurd (hlu.symm.trans hl) hu
  · have hu : u ∈ s.waitQueue := hu
    rw [hq] at hu
    cases hu

theorem Locks.sleep (h : Locks s) (ht : t ≠ 0) (hpc : s.pc t = .run) (hsem : s.semValue = 0)
    (hl : s.lockedBy ≠ t) (call : Option Call) : Locks (s.sleep t call) := by
  have hother : ∀ u, u ≠ t → (s.sleep t call).pc u = s.pc u := fun u hu =>
    setPc_of_ne _ _ hu
  have hself : (s.sleep t call).pc t = .wait call := setPc_self _ _ _
  have hnot : t ∉ s.waitQueue := fun hmem => by
    obtain ⟨call', hw⟩ := h.queue t hmem
    rw [hpc] at hw
    cases hw
  have hholder : ∀ u, (s.sleep t call).Holder u → s.Holder u := by
    rintro u ⟨hu, hcase⟩
    have hut : u ≠ t := by
      rintro rfl
      rcases hcase with hcase | ⟨-, hcase⟩
      · exact hl hcase
      · exact hcase (List.mem_append_right _ (List.mem_singleton_self u))
    rw [hother u hut] at hcase
    rcases hcase with hcase | ⟨hw, hcase⟩
    · exact ⟨hu, Or.inl hcase⟩
    · exact ⟨hu, Or.inr ⟨hw, fun hmem => hcase (List.mem_append_left _ hmem)⟩⟩
  refine ⟨h.sem, fun hne => absurd hsem hne, fun u v hu hv => h.one u v (hholder u hu) (hholder v hv),
    fun u d hd => ?_, fun u call' hu => ?_, fun u hu => ?_, ?_⟩
  · have hut : u ≠ t := by
      rintro rfl
      rw [hself] at hd
      cases hd
    rw [hother u hut] at hd
    exact h.inside u d hd
  · by_cases hut : u = t
    · rw [hut]
      exact ht
    · rw [hother u hut] at hu
      exact h.wait u call' hu
  · rcases List.mem_append.mp hu with hu | hu
    · have hut : u ≠ t := fun heq => hnot (heq ▸ hu)
      rw [hother u hut]
      exact h.queue u hu
    · rw [List.mem_singleton.mp hu]
      exact ⟨call, hself⟩
  · exact List.nodup_append.mpr ⟨h.nodup, List.nodup_singleton t, fun a ha b hb => by
      rw [List.mem_singleton.mp hb]
      exact fun heq => hnot (heq ▸ ha)⟩

/-- The holder gives the lock up, or hands it on. -/
theorem Locks.unlockMm (h : Locks s) (ht : t ≠ 0) (hl : s.lockedBy = t)
    (hpc : ∀ call, s.pc t ≠ .wait call) (hout : (s.pc t).call = none) : Locks s.unlockMm := by
  have hsem : s.semValue = 0 := by
    by_contra hne
    exact ht (hl.symm.trans (h.free hne).2.1)
  have hown : s.Holder t := ⟨ht, Or.inl hl⟩
  have hinside : ∀ u d, (s.pc u).call ≠ some d := by
    intro u d hd
    have hut : u = t := (h.inside u d hd).1.symm.trans hl
    rw [hut, hout] at hd
    cases hd
  -- who sleeps is in the queue
  have hqueue : ∀ u call, s.pc u = .wait call → u ∈ s.waitQueue := by
    intro u call hu
    by_contra hno
    have hut := h.one u t ⟨h.wait u call hu, Or.inr ⟨⟨call, hu⟩, hno⟩⟩ hown
    exact hpc call (hut ▸ hu)
  unfold Threads.unlockMm
  cases hq : s.waitQueue with
  | nil =>
    have hwait : ∀ u call, s.pc u ≠ .wait call := fun u call hu => by
      have hmem := hqueue u call hu
      rw [hq] at hmem
      cases hmem
    refine ⟨by show s.semValue + 1 ≤ 1; omega, fun _ => ⟨rfl, rfl, hwait⟩, fun u v hu hv => ?_,
      fun u d hd => absurd hd (hinside u d), fun u call hu => absurd hu (hwait u call), nofun,
      List.nodup_nil⟩
    rcases hu.2 with hu0 | ⟨⟨call, hw⟩, -⟩
    · exact absurd hu0.symm hu.1
    · exact absurd hw (hwait u call)
  | cons w ts =>
    have hnodup := h.nodup
    rw [hq] at hnodup
    refine ⟨h.sem, fun hne => absurd hsem hne, fun u v hu hv => ?_,
      fun u d hd => absurd hd (hinside u d), h.wait, fun u hu => ?_, (List.nodup_cons.mp hnodup).2⟩
    · have hfirst : ∀ u, Holder { s with waitQueue := ts, lockedBy := 0 } u → u = w := by
        rintro u ⟨hu, hu0 | ⟨⟨call, hw⟩, hno⟩⟩
        · exact absurd hu0.symm hu
        · have hmem := hqueue u call hw
          rw [hq] at hmem
          exact (List.mem_cons.mp hmem).resolve_right hno
      rw [hfirst u hu, hfirst v hv]
    · exact h.queue u (by rw [hq]; exact List.mem_cons_of_mem w hu)

/-- A thread that has been handed the lock goes on. -/
theorem Locks.resume (h : Locks s) {call : Option Call} (hw : s.pc t = .wait call)
    (hq : t ∉ s.waitQueue) (hpc : ∀ call, pc ≠ .wait call) :
    Locks ({ s with lockedBy := t }.setPc t pc) := by
  have ht := h.wait t call hw
  have hown : s.Holder t := ⟨ht, Or.inr ⟨⟨call, hw⟩, hq⟩⟩
  have hother : ∀ u, u ≠ t → ({ s with lockedBy := t }.setPc t pc).pc u = s.pc u := fun u hu =>
    setPc_of_ne _ _ hu
  have hself : ({ s with lockedBy := t }.setPc t pc).pc t = pc := setPc_self _ _ _
  have hne : ∀ u call, ({ s with lockedBy := t }.setPc t pc).pc u = .wait call →
      u ≠ t ∧ s.pc u = .wait call := by
    intro u call' hu
    have hut : u ≠ t := by
      rintro rfl
      rw [hself] at hu
      exact hpc call' hu
    rw [hother u hut] at hu
    exact ⟨hut, hu⟩
  refine ⟨h.sem, fun hsem => absurd hw ((h.free hsem).2.2 t call), fun u v hu hv => ?_, fun u d hd => ?_,
    fun u call' hu => h.wait u call' (hne u call' hu).2, fun u hu => ?_, h.nodup⟩
  · have hone : ∀ u, ({ s with lockedBy := t }.setPc t pc).Holder u → u = t := by
      rintro u ⟨hu, hut | ⟨⟨call', hwu⟩, hqu⟩⟩
      · exact hut.symm
      · exact h.one u t ⟨hu, Or.inr ⟨⟨call', (hne u call' hwu).2⟩, hqu⟩⟩ hown
    rw [hone u hu, hone v hv]
  · by_cases hut : u = t
    · rw [hut]
      exact ⟨rfl, ht⟩
    · rw [hother u hut] at hd
      exact absurd (h.one u t (h.holder hd) hown) hut
  · have hut : u ≠ t := fun heq => hq (heq ▸ hu)
    rw [hother u hut]
    exact h.queue u hu

/-! ## The entries -/

theorem rounddown_div (a n : ℕ) : rounddown a / (PGSIZE * n) = a / (PGSIZE * n) := by
  have hpage : rounddown a / PGSIZE = a / PGSIZE := by
    unfold rounddown PGSIZE
    omega
  rw [← Nat.div_div_eq_div_mul, ← Nat.div_div_eq_div_mul, hpage]

theorem Call.table_eq (c : Call) : c.la / PTSIZE = c.addr / PTSIZE := rounddown_div c.addr 1024

theorem Call.ptep_eq (mm : ℕ) (c : Call) : ptep mm c.la = ptep mm c.addr := by
  have hdiv := rounddown_div c.addr 1
  rw [mul_one] at hdiv
  unfold ptep Call.la
  rw [hdiv]

theorem mapped_iff {sys : Sys} {mm a : ℕ} {p : Perm} :
    sys.mapped mm a = some p ↔ sys.pde mm (a / PTSIZE) ≠ none ∧ ∃ f, sys.pte (ptep mm a) = .page f p := by
  unfold Sys.mapped
  cases hpde : sys.pde mm (a / PTSIZE) with
  | none => simp
  | some d =>
    cases hpte : sys.pte (ptep mm a) with
    | zero => simp
    | page f q => simp
    | swap o => simp

/-- The VMA `vma` of the list has the address. -/
def Found (mm : Mm) (vma : Vma) (addr : ℕ) : Prop :=
  ∃ v ∈ mm.mmapList, mm.vma v = vma ∧ vma.Has addr

/-- Two addresses on one page are in one VMA. -/
theorem Found.unique {mm : Mm} (hmm : mm.Inv) {v a b : ℕ} (h : Found mm vma a) (hv : v ∈ mm.mmapList)
    (hhas : (mm.vma v).Has b) (hpage : b / PGSIZE = a / PGSIZE) : mm.vma v = vma := by
  obtain ⟨w, hw, rfl, hwa⟩ := h
  by_cases hne : v = w
  · rw [hne]
  · exfalso
    have hap := hmm.apart hv hw hne
    obtain ⟨vs, hvs⟩ := (hmm.member v hv).ok.startAligned
    obtain ⟨ve, hve⟩ := (hmm.member v hv).ok.endAligned
    obtain ⟨ws, hws⟩ := (hmm.member w hw).ok.startAligned
    obtain ⟨we, hwe⟩ := (hmm.member w hw).ok.endAligned
    unfold Vma.Apart at hap
    unfold Vma.Has at hhas hwa
    unfold PGSIZE at *
    omega

/-- A page fault in the VMA writes the right that the VMA has. -/
theorem SharedWritable.faulted (h : s.SharedWritable) (hmm : s.mm.Inv) (hvma : Found s.mm vma c.addr)
    {sys : Sys} {q : Perm} (hq : vma.vmFlags &&& VM_SHARE ≠ 0 → vma.vmFlags &&& VM_WRITE ≠ 0 → q.w = true)
    (hf : Sys.Faulted s.sys sys (ptep s.mm.self c.la) q) : SharedWritable { s with sys := sys } := by
  intro v hv a ha hshare hwrite p hp
  obtain ⟨htable, f, hpte⟩ := mapped_iff.mp hp
  have hold : sys.pde = s.sys.pde → sys.pte (ptep s.mm.self a) = s.sys.pte (ptep s.mm.self a) →
      p.w = true := by
    intro hpde heq
    refine h v hv a ha hshare hwrite p (mapped_iff.mpr ⟨?_, f, ?_⟩)
    · rw [← hpde]
      exact htable
    · rw [← heq]
      exact hpte
  have hwritten : ∀ e, Sys.Writes s.sys sys (ptep s.mm.self c.la) e →
      (∀ g, e = .page g p → p.w = true) → p.w = true := by
    intro e hw he
    have hpte' := hw.pte s.mm.self (a / PGSIZE)
    by_cases hx : Loc.user s.mm.self (a / PGSIZE) = ptep s.mm.self c.la
    · have hx' : ptep s.mm.self a = ptep s.mm.self c.la := hx
      rw [hx, Function.update_self, ← hx', hpte] at hpte'
      exact he f hpte'.symm
    · rw [Function.update_of_ne hx] at hpte'
      exact hold hw.pde hpte'
  rcases hf with hf | ⟨g, hw⟩ | ⟨o, hw⟩
  · exact hold hf.pde (hf.pte _ _)
  · by_cases hx : ptep s.mm.self a = ptep s.mm.self c.la
    · rw [Call.ptep_eq] at hx
      have hpage : a / PGSIZE = c.addr / PGSIZE := (Loc.user.inj hx).2
      have heq := hvma.unique hmm hv ha hpage
      rw [heq] at hshare hwrite
      refine hwritten _ hw fun g' hg => ?_
      cases hg
      exact hq hshare hwrite
    · refine hwritten _ hw fun g' hg => ?_
      have hpte' := hw.pte s.mm.self (a / PGSIZE)
      have hx' : Loc.user s.mm.self (a / PGSIZE) ≠ ptep s.mm.self c.la := hx
      rw [Function.update_of_ne hx'] at hpte'
      exact hold hw.pde hpte'
  · exact hwritten _ hw fun g' hg => by cases hg

/-- A new page table is empty. -/
theorem SharedWritable.addTable (h : s.SharedWritable) (i f : ℕ) :
    SharedWritable { s with sys := s.sys.addTable s.mm.self i f } := by
  intro v hv a ha hshare hwrite p hp
  obtain ⟨htable, g, hpte⟩ := mapped_iff.mp hp
  have hpte : (if s.mm.self = s.mm.self ∧ a / PGSIZE / 1024 = i then Pte.zero
      else s.sys.pte (ptep s.mm.self a)) = .page g p := hpte
  by_cases hi : a / PGSIZE / 1024 = i
  · rw [if_pos ⟨rfl, hi⟩] at hpte
    cases hpte
  · rw [if_neg fun hno => hi hno.2] at hpte
    have hne : a / PTSIZE ≠ i := by
      unfold PTSIZE
      rw [← Nat.div_div_eq_div_mul]
      exact hi
    have htable : Function.update s.sys.pde s.mm.self (Function.update (s.sys.pde s.mm.self) i (some f))
        s.mm.self (a / PTSIZE) ≠ none := htable
    rw [Function.update_self, Function.update_of_ne hne] at htable
    exact h v hv a ha hshare hwrite p (mapped_iff.mpr ⟨htable, g, hpte⟩)

theorem SharedWritable.leaves (h : s.SharedWritable) {sys : Sys} (hl : Sys.Leaves s.mm.self s.sys sys) :
    SharedWritable { s with sys := sys } := by
  intro v hv a ha hshare hwrite p hp
  obtain ⟨htable, f, hpte⟩ := mapped_iff.mp hp
  have htable : sys.pde s.mm.self (a / PTSIZE) ≠ none := htable
  have hpte : sys.pte (.user s.mm.self (a / PGSIZE)) = .page f p := hpte
  have hd := hl.pte (a / PGSIZE)
  rw [hl.pde] at htable
  rw [hpte] at hd
  generalize hold : s.sys.pte (.user s.mm.self (a / PGSIZE)) = e at hd
  cases hd with
  | same => exact h v hv a ha hshare hwrite p (mapped_iff.mpr ⟨htable, f, hold⟩)
  | bits hu hw =>
    rw [hw]
    exact h v hv a ha hshare hwrite _ (mapped_iff.mpr ⟨htable, f, hold⟩)

/-! ## The areas -/

/-- What the calls under way have seen of the address space. -/
structure Areas (s : Threads) : Prop where
  mm : s.mm.Inv
  area : ∀ t c vma, (s.pc t).area = some (c, vma) → Found s.mm vma c.addr
  tabled : ∀ t c, (s.pc t).tabled = some c → s.sys.pde s.mm.self (c.la / PTSIZE) ≠ none
  shared : s.SharedWritable

theorem Areas.setPc (h : Areas s) (harea : ∀ c vma, pc.area = some (c, vma) → Found s.mm vma c.addr)
    (htabled : ∀ c, pc.tabled = some c → s.sys.pde s.mm.self (c.la / PTSIZE) ≠ none) :
    Areas (s.setPc t pc) := by
  refine ⟨h.mm, fun u d x hu => ?_, fun u d hu => ?_, h.shared⟩
  · by_cases hut : u = t
    · subst hut
      rw [setPc_self] at hu
      exact harea d x hu
    · rw [setPc_of_ne s pc hut] at hu
      exact h.area u d x hu
  · by_cases hut : u = t
    · subst hut
      rw [setPc_self] at hu
      exact htabled d hu
    · rw [setPc_of_ne s pc hut] at hu
      exact h.tabled u d hu

/-- The lock has nothing to do with the areas. -/
theorem Areas.lock (h : Areas s) (sem : ℕ) (queue : List ℕ) (by' : ℕ) :
    Areas { s with semValue := sem, waitQueue := queue, lockedBy := by' } :=
  ⟨h.mm, h.area, h.tabled, h.shared⟩

theorem Areas.unlockMm (h : Areas s) : Areas s.unlockMm := by
  unfold Threads.unlockMm
  split
  · exact h.lock _ _ _
  · exact h.lock _ _ _

theorem Areas.sys (h : Areas s) {sys : Sys} (hshared : SharedWritable { s with sys := sys })
    (hpde : ∀ i, s.sys.pde s.mm.self i ≠ none → sys.pde s.mm.self i ≠ none) :
    Areas { s with sys := sys } :=
  ⟨h.mm, h.area, fun u d hu => hpde _ (h.tabled u d hu), hshared⟩

theorem Areas.unwritten (h : Areas s) {sys : Sys} (hsys : Sys.Unwritten s.sys sys) :
    Areas { s with sys := sys } :=
  h.sys (h.shared.leaves (hsys.leaves _)) fun i hi => by
    rw [hsys.pde]
    exact hi

theorem Areas.touched (h : Areas s) (addr : ℕ) : Areas { s with mm := s.mm.touched addr } := by
  refine ⟨h.mm.touched addr, fun u d x hu => ?_, fun u d hu => ?_, fun v hv a ha hshare hwrite p hp => ?_⟩
  · obtain ⟨v, hv, hx, hhas⟩ := h.area u d x hu
    refine ⟨v, ?_, ?_, hhas⟩
    · rw [Mm.touched_mmapList]
      exact hv
    · rw [Mm.touched_vma]
      exact hx
  · show s.sys.pde (s.mm.touched addr).self _ ≠ none
    rw [Mm.touched_self]
    exact h.tabled u d hu
  · simp only [Mm.touched_mmapList, Mm.touched_vma, Mm.touched_self] at hv ha hshare hwrite hp
    exact h.shared v hv a ha hshare hwrite p hp

structure Inv (s : Threads) : Prop where
  locks : Locks s
  areas : Areas s

/-- `do_pgfault` returns. -/
theorem Inv.finish (h : Inv s) (hc : (s.pc t).call = some c) (ret : Int) : Inv (s.finish t c ret) := by
  obtain ⟨hl, ht⟩ := h.locks.inside t c hc
  have hold : ∀ call, s.pc t ≠ .wait call := fun call hw => by
    rw [hw] at hc
    cases hc
  have hlocks : Locks (s.setPc t (.ret c ret)) := h.locks.setPc hold nofun fun hno => absurd rfl hno
  have hareas : Areas (s.setPc t (.ret c ret)) := h.areas.setPc nofun nofun
  unfold Threads.finish
  split
  · refine ⟨hlocks.unlockMm ht hl ?_ ?_, hareas.unlockMm⟩
    · rw [setPc_self]
      nofun
    · rw [setPc_self]
      rfl
  · exact ⟨hlocks, hareas⟩

/-- `do_pgfault` gives up the processor. -/
theorem Inv.next (h : Inv s) (hc : (s.pc t).call = some c) (harea : pc.area = some (c, vma))
    (hfound : Found s.mm vma c.addr)
    (htabled : pc.tabled = some c → s.sys.pde s.mm.self (c.la / PTSIZE) ≠ none) :
    Inv (s.setPc t pc) := by
  have hin := h.locks.inside t c hc
  refine ⟨h.locks.setPc (fun call hw => ?_) (fun call hw => ?_) fun _ => hin, h.areas.setPc ?_ ?_⟩
  · rw [hw] at hc
    cases hc
  · rw [hw] at harea
    cases harea
  · intro d x hx
    rw [harea] at hx
    cases hx
    exact hfound
  · intro d hd
    have heq : d = c := by
      cases pc with
      | empty | newpage | swapIn =>
        cases harea
        cases hd
        rfl
      | _ => cases hd
    subst heq
    exact htabled hd

/-- What a thread does when it goes on in `do_pgfault`. -/
structure Went (s s' : Threads) (t : ℕ) : Prop where
  inv : Inv s'
  other : ∀ u, u ≠ t → s'.pc u = s.pc u
  self : ∀ c, s'.pc t ≠ .locked c

theorem Went.of_pc {s₀ : Threads} (h : Went s s' t) (hpc : s.pc = s₀.pc) : Went s₀ s' t :=
  ⟨h.inv, fun u hu => by rw [← hpc]; exact h.other u hu, h.self⟩

theorem finish_pc (s : Threads) (t : ℕ) (c : Call) (ret : Int) :
    (s.finish t c ret).pc = (s.setPc t (.ret c ret)).pc := by
  unfold Threads.finish Threads.unlockMm
  split
  · split <;> rfl
  · rfl

theorem Inv.went_finish (h : Inv s) (hc : (s.pc t).call = some c) (ret : Int) :
    Went s (s.finish t c ret) t := by
  refine ⟨h.finish hc ret, fun u hu => ?_, fun d => ?_⟩
  · rw [finish_pc, setPc_of_ne _ _ hu]
  · rw [finish_pc, setPc_self]
    nofun

theorem Inv.went_next (h : Inv s) (hc : (s.pc t).call = some c) (harea : pc.area = some (c, vma))
    (hfound : Found s.mm vma c.addr)
    (htabled : pc.tabled = some c → s.sys.pde s.mm.self (c.la / PTSIZE) ≠ none) :
    Went s (s.setPc t pc) t := by
  refine ⟨h.next hc harea hfound htabled, fun u hu => setPc_of_ne _ _ hu, fun d hd => ?_⟩
  rw [setPc_self] at hd
  rw [hd] at harea
  cases harea

theorem Inv.went_entry (h : Inv s) (hc : (s.pc t).call = some c) (hfound : Found s.mm vma c.addr)
    (htable : s.sys.pde s.mm.self (c.la / PTSIZE) ≠ none) (hrun : s.entry t c vma = some s') :
    Went s s' t := by
  unfold Threads.entry at hrun
  split at hrun
  · cases hrun
    exact h.went_next hc rfl hfound fun _ => htable
  · split at hrun
    · cases hrun
      exact h.went_next hc rfl hfound fun _ => htable
    · cases hrun
  · split at hrun
    · cases hrun
      exact h.went_next hc rfl hfound fun _ => htable
    · cases hrun
      exact h.went_next hc rfl hfound fun _ => htable

/-- The page table is written, and `do_pgfault` returns. -/
theorem Inv.faulted (h : Inv s) (hfound : Found s.mm vma c.addr) {sys : Sys} {q : Perm}
    (hq : vma.vmFlags &&& VM_SHARE ≠ 0 → vma.vmFlags &&& VM_WRITE ≠ 0 → q.w = true)
    (hf : Sys.Faulted s.sys sys (ptep s.mm.self c.la) q) : Inv { s with sys := sys } := by
  refine ⟨h.locks.sys sys s.mm, h.areas.sys (h.areas.shared.faulted h.areas.mm hfound hq hf) fun i hi => ?_⟩
  have hpde : sys.pde = s.sys.pde := by
    rcases hf with hf | ⟨f, hf⟩ | ⟨o, hf⟩
    · exact hf.pde
    · exact hf.pde
    · exact hf.pde
  rw [hpde]
  exact hi

theorem Inv.unwritten (h : Inv s) {sys : Sys} (hsys : Sys.Unwritten s.sys sys) :
    Inv { s with sys := sys } :=
  ⟨h.locks.sys sys s.mm, h.areas.unwritten hsys⟩

theorem Inv.went_map (h : Inv s) (hc : (s.pc t).call = some c) (hfound : Found s.mm vma c.addr)
    (htable : s.sys.pde s.mm.self (c.la / PTSIZE) ≠ none) {f : ℕ} {newpage : Option ℕ} {mayCopy : Bool}
    {fail : Int} {q : Perm}
    (hq : vma.vmFlags &&& VM_SHARE ≠ 0 → vma.vmFlags &&& VM_WRITE ≠ 0 → q.w = true)
    (hrun : s.map env t c f newpage mayCopy fail q = some s') : Went s s' t := by
  unfold Threads.map at hrun
  obtain ⟨⟨ret, sys⟩, hmap, heq⟩ := Option.bind_eq_some_iff.mp hrun
  cases heq
  exact ((h.faulted hfound hq (Sys.pgfaultMap_faulted htable hmap)).went_finish hc ret).of_pc rfl

theorem isCow_of_shared (hshare : vma.vmFlags &&& VM_SHARE ≠ 0) : Sys.isCow vma = false := by
  unfold Sys.isCow
  refine decide_eq_false fun heq => hshare ?_
  calc vma.vmFlags &&& VM_SHARE = (vma.vmFlags &&& (VM_SHARE ||| VM_WRITE)) &&& VM_SHARE := by
        rw [UInt32.and_assoc]
        rfl
    _ = 0 := by
        rw [heq]
        rfl

theorem perm_writable (_ : vma.vmFlags &&& VM_SHARE ≠ 0) (hwrite : vma.vmFlags &&& VM_WRITE ≠ 0) :
    (perm vma).w = true :=
  decide_eq_true hwrite

/-! ## One step -/

theorem Inv.touched (h : Inv s) (addr : ℕ) : Inv { s with mm := s.mm.touched addr } :=
  ⟨h.locks.sys s.sys (s.mm.touched addr), h.areas.touched addr⟩

/-- What `find_vma` finds behind the checks of `do_pgfault`. -/
theorem Found.of_firstAbove {mm : Mm} {addr errorCode v : ℕ} (hv : mm.firstAbove addr mm.mmapList = some v)
    (hallow : Sys.pgfaultAllowed (mm.vma v) errorCode addr = true) : Found mm (mm.vma v) addr := by
  obtain ⟨hmem, hend⟩ := Mm.firstAbove_mem hv
  unfold Sys.pgfaultAllowed at hallow
  simp only [Bool.and_eq_true, decide_eq_true_eq] at hallow
  exact ⟨v, hmem, rfl, hallow.1.1, hend⟩

/-- `do_pgfault` from the lock on. -/
theorem Inv.locked_eq (h : Inv s) (env : Env) (hpc : s.pc t = .locked c) :
    s.go env t = s.locked t c ∧ s.locked t c =
      match (s.mm.firstAbove c.addr s.mm.mmapList).map s.mm.vma with
      | none => some ({ s with mm := s.mm.touched c.addr }.finish t c (-E_INVAL))
      | some vma =>
        if Sys.pgfaultAllowed vma c.errorCode c.addr then
          match s.sys.pde s.mm.self (c.la / PTSIZE) with
          | none => some ({ s with mm := s.mm.touched c.addr }.setPc t (.table c vma))
          | some _ => { s with mm := s.mm.touched c.addr }.entry t c vma
        else some ({ s with mm := s.mm.touched c.addr }.finish t c (-E_INVAL)) := by
  constructor
  · unfold Threads.go
    rw [hpc]
  · unfold Threads.locked
    rw [h.areas.mm.findVma_spec]
    simp only [Option.bind_eq_bind, Option.bind_some, Mm.touched_vma, Mm.touched_self]
    all_goals rfl

theorem Inv.went_locked (h : Inv s) (hpc : s.pc t = .locked c) (hrun : s.locked t c = some s') :
    Went s s' t := by
  have hc : (s.pc t).call = some c := by rw [hpc]; rfl
  have ht := h.touched c.addr
  rw [(h.locked_eq ⟨fun _ => none, fun _ _ => 0, false, fun _ => none⟩ hpc).2] at hrun
  cases hv : s.mm.firstAbove c.addr s.mm.mmapList with
  | none =>
    rw [hv] at hrun
    cases hrun
    exact (ht.went_finish hc _).of_pc rfl
  | some v =>
    rw [hv] at hrun
    simp only [Option.map_some] at hrun
    split at hrun
    · rename_i hallow
      have hfound : Found (s.mm.touched c.addr) (s.mm.vma v) c.addr := by
        obtain ⟨w, hw, heq, hhas⟩ := Found.of_firstAbove hv hallow
        refine ⟨w, ?_, ?_, hhas⟩
        · rw [Mm.touched_mmapList]
          exact hw
        · rw [Mm.touched_vma]
          exact heq
      split at hrun
      · cases hrun
        exact (ht.went_next hc rfl hfound fun hno => by cases hno).of_pc rfl
      · rename_i f hpde
        refine (ht.went_entry hc hfound ?_ hrun).of_pc rfl
        show s.sys.pde (s.mm.touched c.addr).self _ ≠ none
        rw [Mm.touched_self, hpde]
        intro hno
        cases hno
    · cases hrun
      exact (ht.went_finish hc _).of_pc rfl

theorem Inv.went_table (h : Inv s) (hpc : s.pc t = .table c vma) (hrun : s.go env t = some s') :
    Went s s' t := by
  have hc : (s.pc t).call = some c := by rw [hpc]; rfl
  have hfound : Found s.mm vma c.addr := h.areas.area t c vma (by rw [hpc]; rfl)
  unfold Threads.go at hrun
  rw [hpc] at hrun
  dsimp only at hrun
  split at hrun
  · rename_i sys halloc
    cases hrun
    exact ((h.unwritten (Sys.allocPage_unwritten halloc)).went_finish hc _).of_pc rfl
  · rename_i f sys halloc
    have h₁ := h.unwritten (Sys.allocPage_unwritten halloc)
    have hpde : ∀ i, (sys.addTable s.mm.self (c.la / PTSIZE) f).pde s.mm.self i =
        Function.update (sys.pde s.mm.self) (c.la / PTSIZE) (some f) i := fun i =>
      congrFun (Function.update_self ..) i
    have h₂ : Inv { s with sys := sys.addTable s.mm.self (c.la / PTSIZE) f } := by
      refine ⟨h.locks.sys _ s.mm, h₁.areas.sys (h₁.areas.shared.addTable _ f) fun i hi => ?_⟩
      show (sys.addTable s.mm.self (c.la / PTSIZE) f).pde s.mm.self i ≠ none
      rw [hpde]
      by_cases hit : i = c.la / PTSIZE
      · rw [hit, Function.update_self]
        nofun
      · rw [Function.update_of_ne hit]
        exact hi
    refine (h₂.went_entry hc hfound ?_ hrun).of_pc rfl
    show (sys.addTable s.mm.self (c.la / PTSIZE) f).pde s.mm.self _ ≠ none
    rw [hpde, Function.update_self]
    nofun

theorem Inv.went_swapIn (h : Inv s) {o : ℕ} {newpage : Option ℕ} (hpc : s.pc t = .swapIn c vma o newpage)
    (hrun : s.go env t = some s') : Went s s' t := by
  have hc : (s.pc t).call = some c := by rw [hpc]; rfl
  have hfound : Found s.mm vma c.addr := h.areas.area t c vma (by rw [hpc]; rfl)
  have htable := h.areas.tabled t c (by rw [hpc]; rfl)
  unfold Threads.go at hrun
  rw [hpc] at hrun
  obtain ⟨⟨ret, f, sys⟩, hswap, hrun⟩ := Option.bind_eq_some_iff.mp hrun
  have hsys := Sys.swapInPage_unwritten hswap
  dsimp only at hrun
  split at hrun
  · cases hrun
    exact ((h.unwritten (hsys.trans (Sys.freeNewpage_unwritten sys newpage))).went_finish hc _).of_pc rfl
  · refine ((h.unwritten hsys).went_map hc hfound (hsys.table htable)
      (fun hshare hwrite => ?_) hrun).of_pc rfl
    simp [perm_writable hshare hwrite, isCow_of_shared hshare]

/-- A thread goes on in `do_pgfault`. -/
theorem Inv.went (h : Inv s) (hen : s.Enabled (.go env t)) (hrun : s.go env t = some s') :
    Went s s' t := by
  cases hpc : s.pc t with
  | locked c =>
    rw [(h.locked_eq env hpc).1] at hrun
    exact h.went_locked hpc hrun
  | table c vma => exact h.went_table hpc hrun
  | empty c vma =>
    have hc : (s.pc t).call = some c := by rw [hpc]; rfl
    have hfound : Found s.mm vma c.addr := h.areas.area t c vma (by rw [hpc]; rfl)
    have htable := h.areas.tabled t c (by rw [hpc]; rfl)
    unfold Threads.go at hrun
    rw [hpc] at hrun
    obtain ⟨⟨ret, sys⟩, hempty, heq⟩ := Option.bind_eq_some_iff.mp hrun
    cases heq
    exact ((h.faulted hfound perm_writable (Sys.pgfaultEmpty_faulted htable hempty)).went_finish hc _).of_pc rfl
  | newpage c vma =>
    have hc : (s.pc t).call = some c := by rw [hpc]; rfl
    have hfound : Found s.mm vma c.addr := h.areas.area t c vma (by rw [hpc]; rfl)
    have htable := h.areas.tabled t c (by rw [hpc]; rfl)
    have hsys : Sys.Unwritten s.sys (s.sys.allocPage env .newpage).2 := Sys.allocPage_unwritten rfl
    unfold Threads.go at hrun
    rw [hpc] at hrun
    dsimp only at hrun
    split at hrun
    · cases hrun
    · exact ((h.unwritten hsys).went_map hc hfound (hsys.table htable) perm_writable hrun).of_pc rfl
    · cases hrun
      exact ((h.unwritten hsys).went_next hc rfl hfound fun _ => hsys.table htable).of_pc rfl
  | swapIn c vma o newpage => exact h.went_swapIn hpc hrun
  | run | wait call | ret c r =>
    rcases hen with ⟨c, hno⟩ | ⟨x, hno⟩
    · rw [hpc] at hno
      cases hno
    · rw [hpc] at hno
      cases hno

theorem enter_eq (s : Threads) (t errorCode addr : ℕ) :
    ∃ sem queue by' pc, s.enter t errorCode addr =
        { s with semValue := sem, waitQueue := queue, lockedBy := by' }.setPc t pc ∧
      ∀ c, pc = .locked c → c.errorCode = errorCode ∧ c.addr = addr := by
  unfold enter
  split
  · exact ⟨s.semValue - 1, s.waitQueue, t, _, rfl, fun c hc => by cases hc; exact ⟨rfl, rfl⟩⟩
  split
  · exact ⟨s.semValue, s.waitQueue, s.lockedBy, _, rfl, fun c hc => by cases hc; exact ⟨rfl, rfl⟩⟩
  · exact ⟨s.semValue, s.waitQueue ++ [t], s.lockedBy, _, rfl, nofun⟩

theorem Locks.enter (h : Locks s) (ht : t ≠ 0) (hpc : s.pc t = .run) (errorCode addr : ℕ) :
    Locks (s.enter t errorCode addr) := by
  unfold Threads.enter
  split
  · rename_i hsem
    exact h.takeLock ht hsem nofun
  · rename_i hsem
    split
    · rename_i hl
      refine h.setPc (fun call hw => ?_) nofun fun _ => ⟨hl, ht⟩
      rw [hpc] at hw
      cases hw
    · rename_i hl
      exact h.sleep ht hpc (Nat.eq_zero_of_not_pos hsem) hl _

theorem Areas.enter (h : Areas s) (errorCode addr : ℕ) : Areas (s.enter t errorCode addr) := by
  unfold Threads.enter
  split
  · exact (h.lock _ _ _).setPc nofun nofun
  split
  · exact h.setPc nofun nofun
  · exact (h.lock _ _ _).setPc nofun nofun

/-- **Step lemma**: whatever happens, the lock has one holder, and the calls under way have seen what
they have seen. -/
theorem Inv.step {a : Action} (h : Inv s) (hen : s.Enabled a) (hrun : s.step a = some s') : Inv s' := by
  cases a with
  | raise t addr acc =>
    obtain ⟨code, -, heq⟩ := Option.map_eq_some_iff.mp hrun
    obtain ⟨ht, -, hpc⟩ := hen
    rw [← heq]
    exact ⟨h.locks.enter ht hpc code addr, h.areas.enter code addr⟩
  | resume t =>
    obtain ⟨⟨call, hw⟩, hq⟩ := hen
    unfold Threads.step at hrun
    dsimp only at hrun
    rw [hw] at hrun
    cases call with
    | some c =>
      cases hrun
      exact ⟨h.locks.resume hw hq nofun, (h.areas.lock s.semValue s.waitQueue t).setPc nofun nofun⟩
    | none =>
      cases hrun
      exact ⟨h.locks.resume hw hq nofun, (h.areas.lock s.semValue s.waitQueue t).setPc nofun nofun⟩
  | go env t => exact (h.went hen hrun).inv
  | back t =>
    obtain ⟨c, hpc⟩ := hen
    cases hrun
    refine ⟨h.locks.setPc (fun call hw => ?_) nofun fun hno => absurd rfl hno, h.areas.setPc nofun nofun⟩
    rw [hpc] at hw
    cases hw
  | lock t =>
    obtain ⟨ht, hpc, hl⟩ := hen
    cases hrun
    split
    · rename_i hsem
      exact ⟨h.locks.takeLock ht hsem nofun, (h.areas.lock _ _ _).setPc nofun nofun⟩
    · rename_i hsem
      exact ⟨h.locks.sleep ht hpc (Nat.eq_zero_of_not_pos hsem) hl _,
        (h.areas.lock _ _ _).setPc nofun nofun⟩
  | unlock t =>
    obtain ⟨hpc, hl, ht⟩ := hen
    cases hrun
    refine ⟨h.locks.unlockMm ht hl (fun call hw => ?_) (by rw [hpc]; rfl), h.areas.unlockMm⟩
    rw [hpc] at hw
    cases hw
  | others sys =>
    cases hrun
    refine ⟨h.locks.sys sys s.mm, h.areas.sys (h.areas.shared.leaves hen) fun i hi => ?_⟩
    rw [hen.pde]
    exact hi

theorem Idle.inv (h : Idle s) : Inv s := by
  have hcall : ∀ t, s.pc t = .run := h.pc
  refine ⟨⟨h.semValue.le, fun _ => ⟨h.waitQueue, h.lockedBy, fun t call hw => ?_⟩, fun t u ht _ => ?_,
    fun t c hc => ?_, fun t call hw => ?_, fun t ht => ?_, ?_⟩, h.mm, fun t c vma hc => ?_,
    fun t c hc => ?_, h.shared⟩
  · rw [hcall] at hw
    cases hw
  · rcases ht.2 with hl | ⟨⟨call, hw⟩, -⟩
    · exact absurd (hl.symm.trans h.lockedBy) ht.1
    · rw [hcall] at hw
      cases hw
  · rw [hcall] at hc
    cases hc
  · rw [hcall] at hw
    cases hw
  · rw [h.waitQueue] at ht
    cases ht
  · rw [h.waitQueue]
    exact List.nodup_nil
  · rw [hcall] at hc
    cases hc
  · rw [hcall] at hc
    cases hc

/-! ## The error code and the entry -/

/-- The step with which a fault goes on does what is expected of it: the assertion of `do_pgfault`
holds, and if the page is accessible by now, `do_pgfault` returns zero and leaves it so. -/
def Harmless (s : Threads) (t : ℕ) (c : Call) : Prop :=
  (∀ env, s.step (.go env t) ≠ none) ∧
    (s.Accessible c → ∀ env, ∃ s', s.step (.go env t) = some s' ∧ s'.pc t = .ret c 0 ∧ s'.Accessible c)

theorem accessible_iff : s.Accessible c ↔
    ∃ p, s.sys.mapped s.mm.self c.addr = some p ∧ (c.write = true → p.w = true) := by
  unfold Accessible Call.access Sys.accessFault
  cases hm : s.sys.mapped s.mm.self c.addr with
  | none => cases c.write <;> simp
  | some p => cases c.write <;> simp

/-- The error code tells which access has been refused. -/
theorem access_of_code {acc : Access} {code mm addr : ℕ} {sys : Sys}
    (hcode : sys.accessFault mm addr acc = some code) (needUnlock : Bool) :
    (Call.mk code addr needUnlock).access = acc := by
  unfold Call.access Call.write
  cases acc with
  | load =>
    unfold Sys.accessFault at hcode
    dsimp only at hcode
    split at hcode
    · cases hcode
      simp
    · cases hcode
  | store =>
    unfold Sys.accessFault at hcode
    dsimp only at hcode
    split at hcode
    · cases hcode
      simp
    · split at hcode
      · cases hcode
      · cases hcode
        simp

/-- A present page that the fault finds inaccessible is one to be copied on write. -/
theorem Inv.pteAssert (h : Inv s) {p : Perm} (hfound : Found s.mm vma c.addr)
    (hallow : Sys.pgfaultAllowed vma c.errorCode c.addr = true)
    (hm : s.sys.mapped s.mm.self c.addr = some p) (hno : ¬ s.Accessible c) (f : ℕ) :
    pteAssert (.page f p) c vma = true := by
  have hacc : ¬ (c.write = true → p.w = true) := fun hw => hno (accessible_iff.mpr ⟨p, hm, hw⟩)
  obtain ⟨hwrite, hw⟩ := Classical.not_imp.mp hacc
  have hw : p.w = false := Bool.eq_false_iff.mpr hw
  have hvm : vma.vmFlags &&& VM_WRITE ≠ 0 := by
    have hbit : c.errorCode / 2 % 2 = 1 := of_decide_eq_true hwrite
    have hcode : c.errorCode % 4 = 2 ∨ c.errorCode % 4 = 3 := by omega
    unfold Sys.pgfaultAllowed at hallow
    rcases hcode with hcode | hcode
    · rw [hcode] at hallow
      simp only [Bool.and_eq_true, decide_eq_true_eq] at hallow
      exact hallow.2
    · rw [hcode] at hallow
      simp only [Bool.and_eq_true, decide_eq_true_eq] at hallow
      exact hallow.2
  have hshare : vma.vmFlags &&& VM_SHARE = 0 := by
    by_contra hshare
    obtain ⟨v, hv, rfl, hhas⟩ := hfound
    have hpw := h.areas.shared v hv c.addr hhas hshare hvm p hm
    rw [hw] at hpw
    cases hpw
  show (c.write && !p.w && Sys.isCow vma) = true
  rw [hwrite, hw, Sys.isCow_of_private hshare hvm]
  rfl

/-- What a thread that has the lock does with a present page. -/
theorem entry_page {f : ℕ} {p : Perm} (hpte : s.sys.pte (ptep s.mm.self c.la) = .page f p) :
    s.entry t c vma =
      if Threads.pteAssert (.page f p) c vma then some (s.setPc t (.newpage c vma)) else none := by
  unfold entry
  rw [hpte]

theorem entry_of_assert
    (hassert : ∀ f p, s.sys.pte (ptep s.mm.self c.la) = .page f p → Threads.pteAssert (.page f p) c vma = true) :
    s.entry t c vma ≠ none := by
  unfold entry
  split
  · nofun
  · rename_i f p hpte
    rw [if_pos (hassert f p hpte)]
    nofun
  · split
    · nofun
    · nofun

/-- **The lock is not enough**: a fault is harmless iff its page is still inaccessible. -/
theorem Inv.harmless_iff (h : Inv s) (hpc : s.pc t = .locked c) : s.Harmless t c ↔ ¬ s.Accessible c := by
  constructor
  · intro hharm hacc
    obtain ⟨p, hm, hpw⟩ := accessible_iff.mp hacc
    obtain ⟨htable, f, hpte⟩ := mapped_iff.mp hm
    let env : Env := ⟨fun _ => none, fun _ _ => 0, false, fun _ => none⟩
    obtain ⟨s', hrun, hret, -⟩ := hharm.2 hacc env
    have hrun : s.go env t = some s' := hrun
    have hinval : ∀ mm : Mm, s' ≠ { s with mm := mm }.finish t c (-E_INVAL) := by
      rintro mm rfl
      rw [finish_pc, setPc_self] at hret
      cases hret
    rw [(h.locked_eq env hpc).1, (h.locked_eq env hpc).2, Call.table_eq] at hrun
    split at hrun
    · exact hinval _ (Option.some.inj hrun).symm
    · rename_i vma hv
      split at hrun
      · split at hrun
        · rename_i hpde
          exact htable hpde
        · have hpte' : s.sys.pte (ptep (s.mm.touched c.addr).self c.la) = .page f p := by
            rw [Mm.touched_self, Call.ptep_eq]
            exact hpte
          rw [entry_page hpte', if_neg] at hrun
          · cases hrun
          · show ¬ (c.write && !p.w && Sys.isCow vma) = true
            cases hw : c.write with
            | false => simp
            | true => simp [hpw hw]
      · exact hinval _ (Option.some.inj hrun).symm
  · refine fun hno => ⟨fun env => ?_, fun hacc => absurd hacc hno⟩
    show s.go env t ≠ none
    rw [(h.locked_eq env hpc).1, (h.locked_eq env hpc).2]
    cases hv : s.mm.firstAbove c.addr s.mm.mmapList with
    | none =>
      intro hno
      cases hno
    | some v =>
      simp only [Option.map_some]
      split
      · rename_i hallow
        split
        · intro hno
          cases hno
        · rename_i g hpde
          refine entry_of_assert fun f p hpte => ?_
          have hm : s.sys.mapped s.mm.self c.addr = some p := by
            refine mapped_iff.mpr ⟨?_, f, ?_⟩
            · rw [← Call.table_eq, hpde]
              intro hno
              cases hno
            · rw [← Call.ptep_eq]
              have hpte : s.sys.pte (ptep (s.mm.touched c.addr).self c.la) = .page f p := hpte
              rw [Mm.touched_self] at hpte
              exact hpte
          exact h.pteAssert (Found.of_firstAbove hv hallow) hallow hm hno f
      · intro hno
        cases hno

/-- A new page table is empty: the assertion says nothing. -/
theorem go_table (hpc : s.pc t = .table c vma) (env : Env) : s.go env t ≠ none := by
  unfold go
  rw [hpc]
  dsimp only
  split
  · nofun
  · rename_i f sys halloc
    refine entry_of_assert fun g p hpte => ?_
    have hzero : (sys.addTable s.mm.self (c.la / PTSIZE) f).pte (ptep s.mm.self c.la) = .zero := by
      refine if_pos ⟨rfl, ?_⟩
      rw [Nat.div_div_eq_div_mul]
      rfl
    have hpte : (sys.addTable s.mm.self (c.la / PTSIZE) f).pte (ptep s.mm.self c.la) = .page g p := hpte
    rw [hzero] at hpte
    cases hpte

/-! ## Runs without a race -/

/-- A fault that has waited finds its page as inaccessible as it was. -/
def Unraced (s : Threads) (a : Action) : Prop :=
  ∀ t c, a = .resume t → s.pc t = .wait (some c) → ¬ s.Accessible c

theorem accessible_of_leaves {sys : Sys} (hl : Sys.Leaves s.mm.self s.sys sys)
    (hacc : Accessible { s with sys := sys } c) : s.Accessible c := by
  obtain ⟨p, hm, hpw⟩ := accessible_iff.mp hacc
  obtain ⟨htable, f, hpte⟩ := mapped_iff.mp hm
  have htable : sys.pde s.mm.self (c.addr / PTSIZE) ≠ none := htable
  have hpte : sys.pte (.user s.mm.self (c.addr / PGSIZE)) = .page f p := hpte
  have hd := hl.pte (c.addr / PGSIZE)
  rw [hl.pde] at htable
  rw [hpte] at hd
  generalize hold : s.sys.pte (.user s.mm.self (c.addr / PGSIZE)) = e at hd
  cases hd with
  | same => exact accessible_iff.mpr ⟨p, mapped_iff.mpr ⟨htable, f, hold⟩, hpw⟩
  | bits hu hw =>
    refine accessible_iff.mpr ⟨_, mapped_iff.mpr ⟨htable, f, hold⟩, fun hc => ?_⟩
    rw [← hw]
    exact hpw hc

end Threads

open Threads

variable {s s' : Threads}

/-- **Run lemma**, for any condition. -/
theorem Reaches.inv {C : Threads → Action → Prop} (h : Reaches C s) : Inv s := by
  induction h with
  | idle h => exact Idle.inv h
  | step a _ hen _ hrun ih => exact ih.step hen hrun

/-- Without a race, whoever has the lock finds the page inaccessible. -/
theorem Reaches.refused (h : Reaches Unraced s) : ∀ t c, s.pc t = .locked c → ¬ s.Accessible c := by
  induction h with
  | idle h =>
    intro t c hpc
    rw [h.pc t] at hpc
    cases hpc
  | @step s s' a hs hen hfree hrun ih =>
    intro u d hpc
    cases a with
    | raise t addr acc =>
      obtain ⟨code, hcode, heq⟩ := Option.map_eq_some_iff.mp hrun
      obtain ⟨sem, queue, by', pc, henter, hlocked⟩ := enter_eq s t code addr
      rw [henter] at heq
      subst heq
      by_cases hut : u = t
      · subst hut
        rw [setPc_self] at hpc
        obtain ⟨hdc, hda⟩ := hlocked d hpc
        subst hdc hda
        show s.sys.accessFault s.mm.self d.addr d.access ≠ none
        rw [access_of_code hcode d.needUnlock, hcode]
        nofun
      · rw [setPc_of_ne _ _ hut] at hpc
        exact ih u d hpc
    | resume t =>
      obtain ⟨⟨call, hw⟩, hq⟩ := hen
      unfold Threads.step at hrun
      dsimp only at hrun
      rw [hw] at hrun
      by_cases hut : u = t
      · subst hut
        cases call with
        | none =>
          cases hrun
          rw [setPc_self] at hpc
          cases hpc
        | some c =>
          cases hrun
          rw [setPc_self] at hpc
          cases hpc
          exact hfree u _ rfl hw
      · cases call with
        | none =>
          cases hrun
          rw [setPc_of_ne _ _ hut] at hpc
          exact ih u d hpc
        | some c =>
          cases hrun
          rw [setPc_of_ne _ _ hut] at hpc
          exact ih u d hpc
    | go env t =>
      -- one thread at a time is in `do_pgfault` with the lock
      have hwent := hs.inv.went hen hrun
      by_cases hut : u = t
      · subst hut
        exact absurd hpc (hwent.self d)
      · exfalso
        rw [hwent.other u hut] at hpc
        have hu := (hs.inv.locks.inside u d (by rw [hpc]; rfl)).1
        obtain ⟨c, hc⟩ : ∃ c, (s.pc t).call = some c := by
          rcases hen with ⟨c, hc⟩ | ⟨x, hx⟩
          · exact ⟨c, by rw [hc]; rfl⟩
          · cases hp : s.pc t with
            | table | empty | newpage | swapIn => exact ⟨_, rfl⟩
            | _ =>
              rw [hp] at hx
              cases hx
        exact hut (hu.symm.trans (hs.inv.locks.inside t c hc).1)
    | back t =>
      cases hrun
      by_cases hut : u = t
      · subst hut
        rw [setPc_self] at hpc
        cases hpc
      · rw [setPc_of_ne _ _ hut] at hpc
        exact ih u d hpc
    | lock t =>
      have hsame : s'.sys = s.sys ∧ s'.mm = s.mm ∧ ∃ pc, s'.pc = Function.update s.pc t pc ∧
          ∀ c, pc ≠ .locked c := by
        cases hrun
        split
        · exact ⟨rfl, rfl, .run, rfl, nofun⟩
        · exact ⟨rfl, rfl, .wait none, rfl, nofun⟩
      obtain ⟨hsys, hmm, pc, hpcs, hno⟩ := hsame
      rw [hpcs] at hpc
      unfold Accessible
      rw [hsys, hmm]
      by_cases hut : u = t
      · subst hut
        rw [Function.update_self] at hpc
        exact absurd hpc (hno d)
      · rw [Function.update_of_ne hut] at hpc
        exact ih u d hpc
    | unlock t =>
      have hsame : s'.sys = s.sys ∧ s'.mm = s.mm ∧ s'.pc = s.pc := by
        cases hrun
        unfold unlockMm
        split
        · exact ⟨rfl, rfl, rfl⟩
        · exact ⟨rfl, rfl, rfl⟩
      obtain ⟨hsys, hmm, hpcs⟩ := hsame
      rw [hpcs] at hpc
      unfold Accessible
      rw [hsys, hmm]
      exact ih u d hpc
    | others sys =>
      cases hrun
      exact fun hacc => ih u d hpc (accessible_of_leaves hen hacc)

/-- **Concurrent page faults are harmless** as long as a fault that has waited for the lock finds its
page inaccessible.  A fault that is handed the lock is harmless iff it does. -/
theorem concurrent_faults (h : Reaches Unraced s) :
    (∀ t c, s.pc t = .locked c → s.Harmless t c) ∧
    (∀ t c vma env, s.pc t = .table c vma → s.step (.go env t) ≠ none) ∧
    ∀ t c s', s.Enabled (.resume t) → s.pc t = .wait (some c) → s.step (.resume t) = some s' →
      (s'.Harmless t c ↔ ¬ s.Accessible c) := by
  refine ⟨fun t c hpc => (h.inv.harmless_iff hpc).mpr (h.refused t c hpc),
    fun t c vma env hpc => go_table hpc env, fun t c s' hen hw hrun => ?_⟩
  have h' := h.inv.step hen hrun
  unfold Threads.step at hrun
  dsimp only at hrun
  rw [hw] at hrun
  cases hrun
  exact h'.harmless_iff (setPc_self ..)

/-- Threads on a stack of which no page is present. -/
def stackThreads : Threads := ⟨Sys.boot, Mm.stackMm, 1, [], 0, fun _ => .run⟩

theorem stackThreads_idle : stackThreads.Idle :=
  ⟨Mm.stackMm_inv, rfl, rfl, rfl, fun _ => rfl, fun _ _ a _ _ _ p hp => by cases hp⟩

/-- Two threads load from two missing pages of the stack; the second waits for the lock, and is harmless when it
has it. -/
theorem concurrent_faults_waiting : ∃ s c, Reaches Unraced s ∧ s.pc 2 = .locked c ∧ s.Harmless 2 c := by
  have h₁ : Reaches Unraced _ := .step (.raise 1 (USERTOP - 64) .load) (.idle stackThreads_idle)
    ⟨by decide, ⟨0, rfl⟩, rfl⟩ nofun rfl
  have h₂ := h₁.step (.go Sys.bootEnv 1) (Or.inl ⟨_, rfl⟩) nofun rfl
  have h₃ := h₂.step (.raise 2 (USERTOP - PGSIZE - 64) .load) ⟨by decide, ⟨0, rfl⟩, rfl⟩ nofun rfl
  have h₄ := h₃.step (.go Sys.bootEnv 1) (Or.inr ⟨_, rfl⟩) nofun rfl
  have h₅ := h₄.step (.go Sys.bootEnv 1) (Or.inr ⟨_, rfl⟩) nofun rfl
  have h₆ := h₅.step (.resume 2) ⟨⟨_, rfl⟩, by decide⟩ (fun t c ht hc hacc => by
    cases ht
    cases hc
    cases hacc) rfl
  exact ⟨_, _, h₆, rfl, (concurrent_faults h₆).1 2 _ rfl⟩

/-- Two threads load from the same missing page of the stack; the second waits for the lock while the
first has `alloc_page` give it a page table, and finds the page present. -/
theorem concurrent_faults_race : ¬ ∀ s, Reaches (fun _ _ => True) s → ∀ t c, s.pc t = .locked c →
    s.Harmless t c := by
  intro hclaim
  have h₁ : Reaches (fun _ _ => True) _ := .step (.raise 1 (USERTOP - 64) .load)
    (.idle stackThreads_idle) ⟨by decide, ⟨0, rfl⟩, rfl⟩ trivial rfl
  have h₂ := h₁.step (.go Sys.bootEnv 1) (Or.inl ⟨_, rfl⟩) trivial rfl
  have h₃ := h₂.step (.raise 2 (USERTOP - 64) .load) ⟨by decide, ⟨0, rfl⟩, rfl⟩ trivial rfl
  have h₄ := h₃.step (.go Sys.bootEnv 1) (Or.inr ⟨_, rfl⟩) trivial rfl
  have h₅ := h₄.step (.go Sys.bootEnv 1) (Or.inr ⟨_, rfl⟩) trivial rfl
  have h₆ := h₅.step (.resume 2) ⟨⟨_, rfl⟩, by decide⟩ trivial rfl
  exact (hclaim _ h₆ 2 _ rfl).1 Sys.bootEnv rfl

end Ucore.Fault
