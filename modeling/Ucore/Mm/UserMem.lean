import Ucore.Mm.SwapRun
import Ucore.Mm.VmmInv

/-!
# Checked user memory

Reference model of `user_mem_check` (`kern/mm/vmm.c`), which tells whether the kernel may touch a
range of user memory, beside `do_pgfault`, which decides again when a page of the range is missing.
The two do not ask the same questions: the check of a range to be written asks for `VM_WRITE` only,
although its callers load from the range too, and the check of a range to be read does not look at
the lowest page of a stack, which `do_pgfault` refuses.

Principal result: `user_mem_access` — which accesses to a checked range are safe.
-/

namespace Ucore

namespace Mm

/-- `(write) ? VM_WRITE : VM_READ`. -/
def wantedFlag (write : Bool) : UInt32 := if write then VM_WRITE else VM_READ

/-- The loop of `user_mem_check`. -/
def userMemLoop (stop : ℕ) (write : Bool) : ℕ → ℕ → Mm → Option (Bool × Mm)
  | 0, _, _ => none
  | fuel + 1, start, mm =>
    if start < stop then do
      let (vma, mm) ← mm.findVma start
      match vma with
      | none => some (false, mm)
      | some v => do
        let x ← mm.vmas v
        if start < x.vmStart then some (false, mm)
        else if x.vmFlags &&& wantedFlag write = 0 then some (false, mm)
        else if write ∧ x.vmFlags &&& VM_STACK ≠ 0 ∧ start < x.vmStart + PGSIZE then
          some (false, mm)
        else userMemLoop stop write fuel x.vmEnd mm
    else some (true, mm)

/-- `user_mem_check` of a process with an address space. -/
def userMemCheck (addr len : ℕ) (write : Bool) (mm : Mm) : Option (Bool × Mm) :=
  let stop := wadd addr len
  if ¬ USER_ACCESS addr stop then some (false, mm)
  else userMemLoop stop write (mm.mmapList.length + 1) addr mm

/-- `do_pgfault`, with its call of `find_vma`. -/
def doPgfault (env : Env) (s : Sys) (errorCode addr : ℕ) (mm : Mm) :
    Option (Int × Sys × Mm) := do
  let (vma, mm) ← mm.findVma addr
  let (ret, s) ← s.doPgfault env mm.self (vma.map mm.vma) errorCode addr
  return (ret, s, mm)

end Mm

/-! ## The accesses of the kernel -/

/-- What the kernel does with an address of a checked range. -/
inductive Access where
  | load
  | store
  deriving DecidableEq, Repr

/-- The accesses that follow a check: `memcpy` from or to the range, and a direct store after
`copy_from_user(.., 1)`. -/
def Access.after (write : Bool) : List Access := if write then [.load, .store] else [.load]

namespace Sys

/-- The rights with which the address is mapped, if its page is present. -/
def mapped (s : Sys) (mm addr : ℕ) : Option Perm :=
  match s.pde mm (addr / PTSIZE), s.pte (ptep mm addr) with
  | some _, .page _ p => some p
  | _, _ => none

/-- The error code of the page fault that an access in kernel mode raises, if it raises one. -/
def accessFault (s : Sys) (mm addr : ℕ) : Access → Option ℕ
  | .load => if s.mapped mm addr = none then some 0 else none
  | .store =>
    match s.mapped mm addr with
    | none => some 2
    | some p => if p.w then none else some 3

end Sys

/-! ## What `do_pgfault` returns -/

namespace Sys

variable {s s' : Sys} {env : Env} {mm la page : ℕ} {vma : Vma} {ret : Int} {errorCode addr : ℕ}
  {perm : Perm}

theorem neg_E_NO_MEM_ne : -E_NO_MEM ≠ -E_INVAL := by decide

theorem neg_E_SWAP_FAULT_ne : -E_SWAP_FAULT ≠ -E_INVAL := by decide

theorem pgfaultShared_ret (h : s.pgfaultShared env mm vma la perm = some (ret, s')) :
    ret ≠ -E_INVAL := by
  unfold pgfaultShared at h
  obtain ⟨⟨x, s₁⟩, -, h⟩ := Option.bind_eq_some_iff.mp h
  dsimp only at h
  split at h
  · cases h
    exact neg_E_NO_MEM_ne
  · split at h
    · cases h
      exact neg_E_NO_MEM_ne
    · obtain ⟨r, -, h⟩ := Option.map_eq_some_iff.mp h
      cases h
      decide
    · obtain ⟨s₂, -, h⟩ := Option.bind_eq_some_iff.mp h
      cases h
      decide

theorem pgfaultEmpty_ret (h : s.pgfaultEmpty env mm vma la perm = some (ret, s')) :
    ret ≠ -E_INVAL := by
  unfold pgfaultEmpty at h
  split at h
  · obtain ⟨⟨ok, s₁⟩, -, h⟩ := Option.bind_eq_some_iff.mp h
    cases h
    cases ok <;> decide
  · exact pgfaultShared_ret h

theorem pgfaultMap_ret {newpage : Option ℕ} {mayCopy : Bool} {fail : Int}
    (hfail : fail ≠ -E_INVAL)
    (h : s.pgfaultMap env mm la page newpage mayCopy fail perm = some (ret, s')) :
    ret ≠ -E_INVAL := by
  unfold pgfaultMap at h
  obtain ⟨copy, -, h⟩ := Option.bind_eq_some_iff.mp h
  split at h
  · cases newpage with
    | none =>
      cases h
      exact hfail
    | some f =>
      obtain ⟨r, -, h⟩ := Option.bind_eq_some_iff.mp h
      cases h
      decide
  · obtain ⟨r, -, h⟩ := Option.bind_eq_some_iff.mp h
    cases h
    decide

theorem swapInPage_ret {o f : ℕ} (h : s.swapInPage env o = some (ret, f, s')) :
    ret ≠ -E_INVAL := by
  unfold swapInPage at h
  obtain ⟨o', -, h⟩ := Option.bind_eq_some_iff.mp h
  split at h
  · cases h
    decide
  · split at h
    · cases h
      exact neg_E_NO_MEM_ne
    · unfold swapRead at h
      split at h
      · obtain ⟨s₂, -, h⟩ := Option.bind_eq_some_iff.mp h
        obtain ⟨s₃, -, h⟩ := Option.bind_eq_some_iff.mp h
        cases h
        decide
      · cases h
        exact neg_E_SWAP_FAULT_ne

theorem pgfaultEntry_ret (h : s.pgfaultEntry env mm vma errorCode la perm = some (ret, s')) :
    ret ≠ -E_INVAL := by
  unfold pgfaultEntry at h
  dsimp only at h
  split at h
  · cases h
  · split at h
    · exact pgfaultMap_ret neg_E_NO_MEM_ne h
    · cases h
  · obtain ⟨⟨r, f, s₁⟩, hswap, h⟩ := Option.bind_eq_some_iff.mp h
    dsimp only at h
    split at h
    · cases h
      exact swapInPage_ret hswap
    · exact pgfaultMap_ret (by decide) h

/-- **`do_pgfault` returns `-E_INVAL` for its checks only**: not when it is short of memory, and
not when the page cannot be read from the swap. -/
theorem doPgfault_ret {v : Vma} (hallow : pgfaultAllowed v errorCode addr = true)
    (h : s.doPgfault env mm (some v) errorCode addr = some (ret, s')) : ret ≠ -E_INVAL := by
  unfold doPgfault at h
  dsimp only at h
  rw [if_pos hallow] at h
  split at h
  · cases h
    exact neg_E_NO_MEM_ne
  · split at h
    · exact pgfaultEmpty_ret h
    · exact pgfaultEntry_ret h

theorem doPgfault_refused {v : Vma} (hallow : ¬ pgfaultAllowed v errorCode addr = true) :
    s.doPgfault env mm (some v) errorCode addr = some (-E_INVAL, s) := by
  unfold doPgfault
  dsimp only
  rw [if_neg hallow]

end Sys

namespace Mm

variable {mm mm' : Mm} {v addr len start stop fuel : ℕ} {write : Bool}

/-! ## What the check says -/

/-- What `user_mem_check` has seen of the VMA `x` with the address `a`. -/
def Checked (write : Bool) (x : Vma) (a : ℕ) : Prop :=
  x.vmFlags &&& wantedFlag write ≠ 0 ∧
    (write = true → x.vmFlags &&& VM_STACK ≠ 0 → x.vmStart + PGSIZE ≤ a)

theorem firstAbove_mem (h : mm.firstAbove addr mm.mmapList = some v) :
    v ∈ mm.mmapList ∧ addr < (mm.vma v).vmEnd := by
  have hend := List.find?_some h
  exact ⟨List.mem_of_find?_eq_some h, of_decide_eq_true hend⟩

theorem touched_self : (mm.touched addr).self = mm.self := by
  unfold Mm.touched
  split <;> rfl

/-- The loop, from the place `start` on: every address that is left is in a VMA that passes the
check. -/
theorem Inv.userMemLoop_spec : ∀ (fuel start : ℕ) (mm : Mm), Inv mm →
    userMemLoop stop write fuel start mm = some (true, mm') →
    Inv mm' ∧ mm'.vmas = mm.vmas ∧ mm'.mmapList = mm.mmapList ∧ mm'.self = mm.self ∧
      ∀ a, start ≤ a → a < stop → ∃ v ∈ mm.mmapList, (mm.vma v).Has a ∧
        Checked write (mm.vma v) a := by
  intro fuel
  induction fuel with
  | zero => intro start mm _ hrun; cases hrun
  | succ fuel ih =>
    intro start mm h hrun
    unfold userMemLoop at hrun
    split at hrun
    · rename_i hlt
      rw [h.findVma_spec] at hrun
      simp only [Option.bind_eq_bind, Option.bind_some] at hrun
      split at hrun
      · cases hrun
      · rename_i v hv
        obtain ⟨hmem, hend⟩ := firstAbove_mem hv
        have hlive : (mm.touched start).vmas v = some (mm.vma v) := by
          rw [touched_vmas]
          exact (h.member v hmem).live
        rw [hlive] at hrun
        rw [Option.bind_some] at hrun
        split at hrun
        · cases hrun
        rename_i hstart
        split at hrun
        · cases hrun
        rename_i hflags
        split at hrun
        · cases hrun
        rename_i hstack
        obtain ⟨hinv, hvmas, hlist, hself, hrest⟩ := ih _ _ (h.touched start) hrun
        rw [touched_vmas] at hvmas
        rw [touched_mmapList] at hlist hrest
        rw [touched_vma] at hrest
        refine ⟨hinv, hvmas, hlist, hself.trans touched_self, fun a hlo hhi => ?_⟩
        by_cases ha : a < (mm.vma v).vmEnd
        · refine ⟨v, hmem, ⟨(Nat.le_of_not_lt hstart).trans hlo, ha⟩, hflags, fun hw hs => ?_⟩
          have := not_and.mp (not_and.mp hstack hw) hs
          omega
        · exact hrest a (Nat.le_of_not_lt ha) hhi
    · rename_i hge
      cases hrun
      exact ⟨h, rfl, rfl, rfl, fun a hlo hhi => absurd (lt_of_le_of_lt hlo hhi) hge⟩

/-- The VMAs that end behind `start`: each turn of the loop leaves one of them behind. -/
def endingAbove (mm : Mm) (start : ℕ) : List ℕ :=
  mm.mmapList.filter fun v => decide (start < (mm.vma v).vmEnd)

theorem endingAbove_lt (hv : v ∈ mm.mmapList) (hend : start < (mm.vma v).vmEnd) :
    (mm.endingAbove (mm.vma v).vmEnd).length < (mm.endingAbove start).length := by
  have hsub : mm.endingAbove (mm.vma v).vmEnd =
      (mm.endingAbove start).filter fun u => decide ((mm.vma v).vmEnd < (mm.vma u).vmEnd) := by
    unfold endingAbove
    rw [List.filter_filter]
    refine List.filter_congr fun u _ => ?_
    simp only [← Bool.decide_and]
    refine decide_eq_decide.mpr ⟨fun h => ⟨h, by omega⟩, fun h => h.1⟩
  rw [hsub]
  refine List.length_filter_lt_length_iff_exists.mpr ⟨v, ?_, by simp⟩
  exact List.mem_filter.mpr ⟨hv, decide_eq_true hend⟩

theorem Inv.userMemLoop_total : ∀ (fuel start : ℕ) (mm : Mm), Inv mm →
    (mm.endingAbove start).length < fuel →
    ∃ b mm', userMemLoop stop write fuel start mm = some (b, mm') := by
  intro fuel
  induction fuel with
  | zero => intro start mm _ hlt; omega
  | succ fuel ih =>
    intro start mm h hlt
    unfold userMemLoop
    split
    · rw [h.findVma_spec]
      simp only [Option.bind_eq_bind, Option.bind_some]
      cases hv : mm.firstAbove start mm.mmapList with
      | none => exact ⟨false, _, rfl⟩
      | some v =>
        obtain ⟨hmem, hend⟩ := firstAbove_mem hv
        dsimp only
        rw [touched_vmas, (h.member v hmem).live, Option.bind_some]
        split
        · exact ⟨false, _, rfl⟩
        split
        · exact ⟨false, _, rfl⟩
        split
        · exact ⟨false, _, rfl⟩
        refine ih _ _ (h.touched start) ?_
        have hlt' := endingAbove_lt hmem hend
        unfold endingAbove at hlt' hlt ⊢
        rw [touched_mmapList, touched_vma]
        omega
    · exact ⟨true, _, rfl⟩

/-- `user_mem_check` returns: its loop visits every VMA at most once. -/
theorem Inv.userMemCheck_total (h : Inv mm) (addr len : ℕ) (write : Bool) :
    ∃ b mm', mm.userMemCheck addr len write = some (b, mm') := by
  unfold userMemCheck
  dsimp only
  split
  · exact ⟨false, _, rfl⟩
  · refine h.userMemLoop_total _ _ _ ?_
    exact Nat.lt_succ_of_le (List.length_filter_le _ _)

/-- `user_mem_check` returned true: the VMAs it found. -/
theorem Inv.userMemCheck_spec (h : Inv mm) (hlen : len < 2 ^ 32)
    (hrun : mm.userMemCheck addr len write = some (true, mm')) :
    Inv mm' ∧ mm'.vma = mm.vma ∧ mm'.mmapList = mm.mmapList ∧ mm'.self = mm.self ∧
      ∀ a, addr ≤ a → a < addr + len → ∃ v ∈ mm.mmapList, (mm.vma v).Has a ∧
        Checked write (mm.vma v) a := by
  unfold userMemCheck at hrun
  dsimp only at hrun
  split at hrun
  · cases hrun
  rename_i haccess
  have haccess := not_not.mp haccess
  obtain ⟨hinv, hvmas, hlist, hself, hcheck⟩ := Inv.userMemLoop_spec _ _ _ h hrun
  refine ⟨hinv, ?_, hlist, hself, fun a hlo hhi => hcheck a hlo ?_⟩
  · funext v
    exact vma_congr (by rw [hvmas])
  · -- the range does not wrap, since its end lies above its start
    have hstop : addr + len < 2 ^ 32 := by
      have hlt := haccess.2.1
      have htop := haccess.2.2
      unfold wadd at hlt htop
      unfold USERTOP at htop
      omega
    unfold wadd
    rw [Nat.mod_eq_of_lt hstop]
    exact hhi

/-! ## The accesses to a checked range -/

/-- The access does not end in a fault that `do_pgfault` refuses with `-E_INVAL`. -/
def Handled (mm : Mm) (s : Sys) (a : ℕ) (acc : Access) : Prop :=
  ∀ code, s.accessFault mm.self a acc = some code →
    ∀ env ret s' mm', mm.doPgfault env s code a = some (ret, s', mm') → ret ≠ -E_INVAL

theorem Inv.doPgfault_eq {env : Env} {s : Sys} {code : ℕ} (h : Inv mm) (hv : v ∈ mm.mmapList)
    (hhas : (mm.vma v).Has addr) : mm.doPgfault env s code addr =
      (s.doPgfault env mm.self (some (mm.vma v)) code addr).map
        fun r => (r.1, r.2, mm.touched addr) := by
  unfold doPgfault
  rw [h.findVma_spec, h.firstAbove_of_mem hv hhas.1 hhas.2]
  simp only [Option.bind_eq_bind, Option.bind_some, Option.map_some, touched_self, touched_vma]
  cases s.doPgfault env mm.self (some (mm.vma v)) code addr <;> rfl

/-- An access is handled iff it does not fault or the checks of `do_pgfault` pass. -/
theorem Inv.handled_iff {s : Sys} {acc : Access} (h : Inv mm) (hv : v ∈ mm.mmapList)
    (hhas : (mm.vma v).Has addr) : mm.Handled s addr acc ↔
      ∀ code, s.accessFault mm.self addr acc = some code →
        Sys.pgfaultAllowed (mm.vma v) code addr = true := by
  refine ⟨fun hh code hcode => ?_, fun hh code hcode env ret s' mm' hrun => ?_⟩
  · by_contra hno
    let env : Env := ⟨fun _ => none, fun _ _ => 0, false, fun _ => none⟩
    refine hh code hcode env (-E_INVAL) s (mm.touched addr) ?_ rfl
    rw [h.doPgfault_eq hv hhas, Sys.doPgfault_refused hno]
    rfl
  · rw [h.doPgfault_eq hv hhas] at hrun
    obtain ⟨r, hr, heq⟩ := Option.map_eq_some_iff.mp hrun
    cases heq
    exact Sys.doPgfault_ret (hh code hcode) hr

/-- The checks of `do_pgfault` for a load of a missing page. -/
theorem pgfaultAllowed_load {x : Vma} {a : ℕ} (hhas : x.Has a) :
    Sys.pgfaultAllowed x 0 a = true ↔
      ¬ (x.vmFlags &&& VM_STACK ≠ 0 ∧ a < x.vmStart + PGSIZE) ∧
        x.vmFlags &&& (VM_READ ||| VM_EXEC) ≠ 0 := by
  unfold Sys.pgfaultAllowed
  simp [hhas.1, or_iff_not_imp_left]

/-- The checks of `do_pgfault` for a store, whether the page is present or not. -/
theorem pgfaultAllowed_store {x : Vma} {a code : ℕ} (hhas : x.Has a)
    (hcode : code = 2 ∨ code = 3) : Sys.pgfaultAllowed x code a = true ↔
      ¬ (x.vmFlags &&& VM_STACK ≠ 0 ∧ a < x.vmStart + PGSIZE) ∧ x.vmFlags &&& VM_WRITE ≠ 0 := by
  unfold Sys.pgfaultAllowed
  rcases hcode with rfl | rfl <;> simp [hhas.1, or_iff_not_imp_left]

/-- The flags of a VMA that has `VM_READ` let a missing page be loaded. -/
theorem read_or_exec {flags : UInt32} (h : flags &&& VM_READ ≠ 0) :
    flags &&& (VM_READ ||| VM_EXEC) ≠ 0 := by
  intro h0
  apply h
  have hsub : flags &&& VM_READ = flags &&& (VM_READ ||| VM_EXEC) &&& VM_READ := by
    rw [UInt32.and_assoc]
    rfl
  rw [hsub, h0]
  rfl

/-- **When the check is right.**  `user_mem_check` and `do_pgfault` agree about a range to be read
as long as no missing page of it is the guard page of a stack, and about a range to be written as
long as every missing page of it is in a VMA that may also be read or executed. -/
def Agrees (mm : Mm) (s : Sys) (addr len : ℕ) (write : Bool) : Prop :=
  ∀ a, addr ≤ a → a < addr + len → s.mapped mm.self a = none →
    ∀ v ∈ mm.mmapList, (mm.vma v).Has a →
      if write then (mm.vma v).vmFlags &&& (VM_READ ||| VM_EXEC) ≠ 0
      else ¬ ((mm.vma v).vmFlags &&& VM_STACK ≠ 0 ∧ a < (mm.vma v).vmStart + PGSIZE)

theorem load_mem_after (write : Bool) : Access.load ∈ Access.after write := by
  cases write <;> simp [Access.after]

/-- **Checked user memory.**  After `user_mem_check` has returned true, the accesses that its
callers go on to make are all handled iff the two pieces of code agree about the missing pages of
the range. -/
theorem user_mem_access {s : Sys} (h : Inv mm) (hlen : len < 2 ^ 32)
    (hrun : mm.userMemCheck addr len write = some (true, mm')) :
    (∀ a, addr ≤ a → a < addr + len → ∀ acc ∈ Access.after write, mm'.Handled s a acc) ↔
      mm.Agrees s addr len write := by
  obtain ⟨hinv, hvma, hlist, hself, hcheck⟩ := h.userMemCheck_spec hlen hrun
  -- the VMA of an address is the one that the check has seen
  have hiff : ∀ a v acc, v ∈ mm.mmapList → (mm.vma v).Has a → (mm'.Handled s a acc ↔
      ∀ code, s.accessFault mm.self a acc = some code →
        Sys.pgfaultAllowed (mm.vma v) code a = true) := by
    intro a v acc hv hhas
    rw [← hvma] at hhas ⊢
    rw [← hself]
    exact hinv.handled_iff (by rw [hlist]; exact hv) hhas
  constructor
  · intro hall a hlo hhi hnone v hv hhas
    have hload := (hiff a v .load hv hhas).mp (hall a hlo hhi .load (load_mem_after write))
    have hallow := (pgfaultAllowed_load hhas).mp (hload 0 (by simp [Sys.accessFault, hnone]))
    cases write with
    | false => exact hallow.1
    | true => exact hallow.2
  · intro hagree a hlo hhi acc hacc
    obtain ⟨v, hv, hhas, hflag, hstack⟩ := hcheck a hlo hhi
    refine (hiff a v acc hv hhas).mpr fun code hcode => ?_
    cases acc with
    | load =>
      -- a load faults only if the page is missing
      obtain ⟨hnone, rfl⟩ : s.mapped mm.self a = none ∧ 0 = code := by
        unfold Sys.accessFault at hcode
        dsimp only at hcode
        split at hcode
        · exact ⟨‹_›, Option.some.inj hcode⟩
        · cases hcode
      have hag := hagree a hlo hhi hnone v hv hhas
      refine (pgfaultAllowed_load hhas).mpr ?_
      cases write with
      | false => exact ⟨hag, read_or_exec hflag⟩
      | true =>
        refine ⟨fun hguard => ?_, hag⟩
        have := hstack rfl hguard.1
        omega
    | store =>
      cases write with
      | false => simp [Access.after] at hacc
      | true =>
        have hcode' : code = 2 ∨ code = 3 := by
          unfold Sys.accessFault at hcode
          dsimp only at hcode
          split at hcode
          · exact Or.inl (Option.some.inj hcode).symm
          · split at hcode
            · cases hcode
            · exact Or.inr (Option.some.inj hcode).symm
        refine (pgfaultAllowed_store hhas hcode').mpr ⟨fun hguard => ?_, hflag⟩
        have := hstack rfl hguard.1
        omega

/-- An address space of one VMA. -/
def single (start stop : ℕ) (flags : UInt32) : Mm where
  self := 0
  mmapList := [0]
  mmapTree := none
  mmapCache := none
  mapCount := 1
  vmas := fun v => if v = 0 then some ⟨some 0, start, stop, flags, 0, 0⟩ else none

theorem single_inv {flags : UInt32} (hok : VmaOk ⟨some 0, start, stop, flags, 0, 0⟩) :
    (single start stop flags).Inv := by
  refine ⟨fun v hv => ?_, List.pairwise_singleton _ _, rfl, nofun, nofun⟩
  cases List.mem_singleton.mp hv
  exact ⟨rfl, hok, rfl⟩

/-- The stack that `load_icode` makes. -/
def stackMm : Mm := single (USERTOP - 256 * PGSIZE) USERTOP (VM_READ ||| VM_WRITE ||| VM_STACK)

theorem stackMm_inv : stackMm.Inv :=
  single_inv ⟨by decide, by decide, by decide, by decide, by decide⟩

/-- A program: its text, its data after a gap, and the stack. -/
def programMm : Mm where
  self := 0
  mmapList := [1, 2, 0]
  mmapTree := none
  mmapCache := some 1
  mapCount := 3
  vmas := fun v =>
    if v = 1 then some ⟨some 0, 0x800000, 0x802000, VM_READ ||| VM_EXEC, 0, 0⟩
    else if v = 2 then some ⟨some 0, 0x803000, 0x804000, VM_READ ||| VM_WRITE, 0, 0⟩
    else stackMm.vmas v

theorem programMm_inv : programMm.Inv := by
  have hmem : ∀ v ∈ [1, 2, 0], programMm.Member v := by
    intro v hv
    simp only [List.mem_cons, List.not_mem_nil, or_false] at hv
    rcases hv with rfl | rfl | rfl <;>
      exact ⟨rfl, ⟨by decide, by decide, by decide, by decide, by decide⟩, rfl⟩
  refine ⟨hmem, ?_, rfl, nofun, fun v hv => ?_⟩
  · unfold Ordered
    decide
  · cases hv
    decide

/-- A segment of a program with the flag `ELF_PF_W` alone. -/
def writeOnlyMm : Mm := single 0x800000 0x801000 VM_WRITE

theorem writeOnlyMm_inv : writeOnlyMm.Inv :=
  single_inv ⟨by decide, by decide, by decide, by decide, by decide⟩

/-- A word in the middle of the stack is read and written without harm. -/
theorem user_mem_access_stack :
    (stackMm.touched (USERTOP - 64)).Handled Sys.boot (USERTOP - 61) .load ∧
      (stackMm.touched (USERTOP - 64)).Handled Sys.boot (USERTOP - 61) .store := by
  have hall := (user_mem_access (s := Sys.boot) stackMm_inv (by decide : 4 < 2 ^ 32)
    (rfl : stackMm.userMemCheck (USERTOP - 64) 4 true = some (true, stackMm.touched (USERTOP - 64)))).mpr
    fun a _ _ _ v hv _ => by
      cases List.mem_singleton.mp hv
      show (VM_READ ||| VM_WRITE ||| VM_STACK) &&& (VM_READ ||| VM_EXEC) ≠ 0
      decide
  constructor
  · exact hall (USERTOP - 61) (by decide) (by decide) .load (by decide)
  · exact hall (USERTOP - 61) (by decide) (by decide) .store (by decide)

/-- The check passes for the guard page of a stack, which cannot be loaded, and for a VMA that
may only be written, whose missing pages cannot be loaded either. -/
theorem user_mem_check_disagrees :
    (¬ ∀ (mm mm' : Mm) (s : Sys) (addr len : ℕ), mm.Inv → len < 2 ^ 32 →
      mm.userMemCheck addr len false = some (true, mm') →
      ∀ a, addr ≤ a → a < addr + len → ∀ acc ∈ Access.after false, mm'.Handled s a acc) ∧
    ¬ ∀ (mm mm' : Mm) (s : Sys) (addr len : ℕ), mm.Inv → len < 2 ^ 32 →
      mm.userMemCheck addr len true = some (true, mm') →
      ∀ a, addr ≤ a → a < addr + len → ∀ acc ∈ Access.after true, mm'.Handled s a acc := by
  constructor
  · intro hclaim
    refine hclaim stackMm _ Sys.boot (USERTOP - 256 * PGSIZE) 1 stackMm_inv (by decide) rfl
      (USERTOP - 256 * PGSIZE) le_rfl (by decide) .load (by decide) 0 rfl Sys.bootEnv _ _ _ rfl rfl
  · intro hclaim
    refine hclaim writeOnlyMm _ Sys.boot 0x800000 4 writeOnlyMm_inv (by decide) rfl
      0x800000 le_rfl (by decide) .load (by decide) 0 rfl Sys.bootEnv _ _ _ rfl rfl

end Mm

end Ucore
