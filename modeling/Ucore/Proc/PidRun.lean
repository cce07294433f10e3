import Ucore.Proc.Pid

/-!
# The runs of `get_pid`

`last_pid` and `next_safe` are kept from call to call, while processes come and go.  What they say about
the list survives that: a new process has the pid `last_pid`, which is below the window between the two.

Principal result: `get_pid_fresh` — a call after any run ends, with a pid that nobody on the list has.
-/

namespace Ucore.Process

/-- The pids on `proc_list` with the static variables of `get_pid`, and the pid that was returned last
and is not in use yet. -/
structure Pids where
  list : List ℤ
  last : ℤ
  next : ℤ
  returned : Option ℤ

/-- Before the first call. -/
def Pids.boot : Pids := ⟨[], MAX_PID, MAX_PID, none⟩

/-- What happens between the calls, and the calls. -/
inductive Pids.Step (s : Pids) : Pids → Prop where
  /-- A call of `get_pid` while a pid is left. -/
  | call {last next : ℤ} (hlen : (s.list.length : ℤ) < MAX_PID - 1)
      (hget : getPid s.list s.last s.next = some (last, next)) :
      Step s { s with last, next, returned := some last }
  /-- A process with the pid just returned is put on the list, anywhere. -/
  | create {pid : ℤ} (hpid : s.returned = some pid) (pre post : List ℤ) (hlist : s.list = pre ++ post) :
      Step s { s with list := pre ++ pid :: post, returned := none }
  /-- A process is taken off the list. -/
  | remove (pre post : List ℤ) (pid : ℤ) (hlist : s.list = pre ++ pid :: post) :
      Step s { s with list := pre ++ post }

/-- The states that a run leads to. -/
inductive Pids.Reached : Pids → Prop where
  | boot : Reached boot
  | step {s s' : Pids} (hs : Reached s) (h : Step s s') : Reached s'

/-- What `last_pid` and `next_safe` say about the list. -/
structure Pids.Inv (s : Pids) : Prop where
  pos : 1 ≤ s.last
  clear : Clear s.list (s.last + 1) s.next
  returned : ∀ pid, s.returned = some pid → pid = s.last

namespace Pids

variable {s s' : Pids}

theorem boot_inv : boot.Inv := ⟨by decide, nofun, nofun⟩

theorem Inv.step (h : s.Inv) (hstep : s.Step s') : s'.Inv := by
  cases hstep with
  | call hlen hget =>
    obtain ⟨free, hfree, hmax, hout⟩ := exists_free hlen
    obtain ⟨l, n, hrun, hl, -, -, hclear⟩ := getPid_spec hfree hmax hout h.pos h.clear
    rw [hget] at hrun
    cases hrun
    exact ⟨hl, hclear, fun pid hpid => (Option.some.inj hpid).symm⟩
  | create hpid pre post hlist =>
    refine ⟨h.pos, fun q hq => ?_, nofun⟩
    rw [List.mem_append, List.mem_cons] at hq
    rcases hq with hq | rfl | hq
    · exact h.clear q (by rw [hlist]; exact List.mem_append_left _ hq)
    · have := h.returned _ hpid
      left
      show _ < s.last + 1
      omega
    · exact h.clear q (by rw [hlist]; exact List.mem_append_right _ hq)
  | remove pre post pid hlist =>
    refine ⟨h.pos, fun q hq => h.clear q ?_, h.returned⟩
    rw [hlist]
    rcases List.mem_append.mp hq with hq | hq
    · exact List.mem_append_left _ hq
    · exact List.mem_append_right _ (List.mem_cons_of_mem _ hq)

theorem Reached.inv (h : s.Reached) : s.Inv := by
  induction h with
  | boot => exact boot_inv
  | step _ hstep ih => exact ih.step hstep

/-- **A call of `get_pid`** with fewer than `MAX_PID - 1` processes on the list ends, with a pid that
none of them has, and none of them has a pid strictly between the new `last_pid` and the new
`next_safe`. -/
theorem get_pid_fresh (s : Pids) (h : s.Reached) (hlen : (s.list.length : ℤ) < MAX_PID - 1) :
    ∃ pid next, getPid s.list s.last s.next = some (pid, next) ∧ 1 ≤ pid ∧ pid < MAX_PID ∧
      pid ∉ s.list ∧ ∀ q ∈ s.list, ¬ (pid < q ∧ q < next) := by
  obtain ⟨free, hfree, hmax, hout⟩ := exists_free hlen
  obtain ⟨l, n, hrun, hl, hlm, hfresh, hclear⟩ := getPid_spec hfree hmax hout h.inv.pos h.inv.clear
  refine ⟨l, n, hrun, hl, hlm, hfresh, fun q hq hbetween => ?_⟩
  rcases hclear q hq with h | h <;> omega

/-- The second call: the first pid is on the list. -/
theorem get_pid_fresh_second : ∃ s : Pids, s.Reached ∧ s.list = [1] ∧
    ∃ pid next, getPid s.list s.last s.next = some (pid, next) ∧ 1 ≤ pid ∧ pid < MAX_PID ∧
      pid ∉ s.list ∧ ∀ q ∈ s.list, ¬ (pid < q ∧ q < next) := by
  have hone : (⟨[], 1, MAX_PID, some 1⟩ : Pids).Reached :=
    .step .boot (.call (by decide) rfl)
  have htwo : (⟨[1], 1, MAX_PID, none⟩ : Pids).Reached :=
    .step hone (.create rfl [] [] rfl)
  exact ⟨_, htwo, rfl, get_pid_fresh _ htwo (by decide)⟩

end Pids

end Ucore.Process
