import Ucore.Proc.Table

/-!
# `get_pid`

* `scan_done` — what a pass that ends has found: no pid from `last_pid` up to `next_safe` is in use;
* `scan_again` — a pass that starts again is nearer to every free pid, in the circle of the pids;
* `getPid_spec` — hence, as long as a pid is free, the loop ends, and with a free pid.
-/

namespace Ucore.Process

variable {pids : List ℤ} {last next last' next' free : ℤ}

/-- No pid from `last` up to `next` is in use. -/
def Clear (pids : List ℤ) (last next : ℤ) : Prop := ∀ pid ∈ pids, pid < last ∨ next ≤ pid

theorem scan_done (hlt : last < next) (h : scan pids last next = (last', next', false)) :
    last ≤ last' ∧ last' < next' ∧ next' ≤ next ∧ Clear pids last' next' := by
  induction pids generalizing last next with
  | nil =>
    cases h
    exact ⟨le_refl _, hlt, le_refl _, nofun⟩
  | cons pid rest ih =>
    unfold scan at h
    split at h
    · rename_i heq
      split at h
      · cases h
      · obtain ⟨hl, hln, hn, hclear⟩ := ih (by omega) h
        refine ⟨by omega, hln, hn, fun q hq => ?_⟩
        rcases List.mem_cons.mp hq with rfl | hq
        · left
          omega
        · exact hclear q hq
    split at h
    · rename_i hbetween
      obtain ⟨hl, hln, hn, hclear⟩ := ih hbetween.1 h
      refine ⟨hl, hln, by omega, fun q hq => ?_⟩
      rcases List.mem_cons.mp hq with rfl | hq
      · exact Or.inr hn
      · exact hclear q hq
    · obtain ⟨hl, hln, hn, hclear⟩ := ih hlt h
      refine ⟨hl, hln, hn, fun q hq => ?_⟩
      rcases List.mem_cons.mp hq with rfl | hq
      · omega
      · exact hclear q hq

/-- How many pids are before `free`, from `last` on in the circle of the pids. -/
def distance (free last : ℤ) : ℤ := if last ≤ free then free - last else free + (MAX_PID - 1) - last

theorem distance_succ (hfree : 1 ≤ free) (hmax : free < MAX_PID) (hne : last ≠ free)
    (hlast : last + 1 ≤ MAX_PID) :
    distance free (if last + 1 ≥ MAX_PID then 1 else last + 1) < distance free last := by
  unfold distance
  split_ifs <;> omega

theorem scan_again (hfree : 1 ≤ free) (hmax : free < MAX_PID) (hout : free ∉ pids) (hlast : 1 ≤ last)
    (hlt : last < next) (hnext : next ≤ MAX_PID)
    (h : scan pids last next = (last', next', true)) :
    1 ≤ last' ∧ last' < MAX_PID ∧ next' = MAX_PID ∧ distance free last' < distance free last := by
  induction pids generalizing last next with
  | nil => cases h
  | cons pid rest ih =>
    have hout' : free ∉ rest := fun hmem => hout (List.mem_cons_of_mem pid hmem)
    unfold scan at h
    split at h
    · rename_i heq
      have hne : last ≠ free := fun hno => hout (by rw [← hno, ← heq]; exact List.mem_cons_self)
      have hcloser := distance_succ hfree hmax hne (by omega)
      split at h
      · cases h
        refine ⟨?_, ?_, rfl, hcloser⟩
        · split <;> omega
        · unfold MAX_PID at *
          split <;> omega
      · obtain ⟨h1, hl, hn, hd⟩ := ih hout' (by omega) (by omega) hnext h
        rw [if_neg (by omega)] at hcloser
        exact ⟨h1, hl, hn, hd.trans hcloser⟩
    split at h
    · exact ih hout' hlast (by omega) (by omega) h
    · exact ih hout' hlast hlt hnext h

theorem rescan_spec (hfree : 1 ≤ free) (hmax : free < MAX_PID) (hout : free ∉ pids) (fuel : ℕ)
    (hlast : 1 ≤ last) (hlt : last < MAX_PID) (hfuel : distance free last < fuel) :
    ∃ l n, rescan pids fuel last MAX_PID = some (l, n) ∧ 1 ≤ l ∧ l < MAX_PID ∧ l < n ∧
      Clear pids l n := by
  induction fuel generalizing last with
  | zero =>
    unfold distance at hfuel
    split at hfuel <;> omega
  | succ fuel ih =>
    unfold rescan
    rcases hscan : scan pids last MAX_PID with ⟨l, n, again⟩
    cases again with
    | false =>
      obtain ⟨hl, hln, hn, hclear⟩ := scan_done hlt hscan
      exact ⟨l, n, rfl, by omega, by omega, hln, hclear⟩
    | true =>
      obtain ⟨hl, hlm, rfl, hd⟩ := scan_again hfree hmax hout hlast hlt (le_refl _) hscan
      exact ih hl hlm (by omega)

/-- **`get_pid`** gives a pid that is not in use, and keeps what it knows about `next_safe`. -/
theorem getPid_spec (hfree : 1 ≤ free) (hmax : free < MAX_PID) (hout : free ∉ pids)
    (hlast : 1 ≤ last) (hclear : Clear pids (last + 1) next) :
    ∃ l n, getPid pids last next = some (l, n) ∧ 1 ≤ l ∧ l < MAX_PID ∧ l ∉ pids ∧
      Clear pids (l + 1) n := by
  have hnew : ∀ {l n : ℤ}, l < n → Clear pids l n → l ∉ pids ∧ Clear pids (l + 1) n := by
    intro l n hln hc
    constructor
    · intro hmem
      rcases hc l hmem with h | h <;> omega
    · intro q hq
      rcases hc q hq with h | h
      · left
        omega
      · exact Or.inr h
  have hdist : ∀ l : ℤ, 1 ≤ l → distance free l < (MAX_PID.toNat : ℤ) := by
    intro l hl
    have hcast : (MAX_PID.toNat : ℤ) = MAX_PID := rfl
    unfold distance
    split <;> omega
  unfold getPid
  split
  · obtain ⟨l, n, hrun, hl, hlm, hln, hc⟩ :=
      rescan_spec hfree hmax hout MAX_PID.toNat (le_refl 1) (by decide) (hdist 1 (le_refl 1))
    exact ⟨l, n, hrun, hl, hlm, hnew hln hc⟩
  split
  · obtain ⟨l, n, hrun, hl, hlm, hln, hc⟩ :=
      rescan_spec hfree hmax hout MAX_PID.toNat (Int.le_add_one hlast) (by omega)
        (hdist (last + 1) (by omega))
    exact ⟨l, n, hrun, hl, hlm, hnew hln hc⟩
  · exact ⟨last + 1, next, rfl, by omega, by omega, hnew (by omega) hclear⟩

/-- Fewer pids in use than there are: one is free. -/
theorem exists_free (hlen : (pids.length : ℤ) < MAX_PID - 1) :
    ∃ free, 1 ≤ free ∧ free < MAX_PID ∧ free ∉ pids := by
  by_contra hno
  have hsub : (List.range 8191).map (fun i : ℕ => (i : ℤ) + 1) ⊆ pids := by
    intro q hq
    obtain ⟨i, hi, rfl⟩ := List.mem_map.mp hq
    have hi : i < 8191 := List.mem_range.mp hi
    by_contra hmem
    exact hno ⟨(i : ℤ) + 1, by omega, by unfold MAX_PID; omega, hmem⟩
  have hnodup : ((List.range 8191).map fun i : ℕ => (i : ℤ) + 1).Nodup :=
    List.nodup_range.map fun i j hij => by omega
  have hle := (hnodup.subperm hsub).length_le
  rw [List.length_map, List.length_range] at hle
  unfold MAX_PID at hlen
  omega

/-! ## Whatever is in use -/

theorem scan_pos {again : Bool} (hlast : 1 ≤ last) (h : scan pids last next = (last', next', again)) : 1 ≤ last' := by
  induction pids generalizing last next with
  | nil =>
    cases h
    exact hlast
  | cons pid rest ih =>
    unfold scan at h
    split at h
    · split at h
      · cases h
        split <;> omega
      · exact ih (by omega) h
    split at h
    · exact ih hlast h
    · exact ih hlast h

theorem rescan_pos (hlast : 1 ≤ last) {fuel : ℕ} (h : rescan pids fuel last next = some (last', next')) :
    1 ≤ last' := by
  induction fuel generalizing last next with
  | zero => cases h
  | succ fuel ih =>
    unfold rescan at h
    split at h
    · rename_i hscan
      exact ih (scan_pos hlast hscan) h
    · rename_i hscan
      cases h
      exact scan_pos hlast hscan

/-- A pid that `get_pid` returns is positive. -/
theorem getPid_pos (hlast : 1 ≤ last) (h : getPid pids last next = some (last', next')) : 1 ≤ last' := by
  unfold getPid at h
  split at h
  · exact rescan_pos le_rfl h
  split at h
  · exact rescan_pos (by omega) h
  · cases h
    omega

end Ucore.Process
