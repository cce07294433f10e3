import Ucore.Mm.Swap
import Mathlib.Data.List.Nodup

/-!
# Invariants of the swap cache

What holds between two calls of `kern/mm/swap.c`, for given numbers of references: `R f` page table
entries map the frame `f`, and `H o` page table entries hold the swap entry `o`.

* `CacheInv`: the hash holds the pages with `PG_swap`, each under its entry and at most one for each
  entry, and each of them is on the list that `PG_active` names.  A page that a function has taken
  off its list and not yet put back is `off`.
* `Counts`: `page->ref` and `mem_map` are these numbers.
* `Clean`: a page that is not dirty is what its slot has.
-/

namespace Ucore

theorem of_guard {p : Prop} [Decidable p] {u : Unit} (h : (guard p : Option Unit) = some u) : p := by
  by_contra hp
  simp [hp] at h

namespace Sys

/-- The frame holds a page table, or a node of a shared memory object. -/
def IsTable (s : Sys) (f : ℕ) : Prop :=
  (∃ mm idx, s.pde mm idx = some f) ∨ ∃ shmem idx, s.shmn shmem idx = some f

/-- The frame is the page of the entry `o` in the swap cache. -/
def Caches (s : Sys) (f o : ℕ) : Prop := s.pageSwap f = true ∧ s.pageIndex f = o

/-- The offset of an entry that `swap_offset` accepts. -/
def InRange (s : Sys) (o : ℕ) : Prop := 0 < o ∧ o < s.maxSwapOffset

/-- The hash and the lists agree with the flags of the pages. -/
structure CacheInv (s : Sys) (off : Option ℕ) : Prop where
  hash : ∀ b f, f ∈ s.hashList b ↔ s.pageSwap f = true ∧ b = entryHashfn (s.pageIndex f)
  hashNodup : ∀ b, (s.hashList b).Nodup
  index : ∀ f, s.pageSwap f = true → s.InRange (s.pageIndex f)
  unique : ∀ f g o, s.Caches f o → s.Caches g o → f = g
  active : ∀ f, f ∈ s.activeList.pages ↔
    s.pageSwap f = true ∧ s.pageActive f = true ∧ off ≠ some f
  inactive : ∀ f, f ∈ s.inactiveList.pages ↔
    s.pageSwap f = true ∧ s.pageActive f = false ∧ off ≠ some f
  activeNodup : s.activeList.pages.Nodup
  inactiveNodup : s.inactiveList.pages.Nodup
  nrActive : s.activeList.nrPages = s.activeList.pages.length
  nrInactive : s.inactiveList.nrPages = s.inactiveList.pages.length

/-- The count of an entry with `n` holders: it is unused, or `mem_map` has their number. -/
def EntryCount (s : Sys) (n o : ℕ) : Prop :=
  (s.memMap o = SWAP_UNUSED ∧ n = 0 ∧ ∀ f, ¬ s.Caches f o) ∨
    (s.memMap o = n ∧ n < SWAP_UNUSED ∧ (n = 0 → ∃ f, s.Caches f o))

/-- The reference counts are the numbers `R` and `H`. -/
structure Counts (s : Sys) (R H : ℕ → ℕ) : Prop where
  ref : ∀ f, ¬ s.IsTable f → s.pageRef f = R f
  table : ∀ f, s.IsTable f → R f = 0 ∧ s.free f = false ∧ s.pageSwap f = false
  free : ∀ f, s.free f = true → R f = 0 ∧ s.pageSwap f = false
  entry : ∀ o, s.InRange o → s.EntryCount (H o) o
  range : ∀ o, H o ≠ 0 → s.InRange o
  next : s.InRange s.next

/-- The invariant of `swap.c` between two calls. -/
structure SwapInv (s : Sys) (R H : ℕ → ℕ) : Prop where
  cache : s.CacheInv none
  counts : s.Counts R H

/-- A cached page that is not dirty, by its flag or by a mapping, is what its slot has. -/
def Clean (s : Sys) (D : ℕ → Prop) : Prop :=
  ∀ f, s.pageSwap f = true → s.pageDirty f = false → ¬ D f → s.disk (s.pageIndex f) = s.data f

/-- What the entry `o` stands for: the page in the cache, or else the slot. -/
def slot (s : Sys) (o : ℕ) : Data :=
  match s.swapHashFind o with
  | some f => s.data f
  | none => s.disk o

/-- The page tables, which `swap.c` leaves alone; a mapped page in the cache has been there before,
or has come under an entry without holders. -/
structure SameTables (s s' : Sys) (R H' : ℕ → ℕ) : Prop where
  maxSwapOffset : s'.maxSwapOffset = s.maxSwapOffset
  pde : s'.pde = s.pde
  shmn : s'.shmn = s.shmn
  shmLen : s'.shmLen = s.shmLen
  pte : s'.pte = s.pte
  caches : ∀ f o, R f ≠ 0 → s'.Caches f o → s.Caches f o ∨ H' o = 0

/-- What a call leaves alone: the tables, the contents of frames that were in use, what the entries
with holders afterwards stand for, and clean pages. -/
structure Keeps (s s' : Sys) (R H' : ℕ → ℕ) : Prop extends SameTables s s' R H' where
  data : ∀ f, s.free f = false → s'.data f = s.data f
  slot : ∀ o, H' o ≠ 0 → s'.slot o = s.slot o
  clean : ∀ D, s.Clean D → s'.Clean D

variable {s s' : Sys} {R H : ℕ → ℕ} {off : Option ℕ} {f g o n : ℕ}

theorem SameTables.trans {s'' : Sys} {H'' H' : ℕ → ℕ} (h : SameTables s s' R H')
    (h' : SameTables s' s'' R H'') (hH : ∀ o, H'' o ≠ 0 → H' o ≠ 0) : SameTables s s'' R H'' := by
  refine ⟨h'.1.trans h.1, h'.2.trans h.2, h'.3.trans h.3, h'.4.trans h.4, h'.5.trans h.5,
    fun f o hR hf => ?_⟩
  rcases h'.caches f o hR hf with hf' | h0
  · rcases h.caches f o hR hf' with hf'' | h0
    · exact Or.inl hf''
    · exact Or.inr (by_contra fun hne => hH o hne h0)
  · exact Or.inr h0

theorem Keeps.refl (s : Sys) (R H' : ℕ → ℕ) : Keeps s s R H' :=
  ⟨⟨rfl, rfl, rfl, rfl, rfl, fun _ _ _ hf => Or.inl hf⟩, fun _ _ => rfl, fun _ _ => rfl,
    fun _ h => h⟩

/-- Two calls; the first one frees no frame that was in use, or the second one leaves the contents
of all frames alone. -/
theorem Keeps.trans {s'' : Sys} {H'' H' : ℕ → ℕ} (h : Keeps s s' R H') (h' : Keeps s' s'' R H'')
    (hH : ∀ o, H'' o ≠ 0 → H' o ≠ 0)
    (hdata : (∀ f, s.free f = false → s'.free f = false) ∨ s''.data = s'.data) :
    Keeps s s'' R H'' where
  toSameTables := h.toSameTables.trans h'.toSameTables hH
  data f hf := by
    rcases hdata with hfree | heq
    · rw [h'.data f (hfree f hf), h.data f hf]
    · rw [heq, h.data f hf]
  slot o ho := by rw [h'.slot o ho, h.slot o (hH o ho)]
  clean D hD := h'.clean D (h.clean D hD)

theorem IsTable.congr (hpde : s'.pde = s.pde) (hshmn : s'.shmn = s.shmn) :
    s'.IsTable f ↔ s.IsTable f := by
  unfold IsTable
  rw [hpde, hshmn]

/-! ## The hash -/

theorem CacheInv.caches_of_find (h : s.CacheInv off) (hf : s.swapHashFind o = some f) :
    s.Caches f o := by
  unfold swapHashFind at hf
  have hmem := List.mem_of_find?_eq_some hf
  have hidx := List.find?_some hf
  exact ⟨((h.hash _ f).mp hmem).1, by simpa using hidx⟩

theorem CacheInv.find_some (h : s.CacheInv off) : s.swapHashFind o = some f ↔ s.Caches f o := by
  refine ⟨h.caches_of_find, fun hf => ?_⟩
  have hmem : f ∈ s.hashList (entryHashfn o) := (h.hash _ f).mpr ⟨hf.1, by rw [hf.2]⟩
  cases hfind : s.swapHashFind o with
  | none =>
    unfold swapHashFind at hfind
    have hne := List.find?_eq_none.mp hfind f hmem
    simp [hf.2] at hne
  | some g => rw [h.unique f g o hf (h.caches_of_find hfind)]

theorem CacheInv.find_none (h : s.CacheInv off) :
    s.swapHashFind o = none ↔ ∀ f, ¬ s.Caches f o := by
  refine ⟨fun hfind f hf => ?_, fun hno => ?_⟩
  · rw [h.find_some.mpr hf] at hfind
    cases hfind
  · cases hfind : s.swapHashFind o with
    | none => rfl
    | some f => exact absurd (h.caches_of_find hfind) (hno f)

theorem CacheInv.slot_cached (h : s.CacheInv off) (hf : s.Caches f o) : s.slot o = s.data f := by
  unfold slot
  rw [h.find_some.mpr hf]

theorem CacheInv.slot_disk (h : s.CacheInv off) (hno : ∀ f, ¬ s.Caches f o) :
    s.slot o = s.disk o := by
  unfold slot
  rw [h.find_none.mpr hno]

/-- The slots are the same if the pages of the cache, their contents and the device are. -/
theorem slot_congr (hhash : s'.hashList = s.hashList) (hidx : s'.pageIndex = s.pageIndex)
    (hdata : s'.data = s.data) (hdisk : s'.disk = s.disk) : s'.slot = s.slot := by
  funext o
  unfold slot swapHashFind
  rw [hhash, hidx, hdata, hdisk]

/-! ## The lists -/

theorem CacheInv.congr (h : s.CacheInv off) (hswap : s'.pageSwap = s.pageSwap)
    (hactive : s'.pageActive = s.pageActive) (hidx : s'.pageIndex = s.pageIndex)
    (hhash : s'.hashList = s.hashList) (hmax : s'.maxSwapOffset = s.maxSwapOffset)
    (hal : s'.activeList = s.activeList) (hil : s'.inactiveList = s.inactiveList) :
    s'.CacheInv off := by
  obtain ⟨h1, h2, h3, h4, h5, h6, h7, h8, h9, h10⟩ := h
  unfold Caches at h4
  unfold InRange at h3
  rw [← hswap, ← hidx, ← hhash] at h1
  rw [← hhash] at h2
  rw [← hswap, ← hidx, ← hmax] at h3
  rw [← hswap, ← hidx] at h4
  rw [← hswap, ← hactive, ← hal] at h5
  rw [← hswap, ← hactive, ← hil] at h6
  rw [← hal] at h7 h9
  rw [← hil] at h8 h10
  exact ⟨h1, h2, h3, h4, h5, h6, h7, h8, h9, h10⟩

/-- A list without a page of it. -/
theorem length_erase_pred {l : List ℕ} (h : f ∈ l) : l.length - 1 = (l.erase f).length := by
  rw [List.length_erase_of_mem h]

theorem CacheInv.swapListDel_spec (h : s.CacheInv none) (hrun : s.swapListDel f = some s') :
    s.pageSwap f = true ∧ s'.CacheInv (some f) ∧
      ∃ al il, s' = { s with activeList := al, inactiveList := il } := by
  unfold swapListDel at hrun
  split at hrun
  · rename_i hswap
    refine ⟨hswap, ?_, _, _, (Option.some.inj hrun).symm⟩
    cases hrun
    refine ⟨h.hash, h.hashNodup, h.index, h.unique, fun g => ?_, fun g => ?_,
      h.activeNodup.erase f, h.inactiveNodup.erase f, ?_, ?_⟩
    · rw [h.activeNodup.mem_erase_iff, h.active g]
      grind
    · rw [h.inactiveNodup.mem_erase_iff, h.inactive g]
      grind
    · have hmem := h.active f
      have hlen := h.nrActive
      cases hact : s.pageActive f with
      | true =>
        have hin : f ∈ s.activeList.pages := by simp [hmem, hswap, hact]
        simp [hlen, length_erase_pred hin]
      | false =>
        have hout : f ∉ s.activeList.pages := by simp [hmem, hact]
        simp [hlen, List.erase_of_not_mem hout]
    · have hmem := h.inactive f
      have hlen := h.nrInactive
      cases hact : s.pageActive f with
      | true =>
        have hout : f ∉ s.inactiveList.pages := by simp [hmem, hact]
        simp [hlen, List.erase_of_not_mem hout]
      | false =>
        have hin : f ∈ s.inactiveList.pages := by simp [hmem, hswap, hact]
        simp [hlen, length_erase_pred hin]
  · cases hrun

theorem nodup_concat {l : List ℕ} (h : l.Nodup) (hf : f ∉ l) : (l ++ [f]).Nodup := by
  rw [List.nodup_append]
  simp [h]
  intro a ha hfa
  exact hf (hfa ▸ ha)

theorem CacheInv.swapActiveListAdd_spec (h : s.CacheInv (some f))
    (hrun : s.swapActiveListAdd f = some s') :
    s'.CacheInv none ∧ ∃ ac al, s' = { s with pageActive := ac, activeList := al } := by
  unfold swapActiveListAdd at hrun
  split at hrun
  · rename_i hswap
    refine ⟨?_, _, _, (Option.some.inj hrun).symm⟩
    cases hrun
    have hout : f ∉ s.activeList.pages := by simp [h.active f]
    refine ⟨h.hash, h.hashNodup, h.index, h.unique, fun g => ?_, fun g => ?_,
      nodup_concat h.activeNodup hout, h.inactiveNodup, by simp [h.nrActive], h.nrInactive⟩
    · simp only [List.mem_append, List.mem_singleton, h.active g, setPageActive]
      by_cases hg : g = f
      · subst hg; simp [hswap]
      · simp [hg, Ne.symm hg]
    · simp only [h.inactive g, setPageActive]
      by_cases hg : g = f
      · subst hg; simp
      · simp [hg, Ne.symm hg]
  · cases hrun

theorem CacheInv.swapInactiveListAdd_spec (h : s.CacheInv (some f))
    (hrun : s.swapInactiveListAdd f = some s') :
    s'.CacheInv none ∧ ∃ ac il, s' = { s with pageActive := ac, inactiveList := il } := by
  unfold swapInactiveListAdd at hrun
  split at hrun
  · rename_i hswap
    refine ⟨?_, _, _, (Option.some.inj hrun).symm⟩
    cases hrun
    have hout : f ∉ s.inactiveList.pages := by simp [h.inactive f]
    refine ⟨h.hash, h.hashNodup, h.index, h.unique, fun g => ?_, fun g => ?_,
      h.activeNodup, nodup_concat h.inactiveNodup hout, h.nrActive, by simp [h.nrInactive]⟩
    · simp only [h.active g, setPageActive]
      by_cases hg : g = f
      · subst hg; simp
      · simp [hg, Ne.symm hg]
    · simp only [List.mem_append, List.mem_singleton, h.inactive g, setPageActive]
      by_cases hg : g = f
      · subst hg; simp [hswap]
      · simp [hg, Ne.symm hg]
  · cases hrun

/-! ## Entering and leaving the cache -/

/-- A page enters the hash, under an entry without a page; it is on no list yet. -/
theorem CacheInv.hashAdd (h : s.CacheInv none) (hf : s.pageSwap f = false) (ho : s.InRange o)
    (hno : ∀ g, ¬ s.Caches g o) : (s.hashAdd f o).CacheInv (some f) := by
  have hmem : ∀ b g, g ∈ s.hashList b → g ≠ f := by
    intro b g hg hgf
    rw [hgf, h.hash] at hg
    simp [hf] at hg
  unfold Caches at hno
  refine ⟨fun b g => ?_, fun b => ?_, fun g => ?_, fun g k p => ?_, fun g => ?_, fun g => ?_,
    h.activeNodup, h.inactiveNodup, h.nrActive, h.nrInactive⟩
  · have hg := h.hash b g
    have hne := hmem b g
    simp only [Sys.hashAdd, setPageSwap, setIndex, Function.update_apply]
    grind
  · have hb := h.hashNodup b
    simp only [Sys.hashAdd, setPageSwap, setIndex, Function.update_apply]
    split
    · rename_i hbo
      subst hbo
      exact List.nodup_cons.mpr ⟨fun hm => hmem _ f hm rfl, hb⟩
    · exact hb
  · have hg := h.index g
    simp only [Sys.hashAdd, setPageSwap, setIndex, Function.update_apply, InRange] at hg ho ⊢
    grind
  · have hu := h.unique g k p
    simp only [Sys.hashAdd, setPageSwap, setIndex, Function.update_apply, Caches] at hu ⊢
    grind
  · have hg := h.active g
    simp only [Sys.hashAdd, setPageSwap, setIndex, Function.update_apply]
    grind
  · have hg := h.inactive g
    simp only [Sys.hashAdd, setPageSwap, setIndex, Function.update_apply]
    grind

/-- A page that is on no list leaves the hash. -/
theorem CacheInv.swapPageDel_spec (h : s.CacheInv (some f)) (hrun : s.swapPageDel f = some s') :
    s'.CacheInv none ∧
      s' = { s with
        pageSwap := Function.update s.pageSwap f false
        hashList := fun b => (s.hashList b).erase f } := by
  unfold swapPageDel at hrun
  split at hrun
  · rename_i hswap
    refine ⟨?_, (Option.some.inj hrun).symm⟩
    cases hrun
    refine ⟨fun b g => ?_, fun b => (h.hashNodup b).erase f, fun g hg => ?_,
      fun g k p hg hk => ?_, fun g => ?_, fun g => ?_, h.activeNodup, h.inactiveNodup, h.nrActive,
      h.nrInactive⟩
    · have hg := h.hash b g
      simp only [setPageSwap, Function.update_apply, (h.hashNodup b).mem_erase_iff]
      grind
    · have hg' := h.index g
      simp only [setPageSwap, Function.update_apply, InRange] at hg hg' ⊢
      grind
    · have hu := h.unique g k p
      simp only [setPageSwap, Function.update_apply, Caches] at hg hk hu
      grind
    · have hg := h.active g
      simp only [setPageSwap, Function.update_apply]
      grind
    · have hg := h.inactive g
      simp only [setPageSwap, Function.update_apply]
      grind
  · cases hrun

/-- `free_page` of a page outside the cache. -/
theorem CacheInv.freePage (h : s.CacheInv off) (hf : s.pageSwap f = false) :
    (s.freePage f).CacheInv off := by
  have hswap : Function.update s.pageSwap f false = s.pageSwap := by
    rw [← hf, Function.update_eq_self]
  refine ⟨?_, h.hashNodup, ?_, ?_, fun g => ?_, fun g => ?_, h.activeNodup, h.inactiveNodup,
    h.nrActive, h.nrInactive⟩
  · simpa only [Sys.freePage, hswap] using h.hash
  · simpa only [Sys.freePage, hswap, InRange] using h.index
  · simpa only [Sys.freePage, hswap, Caches] using h.unique
  · have hg := h.active g
    simp only [Sys.freePage, Function.update_apply]
    grind
  · have hg := h.inactive g
    simp only [Sys.freePage, Function.update_apply]
    grind

end Sys

end Ucore
