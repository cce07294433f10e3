import Ucore.Mm.SwapRun

/-!
# `try_alloc_swap_entry`

* `scanEntry_misses` — a scan that ends without an entry has seen every offset;
* `CacheInv.stealEntry_eq` — what a page that loses its entry leaves behind;
* `try_alloc_swap_entry` — the call returns, it fails only if no offset is unused or without holders, and
  it changes nothing but the entry that it returns.
-/

set_option linter.constructorNameAsVariable false

namespace Ucore.Sys

variable {s s' : Sys} {R H : ℕ → ℕ} {f o stop next zero : ℕ}

/-- The offsets from `next` on, until the scan is back at `stop`. -/
def Ahead (stop next o : ℕ) : Prop := if next < stop then next ≤ o ∧ o < stop else next ≤ o ∨ o < stop

/-- After one step the same offsets are ahead, but for the one that has been looked at. -/
theorem ahead_step (hr : s.InRange o) (hn : s.InRange next) (hstop : s.InRange stop) (ho : Ahead stop next o)
    (hne : o ≠ next) : (if next + 1 = s.maxSwapOffset then 1 else next + 1) ≠ stop ∧
      Ahead stop (if next + 1 = s.maxSwapOffset then 1 else next + 1) o := by
  unfold Ahead InRange at *
  split at ho
  · split
    · omega
    · refine ⟨by omega, ?_⟩
      rw [if_pos (by omega)]
      omega
  · split
    · refine ⟨by omega, ?_⟩
      split <;> omega
    · refine ⟨by omega, ?_⟩
      split <;> omega

/-- **The scan misses nothing**: without a result, no offset ahead is unused, and none has count zero. -/
theorem scanEntry_misses (hstop : s.InRange stop) : ∀ (fuel next zero : ℕ) {next' empty' zero' : ℕ},
    s.InRange next → s.scanEntry stop fuel next zero = some (next', empty', zero') → empty' = 0 →
    (zero' = 0 → zero = 0) ∧ ∀ o, s.InRange o → Ahead stop next o →
      s.memMap o ≠ SWAP_UNUSED ∧ (zero' = 0 → s.memMap o ≠ 0)
  | 0, _, _, _, _, _, _, hrun, _ => by simp [scanEntry] at hrun
  | fuel + 1, next, zero, next', empty', zero', hn, hrun, hempty => by
    have hnext : s.InRange (if next + 1 = s.maxSwapOffset then 1 else next + 1) := by
      unfold InRange at hn ⊢
      split <;> omega
    have hzero : (if s.memMap next = 0 ∧ zero = 0 then next else zero) = 0 → s.memMap next ≠ 0 ∧ zero = 0 := by
      intro hz
      split at hz
      · exact absurd hz hn.1.ne'
      · rename_i hno
        exact ⟨fun hm => hno ⟨hm, hz⟩, hz⟩
    simp only [scanEntry] at hrun
    by_cases hgo : (if s.memMap next = SWAP_UNUSED then next else 0) = 0 ∧
        (if next + 1 = s.maxSwapOffset then 1 else next + 1) ≠ stop
    · rw [if_pos hgo] at hrun
      obtain ⟨hkeep, hrest⟩ := scanEntry_misses hstop fuel _ _ hnext hrun hempty
      have hunused : s.memMap next ≠ SWAP_UNUSED := by
        intro hu
        rw [if_pos hu] at hgo
        exact hn.1.ne' hgo.1
      refine ⟨fun h0 => (hzero (hkeep h0)).2, fun o hr ho => ?_⟩
      by_cases hne : o = next
      · subst hne
        exact ⟨hunused, fun h0 => (hzero (hkeep h0)).1⟩
      · exact hrest o hr (ahead_step hr hn hstop ho hne).2
    · rw [if_neg hgo] at hrun
      cases hrun
      have hunused : s.memMap next ≠ SWAP_UNUSED := by
        intro hu
        rw [if_pos hu] at hempty
        exact hn.1.ne' hempty
      have hback : (if next + 1 = s.maxSwapOffset then 1 else next + 1) = stop := by
        by_contra hne
        exact hgo ⟨hempty, hne⟩
      refine ⟨fun h0 => (hzero h0).2, fun o hr ho => ?_⟩
      by_cases hne : o = next
      · subst hne
        exact ⟨hunused, fun h0 => (hzero h0).1⟩
      · exact absurd hback (ahead_step hr hn hstop ho hne).1

/-- The page of the entry leaves the cache, and the entry is unused. -/
theorem CacheInv.stealEntry_eq (hc : s.CacheInv none) (hf : s.Caches f o) :
    ∃ s', s.stealEntry o = some s' ∧ s'.next = s.next ∧ s'.pageIndex = s.pageIndex ∧
      s'.memMap = Function.update s.memMap o SWAP_UNUSED ∧ s'.hashList = fun b => (s.hashList b).erase f := by
  unfold stealEntry stealPage swapFreePage swapPageDel swapListDel
  rw [hc.find_some.mpr hf]
  simp only [hf.1, Option.bind_eq_bind, Option.bind_some, if_true]
  by_cases href : s.pageRef f = 0
  · simp only [href, and_self, if_true, Option.map_some, Option.bind_some]
    exact ⟨_, rfl, rfl, rfl, rfl, rfl⟩
  · simp only [href, if_false, Option.bind_some]
    exact ⟨_, rfl, rfl, rfl, rfl, rfl⟩

/-- What `try_alloc_swap_entry` may rely on: the cache is in order, an entry without holders is cached, and an
unused entry is not. -/
structure CanAlloc (s : Sys) : Prop where
  cache : s.CacheInv none
  next : s.InRange s.next
  zero : ∀ o, s.InRange o → s.memMap o = 0 → ∃ f, s.Caches f o
  unused : ∀ o, s.InRange o → s.memMap o = SWAP_UNUSED → ∀ f, ¬ s.Caches f o

/-- The invariant between two calls is enough. -/
theorem SwapInv.canAlloc (h : s.SwapInv R H) : s.CanAlloc where
  cache := h.cache
  next := h.counts.next
  zero o ho hm := by
    rcases h.counts.entry o ho with ⟨hu, -⟩ | ⟨hn, -, hcaches⟩
    · rw [hm] at hu
      cases hu
    · exact hcaches (hn.symm.trans hm)
  unused o ho hm := by
    rcases h.counts.entry o ho with ⟨-, -, hno⟩ | ⟨hn, hlt, -⟩
    · exact hno
    · exact absurd (hn.symm.trans hm) hlt.ne

/-- Every state that a run reaches is such a state. -/
theorem Init.canAlloc {s₀ : Sys} (h₀ : s₀.Init) (h : Steps s₀ s) : s.CanAlloc := (h₀.paging.steps h).swap.canAlloc

/-- The call has returned `o`. -/
structure Allocated (s s' : Sys) (o : ℕ) : Prop where
  next : s.InRange s'.next
  fails : o = 0 ↔ ∀ p, s.InRange p → s.memMap p ≠ SWAP_UNUSED ∧ s.memMap p ≠ 0
  inRange : o ≠ 0 → s.InRange o
  unused : o ≠ 0 → s'.memMap o = SWAP_UNUSED
  uncached : o ≠ 0 → ∀ b, ∀ f ∈ s'.hashList b, s'.pageIndex f ≠ o
  prefers : o ≠ 0 → s.memMap o = SWAP_UNUSED ∨
    s.memMap o = 0 ∧ ∀ p, s.InRange p → s.memMap p ≠ SWAP_UNUSED
  counts : ∀ p, p ≠ o → s'.memMap p = s.memMap p
  index : s'.pageIndex = s.pageIndex
  pages : ∀ b f, s.pageIndex f ≠ o → (f ∈ s'.hashList b ↔ f ∈ s.hashList b)

/-- **`try_alloc_swap_entry`** returns, and fails only if it has to. -/
theorem try_alloc_swap_entry (h : s.CanAlloc) : ∃ o s', s.tryAllocSwapEntry = some (o, s') ∧ Allocated s s' o := by
  have hscan : ∃ r, s.scanEntry s.next s.maxSwapOffset s.next 0 = some r := by
    refine scanEntry_ends s.next h.next s.maxSwapOffset s.next 0 h.next ?_ (Nat.zero_lt_of_lt h.next.2)
    have hn := h.next
    unfold InRange at hn
    unfold scanLeft
    split <;> omega
  obtain ⟨⟨next, empty, zero⟩, hrun⟩ := hscan
  obtain ⟨hnext, hempty, hzero⟩ := scanEntry_spec s.next _ _ _ h.next (fun h0 => absurd rfl h0) hrun
  have hmisses : empty = 0 → ∀ p, s.InRange p → s.memMap p ≠ SWAP_UNUSED ∧ (zero = 0 → s.memMap p ≠ 0) := by
    intro he p hp
    refine (scanEntry_misses h.next _ _ _ h.next hrun he).2 p hp ?_
    unfold Ahead
    rw [if_neg (lt_irrefl _)]
    exact (Nat.lt_or_ge p s.next).symm
  unfold tryAllocSwapEntry
  rw [hrun]
  simp only [Option.bind_eq_bind, Option.bind_some]
  by_cases he : empty = 0
  · rw [if_neg (not_not.mpr he)]
    by_cases hz : zero = 0
    · rw [if_neg (not_not.mpr hz)]
      refine ⟨0, _, rfl, hnext, iff_of_true rfl fun p hp => ?_, fun h0 => absurd rfl h0, fun h0 => absurd rfl h0,
        fun h0 => absurd rfl h0, fun h0 => absurd rfl h0, fun _ _ => rfl, rfl, fun _ _ _ => Iff.rfl⟩
      exact ⟨(hmisses he p hp).1, (hmisses he p hp).2 hz⟩
    · -- a page loses its entry
      rw [if_pos hz]
      obtain ⟨hr, hm⟩ := hzero hz
      obtain ⟨f, hf⟩ := h.zero zero hr hm
      have hc : ({ s with next := next } : Sys).CacheInv none := h.cache.congr rfl rfl rfl rfl rfl rfl rfl
      obtain ⟨s', hsteal, hnext', hindex, hmap, hhash⟩ := hc.stealEntry_eq hf
      rw [hsteal]
      refine ⟨zero, s', rfl, hnext' ▸ hnext, iff_of_false hz fun hno => (hno zero hr).2 hm, fun _ => hr, fun _ => ?_,
        fun _ b g hg => ?_, fun _ => Or.inr ⟨hm, fun p hp => (hmisses he p hp).1⟩, fun p hp => ?_, hindex,
        fun b g hg => ?_⟩
      · rw [hmap, Function.update_self]
      · rw [hhash, (h.cache.hashNodup b).mem_erase_iff, h.cache.hash] at hg
        rw [hindex]
        exact fun hidx => hg.1 (h.cache.unique g f zero ⟨hg.2.1, hidx⟩ hf)
      · rw [hmap, Function.update_of_ne hp]
      · have hgf : g ≠ f := fun heq => hg (heq ▸ hf.2)
        rw [hhash]
        exact List.mem_erase_of_ne hgf
  · rw [if_pos he]
    obtain ⟨hr, hm⟩ := hempty he
    refine ⟨empty, _, rfl, hnext, iff_of_false he fun hno => (hno empty hr).1 hm, fun _ => hr, fun _ => hm,
      fun _ b g hg hidx => ?_, fun _ => Or.inl hm, fun _ _ => rfl, rfl, fun _ _ _ => Iff.rfl⟩
    exact h.unused empty hr hm g ⟨((h.cache.hash b g).mp hg).1, hidx⟩

/-- One slot, whose page nobody has swapped out. -/
def oneSlot : Sys :=
  { boot with
    maxSwapOffset := 2
    pageSwap := fun f => decide (f = 5)
    pageIndex := fun _ => 1
    memMap := fun _ => 0
    hashList := fun b => if b = entryHashfn 1 then [5] else []
    inactiveList := ⟨[5], 1⟩ }

theorem oneSlot_canAlloc : oneSlot.CanAlloc := by
  have hswap : ∀ f, oneSlot.pageSwap f = true ↔ f = 5 := fun f => decide_eq_true_iff
  refine ⟨⟨fun b f => ?_, fun b => ?_, fun f _ => ⟨Nat.one_pos, Nat.one_lt_two⟩, fun f g o hf hg => ?_, fun f => ?_,
    fun f => ?_,
    List.nodup_nil, List.nodup_singleton 5, rfl, rfl⟩,
      ⟨by decide, by decide⟩, fun o ho _ => ⟨5, rfl, ?_⟩, fun o _ hu => ?_⟩
  · show f ∈ (if b = entryHashfn 1 then [5] else []) ↔ _ ∧ b = entryHashfn 1
    rw [hswap]
    split
    · rename_i hb
      simp [hb]
    · rename_i hb
      simp [hb]
  · show (if b = entryHashfn 1 then [5] else []).Nodup
    split
    · exact List.nodup_singleton 5
    · exact List.nodup_nil
  · rw [(hswap f).mp hf.1, (hswap g).mp hg.1]
  · refine iff_of_false List.not_mem_nil fun hact => ?_
    cases hact.2.1
  · rw [hswap]
    show f ∈ [5] ↔ f = 5 ∧ false = false ∧ none ≠ some f
    simp
  · obtain ⟨hpos, hlt⟩ := ho
    have hlt2 : o < 2 := hlt
    show 1 = o
    omega
  · cases hu

/-- The only entry is taken from its page. -/
theorem try_alloc_swap_entry_oneSlot : ∃ s', oneSlot.tryAllocSwapEntry = some (1, s') ∧ Allocated oneSlot s' 1 := by
  obtain ⟨o, s', hrun, hok⟩ := try_alloc_swap_entry oneSlot_canAlloc
  have hret : oneSlot.tryAllocSwapEntry.map Prod.fst = some 1 := by decide +kernel
  rw [hrun] at hret
  cases hret
  exact ⟨s', hrun, hok⟩

end Ucore.Sys
