import Mathlib.Logic.Relation
import Ucore.Mm.PmmSpec

/-!
# Loops over the pages of a range

`swap_out_vma`, `unmap_range` and `copy_range`: what one page does, and by induction over the range
what the whole call does.
-/

namespace Ucore.Sys

variable {s s' : Sys} {x y : Loc} {f g o : ℕ} {env : Env} {perm : Perm} {mm la : ℕ}

/-! ## Swapping out -/

/-- The page has an entry of the swap cache, or none could be found. -/
theorem Paging.swapOutEnter_spec {ok : Bool} (h : s.Paging) (hx : s.pte x = .page f perm)
    (hrun : s.swapOutEnter f perm = some (ok, s')) :
    s'.SwapInv (refs s.pte) (holders s.pte) ∧ Keeps s s' (refs s.pte) (holders s.pte) ∧
      s'.data = s.data ∧ (ok = true → s'.pageSwap f = true ∧
        (perm.d = true → s'.pageDirty f = true)) := by
  have hR := refs_pos h.finite hx
  unfold swapOutEnter at hrun
  split at hrun
  · obtain ⟨⟨ok', s₁⟩, hadd, hrest⟩ := Option.bind_eq_some_iff.mp hrun
    obtain ⟨hcounts, hkeeps, hdata, hfail, hok⟩ := h.swap.swapPageAddNew_spec hR hadd
    dsimp only at hrest
    split at hrest
    · rename_i htrue
      obtain ⟨hc, hswap, hdirty⟩ := hok htrue
      obtain ⟨s₂, hlist, hend⟩ := Option.bind_eq_some_iff.mp hrest
      cases hend
      obtain ⟨hc', ac, al, rfl⟩ := hc.swapActiveListAdd_spec hlist
      exact ⟨⟨hc', hcounts.lists _ _ _⟩, ⟨⟨hkeeps.maxSwapOffset, hkeeps.pde, hkeeps.shmn,
        hkeeps.shmLen, hkeeps.pte, hkeeps.caches⟩, hkeeps.data, hkeeps.slot, hkeeps.clean⟩, hdata,
        fun _ => ⟨hswap, fun _ => hdirty⟩⟩
    · rename_i hfalse
      cases hrest
      refine ⟨⟨hfail (by simpa using hfalse), hcounts⟩, hkeeps, hdata, fun h0 => by cases h0⟩
  · rename_i hswap
    have hswap : s.pageSwap f = true := by simpa using hswap
    cases hrun
    split
    · rename_i hd
      exact ⟨h.swap.setPageDirty f true, setPageDirty_keeps f _, rfl,
        fun _ => ⟨hswap, fun _ => by simp [Sys.setPageDirty]⟩⟩
    · rename_i hd
      exact ⟨h.swap, .refl s _ _, rfl, fun _ => ⟨hswap, fun hd' => absurd hd' hd⟩⟩

/-- A mapping of a page in the cache turns into the entry of the page. -/
theorem Paging.unmapCached {s₁ s₂ : Sys} (h : s.Paging) (hx : s.pte x = .page f perm)
    (hinv : s₁.SwapInv (refs s.pte) (holders s.pte))
    (hkeeps : Keeps s s₁ (refs s.pte) (holders s.pte)) (hdata : s₁.data = s.data)
    (hswap : s₁.pageSwap f = true) (hdirty : perm.d = true → s₁.pageDirty f = true)
    (hdup : s₁.swapDuplicate (s₁.pageIndex f) = some s₂) :
    Adjusts s ((s₂.pageRefDec f).setPte x (.swap (s₁.pageIndex f))) x := by
  obtain ⟨hinv₂, rfl, hr, hcount⟩ := hinv.swapDuplicate_spec hdup
  have hpos : 0 < refs s.pte f := Nat.pos_of_ne_zero (refs_pos h.finite hx)
  have hinv₃ := (hinv₂.pageRefDec hpos).setPte x (.swap (s₁.pageIndex f))
  generalize ho : s₁.pageIndex f = o at *
  have hedits : Edits s (((s₁.setMemMap o (holders s.pte o + 1)).pageRefDec f).setPte x (.swap o)) x
      (.swap o) (Function.update (refs s.pte) f (refs s.pte f - 1))
      (Function.update (holders s.pte) o (holders s.pte o + 1)) := by
    refine ⟨hkeeps.maxSwapOffset, hkeeps.pde, hkeeps.shmn, hkeeps.shmLen, ?_, hdata,
      fun p hp => ?_, fun g p hg hc => ?_⟩
    · show Function.update s₁.pte x _ = _
      rw [hkeeps.pte]
    · refine (hkeeps.slot p fun h0 => hp ?_)
      by_cases hpo : p = o
      · subst hpo; simp [Pte.holds, h0]
      · simp [Pte.holds, hpo, Ne.symm hpo, h0]
    · have hg' : refs s.pte g ≠ 0 := by
        intro h0
        apply hg
        by_cases hgf : g = f
        · subst hgf; simp [h0]
        · simp [hgf, h0]
      rcases hkeeps.caches g p hg' hc with hc' | h0
      · exact Or.inl hc'
      · right
        by_cases hpo : p = o
        · subst hpo; simp [Pte.holds, h0]
        · simp [Pte.holds, hpo, Ne.symm hpo, h0]
  have hR : ∀ g, Function.update (refs s.pte) f (refs s.pte f - 1) g + (s.pte x).maps g =
      refs s.pte g + (Pte.swap o).maps g := by
    intro g
    rw [hx]
    by_cases hgf : g = f
    · subst hgf
      rw [Function.update_self, Pte.maps_self]
      show _ = refs s.pte g + 0
      omega
    · rw [Function.update_of_ne hgf, Pte.maps_ne perm (Ne.symm hgf)]
      rfl
  have hH : ∀ p, Function.update (holders s.pte) o (holders s.pte o + 1) p + (s.pte x).holds p =
      holders s.pte p + (Pte.swap o).holds p := by
    intro p
    rw [hx]
    by_cases hpo : p = o
    · subst hpo; simp [Pte.holds]
    · simp [Pte.holds, hpo, Ne.symm hpo]
  obtain ⟨hpaged, -⟩ := h.edit hedits hinv₃ hR hH fun _ => h.table x (by simp [hx])
  have hcached : Sys.Caches (((s₁.setMemMap o (holders s.pte o + 1)).pageRefDec f).setPte x (.swap o))
      f o := ⟨hswap, ho⟩
  have hpte : Sys.pte (((s₁.setMemMap o (holders s.pte o + 1)).pageRefDec f).setPte x (.swap o)) x =
      .swap o := by simp [Sys.setPte]
  refine ⟨hpaged, fun _ => ?_, fun g p hg => ?_, fun g p hg => ?_, fun g hg => ?_,
    fun y hyx hl => ?_, fun _ hc => ?_⟩
  · rw [h.view_owns (Or.inl ⟨perm, hx⟩), hpaged.paging.view_owns (Or.inr ⟨o, hpte, hcached⟩)]
    show some (s₁.data f) = _
    rw [hdata]
  · rw [hpte] at hg
    cases hg
  · rw [hpte] at hg
    cases hg
  · rcases hg with ⟨p, hg⟩ | ⟨p, hp, hc⟩
    · rw [hpte] at hg
      cases hg
    · rw [hpte] at hp
      cases hp
      have hgf := hpaged.paging.swap.cache.unique g f o hc hcached
      exact Or.inl (Or.inl ⟨perm, hgf ▸ hx⟩)
  · rcases hl.cases with ⟨g, p, hg, -⟩ | ⟨g, p, hy, ⟨q, hq⟩ | ⟨p', hp', hc⟩⟩ | ⟨p, hp, hy⟩
    · rw [hpte] at hg
      cases hg
    · rw [hpte] at hq
      cases hq
    · rw [hpte] at hp'
      cases hp'
      have hgf := hpaged.paging.swap.cache.unique g f o hc hcached
      rw [hgf, hpaged.pte y hyx] at hy
      exact Or.inl ⟨f, Or.inl ⟨perm, hx⟩, Or.inl ⟨p, hy⟩⟩
    · -- the page is in the cache under an entry that `y` holds, so it was there before
      rw [hpte] at hp
      cases hp
      rw [hpaged.pte y hyx] at hy
      rcases hkeeps.caches f o (refs_pos h.finite hx) ⟨hswap, ho⟩ with hc | h0
      · exact Or.inl ⟨f, Or.inl ⟨perm, hx⟩, Or.inr ⟨o, hy, hc⟩⟩
      · exact absurd h0 (holders_pos h.finite hy)
  · -- the dirty bit of the mapping has gone to the flag
    rw [hedits.pte]
    refine Clean.mono (D := DirtyIn s.pte) (hkeeps.clean _ hc) fun g _ hg hD => ?_
    rcases hD.update_or x (.swap o) with hD' | ⟨p, hp, hpd⟩
    · exact hD'
    · rw [hx] at hp
      cases hp
      have hg' : s₁.pageDirty f = false := hg
      simp [hdirty hpd] at hg'

/-- The bits of a mapping change. -/
theorem Paging.rewrite (h : s.Paging) (hx : s.pte x = .page f perm) (p : Perm) :
    Paged s (s.setPte x (.page f p)) (· = x) ∧ (s.setPte x (.page f p)).pte x = .page f p ∧
      ∀ y g, (s.setPte x (.page f p)).Owns y g → s.Owns y g := by
  have hR : ∀ g, refs s.pte g + (s.pte x).maps g = refs s.pte g + (Pte.page f p).maps g := by
    intro g
    rw [hx]
    rfl
  have hH : ∀ o, holders s.pte o + (s.pte x).holds o = holders s.pte o + (Pte.page f p).holds o := by
    intro o
    rw [hx]
    rfl
  have hedits : Edits s (s.setPte x (.page f p)) x (.page f p) (refs s.pte) (holders s.pte) :=
    ⟨rfl, rfl, rfl, rfl, rfl, rfl, fun _ _ => rfl, fun _ _ _ hc => Or.inl hc⟩
  obtain ⟨hpaged, -⟩ := h.edit hedits (h.swap.setPte x _) hR hH fun _ => h.table x (by simp [hx])
  have hpte : (s.setPte x (.page f p)).pte x = .page f p := by simp [Sys.setPte]
  refine ⟨hpaged, hpte, fun y g hy => ?_⟩
  by_cases hyx : y = x
  · subst hyx
    rcases hy with ⟨q, hq⟩ | ⟨o, ho, -⟩
    · rw [hpte] at hq
      cases hq
      exact Or.inl ⟨perm, hx⟩
    · rw [hpte] at ho
      cases ho
  · rcases hy with ⟨q, hq⟩ | ⟨o, ho, hc⟩
    · rw [hpaged.pte y hyx] at hq
      exact Or.inl ⟨q, hq⟩
    · rw [hpaged.pte y hyx] at ho
      exact Or.inr ⟨o, ho, hc⟩

/-- The accessed bit changes. -/
theorem Paging.setEntry (h : s.Paging) {p : Perm} (hx : s.pte x = .page f perm) (hw : p.w = perm.w)
    (hd : p.d = perm.d) : Adjusts s (s.setPte x (.page f p)) x := by
  obtain ⟨hpaged, hpte, hold⟩ := h.rewrite hx p
  refine ⟨hpaged, fun _ => ?_, fun g q hg hqw => ?_, fun g q hg hqd => ?_,
    fun g hg => Or.inl (hold x g hg), fun y _ hl => ?_, fun _ hc => ?_⟩
  · rw [h.view_owns (Or.inl ⟨perm, hx⟩), hpaged.paging.view_owns (Or.inl ⟨p, hpte⟩)]
    rfl
  · rw [hpte] at hg
    cases hg
    exact Or.inr ⟨⟨perm, hx, hw ▸ hqw⟩, fun y hy => hold y f hy⟩
  · rw [hpte] at hg
    cases hg
    exact ⟨f, perm, hx, hd ▸ hqd, fun hpw => hw ▸ hpw⟩
  · rcases hl with ⟨g, hgx, hgy⟩ | ⟨o, ho, -⟩
    · exact Or.inl ⟨g, hold x g hgx, hold y g hgy⟩
    · rw [hpte] at ho
      cases ho
  · refine Clean.mono (D := DirtyIn s.pte) hc fun g _ _ hD => ?_
    rcases hD.update_or x (.page f p) with hD' | ⟨q, hq, hqd⟩
    · exact hD'
    · rw [hx] at hq
      cases hq
      exact ⟨x, p, hpte, hd ▸ hqd⟩

/-- A call that touches no entry. -/
theorem Paging.keep_adjusts (h : s.Paging) (hinv : s'.SwapInv (refs s.pte) (holders s.pte))
    (hk : Keeps s s' (refs s.pte) (holders s.pte)) (x : Loc) (hx : s.pte x = .page f perm) :
    Adjusts s s' x := by
  obtain ⟨hpaged, hold, hclean⟩ := h.keep hinv hk
  have hpte : s'.pte x = .page f perm := by rw [hk.pte, hx]
  refine ⟨hpaged.mono fun _ hy => hy.elim, fun _ => hpaged.view x id, fun g p hg hw => ?_,
    fun g p hg hd => ⟨g, p, by rw [← hk.pte, hg], hd, id⟩, fun g hg => ?_, fun y _ hl => ?_,
    fun _ hc => hclean hc⟩
  · refine Or.inr ⟨⟨p, by rw [← hk.pte, hg], hw⟩, fun y hy => ?_⟩
    exact hold.owns hg id (hpaged.pte y id) hy
  · rcases hg with ⟨p, hg⟩ | ⟨o, ho, -⟩
    · exact Or.inl (Or.inl ⟨p, by rw [← hk.pte, hg]⟩)
    · rw [hpte] at ho
      cases ho
  · exact hpaged.linked (fun _ hT => hT.elim) hl

/-- **One page of `swap_out_vma`**, in a private area. -/
theorem Paging.swapOutPte_spec {vma : Vma} {out : Bool} (h : s.Paging)
    (hpriv : vma.vmFlags &&& VM_SHARE = 0)
    (hrun : s.swapOutPte env mm vma la = some (out, s')) : Adjusts s s' (ptep mm la) := by
  unfold swapOutPte at hrun
  split at hrun
  · rename_i f perm hx
    split at hrun
    · cases hrun
    · split at hrun
      · cases hrun
        exact h.setEntry hx rfl rfl
      · obtain ⟨⟨ok, s₁⟩, henter, hrest⟩ := Option.bind_eq_some_iff.mp hrun
        obtain ⟨hinv, hkeeps, hdata, hok⟩ := h.swapOutEnter_spec hx henter
        dsimp only at hrest
        split at hrest
        · rename_i htrue
          obtain ⟨hswap, hdirty⟩ := hok htrue
          obtain ⟨s₂, hdup, hrest⟩ := Option.bind_eq_some_iff.mp hrest
          obtain ⟨s₃, hshared, hend⟩ := Option.bind_eq_some_iff.mp hrest
          cases hend
          unfold swapOutShared at hshared
          rw [if_neg (by simp [hpriv])] at hshared
          cases hshared
          exact h.unmapCached hx hinv hkeeps hdata hswap hdirty hdup
        · cases hrest
          exact h.keep_adjusts hinv hkeeps _ hx
  · cases hrun
    exact .refl h _

/-- Some entries are adjusted, one after the other. -/
def AdjustsSome : Sys → Sys → Prop := Relation.ReflTransGen fun s s' => ∃ x, Adjusts s s' x

theorem AdjustsSome.paging (h : AdjustsSome s s') (hs : s.Paging) : s'.Paging := by
  induction h with
  | refl => exact hs
  | tail _ hstep _ =>
    obtain ⟨x, hx⟩ := hstep
    exact hx.paged.paging

theorem swapOutLoop_spec {vma : Vma} (hpriv : vma.vmFlags &&& VM_SHARE = 0) (stop addr require : ℕ)
    (s : Sys) {s' : Sys} (h : s.Paging)
    (hrun : swapOutLoop env mm vma stop addr require s = some s') : AdjustsSome s s' := by
  fun_induction swapOutLoop env mm vma stop addr require s with
  | case1 addr require s hgo hpde ih => exact ih h hrun
  | case2 addr require s hgo f hpde ih =>
    obtain ⟨⟨out, s₁⟩, hout, hrest⟩ := Option.bind_eq_some_iff.mp hrun
    have hadj := h.swapOutPte_spec hpriv hout
    exact .head ⟨_, hadj⟩ (ih out s₁ hadj.paged.paging hrest)
  | case3 addr require s hstop =>
    cases hrun
    exact .refl

/-- **`swap_out_vma` of a private area adjusts entries.** -/
theorem Paging.swapOutVma_spec {vma : Vma} {addr require : ℕ} (h : s.Paging)
    (hpriv : vma.vmFlags &&& VM_SHARE = 0)
    (hrun : s.swapOutVma env mm vma addr require = some s') : AdjustsSome s s' := by
  unfold swapOutVma at hrun
  split at hrun
  · cases hrun
    exact .refl
  · exact swapOutLoop_spec hpriv _ _ _ s h hrun

/-! ## Unmapping -/

/-- The pages from `start` to `stop`. -/
def InPages (start stop vpn : ℕ) : Prop := start / PGSIZE ≤ vpn ∧ vpn * PGSIZE < stop

/-- The entries of the pages from `start` to `stop`. -/
def InSpan (mm start stop : ℕ) (x : Loc) : Prop := ∃ vpn, x = .user mm vpn ∧ InPages start stop vpn

/-- The entry of an address without page table is empty. -/
theorem Paging.zero_of_pde (h : s.Paging) {vpn : ℕ} (hpde : s.pde mm (vpn / 1024) = none) :
    s.pte (.user mm vpn) = .zero := by
  by_contra hne
  exact h.table _ hne hpde

theorem nextTable_aligned (start : ℕ) : PGSIZE ∣ nextTable start := by
  unfold nextTable PTSIZE
  exact Dvd.dvd.mul_left (Nat.dvd_mul_right ..) _

section span

variable {start stop vpn : ℕ}

theorem InPages.of_nextTable (h : InPages (nextTable start) stop vpn) : InPages start stop vpn := by
  unfold InPages nextTable PTSIZE PGSIZE at *
  omega

/-- A page of the span is in the current page table or after it. -/
theorem InPages.nextTable_or (h : InPages start stop vpn) :
    InPages (nextTable start) stop vpn ∨ vpn / 1024 = start / PTSIZE := by
  unfold InPages nextTable PTSIZE PGSIZE at *
  omega

theorem InPages.of_add (h : InPages (start + PGSIZE) stop vpn) : InPages start stop vpn := by
  unfold InPages PGSIZE at *
  omega

theorem InPages.eq_or (h : InPages start stop vpn) :
    vpn = start / PGSIZE ∨ InPages (start + PGSIZE) stop vpn := by
  unfold InPages PGSIZE at *
  omega

theorem inPages_start (hal : PGSIZE ∣ start) (hlt : start < stop) :
    InPages start stop (start / PGSIZE) := by
  unfold InPages
  rw [Nat.div_mul_cancel hal]
  exact ⟨le_rfl, hlt⟩

/-- There is no page left after the last one. -/
theorem InPages.lt_of_aligned (h : InPages start stop vpn) (hal : PGSIZE ∣ start) : start < stop := by
  have hmul : start / PGSIZE * PGSIZE = start := Nat.div_mul_cancel hal
  unfold InPages PGSIZE at *
  omega

theorem add_aligned (hal : PGSIZE ∣ start) : PGSIZE ∣ start + PGSIZE :=
  (Nat.dvd_add_right hal).mpr (Nat.dvd_refl _)

/-- The loops stop only when no page is left. -/
theorem InPages.nextTable_go (h : InPages (nextTable start) stop vpn) :
    nextTable start ≠ 0 ∧ nextTable start < stop := by
  have hpos := lt_nextTable start
  exact ⟨by omega, h.lt_of_aligned (nextTable_aligned start)⟩

theorem InPages.add_go (h : InPages (start + PGSIZE) stop vpn) (hal : PGSIZE ∣ start) :
    start + PGSIZE ≠ 0 ∧ start + PGSIZE < stop := by
  have hpos : 0 < PGSIZE := by decide
  exact ⟨by omega, h.lt_of_aligned (add_aligned hal)⟩

end span

theorem unmapLoop_spec (stop start : ℕ) (s : Sys) {s' : Sys} (h : s.Paging)
    (hal : PGSIZE ∣ start) (hlt : start < stop) (hrun : unmapLoop mm stop start s = some s') :
    Paged s s' (InSpan mm start stop) ∧ CleanStep s s' ∧
      ∀ vpn, InPages start stop vpn → s'.pte (.user mm vpn) = .zero := by
  fun_induction unmapLoop mm stop start s with
  | case1 start s hpde hgo ih =>
    obtain ⟨hpaged, hclean, hzero⟩ := ih h (nextTable_aligned start) hgo.2 hrun
    refine ⟨hpaged.mono ?_, hclean, fun vpn hvpn => ?_⟩
    · rintro x ⟨vpn, rfl, hvpn⟩
      exact ⟨vpn, rfl, hvpn.of_nextTable⟩
    · by_cases hnext : InPages (nextTable start) stop vpn
      · exact hzero vpn hnext
      · rw [hpaged.pte _ (by rintro ⟨_, ⟨⟩, hv⟩; exact hnext hv)]
        refine h.zero_of_pde ?_
        rw [hvpn.nextTable_or.resolve_left hnext, hpde]
  | case2 start s hpde hstop =>
    cases hrun
    refine ⟨.refl h _, fun hc => hc, fun vpn hvpn => h.zero_of_pde ?_⟩
    rw [hvpn.nextTable_or.resolve_left fun hnext => hstop hnext.nextTable_go, hpde]
  | case3 start s f hpde ih =>
    obtain ⟨s₁, hrem, hrest⟩ := Option.bind_eq_some_iff.mp hrun
    obtain ⟨hpaged, hzero, hclean, -⟩ := h.pageRemovePte_spec hrem
    have hhere : Paged s s₁ (InSpan mm start stop) :=
      hpaged.mono fun y hy => ⟨_, hy, inPages_start hal hlt⟩
    split at hrest
    · rename_i hgo
      obtain ⟨hpaged', hclean', hzero'⟩ := ih s₁ hgo hpaged.paging (add_aligned hal) hgo.2 hrest
      refine ⟨hhere.trans (hpaged'.mono ?_), fun hc => hclean' (hclean hc), fun vpn hvpn => ?_⟩
      · rintro x ⟨vpn, rfl, hvpn⟩
        exact ⟨vpn, rfl, hvpn.of_add⟩
      · by_cases hnext : InPages (start + PGSIZE) stop vpn
        · exact hzero' vpn hnext
        · rw [hpaged'.pte _ (by rintro ⟨_, ⟨⟩, hv⟩; exact hnext hv),
            hvpn.eq_or.resolve_right hnext]
          exact hzero
    · rename_i hstop
      cases hrest
      refine ⟨hhere, hclean, fun vpn hvpn => ?_⟩
      rw [hvpn.eq_or.resolve_right fun hnext => hstop (hnext.add_go hal)]
      exact hzero

/-- **`unmap_range` clears the entries of the range.** -/
theorem Paging.unmapRange_spec {start stop : ℕ} (h : s.Paging)
    (hrun : s.unmapRange mm start stop = some s') :
    Paged s s' (InSpan mm start stop) ∧ CleanStep s s' ∧
      ∀ vpn, InPages start stop vpn → s'.pte (.user mm vpn) = .zero := by
  unfold unmapRange at hrun
  obtain ⟨_, hal, hrest⟩ := Option.bind_eq_some_iff.mp hrun
  obtain ⟨_, hacc, hloop⟩ := Option.bind_eq_some_iff.mp hrest
  have hal := (of_guard hal).1
  have hacc := of_guard hacc
  exact unmapLoop_spec stop start s h (Nat.dvd_of_mod_eq_zero hal) hacc.2.1 hloop

/-! ## Copying -/

/-- The entry `dst` has become a copy of the entry `src`; unless the page is to be shared, nobody may
write to it. -/
structure Copied (s s' : Sys) (src dst : Loc) (share : Bool) : Prop where
  paged : Paged s s' (fun y => y = src ∨ y = dst)
  viewSrc : s'.view src = s.view src
  viewDst : s'.view dst = s.view src
  origin : ∀ y f, s'.Owns y f → s.Owns y f ∨ (y = dst ∧ s.Owns src f)
  held : ∀ o, s'.pte dst = .swap o → s.pte src = .swap o
  source : ∀ f p, s'.pte src = .page f p → ∃ p', s.pte src = .page f p' ∧ (p.w = true → p'.w = true)
  readOnly : share = false → ∀ y f p, y = src ∨ y = dst → s'.pte y = .page f p → p.w = false

/-- `swap_duplicate` for a second holder of an entry. -/
theorem Paging.copySwap {src dst : Loc} {share : Bool} {s₁ : Sys} (h : s.Paging)
    (hsrc : s.pte src = .swap o) (hdst : s.pte dst = .zero) (htab : s.HasTable dst)
    (hrun : s.swapDuplicate o = some s₁) : Copied s (s₁.setPte dst (.swap o)) src dst share := by
  obtain ⟨hinv, rfl, -, -⟩ := h.swap.swapDuplicate_spec hrun
  have hne : src ≠ dst := by
    intro hsd
    rw [hsd, hdst] at hsrc
    cases hsrc
  have hheld := holders_pos h.finite hsrc
  have hedits : Edits s ((s.setMemMap o (holders s.pte o + 1)).setPte dst (.swap o)) dst (.swap o)
      (refs s.pte) (Function.update (holders s.pte) o (holders s.pte o + 1)) :=
    ⟨rfl, rfl, rfl, rfl, rfl, rfl, fun _ _ => rfl, fun _ _ _ hc => Or.inl hc⟩
  have hH : ∀ p, Function.update (holders s.pte) o (holders s.pte o + 1) p + (s.pte dst).holds p =
      holders s.pte p + (Pte.swap o).holds p := by
    intro p
    rw [hdst]
    by_cases hpo : p = o
    · subst hpo; simp [Pte.holds]
    · simp [Pte.holds, hpo, Ne.symm hpo]
  have hR : ∀ f, refs s.pte f + (s.pte dst).maps f = refs s.pte f + (Pte.swap o).maps f := by
    intro f
    rw [hdst]
    rfl
  obtain ⟨hpaged, -⟩ := h.edit hedits (hinv.setPte dst _) hR hH fun _ => htab
  have hpte : Sys.pte ((s.setMemMap o (holders s.pte o + 1)).setPte dst (.swap o)) dst = .swap o := by
    simp [Sys.setPte]
  have hpte' : ∀ y, y ≠ dst →
      Sys.pte ((s.setMemMap o (holders s.pte o + 1)).setPte dst (.swap o)) y = s.pte y := hpaged.pte
  refine ⟨hpaged.mono fun y hy => Or.inr hy, hpaged.view src hne, ?_, fun y f hy => ?_,
    fun p hp => ?_, fun f p hp => ?_, fun _ y f p hy hp => ?_⟩
  · unfold view
    rw [hpte, hsrc]
    rfl
  · by_cases hyd : y = dst
    · subst hyd
      refine Or.inr ⟨rfl, ?_⟩
      rcases hy with ⟨p, hp⟩ | ⟨p, hp, hc⟩
      · rw [hpte] at hp
        cases hp
      · rw [hpte] at hp
        cases hp
        exact Or.inr ⟨o, hsrc, hc⟩
    · left
      rcases hy with ⟨p, hp⟩ | ⟨p, hp, hc⟩
      · exact Or.inl ⟨p, by rw [← hpte' y hyd, hp]⟩
      · exact Or.inr ⟨p, by rw [← hpte' y hyd, hp], hc⟩
  · rw [hpte] at hp
    cases hp
    exact hsrc
  · rw [hpte' src hne, hsrc] at hp
    cases hp
  · rcases hy with rfl | rfl
    · rw [hpte' _ hne, hsrc] at hp
      cases hp
    · rw [hpte] at hp
      cases hp

/-- `page_insert` of the page that is mapped already writes the bits only. -/
theorem insertPte_same (hx : s.pte x = .page f perm) (p : Perm) :
    s.insertPte x f p = some (s.setPte x (.page f p)) := by
  have hpte : (s.pageRefInc f).pte x = s.pte x := rfl
  have href : (s.pageRefInc f).pageRefDec f = s := by
    simp [Sys.pageRefInc, Sys.pageRefDec, Sys.setPageRef]
  unfold insertPte
  simp only [hpte, hx, if_true, href]

/-- `page_insert` over an empty entry. -/
theorem insertPte_zero (hx : s.pte x = .zero) (p : Perm) :
    s.insertPte x f p = some ((s.pageRefInc f).setPte x (.page f p)) := by
  have hpte : (s.pageRefInc f).pte x = s.pte x := rfl
  unfold insertPte
  simp only [hpte, hx]

/-- `copy_range` takes the right to write from a private page. -/
theorem Paging.copyProtect_spec {src : ℕ} {share : Bool} {s₁ : Sys} (h : s.Paging)
    (hsrc : s.pte (ptep src la) = .page f perm)
    (hrun : s.copyProtect env src f la share perm = some s₁) :
    ∃ p, s₁ = s.setPte (ptep src la) (.page f p) ∧ (p.w = true → perm.w = true) ∧
      (share = false → p.w = false) := by
  have htab := h.table (ptep src la) (by simp [hsrc])
  unfold copyProtect at hrun
  split at hrun
  · rw [pageInsert_existing htab, insertPte_same hsrc] at hrun
    cases hrun
    exact ⟨_, rfl, nofun, fun _ => rfl⟩
  · rename_i hprot
    cases hrun
    refine ⟨perm, ?_, id, fun hs => by simpa [hs] using hprot⟩
    unfold Sys.setPte
    rw [← hsrc, Function.update_eq_self]

/-- A second mapping of a page. -/
theorem Paging.copyMap {src dst : Loc} {share : Bool} {p q : Perm} (h : s.Paging)
    (hsrc : s.pte src = .page f perm) (hdst : s.pte dst = .zero) (htab : s.HasTable dst)
    (hp : p.w = true → perm.w = true) (hro : share = false → p.w = false ∧ q.w = false)
    (hrun : (s.setPte src (.page f p)).insertPte dst f q = some s') : Copied s s' src dst share := by
  obtain ⟨hpaged₁, hpte₁, hold₁⟩ := h.rewrite hsrc p
  have hne : src ≠ dst := by
    intro hsd
    rw [hsd, hdst] at hsrc
    cases hsrc
  have h₁ := hpaged₁.paging
  obtain ⟨hpaged, -, hpte, hdata, -, -, -⟩ := h₁.insertPte_spec (hpaged₁.tables _ htab)
    (h₁.mapped_inUse hpte₁) (h₁.mapped_noTable hpte₁) hrun
  have hsrc' : s'.pte src = .page f p := by rw [hpaged.pte src hne, hpte₁]
  refine ⟨(hpaged₁.mono fun y hy => Or.inl hy).trans (hpaged.mono fun y hy => Or.inr hy), ?_, ?_,
    fun y g hy => ?_, fun o ho => ?_, fun g r hg => ?_, fun hs y g r hy hr => ?_⟩
  · rw [hpaged.paging.view_owns (Or.inl ⟨p, hsrc'⟩), h.view_owns (Or.inl ⟨perm, hsrc⟩), hdata]
    rfl
  · rw [hpaged.paging.view_owns (Or.inl ⟨q, hpte⟩), h.view_owns (Or.inl ⟨perm, hsrc⟩), hdata]
    rfl
  · by_cases hyd : y = dst
    · subst hyd
      rcases hy with ⟨r, hr⟩ | ⟨o, ho, -⟩
      · rw [hpte] at hr
        cases hr
        exact Or.inr ⟨rfl, Or.inl ⟨perm, hsrc⟩⟩
      · rw [hpte] at ho
        cases ho
    · left
      have hy₁ : (s.setPte src (.page f p)).Owns y g := by
        have hcaches : ∀ o, s'.Caches g o → (s.setPte src (.page f p)).Caches g o := by
          rw [insertPte_zero ((hpaged₁.pte dst (Ne.symm hne)).trans hdst)] at hrun
          cases hrun
          exact fun o hc => hc
        rcases hy with ⟨r, hr⟩ | ⟨o, ho, hc⟩
        · exact Or.inl ⟨r, by rw [← hpaged.pte y hyd, hr]⟩
        · exact Or.inr ⟨o, by rw [← hpaged.pte y hyd, ho], hcaches o hc⟩
      exact hold₁ y g hy₁
  · rw [hpte] at ho
    cases ho
  · rw [hsrc'] at hg
    cases hg
    exact ⟨perm, hsrc, hp⟩
  · rcases hy with rfl | rfl
    · rw [hsrc'] at hr
      cases hr
      exact (hro hs).1
    · rw [hpte] at hr
      cases hr
      exact (hro hs).2

/-- `copy_range` for one entry. -/
theorem Paging.copyPte_spec {dst src : ℕ} {share : Bool} (h : s.Paging)
    (hdst : s.pte (ptep dst la) = .zero) (htab : s.HasTable (ptep dst la))
    (hrun : s.copyPte env dst src la share = some s') :
    Copied s s' (ptep src la) (ptep dst la) share := by
  unfold copyPte at hrun
  split at hrun
  · cases hrun
  · rename_i o hsrc
    obtain ⟨s₁, hdup, rfl⟩ := Option.map_eq_some_iff.mp hrun
    exact h.copySwap hsrc hdst htab hdup
  · rename_i f perm hsrc
    obtain ⟨s₁, hprot, hrest⟩ := Option.bind_eq_some_iff.mp hrun
    obtain ⟨p, rfl, hp, hro⟩ := h.copyProtect_spec hsrc hprot
    have htab₁ := (h.rewrite hsrc p).1.tables _ htab
    rw [pageInsert_existing htab₁] at hrest
    obtain ⟨⟨r, s₂⟩, hins, hend⟩ := Option.bind_eq_some_iff.mp hrest
    obtain ⟨s₃, hins', hr⟩ := Option.map_eq_some_iff.mp hins
    cases hr
    cases hend
    exact h.copyMap hsrc hdst htab hp (fun hs => ⟨hro hs, by simp [hs]⟩) hins'

/-- What `copy_range` does at one address: nothing but perhaps a new page table, or a copy. -/
theorem Paging.copyPage_spec {dst src : ℕ} {share : Bool} {ret : Int} (h : s.Paging)
    (hrun : s.copyPage env dst src la share = some (ret, s')) :
    (ret ≠ 0 ∧ Quiet s s') ∨ (ret = 0 ∧ s' = s ∧ s.pte (ptep src la) = .zero) ∨
      (ret = 0 ∧ ∃ s₁, Quiet s s₁ ∧ s₁.pte (ptep dst la) = .zero ∧
        Copied s₁ s' (ptep src la) (ptep dst la) share) := by
  unfold copyPage at hrun
  split at hrun
  · rename_i hzero
    cases hrun
    exact Or.inr (Or.inl ⟨rfl, rfl, hzero⟩)
  · split at hrun
    · rename_i s₁ hget
      cases hrun
      exact Or.inl ⟨by decide, (h.getPte_spec hget).1⟩
    · rename_i s₁ hget
      obtain ⟨hq, htab⟩ := h.getPte_spec hget
      split at hrun
      · rename_i hguard
        obtain ⟨s₂, hcopy, hend⟩ := Option.map_eq_some_iff.mp hrun
        cases hend
        exact Or.inr (Or.inr ⟨rfl, s₁, hq, hguard.2,
          hq.paged.paging.copyPte_spec hguard.2 (htab rfl) hcopy⟩)
      · cases hrun

/-- One step of `copy_range`: a new page table, or a copy of one of its pages. -/
def CopyStep (dst src : ℕ) (share : Bool) (start stop : ℕ) (s s' : Sys) : Prop :=
  Quiet s s' ∨ ∃ vpn, InPages start stop vpn ∧ s.pte (.user dst vpn) = .zero ∧
    Copied s s' (.user src vpn) (.user dst vpn) share

/-- What the loop of `copy_range` has done when it ends. -/
structure CopiesSpan (dst src : ℕ) (share : Bool) (start stop : ℕ) (ret : Int) (s s' : Sys) :
    Prop where
  steps : Relation.ReflTransGen (CopyStep dst src share start stop) s s'
  paging : s'.Paging
  views : ∀ y, ¬ InSpan dst start stop y → s'.view y = s.view y
  copies : ret = 0 → (∀ y, InSpan dst start stop y → s.pte y = .zero) →
    ∀ vpn, InPages start stop vpn → s'.view (.user dst vpn) = s.view (.user src vpn)

theorem view_eq_none : s.view x = none ↔ s.pte x = .zero := by
  unfold view
  cases s.pte x <;> simp

theorem CopyStep.mono {dst src start start' stop : ℕ} {share : Bool}
    (h : CopyStep dst src share start' stop s s')
    (hle : ∀ vpn, InPages start' stop vpn → InPages start stop vpn) :
    CopyStep dst src share start stop s s' := by
  rcases h with hq | ⟨vpn, hvpn, hzero, hc⟩
  · exact Or.inl hq
  · exact Or.inr ⟨vpn, hle vpn hvpn, hzero, hc⟩

theorem copySteps_mono {dst src start start' stop : ℕ} {share : Bool}
    (h : Relation.ReflTransGen (CopyStep dst src share start' stop) s s')
    (hle : ∀ vpn, InPages start' stop vpn → InPages start stop vpn) :
    Relation.ReflTransGen (CopyStep dst src share start stop) s s' := by
  induction h with
  | refl => exact .refl
  | tail _ hstep ih => exact ih.tail (hstep.mono hle)

/-- What one page of `copy_range` has done. -/
theorem Paging.copyOne {dst src start stop : ℕ} {share : Bool} {ret : Int} (h : s.Paging)
    (hin : InPages start stop (start / PGSIZE))
    (hrun : s.copyPage env dst src start share = some (ret, s')) :
    Relation.ReflTransGen (CopyStep dst src share start stop) s s' ∧ s'.Paging ∧
      (∀ y, y ≠ ptep dst start → s'.view y = s.view y) ∧
      (ret = 0 → s.pte (ptep dst start) = .zero →
        s'.view (ptep dst start) = s.view (ptep src start)) := by
  rcases h.copyPage_spec hrun with ⟨hret, hq⟩ | ⟨-, rfl, hzero⟩ | ⟨-, s₁, hq, hdst, hc⟩
  · exact ⟨.single (Or.inl hq), hq.paged.paging, fun y _ => hq.paged.view y id,
      fun h0 => absurd h0 hret⟩
  · refine ⟨.refl, h, fun _ _ => rfl, fun _ hdst => ?_⟩
    rw [view_eq_none.mpr hdst, view_eq_none.mpr hzero]
  · refine ⟨.tail (.single (Or.inl hq)) (Or.inr ⟨_, hin, hdst, hc⟩), hc.paged.paging,
      fun y hy => ?_, fun _ _ => ?_⟩
    · rw [← hq.paged.view y id]
      by_cases hys : y = ptep src start
      · rw [hys]
        exact hc.viewSrc
      · exact hc.paged.view y fun hor => hor.elim hys hy
    · rw [← hq.paged.view _ id]
      exact hc.viewDst

theorem copyLoop_spec {dst src : ℕ} {share : Bool} (stop start : ℕ) (s : Sys) {s' : Sys}
    {ret : Int} (h : s.Paging) (hal : PGSIZE ∣ start) (hlt : start < stop)
    (hrun : copyLoop env dst src share stop start s = some (ret, s')) :
    CopiesSpan dst src share start stop ret s s' := by
  fun_induction copyLoop env dst src share stop start s with
  | case1 start s hpde hgo ih =>
    have hrec := ih h (nextTable_aligned start) hgo.2 hrun
    refine ⟨copySteps_mono hrec.steps fun _ hv => hv.of_nextTable, hrec.paging, fun y hy => hrec.views y ?_,
      fun hret hzero vpn hvpn => ?_⟩
    · rintro ⟨vpn, rfl, hv⟩
      exact hy ⟨vpn, rfl, hv.of_nextTable⟩
    · by_cases hnext : InPages (nextTable start) stop vpn
      · refine hrec.copies hret ?_ vpn hnext
        rintro _ ⟨v, rfl, hv⟩
        exact hzero _ ⟨v, rfl, hv.of_nextTable⟩
      · have hsrc : s.pte (.user src vpn) = .zero := by
          refine h.zero_of_pde ?_
          rw [hvpn.nextTable_or.resolve_left hnext, hpde]
        rw [hrec.views _ (by rintro ⟨_, ⟨⟩, hv⟩; exact hnext hv), view_eq_none.mpr hsrc,
          view_eq_none.mpr (hzero _ ⟨vpn, rfl, hvpn⟩)]
  | case2 start s hpde hstop =>
    cases hrun
    refine ⟨.refl, h, fun _ _ => rfl, fun _ hzero vpn hvpn => ?_⟩
    have hsrc : s'.pte (.user src vpn) = .zero := by
      refine h.zero_of_pde ?_
      rw [hvpn.nextTable_or.resolve_left fun hnext => hstop hnext.nextTable_go, hpde]
    rw [view_eq_none.mpr hsrc, view_eq_none.mpr (hzero _ ⟨vpn, rfl, hvpn⟩)]
  | case3 start s f hpde ih =>
    obtain ⟨⟨r, s₁⟩, hpage, hrest⟩ := Option.bind_eq_some_iff.mp hrun
    have hin := inPages_start hal hlt
    obtain ⟨hsteps, h₁, hviews, hcopy⟩ := h.copyOne hin hpage
    have hviews' : ∀ y, ¬ InSpan dst start stop y → s₁.view y = s.view y :=
      fun y hy => hviews y fun hyd => hy (hyd ▸ ⟨_, rfl, hin⟩)
    dsimp only at hrest
    split at hrest
    · rename_i hr
      cases hrest
      exact ⟨hsteps, h₁, hviews', fun h0 => absurd h0 hr⟩
    · rename_i hr
      have hr : r = 0 := by simpa using hr
      split at hrest
      · rename_i hgo
        have hrec := ih s₁ hgo h₁ (add_aligned hal) hgo.2 hrest
        refine ⟨hsteps.trans (copySteps_mono hrec.steps fun _ hv => hv.of_add), hrec.paging,
          fun y hy => ?_, fun hret hzero vpn hvpn => ?_⟩
        · rw [hrec.views y ?_, hviews' y hy]
          rintro ⟨vpn, rfl, hv⟩
          exact hy ⟨vpn, rfl, hv.of_add⟩
        · by_cases hnext : InPages (start + PGSIZE) stop vpn
          · rw [hrec.copies hret ?_ vpn hnext, hviews _ ?_]
            · intro hsd
              unfold ptep at hsd
              cases hsd
              unfold InPages PGSIZE at hnext
              omega
            · rintro _ ⟨v, rfl, hv⟩
              have hv0 : (.user dst v : Loc) ≠ ptep dst start := by
                intro heq
                unfold ptep at heq
                cases heq
                unfold InPages PGSIZE at hv
                omega
              rw [← view_eq_none, hviews _ hv0, view_eq_none]
              exact hzero _ ⟨v, rfl, hv.of_add⟩
          · have hvpn0 := hvpn.eq_or.resolve_right hnext
            subst hvpn0
            rw [hrec.views _ (by rintro ⟨_, ⟨⟩, hv⟩; exact hnext hv)]
            exact hcopy hr (hzero _ ⟨_, rfl, hin⟩)
      · rename_i hstop
        cases hrest
        refine ⟨hsteps, h₁, hviews', fun _ hzero vpn hvpn => ?_⟩
        rw [hvpn.eq_or.resolve_right fun hnext => hstop (hnext.add_go hal)]
        exact hcopy hr (hzero _ ⟨_, rfl, hin⟩)

/-- **`copy_range` copies the pages of the range.** -/
theorem Paging.copyRange_spec {dst src start stop : ℕ} {share : Bool} {ret : Int} (h : s.Paging)
    (hrun : s.copyRange env dst src start stop share = some (ret, s')) :
    CopiesSpan dst src share start stop ret s s' := by
  unfold copyRange at hrun
  obtain ⟨_, hal, hrest⟩ := Option.bind_eq_some_iff.mp hrun
  obtain ⟨_, hacc, hloop⟩ := Option.bind_eq_some_iff.mp hrest
  have hal := (of_guard hal).1
  have hacc := of_guard hacc
  exact copyLoop_spec stop start s h (Nat.dvd_of_mod_eq_zero hal) hacc.2.1 hloop

end Ucore.Sys
