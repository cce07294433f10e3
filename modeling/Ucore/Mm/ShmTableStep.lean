import Ucore.Mm.ShmTableInv

/-!
# The entry table: one call

Every function of `kern/mm/shmem.c` returns from a state with the invariant, and keeps it.

* `findShmn_spec`, `insertShmn_spec` — the list and its cache;
* `Inv.shmemGetEntry_spec` — the slot of an address, and the nodes and pages that are created for it.
-/

namespace Ucore.Shmn.Shmem

variable {s s' : Shmem} {E G : ℕ → ℕ} {p q f o addr : ℕ} {x : Slot} {e : Pte} {env : Env} {n m : Node}

/-! ## The list and its cache -/

theorem findLoop_spec (addr : ℕ) {ps : List ℕ} (hnode : ∀ p ∈ ps, ∃ n, s.shmn p = some n) :
    ∃ r, s.findLoop addr ps = some r ∧ (∀ p, r = some p → p ∈ ps ∧ ∃ n, s.shmn p = some n ∧ n.Covers addr) ∧
      (r = none → ∀ p ∈ ps, ∀ n, s.shmn p = some n → ¬ n.Covers addr) := by
  induction ps with
  | nil => exact ⟨none, rfl, nofun, nofun⟩
  | cons p ps ih =>
    obtain ⟨n, hn⟩ := hnode p (List.mem_cons_self ..)
    simp only [findLoop, hn, Option.bind_eq_bind, Option.bind_some]
    by_cases hc : n.start ≤ addr ∧ addr < n.stop
    · rw [if_pos hc]
      refine ⟨some p, rfl, fun q hq => ?_, nofun⟩
      obtain rfl := Option.some.inj hq
      exact ⟨List.mem_cons_self .., n, hn, hc⟩
    · rw [if_neg hc]
      obtain ⟨r, hr, hsome, hnone⟩ := ih fun q hq => hnode q (List.mem_cons_of_mem _ hq)
      refine ⟨r, hr, fun q hq => ⟨List.mem_cons_of_mem _ (hsome q hq).1, (hsome q hq).2⟩, fun h q hq m hm => ?_⟩
      rcases List.mem_cons.mp hq with rfl | hq
      · obtain rfl : n = m := Option.some.inj (hn.symm.trans hm)
        exact hc
      · exact hnone h q hq m hm

theorem Inv.setCache (h : s.Inv E G) {c : Option ℕ} (hc : ∀ p, c = some p → p ∈ s.shmnList) :
    Shmem.Inv E G { s with shmnCache := c } :=
  ⟨h.len_le, h.node, h.sorted, hc, fun p q n m hn hm => h.inj p q n m ⟨hn.1, hn.2⟩ ⟨hm.1, hm.2⟩, h.finite, h.swap⟩

/-- `find_shmn` finds the node of the address, through the cache or not. -/
theorem Inv.findShmn_spec (h : s.Inv E G) (addr : ℕ) :
    ∃ r c, s.findShmn addr = some (r, { s with shmnCache := c }) ∧ Shmem.Inv E G { s with shmnCache := c } ∧
      (∀ p, r = some p → ∃ n, s.At p n ∧ n.Covers addr) ∧ (r = none → ∀ p n, s.At p n → ¬ n.Covers addr) := by
  have hnode : ∀ p ∈ s.shmnList, ∃ n, s.shmn p = some n := fun p hp => by
    obtain ⟨n, hn, -⟩ := h.node p hp
    exact ⟨n, hn⟩
  obtain ⟨r, hr, hsome, hnone⟩ := findLoop_spec addr hnode
  have hcold : s.inCache addr = some false →
      ∃ r c, s.findShmn addr = some (r, { s with shmnCache := c }) ∧ Shmem.Inv E G { s with shmnCache := c } ∧
        (∀ p, r = some p → ∃ n, s.At p n ∧ n.Covers addr) ∧ (r = none → ∀ p n, s.At p n → ¬ n.Covers addr) := by
    intro hmiss
    simp only [findShmn, hmiss, hr, Option.bind_eq_bind, Option.bind_some, Bool.false_eq_true, if_false]
    have hnone' : r = none → ∀ p n, s.At p n → ¬ n.Covers addr := fun hr p n hn => hnone hr p hn.mem n hn.shmn
    cases r with
    | none => exact ⟨none, s.shmnCache, rfl, h.setCache h.cache, nofun, hnone'⟩
    | some p =>
      obtain ⟨hmem, n, hn, hc⟩ := hsome p rfl
      refine ⟨some p, some p, rfl, h.setCache fun q hq => ?_, fun q hq => ?_, nofun⟩
      · obtain rfl := Option.some.inj hq
        exact hmem
      · obtain rfl := Option.some.inj hq
        exact ⟨n, ⟨hmem, hn⟩, hc⟩
  cases hcache : s.shmnCache with
  | none => exact hcold (by rw [inCache, hcache])
  | some p =>
    have hmem := h.cache p hcache
    obtain ⟨n, hn, -⟩ := h.node p hmem
    by_cases hc : n.start ≤ addr ∧ addr < n.stop
    · have hhit : s.inCache addr = some true := by
        simp only [inCache, hcache, hn, Option.map_some, hc, and_self, decide_true]
      refine ⟨some p, some p, ?_, h.setCache fun q hq => ?_, fun q hq => ?_, nofun⟩
      · simp only [findShmn, hhit, hcache, Option.bind_eq_bind, Option.bind_some, if_true]
        rfl
      · obtain rfl := Option.some.inj hq
        exact hmem
      · obtain rfl := Option.some.inj hq
        exact ⟨n, ⟨hmem, hn⟩, hc⟩
    · refine hcold ?_
      simp only [inCache, hcache, hn, Option.map_some, hc, decide_false]

theorem splitLoop_spec (start : ℕ) {ps : List ℕ} (hnode : ∀ p ∈ ps, ∃ n, s.shmn p = some n) :
    ∃ front back, s.splitLoop start ps = some (front, back) ∧ ps = front ++ back ∧
      (∀ p ∈ front, ∀ n, s.shmn p = some n → n.start ≤ start) ∧
      ∀ p, back.head? = some p → ∃ n, s.shmn p = some n ∧ start < n.start := by
  induction ps with
  | nil => exact ⟨[], [], rfl, rfl, nofun, nofun⟩
  | cons p ps ih =>
    obtain ⟨n, hn⟩ := hnode p (List.mem_cons_self ..)
    simp only [splitLoop, hn, Option.bind_eq_bind, Option.bind_some]
    by_cases hgt : n.start > start
    · rw [if_pos hgt]
      refine ⟨[], p :: ps, rfl, rfl, nofun, fun q hq => ?_⟩
      obtain rfl := Option.some.inj hq
      exact ⟨n, hn, hgt⟩
    · rw [if_neg hgt]
      obtain ⟨front, back, hrun, hps, hfront, hback⟩ := ih fun q hq => hnode q (List.mem_cons_of_mem _ hq)
      refine ⟨p :: front, back, by rw [hrun]; rfl, by rw [hps, List.cons_append], fun q hq m hm => ?_, hback⟩
      rcases List.mem_cons.mp hq with rfl | hq
      · obtain rfl : n = m := Option.some.inj (hn.symm.trans hm)
        exact not_lt.mp hgt
      · exact hfront q hq m hm

theorem checkPair_spec {prev next : Option ℕ}
    (hlap : ∀ p q, prev = some p → next = some q →
      ∃ n m, s.shmn p = some n ∧ s.shmn q = some m ∧ checkShmnOverlap n m) :
    s.checkPair prev next = some () := by
  cases prev with
  | none => rfl
  | some p =>
    cases next with
    | none => rfl
    | some q =>
      obtain ⟨n, m, hn, hm, hlap⟩ := hlap p q rfl rfl
      simp only [checkPair, hn, hm, Option.bind_eq_bind, Option.bind_some]
      exact if_pos hlap

/-- **`insert_shmn` keeps the list sorted**, and its assertions hold. -/
theorem insertShmn_spec (hnode : ∀ q ∈ s.shmnList, ∃ n, s.shmn q = some n ∧ n.Aligned)
    (hsorted : s.shmnList.Pairwise fun p q => ∀ x y, s.shmn p = some x → s.shmn q = some y → x.stop ≤ y.start)
    (hp : s.shmn p = some n) (hal : n.Aligned) (hfree : ∀ q ∈ s.shmnList, ∀ m, s.shmn q = some m →
    ¬ m.Covers n.start) :
    ∃ front back, s.shmnList = front ++ back ∧
      s.insertShmn p = some { s with shmnList := front ++ p :: back } ∧
      (front ++ p :: back).Pairwise fun p q => ∀ x y, s.shmn p = some x → s.shmn q = some y → x.stop ≤ y.start := by
  have hsome : ∀ q ∈ s.shmnList, ∃ m, s.shmn q = some m := fun q hq => by
    obtain ⟨m, hm, -⟩ := hnode q hq
    exact ⟨m, hm⟩
  obtain ⟨front, back, hsplit, hlist, hfront, hback⟩ := splitLoop_spec n.start hsome
  rw [hlist] at hnode hsorted hfree
  obtain ⟨hsfront, hsback, hcross⟩ := List.pairwise_append.mp hsorted
  have halign : ∀ q ∈ front ++ back, ∀ m, s.shmn q = some m → m.Aligned := fun q hq m hm => by
    obtain ⟨m', hm', hal'⟩ := hnode q hq
    exact Option.some.inj (hm.symm.trans hm') ▸ hal'
  have hbefore : ∀ q ∈ front, ∀ m, s.shmn q = some m → m.stop ≤ n.start := fun q hq m hm => by
    have hle := hfront q hq m hm
    by_contra hlt
    exact hfree q (List.mem_append_left _ hq) m hm ⟨hle, not_le.mp hlt⟩
  have hafter : ∀ q ∈ back, ∀ m, s.shmn q = some m → n.stop ≤ m.start := fun q hq m hm => by
    refine hal.stop_le (halign q (List.mem_append_right _ hq) m hm) ?_
    -- the loop stops at the first node that starts later
    cases back with
    | nil => cases hq
    | cons r back =>
      obtain ⟨k, hk, hlt⟩ := hback r rfl
      rcases List.mem_cons.mp hq with rfl | hq
      · obtain rfl : k = m := Option.some.inj (hk.symm.trans hm)
        exact hlt
      · have hle := (List.pairwise_cons.mp hsback).1 q hq k m hk hm
        have := (halign r (by simp) k hk).lt
        omega
  refine ⟨front, back, hlist, ?_, ?_⟩
  · have hprev : s.checkPair front.getLast? (some p) = some () := checkPair_spec fun q r hq hr => by
      obtain rfl := Option.some.inj hr
      have hmem := List.mem_of_getLast? hq
      obtain ⟨m, hm, hal'⟩ := hnode q (List.mem_append_left _ hmem)
      exact ⟨m, n, hm, hp, hal'.lt, hbefore q hmem m hm, hal.lt⟩
    have hnext : s.checkPair (some p) back.head? = some () := checkPair_spec fun q r hq hr => by
      obtain rfl := Option.some.inj hq
      have hmem := List.mem_of_head? hr
      obtain ⟨m, hm, hal'⟩ := hnode r (List.mem_append_right _ hmem)
      exact ⟨n, m, hp, hm, hal.lt, hafter r hmem m hm, hal'.lt⟩
    simp only [insertShmn, hp, hsplit, hprev, hnext, Option.bind_eq_bind, Option.bind_some]
    rfl
  · rw [List.pairwise_append, List.pairwise_cons]
    refine ⟨hsfront, ⟨fun q hq x y hx hy => ?_, hsback⟩, fun q hq r hr x y hx hy => ?_⟩
    · obtain rfl : n = x := Option.some.inj (hp.symm.trans hx)
      exact hafter q hq y hy
    · rcases List.mem_cons.mp hr with rfl | hr
      · obtain rfl : n = y := Option.some.inj (hp.symm.trans hy)
        exact hbefore q hq x hx
      · exact hcross q hq r hr x y hx hy

/-! ## Allocation -/

/-- What an allocation leaves alone in the machine. -/
structure Allocs (s s' : Sys) : Prop where
  free : ∀ g, s.free g = false → s'.free g = false
  pageRef : ∀ g, s.free g = false → s'.pageRef g = s.pageRef g
  memMap : s'.memMap = s.memMap
  maxSwapOffset : s'.maxSwapOffset = s.maxSwapOffset
  pageSwap : s'.pageSwap = s.pageSwap
  pageIndex : s'.pageIndex = s.pageIndex
  pde : s'.pde = s.pde
  shmn : s'.shmn = s.shmn

theorem Allocs.refl (s : Sys) : Allocs s s :=
  ⟨fun _ h => h, fun _ _ => rfl, rfl, rfl, rfl, rfl, rfl, rfl⟩

theorem Allocs.trans {s s' s'' : Sys} (h : Allocs s s') (h' : Allocs s' s'') : Allocs s s'' :=
  ⟨fun g hg => h'.free g (h.free g hg), fun g hg => (h'.pageRef g (h.free g hg)).trans (h.pageRef g hg),
    h'.memMap.trans h.memMap, h'.maxSwapOffset.trans h.maxSwapOffset,
    h'.pageSwap.trans h.pageSwap, h'.pageIndex.trans h.pageIndex, h'.pde.trans h.pde, h'.shmn.trans h.shmn⟩

theorem Allocs.isTable {s s' : Sys} (h : Allocs s s') : s'.IsTable f ↔ s.IsTable f := Sys.IsTable.congr h.pde h.shmn

/-- A frame that was free, or nothing. -/
theorem Inv.allocPage_spec (h : s.Inv E G) {site : AllocSite} {r : Option ℕ} {sys : Sys}
    (hrun : s.sys.allocPage env site = (r, sys)) :
    Shmem.Inv E G { s with sys := sys } ∧ Allocs s.sys sys ∧
      ∀ f, r = some f → s.sys.free f = true ∧ (marked { s with sys := sys }).Fresh
        (fun f => E f + s.slotRefs f) f := by
  have htables : sys.pte = s.sys.pte ∧ sys.shmn = s.sys.shmn := by
    unfold Sys.allocPage at hrun
    split at hrun
    · obtain ⟨-, rfl⟩ := Prod.mk.inj hrun
      exact ⟨rfl, rfl⟩
    · obtain ⟨-, rfl⟩ := Prod.mk.inj hrun
      exact ⟨rfl, rfl⟩
  have hmarked : s.marked.allocPage env site = (r, marked { s with sys := sys }) := by
    rw [marked, marked, Sys.allocPage_withTables, hrun, htables.1, htables.2]
    rfl
  obtain ⟨hinv, -, hnone, ⟨free, data, heq⟩, hfresh⟩ := h.swap.allocPage_spec hmarked
  have hkeep : ∀ {α : Type} (g : Sys → α),
      g (marked { s with sys := sys }) = g { s.marked with free := free, data := data } := fun g => congrArg g heq
  exact ⟨h.setSys hinv, ⟨hnone, fun g _ => congrFun (hkeep Sys.pageRef) g, hkeep Sys.memMap,
    hkeep Sys.maxSwapOffset, hkeep Sys.pageSwap, hkeep Sys.pageIndex, hkeep Sys.pde, htables.2⟩,
    fun f hf => ⟨(hfresh f hf).2, (hfresh f hf).1⟩⟩

/-- The new node of `shmn_create`, at the address `p`. -/
def withNode (s : Shmem) (p : ℕ) (n : Node) : Shmem :=
  { s with
    mem := fun x => if x.1 = n.entry then .zero else s.mem x
    shmn := Function.update s.shmn p (some n) }

theorem withNode_of_ne (hne : q ≠ p) : (s.withNode p n).shmn q = s.shmn q := Function.update_of_ne hne ..

theorem withNode_self : (s.withNode p n).shmn p = some n := Function.update_self ..

/-- What the list has with one more node. -/
theorem withNode_at {l : List ℕ} (hp : p ∉ s.shmnList) (hl : ∀ q, q ∈ l ↔ q ∈ s.shmnList ∨ q = p) :
    At { s.withNode p n with shmnList := l } q m ↔ s.At q m ∨ (q = p ∧ m = n) := by
  constructor
  · rintro ⟨hmem, hm⟩
    rcases (hl q).mp hmem with hq | rfl
    · have hne : q ≠ p := fun heq => hp (heq ▸ hq)
      exact .inl ⟨hq, (withNode_of_ne hne).symm.trans hm⟩
    · exact .inr ⟨rfl, Option.some.inj (hm.symm.trans withNode_self)⟩
  · rintro (⟨hq, hm⟩ | ⟨rfl, rfl⟩)
    · have hne : q ≠ p := fun heq => hp (heq ▸ hq)
      exact ⟨(hl q).mpr (.inl hq), (withNode_of_ne hne).trans hm⟩
    · exact ⟨(hl q).mpr (.inr rfl), withNode_self⟩

theorem isNode_iff : s.IsNode f ↔ ∃ p n, s.At p n ∧ n.entry = f := by
  constructor
  · rintro ⟨p, hp⟩
    obtain ⟨n, hn, hf⟩ := exists_at hp
    exact ⟨p, n, hn, hf⟩
  · rintro ⟨p, n, hn, rfl⟩
    exact hn.isNode

theorem withNode_isNode {l : List ℕ} (hp : p ∉ s.shmnList) (hl : ∀ q, q ∈ l ↔ q ∈ s.shmnList ∨ q = p) :
    IsNode { s.withNode p n with shmnList := l } f ↔ s.IsNode f ∨ f = n.entry := by
  rw [isNode_iff, isNode_iff]
  constructor
  · rintro ⟨q, m, hm, rfl⟩
    rcases (withNode_at hp hl).mp hm with hm | ⟨rfl, rfl⟩
    · exact .inl ⟨q, m, hm, rfl⟩
    · exact .inr rfl
  · rintro (⟨q, m, hm, rfl⟩ | rfl)
    · exact ⟨q, m, (withNode_at hp hl).mpr (.inl hm), rfl⟩
    · exact ⟨p, n, (withNode_at hp hl).mpr (.inr ⟨rfl, rfl⟩), rfl⟩

/-- The entries of the new node are zero. -/
theorem withNode_slots {l : List ℕ} (hp : p ∉ s.shmnList) (hl : ∀ q, q ∈ l ↔ q ∈ s.shmnList ∨ q = p)
    (hf : ¬ s.IsNode n.entry) : slots { s.withNode p n with shmnList := l } = s.slots := by
  funext x
  have hnode := withNode_isNode (n := n) (f := x.1) hp hl
  by_cases hx : x.1 = n.entry
  · have hmem : (s.withNode p n).mem x = .zero := if_pos hx
    rw [slots, slots, if_pos (hnode.mpr (.inr hx)), if_neg (hx ▸ hf)]
    exact hmem
  · have hmem : (s.withNode p n).mem x = s.mem x := if_neg hx
    rw [slots, slots]
    by_cases hs : s.IsNode x.1
    · rw [if_pos hs, if_pos (hnode.mpr (.inl hs))]
      exact hmem
    · rw [if_neg hs, if_neg fun h => (hnode.mp h).elim hs hx]

/-- **A new node** in a fresh frame enters the list. -/
theorem Inv.newNode (h : s.Inv E G) (hp : p ∉ s.shmnList) (hal : n.Aligned) (hlt : n.start < s.len)
    (hf : s.marked.Fresh (fun f => E f + s.slotRefs f) n.entry) (hfree : ∀ q m, s.At q m → ¬ m.Covers n.start) :
    ∃ s', (s.withNode p n).insertShmn p = some s' ∧ s'.Inv E G ∧ Grows s s' ∧ s'.At p n ∧ s'.sys = s.sys ∧
      s'.slots = s.slots ∧ ∀ g, s'.IsNode g → s.IsNode g ∨ g = n.entry := by
  have hne : ∀ q ∈ s.shmnList, q ≠ p := fun q hq heq => hp (heq ▸ hq)
  have hfresh : ¬ s.IsNode n.entry := fun hn => hf.noTable (marked_isTable.mpr (.inr hn))
  have hins := insertShmn_spec (s := s.withNode p n) (p := p) (n := n) (fun q hq => by
    obtain ⟨m, hm, hal', -⟩ := h.node q hq
    exact ⟨m, (withNode_of_ne (hne q hq)).trans hm, hal'⟩) (h.sorted.imp_of_mem fun hq hr hqr x y hx hy =>
      hqr x y ((withNode_of_ne (hne _ hq)).symm.trans hx)
        ((withNode_of_ne (hne _ hr)).symm.trans hy)) withNode_self hal
    fun q hq m hm => hfree q m ⟨hq, (withNode_of_ne (hne q hq)).symm.trans hm⟩
  obtain ⟨front, back, hlist, hrun, hsorted⟩ := hins
  have hl : ∀ q, q ∈ front ++ p :: back ↔ q ∈ s.shmnList ∨ q = p := fun q => by
    rw [show s.shmnList = front ++ back from hlist]
    simp only [List.mem_append, List.mem_cons]
    tauto
  have hat : ∀ q m, At { s.withNode p n with shmnList := front ++ p :: back } q m ↔ s.At q m ∨ (q = p ∧ m = n) :=
    fun q m => withNode_at hp hl
  have hslots := withNode_slots hp hl hfresh
  refine ⟨_, hrun, ⟨h.len_le, fun q hq => ?_, hsorted, fun q hq => (hl q).mpr (.inl (h.cache q hq)),
    fun q r x y hx hy heq => ?_, ?_, ?_⟩, ⟨rfl, fun q m hm => (hat q m).mpr (.inl hm)⟩,
      (hat p n).mpr (.inr ⟨rfl, rfl⟩),
    rfl, hslots, fun g => (withNode_isNode hp hl).mp⟩
  · rcases (hl q).mp hq with hq | rfl
    · obtain ⟨m, hm, hrest⟩ := h.node q hq
      exact ⟨m, (withNode_of_ne (hne q hq)).trans hm, hrest⟩
    · exact ⟨n, withNode_self, hal, hlt⟩
  · rcases (hat q x).mp hx with hqx | ⟨rfl, rfl⟩
    · rcases (hat r y).mp hy with hry | ⟨rfl, rfl⟩
      · exact h.inj q r x y hqx hry heq
      · exact absurd (heq ▸ hqx.isNode) hfresh
    · rcases (hat r y).mp hy with hry | ⟨rfl, rfl⟩
      · exact absurd (heq ▸ hry.isNode) hfresh
      · rfl
  · rw [hslots]
    exact h.finite
  · have hrefs : slotRefs { s.withNode p n with shmnList := front ++ p :: back } = s.slotRefs := by
      funext f
      rw [slotRefs, slotRefs, hslots]
    have hholds : slotHolds { s.withNode p n with shmnList := front ++ p :: back } = s.slotHolds := by
      funext o
      rw [slotHolds, slotHolds, hslots]
    have htable : ∀ g, (marked { s.withNode p n with shmnList := front ++ p :: back }).IsTable g ↔
        s.marked.IsTable g ∨ g = n.entry := fun g => by
      rw [marked_isTable, marked_isTable, withNode_isNode hp hl, or_assoc]
      exact Iff.rfl
    rw [hrefs, hholds]
    refine h.swap.retable (fun g hg => (htable g).mpr (.inl hg)) fun g hg => ?_
    rcases (htable g).mp hg with hg | rfl
    · exact .inl hg
    · exact .inr hf

/-! ## `shmem_get_entry` -/

/-- The entry of a page that `shmem_get_entry` has allocated: a frame that was free. -/
def NewPage (s : Shmem) (e : Pte) : Prop := ∃ f, s.sys.free f = true ∧ e = .page f ⟨false, false, false, false⟩

/-- What a lookup of `addr` with the result `r` does to the object. -/
structure Looked (E G : ℕ → ℕ) (s s' : Shmem) (addr : ℕ) (r : Option Slot) : Prop where
  inv : s'.Inv E G
  grows : Grows s s'
  allocs : Allocs s.sys s'.sys
  nodes : ∀ g, s'.IsNode g → s.IsNode g ∨ s.sys.free g = true
  slot : ∀ x, r = some x → s'.SlotAt addr x
  hit : ∀ x, s.SlotAt addr x → r = some x
  other : ∀ y, r ≠ some y → s'.slots y = s.slots y
  entry : ∀ x, r = some x → s'.slots x = s.slots x ∨ s.slots x = .zero ∧ s.NewPage (s'.slots x)

theorem Grows.congr (hlen : s'.len = s.len) (hlist : s'.shmnList = s.shmnList) (hshmn : s'.shmn = s.shmn) :
    Grows s s' :=
  ⟨hlen, fun _ _ hn => ⟨hlist ▸ hn.1, hshmn ▸ hn.2⟩⟩

/-- The end of a lookup, in the node of the address. -/
theorem Inv.entryPage_spec (h : s.Inv E G) (env : Env) (hn : s.At p n) (hc : n.Covers (rounddown addr))
    (create : Bool) : ∃ x s', s.entryPage env p (rounddown addr) create = some (some x, s') ∧
    Looked E G s s' addr (some x) := by
  let x : Slot := (n.entry, (rounddown addr - n.start) / PGSIZE)
  have hnode : s.IsNode x.1 := hn.isNode
  have hx : s.SlotAt addr x := ⟨p, n, hn, hc, rfl⟩
  have hat : ∀ t, Grows s t → ∀ y, some x = some y → t.SlotAt addr y :=
    fun t ht y hy => Option.some.inj hy ▸ hx.mono ht
  have hhit : ∀ y, s.SlotAt addr y → some x = some y := fun y hy => congrArg some ((h.slotAt_iff hx hy).mpr rfl)
  simp only [entryPage, hn.shmn, Option.bind_eq_bind, Option.bind_some]
  split
  · rename_i hcreate
    have hzero : s.mem x = .zero := hcreate.1
    generalize hrun : s.sys.allocPage env .shmPage = r
    obtain ⟨r, sys⟩ := r
    obtain ⟨hinv, hallocs, hfresh⟩ := h.allocPage_spec hrun
    cases r with
    | none =>
      have hgrows : Grows s { s with sys := sys } := .congr rfl rfl rfl
      exact ⟨x, _, rfl, hinv, hgrows, hallocs, fun _ => .inl, hat _ hgrows, hhit, fun _ _ => rfl, fun _ _ => .inl rfl⟩
    | some f =>
      obtain ⟨hwas, hf⟩ := hfresh f rfl
      have hslots := slots_setMem (e := .page f ⟨false, false, false, false⟩) hnode (sys.pageRefInc f)
      have hallocs' : Allocs s.sys (sys.pageRefInc f) := { hallocs with
        pageRef := fun g hg => by
          have hne : g ≠ f := fun heq => by
            rw [heq, hwas] at hg
            cases hg
          exact (Function.update_of_ne hne ..).trans (hallocs.pageRef g hg) }
      let s' := Shmem.setMem { s with sys := sys.pageRefInc f } x (.page f ⟨false, false, false, false⟩)
      have hgrows : Grows s s' := .congr rfl rfl rfl
      refine ⟨x, s', rfl, h.setSlot hnode (hinv.swap.pageRefInc hf.inUse hf.noTable) (fun g => ?_) fun o => ?_,
        hgrows, hallocs', fun _ => .inl, hat s' hgrows, hhit, fun y hy => ?_, fun y hy => ?_⟩
      · rw [hzero]
        exact Pte.maps_inc (fun f => E f + s.slotRefs f) f _ g
      · rw [hzero]
        rfl
      · rw [hslots]
        exact Function.update_of_ne (fun heq => hy (by rw [heq])) ..
      · obtain rfl := Option.some.inj hy
        right
        rw [slots_of_isNode hnode, hslots]
        exact ⟨hzero, f, hwas, Function.update_self ..⟩
  · exact ⟨x, s, rfl, h, .refl s, .refl s.sys, fun _ => .inl, hat s (.refl s), hhit, fun _ _ => rfl,
      fun _ _ => .inl rfl⟩

/-- A lookup after a step that has changed no entry. -/
theorem Looked.after {s'' : Shmem} {r : Option Slot} (h : Looked E G s' s'' addr r) (hg : Grows s s')
    (ha : Allocs s.sys s'.sys) (hfree : ∀ g, s'.sys.free g = true → s.sys.free g = true)
    (hnodes : ∀ g, s'.IsNode g → s.IsNode g ∨ s.sys.free g = true) (hslots : s'.slots = s.slots) :
    Looked E G s s'' addr r := by
  refine ⟨h.inv, hg.trans h.grows, ha.trans h.allocs, fun g hn => ?_, h.slot, fun x hx => h.hit x (hx.mono hg),
    fun y hy => ?_, fun x hx => ?_⟩
  · rcases h.nodes g hn with hn | hf
    · exact hnodes g hn
    · exact .inr (hfree g hf)
  · rw [h.other y hy, hslots]
  · rw [← hslots]
    rcases h.entry x hx with heq | ⟨hzero, f, hf, heq⟩
    · exact .inl heq
    · exact .inr ⟨hzero, f, hfree f hf, heq⟩

/-- A lookup without a node, which returns `NULL`. -/
theorem Inv.looked_none (h : s.Inv E G) (addr : ℕ) (hno : ∀ p n, s.At p n → ¬ n.Covers (rounddown addr)) :
    Looked E G s s addr none := by
  refine ⟨h, .refl s, .refl s.sys, fun _ => .inl, nofun, fun x hx => ?_, fun _ _ => rfl, nofun⟩
  obtain ⟨p, n, hn, hc, -⟩ := hx
  exact absurd hc (hno p n hn)

/-- Aligned ranges that meet are the same. -/
theorem covers_of_start (hn : n.Aligned) (hm : m.Aligned) (hmeet : m.Covers n.start) (hc : n.Covers addr) :
    m.Covers addr := by
  obtain ⟨hle, hlt⟩ := hmeet
  have hstart : m.start = n.start := by
    by_contra hne
    have := hm.stop_le hn (lt_of_le_of_ne hle hne)
    omega
  obtain ⟨hlo, hhi⟩ := hc
  rw [hn.stop_eq] at hhi
  exact ⟨by omega, by rw [hm.stop_eq]; omega⟩

theorem Allocs.of_free {s s' : Sys} (h : Allocs s s') {g : ℕ} (hg : s'.free g = true) : s.free g = true := by
  cases hs : s.free g with
  | true => rfl
  | false =>
    rw [h.free g hs] at hg
    cases hg

/-- The aligned range of an address below the length. -/
theorem aligned_node (hlen : s.len ≤ USERTOP) (hlt : addr < s.len) (f : ℕ) :
    let start := rounddown addr - rounddown addr % NODESIZE
    start % PGSIZE * SHMN_NENTRY = 0 ∧ start < s.len ∧
      Node.Aligned ⟨start, wadd start NODESIZE, f⟩ ∧
        Node.Covers ⟨start, wadd start NODESIZE, f⟩ (rounddown addr) := by
  intro start
  have hmod : start % NODESIZE = 0 := by
    show (rounddown addr - rounddown addr % NODESIZE) % NODESIZE = 0
    exact Nat.sub_mod_eq_zero_of_mod_eq (Nat.mod_mod ..).symm
  have hpage : start % PGSIZE = 0 := Nat.mod_eq_zero_of_dvd
    ((Nat.dvd_mul_right ..).trans (Nat.dvd_of_mod_eq_zero hmod))
  have hle : start ≤ rounddown addr := Nat.sub_le ..
  have hround : rounddown addr ≤ addr := Nat.sub_le ..
  have hnear : rounddown addr < start + NODESIZE := by
    have : rounddown addr % NODESIZE < NODESIZE := Nat.mod_lt _ (by decide)
    show rounddown addr < rounddown addr - rounddown addr % NODESIZE + NODESIZE
    omega
  have hstop : wadd start NODESIZE = start + NODESIZE := by
    refine Nat.mod_eq_of_lt ?_
    unfold USERTOP at hlen
    have : NODESIZE = 0x400000 := rfl
    omega
  refine ⟨by rw [hpage, Nat.zero_mul], by omega, ⟨hmod, hstop⟩, hle, ?_⟩
  show rounddown addr < wadd start NODESIZE
  rwa [hstop]

/-- **`shmem_get_entry` returns**: no assertion fails, whatever is allocated. -/
theorem Inv.shmemGetEntry_spec (h : s.Inv E G) (hlt : addr < s.len) {kmalloc : Option ℕ} (env : Env)
    (hk : ∀ p, kmalloc = some p → p ∉ s.shmnList) (create : Bool) :
    ∃ r s', s.shmemGetEntry kmalloc env addr create = some (r, s') ∧ Looked E G s s' addr r := by
  obtain ⟨r, c, hfind, hinv, hsome, hnone⟩ := h.findShmn_spec (rounddown addr)
  have hguard : (guard (addr < s.len) : Option Unit) = some () := if_pos hlt
  simp only [shmemGetEntry, hguard, hfind, Option.bind_eq_bind, Option.bind_some]
  let t : Shmem := { s with shmnCache := c }
  have hgrows : Grows s t := .congr rfl rfl rfl
  have hafter : ∀ {s'' r}, Looked E G t s'' addr r → Looked E G s s'' addr r := fun hl =>
    hl.after hgrows (.refl s.sys) (fun _ hg => hg) (fun _ hn => .inl hn) rfl
  cases r with
  | some p =>
    obtain ⟨n, hn, hc⟩ := hsome p rfl
    have hguard : (guard (n.start ≤ rounddown addr ∧ rounddown addr < n.stop) : Option Unit) = some () := if_pos hc
    obtain ⟨x, s', hrun, hl⟩ := hinv.entryPage_spec env (hgrows.node p n hn) hc create
    have hshmn : s.shmn p = some n := hn.shmn
    simp only [hshmn, hguard, Option.bind_some]
    exact ⟨some x, s', hrun, hafter hl⟩
  | none =>
    have hno : ∀ p n, t.At p n → ¬ n.Covers (rounddown addr) := fun p n hn => hnone rfl p n ⟨hn.1, hn.2⟩
    cases create with
    | false => exact ⟨none, t, rfl, hafter (hinv.looked_none addr hno)⟩
    | true =>
      obtain ⟨hmod, -⟩ := aligned_node h.len_le hlt 0
      have hguard : (guard ((rounddown addr - rounddown addr % NODESIZE) % PGSIZE * SHMN_NENTRY = 0) : Option Unit) =
        some () := if_pos hmod
      simp only [if_true, shmnCreate, hguard, Option.bind_eq_bind, Option.bind_some]
      cases kmalloc with
      | none => exact ⟨none, t, rfl, hafter (hinv.looked_none addr hno)⟩
      | some p =>
        generalize hrun : s.sys.allocPage env .shmn = a
        obtain ⟨a, sys⟩ := a
        obtain ⟨hinv₁, hallocs, hfresh⟩ := hinv.allocPage_spec hrun
        let t₁ : Shmem := { t with sys := sys }
        have hgrows₁ : Grows s t₁ := .congr rfl rfl rfl
        cases a with
        | none =>
          have hl := hinv₁.looked_none addr fun q m hm => hno q m ⟨hm.1, hm.2⟩
          exact ⟨none, t₁, rfl, hl.after hgrows₁ hallocs (fun _ => hallocs.of_free) (fun _ hn => .inl hn) rfl⟩
        | some f =>
          obtain ⟨hwas, hf⟩ := hfresh f rfl
          obtain ⟨-, hstart, hal, hc⟩ := aligned_node h.len_le hlt f
          have hfree : ∀ q m, t₁.At q m → ¬ m.Covers (rounddown addr - rounddown addr % NODESIZE) :=
            fun q m hm hmeet =>
            hno q m ⟨hm.1, hm.2⟩ (covers_of_start hal (hinv₁.aligned hm).1 hmeet hc)
          obtain ⟨t₂, hins, hinv₂, hgrows₂, hat, hsys, hslots, hnodes⟩ := hinv₁.newNode (hk p rfl) hal hstart hf hfree
          obtain ⟨x, s', hpage, hl⟩ := hinv₂.entryPage_spec env hat hc true
          have hsys : t₂.sys = sys := hsys
          have hallocs₂ : Allocs s.sys t₂.sys := by rwa [hsys]
          have hl' : Looked E G s s' addr (some x) := by
            refine hl.after (hgrows₁.trans hgrows₂) hallocs₂ (fun _ => hallocs₂.of_free) (fun g hg => ?_) hslots
            rcases hnodes g hg with hg | rfl
            · exact .inl hg
            · exact .inr hwas
          refine ⟨some x, s', ?_, hl'⟩
          exact (congrArg (Option.bind · _) hins).trans hpage

end Ucore.Shmn.Shmem
