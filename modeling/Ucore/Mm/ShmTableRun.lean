import Ucore.Mm.ShmTableStep
import Ucore.Mm.SwapRun

/-!
# The entry table: any calls

The old entry of a slot is given up before the new one is taken, so that the new one must stay alive meanwhile
(`Held`).  What every run of such calls, with any outcome of allocations and whatever the rest of the kernel does
between two calls, then keeps:

* `Inv.shmemInsertEntry_spec` — one replacement;
* `entry_table` — the list, the cache, the assertions, the slots and the counters in every state of a run.
-/

namespace Ucore

open Sys (without)

namespace Shmn

namespace Shmem

variable {s s' : Shmem} {E G : ℕ → ℕ} {p q f o addr : ℕ} {x y : Slot} {e old : Pte} {env : Env} {sys : Sys}

/-! ## An entry is replaced -/

theorem marked_dropPte (hrun : s.sys.dropPte e = some sys) :
    s.marked.dropPte e = some (marked { s with sys := sys }) := by
  obtain ⟨hpte, hshmn⟩ := Sys.dropPte_tables hrun
  rw [marked, marked, Sys.dropPte_withTables, hrun, hpte, hshmn]
  rfl

theorem marked_takePte (hrun : s.sys.takePte e = some sys) :
    s.marked.takePte e = some (marked { s with sys := sys }) := by
  obtain ⟨hpte, hshmn⟩ := Sys.takePte_tables hrun
  rw [marked, marked, Sys.takePte_withTables, hrun, hpte, hshmn]
  rfl

/-- `shmem_remove_entry_pte`: the slot is empty afterwards. -/
theorem Inv.removeEntryPte_spec (h : s.Inv E G) (hx : s.IsNode x.1) :
    ∃ sys, s.sys.dropPte (s.mem x) = some sys ∧ Shmem.Inv E G (Shmem.setMem { s with sys := sys } x .zero) ∧
      sys.pde = s.sys.pde ∧ sys.shmn = s.sys.shmn ∧ sys.maxSwapOffset = s.sys.maxSwapOffset := by
  have hR : ∀ f, (s.mem x).maps f ≤ E f + s.slotRefs f := fun f => by
    have := h.slotRefs_update (e := .zero) hx s.sys f
    have : Pte.zero.maps f = 0 := rfl
    omega
  have hH : ∀ o, (s.mem x).holds o ≤ G o + s.slotHolds o := fun o => by
    have := h.slotHolds_update (e := .zero) hx s.sys o
    have : Pte.zero.holds o = 0 := rfl
    omega
  obtain ⟨m, hm⟩ := h.swap.dropPte_total hH
  obtain ⟨sys, hrun, -⟩ : ∃ sys, s.sys.dropPte (s.mem x) = some sys ∧ _ := by
    rw [marked, Sys.dropPte_withTables] at hm
    exact Option.map_eq_some_iff.mp hm
  obtain ⟨hinv, hpde, hmax⟩ := h.swap.dropPte_spec hR hH (marked_dropPte hrun)
  refine ⟨sys, hrun, h.setSlot hx hinv (fun f => ?_) fun o => ?_, hpde, (Sys.dropPte_tables hrun).2, hmax⟩
  · exact Nat.sub_add_cancel (hR f)
  · exact Nat.sub_add_cancel (hH o)

/-- The machine can count one more reference of the entry. -/
def Ready (s : Shmem) : Pte → Prop
  | .zero => True
  | .page f _ => s.sys.free f = false ∧ ¬ s.marked.IsTable f
  | .swap o => s.sys.InRange o ∧ s.sys.memMap o < MAX_SWAP_REF

/-- The empty slot takes an entry. -/
theorem Inv.takePte_spec (h : s.Inv E G) (hx : s.IsNode x.1) (hzero : s.mem x = .zero) (he : s.Ready e) :
    ∃ sys, s.sys.takePte e = some sys ∧ Shmem.Inv E G (Shmem.setMem { s with sys := sys } x e) := by
  cases e with
  | zero =>
    refine ⟨s.sys, rfl, h.setSlot hx h.swap (fun f => ?_) fun o => ?_⟩
    · rw [hzero]
    · rw [hzero]
  | page f perm =>
    obtain ⟨hused, htable⟩ := he
    refine ⟨_, rfl, h.setSlot hx (h.swap.pageRefInc hused htable) (fun g => ?_) fun o => ?_⟩
    · rw [hzero]
      exact Pte.maps_inc (fun f => E f + s.slotRefs f) f perm g
    · rw [hzero]
      rfl
  | swap o =>
    obtain ⟨hrange, hcount⟩ := he
    have hoffset : s.sys.swapOffset o = some o := if_pos hrange
    have hguard : (guard (s.sys.memMap o < MAX_SWAP_REF) : Option Unit) = some () := if_pos hcount
    have hrun : s.sys.takePte (.swap o) = some (s.sys.setMemMap o (s.sys.memMap o + 1)) := by
      simp only [Sys.takePte, Sys.swapDuplicate, hoffset, hguard, Option.bind_eq_bind, Option.bind_some]
      rfl
    obtain ⟨hinv, -⟩ := h.swap.swapDuplicate_spec (marked_takePte hrun)
    refine ⟨_, hrun, h.setSlot hx hinv (fun g => ?_) fun p => ?_⟩
    · rw [hzero]
      rfl
    · rw [hzero]
      exact Pte.holds_inc (fun o => G o + s.slotHolds o) o p

/-- The entry is alive and stays so while the slot gives up `old`, which is not its last reference. -/
def Held (s : Shmem) (old : Pte) : Pte → Prop
  | .zero => True
  | .page f _ => s.sys.free f = false ∧ ¬ s.marked.IsTable f ∧
      (old.Maps f → 1 < s.sys.pageRef f ∨ s.sys.pageSwap f = true) ∧
      ∀ o, old = .swap o → s.sys.Caches f o → 0 < s.sys.pageRef f ∨ 1 < s.sys.memMap o
  | .swap o => s.sys.InRange o ∧ (old ≠ .swap o → s.sys.memMap o < MAX_SWAP_REF) ∧
      (old = .swap o → 1 < s.sys.memMap o ∨ ∃ f, s.sys.Caches f o ∧ 0 < s.sys.pageRef f)

/-- The entry for the address: of its slot, or zero without a slot. -/
def Current (s : Shmem) (addr : ℕ) (old : Pte) : Prop :=
  (∃ x, s.SlotAt addr x ∧ s.slots x = old) ∨ (∀ x, ¬ s.SlotAt addr x) ∧ old = .zero

/-- A page with a reference is in use, and no table. -/
theorem Inv.inUse (h : s.Inv E G) (hpos : 0 < E f + s.slotRefs f) : s.sys.free f = false ∧ ¬ s.marked.IsTable f := by
  constructor
  · cases hfree : s.sys.free f with
    | false => rfl
    | true =>
      have := (h.swap.counts.free f hfree).1
      omega
  · intro htable
    have := (h.swap.counts.table f htable).1
    omega

/-- The machine can count the entry once the slot is empty. -/
theorem Inv.ready (h : s.Inv E G) (hx : s.IsNode x.1) (hheld : s.Held (s.slots x) e)
    (hrun : s.sys.dropPte (s.mem x) = some sys) (hpde : sys.pde = s.sys.pde) (hshmn : sys.shmn = s.sys.shmn)
    (hmax : sys.maxSwapOffset = s.sys.maxSwapOffset) : Ready (Shmem.setMem { s with sys := sys } x .zero) e := by
  have hslot : s.slots x = s.mem x := slots_of_isNode hx
  rw [hslot] at hheld
  cases e with
  | zero => trivial
  | page f perm =>
    obtain ⟨hused, htable, hmaps, hcaches⟩ := hheld
    have hfree : (marked { s with sys := sys }).free f = false :=
      Sys.dropPte_inUse h.swap.cache (marked_dropPte hrun) hused hmaps hcaches
    refine ⟨hfree, fun ht => htable ?_⟩
    rcases marked_isTable.mp ht with ht | hn
    · exact marked_isTable.mpr (.inl ((Sys.IsTable.congr hpde hshmn).mp ht))
    · exact marked_isTable.mpr (.inr hn)
  | swap o =>
    obtain ⟨hrange, hother, hsame⟩ := hheld
    have hlt : o < sys.maxSwapOffset := hmax ▸ hrange.2
    refine ⟨⟨hrange.1, hlt⟩, ?_⟩
    show sys.memMap o < MAX_SWAP_REF
    by_cases hold : s.mem x = .swap o
    · have hholds := Occurrence.occ_ne_zero (h.finiteHolds o) (show (s.slots x).Holds o from hslot.trans hold)
      have hcount : s.sys.memMap o = G o + s.slotHolds o ∧ G o + s.slotHolds o < SWAP_UNUSED :=
        h.swap.counts.memMap_held (by unfold slotHolds; omega)
      rw [hold] at hrun
      have hafter : sys.memMap o = s.sys.memMap o - 1 := Sys.swapRemoveEntry_keeps hrun <| by
        rcases hsame hold with hmany | ⟨f, hf, href⟩
        · exact .inl hmany
        · exact .inr ⟨f, h.swap.cache.find_some.mpr hf, href.ne'⟩
      unfold SWAP_UNUSED at hcount
      unfold MAX_SWAP_REF
      omega
    · rw [Sys.dropPte_memMap hrun hold]
      exact hother hold

/-- The slot that a lookup returns had the entry of the address. -/
theorem Looked.current (hl : Looked E G s s' addr (some x)) : s.Current addr (s.slots x) := by
  by_cases hat : s.SlotAt addr x
  · exact .inl ⟨x, hat, rfl⟩
  · refine .inr ⟨fun y hy => hat (Option.some.inj (hl.hit y hy) ▸ hy), ?_⟩
    -- the node of the slot is new
    refine if_neg fun hnode => hat ?_
    obtain ⟨q, m, hm, hentry⟩ := isNode_iff.mp hnode
    obtain ⟨p, n, hn, hc, rfl⟩ := hl.slot x rfl
    obtain rfl := hl.inv.inj p q n m hn (hl.grows.node q m hm) hentry.symm
    obtain rfl := hn.unique (hl.grows.node p m hm)
    exact ⟨p, n, hm, hc, rfl⟩

/-- The lookup itself does not end a reference. -/
theorem Looked.held (hl : Looked E G s s' addr (some x)) (h : s.Inv E G) (hheld : s.Held (s.slots x) e) :
    s'.Held (s'.slots x) e := by
  have hcaches : ∀ f o, s'.sys.Caches f o ↔ s.sys.Caches f o := fun f o => by
    unfold Sys.Caches
    rw [hl.allocs.pageSwap, hl.allocs.pageIndex]
  cases e with
  | zero => trivial
  | page f perm =>
    obtain ⟨hused, htable, hmaps, hcounted⟩ := hheld
    refine ⟨hl.allocs.free f hused, fun ht => ?_, ?_⟩
    · rcases marked_isTable.mp ht with ht | hn
      · exact htable (marked_isTable.mpr (.inl (hl.allocs.isTable.mp ht)))
      · rcases hl.nodes f hn with hn | hfree
        · exact htable (marked_isTable.mpr (.inr hn))
        · rw [hused] at hfree
          cases hfree
    · rw [hl.allocs.pageRef f hused, hl.allocs.memMap, hl.allocs.pageSwap]
      rcases hl.entry x rfl with heq | ⟨-, g, hfree, heq⟩
      · rw [heq]
        exact ⟨hmaps, fun o ho hc => hcounted o ho ((hcaches f o).mp hc)⟩
      · rw [heq]
        refine ⟨?_, nofun⟩
        rintro ⟨_, hpage⟩
        obtain ⟨rfl, -⟩ := Pte.page.inj hpage
        rw [hused] at hfree
        cases hfree
  | swap o =>
    obtain ⟨hrange, hother, hsame⟩ := hheld
    refine ⟨⟨hrange.1, hl.allocs.maxSwapOffset ▸ hrange.2⟩, ?_⟩
    rw [hl.allocs.memMap]
    rcases hl.entry x rfl with heq | ⟨hzero, g, -, heq⟩
    · rw [heq]
      refine ⟨hother, fun hold => ?_⟩
      rcases hsame hold with hmany | ⟨f, hf, href⟩
      · exact .inl hmany
      · -- a cached page is in use
        have hused : s.sys.free f = false := Bool.eq_false_iff.mpr fun hfree => by
          have hnot : s.sys.pageSwap f = false := (h.swap.counts.free f hfree).2
          rw [hf.1] at hnot
          cases hnot
        exact .inr ⟨f, (hcaches f o).mpr hf, by rwa [hl.allocs.pageRef f hused]⟩
    · rw [heq]
      refine ⟨fun _ => hother ?_, nofun⟩
      rw [hzero]
      nofun

theorem removeEntryPte_zero (hzero : s.mem x = .zero) : s.shmemRemoveEntryPte x = some s := by
  simp only [shmemRemoveEntryPte, hzero, Sys.dropPte, Option.map_some, setMem]
  rw [← hzero, Function.update_eq_self]

/-- **`shmem_insert_entry`** returns, and the slot of the address has the entry unless there is no memory. -/
theorem Inv.shmemInsertEntry_spec (h : s.Inv E G) (hlt : addr < s.len) {kmalloc : Option ℕ} (env : Env)
    (hk : ∀ p, kmalloc = some p → p ∉ s.shmnList) (hheld : ∀ old, s.Current addr old → s.Held old e) :
    ∃ r s', s.shmemInsertEntry kmalloc env addr e = some (r, s') ∧ s'.Inv E G ∧ Grows s s' ∧
      (r = -E_NO_MEM ∧ s'.slots = s.slots ∨
        r = 0 ∧ ∃ x, s'.SlotAt addr x ∧ s'.slots = Function.update s.slots x e) := by
  obtain ⟨r, s₁, hrun, hl⟩ := h.shmemGetEntry_spec hlt env hk true
  simp only [shmemInsertEntry, hrun, Option.bind_eq_bind, Option.bind_some]
  cases r with
  | none => exact ⟨-E_NO_MEM, s₁, rfl, hl.inv, hl.grows, .inl ⟨rfl, funext fun y => hl.other y nofun⟩⟩
  | some x =>
    have hx : s₁.IsNode x.1 := (hl.slot x rfl).isNode
    obtain ⟨sys, hdrop, hinv, hpde, hshmn, hmax⟩ := hl.inv.removeEntryPte_spec hx
    have hremove : s₁.shmemRemoveEntryPte x = some (Shmem.setMem { s₁ with sys := sys } x .zero) := by
      rw [shmemRemoveEntryPte, hdrop]
      rfl
    have hready := hl.inv.ready hx (hl.held h (hheld _ hl.current)) hdrop hpde hshmn hmax
    obtain ⟨sys', htake, hinv'⟩ := hinv.takePte_spec hx (Function.update_self ..) hready
    let t : Shmem := Shmem.setMem { s₁ with sys := sys } x .zero
    let s' : Shmem := Shmem.setMem { t with sys := sys' } x e
    have hend : ((s₁.shmemRemoveEntryPte x).bind fun s => (s.sys.takePte e).bind fun sys =>
        some ((0 : Int), Shmem.setMem { s with sys := sys } x e)) = some (0, s') := by
      rw [hremove, Option.bind_some, htake]
      rfl
    have hgrows : Grows s s' := hl.grows.trans (.congr rfl rfl rfl)
    refine ⟨0, s', ?_, hinv', hgrows, .inr ⟨rfl, x, (hl.slot x rfl).mono (.congr rfl rfl rfl), ?_⟩⟩
    · dsimp only
      split
      · exact hend
      · rename_i hzero
        rw [removeEntryPte_zero (not_not.mp hzero)] at hend
        exact hend
    · have hslots : s'.slots = Function.update (Function.update s₁.slots x .zero) x e :=
        (slots_setMem (s := t) hx sys').trans (congrArg (Function.update · x e) (slots_setMem hx sys))
      rw [hslots, Function.update_idem]
      funext y
      by_cases hy : y = x
      · rw [hy, Function.update_self, Function.update_self]
      · rw [Function.update_of_ne hy, Function.update_of_ne hy, hl.other y fun heq => hy (Option.some.inj heq).symm]

/-! ## Runs -/

/-- One call, with what `kmalloc` returns and what the machine decides. -/
inductive Call where
  | getEntry (kmalloc : Option ℕ) (env : Env) (addr : ℕ) (create : Bool)
  | insertEntry (kmalloc : Option ℕ) (env : Env) (addr : ℕ) (entry : Pte)
  | removeEntry (kmalloc : Option ℕ) (env : Env) (addr : ℕ)

/-- The state after the call; a failed assertion is no state. -/
def Call.run (s : Shmem) : Call → Option Shmem
  | .getEntry kmalloc env addr create => (s.shmemGetEntry kmalloc env addr create).map Prod.snd
  | .insertEntry kmalloc env addr entry => (s.shmemInsertEntry kmalloc env addr entry).map Prod.snd
  | .removeEntry kmalloc env addr => (s.shmemRemoveEntry kmalloc env addr).map Prod.snd

/-- `kmalloc` returns `NULL`, or an address that no node of the list has. -/
def Unlisted (s : Shmem) (kmalloc : Option ℕ) : Prop := ∀ p, kmalloc = some p → p ∉ s.shmnList

/-- The call is below the length, and the entry to insert is one that stays alive. -/
def Call.Enabled (s : Shmem) : Call → Prop
  | .getEntry kmalloc _ addr _ => addr < s.len ∧ s.Unlisted kmalloc
  | .insertEntry kmalloc _ addr entry =>
    addr < s.len ∧ s.Unlisted kmalloc ∧ ∀ old, s.Current addr old → s.Held old entry
  | .removeEntry kmalloc _ addr => addr < s.len ∧ s.Unlisted kmalloc

/-- The object, with the references that the rest of the kernel has to pages and to swap entries. -/
structure World where
  pageRefs : ℕ → ℕ
  swapRefs : ℕ → ℕ
  shmem : Shmem

/-- A call, or anything that the rest of the kernel does with its references and its pages. -/
inductive Step (w : World) : World → Prop
  | call {s' : Shmem} (c : Call) (hc : c.Enabled w.shmem) (hrun : c.run w.shmem = some s') :
    Step w { w with shmem := s' }
  | rest (E' G' : ℕ → ℕ) (sys : Sys) (hswap : (marked { w.shmem with sys := sys }).SwapInv
      (fun f => E' f + w.shmem.slotRefs f) fun o => G' o + w.shmem.slotHolds o) :
    Step w ⟨E', G', { w.shmem with sys := sys }⟩

/-- Any number of steps. -/
def Steps : World → World → Prop := Relation.ReflTransGen Step

/-- After `shmem_create`. -/
structure Created (w : World) : Prop where
  len_le : w.shmem.len ≤ USERTOP
  shmnList : w.shmem.shmnList = []
  shmnCache : w.shmem.shmnCache = none
  swap : w.shmem.sys.SwapInv w.pageRefs w.swapRefs

/-- **Every call returns**, and keeps the invariant and the nodes. -/
theorem Inv.call_spec (h : s.Inv E G) {c : Call} (hc : c.Enabled s) :
    ∃ s', c.run s = some s' ∧ s'.Inv E G ∧ Grows s s' := by
  cases c with
  | getEntry kmalloc env addr create =>
    obtain ⟨r, s', hrun, hl⟩ := h.shmemGetEntry_spec hc.1 env hc.2 create
    exact ⟨s', congrArg (Option.map Prod.snd) hrun, hl.inv, hl.grows⟩
  | insertEntry kmalloc env addr entry =>
    obtain ⟨r, s', hrun, hinv, hgrows, -⟩ := h.shmemInsertEntry_spec hc.1 env hc.2.1 hc.2.2
    exact ⟨s', congrArg (Option.map Prod.snd) hrun, hinv, hgrows⟩
  | removeEntry kmalloc env addr =>
    obtain ⟨r, s', hrun, hinv, hgrows, -⟩ := h.shmemInsertEntry_spec (e := .zero) hc.1 env hc.2 fun _ _ => trivial
    exact ⟨s', congrArg (Option.map Prod.snd) hrun, hinv, hgrows⟩

theorem Step.inv {w w' : World} (hstep : Step w w') (h : w.shmem.Inv w.pageRefs w.swapRefs) :
    w'.shmem.Inv w'.pageRefs w'.swapRefs ∧ Grows w.shmem w'.shmem := by
  cases hstep with
  | call c hc hrun =>
    obtain ⟨s', hrun', hinv, hgrows⟩ := h.call_spec hc
    obtain rfl := Option.some.inj (hrun.symm.trans hrun')
    exact ⟨hinv, hgrows⟩
  | rest E' G' sys hswap =>
    refine ⟨⟨h.len_le, h.node, h.sorted, h.cache, fun p q n m hn hm => ?_, h.finite, hswap⟩, .congr rfl rfl rfl⟩
    exact h.inj p q n m ⟨hn.1, hn.2⟩ ⟨hm.1, hm.2⟩

theorem Steps.inv {w w' : World} (hsteps : Steps w w') (h : w.shmem.Inv w.pageRefs w.swapRefs) :
    w'.shmem.Inv w'.pageRefs w'.swapRefs ∧ Grows w.shmem w'.shmem := by
  induction hsteps with
  | refl => exact ⟨h, .refl _⟩
  | tail _ hstep ih =>
    obtain ⟨hinv, hgrows⟩ := hstep.inv ih.1
    exact ⟨hinv, ih.2.trans hgrows⟩

/-- A new object has no entries. -/
theorem Created.inv {w : World} (h : Created w) : w.shmem.Inv w.pageRefs w.swapRefs := by
  have hno : ∀ f, ¬ w.shmem.IsNode f := fun f hf => by
    obtain ⟨p, n, hn, -⟩ := isNode_iff.mp hf
    have hmem := hn.mem
    rw [h.shmnList] at hmem
    cases hmem
  have hslots : w.shmem.slots = fun _ => .zero := funext fun x => if_neg (hno x.1)
  have htable : ∀ g, w.shmem.marked.IsTable g ↔ w.shmem.sys.IsTable g := fun g => by
    rw [marked_isTable]
    exact or_iff_left (hno g)
  have hrefs : w.shmem.slotRefs = fun _ => 0 := funext fun f => by
    rw [slotRefs, Occurrence.occ_eq_zero (by simp [hslots, Pte.Maps])]
    simp [hslots, Pte.Maps]
  have hholds : w.shmem.slotHolds = fun _ => 0 := funext fun o => by
    rw [slotHolds, Occurrence.occ_eq_zero (by simp [hslots, Pte.Holds])]
    simp [hslots, Pte.Holds]
  refine ⟨h.len_le, ?_, ?_, ?_, fun p q n m hn => ?_, ?_, ?_⟩
  · rw [h.shmnList]
    intro p hp
    cases hp
  · rw [h.shmnList]
    exact .nil
  · rw [h.shmnCache]
    intro p hp
    cases hp
  · exact absurd hn.isNode (hno _)
  · simp [hslots]
  · rw [hrefs, hholds]
    exact h.swap.retable (fun g hg => (htable g).mpr hg) fun g hg => .inl ((htable g).mp hg)

theorem SlotAt.page {addr' : ℕ} (hx : s.SlotAt addr x) (heq : addr' / PGSIZE = addr / PGSIZE) : s.SlotAt addr' x := by
  have hround : rounddown addr' = rounddown addr := by
    unfold rounddown PGSIZE at *
    omega
  obtain ⟨p, n, hn, hc, hslot⟩ := hx
  exact ⟨p, n, hn, hround ▸ hc, hround ▸ hslot⟩

/-- Two lookups with any steps between them. -/
theorem Inv.lookups {w w' : World} (h : w.shmem.Inv w.pageRefs w.swapRefs) {kmalloc kmalloc' : Option ℕ}
    {env env' : Env} {addr' : ℕ} {create create' : Bool} {s₁ s₂ : Shmem} {r : Option Slot} (hlt : addr < w.shmem.len)
    (hk : w.shmem.Unlisted kmalloc) (hrun : w.shmem.shmemGetEntry kmalloc env addr create = some (some x, s₁))
    (hsteps : Steps { w with shmem := s₁ } w') (hlt' : addr' < w'.shmem.len) (hk' : w'.shmem.Unlisted kmalloc')
    (hrun' : w'.shmem.shmemGetEntry kmalloc' env' addr' create' = some (r, s₂)) :
    r = some x ↔ addr' / PGSIZE = addr / PGSIZE := by
  obtain ⟨r₁, t₁, heq₁, hl⟩ := h.shmemGetEntry_spec hlt env hk create
  obtain ⟨rfl, rfl⟩ := Prod.mk.inj (Option.some.inj (heq₁.symm.trans hrun))
  obtain ⟨hinv, hgrows⟩ := hsteps.inv hl.inv
  have hx : w'.shmem.SlotAt addr x := (hl.slot x rfl).mono hgrows
  obtain ⟨r₂, t₂, heq₂, hl'⟩ := hinv.shmemGetEntry_spec hlt' env' hk' create'
  obtain ⟨rfl, rfl⟩ := Prod.mk.inj (Option.some.inj (heq₂.symm.trans hrun'))
  constructor
  · intro hr
    exact (hl'.inv.slotAt_iff (hl'.slot x hr) (hx.mono hl'.grows)).mp rfl
  · intro hpage
    exact hl'.hit x (hx.page hpage)

/-- The entry table of a shared memory object between two calls. -/
structure EntryTable (w : World) : Prop where
  sorted : w.shmem.shmnList.Pairwise fun p q =>
    ∀ n m, w.shmem.shmn p = some n → w.shmem.shmn q = some m → n.stop ≤ m.start
  aligned : ∀ p ∈ w.shmem.shmnList, ∃ n, w.shmem.shmn p = some n ∧ n.start % 0x400000 = 0 ∧
    n.stop = n.start + 0x400000
  cache : ∀ p, w.shmem.shmnCache = some p → p ∈ w.shmem.shmnList
  /-- no assertion fails -/
  returns : ∀ c : Call, c.Enabled w.shmem → ∃ s', c.run w.shmem = some s'
  /-- the slot of a page, in all later lookups and in no lookup for another page -/
  slot : ∀ kmalloc env addr create x s₁, addr < w.shmem.len → w.shmem.Unlisted kmalloc →
    w.shmem.shmemGetEntry kmalloc env addr create = some (some x, s₁) → ∀ w', Steps { w with shmem := s₁ } w' →
      ∀ kmalloc' env' addr' create' r s₂, addr' < w'.shmem.len → w'.shmem.Unlisted kmalloc' →
        w'.shmem.shmemGetEntry kmalloc' env' addr' create' = some (r, s₂) →
          (r = some x ↔ addr' / PGSIZE = addr / PGSIZE)
  finite : {x | w.shmem.slots x ≠ .zero}.Finite
  page : ∀ x f perm, w.shmem.slots x = .page f perm → w.shmem.sys.free f = false ∧ ¬ w.shmem.marked.IsTable f
  pageRef : ∀ f, ¬ w.shmem.marked.IsTable f → w.shmem.sys.pageRef f = (w.pageRefs f + w.shmem.slotRefs f : ℕ)
  swap : ∀ x o, w.shmem.slots x = .swap o → w.shmem.sys.InRange o ∧ w.shmem.sys.memMap o ≠ SWAP_UNUSED
  memMap : ∀ o, w.shmem.sys.InRange o → w.shmem.sys.memMap o = w.swapRefs o + w.shmem.slotHolds o ∨
    w.shmem.sys.memMap o = SWAP_UNUSED ∧ w.swapRefs o + w.shmem.slotHolds o = 0

/-- **The entry table of shared memory**: in every state that any calls reach, with any allocations failing, the nodes
are sorted and cover aligned ranges, the cache is one of them, no assertion fails, a page has one slot that never
moves, and every entry in a slot is one reference. -/
theorem entry_table {w₀ w : World} (h₀ : Created w₀) (hsteps : Steps w₀ w) : EntryTable w := by
  obtain ⟨hinv, -⟩ := hsteps.inv h₀.inv
  refine ⟨hinv.sorted, fun p hp => ?_, hinv.cache, fun c hc => ?_, ?_, hinv.finite, fun x f perm hx => hinv.inUse ?_,
    fun f hf => hinv.swap.counts.ref f hf, fun x o hx => ?_, fun o ho => ?_⟩
  · obtain ⟨n, hn, hal, -⟩ := hinv.node p hp
    exact ⟨n, hn, hal.start_mod, hal.stop_eq⟩
  · obtain ⟨s', hrun, -⟩ := hinv.call_spec hc
    exact ⟨s', hrun⟩
  · intro kmalloc env addr create x s₁ hlt hk hrun w' hsteps' kmalloc' env' addr' create' r s₂ hlt' hk' hrun'
    exact hinv.lookups hlt hk hrun hsteps' hlt' hk' hrun'
  · have := Occurrence.occ_ne_zero (hinv.finiteMaps f) (show (w.shmem.slots x).Maps f from ⟨perm, hx⟩)
    unfold slotRefs
    omega
  · have hne := Occurrence.occ_ne_zero (hinv.finiteHolds o) (show (w.shmem.slots x).Holds o from hx)
    have hheld : w.swapRefs o + w.shmem.slotHolds o ≠ 0 := by
      unfold slotHolds
      omega
    obtain ⟨hcount, hlt⟩ := hinv.swap.counts.memMap_held hheld
    refine ⟨hinv.swap.counts.range o hheld, ?_⟩
    show w.shmem.marked.memMap o ≠ SWAP_UNUSED
    omega
  · rcases hinv.swap.counts.entry o ho with ⟨hunused, hzero, -⟩ | ⟨hcount, -⟩
    · exact .inr ⟨hunused, hzero⟩
    · exact .inl hcount

/-- A new object of two page tables, while two page table entries hold the swap entry `5`. -/
def bootWorld : World where
  pageRefs _ := 0
  swapRefs := Function.update (fun _ => 0) 5 2
  shmem := ⟨Sys.boot.setMemMap 5 2, fun _ => .zero, fun _ => none, [], none, 2 * PTSIZE⟩

theorem bootWorld_created : Created bootWorld := by
  have hboot : Sys.boot.SwapInv (fun _ => 0) fun _ => 0 := by
    have h := Sys.boot_init.paging.swap
    rwa [funext (Sys.refs_of_zero Sys.boot_init.pte), funext (Sys.holders_of_zero Sys.boot_init.pte)] at h
  have hrange : Sys.boot.InRange 5 := ⟨by decide, by decide⟩
  exact ⟨by decide, rfl, rfl, hboot.cache.congr rfl rfl rfl rfl rfl rfl rfl,
    hboot.counts.setMemMap hrange (.inr ⟨rfl, by decide, nofun⟩)⟩

/-- Nodes come from the frame `0`, pages from the frame `1`. -/
def bootEnv : Env where
  pick
    | .shmn => some 0
    | _ => some 1
  junk _ _ := 0
  readOk := true
  write _ := none

/-- A page is created and replaced by the swap entry, which is then inserted again. -/
theorem entry_table_swapped : ∃ w, Steps bootWorld w ∧ w.shmem.mem (0, 1) = .swap 5 ∧ w.shmem.sys.memMap 5 = 3 ∧
    w.shmem.sys.free 1 = true ∧ EntryTable w := by
  let insert : Call := .insertEntry none bootEnv 0x1234 (.swap 5)
  have hget : ∃ s, Call.run bootWorld.shmem (.getEntry (some 0) bootEnv 0x1000 true) = some s ∧
      ∃ s₁, insert.run s = some s₁ ∧ ∃ s₂, insert.run s₁ = some s₂ ∧
        (s.len = 2 * PTSIZE ∧ s.sys.maxSwapOffset = 1024 ∧ s.sys.memMap 5 = 2) ∧
        (s₁.len = 2 * PTSIZE ∧ s₁.sys.maxSwapOffset = 1024 ∧ s₁.sys.memMap 5 = 3) ∧
        s₂.mem (0, 1) = .swap 5 ∧ s₂.sys.memMap 5 = 3 ∧ s₂.sys.free 1 = true :=
    ⟨_, rfl, _, rfl, _, rfl, ⟨rfl, rfl, rfl⟩, ⟨rfl, rfl, rfl⟩, rfl, rfl, rfl⟩
  obtain ⟨s, hget, s₁, hfirst, s₂, hsecond, ⟨hlen, hmax, hcount⟩, ⟨hlen₁, hmax₁, hcount₁⟩, hmem, hcount₂, hfree⟩ :=
    hget
  have henabled : ∀ t : Shmem, t.len = 2 * PTSIZE → t.sys.maxSwapOffset = 1024 → 1 < t.sys.memMap 5 →
      t.sys.memMap 5 < MAX_SWAP_REF → insert.Enabled t := fun t hlen hmax hmany hfew =>
    ⟨by rw [hlen]; decide, nofun, fun _ _ => ⟨⟨by decide, by rw [hmax]; decide⟩, fun _ => hfew, fun _ => .inl hmany⟩⟩
  have hcreate : Step bootWorld { bootWorld with shmem := s } :=
    .call (.getEntry (some 0) bootEnv 0x1000 true) ⟨by decide, fun _ _ => List.not_mem_nil⟩ hget
  have hsteps : Steps bootWorld { bootWorld with shmem := s₂ } := by
    refine .tail (.tail (.single hcreate) (.call insert ?_ hfirst)) (.call insert ?_ hsecond)
    · exact henabled s hlen hmax (by rw [hcount]; decide) (by rw [hcount]; decide)
    · exact henabled s₁ hlen₁ hmax₁ (by rw [hcount₁]; decide) (by rw [hcount₁]; decide)
  exact ⟨_, hsteps, hmem, hcount₂, hfree, entry_table bootWorld_created hsteps⟩

/-- The slot's own entry is inserted again: the page is freed before its reference is taken, so that the entry is one
of a free page. -/
theorem own_entry_freed : ∃ s s' perm, Created bootWorld ∧ Steps bootWorld { bootWorld with shmem := s } ∧
    s.SlotAt 0x1234 (0, 1) ∧ s.slots (0, 1) = .page 1 perm ∧ 0x1234 < s.len ∧ s.Unlisted none ∧
    Call.run s (.insertEntry none bootEnv 0x1234 (.page 1 perm)) = some s' ∧ s'.slots (0, 1) = .page 1 perm ∧
    s'.sys.free 1 = true ∧ ¬ EntryTable { bootWorld with shmem := s' } := by
  have hget : ∃ s, Call.run bootWorld.shmem (.getEntry (some 0) bootEnv 0x1000 true) = some s ∧
      ∃ s', Call.run s (.insertEntry none bootEnv 0x1234 (s.mem (0, 1))) = some s' ∧ s.len = 2 * PTSIZE ∧
        s.mem (0, 1) = .page 1 ⟨false, false, false, false⟩ ∧ s.At 0 ⟨0, NODESIZE, 0⟩ ∧ s'.At 0 ⟨0, NODESIZE, 0⟩ ∧
        s'.mem (0, 1) = .page 1 ⟨false, false, false, false⟩ ∧ s'.sys.free 1 = true :=
    ⟨_, rfl, _, rfl, rfl, rfl, ⟨List.mem_singleton_self _, rfl⟩, ⟨List.mem_singleton_self _, rfl⟩, rfl, rfl⟩
  obtain ⟨s, hget, s', hinsert, hlen, hpage, hat, hat', hpage', hfree⟩ := hget
  have hfirst : Step bootWorld { bootWorld with shmem := s } :=
    .call (.getEntry (some 0) bootEnv 0x1000 true) ⟨by decide, fun _ _ => List.not_mem_nil⟩ hget
  have hslot : s'.slots (0, 1) = .page 1 ⟨false, false, false, false⟩ := (slots_of_isNode hat'.isNode).trans hpage'
  rw [hpage] at hinsert
  refine ⟨s, s', _, bootWorld_created, .single hfirst, ⟨0, _, hat, ⟨by decide, by decide⟩, rfl⟩,
    (slots_of_isNode hat.isNode).trans hpage, by rw [hlen]; decide, nofun, hinsert, hslot, hfree, fun h => ?_⟩
  have hused := (h.page (0, 1) 1 _ hslot).1
  rw [hfree] at hused
  cases hused

end Shmem

end Shmn

end Ucore
