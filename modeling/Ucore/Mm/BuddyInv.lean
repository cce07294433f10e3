import Ucore.Lib.Dyadic
import Ucore.Mm.Buddy

/-!
# Invariant of the buddy allocator

`Inv Z g N s A` relates an allocator state `s` to the zones `Z` handed to `buddy_init_memmap`, to
the page array `g` of the `N` pages before that, and to the set `A` of the allocated pages.  Its
core is `tile`: in each zone the free blocks are a tiling, in the sense of `Ucore.Lib.Dyadic`, of
the pages of the zone that are not allocated, and the tiling is coalesced.

The two elementary changes of state are `take` (a free block leaves its list, its pages become
allocated) and `Buddy.listAddBlock` (allocated pages become a free block); `Inv.take` and
`Inv.put` say what they do to the invariant, and the specifications of the functions of
`buddy_pmm.c` (`Ucore.Mm.BuddySpec`) follow from these two.
-/

namespace Ucore

open DyadicTiling

/-- The ranges given to `buddy_init_memmap`, in order: first page and number of pages. -/
abbrev Zones := List (ℕ × ℕ)

/-- All pages of the initialised ranges. -/
def initPages (Z : Zones) : Finset ℕ := Z.toFinset.biUnion fun z => Finset.Ico z.1 (z.1 + z.2)

theorem mem_initPages {Z : Zones} {p : ℕ} :
    p ∈ initPages Z ↔ ∃ z b n : ℕ, Z[z]? = some (b, n) ∧ b ≤ p ∧ p < b + n := by
  simp only [initPages, Finset.mem_biUnion, List.mem_toFinset, Finset.mem_Ico, Prod.exists]
  constructor
  · rintro ⟨b, n, hmem, hb, hn⟩
    obtain ⟨z, hz⟩ := List.mem_iff_getElem?.mp hmem
    exact ⟨z, b, n, hz, hb, hn⟩
  · rintro ⟨z, b, n, hz, hb, hn⟩
    exact ⟨b, n, List.mem_of_getElem? hz, hb, hn⟩

/-- The zone-relative indices of the pages of a zone that are not allocated. -/
def freeSet (b n : ℕ) (A : Finset ℕ) : Set ℕ := {i | i < n ∧ b + i ∉ A}

@[simp] theorem mem_freeSet {b n i : ℕ} {A : Finset ℕ} :
    i ∈ freeSet b n A ↔ i < n ∧ b + i ∉ A := Iff.rfl

theorem freeSet_congr (b n : ℕ) (A A' : Finset ℕ) (h : ∀ x < n, b + x ∈ A ↔ b + x ∈ A') :
    freeSet b n A = freeSet b n A' := by
  ext x
  simp only [mem_freeSet]
  exact ⟨fun ⟨hx, hA⟩ => ⟨hx, fun ha => hA ((h x hx).mpr ha)⟩,
    fun ⟨hx, hA⟩ => ⟨hx, fun ha => hA ((h x hx).mp ha)⟩⟩

theorem freeSet_union (b n : ℕ) (A : Finset ℕ) (i k : ℕ) :
    freeSet b n (A ∪ Finset.Ico (b + i) (b + i + 2 ^ k)) = freeSet b n A \ block i k := by
  ext x
  simp only [Set.mem_sdiff, mem_freeSet, mem_block, Finset.mem_union, Finset.mem_Ico, not_or]
  constructor
  · rintro ⟨hx, hA, hI⟩; exact ⟨⟨hx, hA⟩, by omega⟩
  · rintro ⟨⟨hx, hA⟩, hI⟩; exact ⟨hx, hA, by omega⟩

theorem freeSet_sdiff {b n : ℕ} (A : Finset ℕ) {i k : ℕ} (hik : i + 2 ^ k ≤ n) :
    freeSet b n (A \ Finset.Ico (b + i) (b + i + 2 ^ k)) = freeSet b n A ∪ block i k := by
  ext x
  simp only [Set.mem_union, mem_freeSet, mem_block, Finset.mem_sdiff, Finset.mem_Ico, not_and]
  constructor
  · rintro ⟨hx, hA⟩
    by_cases hxA : b + x ∈ A
    · exact Or.inr (by have := hA hxA; omega)
    · exact Or.inl ⟨hx, hxA⟩
  · rintro (⟨hx, hA⟩ | hI)
    · exact ⟨hx, fun ha => absurd ha hA⟩
    · exact ⟨by omega, fun _ => by omega⟩

namespace Buddy

/-- The free blocks of zone `z`, as pairs of zone-relative index and order. -/
def freeBlocks (s : Buddy) (z : ℕ) : Set (ℕ × ℕ) :=
  {b | b.2 ≤ MAX_ORDER ∧ s.idx2page z b.1 ∈ (s.freeArea b.2).freeList ∧
    (s.pages (s.idx2page z b.1)).zoneNum = z}

/-- `nr_free(order) --; list_del(&(p->page_link)); ClearPageProperty(p)`. -/
def take (s : Buddy) (order p : ℕ) : Buddy :=
  ((s.decNrFree order).listDel p).clearPageProperty p

/-- What `buddy_init_memmap` fixes once and for all: the zones and the pages outside them. -/
structure Layout (Z : Zones) (g : ℕ → Page) (N : ℕ) (s : Buddy) : Prop where
  npage : s.npage = N
  zoneNum : s.zoneNum = Z.length
  base : ∀ z b n : ℕ, Z[z]? = some (b, n) → s.zones z = b
  inside : ∀ z b n : ℕ, Z[z]? = some (b, n) → b + n ≤ N
  zone : ∀ z b n : ℕ, Z[z]? = some (b, n) → ∀ p, b ≤ p → p < b + n →
    (s.pages p).zoneNum = z ∧ (s.pages p).flags.reserved = false
  outside : ∀ p, p ∉ initPages Z → s.pages p = g p

/-- The invariant of the allocator, with `A` the set of the allocated pages. -/
structure Inv (Z : Zones) (g : ℕ → Page) (N : ℕ) (s : Buddy) (A : Finset ℕ) : Prop where
  layout : Layout Z g N s
  listed : ∀ k p, k ≤ MAX_ORDER → p ∈ (s.freeArea k).freeList → p ∈ initPages Z
  nodup : ∀ k, k ≤ MAX_ORDER → (s.freeArea k).freeList.Nodup
  nrFree : ∀ k, k ≤ MAX_ORDER → (s.freeArea k).nrFree = (s.freeArea k).freeList.length
  flagged : ∀ p ∈ initPages Z, (s.pages p).flags.property = true ↔
    ∃ k ≤ MAX_ORDER, p ∈ (s.freeArea k).freeList
  order : ∀ k p, k ≤ MAX_ORDER → p ∈ (s.freeArea k).freeList → (s.pages p).property = k
  allocated : A ⊆ initPages Z
  tile : ∀ z b n : ℕ, Z[z]? = some (b, n) →
    Tiling MAX_ORDER (s.freeBlocks z) (freeSet b n A)
  coalesced : ∀ z, z < Z.length → Coalesced MAX_ORDER (s.freeBlocks z)
  count : s.buddyNrFreePages + A.card = (initPages Z).card

/-! ## Fields after the elementary updates -/

section Fields

variable (s : Buddy) (k p : ℕ)

@[simp] theorem take_npage : (s.take k p).npage = s.npage := rfl
@[simp] theorem take_zones : (s.take k p).zones = s.zones := rfl
@[simp] theorem take_zoneNum : (s.take k p).zoneNum = s.zoneNum := rfl

theorem take_pages (q : ℕ) :
    (s.take k p).pages q = if q = p then (s.pages p).clearProperty else s.pages q := by
  simp [take, clearPageProperty, setPage, listDel, decNrFree, setArea, Function.update_apply]

theorem take_freeList (j : ℕ) :
    ((s.take k p).freeArea j).freeList = (s.freeArea j).freeList.erase p := by
  by_cases h : j = k
  · subst h; simp [take, clearPageProperty, setPage, listDel, decNrFree, setArea]
  · simp [take, clearPageProperty, setPage, listDel, decNrFree, setArea, h]

theorem take_nrFree (j : ℕ) :
    ((s.take k p).freeArea j).nrFree =
      if j = k then (s.freeArea k).nrFree - 1 else (s.freeArea j).nrFree := by
  by_cases h : j = k
  · subst h; simp [take, clearPageProperty, setPage, listDel, decNrFree, setArea]
  · simp [take, clearPageProperty, setPage, listDel, decNrFree, setArea, h]

@[simp] theorem listAddBlock_npage : (s.listAddBlock k p).npage = s.npage := rfl
@[simp] theorem listAddBlock_zones : (s.listAddBlock k p).zones = s.zones := rfl
@[simp] theorem listAddBlock_zoneNum : (s.listAddBlock k p).zoneNum = s.zoneNum := rfl

theorem listAddBlock_pages (q : ℕ) :
    (s.listAddBlock k p).pages q =
      if q = p then { s.pages p with property := k }.setProperty else s.pages q := by
  simp [listAddBlock, setPage, setArea, Function.update_apply]

theorem listAddBlock_freeList (j : ℕ) :
    ((s.listAddBlock k p).freeArea j).freeList =
      if j = k then p :: (s.freeArea k).freeList else (s.freeArea j).freeList := by
  by_cases h : j = k
  · subst h; simp [listAddBlock, setPage, setArea]
  · simp [listAddBlock, setPage, setArea, h]

theorem listAddBlock_nrFree (j : ℕ) :
    ((s.listAddBlock k p).freeArea j).nrFree =
      if j = k then (s.freeArea k).nrFree + 1 else (s.freeArea j).nrFree := by
  by_cases h : j = k
  · subst h; simp [listAddBlock, setPage, setArea]
  · simp [listAddBlock, setPage, setArea, h]

@[simp] theorem idx2page_take (z i : ℕ) : (s.take k p).idx2page z i = s.idx2page z i := rfl
@[simp] theorem idx2page_listAddBlock (z i : ℕ) :
    (s.listAddBlock k p).idx2page z i = s.idx2page z i := rfl

theorem take_page_zoneNum (q : ℕ) : ((s.take k p).pages q).zoneNum = (s.pages q).zoneNum := by
  rw [take_pages]; split
  · rename_i h; subst h; rfl
  · rfl

theorem listAddBlock_page_zoneNum (q : ℕ) :
    ((s.listAddBlock k p).pages q).zoneNum = (s.pages q).zoneNum := by
  rw [listAddBlock_pages]; split
  · rename_i h; subst h; rfl
  · rfl

end Fields

theorem buddyNrFreePages_eq_sum (s : Buddy) :
    s.buddyNrFreePages = ∑ k ∈ Finset.range (MAX_ORDER + 1), (s.freeArea k).nrFree * 2 ^ k := by
  have h : ∀ (l : List ℕ) (f : ℕ → ℕ) (a : ℕ),
      l.foldl (fun ret order => ret + f order) a = a + (l.map f).sum := by
    intro l f
    induction l with
    | nil => simp
    | cons x l ih => intro a; simp [ih]; omega
  rw [buddyNrFreePages, h, Nat.zero_add]
  rfl

/-- One counter going down by one lowers the number of free pages by the size of a block. -/
theorem buddyNrFreePages_of_dec (s s' : Buddy) {k : ℕ} (hk : k ≤ MAX_ORDER)
    (hkk : (s'.freeArea k).nrFree + 1 = (s.freeArea k).nrFree)
    (hne : ∀ j, j ≠ k → (s'.freeArea j).nrFree = (s.freeArea j).nrFree) :
    s'.buddyNrFreePages + 2 ^ k = s.buddyNrFreePages := by
  have hmem : k ∈ Finset.range (MAX_ORDER + 1) := Finset.mem_range.mpr (by omega)
  have hrest : ∑ j ∈ (Finset.range (MAX_ORDER + 1)).erase k, (s'.freeArea j).nrFree * 2 ^ j =
      ∑ j ∈ (Finset.range (MAX_ORDER + 1)).erase k, (s.freeArea j).nrFree * 2 ^ j :=
    Finset.sum_congr rfl fun j hj => by rw [hne j (Finset.ne_of_mem_erase hj)]
  rw [buddyNrFreePages_eq_sum, buddyNrFreePages_eq_sum, ← Finset.add_sum_erase _ _ hmem,
    ← Finset.add_sum_erase _ _ hmem, hrest, ← hkk]
  ring

/-! ## Consequences of the invariant -/

section Inv

variable {Z : Zones} {g : ℕ → Page} {N : ℕ} {s : Buddy} {A : Finset ℕ}

theorem Layout.zone_unique (h : Layout Z g N s) {z z' b n b' n' p : ℕ} (hz : Z[z]? = some (b, n))
    (hz' : Z[z']? = some (b', n')) (hp : b ≤ p ∧ p < b + n) (hp' : b' ≤ p ∧ p < b' + n') :
    z = z' ∧ b = b' ∧ n = n' := by
  have h1 := (h.zone z b n hz p hp.1 hp.2).1
  have h2 := (h.zone z' b' n' hz' p hp'.1 hp'.2).1
  have : z = z' := by rw [← h1, ← h2]
  subst this
  rw [hz] at hz'
  obtain ⟨rfl, rfl⟩ := Prod.mk.inj (Option.some.inj hz')
  exact ⟨rfl, rfl, rfl⟩

theorem Layout.of_pages (h : Layout Z g N s) {s' : Buddy} (hn : s'.npage = s.npage)
    (hzn : s'.zoneNum = s.zoneNum) (hzs : s'.zones = s.zones)
    (hin : ∀ p ∈ initPages Z, (s'.pages p).zoneNum = (s.pages p).zoneNum ∧
      (s'.pages p).flags.reserved = (s.pages p).flags.reserved)
    (hout : ∀ p, p ∉ initPages Z → s'.pages p = s.pages p) : Layout Z g N s' where
  npage := hn.trans h.npage
  zoneNum := hzn.trans h.zoneNum
  base := hzs ▸ h.base
  inside := h.inside
  zone := by
    intro z b n hz p hb hlt
    obtain ⟨h1, h2⟩ := hin p (mem_initPages.mpr ⟨z, b, n, hz, hb, hlt⟩)
    rw [h1, h2]
    exact h.zone z b n hz p hb hlt
  outside := fun p hp => (hout p hp).trans (h.outside p hp)

theorem Layout.idx2page (h : Layout Z g N s) {z b n : ℕ} (hz : Z[z]? = some (b, n)) (i : ℕ) :
    s.idx2page z i = b + i := by
  rw [Buddy.idx2page, h.base z b n hz]

theorem Layout.page2idx (h : Layout Z g N s) {z b n i : ℕ} (hz : Z[z]? = some (b, n))
    (hi : i < n) : s.page2idx (b + i) = i := by
  rw [Buddy.page2idx, (h.zone z b n hz (b + i) (by omega) (by omega)).1, h.base z b n hz]
  omega

theorem Inv.mem_freeBlocks (h : Inv Z g N s A) {z b n i k : ℕ} (hz : Z[z]? = some (b, n)) :
    (i, k) ∈ s.freeBlocks z ↔
      k ≤ MAX_ORDER ∧ i < n ∧ b + i ∈ (s.freeArea k).freeList := by
  have hidx := h.layout.idx2page hz i
  constructor
  · rintro ⟨hk, hl, hzn⟩
    simp only [hidx] at hl hzn
    obtain ⟨z', b', n', hz', hb', hn'⟩ := mem_initPages.mp (h.listed k _ hk hl)
    have hzz := (h.layout.zone z' b' n' hz' _ hb' hn').1
    rw [hzn] at hzz
    subst hzz
    rw [hz] at hz'
    obtain ⟨rfl, rfl⟩ := Prod.mk.inj (Option.some.inj hz')
    exact ⟨hk, by omega, hl⟩
  · rintro ⟨hk, hi, hl⟩
    refine ⟨hk, by simpa only [hidx] using hl, ?_⟩
    simp only [hidx]
    exact (h.layout.zone z b n hz (b + i) (by omega) (by omega)).1

theorem Inv.freeBlocks_of_ge (h : Inv Z g N s A) {z : ℕ} (hz : Z.length ≤ z) :
    s.freeBlocks z = ∅ := by
  rw [Set.eq_empty_iff_forall_notMem]
  rintro ⟨i, k⟩ ⟨hk, hl, hzn⟩
  obtain ⟨z', b', n', hz', hb', hn'⟩ := mem_initPages.mp (h.listed k _ hk hl)
  have hlt := (List.getElem?_eq_some_iff.mp hz').1
  rw [(h.layout.zone z' b' n' hz' _ hb' hn').1] at hzn
  omega

/-- The zone, the index and the extent of a block on a free list. -/
theorem Inv.block_of_listed (h : Inv Z g N s A) {k p : ℕ} (hk : k ≤ MAX_ORDER)
    (hp : p ∈ (s.freeArea k).freeList) :
    ∃ z b n i : ℕ, Z[z]? = some (b, n) ∧ p = b + i ∧ (i, k) ∈ s.freeBlocks z ∧ i + 2 ^ k ≤ n ∧
      2 ^ k ∣ i ∧ ∀ x ∈ block i k, b + x ∉ A := by
  obtain ⟨z, b, n, hz, hb, hn⟩ := mem_initPages.mp (h.listed k p hk hp)
  obtain ⟨i, rfl⟩ := Nat.exists_eq_add_of_le hb
  have hmem : (i, k) ∈ s.freeBlocks z := (h.mem_freeBlocks hz).mpr ⟨hk, by omega, hp⟩
  have hsub := (h.tile z b n hz).block_subset hmem
  have hpos := Nat.two_pow_pos k
  have hlast : i + 2 ^ k - 1 ∈ block i k := by simp only [mem_block]; omega
  have := (hsub hlast).1
  exact ⟨z, b, n, i, hz, rfl, hmem, by omega, (h.tile z b n hz).aligned _ hmem,
    fun x hx => (hsub hx).2⟩

theorem Inv.not_listed (h : Inv Z g N s A) {k p : ℕ} (hp : p ∈ A) (hk : k ≤ MAX_ORDER) :
    p ∉ (s.freeArea k).freeList := by
  intro hl
  obtain ⟨z, b, n, i, _, rfl, _, _, _, hA⟩ := h.block_of_listed hk hl
  exact hA i (start_mem_block i k) hp

theorem Inv.property_false (h : Inv Z g N s A) {p : ℕ} (hp : p ∈ A) :
    (s.pages p).flags.property = false := by
  by_contra hne
  obtain ⟨k, hk, hl⟩ := (h.flagged p (h.allocated hp)).mp (by simpa using hne)
  exact h.not_listed hp hk hl

theorem Inv.listed_unique (h : Inv Z g N s A) {k j p : ℕ} (hk : k ≤ MAX_ORDER)
    (hj : j ≤ MAX_ORDER) (hpk : p ∈ (s.freeArea k).freeList)
    (hpj : p ∈ (s.freeArea j).freeList) : k = j := by
  rw [← h.order k p hk hpk, ← h.order j p hj hpj]

/-! ## A block leaves its list -/

theorem Inv.freeBlocks_take (h : Inv Z g N s A) {z b n i k : ℕ} (hz : Z[z]? = some (b, n))
    (hi : (i, k) ∈ s.freeBlocks z) :
    (s.take k (b + i)).freeBlocks z = s.freeBlocks z \ {(i, k)} := by
  obtain ⟨hk, hin, hl⟩ := (h.mem_freeBlocks hz).mp hi
  ext ⟨j, m⟩
  have hidx := h.layout.idx2page hz j
  simp only [freeBlocks, Set.mem_ofPred_eq, Set.mem_sdiff, Set.mem_singleton_iff, idx2page_take,
    take_freeList, take_page_zoneNum, hidx, Prod.mk.injEq]
  constructor
  · rintro ⟨hm, hmem, hzn⟩
    refine ⟨⟨hm, List.mem_of_mem_erase hmem, hzn⟩, ?_⟩
    rintro ⟨rfl, rfl⟩
    exact (h.nodup m hm).not_mem_erase hmem
  · rintro ⟨⟨hm, hmem, hzn⟩, hne⟩
    refine ⟨hm, ?_, hzn⟩
    rw [(h.nodup m hm).mem_erase_iff]
    refine ⟨fun he => hne ?_, hmem⟩
    have hji : j = i := by omega
    subst hji
    exact ⟨rfl, h.listed_unique hm hk hmem hl⟩

theorem Inv.freeBlocks_take_other (h : Inv Z g N s A) {z z' b n b' n' i k : ℕ}
    (hz : Z[z]? = some (b, n)) (hz' : Z[z']? = some (b', n')) (hne : z' ≠ z) (hin : i < n) :
    (s.take k (b + i)).freeBlocks z' = s.freeBlocks z' := by
  ext ⟨j, m⟩
  have hidx := h.layout.idx2page hz' j
  simp only [freeBlocks, Set.mem_ofPred_eq, idx2page_take, take_freeList, take_page_zoneNum, hidx]
  have hpage : (s.pages (b' + j)).zoneNum = z' → b' + j ≠ b + i := by
    intro hzn he
    rw [he, (h.layout.zone z b n hz (b + i) (by omega) (by omega)).1] at hzn
    exact hne hzn.symm
  constructor
  · rintro ⟨hm, hmem, hzn⟩
    exact ⟨hm, List.mem_of_mem_erase hmem, hzn⟩
  · rintro ⟨hm, hmem, hzn⟩
    exact ⟨hm, (List.mem_erase_of_ne (hpage hzn)).mpr hmem, hzn⟩

/-- Pages of one zone are outside every other zone. -/
theorem Layout.not_mem_Ico (h : Layout Z g N s) {z z' b n b' n' i k x : ℕ}
    (hz : Z[z]? = some (b, n)) (hz' : Z[z']? = some (b', n')) (hne : z' ≠ z)
    (hik : i + 2 ^ k ≤ n) (hx : x < n') : b' + x ∉ Finset.Ico (b + i) (b + i + 2 ^ k) := by
  intro hmem
  rw [Finset.mem_Ico] at hmem
  exact hne (h.zone_unique hz' hz (p := b' + x) (by omega) (by omega)).1

theorem Inv.block_end (h : Inv Z g N s A) {z b n i k : ℕ} (hz : Z[z]? = some (b, n))
    (hi : (i, k) ∈ s.freeBlocks z) : i + 2 ^ k ≤ n := by
  have hpos := Nat.two_pow_pos k
  have hx : i + 2 ^ k - 1 ∈ block i k := by simp only [mem_block]; omega
  have := ((h.tile z b n hz).block_subset hi hx).1
  omega

theorem Inv.take (h : Inv Z g N s A) {z b n i k : ℕ} (hz : Z[z]? = some (b, n))
    (hi : (i, k) ∈ s.freeBlocks z) :
    Inv Z g N (s.take k (b + i)) (A ∪ Finset.Ico (b + i) (b + i + 2 ^ k)) := by
  obtain ⟨hk, hin, hl⟩ := (h.mem_freeBlocks hz).mp hi
  have hlast := h.block_end hz hi
  have hpos := Nat.two_pow_pos k
  have hdisj : Disjoint A (Finset.Ico (b + i) (b + i + 2 ^ k)) := by
    rw [Finset.disjoint_left]
    intro x hxA hx
    rw [Finset.mem_Ico] at hx
    obtain ⟨y, rfl⟩ := Nat.exists_eq_add_of_le (show b ≤ x by omega)
    have hy : y ∈ block i k := by simp only [mem_block]; omega
    exact ((h.tile z b n hz).block_subset hi hy).2 hxA
  refine
    { layout := h.layout.of_pages rfl rfl rfl ?_ ?_
      listed := ?_, nodup := ?_, nrFree := ?_, flagged := ?_, order := ?_, allocated := ?_
      tile := ?_, coalesced := ?_, count := ?_ }
  · intro p _
    rw [take_pages]
    split
    · rename_i he; subst he; exact ⟨rfl, rfl⟩
    · exact ⟨rfl, rfl⟩
  · intro p hp
    have hne : p ≠ b + i := by
      rintro rfl
      exact hp (mem_initPages.mpr ⟨z, b, n, hz, by omega, by omega⟩)
    rw [take_pages, if_neg hne]
  · intro j p hj hp
    rw [take_freeList] at hp
    exact h.listed j p hj (List.mem_of_mem_erase hp)
  · intro j hj
    rw [take_freeList]
    exact (h.nodup j hj).erase _
  · intro j hj
    rw [take_nrFree, take_freeList]
    split
    · rename_i he; subst he
      rw [List.length_erase_of_mem hl, h.nrFree j hj]
    · rename_i hne
      rw [List.erase_of_not_mem fun hm => hne (h.listed_unique hj hk hm hl), h.nrFree j hj]
  · intro p hp
    have hlist : (∃ j ≤ MAX_ORDER, p ∈ ((s.take k (b + i)).freeArea j).freeList) ↔
        p ≠ b + i ∧ ∃ j ≤ MAX_ORDER, p ∈ (s.freeArea j).freeList := by
      constructor
      · rintro ⟨j, hj, hm⟩
        rw [take_freeList, (h.nodup j hj).mem_erase_iff] at hm
        exact ⟨hm.1, j, hj, hm.2⟩
      · rintro ⟨hne, j, hj, hm⟩
        exact ⟨j, hj, by rw [take_freeList]; exact (List.mem_erase_of_ne hne).mpr hm⟩
    rw [hlist, take_pages]
    split
    · rename_i he; subst he; simp [Page.clearProperty]
    · rename_i hne; rw [h.flagged p hp]; simp [hne]
  · intro j p hj hp
    rw [take_freeList, (h.nodup j hj).mem_erase_iff] at hp
    rw [take_pages, if_neg hp.1]
    exact h.order j p hj hp.2
  · intro x hx
    rcases Finset.mem_union.mp hx with hx | hx
    · exact h.allocated hx
    · rw [Finset.mem_Ico] at hx
      exact mem_initPages.mpr ⟨z, b, n, hz, by omega, by omega⟩
  · intro z' b' n' hz'
    by_cases hzz : z' = z
    · subst hzz
      rw [hz] at hz'
      obtain ⟨rfl, rfl⟩ := Prod.mk.inj (Option.some.inj hz')
      rw [h.freeBlocks_take hz hi, freeSet_union]
      exact (h.tile z' b n hz).erase hi
    · rw [h.freeBlocks_take_other hz hz' hzz hin]
      have hU := freeSet_congr b' n' (A ∪ Finset.Ico (b + i) (b + i + 2 ^ k)) A
        fun x hx => by
          rw [Finset.mem_union, or_iff_left (h.layout.not_mem_Ico hz hz' hzz hlast hx)]
      rw [hU]
      exact h.tile z' b' n' hz'
  · intro z' hz'
    obtain ⟨⟨b', n'⟩, hget⟩ : ∃ y, Z[z']? = some y := ⟨_, List.getElem?_eq_getElem hz'⟩
    by_cases hzz : z' = z
    · subst hzz
      rw [h.freeBlocks_take hz hi]
      exact (h.coalesced z' hz').mono Set.sdiff_subset
    · rw [h.freeBlocks_take_other hz hget hzz hin]
      exact h.coalesced z' hz'
  · rw [Finset.card_union_of_disjoint hdisj, Nat.card_Ico, ← h.count,
      ← buddyNrFreePages_of_dec s (s.take k (b + i)) hk]
    · omega
    · rw [take_nrFree, if_pos rfl, h.nrFree k hk]
      have := List.length_pos_of_mem hl
      omega
    · intro j hj
      rw [take_nrFree, if_neg hj]

/-! ## Allocated pages become a free block -/

theorem Inv.freeBlocks_put (h : Inv Z g N s A) {z b n i k : ℕ} (hz : Z[z]? = some (b, n))
    (hk : k ≤ MAX_ORDER) (hin : i < n) :
    (s.listAddBlock k (b + i)).freeBlocks z = insert (i, k) (s.freeBlocks z) := by
  ext ⟨j, m⟩
  have hidx := h.layout.idx2page hz j
  simp only [freeBlocks, Set.mem_ofPred_eq, Set.mem_insert_iff, idx2page_listAddBlock,
    listAddBlock_freeList, listAddBlock_page_zoneNum, hidx, Prod.mk.injEq]
  constructor
  · rintro ⟨hm, hmem, hzn⟩
    split at hmem
    · rename_i he; subst he
      rcases List.mem_cons.mp hmem with he | hmem
      · exact Or.inl ⟨by omega, rfl⟩
      · exact Or.inr ⟨hm, hmem, hzn⟩
    · exact Or.inr ⟨hm, hmem, hzn⟩
  · rintro (⟨rfl, rfl⟩ | ⟨hm, hmem, hzn⟩)
    · exact ⟨hk, by simp, (h.layout.zone z b n hz (b + j) (by omega) (by omega)).1⟩
    · refine ⟨hm, ?_, hzn⟩
      split
      · rename_i he; subst he; exact List.mem_cons_of_mem _ hmem
      · exact hmem

theorem Inv.freeBlocks_put_other (h : Inv Z g N s A) {z z' b n b' n' i k : ℕ}
    (hz : Z[z]? = some (b, n)) (hz' : Z[z']? = some (b', n')) (hne : z' ≠ z) (hin : i < n) :
    (s.listAddBlock k (b + i)).freeBlocks z' = s.freeBlocks z' := by
  ext ⟨j, m⟩
  have hidx := h.layout.idx2page hz' j
  simp only [freeBlocks, Set.mem_ofPred_eq, idx2page_listAddBlock, listAddBlock_freeList,
    listAddBlock_page_zoneNum, hidx]
  constructor
  · rintro ⟨hm, hmem, hzn⟩
    refine ⟨hm, ?_, hzn⟩
    split at hmem
    · rename_i he; subst he
      rcases List.mem_cons.mp hmem with he | hmem
      · rw [he, (h.layout.zone z b n hz (b + i) (by omega) (by omega)).1] at hzn
        exact absurd hzn.symm hne
      · exact hmem
    · exact hmem
  · rintro ⟨hm, hmem, hzn⟩
    refine ⟨hm, ?_, hzn⟩
    split
    · rename_i he; subst he; exact List.mem_cons_of_mem _ hmem
    · exact hmem

theorem Inv.put (h : Inv Z g N s A) {z b n i k : ℕ} (hz : Z[z]? = some (b, n))
    (hk : k ≤ MAX_ORDER) (hd : 2 ^ k ∣ i) (hlast : i + 2 ^ k ≤ n)
    (hA : Finset.Ico (b + i) (b + i + 2 ^ k) ⊆ A)
    (hc : k < MAX_ORDER → (i ^^^ 2 ^ k, k) ∉ s.freeBlocks z) :
    Inv Z g N (s.listAddBlock k (b + i)) (A \ Finset.Ico (b + i) (b + i + 2 ^ k)) := by
  have hpos := Nat.two_pow_pos k
  have hin : i < n := by omega
  have hiA : b + i ∈ A := hA (by rw [Finset.mem_Ico]; omega)
  have hinit : b + i ∈ initPages Z := h.allocated hiA
  refine
    { layout := h.layout.of_pages rfl rfl rfl ?_ ?_
      listed := ?_, nodup := ?_, nrFree := ?_, flagged := ?_, order := ?_, allocated := ?_
      tile := ?_, coalesced := ?_, count := ?_ }
  · intro p _
    rw [listAddBlock_pages]
    split
    · rename_i he; subst he; exact ⟨rfl, rfl⟩
    · exact ⟨rfl, rfl⟩
  · intro p hp
    rw [listAddBlock_pages, if_neg (by rintro rfl; exact hp hinit)]
  · intro j p hj hp
    rw [listAddBlock_freeList] at hp
    split at hp
    · rename_i he; subst he
      rcases List.mem_cons.mp hp with rfl | hp
      · exact hinit
      · exact h.listed j p hj hp
    · exact h.listed j p hj hp
  · intro j hj
    rw [listAddBlock_freeList]
    split
    · exact List.nodup_cons.mpr ⟨h.not_listed hiA hk, h.nodup k hk⟩
    · exact h.nodup j hj
  · intro j hj
    rw [listAddBlock_nrFree, listAddBlock_freeList]
    split
    · rw [h.nrFree k hk, List.length_cons]
    · exact h.nrFree j hj
  · intro p hp
    have hlist : (∃ j ≤ MAX_ORDER, p ∈ ((s.listAddBlock k (b + i)).freeArea j).freeList) ↔
        p = b + i ∨ ∃ j ≤ MAX_ORDER, p ∈ (s.freeArea j).freeList := by
      constructor
      · rintro ⟨j, hj, hm⟩
        rw [listAddBlock_freeList] at hm
        split at hm
        · rcases List.mem_cons.mp hm with he | hm
          · exact Or.inl he
          · exact Or.inr ⟨k, hk, hm⟩
        · exact Or.inr ⟨j, hj, hm⟩
      · rintro (he | ⟨j, hj, hm⟩)
        · exact ⟨k, hk, by rw [listAddBlock_freeList, if_pos rfl, he]; simp⟩
        · refine ⟨j, hj, ?_⟩
          rw [listAddBlock_freeList]
          split
          · rename_i he; subst he; exact List.mem_cons_of_mem _ hm
          · exact hm
    rw [hlist, listAddBlock_pages]
    split
    · rename_i he; simp [Page.setProperty, he]
    · rename_i hne; rw [h.flagged p hp]; simp [hne]
  · intro j p hj hp
    rw [listAddBlock_freeList] at hp
    rw [listAddBlock_pages]
    split
    · rename_i hpe; subst hpe
      split at hp
      · rename_i he; subst he; rfl
      · exact absurd hp (h.not_listed hiA hj)
    · rename_i hpe
      split at hp
      · rename_i he; subst he
        exact h.order j p hj ((List.mem_cons.mp hp).resolve_left hpe)
      · exact h.order j p hj hp
  · exact fun x hx => h.allocated (Finset.mem_sdiff.mp hx).1
  · intro z' b' n' hz'
    by_cases hzz : z' = z
    · subst hzz
      rw [hz] at hz'
      obtain ⟨rfl, rfl⟩ := Prod.mk.inj (Option.some.inj hz')
      rw [h.freeBlocks_put hz hk hin, freeSet_sdiff A hlast]
      refine (h.tile z' b n hz).insert hk hd fun x hx hU => hU.2 (hA ?_)
      rw [mem_block] at hx
      rw [Finset.mem_Ico]
      omega
    · rw [h.freeBlocks_put_other hz hz' hzz hin]
      have hU := freeSet_congr b' n' (A \ Finset.Ico (b + i) (b + i + 2 ^ k)) A
        fun x hx => by
          rw [Finset.mem_sdiff, and_iff_left (h.layout.not_mem_Ico hz hz' hzz hlast hx)]
      rw [hU]
      exact h.tile z' b' n' hz'
  · intro z' hz'
    obtain ⟨⟨b', n'⟩, hget⟩ : ∃ y, Z[z']? = some y := ⟨_, List.getElem?_eq_getElem hz'⟩
    by_cases hzz : z' = z
    · subst hzz
      rw [h.freeBlocks_put hz hk hin]
      exact (h.coalesced z' hz').insert hc
    · rw [h.freeBlocks_put_other hz hget hzz hin]
      exact h.coalesced z' hz'
  · have hcard := Finset.card_sdiff_add_card_eq_card hA
    rw [Nat.card_Ico] at hcard
    rw [← h.count, ← buddyNrFreePages_of_dec (s.listAddBlock k (b + i)) s hk]
    · omega
    · rw [listAddBlock_nrFree, if_pos rfl]
    · intro j hj
      rw [listAddBlock_nrFree, if_neg hj]

end Inv

end Buddy

end Ucore
