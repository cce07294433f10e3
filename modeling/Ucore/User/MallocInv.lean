import Ucore.Lib.Blocks
import Ucore.Lib.SortedLoop
import Ucore.User.Malloc

/-!
# The user's heap: blocks and the free list

* `Tiled` — the blocks are disjoint, in memory that the heap has;
* `Ok` — the free list is a circular list in ascending order;
* `Ok.freeLocked_spec` — `free_locked` puts a block into the list, or merges it.
-/

namespace Ucore.Malloc

open SortedLoop (Path Loop Ascends Gap)

/-- The header at an address. -/
def Heap.hd (h : Heap) (a : ℕ) : Header := (h.mem a).getD ⟨0, 0, false⟩

def Heap.next (h : Heap) (a : ℕ) : ℕ := (h.hd a).ptr

/-- How many bytes a block has; `base` has its header only. -/
def Heap.len (h : Heap) (base a : ℕ) : ℕ := if a = base then HEADER else (h.hd a).size * HEADER

/-- The address is mapped, and is where the blocks of the type of the block at `a` are. -/
def Heap.Owned (h : Heap) (base a x : ℕ) : Prop :=
  h.mem x ≠ none ∧ if a = base ∨ (h.hd a).type = true then ∃ r ∈ h.kern.areas, r.1 ≤ x ∧ x < r.2
    else h.kern.brkStart ≤ x ∧ x < h.kern.brk

/-- What the kernel keeps to, with `base` in the image of the program. -/
structure Kernel.Ok (base : ℕ) (k : Kernel) : Prop where
  base_lt : base + HEADER ≤ k.brkStart
  start_le : k.brkStart ≤ k.brk
  aligned : k.brk % PGSIZE = 0
  top : k.brk ≤ USERTOP
  areas_top : ∀ r ∈ k.areas, r.2 ≤ USERTOP

/-- The blocks are those that begin in `S`. -/
structure Tiled (base : ℕ) (S : ℕ → Prop) (h : Heap) : Prop where
  base_mem : S base
  base_size : (h.hd base).size = 0
  base_type : (h.hd base).type = false
  blocks : Blocks.Disjoint S (h.len base)
  owned : ∀ a x, S a → a ≤ x → x < a + h.len base a → h.Owned base a x
  kern : h.kern.Ok base

/-- The free list has the blocks of `c`, and those of `live` are handed out. -/
structure Ok (base : ℕ) (c live : List ℕ) (h : Heap) : Prop where
  tiled : Tiled base (fun a => a ∈ c ∨ a ∈ live) h
  loop : Loop h.next c
  ascends : Ascends c
  base_mem : base ∈ c
  nodup : live.Nodup
  apart : ∀ a ∈ live, a ∉ c

variable {base a b p q bp fuel : ℕ} {S S' : ℕ → Prop} {c live : List ℕ} {h h' : Heap}

/-! ## Blocks -/

theorem Heap.len_base (h : Heap) (base : ℕ) : h.len base base = HEADER := if_pos rfl

theorem Heap.len_of_ne (h : Heap) (hne : a ≠ base) : h.len base a = (h.hd a).size * HEADER := if_neg hne

theorem Tiled.mem_ne_none (h : Tiled base S h') (ha : S a) : h'.mem a ≠ none := by
  have hpos := h.blocks.pos a ha
  exact (h.owned a a ha (Nat.le_refl a) (by omega)).1

theorem Tiled.mem_eq (h : Tiled base S h') (ha : S a) : h'.mem a = some (h'.hd a) := by
  unfold Heap.hd
  cases hm : h'.mem a with
  | none => exact absurd hm (h.mem_ne_none ha)
  | some x => rfl

/-- A block ends in user space. -/
theorem Tiled.end_le (h : Tiled base S h') (ha : S a) : a + h'.len base a ≤ USERTOP := by
  have hpos := h.blocks.pos a ha
  obtain ⟨-, hx⟩ := h.owned a (a + h'.len base a - 1) ha (by omega) (by omega)
  split at hx
  · obtain ⟨r, hr, -, hlt⟩ := hx
    have := h.kern.areas_top r hr
    omega
  · have := h.kern.top
    omega

theorem Tiled.size_le (h : Tiled base S h') (ha : S a) : a + (h'.hd a).size * HEADER ≤ USERTOP := by
  have hend := h.end_le ha
  by_cases hne : a = base
  · rw [hne, h.base_size, Nat.zero_mul]
    omega
  · rwa [h'.len_of_ne hne] at hend

/-- A block of memory that is not shared lies above `base`. -/
theorem Tiled.base_lt (h : Tiled base S h') (ha : S a) (hne : a ≠ base) (htype : (h'.hd a).type = false) :
    base < a := by
  have hpos := h.blocks.pos a ha
  obtain ⟨-, hx⟩ := h.owned a a ha (Nat.le_refl a) (by omega)
  rw [if_neg (by simp [hne, htype])] at hx
  have := h.kern.base_lt
  unfold HEADER at this
  omega

/-- Only the sizes and the types matter. -/
theorem Tiled.congr (h : Tiled base S h') {h₁ : Heap} (hS : ∀ a, S' a ↔ S a) (hkern : h₁.kern = h'.kern)
    (hmem : ∀ x, h'.mem x ≠ none → h₁.mem x ≠ none)
    (hsize : ∀ a, S a → (h₁.hd a).size = (h'.hd a).size ∧ (h₁.hd a).type = (h'.hd a).type) :
    Tiled base S' h₁ := by
  have hlen : ∀ a, S a → h₁.len base a = h'.len base a := fun a ha => by
    unfold Heap.len
    rw [(hsize a ha).1]
  refine ⟨(hS base).mpr h.base_mem, (hsize base h.base_mem).1.trans h.base_size,
    (hsize base h.base_mem).2.trans h.base_type,
    h.blocks.mono (fun a ha => (hS a).mp ha) fun a ha => hlen a ((hS a).mp ha), fun a x ha hax hxa => ?_,
    by rw [hkern]; exact h.kern⟩
  rw [hS] at ha
  rw [hlen a ha] at hxa
  obtain ⟨hm, hx⟩ := h.owned a x ha hax hxa
  refine ⟨hmem x hm, ?_⟩
  rw [(hsize a ha).2, hkern]
  exact hx

/-- The block at `b` goes to the one before it, which is of its type. -/
theorem Tiled.merge (h : Tiled base S h') (h₁ : Heap) (ha : S a) (hb : S b) (ha' : a ≠ base) (hb' : b ≠ base)
    (hab : a + (h'.hd a).size * HEADER = b) (htype : (h'.hd a).type = (h'.hd b).type)
    (hkern : h₁.kern = h'.kern) (hmem : ∀ x, h'.mem x ≠ none → h₁.mem x ≠ none)
    (hsize : (h₁.hd a).size = (h'.hd a).size + (h'.hd b).size)
    (htypes : ∀ x, S x → x ≠ b → (h₁.hd x).type = (h'.hd x).type)
    (hsizes : ∀ x, S x → x ≠ a → x ≠ b → (h₁.hd x).size = (h'.hd x).size) :
    Tiled base (fun x => S x ∧ x ≠ b) h₁ := by
  have hbase := hsizes base h.base_mem ha'.symm hb'.symm
  have hla : h₁.len base a = h'.len base a + h'.len base b := by
    rw [h₁.len_of_ne ha', h'.len_of_ne ha', h'.len_of_ne hb', hsize, Nat.add_mul]
  have hlen : ∀ x, S x → x ≠ a → x ≠ b → h₁.len base x = h'.len base x := fun x hx hxa hxb => by
    unfold Heap.len
    rw [hsizes x hx hxa hxb]
  have hab' : a + h'.len base a = b := by rw [h'.len_of_ne ha', hab]
  refine ⟨⟨h.base_mem, hb'.symm⟩, hbase.trans h.base_size,
    (htypes base h.base_mem hb'.symm).trans h.base_type, h.blocks.merge ha hb hab' hla hlen,
    fun x y hx hxy hyx => ?_, by rw [hkern]; exact h.kern⟩
  have howned : h'.Owned base x y := by
    by_cases hxa : x = a
    · subst hxa
      rw [hla] at hyx
      by_cases hlt : y < x + h'.len base x
      · exact h.owned x y ha hxy hlt
      · -- the address was in the other block
        have hy := h.owned b y hb (by omega) (by omega)
        unfold Heap.Owned at hy ⊢
        rw [← htype] at hy
        simpa only [ha', hb', false_or] using hy
    · rw [hlen x hx.1 hxa hx.2] at hyx
      exact h.owned x y hx.1 hxy hyx
  unfold Heap.Owned at howned ⊢
  rw [htypes x hx.1 hx.2, hkern]
  exact ⟨hmem y howned.1, howned.2⟩

/-! ## Writes -/

/-- A write of a whole header. -/
def Heap.put (h : Heap) (a : ℕ) (x : Header) : Heap := { h with mem := Function.update h.mem a (some x) }

theorem Heap.hd_eq {x : Header} (hx : h.mem a = some x) : h.hd a = x := by
  unfold Heap.hd
  rw [hx]
  rfl

@[simp] theorem Heap.put_mem_self (h : Heap) (a : ℕ) (x : Header) : (h.put a x).mem a = some x :=
  Function.update_self ..

theorem Heap.put_mem_of_ne (h : Heap) (x : Header) (hne : b ≠ a) : (h.put a x).mem b = h.mem b :=
  Function.update_of_ne hne ..

@[simp] theorem Heap.hd_put_self (h : Heap) (a : ℕ) (x : Header) : (h.put a x).hd a = x :=
  Heap.hd_eq (h.put_mem_self a x)

theorem Heap.hd_put_of_ne (h : Heap) (x : Header) (hne : b ≠ a) : (h.put a x).hd b = h.hd b := by
  unfold Heap.hd
  rw [h.put_mem_of_ne x hne]

theorem Heap.put_put (h : Heap) (a : ℕ) (x y : Header) : (h.put a x).put a y = h.put a y := by
  unfold Heap.put
  dsimp only
  rw [Function.update_idem]

theorem Heap.set_eq {x : Header} {f : Header → Header} (hx : h.mem a = some x) :
    h.set a f = some (h.put a (f x)) := by
  unfold Heap.set
  rw [hx]
  rfl

theorem Heap.put_ne_none (h : Heap) (a : ℕ) (x : Header) {y : ℕ} (hy : h.mem y ≠ none) :
    (h.put a x).mem y ≠ none := by
  by_cases hya : y = a
  · rw [hya, h.put_mem_self]
    nofun
  · rwa [h.put_mem_of_ne x hya]

/-! ## The gap -/

theorem findGap_spec (hloop : Loop h.next c) (hmem : ∀ x ∈ c, h.mem x ≠ none) (hp : p ∈ c)
    (hgap : h.findGap bp fuel p = some q) : q ∈ c ∧ Gap h.next q bp := by
  induction fuel generalizing p with
  | zero => cases hgap
  | succ fuel ih =>
    unfold Heap.findGap at hgap
    cases hm : h.mem p with
    | none => exact absurd hm (hmem p hp)
    | some x =>
      have hnext : h.next p = x.ptr := congrArg Header.ptr (Heap.hd_eq hm)
      rw [hm, Option.bind_eq_bind, Option.bind_some, ← hnext] at hgap
      split at hgap
      · rename_i hin
        cases hgap
        exact ⟨hp, .inl hin⟩
      · split at hgap
        · rename_i hin
          cases hgap
          exact ⟨hp, .inr hin⟩
        · exact ih (hloop.next_mem hp) hgap

/-! ## `free_locked` -/

/-- The block at `bp` takes in the one behind it. -/
def Heap.Absorbs (h : Heap) (bp q : ℕ) : Prop :=
  (h.hd bp).type = (h.hd (h.next q)).type ∧ bp + (h.hd bp).size * HEADER = h.next q

/-- The block at `q` takes in the one at `bp`. -/
def Heap.Merges (h : Heap) (bp q : ℕ) : Prop :=
  (h.hd q).type = (h.hd bp).type ∧ q + (h.hd q).size * HEADER = bp

instance (bp q : ℕ) : Decidable (h.Absorbs bp q) := inferInstanceAs (Decidable (_ ∧ _))

instance (bp q : ℕ) : Decidable (h.Merges bp q) := inferInstanceAs (Decidable (_ ∧ _))

/-- The header at `bp` behind `q`. -/
def Heap.behind (h : Heap) (bp q : ℕ) : Header :=
  if h.Absorbs bp q then
    { h.hd bp with size := (h.hd bp).size + (h.hd (h.next q)).size, ptr := h.next (h.next q) }
  else { h.hd bp with ptr := h.next q }

/-- The header at `q` after that. -/
def Heap.before (h : Heap) (bp q : ℕ) : Header :=
  if h.Merges bp q then
    { h.hd q with size := (h.hd q).size + (h.behind bp q).size, ptr := (h.behind bp q).ptr }
  else { h.hd q with ptr := bp }

theorem behind_size_le (h : Heap) (bp q : ℕ) :
    (h.behind bp q).size ≤ (h.hd bp).size + (h.hd (h.next q)).size := by
  unfold Heap.behind
  split
  · exact Nat.le_refl _
  · exact Nat.le_add_right ..

/-- What `free_locked` does. -/
theorem freeLocked_eq {f : ℕ} (ht : Tiled base S h) (hbp : S bp) (hq : S q) (hn : S (h.next q)) (hne : q ≠ bp)
    (hf : h.freep = some f) (hgap : h.findGap bp fuel f = some q) :
    h.freeLocked fuel bp =
      some { (h.put bp (h.behind bp q)).put q (h.before bp q) with freep := some q } := by
  have hle_bp := ht.size_le hbp
  have hle_q := ht.size_le hq
  have hle_n := ht.size_le hn
  have hbehind := behind_size_le h bp q
  have hnext : h.linkNext bp q = some (h.put bp (h.behind bp q)) := by
    unfold Heap.linkNext Heap.behind
    rw [ht.mem_eq hq, ht.mem_eq hbp]
    simp only [Option.bind_eq_bind, Option.bind_some]
    rw [show (h.hd q).ptr = h.next q from rfl, ht.mem_eq hn, Option.bind_some,
      Nat.mod_eq_of_lt (a := bp + _) (by unfold WORD USERTOP HEADER at *; omega)]
    by_cases habsorbs : h.Absorbs bp q
    · rw [if_pos habsorbs, if_pos (show _ ∧ _ from habsorbs), Heap.set_eq (ht.mem_eq hbp),
        Nat.mod_eq_of_lt (by unfold WORD USERTOP HEADER at *; omega)]
      rfl
    · rw [if_neg habsorbs, if_neg (show ¬ (_ ∧ _) from habsorbs)]
      exact Heap.set_eq (ht.mem_eq hbp)
  have hprev : (h.put bp (h.behind bp q)).linkPrev bp q =
      some ((h.put bp (h.behind bp q)).put q (h.before bp q)) := by
    have hmq : (h.put bp (h.behind bp q)).mem q = some (h.hd q) := by
      rw [h.put_mem_of_ne _ hne, ht.mem_eq hq]
    have htype : (h.behind bp q).type = (h.hd bp).type := by
      unfold Heap.behind
      split <;> rfl
    unfold Heap.linkPrev Heap.before
    rw [hmq, Heap.put_mem_self]
    simp only [Option.bind_eq_bind, Option.bind_some]
    rw [htype, Nat.mod_eq_of_lt (a := q + _) (by unfold WORD USERTOP HEADER at *; omega)]
    by_cases hmerges : h.Merges bp q
    · rw [if_pos hmerges, if_pos (show _ ∧ _ from hmerges), Heap.set_eq hmq,
        Nat.mod_eq_of_lt (by unfold WORD USERTOP HEADER at *; omega)]
    · rw [if_neg hmerges, if_neg (show ¬ (_ ∧ _) from hmerges)]
      exact Heap.set_eq hmq
  unfold Heap.freeLocked
  simp only [Option.bind_eq_bind, hf, Option.bind_some, hgap, hnext, hprev]
  rfl

/-- What `free_locked` has done with the block at `bp`, behind `q`. -/
structure Freed (h : Heap) (bp q : ℕ) (c : List ℕ) (h' : Heap) (c' : List ℕ) : Prop where
  freep : h'.freep = some q
  kern : h'.kern = h.kern
  frame : ∀ x, x ≠ q → x ≠ bp → h'.mem x = h.mem x
  gap : q ∈ c ∧ q ∈ c'
  sub : ∀ x ∈ c', x ∈ c ∨ x = bp
  kept : ∀ x ∈ c, x ∈ c' ∨ x = h.next q ∧ h.Absorbs bp q
  gone : h.Absorbs bp q → h.next q ∉ c'
  type : (h'.hd q).type = (h.hd q).type
  merged : h.Merges bp q → bp ∉ c' ∧ (h.hd bp).size ≤ (h'.hd q).size ∧
    h'.next q = if h.Absorbs bp q then h.next (h.next q) else h.next q
  inserted : ¬ h.Merges bp q → bp ∈ c' ∧ (h'.hd q).size = (h.hd q).size ∧ h'.next q = bp ∧
    (h.hd bp).size ≤ (h'.hd bp).size ∧ (h'.hd bp).type = (h.hd bp).type

theorem Ok.ne_base (h : Ok base c live h') (ha : a ∈ live) : a ≠ base :=
  fun heq => h.apart a ha (heq ▸ h.base_mem)

/-- The block behind a block that is handed out is not `base`. -/
theorem Ok.absorbs_ne_base (h : Ok base c live h') (hbp : bp ∈ live) (habsorbs : h'.Absorbs bp q) :
    h'.next q ≠ base := by
  intro heq
  obtain ⟨htype, hend⟩ := habsorbs
  rw [heq] at htype hend
  have hlt := h.tiled.base_lt (.inr hbp) (h.ne_base hbp) (htype.trans h.tiled.base_type)
  omega

theorem Ok.merges_ne_base (h : Ok base c live h') (hbp : bp ∈ live) (hmerges : h'.Merges bp q) : q ≠ base := by
  rintro rfl
  obtain ⟨-, hend⟩ := hmerges
  rw [h.tiled.base_size, Nat.zero_mul, Nat.add_zero] at hend
  exact h.ne_base hbp hend.symm

section Absorb

variable {m : List ℕ}

/-- The heap where the block at `bp` has its new header, and `q` is linked to what is behind it. -/
def Heap.absorbed (h : Heap) (bp q : ℕ) : Heap :=
  (h.put bp (h.behind bp q)).put q { h.hd q with ptr := (h.behind bp q).ptr }

theorem Heap.absorbed_hd_bp (h : Heap) (hne : q ≠ bp) : (h.absorbed bp q).hd bp = h.behind bp q := by
  unfold Heap.absorbed
  rw [Heap.hd_put_of_ne _ _ hne.symm, Heap.hd_put_self]

theorem Heap.absorbed_hd_q (h : Heap) : (h.absorbed bp q).hd q = { h.hd q with ptr := (h.behind bp q).ptr } :=
  Heap.hd_put_self ..

theorem Heap.absorbed_hd_of_ne (h : Heap) {x : ℕ} (hq : x ≠ q) (hbp : x ≠ bp) :
    (h.absorbed bp q).hd x = h.hd x := by
  unfold Heap.absorbed
  rw [Heap.hd_put_of_ne _ _ hq, Heap.hd_put_of_ne _ _ hbp]

theorem Heap.behind_type (h : Heap) (bp q : ℕ) : (h.behind bp q).type = (h.hd bp).type := by
  unfold Heap.behind
  split <;> rfl

theorem Heap.absorbed_type (h : Heap) (hne : q ≠ bp) (x : ℕ) :
    ((h.absorbed bp q).hd x).type = (h.hd x).type := by
  by_cases hq : x = q
  · rw [hq, h.absorbed_hd_q]
  · by_cases hbp : x = bp
    · rw [hbp, h.absorbed_hd_bp hne, h.behind_type]
    · rw [h.absorbed_hd_of_ne hq hbp]

theorem Heap.absorbed_size (h : Heap) {x : ℕ} (hbp : x ≠ bp) :
    ((h.absorbed bp q).hd x).size = (h.hd x).size := by
  by_cases hq : x = q
  · rw [hq, h.absorbed_hd_q]
  · rw [h.absorbed_hd_of_ne hq hbp]

theorem Heap.absorbed_ne_none (h : Heap) {x : ℕ} (hx : h.mem x ≠ none) : (h.absorbed bp q).mem x ≠ none :=
  Heap.put_ne_none _ _ _ (Heap.put_ne_none _ _ _ hx)

/-- The neighbour of the block goes into it, and the block has its place behind `q`. -/
theorem Ok.absorb (h : Ok base c (bp :: live) h') (hc : c ~r (q :: m)) (hgap : Gap h'.next q bp) :
    ∃ m', Ok base (q :: m') (bp :: live) (h'.absorbed bp q) ∧ Ascends (q :: bp :: m') ∧
      (∀ x ∈ m', x ∈ m) ∧ (∀ x ∈ m, x ∈ m' ∨ x = h'.next q ∧ h'.Absorbs bp q) ∧
      (h'.Absorbs bp q → h'.next q ∉ q :: bp :: m') := by
  have hloop := h.loop.isRotated hc
  have hasc := h.ascends.isRotated hc
  have hins := hasc.insert hloop hgap
  have hnodup := hasc.nodup
  have hmem : ∀ x, x ∈ c ↔ x = q ∨ x ∈ m := fun x => by rw [hc.mem_iff, List.mem_cons]
  have hbpc : bp ∉ c := h.apart bp List.mem_cons_self
  have hne : q ≠ bp := fun heq => hbpc (heq ▸ (hmem q).mpr (.inl rfl))
  have hm : ∀ x ∈ m, x ≠ q ∧ x ≠ bp := fun x hx =>
    ⟨fun heq => (List.nodup_cons.mp hnodup).1 (heq ▸ hx), fun heq => hbpc (heq ▸ (hmem x).mpr (.inr hx))⟩
  have hnext : ∀ x ∈ m, (h'.absorbed bp q).next x = h'.next x := fun x hx =>
    congrArg Header.ptr (h'.absorbed_hd_of_ne (hm x hx).1 (hm x hx).2)
  have hnextq : (h'.absorbed bp q).next q = (h'.behind bp q).ptr := by
    unfold Heap.next
    rw [h'.absorbed_hd_q]
  by_cases habsorbs : h'.Absorbs bp q
  · have hbehind : h'.behind bp q = { h'.hd bp with
        size := (h'.hd bp).size + (h'.hd (h'.next q)).size, ptr := h'.next (h'.next q) } := if_pos habsorbs
    have hnbase := h.absorbs_ne_base List.mem_cons_self habsorbs
    have hbpbase := h.ne_base (List.mem_cons_self (a := bp))
    cases m with
    | nil =>
      -- the list has only `base`
      have hq := (hmem base).mp h.base_mem
      rw [hloop.next_singleton] at hnbase
      exact absurd (hq.resolve_right nofun).symm hnbase
    | cons n m =>
      have hqn := hloop.next_cons
      rw [hqn] at hbehind hnbase
      have hnm : ∀ x ∈ m, x ≠ n := fun x hx heq =>
        (List.nodup_cons.mp (List.nodup_cons.mp hnodup).2).1 (heq ▸ hx)
      have hqn' : q ≠ n := (hm n List.mem_cons_self).1.symm
      have hnc : n ∈ c := (hmem n).mpr (.inr List.mem_cons_self)
      have hnlive : n ∉ bp :: live := fun hn => h.apart n hn hnc
      have htiled := h.tiled.merge (h'.absorbed bp q) (a := bp) (b := n) (.inr List.mem_cons_self)
        (.inl hnc) hbpbase hnbase (by rw [← hqn]; exact habsorbs.2) (by rw [← hqn]; exact habsorbs.1) rfl
        (fun x hx => h'.absorbed_ne_none hx) (by rw [h'.absorbed_hd_bp hne, hbehind])
        (fun x _ _ => h'.absorbed_type hne x) fun x _ hx _ => h'.absorbed_size hx
      refine ⟨m, ⟨htiled.congr (fun x => ?_) rfl (fun _ hx => hx) fun _ _ => ⟨rfl, rfl⟩,
        hloop.remove ?_ fun x hx => hnext x (List.mem_cons_of_mem n hx), hasc.remove, ?_, h.nodup,
        fun x hx hmem' => ?_⟩, ?_, fun x hx => List.mem_cons_of_mem n hx, fun x hx => ?_, fun _ hmem' => ?_⟩
      · constructor
        · rintro (hx | hx)
          · rcases List.mem_cons.mp hx with rfl | hx
            · exact ⟨.inl ((hmem x).mpr (.inl rfl)), hqn'⟩
            · exact ⟨.inl ((hmem x).mpr (.inr (List.mem_cons_of_mem n hx))), hnm x hx⟩
          · exact ⟨.inr hx, fun heq => hnlive (heq ▸ hx)⟩
        · rintro ⟨hx | hx, hxn⟩
          · exact .inl (List.mem_cons.mpr (((hmem x).mp hx).imp_right fun hx =>
              (List.mem_cons.mp hx).resolve_left hxn))
          · exact .inr hx
      · rw [hnextq, hbehind]
      · rcases (hmem base).mp h.base_mem with hb | hb
        · rw [hb]
          exact List.mem_cons_self
        · exact List.mem_cons_of_mem q ((List.mem_cons.mp hb).resolve_left hnbase.symm)
      · refine h.apart x hx ((hmem x).mpr ?_)
        exact (List.mem_cons.mp hmem').imp id (List.mem_cons_of_mem n)
      · have hback : Ascends (bp :: (m ++ [q])) :=
          (hins.isRotated (@List.isRotated_append _ [q] (bp :: n :: m))).remove
        exact hback.isRotated (@List.isRotated_append _ (bp :: m) [q])
      · rcases List.mem_cons.mp hx with rfl | hx
        · exact .inr ⟨hqn.symm, habsorbs⟩
        · exact .inl hx
      · rw [hqn] at hmem'
        rcases List.mem_cons.mp hmem' with hnq | hmem'
        · exact hqn' hnq.symm
        · rcases List.mem_cons.mp hmem' with hnbp | hmem'
          · exact hbpc (hnbp ▸ hnc)
          · exact hnm n hmem' rfl
  · have hbehind : h'.behind bp q = { h'.hd bp with ptr := h'.next q } := if_neg habsorbs
    have hsame : ∀ x, ((h'.absorbed bp q).hd x).size = (h'.hd x).size := fun x => by
      by_cases hx : x = bp
      · rw [hx, h'.absorbed_hd_bp hne, hbehind]
      · exact h'.absorbed_size hx
    refine ⟨m, ⟨h.tiled.congr (fun x => ?_) rfl (fun x hx => h'.absorbed_ne_none hx)
      fun x _ => ⟨hsame x, h'.absorbed_type hne x⟩, hloop.congr fun x hx => ?_, hasc,
      List.mem_cons.mpr ((hmem base).mp h.base_mem), h.nodup, fun x hx hmem' => ?_⟩, hins, fun x hx => hx,
      fun x hx => .inl hx, fun hyes => absurd hyes habsorbs⟩
    · rw [hmem, List.mem_cons (l := m)]
    · rcases List.mem_cons.mp hx with rfl | hx
      · rw [hnextq, hbehind]
      · exact hnext x hx
    · exact h.apart x hx ((hmem x).mpr (List.mem_cons.mp hmem'))

end Absorb

theorem Heap.le_behind_size (h : Heap) (bp q : ℕ) : (h.hd bp).size ≤ (h.behind bp q).size := by
  unfold Heap.behind
  split
  · exact Nat.le_add_right ..
  · exact Nat.le_refl _

theorem Heap.behind_ptr (h : Heap) (bp q : ℕ) :
    (h.behind bp q).ptr = if h.Absorbs bp q then h.next (h.next q) else h.next q := by
  unfold Heap.behind
  split <;> rfl

/-- The heap after `free_locked`. -/
def Heap.freed (h : Heap) (bp q : ℕ) : Heap :=
  { (h.absorbed bp q).put q (h.before bp q) with freep := some q }

theorem Heap.freed_hd_q (h : Heap) : (h.freed bp q).hd q = h.before bp q :=
  Heap.hd_eq ((h.absorbed bp q).put_mem_self q (h.before bp q))

theorem Heap.freed_hd_of_ne (h : Heap) {x : ℕ} (hq : x ≠ q) : (h.freed bp q).hd x = (h.absorbed bp q).hd x :=
  (h.absorbed bp q).hd_put_of_ne (h.before bp q) hq

theorem Heap.before_type (h : Heap) (bp q : ℕ) : (h.before bp q).type = (h.hd q).type := by
  unfold Heap.before
  split <;> rfl

theorem Heap.freed_type (h : Heap) (hne : q ≠ bp) (x : ℕ) : ((h.freed bp q).hd x).type = (h.hd x).type := by
  by_cases hq : x = q
  · rw [hq, h.freed_hd_q, h.before_type]
  · rw [h.freed_hd_of_ne hq, h.absorbed_type hne]

/-- The block at `bp` goes to the one at `q`. -/
theorem Ok.mergePrev {m : List ℕ} (h₁ : Ok base (q :: m) (bp :: live) (h.absorbed bp q)) (hne : q ≠ bp)
    (hmerges : h.Merges bp q) : Ok base (q :: m) live (h.freed bp q) := by
  have hbefore : h.before bp q =
      { h.hd q with size := (h.hd q).size + (h.behind bp q).size, ptr := (h.behind bp q).ptr } := if_pos hmerges
  have hqsize : ((h.absorbed bp q).hd q).size = (h.hd q).size := h.absorbed_size hne
  have hbplive : bp ∉ live := (List.nodup_cons.mp h₁.nodup).1
  have hbpc := h₁.apart bp List.mem_cons_self
  have hmerges₁ : (h.absorbed bp q).Merges bp q := by
    unfold Heap.Merges
    rw [h.absorbed_type hne, h.absorbed_type hne, hqsize]
    exact hmerges
  have htiled := h₁.tiled.merge (h.freed bp q) (.inl List.mem_cons_self) (.inr List.mem_cons_self)
    (h₁.merges_ne_base List.mem_cons_self hmerges₁) (h₁.ne_base List.mem_cons_self) hmerges₁.2 hmerges₁.1 rfl
    (fun x hx => Heap.put_ne_none _ q _ hx)
    (by rw [h.freed_hd_q, hbefore, hqsize, h.absorbed_hd_bp hne])
    (fun x _ _ => by rw [h.freed_type hne, h.absorbed_type hne]) fun x _ hx _ => by rw [h.freed_hd_of_ne hx]
  refine ⟨htiled.congr (fun x => ?_) rfl (fun _ hx => hx) fun _ _ => ⟨rfl, rfl⟩,
    h₁.loop.congr fun x hx => ?_, h₁.ascends, h₁.base_mem, (List.nodup_cons.mp h₁.nodup).2,
    fun x hx => h₁.apart x (List.mem_cons_of_mem bp hx)⟩
  · constructor
    · rintro (hx | hx)
      · exact ⟨.inl hx, fun heq => hbpc (heq ▸ hx)⟩
      · exact ⟨.inr (List.mem_cons_of_mem bp hx), fun heq => hbplive (heq ▸ hx)⟩
    · rintro ⟨hx | hx, hxbp⟩
      · exact .inl hx
      · exact .inr ((List.mem_cons.mp hx).resolve_left hxbp)
  · unfold Heap.next
    by_cases hxq : x = q
    · rw [hxq, h.freed_hd_q, hbefore, h.absorbed_hd_q]
    · rw [h.freed_hd_of_ne hxq]

/-- The block at `bp` goes into the list. -/
theorem Ok.insertBlock {m : List ℕ} (h₁ : Ok base (q :: m) (bp :: live) (h.absorbed bp q)) (hne : q ≠ bp)
    (hasc : Ascends (q :: bp :: m)) (hmerges : ¬ h.Merges bp q) :
    Ok base (q :: bp :: m) live (h.freed bp q) := by
  have hbefore : h.before bp q = { h.hd q with ptr := bp } := if_neg hmerges
  have hbplive : bp ∉ live := (List.nodup_cons.mp h₁.nodup).1
  have hbpc := h₁.apart bp List.mem_cons_self
  have hqm := (List.nodup_cons.mp h₁.ascends.nodup).1
  refine ⟨h₁.tiled.congr (fun x => ?_) rfl (fun x hx => Heap.put_ne_none _ q _ hx) fun x _ => ⟨?_, ?_⟩,
    h₁.loop.insert ?_ ?_ fun x hx => ?_, hasc, ?_, (List.nodup_cons.mp h₁.nodup).2, fun x hx hmem => ?_⟩
  · simp only [List.mem_cons]
    tauto
  · by_cases hxq : x = q
    · rw [hxq, h.freed_hd_q, hbefore, h.absorbed_size hne]
    · rw [h.freed_hd_of_ne hxq]
  · rw [h.freed_type hne, h.absorbed_type hne]
  · unfold Heap.next
    rw [h.freed_hd_q, hbefore]
  · unfold Heap.next
    rw [h.freed_hd_of_ne hne.symm, h.absorbed_hd_bp hne, h.absorbed_hd_q]
  · unfold Heap.next
    have hxq : x ≠ q := fun heq => hqm (heq ▸ hx)
    rw [h.freed_hd_of_ne hxq]
  · rcases List.mem_cons.mp h₁.base_mem with hb | hb
    · rw [hb]
      exact List.mem_cons_self
    · exact List.mem_cons_of_mem q (List.mem_cons_of_mem bp hb)
  · rcases List.mem_cons.mp hmem with hxq | hmem
    · exact h₁.apart x (List.mem_cons_of_mem bp hx) (hxq ▸ List.mem_cons_self)
    · rcases List.mem_cons.mp hmem with hxbp | hmem
      · exact hbplive (hxbp ▸ hx)
      · exact h₁.apart x (List.mem_cons_of_mem bp hx) (List.mem_cons_of_mem q hmem)

/-- **`free_locked`** puts a block into the free list. -/
theorem Ok.freeLocked_spec {f : ℕ} (h : Ok base c (bp :: live) h') (hf : h'.freep = some f) (hfc : f ∈ c)
    (hgap : h'.findGap bp fuel f = some q) :
    ∃ c', h'.freeLocked fuel bp = some (h'.freed bp q) ∧ Ok base c' live (h'.freed bp q) ∧
      Freed h' bp q c (h'.freed bp q) c' := by
  obtain ⟨hqc, hplace⟩ := findGap_spec h.loop (fun x hx => h.tiled.mem_ne_none (.inl hx)) hfc hgap
  obtain ⟨u, v, -, hc⟩ := SortedLoop.isRotated_cons_of_mem hqc
  obtain ⟨m, h₁, hasc, hsub, hkept, hgone⟩ := h.absorb hc hplace
  have hbpc : bp ∉ c := h.apart bp List.mem_cons_self
  have hne : q ≠ bp := fun heq => hbpc (heq ▸ hqc)
  have hrun := freeLocked_eq h.tiled (.inr List.mem_cons_self) (.inl hqc) (.inl (h.loop.next_mem hqc)) hne hf hgap
  have hheap : { (h'.put bp (h'.behind bp q)).put q (h'.before bp q) with freep := some q } = h'.freed bp q := by
    unfold Heap.freed Heap.absorbed
    rw [Heap.put_put]
  rw [hheap] at hrun
  have hframe : ∀ x, x ≠ q → x ≠ bp → (h'.freed bp q).mem x = h'.mem x := fun x hxq hxbp => by
    rw [← hheap]
    exact (Heap.put_mem_of_ne _ _ hxq).trans (Heap.put_mem_of_ne _ _ hxbp)
  have hsubc : ∀ x ∈ m, x ∈ c := fun x hx => hc.mem_iff.mpr (List.mem_cons_of_mem q (hsub x hx))
  have hkeptc : ∀ x ∈ c, x = q ∨ x ∈ m ∨ x = h'.next q ∧ h'.Absorbs bp q := fun x hx =>
    (List.mem_cons.mp (hc.mem_iff.mp hx)).imp_right (hkept x)
  have hbm : bp ∉ q :: m := h₁.apart bp List.mem_cons_self
  by_cases hmerges : h'.Merges bp q
  · refine ⟨q :: m, hrun, h₁.mergePrev hne hmerges, ⟨rfl, rfl, hframe, ⟨hqc, List.mem_cons_self⟩,
      fun x hx => ?_, fun x hx => ?_, fun hyes hmem => ?_, h'.freed_type hne q, fun _ => ⟨hbm, ?_, ?_⟩,
      fun hno => absurd hmerges hno⟩⟩
    · rcases List.mem_cons.mp hx with rfl | hx
      · exact .inl hqc
      · exact .inl (hsubc x hx)
    · rcases hkeptc x hx with rfl | hx | hx
      · exact .inl List.mem_cons_self
      · exact .inl (List.mem_cons_of_mem q hx)
      · exact .inr hx
    · refine hgone hyes ?_
      rcases List.mem_cons.mp hmem with hmem | hmem
      · rw [hmem]
        exact List.mem_cons_self
      · exact List.mem_cons_of_mem q (List.mem_cons_of_mem bp hmem)
    · rw [h'.freed_hd_q, show h'.before bp q = _ from if_pos hmerges]
      exact (h'.le_behind_size bp q).trans (Nat.le_add_left ..)
    · unfold Heap.next
      rw [h'.freed_hd_q, show h'.before bp q = _ from if_pos hmerges]
      exact h'.behind_ptr bp q
  · refine ⟨q :: bp :: m, hrun, h₁.insertBlock hne hasc hmerges, ⟨rfl, rfl, hframe,
      ⟨hqc, List.mem_cons_self⟩, fun x hx => ?_, fun x hx => ?_, hgone, h'.freed_type hne q,
      fun hyes => absurd hyes hmerges, fun _ => ⟨by simp, ?_, ?_, ?_, h'.freed_type hne bp⟩⟩⟩
    · rcases List.mem_cons.mp hx with rfl | hx
      · exact .inl hqc
      · exact (List.mem_cons.mp hx).symm.imp_left (hsubc x)
    · rcases hkeptc x hx with rfl | hx | hx
      · exact .inl List.mem_cons_self
      · exact .inl (List.mem_cons_of_mem q (List.mem_cons_of_mem bp hx))
      · exact .inr hx
    · rw [h'.freed_hd_q, show h'.before bp q = _ from if_neg hmerges]
    · unfold Heap.next
      rw [h'.freed_hd_q, show h'.before bp q = _ from if_neg hmerges]
    · rw [h'.freed_hd_of_ne hne.symm, h'.absorbed_hd_bp hne]
      exact h'.le_behind_size bp q

end Ucore.Malloc
