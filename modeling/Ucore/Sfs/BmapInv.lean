import Mathlib.Tactic.IntervalCases
import Ucore.Lib.Count
import Ucore.Sfs.Bmap

/-!
# Ownership of blocks by an inode

`roleAt` reads off the disk and the disk inode which block an inode has in which role: leaf `i` of the
file, the indirect block, the double-indirect block, or a middle block below it.

* `Vol.Ok` — the bitmap and the count of unused blocks agree.
* `Own R` — the blocks of the inode are different from each other and from the blocks `R` of everybody
  else, and together they are the blocks in use.
* `Own.attach`, `Own.detach` — one block enters or leaves a role.
-/

namespace Ucore.Sfs

open Bytes Occurrence

/-! ## The bitmap -/

structure Vol.Ok (v : Vol) : Prop where
  free : ∀ b, v.freemap b = true → b ≠ 0 ∧ b < v.blocks
  count : v.unused = occ v.freemap (· = true)

theorem Vol.Ok.finite {v : Vol} (h : v.Ok) : {b | v.freemap b = true}.Finite :=
  (Set.finite_lt_nat v.blocks).subset fun b hb => (h.free b hb).2

theorem firstSet_some {map : ℕ → Bool} : ∀ {n i b : ℕ}, firstSet map i n = some b → map b = true := by
  intro n
  induction n with
  | zero => exact fun h => nomatch h
  | succ n ih =>
    intro i b h
    unfold firstSet at h
    split at h
    · rename_i hi
      cases h
      exact hi
    · exact ih h

theorem firstSet_none {map : ℕ → Bool} : ∀ {n i : ℕ}, firstSet map i n = none →
    ∀ b, i ≤ b → b < i + n → map b = false := by
  intro n
  induction n with
  | zero => exact fun _ b h h' => absurd h' (by omega)
  | succ n ih =>
    intro i h b hb hlt
    unfold firstSet at h
    split at h
    · cases h
    · rename_i hi
      by_cases hbi : b = i
      · rw [hbi]
        exact Bool.eq_false_iff.mpr hi
      · exact ih h b (by omega) (by omega)

theorem le_roundupDiv_mul (a : ℕ) {n : ℕ} (hn : 0 < n) : a ≤ roundupDiv a n * n := by
  have hmod := Nat.mod_lt (a + n - 1) hn
  have hdiv := Nat.div_add_mod (a + n - 1) n
  unfold roundupDiv
  rw [Nat.mul_comm]
  omega

theorem Vol.blocks_le_freemapBits (v : Vol) : v.blocks ≤ v.freemapBits := by
  unfold Vol.freemapBits
  exact le_roundupDiv_mul v.blocks (Nat.succ_pos 32767)

/-- What `sfs_block_alloc` does once it has found block `b`. -/
def Vol.take (v : Vol) (b : ℕ) : Vol :=
  { v with
    freemap := Function.update v.freemap b false
    unused := v.unused - 1
    superDirty := true
    disk := Function.update v.disk b fun _ => 0 }

/-- What `sfs_block_free` does. -/
def Vol.give (v : Vol) (b : ℕ) : Vol :=
  { v with
    freemap := Function.update v.freemap b true
    unused := v.unused + 1
    superDirty := true }

/-- A word of a block is overwritten. -/
def Vol.setWord (v : Vol) (b i w : ℕ) : Vol :=
  { v with disk := Function.update v.disk b (splice (v.disk b) (4 * i) 4 (ofWords fun _ => w)) }

theorem Vol.Ok.unused_pos {v : Vol} (h : v.Ok) {b : ℕ} (hb : v.freemap b = true) : 0 < v.unused := by
  rw [h.count]
  exact Nat.pos_of_ne_zero (occ_ne_zero h.finite hb)

theorem Vol.Ok.take {v : Vol} (h : v.Ok) {b : ℕ} (hb : v.freemap b = true) : (v.take b).Ok := by
  refine ⟨fun c hc => ?_, ?_⟩
  · by_cases hcb : c = b
    · rw [hcb]
      exact h.free b hb
    · exact h.free c (by simpa [Vol.take, Function.update_of_ne hcb] using hc)
  · have heq := occ_update (P := (· = true)) b false h.finite
    simp only [hb, if_true, Bool.false_eq_true, if_false] at heq
    have hcount := h.count
    show v.unused - 1 = occ (Function.update v.freemap b false) (· = true)
    omega

theorem Vol.Ok.give {v : Vol} (h : v.Ok) {b : ℕ} (hb : v.freemap b = false) (h0 : b ≠ 0)
    (hlt : b < v.blocks) : (v.give b).Ok := by
  refine ⟨fun c hc => ?_, ?_⟩
  · by_cases hcb : c = b
    · rw [hcb]
      exact ⟨h0, hlt⟩
    · exact h.free c (by simpa [Vol.give, Function.update_of_ne hcb] using hc)
  · have heq := occ_update (P := (· = true)) b true h.finite
    simp only [hb, if_true, Bool.false_eq_true, if_false] at heq
    have hcount := h.count
    show v.unused + 1 = occ (Function.update v.freemap b true) (· = true)
    omega

theorem Vol.Ok.setWord {v : Vol} (h : v.Ok) (b i w : ℕ) : (v.setWord b i w).Ok := ⟨h.free, h.count⟩

theorem assertInuse_eq {v : Vol} {b : ℕ} (h0 : b ≠ 0) (hlt : b < v.blocks)
    (hb : v.freemap b = false) : assertInuse b v = some (.ok (), v) := if_pos ⟨h0, hlt, hb⟩

/-- `sfs_block_alloc` takes a free block and clears it, or finds none. -/
theorem blockAlloc_spec {v : Vol} (h : v.Ok) : Op.wp blockAlloc (fun r v' =>
    (∃ b, r = .ok b ∧ v.freemap b = true ∧ v' = v.take b) ∨
    (r = .error .noMem ∧ (∀ b, v.freemap b = false) ∧ v' = v)) v := by
  unfold blockAlloc bitmapAlloc
  rw [Op.wp_bind, Op.wp_bind_gets]
  generalize hs : firstSet v.freemap 0 v.freemapBits = r
  cases r with
  | none =>
    refine .inr ⟨rfl, fun b => ?_, rfl⟩
    by_cases hb : b < v.blocks
    · exact firstSet_none hs b (Nat.zero_le b) (by have := v.blocks_le_freemapBits; omega)
    · exact Bool.eq_false_iff.mpr fun hf => hb (h.free b hf).2
  | some b =>
    have hb := firstSet_some hs
    obtain ⟨h0, hlt⟩ := h.free b hb
    have hclear : clearBlock b ⟨v.blocks, v.unused - 1, true, Function.update v.freemap b false,
        v.disk⟩ = some (.ok (), v.take b) := if_pos ⟨h0, hlt⟩
    unfold bitmapFound
    rw [Op.wp_bind_modify, Op.wp_pure]
    dsimp only
    rw [Op.wp_bind_gets, Op.wp_bind_assert]
    refine ⟨h.unused_pos hb, ?_⟩
    have hinuse : assertInuse b ⟨v.blocks, v.unused - 1, true, Function.update v.freemap b false,
        v.disk⟩ = some (.ok (), _) := assertInuse_eq h0 hlt (Function.update_self ..)
    rw [Op.wp_bind_modify, Op.wp_bind_of_ok hinuse, Op.wp_bind_of_ok hclear]
    exact .inl ⟨b, rfl, hb, rfl⟩

theorem blockFree_spec {v : Vol} {b : ℕ} (hb : v.freemap b = false) (h0 : b ≠ 0)
    (hlt : b < v.blocks) : blockFree b v = some (.ok (), v.give b) := by
  have hfree : bitmapFree b v =
      some (.ok (), { v with freemap := Function.update v.freemap b true }) :=
    if_pos ⟨Nat.lt_of_lt_of_le hlt v.blocks_le_freemapBits, hb⟩
  unfold blockFree
  rw [Op.bind_of_ok (assertInuse_eq h0 hlt hb), Op.bind_of_ok hfree]
  rfl

/-! ## Roles -/

/-- What an inode can have a block for. -/
inductive Role where
  | leaf (i : ℕ)
  | ind
  | dbl
  | mid (j : ℕ)
  deriving DecidableEq, Repr

/-- The number of blocks that a block map can hold. -/
def NLEAF : ℕ := 12 + 1024 + 1024 * 1024

/-- Entry `k` of the index block `b`, if there is one. -/
def entryAt (disk : ℕ → Block) (b k : ℕ) : ℕ := if b = 0 then 0 else word (disk b) k

/-- The block that an inode has in a role, 0 if it has none. -/
def roleAt (disk : ℕ → Block) (d : DiskInode) : Role → ℕ
  | .ind => d.indirect
  | .dbl => d.dbIndirect
  | .mid j => if j < 1024 then entryAt disk d.dbIndirect j else 0
  | .leaf i =>
    if i < 12 then d.direct i
    else if i < 1036 then entryAt disk d.indirect (i - 12)
    else if i < NLEAF then
      entryAt disk (entryAt disk d.dbIndirect ((i - 1036) / 1024)) ((i - 1036) % 1024)
    else 0

section Roles

variable {disk disk' : ℕ → Block} {d : DiskInode}

theorem entryAt_zero (k : ℕ) : entryAt disk 0 k = 0 := if_pos rfl

theorem entryAt_clear {b : ℕ} (h : disk b = fun _ => 0) (k : ℕ) : entryAt disk b k = 0 := by
  unfold entryAt
  split
  · rfl
  · rw [h, word_zero]

theorem entryAt_congr {b : ℕ} (h : b ≠ 0 → disk' b = disk b) (k : ℕ) :
    entryAt disk' b k = entryAt disk b k := by
  unfold entryAt
  split
  · rfl
  · rename_i hb
    rw [h hb]

theorem roleAt_direct {i : ℕ} (hi : i < 12) : roleAt disk d (.leaf i) = d.direct i := if_pos hi

theorem roleAt_indirect {k : ℕ} (hk : k < 1024) :
    roleAt disk d (.leaf (12 + k)) = entryAt disk d.indirect k := by
  show ite _ _ _ = _
  rw [if_neg (by omega), if_pos (by omega), Nat.add_sub_cancel_left]

theorem roleAt_mid {j : ℕ} (hj : j < 1024) :
    roleAt disk d (.mid j) = entryAt disk d.dbIndirect j := if_pos hj

theorem roleAt_double {j k : ℕ} (hj : j < 1024) (hk : k < 1024) :
    roleAt disk d (.leaf (1036 + (1024 * j + k))) = entryAt disk (roleAt disk d (.mid j)) k := by
  rw [roleAt_mid hj]
  show ite _ _ _ = _
  rw [if_neg (by omega), if_neg (by omega), if_pos (by unfold NLEAF; omega)]
  rw [show (1036 + (1024 * j + k) - 1036) / 1024 = j by omega,
    show (1036 + (1024 * j + k) - 1036) % 1024 = k by omega]

/-- The four places a leaf can be in. -/
theorem leaf_cases (i : ℕ) : i < 12 ∨ (∃ k, k < 1024 ∧ i = 12 + k) ∨
    (∃ j k, j < 1024 ∧ k < 1024 ∧ i = 1036 + (1024 * j + k)) ∨ NLEAF ≤ i := by
  by_cases h1 : i < 12
  · exact .inl h1
  by_cases h2 : i < 1036
  · exact .inr (.inl ⟨i - 12, by omega, by omega⟩)
  by_cases h3 : i < NLEAF
  · unfold NLEAF at h3
    exact .inr (.inr (.inl ⟨(i - 1036) / 1024, (i - 1036) % 1024, by omega, by omega, by omega⟩))
  · exact .inr (.inr (.inr (Nat.not_lt.mp h3)))

theorem roleAt_beyond {i : ℕ} (hi : NLEAF ≤ i) : roleAt disk d (.leaf i) = 0 := by
  have h : 1036 ≤ NLEAF := by unfold NLEAF; omega
  show ite _ _ _ = _
  rw [if_neg (by omega), if_neg (by omega), if_neg (by omega)]

theorem roleAt_mid_beyond {j : ℕ} (hj : 1024 ≤ j) : roleAt disk d (.mid j) = 0 := if_neg (by omega)

/-- An inode without entries. -/
theorem roleAt_empty (hdirect : ∀ i, d.direct i = 0) (hind : d.indirect = 0) (hdbl : d.dbIndirect = 0)
    (r : Role) : roleAt disk d r = 0 := by
  have hmid : ∀ j, roleAt disk d (.mid j) = 0 := by
    intro j
    show ite _ _ _ = _
    rw [hdbl, entryAt_zero]
    split <;> rfl
  cases r with
  | ind => exact hind
  | dbl => exact hdbl
  | mid j => exact hmid j
  | leaf i =>
    rcases leaf_cases i with hi | ⟨k, hk, rfl⟩ | ⟨j, k, hj, hk, rfl⟩ | hi
    · rw [roleAt_direct hi]
      exact hdirect i
    · rw [roleAt_indirect hk, hind, entryAt_zero]
    · rw [roleAt_double hj hk, hmid, entryAt_zero]
    · exact roleAt_beyond hi

/-- Two disks that agree on the index blocks. -/
theorem roleAt_congr (hind : d.indirect ≠ 0 → disk' d.indirect = disk d.indirect)
    (hdbl : d.dbIndirect ≠ 0 → disk' d.dbIndirect = disk d.dbIndirect)
    (hmid : ∀ j, roleAt disk d (.mid j) ≠ 0 →
      disk' (roleAt disk d (.mid j)) = disk (roleAt disk d (.mid j))) :
    roleAt disk' d = roleAt disk d := by
  have hm : ∀ j, roleAt disk' d (.mid j) = roleAt disk d (.mid j) := by
    intro j
    by_cases hj : j < 1024
    · rw [roleAt_mid hj, roleAt_mid hj]
      exact entryAt_congr hdbl j
    · rw [roleAt_mid_beyond (by omega), roleAt_mid_beyond (by omega)]
  funext r
  cases r with
  | ind => rfl
  | dbl => rfl
  | mid j => exact hm j
  | leaf i =>
    rcases leaf_cases i with hi | ⟨k, hk, rfl⟩ | ⟨j, k, hj, hk, rfl⟩ | hi
    · rw [roleAt_direct hi, roleAt_direct hi]
    · rw [roleAt_indirect hk, roleAt_indirect hk]
      exact entryAt_congr hind k
    · rw [roleAt_double hj hk, roleAt_double hj hk, hm j]
      exact entryAt_congr (hmid j) k
    · rw [roleAt_beyond hi, roleAt_beyond hi]

end Roles

/-- The inode's blocks are distinct, are not among the blocks `R` of others, and together with these
they are what is in use. -/
structure Own (R : ℕ → Prop) (v : Vol) (d : DiskInode) : Prop where
  vol : v.Ok
  small : v.blocks ≤ 2 ^ 32
  zero : R 0
  inj : ∀ r r', roleAt v.disk d r ≠ 0 → roleAt v.disk d r = roleAt v.disk d r' → r = r'
  apart : ∀ r, roleAt v.disk d r ≠ 0 → ¬ R (roleAt v.disk d r)
  inside : ∀ r, roleAt v.disk d r ≠ 0 → roleAt v.disk d r < v.blocks
  used : ∀ b, b < v.blocks →
    (v.freemap b = false ↔ R b ∨ ∃ r, roleAt v.disk d r ≠ 0 ∧ roleAt v.disk d r = b)

namespace Own

variable {R : ℕ → Prop} {v v' : Vol} {d d' : DiskInode} {b : ℕ} {r : Role}

theorem inuse (h : Own R v d) (hr : roleAt v.disk d r ≠ 0) :
    v.freemap (roleAt v.disk d r) = false :=
  (h.used _ (h.inside r hr)).mpr (.inr ⟨r, hr, rfl⟩)

theorem ne_free (h : Own R v d) (hb : v.freemap b = true) : roleAt v.disk d r ≠ b := by
  intro he
  have h0 := (h.vol.free b hb).1
  have := h.inuse (r := r) (by rw [he]; exact h0)
  rw [he, hb] at this
  cases this

theorem free_not_rest (h : Own R v d) (hb : v.freemap b = true) : ¬ R b := by
  intro hR
  have := (h.used b (h.vol.free b hb).2).mpr (.inl hR)
  rw [hb] at this
  cases this

/-- A free block enters a role that was empty. -/
theorem attach (h : Own R v d) (hb : v.freemap b = true) (hr : roleAt v.disk d r = 0)
    (hvol : v'.Ok) (hblocks : v'.blocks = v.blocks)
    (hmap : v'.freemap = Function.update v.freemap b false)
    (hrole : ∀ r', roleAt v'.disk d' r' = if r' = r then b else roleAt v.disk d r') :
    Own R v' d' := by
  obtain ⟨h0, hlt⟩ := h.vol.free b hb
  refine ⟨hvol, hblocks ▸ h.small, h.zero, fun r₁ r₂ hne heq => ?_, fun r₁ hne => ?_,
    fun r₁ hne => ?_, fun c hc => ?_⟩
  · rw [hrole, hrole] at heq
    rw [hrole] at hne
    by_cases h₁ : r₁ = r <;> by_cases h₂ : r₂ = r
    · rw [h₁, h₂]
    · rw [if_pos h₁, if_neg h₂] at heq
      exact absurd heq.symm (h.ne_free hb)
    · rw [if_neg h₁, if_pos h₂] at heq
      exact absurd heq (h.ne_free hb)
    · rw [if_neg h₁] at hne
      rw [if_neg h₁, if_neg h₂] at heq
      exact h.inj r₁ r₂ hne heq
  · rw [hrole] at hne ⊢
    by_cases h₁ : r₁ = r
    · rw [if_pos h₁]
      exact h.free_not_rest hb
    · rw [if_neg h₁] at hne ⊢
      exact h.apart r₁ hne
  · rw [hrole] at hne ⊢
    rw [hblocks]
    by_cases h₁ : r₁ = r
    · rw [if_pos h₁]
      exact hlt
    · rw [if_neg h₁] at hne ⊢
      exact h.inside r₁ hne
  · rw [hblocks] at hc
    rw [hmap]
    by_cases hcb : c = b
    · subst hcb
      rw [Function.update_self]
      refine ⟨fun _ => .inr ⟨r, ?_⟩, fun _ => rfl⟩
      rw [hrole, if_pos rfl]
      exact ⟨h0, rfl⟩
    · rw [Function.update_of_ne hcb, h.used c hc]
      refine or_congr Iff.rfl ⟨fun ⟨r₁, hne, heq⟩ => ⟨r₁, ?_⟩, fun ⟨r₁, hne, heq⟩ => ⟨r₁, ?_⟩⟩
      · have h₁ : r₁ ≠ r := by
          intro h₁
          rw [h₁] at hne
          exact hne hr
        rw [hrole, if_neg h₁]
        exact ⟨hne, heq⟩
      · rw [hrole] at hne heq
        by_cases h₁ : r₁ = r
        · rw [if_pos h₁] at heq
          exact absurd heq.symm hcb
        · rw [if_neg h₁] at hne heq
          exact ⟨hne, heq⟩

/-- A block leaves its role and becomes free. -/
theorem detach (h : Own R v d) (hr : roleAt v.disk d r = b) (h0 : b ≠ 0) (hvol : v'.Ok)
    (hblocks : v'.blocks = v.blocks) (hmap : v'.freemap = Function.update v.freemap b true)
    (hrole : ∀ r', roleAt v'.disk d' r' = if r' = r then 0 else roleAt v.disk d r') :
    Own R v' d' := by
  have hne : ∀ {r₁}, roleAt v'.disk d' r₁ ≠ 0 →
      r₁ ≠ r ∧ roleAt v'.disk d' r₁ = roleAt v.disk d r₁ := by
    intro r₁ hne
    rw [hrole] at hne
    by_cases h₁ : r₁ = r
    · rw [if_pos h₁] at hne
      exact absurd rfl hne
    · rw [hrole, if_neg h₁]
      exact ⟨h₁, rfl⟩
  refine ⟨hvol, hblocks ▸ h.small, h.zero, fun r₁ r₂ h₁ heq => ?_, fun r₁ h₁ => ?_, fun r₁ h₁ => ?_,
    fun c hc => ?_⟩
  · have h₂ : roleAt v'.disk d' r₂ ≠ 0 := heq ▸ h₁
    rw [(hne h₁).2, (hne h₂).2] at heq
    exact h.inj r₁ r₂ ((hne h₁).2 ▸ h₁) heq
  · rw [(hne h₁).2]
    exact h.apart r₁ ((hne h₁).2 ▸ h₁)
  · rw [(hne h₁).2, hblocks]
    exact h.inside r₁ ((hne h₁).2 ▸ h₁)
  · rw [hblocks] at hc
    rw [hmap]
    by_cases hcb : c = b
    · subst hcb
      rw [Function.update_self]
      refine ⟨fun hf => absurd hf (by simp), ?_⟩
      rintro (hR | ⟨r₁, h₁, heq⟩)
      · exact absurd hR (hr ▸ h.apart r (hr ▸ h0))
      · rw [(hne h₁).2] at heq
        exact absurd (h.inj r₁ r (heq ▸ h0) (heq.trans hr.symm)) (hne h₁).1
    · rw [Function.update_of_ne hcb, h.used c hc]
      refine or_congr Iff.rfl ⟨fun ⟨r₁, h₁, heq⟩ => ⟨r₁, ?_⟩, fun ⟨r₁, h₁, heq⟩ => ⟨r₁, ?_⟩⟩
      · have hr₁ : r₁ ≠ r := by
          intro hr₁
          rw [hr₁, hr] at heq
          exact hcb heq.symm
        rw [hrole, if_neg hr₁]
        exact ⟨h₁, heq⟩
      · rw [← (hne h₁).2]
        exact ⟨h₁, heq⟩

/-- Nothing changes but the contents of blocks that are not index blocks of the inode. -/
theorem congr (h : Own R v d) (hvol : v'.Ok) (hblocks : v'.blocks = v.blocks)
    (hmap : v'.freemap = v.freemap) (hrole : roleAt v'.disk d' = roleAt v.disk d) : Own R v' d' := by
  refine ⟨hvol, hblocks ▸ h.small, h.zero, ?_, ?_, ?_, ?_⟩
  · rw [hrole]
    exact h.inj
  · rw [hrole]
    exact h.apart
  · rw [hrole, hblocks]
    exact h.inside
  · rw [hrole, hblocks, hmap]
    exact h.used

end Own

/-! ## One entry changes -/

theorem word_setWord (b : Block) (i w k : ℕ) (hw : w < 2 ^ 32) :
    word (splice b (4 * i) 4 (ofWords fun _ => w)) k = if k = i then w else word b k := by
  have h := word_splice b (fun _ => w) i 1 k
  rw [Nat.mul_one, Nat.mod_eq_of_lt hw] at h
  rw [h]
  by_cases hk : k = i
  · rw [if_pos hk, if_pos ⟨by omega, by omega⟩]
  · rw [if_neg hk, if_neg (by omega)]

section Updates

variable {disk : ℕ → Block} {d : DiskInode} {b w : ℕ}

theorem roleAt_setDirect {i : ℕ} (hi : i < 12) (r : Role) :
    roleAt disk { d with direct := Function.update d.direct i b } r =
      if r = .leaf i then b else roleAt disk d r := by
  cases r with
  | ind => rw [if_neg (by simp)]; rfl
  | dbl => rw [if_neg (by simp)]; rfl
  | mid j => rw [if_neg (by simp)]; rfl
  | leaf i' =>
    by_cases he : i' = i
    · subst he
      rw [if_pos rfl, roleAt_direct hi]
      exact Function.update_self ..
    · rw [if_neg (by simpa using he)]
      by_cases hi' : i' < 12
      · rw [roleAt_direct hi', roleAt_direct hi']
        exact Function.update_of_ne he ..
      · show ite _ _ _ = ite _ _ _
        rw [if_neg hi', if_neg hi']

/-- An empty block becomes the indirect block. -/
theorem roleAt_setIndirect (h0 : d.indirect = 0) (hb : disk b = fun _ => 0) (r : Role) :
    roleAt disk { d with indirect := b } r = if r = .ind then b else roleAt disk d r := by
  cases r with
  | ind => rfl
  | dbl => rfl
  | mid j => rfl
  | leaf i =>
    rw [if_neg (by simp)]
    rcases leaf_cases i with hi | ⟨k, hk, rfl⟩ | ⟨j, k, hj, hk, rfl⟩ | hi
    · rw [roleAt_direct hi, roleAt_direct hi]
    · rw [roleAt_indirect hk, roleAt_indirect hk, h0, entryAt_zero]
      exact entryAt_clear hb k
    · rw [roleAt_double hj hk, roleAt_double hj hk, roleAt_mid hj, roleAt_mid hj]
    · rw [roleAt_beyond hi, roleAt_beyond hi]

/-- An empty block becomes the double-indirect block. -/
theorem roleAt_setDbIndirect (h0 : d.dbIndirect = 0) (hb : disk b = fun _ => 0) (r : Role) :
    roleAt disk { d with dbIndirect := b } r = if r = .dbl then b else roleAt disk d r := by
  have hmid : ∀ j, roleAt disk { d with dbIndirect := b } (.mid j) = roleAt disk d (.mid j) := by
    intro j
    by_cases hj : j < 1024
    · rw [roleAt_mid hj, roleAt_mid hj, h0, entryAt_zero]
      exact entryAt_clear hb j
    · rw [roleAt_mid_beyond (by omega), roleAt_mid_beyond (by omega)]
  cases r with
  | ind => rfl
  | dbl => rfl
  | mid j => rw [if_neg (by simp), hmid j]
  | leaf i =>
    rw [if_neg (by simp)]
    rcases leaf_cases i with hi | ⟨k, hk, rfl⟩ | ⟨j, k, hj, hk, rfl⟩ | hi
    · rw [roleAt_direct hi, roleAt_direct hi]
    · rw [roleAt_indirect hk, roleAt_indirect hk]
    · rw [roleAt_double hj hk, roleAt_double hj hk, hmid j]
    · rw [roleAt_beyond hi, roleAt_beyond hi]

/-- The blocks of the inode in different roles are different. -/
def Distinct (disk : ℕ → Block) (d : DiskInode) : Prop :=
  ∀ r r', roleAt disk d r ≠ 0 → roleAt disk d r = roleAt disk d r' → r = r'

/-- The disk with one word changed. -/
def setWord (disk : ℕ → Block) (c k w : ℕ) : ℕ → Block :=
  Function.update disk c (splice (disk c) (4 * k) 4 (ofWords fun _ => w))

theorem entryAt_setWord (hw : w < 2 ^ 32) (c k b' k' : ℕ) : entryAt (setWord disk c k w) b' k' =
    if b' = c ∧ b' ≠ 0 ∧ k' = k then w else entryAt disk b' k' := by
  unfold entryAt setWord
  by_cases h0 : b' = 0
  · rw [if_pos h0, if_pos h0, if_neg (by tauto)]
  rw [if_neg h0, if_neg h0]
  by_cases hc : b' = c
  · subst hc
    rw [Function.update_self, word_setWord _ _ _ _ hw]
    by_cases hk : k' = k
    · rw [if_pos hk, if_pos ⟨rfl, h0, hk⟩]
    · rw [if_neg hk, if_neg (by tauto)]
  · rw [Function.update_of_ne hc, if_neg (by tauto)]

/-- An entry of the indirect block. -/
theorem roleAt_setWord_indirect (hd : Distinct disk d) (hc : d.indirect ≠ 0) {k : ℕ} (hk : k < 1024)
    (hw : w < 2 ^ 32) (r : Role) : roleAt (setWord disk d.indirect k w) d r =
      if r = .leaf (12 + k) then w else roleAt disk d r := by
  have hdbl : d.dbIndirect ≠ d.indirect := fun he => nomatch hd .ind .dbl hc he.symm
  have hmid : ∀ j, roleAt (setWord disk d.indirect k w) d (.mid j) = roleAt disk d (.mid j) := by
    intro j
    by_cases hj : j < 1024
    · rw [roleAt_mid hj, roleAt_mid hj, entryAt_setWord hw, if_neg (by tauto)]
    · rw [roleAt_mid_beyond (by omega), roleAt_mid_beyond (by omega)]
  cases r with
  | ind => rw [if_neg (by simp)]; rfl
  | dbl => rw [if_neg (by simp)]; rfl
  | mid j => rw [if_neg (by simp), hmid j]
  | leaf i =>
    rcases leaf_cases i with hi | ⟨k', hk', rfl⟩ | ⟨j, k', hj, hk', rfl⟩ | hi
    · rw [roleAt_direct hi, roleAt_direct hi, if_neg (by simp; omega)]
    · rw [roleAt_indirect hk', roleAt_indirect hk', entryAt_setWord hw]
      by_cases hkk : k' = k
      · rw [if_pos ⟨rfl, hc, hkk⟩, if_pos (by rw [hkk])]
      · rw [if_neg (by tauto), if_neg (by simpa using hkk)]
    · have hlf : Role.leaf (1036 + (1024 * j + k')) ≠ .leaf (12 + k) := by
        simp only [ne_eq, Role.leaf.injEq]
        omega
      rw [roleAt_double hj hk', roleAt_double hj hk', hmid j, entryAt_setWord hw, if_neg hlf, if_neg]
      rintro ⟨he, -⟩
      exact nomatch hd .ind (.mid j) hc he.symm
    · rw [roleAt_beyond hi, roleAt_beyond hi, if_neg]
      intro he
      have : 1036 ≤ NLEAF := by unfold NLEAF; omega
      simp at he
      omega

/-- An entry of the double-indirect block; what the new middle block leads to is what the old one
led to. -/
theorem roleAt_setWord_mid (hd : Distinct disk d) (hc : d.dbIndirect ≠ 0) {j : ℕ} (hj : j < 1024)
    (hw : w < 2 ^ 32) (hne : w ≠ d.dbIndirect)
    (hsub : ∀ k, k < 1024 → entryAt disk w k = entryAt disk (roleAt disk d (.mid j)) k) (r : Role) :
    roleAt (setWord disk d.dbIndirect j w) d r = if r = .mid j then w else roleAt disk d r := by
  have hind : d.indirect ≠ d.dbIndirect := fun he => nomatch hd .dbl .ind hc he.symm
  have hmid : ∀ j', roleAt (setWord disk d.dbIndirect j w) d (.mid j') =
      if j' = j then w else roleAt disk d (.mid j') := by
    intro j'
    by_cases hj' : j' < 1024
    · rw [roleAt_mid hj', roleAt_mid hj', entryAt_setWord hw]
      by_cases hjj : j' = j
      · rw [if_pos ⟨rfl, hc, hjj⟩, if_pos hjj]
      · rw [if_neg (by tauto), if_neg hjj]
    · rw [roleAt_mid_beyond (by omega), roleAt_mid_beyond (by omega), if_neg (by omega)]
  cases r with
  | ind => rw [if_neg (by simp)]; rfl
  | dbl => rw [if_neg (by simp)]; rfl
  | mid j' =>
    rw [hmid j']
    by_cases hjj : j' = j
    · rw [if_pos hjj, if_pos (by rw [hjj])]
    · rw [if_neg hjj, if_neg (by simpa using hjj)]
  | leaf i =>
    rw [if_neg (by simp)]
    rcases leaf_cases i with hi | ⟨k', hk', rfl⟩ | ⟨j', k', hj', hk', rfl⟩ | hi
    · rw [roleAt_direct hi, roleAt_direct hi]
    · rw [roleAt_indirect hk', roleAt_indirect hk', entryAt_setWord hw, if_neg (by tauto)]
    · rw [roleAt_double hj' hk', roleAt_double hj' hk', hmid j']
      by_cases hjj : j' = j
      · subst hjj
        rw [if_pos rfl, entryAt_setWord hw, if_neg (by tauto)]
        exact hsub k' hk'
      · rw [if_neg hjj, entryAt_setWord hw, if_neg]
        rintro ⟨he, -⟩
        exact nomatch hd .dbl (.mid j') hc he.symm
    · rw [roleAt_beyond hi, roleAt_beyond hi]

/-- An entry of a middle block. -/
theorem roleAt_setWord_double (hd : Distinct disk d) {j : ℕ} (hj : j < 1024)
    (hc : roleAt disk d (.mid j) ≠ 0) {k : ℕ} (hk : k < 1024) (hw : w < 2 ^ 32) (r : Role) :
    roleAt (setWord disk (roleAt disk d (.mid j)) k w) d r =
      if r = .leaf (1036 + (1024 * j + k)) then w else roleAt disk d r := by
  have hmid : ∀ j', roleAt (setWord disk (roleAt disk d (.mid j)) k w) d (.mid j') =
      roleAt disk d (.mid j') := by
    intro j'
    by_cases hj' : j' < 1024
    · rw [roleAt_mid hj', roleAt_mid hj', entryAt_setWord hw, if_neg]
      rintro ⟨he, -⟩
      exact nomatch hd (.mid j) .dbl hc he.symm
    · rw [roleAt_mid_beyond (by omega), roleAt_mid_beyond (by omega)]
  cases r with
  | ind => rw [if_neg (by simp)]; rfl
  | dbl => rw [if_neg (by simp)]; rfl
  | mid j' => rw [if_neg (by simp), hmid j']
  | leaf i =>
    rcases leaf_cases i with hi | ⟨k', hk', rfl⟩ | ⟨j', k', hj', hk', rfl⟩ | hi
    · rw [roleAt_direct hi, roleAt_direct hi, if_neg (by simp; omega)]
    · rw [roleAt_indirect hk', roleAt_indirect hk', if_neg (by simp; omega), entryAt_setWord hw,
        if_neg]
      rintro ⟨he, -⟩
      exact nomatch hd (.mid j) .ind hc he.symm
    · rw [roleAt_double hj' hk', roleAt_double hj' hk', hmid j', entryAt_setWord hw]
      by_cases hjk : j' = j ∧ k' = k
      · obtain ⟨rfl, rfl⟩ := hjk
        rw [if_pos ⟨rfl, hc, rfl⟩, if_pos rfl]
      · have hlf : Role.leaf (1036 + (1024 * j' + k')) ≠ .leaf (1036 + (1024 * j + k)) := by
          simp only [ne_eq, Role.leaf.injEq]
          omega
        rw [if_neg hlf, if_neg]
        rintro ⟨he, h0, hkk⟩
        have hjj : Role.mid j = .mid j' := hd (.mid j) (.mid j') hc he.symm
        exact hjk ⟨(Role.mid.inj hjj).symm, hkk⟩
    · rw [roleAt_beyond hi, roleAt_beyond hi, if_neg]
      intro he
      simp at he
      unfold NLEAF at hi
      omega

end Updates

end Ucore.Sfs
