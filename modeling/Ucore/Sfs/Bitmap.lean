import Mathlib.Data.Finset.Max
import Ucore.Lib.Words
import Ucore.Mm.Layout
import Ucore.Sfs.Disk

/-!
# The bitmap of free blocks

Reference model of `kern/fs/sfs/bitmap.c`, with its words.  A set bit is a free index.

* `Rep` — the bits of the words are a set of indices below `nbits`;
* `Rep.bitmapAlloc_firstSet` — the index is the one that the free map of a volume gives;
* `bitmap_refines` — whatever is called, in whatever order, a bitmap does what the set of its free
  indices does.

`none` is a failed assertion or an access outside the words.  Each `kmalloc` succeeds or fails as an
argument decides.
-/

namespace Ucore

open Words (bit)

namespace Bitmap

def WORD_BITS : ℕ := 32

abbrev WORD_TYPE := BitVec WORD_BITS

/-- `ROUNDUP_DIV`. -/
def roundupDiv (a n : UInt32) : UInt32 := (a + n - 1) / n

end Bitmap

/-- `struct bitmap`. -/
structure Bitmap where
  nbits : UInt32
  nwords : UInt32
  map : List Bitmap.WORD_TYPE

namespace Bitmap

/-- The loop of `bitmap_create` that marks the leftover bits. -/
def markLoop (ix overbits : ℕ) (map : List WORD_TYPE) : Option (List WORD_TYPE) :=
  if overbits < WORD_BITS then do
    let x ← map[ix]?
    markLoop ix (overbits + 1) (map.set ix (x ^^^ (BitVec.ofNat WORD_BITS 1 <<< overbits)))
  else some map
termination_by WORD_BITS - overbits

/-- `bitmap_create`, where `bitmapMem` and `mapMem` tell whether `kmalloc` succeeds. -/
def bitmapCreate (bitmapMem mapMem : Bool) (nbits : UInt32) : Option (Option Bitmap) := do
  guard (nbits ≠ 0 ∧ nbits + 32 > nbits)
  if bitmapMem = false then return none
  let nwords := roundupDiv nbits 32
  if mapMem = false then return none
  let map := List.replicate nwords.toNat (BitVec.allOnes WORD_BITS)
  if nbits ≠ nwords * 32 then
    let ix := nwords - 1
    let overbits := nbits - ix * 32
    guard (nbits / 32 = ix)
    guard (overbits > 0 ∧ overbits < 32)
    let map ← markLoop ix.toNat overbits.toNat map
    return some ⟨nbits, nwords, map⟩
  else return some ⟨nbits, nwords, map⟩

/-- The inner loop of `bitmap_alloc`: a bit that is set, from `offset` on. -/
def allocOffset (x : WORD_TYPE) (offset : ℕ) : Option ℕ :=
  if offset < WORD_BITS then
    if x &&& (BitVec.ofNat WORD_BITS 1 <<< offset) ≠ 0 then some offset else allocOffset x (offset + 1)
  else none
termination_by WORD_BITS - offset

variable (b : Bitmap)

/-- The loop of `bitmap_alloc`: the return value, `*index_store`, and the bitmap. -/
def allocLoop (ix : ℕ) : Option (Int × Option UInt32 × Bitmap) :=
  if ix < b.nwords.toNat then do
    let x ← b.map[ix]?
    if x ≠ 0 then do
      let offset ← allocOffset x 0
      return (0, some (UInt32.ofNat ix * 32 + UInt32.ofNat offset),
        { b with map := b.map.set ix (x ^^^ (BitVec.ofNat WORD_BITS 1 <<< offset)) })
    else allocLoop (ix + 1)
  else some (-E_NO_MEM, none, b)
termination_by b.nwords.toNat - ix

/-- `bitmap_alloc`. -/
def bitmapAlloc : Option (Int × Option UInt32 × Bitmap) := b.allocLoop 0

/-- `bitmap_translate`: the index of the word, and the mask. -/
def bitmapTranslate (index : UInt32) : Option (ℕ × WORD_TYPE) := do
  guard (index < b.nbits)
  return ((index / 32).toNat, BitVec.ofNat WORD_BITS 1 <<< (index % 32).toNat)

/-- `bitmap_test`. -/
def bitmapTest (index : UInt32) : Option WORD_TYPE := do
  let (ix, mask) ← b.bitmapTranslate index
  let x ← b.map[ix]?
  return x &&& mask

/-- `bitmap_free`. -/
def bitmapFree (index : UInt32) : Option Bitmap := do
  let (ix, mask) ← b.bitmapTranslate index
  let x ← b.map[ix]?
  guard (x &&& mask = 0)
  return { b with map := b.map.set ix (x ||| mask) }

/-! ## Creation -/

theorem guard_pos {p : Prop} [Decidable p] (hp : p) : (guard p : Option Unit) = some () := if_pos hp

/-- The bits of the words are the indices in `s`. -/
structure Rep (b : Bitmap) (s : Finset ℕ) : Prop where
  length : b.map.length = b.nwords.toNat
  words : b.nbits.toNat ≤ b.nwords.toNat * WORD_BITS
  mem : ∀ i, bit b.map i = true ↔ i ∈ s
  bound : ∀ i ∈ s, i < b.nbits.toNat

section create

variable {nbits : UInt32}

theorem roundupDiv_toNat (hover : nbits.toNat + 32 < 2 ^ 32) :
    (roundupDiv nbits 32).toNat = (nbits.toNat + 31) / 32 := by
  unfold roundupDiv
  have h32 : (32 : UInt32).toNat = 32 := rfl
  have h1 : (1 : UInt32).toNat = 1 := rfl
  rw [UInt32.toNat_div, UInt32.toNat_sub, UInt32.toNat_add, h32, h1]
  omega

/-- The leftover bits are flipped. -/
theorem markLoop_spec (ix overbits : ℕ) (map : List WORD_TYPE) (hix : ix < map.length) (hle : overbits ≤ WORD_BITS) :
    ∃ map', markLoop ix overbits map = some map' ∧ map'.length = map.length ∧ ∀ i, bit map' i =
      if ix * WORD_BITS + overbits ≤ i ∧ i < (ix + 1) * WORD_BITS then !bit map i else bit map i := by
  fun_induction markLoop ix overbits map with
  | case1 overbits map hlt ih =>
    have hget := List.getElem?_eq_getElem hix
    obtain ⟨map', hrun, hlen, hbit⟩ := ih map[ix] (by rwa [List.length_set]) hlt
    have hend : (ix + 1) * WORD_BITS = ix * WORD_BITS + WORD_BITS := Nat.succ_mul ..
    refine ⟨map', ?_, hlen.trans (List.length_set ..), fun i => ?_⟩
    · rw [hget]
      exact hrun
    · have hflip := Words.bit_flip hget hlt i
      have hthis := Words.bit_eq hget hlt
      rw [hbit, hflip]
      by_cases hi : i = ix * WORD_BITS + overbits
      · subst hi
        rw [if_neg (by omega), if_pos rfl, if_pos ⟨le_rfl, by omega⟩, hthis]
      · rw [if_neg hi]
        have hiff : ix * WORD_BITS + (overbits + 1) ≤ i ↔ ix * WORD_BITS + overbits ≤ i := by omega
        simp only [hiff]
  | case2 overbits map hge =>
    have hend : (ix + 1) * WORD_BITS = ix * WORD_BITS + WORD_BITS := Nat.succ_mul ..
    refine ⟨map, rfl, rfl, fun i => ?_⟩
    rw [if_neg (by omega)]

/-- **`bitmap_create`**: all indices are free. -/
theorem bitmapCreate_spec (hpos : nbits ≠ 0) (hover : nbits + 32 > nbits) :
    ∃ b, bitmapCreate true true nbits = some (some b) ∧ b.nbits = nbits ∧ b.Rep (Finset.range nbits.toNat) := by
  have h32 : (32 : UInt32).toNat = 32 := rfl
  have h1 : (1 : UInt32).toNat = 1 := rfl
  have hn : nbits.toNat ≠ 0 := fun h0 => hpos (UInt32.toNat_inj.mp h0)
  have hlt : nbits.toNat + 32 < 2 ^ 32 := by
    rw [gt_iff_lt, UInt32.lt_iff_toNat_lt, UInt32.toNat_add, h32] at hover
    have hsize := nbits.toNat_lt
    omega
  have hwords := roundupDiv_toNat hlt
  have hmul : (roundupDiv nbits 32 * 32).toNat = (nbits.toNat + 31) / 32 * 32 := by
    rw [UInt32.toNat_mul, hwords, h32]
    omega
  unfold bitmapCreate
  rw [guard_pos ⟨hpos, hover⟩]
  simp only [Bool.true_eq_false, if_false, Option.bind_eq_bind, Option.bind_some, pure]
  by_cases hwhole : nbits = roundupDiv nbits 32 * 32
  · have hnat := congrArg UInt32.toNat hwhole
    rw [hmul] at hnat
    rw [if_neg (not_not.mpr hwhole)]
    refine ⟨_, rfl, rfl, List.length_replicate .., ?_, fun i => ?_, fun i hi => Finset.mem_range.mp hi⟩
    · show nbits.toNat ≤ (roundupDiv nbits 32).toNat * 32
      omega
    · rw [Words.bit_replicate, Finset.mem_range, decide_eq_true_iff, hwords]
      show i < (nbits.toNat + 31) / 32 * 32 ↔ _
      rw [← hnat]
  · have hne : nbits.toNat ≠ (nbits.toNat + 31) / 32 * 32 := fun hnat =>
      hwhole (UInt32.toNat_inj.mp (hnat.trans hmul.symm))
    have hix : (roundupDiv nbits 32 - 1).toNat = (nbits.toNat + 31) / 32 - 1 := by
      rw [UInt32.toNat_sub, hwords, h1]
      omega
    have hover : (nbits - (roundupDiv nbits 32 - 1) * 32).toNat =
        nbits.toNat - ((nbits.toNat + 31) / 32 - 1) * 32 := by
      rw [UInt32.toNat_sub, UInt32.toNat_mul, hix, h32]
      omega
    have hdiv : nbits / 32 = roundupDiv nbits 32 - 1 := by
      rw [← UInt32.toNat_inj, UInt32.toNat_div, hix, h32]
      omega
    have hguard : nbits - (roundupDiv nbits 32 - 1) * 32 > 0 ∧ nbits - (roundupDiv nbits 32 - 1) * 32 < 32 := by
      rw [gt_iff_lt, UInt32.lt_iff_toNat_lt, UInt32.lt_iff_toNat_lt, hover, h32]
      refine ⟨?_, by omega⟩
      show 0 < _
      omega
    rw [if_pos hwhole, guard_pos hdiv, guard_pos hguard]
    simp only [Option.bind_some]
    obtain ⟨map', hrun, hlen, hbit⟩ := markLoop_spec
      (roundupDiv nbits 32 - 1).toNat (nbits - (roundupDiv nbits 32 - 1) * 32).toNat
      (List.replicate (roundupDiv nbits 32).toNat (BitVec.allOnes WORD_BITS))
      (by rw [List.length_replicate, hix, hwords]; omega) (by rw [hover]; show _ ≤ 32; omega)
    rw [hrun]
    refine ⟨_, rfl, rfl, hlen.trans (List.length_replicate ..), ?_, fun i => ?_, fun i hi => Finset.mem_range.mp hi⟩
    · show nbits.toNat ≤ (roundupDiv nbits 32).toNat * 32
      omega
    · have hlast : ((nbits.toNat + 31) / 32 - 1) * 32 + (nbits.toNat - ((nbits.toNat + 31) / 32 - 1) * 32) =
      nbits.toNat := by
        omega
      have hend : ((nbits.toNat + 31) / 32 - 1 + 1) * 32 = (nbits.toNat + 31) / 32 * 32 := by omega
      rw [hbit, Words.bit_replicate, Finset.mem_range, hwords, hix, hover]
      unfold WORD_BITS
      rw [hlast, hend]
      split
      · simp
        omega
      · simp
        omega

end create

/-! ## The calls -/

section calls

variable {b b' : Bitmap} {s : Finset ℕ} {x : WORD_TYPE} {i k offset ix : ℕ} {index : UInt32}

/-- The inner loop finds the lowest bit. -/
theorem allocOffset_spec (hk : k < WORD_BITS) (hbit : x.getLsbD k = true) (hle : offset ≤ k)
    (hlow : ∀ j, offset ≤ j → j < k → x.getLsbD j = false) : allocOffset x offset = some k := by
  fun_induction allocOffset x offset with
  | case1 offset hlt hset =>
    rw [Words.and_mask_ne_zero hlt] at hset
    by_contra hne
    have hclear := hlow offset le_rfl (by
      have hk' : offset ≠ k := fun heq => hne (congrArg some heq)
      omega)
    rw [hset] at hclear
    cases hclear
  | case2 offset hlt hclear ih =>
    rw [Words.and_mask_ne_zero hlt] at hclear
    have hne : offset ≠ k := by
      rintro rfl
      exact hclear hbit
    exact ih (by omega) fun j hj => hlow j (by omega)
  | case3 offset hge => omega

/-- The word of an index, and its bit. -/
theorem Rep.word (h : b.Rep s) (hi : i < b.nbits.toNat) :
    ∃ x, b.map[i / WORD_BITS]? = some x ∧ x.getLsbD (i % WORD_BITS) = decide (i ∈ s) := by
  have hwords := h.words
  have hlt : i / WORD_BITS < b.map.length := by
    rw [h.length, Nat.div_lt_iff_lt_mul (by decide)]
    omega
  refine ⟨b.map[i / WORD_BITS], List.getElem?_eq_getElem hlt, ?_⟩
  have hbit := Words.bit_eq (List.getElem?_eq_getElem hlt) (Nat.mod_lt i (by decide : 0 < WORD_BITS))
  rw [Nat.div_add_mod'] at hbit
  rw [← hbit, Bool.eq_iff_iff, h.mem, decide_eq_true_iff]

/-- A word without bits has no indices. -/
theorem Rep.word_zero (h : b.Rep s) (hx : b.map[ix]? = some 0) (hi : i ∈ s) (hle : ix * WORD_BITS ≤ i) :
    (ix + 1) * WORD_BITS ≤ i := by
  by_contra hlt
  have hend : (ix + 1) * WORD_BITS = ix * WORD_BITS + WORD_BITS := Nat.succ_mul ..
  have hbit := Words.bit_eq hx (j := i - ix * WORD_BITS) (by omega)
  rw [Nat.add_sub_cancel' hle, (h.mem i).mpr hi] at hbit
  simp at hbit

/-- **The loop of `bitmap_alloc`**, when no free index is before the word `ix`. -/
theorem Rep.allocLoop (h : b.Rep s) (ix : ℕ) (hlow : ∀ i ∈ s, ix * WORD_BITS ≤ i) :
    (s = ∅ → b.allocLoop ix = some (-E_NO_MEM, none, b)) ∧
      ∀ hs : s.Nonempty, ∃ index b', b.allocLoop ix = some (0, some index, b') ∧ index.toNat = s.min' hs ∧
        b'.nbits = b.nbits ∧ b'.Rep (s.erase (s.min' hs)) := by
  fun_induction Bitmap.allocLoop b ix with
  | case1 ix hlt ih =>
    have hlen : ix < b.map.length := by rwa [h.length]
    have hget := List.getElem?_eq_getElem hlen
    have hend : (ix + 1) * WORD_BITS = ix * WORD_BITS + WORD_BITS := Nat.succ_mul ..
    rw [hget]
    simp only [Option.bind_eq_bind, Option.bind_some]
    by_cases hx : b.map[ix] = 0
    · rw [if_neg (not_not.mpr hx)]
      exact ih fun i hi => h.word_zero (hget.trans (congrArg some hx)) hi (hlow i hi)
    · rw [if_pos hx]
      -- the lowest bit of the first word that has one
      obtain ⟨k, ⟨hk, hbit⟩, hleast⟩ := Nat.findX (Words.exists_bit hx)
      have hmem : ix * WORD_BITS + k ∈ s := by rw [← h.mem, Words.bit_eq hget hk, hbit]
      have hmin : ∀ hs : s.Nonempty, s.min' hs = ix * WORD_BITS + k := by
        intro hs
        refine le_antisymm (s.min'_le _ hmem) (s.le_min' hs _ fun j hj => ?_)
        by_contra hjk
        have hjlow := hlow j hj
        have hj' : j - ix * WORD_BITS < WORD_BITS := by omega
        refine hleast (j - ix * WORD_BITS) (by omega) ⟨hj', ?_⟩
        rw [← Words.bit_eq hget hj', Nat.add_sub_cancel' hjlow, h.mem]
        exact hj
      have hoffset := allocOffset_spec hk hbit (Nat.zero_le k) fun j _ hj => by
        simpa using fun hset => hleast j hj ⟨by omega, hset⟩
      rw [hoffset]
      refine ⟨fun hs => absurd hmem (by simp [hs]), fun hs => ⟨_, _, rfl, ?_, rfl, ?_⟩⟩
      · rw [hmin hs]
        have hbound : ix * 32 + k < b.nbits.toNat := h.bound _ hmem
        have hsize := b.nbits.toNat_lt
        rw [UInt32.toNat_add, UInt32.toNat_mul, UInt32.toNat_ofNat', UInt32.toNat_ofNat']
        show (ix % 2 ^ 32 * 32 % 2 ^ 32 + k % 2 ^ 32) % 2 ^ 32 = ix * 32 + k
        omega
      · rw [hmin hs]
        refine ⟨?_, h.words, fun i => ?_, fun i hi => h.bound i (Finset.mem_of_mem_erase hi)⟩
        · show (b.map.set _ _).length = _
          rw [List.length_set, h.length]
        · show bit (b.map.set _ _) i = true ↔ _
          rw [Words.bit_flip hget hk, Finset.mem_erase, hbit]
          by_cases hi : i = ix * WORD_BITS + k
          · simp [hi]
          · simp [hi, h.mem]
  | case2 ix hge =>
    refine ⟨fun _ => rfl, fun ⟨i, hi⟩ => ?_⟩
    have hle := hlow i hi
    have hbound := h.bound i hi
    have hwords := h.words
    have hmul := Nat.mul_le_mul_right WORD_BITS (Nat.not_lt.mp hge)
    omega

/-- The word and the mask that `bitmap_translate` gives. -/
theorem bitmapTranslate_eq (hlt : index.toNat < b.nbits.toNat) : b.bitmapTranslate index =
    some (index.toNat / WORD_BITS, BitVec.ofNat WORD_BITS 1 <<< (index.toNat % WORD_BITS)) := by
  unfold bitmapTranslate
  rw [guard_pos (UInt32.lt_iff_toNat_lt.mpr hlt)]
  show some ((index / 32).toNat, BitVec.ofNat WORD_BITS 1 <<< (index % 32).toNat) = _
  rw [UInt32.toNat_div, UInt32.toNat_mod]
  rfl

theorem bitmapTranslate_none (hge : ¬ index.toNat < b.nbits.toNat) : b.bitmapTranslate index = none := by
  unfold bitmapTranslate
  have hfail : (guard (index < b.nbits) : Option Unit) = none :=
    if_neg (mt UInt32.lt_iff_toNat_lt.mp hge)
  rw [hfail]
  rfl

/-- **`bitmap_test`** of an index. -/
theorem Rep.bitmapTest (h : b.Rep s) (hlt : index.toNat < b.nbits.toNat) :
    ∃ r, b.bitmapTest index = some r ∧ (r ≠ 0 ↔ index.toNat ∈ s) := by
  obtain ⟨x, hx, hbit⟩ := h.word hlt
  unfold Bitmap.bitmapTest
  rw [bitmapTranslate_eq hlt]
  simp only [Option.bind_eq_bind, Option.bind_some, hx]
  refine ⟨_, rfl, ?_⟩
  rw [Words.and_mask_ne_zero (Nat.mod_lt _ (by decide)), hbit, decide_eq_true_iff]

/-- **`bitmap_free`** of an index that is not free. -/
theorem Rep.bitmapFree (h : b.Rep s) (hlt : index.toNat < b.nbits.toNat) (hnot : index.toNat ∉ s) :
    ∃ b', b.bitmapFree index = some b' ∧ b'.nbits = b.nbits ∧ b'.Rep (insert index.toNat s) := by
  obtain ⟨x, hx, hbit⟩ := h.word hlt
  have hmod : index.toNat % WORD_BITS < WORD_BITS := Nat.mod_lt _ (by decide)
  unfold Bitmap.bitmapFree
  have hclear : x &&& BitVec.ofNat WORD_BITS 1 <<< (index.toNat % WORD_BITS) = 0 := by
    by_contra hset
    rw [← ne_eq, Words.and_mask_ne_zero hmod, hbit, decide_eq_true_iff] at hset
    exact hnot hset
  rw [bitmapTranslate_eq hlt]
  simp only [Option.bind_eq_bind, Option.bind_some, hx, guard_pos hclear]
  refine ⟨_, rfl, rfl, ?_, h.words, fun i => ?_, fun i hi => ?_⟩
  · show (b.map.set _ _).length = _
    rw [List.length_set, h.length]
  · show bit (b.map.set _ _) i = true ↔ _
    rw [Words.bit_or hx hmod, Nat.div_add_mod', Finset.mem_insert]
    by_cases hi : i = index.toNat
    · simp [hi]
    · simp [hi, h.mem]
  · rcases Finset.mem_insert.mp hi with rfl | hi
    · exact hlt
    · exact h.bound i hi

/-- `bitmap_free` of a free index fails. -/
theorem Rep.bitmapFree_none (h : b.Rep s) (hmem : index.toNat ∈ s) : b.bitmapFree index = none := by
  have hlt := h.bound _ hmem
  obtain ⟨x, hx, hbit⟩ := h.word hlt
  have hset : x &&& BitVec.ofNat WORD_BITS 1 <<< (index.toNat % WORD_BITS) ≠ 0 := by
    rw [Words.and_mask_ne_zero (Nat.mod_lt _ (by decide)), hbit, decide_eq_true_iff]
    exact hmem
  have hfail : (guard (x &&& BitVec.ofNat WORD_BITS 1 <<< (index.toNat % WORD_BITS) = 0) : Option Unit) = none :=
    if_neg hset
  unfold Bitmap.bitmapFree
  rw [bitmapTranslate_eq hlt]
  simp only [Option.bind_eq_bind, Option.bind_some, hx, hfail, Option.bind_none]

end calls

/-! ## The set of the free indices -/

/-- A call. -/
inductive Call where
  | alloc
  | free (index : UInt32)
  | test (index : UInt32)
  deriving DecidableEq, Repr

/-- What a call returns; `bitmap_alloc` has the return value and `*index_store`. -/
inductive Outcome where
  | alloc (ret : Int) (index : Option ℕ)
  | free
  | test (r : Bool)
  deriving DecidableEq, Repr

/-- A call on the bitmap. -/
def step (b : Bitmap) : Call → Option (Outcome × Bitmap)
  | .alloc => b.bitmapAlloc.map fun (ret, index, b') => (.alloc ret (index.map UInt32.toNat), b')
  | .free index => (b.bitmapFree index).map fun b' => (.free, b')
  | .test index => (b.bitmapTest index).map fun r => (.test (decide (r ≠ 0)), b)

/-- The same call on a set of indices below `nbits`. -/
def setStep (nbits : ℕ) (s : Finset ℕ) : Call → Option (Outcome × Finset ℕ)
  | .alloc =>
    if hs : s.Nonempty then some (.alloc 0 (some (s.min' hs)), s.erase (s.min' hs))
    else some (.alloc (-E_NO_MEM) none, s)
  | .free index =>
    if index.toNat < nbits ∧ index.toNat ∉ s then some (.free, insert index.toNat s) else none
  | .test index => if index.toNat < nbits then some (.test (decide (index.toNat ∈ s)), s) else none

/-- Calls one after the other, with what they return. -/
def run {σ : Type} (f : σ → Call → Option (Outcome × σ)) : List Call → σ → Option (List Outcome × σ)
  | [], x => some ([], x)
  | c :: cs, x => do
    let (out, x) ← f x c
    let (outs, x) ← run f cs x
    return (out :: outs, x)

section refinement

variable {b : Bitmap} {s : Finset ℕ}

/-- **One call** does the same to the bitmap and to the set. -/
theorem Rep.step (h : b.Rep s) (c : Call) :
    Option.Rel (fun r q => r.1 = q.1 ∧ r.2.nbits = b.nbits ∧ r.2.Rep q.2) (b.step c) (setStep b.nbits.toNat s c) := by
  cases c with
  | alloc =>
    obtain ⟨hempty, hsome⟩ := h.allocLoop 0 (by simp)
    simp only [Bitmap.step, setStep, bitmapAlloc]
    by_cases hs : s.Nonempty
    · obtain ⟨index, b', hrun, hindex, hnbits, hrep⟩ := hsome hs
      rw [hrun, dif_pos hs]
      refine .some ⟨?_, hnbits, hrep⟩
      show Outcome.alloc 0 (some index.toNat) = _
      rw [hindex]
    · rw [hempty (Finset.not_nonempty_iff_eq_empty.mp hs), dif_neg hs]
      exact .some ⟨rfl, rfl, h⟩
  | free index =>
    simp only [Bitmap.step, setStep]
    by_cases hok : index.toNat < b.nbits.toNat ∧ index.toNat ∉ s
    · obtain ⟨b', hrun, hnbits, hrep⟩ := h.bitmapFree hok.1 hok.2
      rw [hrun, if_pos hok]
      exact .some ⟨rfl, hnbits, hrep⟩
    · have hnone : b.bitmapFree index = none := by
        by_cases hmem : index.toNat ∈ s
        · exact h.bitmapFree_none hmem
        · unfold Bitmap.bitmapFree
          rw [bitmapTranslate_none fun hlt => hok ⟨hlt, hmem⟩]
          rfl
      rw [hnone, if_neg hok]
      exact .none
  | test index =>
    simp only [Bitmap.step, setStep]
    by_cases hlt : index.toNat < b.nbits.toNat
    · obtain ⟨r, hrun, hr⟩ := h.bitmapTest hlt
      rw [hrun, if_pos hlt]
      refine .some ⟨?_, rfl, h⟩
      show Outcome.test (decide (r ≠ 0)) = _
      rw [decide_eq_decide.mpr hr]
    · have hnone : b.bitmapTest index = none := by
        unfold Bitmap.bitmapTest
        rw [bitmapTranslate_none hlt]
        rfl
      rw [hnone, if_neg hlt]
      exact .none

/-- **Calls in any order** do the same to the bitmap and to the set. -/
theorem Rep.run (h : b.Rep s) (calls : List Call) :
    Option.Rel (fun r q => r.1 = q.1 ∧ r.2.Rep q.2) (run Bitmap.step calls b)
      (run (setStep b.nbits.toNat) calls s) := by
  induction calls generalizing b s with
  | nil => exact .some ⟨rfl, h⟩
  | cons c cs ih =>
    have hstep := h.step c
    simp only [Bitmap.run]
    generalize b.step c = r, setStep b.nbits.toNat s c = q at hstep
    cases hstep with
    | none => exact .none
    | @some r q hrel =>
      obtain ⟨out, b₁⟩ := r
      obtain ⟨out', s₁⟩ := q
      obtain ⟨heq, hnbits, hrep⟩ := hrel
      cases heq
      have hrest := ih hrep
      dsimp only at hnbits
      rw [hnbits] at hrest
      simp only [Option.bind_eq_bind, Option.bind_some]
      generalize Bitmap.run Bitmap.step cs b₁ = r, Bitmap.run (setStep b.nbits.toNat) cs s₁ = q at hrest
      cases hrest with
      | none => exact .none
      | @some r q hrel =>
        obtain ⟨outs, b₂⟩ := r
        obtain ⟨outs', s₂⟩ := q
        obtain ⟨heq, hrep'⟩ := hrel
        cases heq
        exact .some ⟨rfl, hrep'⟩

/-- **The bitmap is the set of its free indices.**  A new bitmap has all indices below `nbits`, and then
every sequence of calls returns what it returns for the set, and ends with the set. -/
theorem bitmap_refines (nbits : UInt32) (hpos : nbits ≠ 0) (hover : nbits + 32 > nbits) :
    ∃ b, bitmapCreate true true nbits = some (some b) ∧ ∀ calls,
      Option.Rel (fun r q => r.1 = q.1 ∧ r.2.Rep q.2) (run Bitmap.step calls b)
        (run (setStep nbits.toNat) calls (Finset.range nbits.toNat)) := by
  obtain ⟨b, hrun, rfl, hrep⟩ := bitmapCreate_spec hpos hover
  exact ⟨b, hrun, hrep.run⟩

/-- Leftover bits, and an index that goes out and comes back. -/
theorem bitmap_refines_forty : ∃ b, bitmapCreate true true 40 = some (some b) ∧
    (run Bitmap.step [.alloc, .test 0, .test 39, .free 0] b).map Prod.fst =
      some [.alloc 0 (some 0), .test false, .test true, .free] := by
  obtain ⟨b, hcreate, hruns⟩ := bitmap_refines 40 (by decide) (by decide)
  refine ⟨b, hcreate, ?_⟩
  have hset : (run (setStep 40) [.alloc, .test 0, .test 39, .free 0] (Finset.range 40)).map Prod.fst =
      some [.alloc 0 (some 0), .test false, .test true, .free] := by decide +kernel
  obtain ⟨q, hq, hout⟩ := Option.map_eq_some_iff.mp hset
  have hrel := hruns [.alloc, .test 0, .test 39, .free 0]
  rw [show UInt32.toNat 40 = 40 from rfl, hq] at hrel
  generalize run Bitmap.step _ b = r at hrel
  cases hrel with
  | some hrel => exact congrArg some (hrel.1.trans hout)

end refinement

/-! ## The free map of a volume -/

theorem firstSet_eq {map : ℕ → Bool} {k : ℕ} (hk : map k = true) : ∀ {n i : ℕ}, i ≤ k → k < i + n →
    (∀ j, i ≤ j → j < k → map j = false) → Sfs.firstSet map i n = some k
  | 0, _, hle, hlt, _ => absurd hlt (by omega)
  | n + 1, i, hle, hlt, hlow => by
    unfold Sfs.firstSet
    by_cases hi : i = k
    · rw [if_pos (hi ▸ hk), hi]
    · rw [if_neg (by simp [hlow i le_rfl (by omega)])]
      exact firstSet_eq hk (by omega) (by omega) fun j hj => hlow j (by omega)

theorem firstSet_eq_none {map : ℕ → Bool} (hno : ∀ j, map j = false) : ∀ n i : ℕ, Sfs.firstSet map i n = none
  | 0, _ => rfl
  | n + 1, i => by
    unfold Sfs.firstSet
    rw [if_neg (by simp [hno])]
    exact firstSet_eq_none hno n (i + 1)

/-- **`bitmap_alloc` is the scan of the free map.** -/
theorem Rep.bitmapAlloc_firstSet {b : Bitmap} {s : Finset ℕ} (h : b.Rep s) :
    ∃ ret index b', b.bitmapAlloc = some (ret, index, b') ∧
      index.map UInt32.toNat = Sfs.firstSet (bit b.map) 0 b.nbits.toNat := by
  obtain ⟨hempty, hsome⟩ := h.allocLoop 0 (by simp)
  by_cases hs : s.Nonempty
  · obtain ⟨index, b', hrun, hindex, -⟩ := hsome hs
    have hmin := s.min'_mem hs
    refine ⟨0, some index, b', hrun, ?_⟩
    rw [firstSet_eq ((h.mem _).mpr hmin) (Nat.zero_le _) (by simpa using h.bound _ hmin) fun j _ hj => ?_]
    · exact congrArg some hindex
    · by_contra hset
      rw [Bool.not_eq_false, h.mem] at hset
      exact absurd (s.min'_le j hset) (Nat.not_le.mpr hj)
  · have h0 := Finset.not_nonempty_iff_eq_empty.mp hs
    refine ⟨-E_NO_MEM, none, b, hempty h0, ?_⟩
    rw [firstSet_eq_none fun j => ?_]
    · rfl
    · by_contra hset
      rw [Bool.not_eq_false, h.mem, h0] at hset
      simp at hset

end Bitmap

end Ucore
