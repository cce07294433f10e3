import Ucore.Mm.PageMap

/-!
# Ranges that wrap

`addr + len` is a sum of machine words, and the check `USER_ACCESS` sees only the rounded ends.  A
sum that wraps to a place between the page of `addr` and `addr` itself is rounded up to the end of
that page, so the call handles one page and reports success (`Wraps`).

* `getUnmappedArea`, `doMmap` — reference models of `get_unmapped_area` and `do_mmap`.
* `range_cases` — the check passes for ranges of user space, and for those that wrap so.
* `ranges_covered_iff` — when a call that returns `0` has acted on the whole range.
-/

namespace Ucore

def MMAP_WRITE : UInt32 := 0x00000100

def MMAP_STACK : UInt32 := 0x00000200

namespace Mm

open RbTree

/-- The loop of `get_unmapped_area`, from the last VMA to the first. -/
def unmappedLoop (mm : Mm) (len : ℕ) : List ℕ → ℕ → Option ℕ
  | [], start => some (if start ≥ USERBASE then start else 0)
  | v :: vs, start => do
    let x ← mm.vmas v
    if start ≥ x.vmEnd then some start
    else if wadd start len > x.vmStart then
      if len ≥ x.vmStart then some 0 else unmappedLoop mm len vs (x.vmStart - len)
    else unmappedLoop mm len vs start

/-- `get_unmapped_area`. -/
def getUnmappedArea (mm : Mm) (len : ℕ) : Option ℕ :=
  if len = 0 ∨ len > USERTOP then some 0
  else unmappedLoop mm len mm.mmapList.reverse (USERTOP - len)

/-- The flags of a VMA that `do_mmap` makes. -/
def mmapVmFlags (mmapFlags : UInt32) : UInt32 :=
  VM_READ ||| (if mmapFlags &&& MMAP_WRITE ≠ 0 then VM_WRITE else 0) |||
    (if mmapFlags &&& MMAP_STACK ≠ 0 then VM_STACK else 0)

/-- `do_mmap`; `word` is what the user memory at `addrStore` holds.  The result has the return
value and what is stored there. -/
def doMmap (addrStore word len : ℕ) (mmapFlags : UInt32) (a : Option ℕ)
    (mem : ℕ → Option (RbTree ℕ)) (mm : Mm) : Option (Int × Option ℕ × Mm) :=
  if addrStore = 0 ∨ len = 0 then some (-E_INVAL, none, mm)
  else do
    let (ok, mm) ← mm.userMemCheck addrStore 4 true
    if ¬ ok then some (-E_INVAL, none, mm)
    else
      let start := rounddown word
      let stop := roundup (wadd word len)
      let len := (stop + 2 ^ 32 - start) % 2 ^ 32
      let addr ← if start = 0 then mm.getUnmappedArea len else some start
      if addr = 0 then some (-E_NO_MEM, none, mm)
      else do
        let (ret, _, mm) ← mm.mmMap addr len (mmapVmFlags mmapFlags) a mem
        return (ret, if ret = 0 then some addr else none, mm)

/-! ## The check of a range -/

/-- The sum wraps, and ends between the page of `addr` and `addr`. -/
def Wraps (addr len : ℕ) : Prop := 2 ^ 32 + rounddown addr < addr + len

/-- The page of `addr` is in user space. -/
def UserPage (addr : ℕ) : Prop := USERBASE ≤ rounddown addr ∧ rounddown addr + PGSIZE ≤ USERTOP

instance (addr len : ℕ) : Decidable (Wraps addr len) := inferInstanceAs (Decidable (_ < _))

instance (addr : ℕ) : Decidable (UserPage addr) := inferInstanceAs (Decidable (_ ∧ _))

variable {mm mm' mm₁ : Mm} {addr len start stop u v : ℕ} {a b vma : Option ℕ} {flags : UInt32}
  {mem : ℕ → Option (RbTree ℕ)} {ret : Int} {effects : List VmEffect}

/-- The rounded range passes the check only if the range is in user space, or wraps on a user
page. -/
theorem range_cases (haddr : addr < 2 ^ 32) (hlen : len < 2 ^ 32)
    (hacc : USER_ACCESS (rounddown addr) (roundup (wadd addr len))) :
    addr + len ≤ USERTOP ∧ addr + len ≤ roundup (wadd addr len) ∨ Wraps addr len ∧ UserPage addr := by
  unfold USER_ACCESS UserPage Wraps rounddown roundup rounddown wadd USERBASE USERTOP PGSIZE at *
  omega

/-- A range that wraps on a user page passes the check. -/
theorem Wraps.access (hlen : len < 2 ^ 32) (hwrap : Wraps addr len)
    (hpage : UserPage addr) : USER_ACCESS (rounddown addr) (roundup (wadd addr len)) ∧
      roundup (wadd addr len) = rounddown addr + PGSIZE := by
  unfold USER_ACCESS UserPage Wraps rounddown roundup rounddown wadd USERBASE USERTOP PGSIZE at *
  omega

theorem Wraps.above (hwrap : Wraps addr len) : ¬ addr + len ≤ USERTOP := by
  unfold Wraps at hwrap
  unfold USERTOP
  omega

theorem rounddown_le (addr : ℕ) : rounddown addr ≤ addr := Nat.sub_le ..

/-! ## `mm_map` -/

/-- The bytes of the range are in one area that takes in nothing that was covered before. -/
def NewArea (mm mm' : Mm) (start stop : ℕ) : Prop :=
  ∃ v ∈ mm'.mmapList, (∀ b, (mm'.vma v).Has b → ∀ fl, ¬ mm.Covers b fl) ∧
    ∀ b, start ≤ b → b < stop → (mm'.vma v).Has b

theorem kmalloc_free (hv : mm.vmas v = none) : mm.kmalloc (some v) = some v := by
  simp [kmalloc, hv]

/-- With memory for it, the new VMA is made. -/
theorem createInsert_some (hk : mm.kmalloc a = some v)
    (hrun : mm.createInsert start stop flags a mem = some (vma, mm')) : vma = some v := by
  unfold createInsert vmaCreate at hrun
  rw [hk] at hrun
  obtain ⟨mm₁, -, hres⟩ := Option.bind_eq_some_iff.mp hrun
  cases hres
  rfl

theorem NewArea.mono {lo hi : ℕ} (h : NewArea mm mm' start stop) (hlo : start ≤ lo) (hhi : hi ≤ stop) :
    NewArea mm mm' lo hi := by
  obtain ⟨v, hv, hfresh, hin⟩ := h
  exact ⟨v, hv, hfresh, fun b hb hb' => hin b (by omega) (by omega)⟩

/-- `mm_map` returned `0`: the rounded range was free, and is the new area. -/
theorem Inv.mmMap_area (h : Inv mm) (hrun : mm.mmMap addr len flags a mem = some (0, vma, mm')) :
    USER_ACCESS (rounddown addr) (roundup (wadd addr len)) ∧
      mm.Clear (rounddown addr) (roundup (wadd addr len)) ∧
      NewArea mm mm' (rounddown addr) (roundup (wadd addr len)) := by
  obtain ⟨ret, w, mm₂, hrun', -, -, hnone, hnew⟩ := h.mmMap_spec addr len flags a mem
  cases hrun.symm.trans hrun'
  have hok : ¬ ((0 : Int) = -E_INVAL) := by decide
  rw [(h.mmMap_inval hrun).2, not_or, not_not, not_not] at hok
  refine ⟨hok.1, hok.2, ?_⟩
  cases hv : vma with
  | none => exact absurd rfl (hnone hv).1
  | some v =>
    obtain ⟨hmem, hfresh, -, hval, -⟩ := hnew v hv
    refine ⟨v, hmem, hfresh, fun b hlo hhi => ?_⟩
    rw [hval]
    exact ⟨hlo, hhi⟩

/-- With memory for a VMA, `mm_map` of a free range of user space returns `0`. -/
theorem Inv.mmMap_returns (h : Inv mm) (hk : mm.kmalloc a = some v)
    (hacc : USER_ACCESS (rounddown addr) (roundup (wadd addr len)))
    (hclear : mm.Clear (rounddown addr) (roundup (wadd addr len))) :
    ∃ vma mm', mm.mmMap addr len flags a mem = some (0, vma, mm') := by
  obtain ⟨ret, w, mm', hrun, -⟩ := h.mmMap_spec addr len flags a mem
  refine ⟨w, mm', ?_⟩
  have hrun' := hrun
  obtain ⟨meets, hmeets, hiff⟩ := h.findVma_meets (rounddown addr) (roundup (wadd addr len))
  simp only [mmMap, if_neg (not_not.mpr hacc), h.findVma_spec, Option.bind_eq_bind, Option.bind_some,
    hmeets] at hrun'
  cases meets with
  | true =>
    obtain ⟨v, hv, hlt⟩ := hiff.mp rfl
    obtain ⟨hmem, habove⟩ := firstAbove_mem hv
    have hv := hclear v hmem
    omega
  | false =>
    obtain ⟨⟨w', mm₁⟩, hcreate, hres⟩ := Option.bind_eq_some_iff.mp hrun'
    have hk' : (mm.touched (rounddown addr)).kmalloc a = some v := by
      unfold kmalloc at hk ⊢
      rw [touched_vmas]
      exact hk
    cases createInsert_some hk' hcreate
    cases hres
    exact hrun

/-- The page of an address is free iff no VMA meets it. -/
theorem Inv.clear_page (h : Inv mm) (addr : ℕ) :
    mm.Clear (rounddown addr) (rounddown addr + PGSIZE) ↔ ∀ fl, ¬ mm.Covers addr fl := by
  have hal := rounddown_aligned addr
  constructor
  · rintro hc fl ⟨v, hv, hhas, -⟩
    have hv := hc v hv
    unfold Vma.Has at hhas
    unfold rounddown PGSIZE at hv
    omega
  · intro hno v hv
    by_contra hmeets
    refine hno _ ⟨v, hv, ?_, rfl⟩
    obtain ⟨k, hk⟩ := (h.ok hv).startAligned
    obtain ⟨j, hj⟩ := (h.ok hv).endAligned
    unfold Vma.Has
    rw [hk, hj] at hmeets ⊢
    unfold rounddown PGSIZE at *
    omega

/-- **When a successful `mm_map` covers what was asked.** -/
theorem Inv.mmMap_covers_iff (h : Inv mm) (hfin : {v | mm.vmas v ≠ none}.Finite) (haddr : addr < 2 ^ 32)
    (hlen : len < 2 ^ 32) (flags : UInt32) :
    (∀ a mem vma mm', mm.mmMap addr len flags a mem = some (0, vma, mm') →
      addr + len ≤ USERTOP ∧ NewArea mm mm' addr (addr + len)) ↔
      ¬ (Wraps addr len ∧ UserPage addr ∧ ∀ fl, ¬ mm.Covers addr fl) := by
  constructor
  · rintro hall ⟨hwrap, hpage, hfree⟩
    obtain ⟨hacc, hstop⟩ := hwrap.access hlen hpage
    obtain ⟨v, hv⟩ := hfin.infinite_compl.nonempty
    have hv : mm.vmas v = none := not_not.mp hv
    have hmap : ∃ vma mm', mm.mmMap addr len flags (some v) (fun _ => none) = some (0, vma, mm') := by
      refine h.mmMap_returns (kmalloc_free hv) hacc ?_
      rw [hstop]
      exact (h.clear_page addr).mpr hfree
    obtain ⟨vma, mm', hrun⟩ := hmap
    exact hwrap.above (hall _ _ vma mm' hrun).1
  · intro hno a mem vma mm' hrun
    obtain ⟨hacc, hclear, harea⟩ := h.mmMap_area hrun
    rcases range_cases haddr hlen hacc with ⟨htop, hstop⟩ | ⟨hwrap, hpage⟩
    · exact ⟨htop, harea.mono (rounddown_le addr) hstop⟩
    · rw [(hwrap.access hlen hpage).2] at hclear
      exact absurd ⟨hwrap, hpage, (h.clear_page addr).mp hclear⟩ hno

/-! ## `mm_unmap` -/

/-- No object has become live. -/
def NoneBorn (mm mm' : Mm) : Prop := ∀ u, mm.vmas u = none → mm'.vmas u = none

theorem NoneBorn.of_vmas (h : mm'.vmas = mm.vmas) : NoneBorn mm mm' := fun u hu => by rw [h, hu]

theorem NoneBorn.trans (h : NoneBorn mm mm₁) (h' : NoneBorn mm₁ mm') : NoneBorn mm mm' :=
  fun u hu => h' u (h u hu)

theorem NoneBorn.setVma {x y : Vma} (hv : mm.vmas v = some x) : NoneBorn mm (mm.setVma v y) := by
  intro u hu
  have hne : u ≠ v := by rintro rfl; rw [hu] at hv; cases hv
  rw [setVma_vmas, if_neg hne, hu]

theorem vmaResize_noneBorn (hrun : mm.vmaResize v start stop = some mm') : NoneBorn mm mm' := by
  obtain ⟨x, hx, hrest⟩ := Option.bind_eq_some_iff.mp hrun
  obtain ⟨_, -, hrest⟩ := Option.bind_eq_some_iff.mp hrest
  obtain ⟨_, -, hres⟩ := Option.bind_eq_some_iff.mp hrest
  cases hres
  exact .setVma hx

theorem insertPlace_vmas {x : Vma} {prev : Option ℕ}
    (hrun : mm.insertPlace v x = some (prev, mm')) : mm'.vmas = mm.vmas := by
  unfold insertPlace at hrun
  split at hrun
  · obtain ⟨r, -, hres⟩ := Option.bind_eq_some_iff.mp hrun
    cases hres
    rfl
  · obtain ⟨r, -, hres⟩ := Option.bind_eq_some_iff.mp hrun
    cases hres
    rfl

theorem buildTree_vmas {m : Option (RbTree ℕ)} (hrun : buildTree m mm = some mm') :
    mm'.vmas = mm.vmas := by
  unfold buildTree at hrun
  split at hrun
  · split at hrun
    · obtain ⟨t, -, hres⟩ := Option.bind_eq_some_iff.mp hrun
      cases hres
      rfl
    · cases hrun
      rfl
  · cases hrun
    rfl

theorem insertVmaStruct_noneBorn {m : Option (RbTree ℕ)} (hrun : mm.insertVmaStruct m v = some mm') :
    NoneBorn mm mm' := by
  obtain ⟨x, hx, hrest⟩ := Option.bind_eq_some_iff.mp hrun
  obtain ⟨_, -, hrest⟩ := Option.bind_eq_some_iff.mp hrest
  obtain ⟨⟨prev, mm₁⟩, hplace, hrest⟩ := Option.bind_eq_some_iff.mp hrest
  obtain ⟨_, -, hrest⟩ := Option.bind_eq_some_iff.mp hrest
  obtain ⟨_, -, hbuild⟩ := Option.bind_eq_some_iff.mp hrest
  have hvmas := insertPlace_vmas hplace
  have hset : NoneBorn mm₁ (mm₁.setVma v { x with vmMm := some mm₁.self }) := by
    refine .setVma (x := x) ?_
    rw [hvmas, hx]
  dsimp only at hbuild
  have hbuilt := buildTree_vmas hbuild
  exact (NoneBorn.of_vmas hvmas).trans (hset.trans (.of_vmas hbuilt))

theorem removeVmaStruct_vmas (hrun : mm.removeVmaStruct v = some mm') : mm'.vmas = mm.vmas := by
  obtain ⟨x, -, hrest⟩ := Option.bind_eq_some_iff.mp hrun
  obtain ⟨_, -, hrest⟩ := Option.bind_eq_some_iff.mp hrest
  obtain ⟨t, -, hres⟩ := Option.bind_eq_some_iff.mp hrest
  cases hres
  rfl

theorem collect_vmas (stop : ℕ) : ∀ (fuel v : ℕ) (free : List ℕ) (mm : Mm) {r : List ℕ × Mm},
    collect stop fuel v free mm = some r → r.2.vmas = mm.vmas
  | 0, _, _, _, _, hrun => by cases hrun
  | fuel + 1, v, free, mm, r, hrun => by
    obtain ⟨x, -, hrest⟩ := Option.bind_eq_some_iff.mp hrun
    split at hrest
    · obtain ⟨mm₁, hrem, hrest⟩ := Option.bind_eq_some_iff.mp hrest
      have hvmas := removeVmaStruct_vmas hrem
      cases hnext : listNext mm.mmapList (some v) with
      | none =>
        rw [hnext] at hrest
        cases hrest
        exact hvmas
      | some next =>
        rw [hnext] at hrest
        exact (collect_vmas stop fuel next _ mm₁ hrest).trans hvmas
    · cases hrest
      rfl

theorem vmaDestroy_noneBorn {r : List VmEffect × Mm} (hrun : mm.vmaDestroy v = some r) :
    NoneBorn mm r.2 := by
  obtain ⟨x, -, hres⟩ := Option.bind_eq_some_iff.mp hrun
  cases hres
  intro u hu
  by_cases huv : u = v
  · simp [huv]
  · simp [huv, hu]

theorem release_noneBorn {r : List VmEffect × Mm} (hrun : mm.release start stop mem v = some r) :
    NoneBorn mm r.2 := by
  obtain ⟨x, -, hrest⟩ := Option.bind_eq_some_iff.mp hrun
  have hput : ∀ {lo hi : ℕ} {effects : List VmEffect},
      (do let mm ← mm.vmaResize v lo hi
          let mm ← mm.insertVmaStruct (mem v) v
          return (effects, mm)) = some r → NoneBorn mm r.2 := by
    intro lo hi effects hput
    obtain ⟨mm₁, hres, hrest⟩ := Option.bind_eq_some_iff.mp hput
    obtain ⟨mm₂, hins, hrest⟩ := Option.bind_eq_some_iff.mp hrest
    cases hrest
    exact (vmaResize_noneBorn hres).trans (insertVmaStruct_noneBorn hins)
  split at hrest
  · exact hput hrest
  · split at hrest
    · exact hput hrest
    · obtain ⟨r', hdestroy, hres⟩ := Option.bind_eq_some_iff.mp hrest
      cases hres
      have hborn : NoneBorn mm r'.2 := vmaDestroy_noneBorn hdestroy
      exact hborn

theorem releaseAll_noneBorn (start stop : ℕ) : ∀ (free : List ℕ) (mm : Mm) {r : List VmEffect × Mm},
    mm.releaseAll start stop mem free = some r → NoneBorn mm r.2
  | [], mm, r, hrun => by
    cases hrun
    exact fun _ hu => hu
  | v :: vs, mm, r, hrun => by
    obtain ⟨r₁, hrel, hrest⟩ := Option.bind_eq_some_iff.mp hrun
    obtain ⟨r₂, hall, hres⟩ := Option.bind_eq_some_iff.mp hrest
    cases hres
    have hborn : NoneBorn r₁.2 r₂.2 := releaseAll_noneBorn start stop vs r₁.2 hall
    exact (release_noneBorn hrel).trans hborn

/-- A split makes the only new object. -/
theorem unmapSplit_born {x : Vma}
    (hrun : mm.unmapSplit start stop a mem v x = some (ret, effects, mm')) :
    (ret = 0 ∨ mm.kmalloc a = none) ∧ ∀ u, a ≠ some u → mm.vmas u = none → mm'.vmas u = none := by
  unfold unmapSplit vmaCreate at hrun
  cases hk : mm.kmalloc a with
  | none =>
    rw [hk] at hrun
    cases hrun
    exact ⟨Or.inr rfl, fun _ _ hu => hu⟩
  | some n =>
    rw [hk] at hrun
    obtain ⟨mm₁, hres, hrest⟩ := Option.bind_eq_some_iff.mp hrun
    obtain ⟨mm₂, hins, hrest⟩ := Option.bind_eq_some_iff.mp hrest
    cases hrest
    refine ⟨Or.inl rfl, fun u hau hu => ?_⟩
    have hun : u ≠ n := by
      rintro rfl
      exact hau (Option.filter_eq_some_iff.mp hk).1
    refine (vmaResize_noneBorn hres).trans (insertVmaStruct_noneBorn hins) u ?_
    rw [setVma_vmas, if_neg hun, hu]

theorem unmapVma_born (hrun : mm.unmapVma start stop a mem v = some (ret, effects, mm')) :
    (ret = 0 ∨ mm.kmalloc a = none) ∧ ∀ u, a ≠ some u → mm.vmas u = none → mm'.vmas u = none := by
  obtain ⟨x, hx, hrest⟩ := Option.bind_eq_some_iff.mp hrun
  split at hrest
  · exact unmapSplit_born hrest
  · obtain ⟨r, hcol, hrest⟩ := Option.bind_eq_some_iff.mp hrest
    obtain ⟨r', hrel, hres⟩ := Option.bind_eq_some_iff.mp hrest
    cases hres
    have hborn := (NoneBorn.of_vmas (collect_vmas stop _ v [] mm hcol)).trans
      (releaseAll_noneBorn start stop r.1 r.2 hrel)
    exact ⟨Or.inl rfl, fun u _ hu => hborn u hu⟩

/-- `mm_unmap` of user space fails only for want of memory, and makes at most the object it
allocates. -/
theorem Inv.mmUnmap_born (h : Inv mm)
    (hacc : USER_ACCESS (rounddown addr) (roundup (wadd addr len)))
    (hrun : mm.mmUnmap addr len a mem = some (ret, effects, mm')) :
    (ret = 0 ∨ mm.kmalloc a = none) ∧ ∀ u, a ≠ some u → mm.vmas u = none → mm'.vmas u = none := by
  obtain ⟨meets, hmeets, -⟩ := h.findVma_meets (rounddown addr) (roundup (wadd addr len))
  simp only [mmUnmap, if_neg (not_not.mpr hacc), h.findVma_spec, Option.bind_eq_bind, Option.bind_some,
    hmeets] at hrun
  have hsame : NoneBorn mm (mm.touched (rounddown addr)) := .of_vmas touched_vmas
  cases hfirst : mm.firstAbove (rounddown addr) mm.mmapList with
  | none =>
    rw [hfirst] at hrun
    cases hrun
    exact ⟨Or.inl rfl, fun u _ hu => hsame u hu⟩
  | some v =>
    rw [hfirst] at hrun
    cases meets with
    | false =>
      cases hrun
      exact ⟨Or.inl rfl, fun u _ hu => hsame u hu⟩
    | true =>
      obtain ⟨hret, hborn⟩ := unmapVma_born hrun
      refine ⟨hret.imp_right fun hk => ?_, fun u hau hu => hborn u hau (hsame u hu)⟩
      unfold kmalloc at hk ⊢
      rw [touched_vmas] at hk
      exact hk

/-- `mm_unmap` returned `0`: nothing in the rounded range is covered. -/
theorem Inv.mmUnmap_zero (h : Inv mm) (hrun : mm.mmUnmap addr len a mem = some (0, effects, mm')) :
    USER_ACCESS (rounddown addr) (roundup (wadd addr len)) ∧ Inv mm' ∧
      mm'.Clear (rounddown addr) (roundup (wadd addr len)) := by
  have hacc : USER_ACCESS (rounddown addr) (roundup (wadd addr len)) := by
    by_contra hno
    simp only [mmUnmap, if_pos hno] at hrun
    cases hrun
  obtain ⟨ret, effects', mm₂, hrun', hinv, hclear, -⟩ := h.mmUnmap_spec addr len a mem
  cases hrun.symm.trans hrun'
  exact ⟨hacc, hinv, hclear rfl⟩

/-- **When a successful `mm_unmap` has acted on what was asked.** -/
theorem Inv.mmUnmap_covers_iff (h : Inv mm) (hfin : {v | mm.vmas v ≠ none}.Finite)
    (haddr : addr < 2 ^ 32) (hlen : len < 2 ^ 32) :
    (∀ a mem effects mm', mm.mmUnmap addr len a mem = some (0, effects, mm') →
      addr + len ≤ USERTOP ∧ ∀ b, addr ≤ b → b < addr + len → ∀ fl, ¬ mm'.Covers b fl) ↔
      ¬ (Wraps addr len ∧ UserPage addr) := by
  constructor
  · rintro hall ⟨hwrap, hpage⟩
    obtain ⟨hacc, -⟩ := hwrap.access hlen hpage
    obtain ⟨v, hv⟩ := hfin.infinite_compl.nonempty
    have hk : mm.kmalloc (some v) = some v := kmalloc_free (not_not.mp hv)
    obtain ⟨ret, effects, mm', hrun, -⟩ := h.mmUnmap_spec addr len (some v) fun _ => none
    obtain ⟨hret, -⟩ := h.mmUnmap_born hacc hrun
    rw [hk] at hret
    cases hret.resolve_right nofun
    exact hwrap.above (hall _ _ _ _ hrun).1
  · intro hno a mem effects mm' hrun
    obtain ⟨hacc, -, hclear⟩ := h.mmUnmap_zero hrun
    obtain ⟨htop, hstop⟩ := (range_cases haddr hlen hacc).resolve_right hno
    refine ⟨htop, fun b hlo hhi fl => ?_⟩
    rintro ⟨v, hv, hhas, -⟩
    have hv := hclear v hv
    have hlow := rounddown_le addr
    unfold Vma.Has at hhas
    omega

/-! ## `mm_brk` -/

/-- The end of `mm_brk`, when it returns `0`, covers the range. -/
theorem Inv.brkExtend_covers (h : Inv mm) (hclear : mm.Clear start stop)
    (hacc : USER_ACCESS start stop) (hs : PGSIZE ∣ start) (he : PGSIZE ∣ stop)
    (hrun : mm.brkExtend start stop a mem = some (0, mm')) {b : ℕ} (hlo : start ≤ b)
    (hhi : b < stop) : mm'.Covers b (VM_READ ||| VM_WRITE) := by
  have hcreate : (mm.touched (start - 1)).brkCreate start stop a mem = some (0, mm') →
      mm'.Covers b (VM_READ ||| VM_WRITE) := by
    intro hcreate
    obtain ⟨vma, mm₁, hins, -, -, -, hnew⟩ := (h.touched (start - 1)).createInsert_spec hacc hs he
      (by rw [touched_mmapList, touched_vma]; exact hclear) (VM_READ ||| VM_WRITE) a mem
    unfold brkCreate at hcreate
    simp only [hins, Option.bind_eq_bind, Option.bind_some] at hcreate
    cases vma with
    | none => cases hcreate
    | some v =>
      cases hcreate
      obtain ⟨hmem, -, hval, -⟩ := hnew v rfl
      exact ⟨v, hmem, by rw [hval]; exact ⟨hlo, hhi⟩, by rw [hval]⟩
  unfold brkExtend at hrun
  rw [h.findVma_spec] at hrun
  simp only [Option.bind_eq_bind, Option.bind_some] at hrun
  cases hfirst : mm.firstAbove (start - 1) mm.mmapList with
  | none =>
    rw [hfirst] at hrun
    exact hcreate hrun
  | some v =>
    have hv := (firstAbove_mem hfirst).1
    have hm := h.member v hv
    rw [hfirst] at hrun
    simp only [touched_vmas, hm.live, Option.bind_some] at hrun
    split at hrun
    · rename_i hgrow
      obtain ⟨hend, hflags⟩ := hgrow
      have hne := hm.ok.nonempty
      cases hrun
      refine ⟨v, by rw [setVma_mmapList, touched_mmapList]; exact hv, ?_⟩
      rw [setVma_vma, if_pos rfl]
      exact ⟨⟨by show (mm.vma v).vmStart ≤ b; omega, hhi⟩, hflags⟩
    · exact hcreate hrun

/-- With memory for a VMA, the end of `mm_brk` returns `0`. -/
theorem Inv.brkExtend_returns (h : Inv mm) (hclear : mm.Clear start stop)
    (hacc : USER_ACCESS start stop) (hs : PGSIZE ∣ start) (he : PGSIZE ∣ stop)
    (hk : mm.kmalloc a = some v) (mem : ℕ → Option (RbTree ℕ)) :
    ∃ mm', mm.brkExtend start stop a mem = some (0, mm') := by
  have hcreate : ∃ mm', (mm.touched (start - 1)).brkCreate start stop a mem = some (0, mm') := by
    obtain ⟨vma, mm₁, hins, -⟩ := (h.touched (start - 1)).createInsert_spec hacc hs he
      (by rw [touched_mmapList, touched_vma]; exact hclear) (VM_READ ||| VM_WRITE) a mem
    have hk' : (mm.touched (start - 1)).kmalloc a = some v := by
      unfold kmalloc at hk ⊢
      rw [touched_vmas]
      exact hk
    cases createInsert_some hk' hins
    refine ⟨mm₁, ?_⟩
    unfold brkCreate
    rw [hins]
    rfl
  unfold brkExtend
  rw [h.findVma_spec]
  simp only [Option.bind_eq_bind, Option.bind_some]
  cases hfirst : mm.firstAbove (start - 1) mm.mmapList with
  | none => exact hcreate
  | some v =>
    simp only [touched_vmas, (h.member v (firstAbove_mem hfirst).1).live, Option.bind_some]
    split
    · exact ⟨_, rfl⟩
    · exact hcreate

/-- `mm_brk` rounds what its `mm_unmap` rounds again. -/
theorem brk_range (hacc : USER_ACCESS (rounddown addr) (roundup (wadd addr len))) :
    rounddown (rounddown addr) = rounddown addr ∧
      roundup (wadd (rounddown addr) (roundup (wadd addr len) - rounddown addr)) =
        roundup (wadd addr len) := by
  have hsum : wadd (rounddown addr) (roundup (wadd addr len) - rounddown addr) =
      roundup (wadd addr len) := by
    obtain ⟨-, hlt, htop⟩ := hacc
    unfold USERTOP at htop
    unfold wadd at *
    omega
  rw [hsum]
  exact ⟨rounddown_of_aligned (rounddown_aligned _),
    roundup_of_aligned (roundup_aligned _) hacc.2.2⟩

/-- **When a successful `mm_brk` covers what was asked.** -/
theorem Inv.mmBrk_covers_iff (h : Inv mm) (hfin : {v | mm.vmas v ≠ none}.Finite)
    (haddr : addr < 2 ^ 32) (hlen : len < 2 ^ 32) :
    (∀ a b mem effects mm', mm.mmBrk addr len a b mem = some (0, effects, mm') →
      addr + len ≤ USERTOP ∧
        ∀ c, addr ≤ c → c < addr + len → mm'.Covers c (VM_READ ||| VM_WRITE)) ↔
      ¬ (Wraps addr len ∧ UserPage addr) := by
  have hs := rounddown_aligned addr
  have he := roundup_aligned (wadd addr len)
  constructor
  · rintro hall ⟨hwrap, hpage⟩
    obtain ⟨hacc, -⟩ := hwrap.access hlen hpage
    obtain ⟨hlow, hhigh⟩ := brk_range hacc
    -- two objects that are not live, for the split and for the new VMA
    obtain ⟨v, hv⟩ := hfin.infinite_compl.nonempty
    obtain ⟨w, hw⟩ := (hfin.infinite_compl.sdiff (Set.finite_singleton v)).nonempty
    have hvw : some v ≠ some w := fun heq => hw.2 (Option.some.inj heq).symm
    obtain ⟨ret, effects, mm₁, hunmap, hinv, hclear, -⟩ := h.mmUnmap_spec (rounddown addr)
      (roundup (wadd addr len) - rounddown addr) (some v) fun _ => none
    obtain ⟨hret, hborn⟩ := h.mmUnmap_born (by rw [hlow, hhigh]; exact hacc) hunmap
    rw [kmalloc_free (not_not.mp hv)] at hret
    cases hret.resolve_right nofun
    have hclear := hclear rfl
    rw [hlow, hhigh] at hclear
    obtain ⟨mm', hext⟩ := hinv.brkExtend_returns hclear hacc hs he
      (kmalloc_free (hborn w hvw (not_not.mp hw.1))) fun _ => none
    refine hwrap.above (hall (some v) (some w) (fun _ => none) effects mm' ?_).1
    simp only [mmBrk, if_neg (not_not.mpr hacc), hunmap, Option.bind_eq_bind, Option.bind_some, hext]
    rfl
  · intro hno a b mem effects mm' hrun
    by_cases hacc : USER_ACCESS (rounddown addr) (roundup (wadd addr len))
    · obtain ⟨htop, hstop⟩ := (range_cases haddr hlen hacc).resolve_right hno
      obtain ⟨hlow, hhigh⟩ := brk_range hacc
      simp only [mmBrk, if_neg (not_not.mpr hacc)] at hrun
      obtain ⟨⟨ret, effects', mm₁⟩, hunmap, hrest⟩ := Option.bind_eq_some_iff.mp hrun
      dsimp only at hrest
      split at hrest
      · rename_i hne
        cases hrest
        exact absurd rfl hne
      · rename_i hzero
        cases not_not.mp hzero
        obtain ⟨-, hinv, hclear⟩ := h.mmUnmap_zero hunmap
        rw [hlow, hhigh] at hclear
        obtain ⟨⟨ret', mm₂⟩, hext, hres⟩ := Option.bind_eq_some_iff.mp hrest
        cases hres
        have hle := rounddown_le addr
        exact ⟨htop, fun c hlo hhi => hinv.brkExtend_covers hclear hacc hs he hext (by omega) (by omega)⟩
    · simp only [mmBrk, if_pos hacc] at hrun
      cases hrun

/-! ## `do_mmap` -/

/-- `user_mem_check` changes the cache only. -/
theorem Inv.userMemCheck_same {write : Bool} (h : Inv mm)
    (hrun : mm.userMemCheck addr len write = some (true, mm')) :
    Inv mm' ∧ mm'.vmas = mm.vmas ∧ mm'.mmapList = mm.mmapList := by
  unfold userMemCheck at hrun
  dsimp only at hrun
  split at hrun
  · cases hrun
  · obtain ⟨hinv, hvmas, hlist, -⟩ := Inv.userMemLoop_spec _ _ _ h hrun
    exact ⟨hinv, hvmas, hlist⟩

/-- The length from the rounded start to the rounded end. -/
def mmapLen (word len : ℕ) : ℕ := (roundup (wadd word len) + 2 ^ 32 - rounddown word) % 2 ^ 32

/-- The length that `do_mmap` hands on leads to the same ends. -/
theorem mmap_range (haddr : addr < 2 ^ 32) (len : ℕ) :
    rounddown (rounddown addr) = rounddown addr ∧
      roundup (wadd (rounddown addr) (mmapLen addr len)) = roundup (wadd addr len) := by
  unfold mmapLen rounddown roundup rounddown wadd PGSIZE
  omega

theorem Covers.congr {c : ℕ} {fl : UInt32} (hvmas : mm'.vmas = mm.vmas)
    (hlist : mm'.mmapList = mm.mmapList) : mm'.Covers c fl ↔ mm.Covers c fl :=
  covers_congr hlist fun u _ => vma_congr (congrFun hvmas u)

/-- `do_mmap` of a page address other than zero, once the address has been read. -/
theorem doMmap_eq {addrStore word : ℕ} {mmapFlags : UInt32} (hstore : addrStore ≠ 0) (hlen : len ≠ 0)
    (hcheck : mm.userMemCheck addrStore 4 true = some (true, mm₁)) (hpage : rounddown word ≠ 0) :
    mm.doMmap addrStore word len mmapFlags a mem =
      (mm₁.mmMap (rounddown word) (mmapLen word len) (mmapVmFlags mmapFlags) a mem).map fun r =>
        (r.1, if r.1 = 0 then some (rounddown word) else none, r.2.2) := by
  unfold doMmap
  rw [if_neg (by omega), hcheck]
  simp only [Option.bind_eq_bind, Option.bind_some, not_true_eq_false, if_false, hpage]
  cases hmap : mm₁.mmMap (rounddown word) (mmapLen word len) (mmapVmFlags mmapFlags) a mem with
  | none =>
    unfold mmapLen at hmap
    rw [hmap]
    rfl
  | some r =>
    unfold mmapLen at hmap
    rw [hmap]
    rfl

/-- A `do_mmap` that returns `0` has read the address. -/
theorem Inv.doMmap_zero {addrStore word : ℕ} {mmapFlags : UInt32} {stored : Option ℕ} (h : Inv mm)
    (hrun : mm.doMmap addrStore word len mmapFlags a mem = some (0, stored, mm')) :
    addrStore ≠ 0 ∧ len ≠ 0 ∧ ∃ mm₁, mm.userMemCheck addrStore 4 true = some (true, mm₁) := by
  unfold doMmap at hrun
  split at hrun
  · cases hrun
  rename_i hargs
  rw [not_or] at hargs
  obtain ⟨ok, mm₁, hcheck⟩ := h.userMemCheck_total addrStore 4 true
  refine ⟨hargs.1, hargs.2, ?_⟩
  cases ok with
  | true => exact ⟨mm₁, hcheck⟩
  | false =>
    rw [hcheck] at hrun
    cases hrun

/-- **When a successful `do_mmap` covers what was asked.** -/
theorem Inv.doMmap_covers_iff {addrStore word : ℕ} (h : Inv mm)
    (hfin : {v | mm.vmas v ≠ none}.Finite) (haddr : word < 2 ^ 32) (hlen : len < 2 ^ 32)
    (hpage : rounddown word ≠ 0) (mmapFlags : UInt32) :
    (∀ a mem stored mm', mm.doMmap addrStore word len mmapFlags a mem = some (0, stored, mm') →
      word + len ≤ USERTOP ∧ NewArea mm mm' word (word + len)) ↔
      ¬ (Wraps word len ∧ UserPage word ∧ (∀ fl, ¬ mm.Covers word fl) ∧ addrStore ≠ 0 ∧
        (mm.userMemCheck addrStore 4 true).map Prod.fst = some true) := by
  obtain ⟨hlow, hhigh⟩ := mmap_range haddr len
  constructor
  · rintro hall ⟨hwrap, hup, hfree, hstore, hcheck⟩
    obtain ⟨⟨ok, mm₁⟩, hcheck, hok⟩ := Option.map_eq_some_iff.mp hcheck
    cases hok
    obtain ⟨hinv₁, hvmas, hlist⟩ := h.userMemCheck_same hcheck
    obtain ⟨hacc, hstop⟩ := hwrap.access hlen hup
    obtain ⟨v, hv⟩ := hfin.infinite_compl.nonempty
    have hfree₁ : mm₁.vmas v = none := by rw [hvmas]; exact not_not.mp hv
    have hclear : mm₁.Clear (rounddown word) (rounddown word + PGSIZE) :=
      (hinv₁.clear_page word).mpr fun fl hc => hfree fl ((Covers.congr hvmas hlist).mp hc)
    have hne : len ≠ 0 := by
      rintro rfl
      unfold Wraps at hwrap
      omega
    have hmap : ∃ vma mm', mm₁.mmMap (rounddown word) (mmapLen word len) (mmapVmFlags mmapFlags)
        (some v) (fun _ => none) = some (0, vma, mm') := by
      refine hinv₁.mmMap_returns (kmalloc_free hfree₁) ?_ ?_
      · rw [hlow, hhigh]
        exact hacc
      · rw [hlow, hhigh, hstop]
        exact hclear
    obtain ⟨vma, mm', hmap⟩ := hmap
    refine hwrap.above (hall (some v) (fun _ => none) (some (rounddown word)) mm' ?_).1
    rw [doMmap_eq hstore hne hcheck hpage, hmap]
    rfl
  · intro hno a mem stored mm' hrun
    obtain ⟨hstore, hne, mm₁, hcheck⟩ := h.doMmap_zero hrun
    obtain ⟨hinv₁, hvmas, hlist⟩ := h.userMemCheck_same hcheck
    rw [doMmap_eq hstore hne hcheck hpage] at hrun
    obtain ⟨⟨ret, vma, mm₂⟩, hmap, hres⟩ := Option.map_eq_some_iff.mp hrun
    cases hres
    obtain ⟨hacc, hclear, v, hv, hfresh, hin⟩ := hinv₁.mmMap_area hmap
    rw [hlow, hhigh] at hacc hclear hin
    rcases range_cases haddr hlen hacc with ⟨htop, hstop⟩ | ⟨hwrap, hup⟩
    · have hle := rounddown_le word
      refine ⟨htop, v, hv, fun b hb fl hc => ?_, fun b hlo hhi => hin b (by omega) (by omega)⟩
      exact hfresh b hb fl ((Covers.congr hvmas hlist).mpr hc)
    · rw [(hwrap.access hlen hup).2] at hclear
      refine absurd ⟨hwrap, hup, fun fl hc => ?_, hstore, by rw [hcheck]; rfl⟩ hno
      exact (hinv₁.clear_page word).mp hclear fl ((Covers.congr hvmas hlist).mpr hc)

/-- **When a call that returns `0` has acted on the whole range.**  It has, unless the range wraps
onto its own first page and that is a user page (which `mm_map` and `do_mmap` find free). -/
theorem ranges_covered_iff (mm : Mm) (h : Inv mm) (hfin : {v | mm.vmas v ≠ none}.Finite)
    (addr len : ℕ) (haddr : addr < 2 ^ 32) (hlen : len < 2 ^ 32) :
    (∀ flags, (∀ a mem vma mm', mm.mmMap addr len flags a mem = some (0, vma, mm') →
        addr + len ≤ USERTOP ∧ NewArea mm mm' addr (addr + len)) ↔
      ¬ (Wraps addr len ∧ UserPage addr ∧ ∀ fl, ¬ mm.Covers addr fl)) ∧
    (∀ addrStore mmapFlags, rounddown addr ≠ 0 →
      ((∀ a mem stored mm', mm.doMmap addrStore addr len mmapFlags a mem = some (0, stored, mm') →
        addr + len ≤ USERTOP ∧ NewArea mm mm' addr (addr + len)) ↔
      ¬ (Wraps addr len ∧ UserPage addr ∧ (∀ fl, ¬ mm.Covers addr fl) ∧ addrStore ≠ 0 ∧
        (mm.userMemCheck addrStore 4 true).map Prod.fst = some true))) ∧
    ((∀ a mem effects mm', mm.mmUnmap addr len a mem = some (0, effects, mm') →
        addr + len ≤ USERTOP ∧ ∀ b, addr ≤ b → b < addr + len → ∀ fl, ¬ mm'.Covers b fl) ↔
      ¬ (Wraps addr len ∧ UserPage addr)) ∧
    ((∀ a b mem effects mm', mm.mmBrk addr len a b mem = some (0, effects, mm') →
        addr + len ≤ USERTOP ∧
          ∀ c, addr ≤ c → c < addr + len → mm'.Covers c (VM_READ ||| VM_WRITE)) ↔
      ¬ (Wraps addr len ∧ UserPage addr)) :=
  ⟨fun flags => h.mmMap_covers_iff hfin haddr hlen flags,
    fun _ mmapFlags hpage => h.doMmap_covers_iff hfin haddr hlen hpage mmapFlags,
    h.mmUnmap_covers_iff hfin haddr hlen, h.mmBrk_covers_iff hfin haddr hlen⟩

/-- A request for almost four gigabytes, from the middle of the first user page, maps this page. -/
theorem ranges_covered_wrapped :
    (∃ vma mm', stackMm.mmMap (USERBASE + 0x100) (2 ^ 32 - 1) VM_READ (some 1) (fun _ => none) =
      some (0, vma, mm')) ∧
    (∃ effects mm', stackMm.mmUnmap (USERBASE + 0x100) (2 ^ 32 - 1) none (fun _ => none) =
      some (0, effects, mm')) ∧
    ¬ (USERBASE + 0x100 + (2 ^ 32 - 1) ≤ USERTOP) :=
  ⟨⟨some 1, _, rfl⟩, ⟨[], _, rfl⟩, by decide⟩

/-- Two pages at the bottom of user space are asked for, and mapped. -/
theorem ranges_covered_iff_stack : ¬ Wraps USERBASE 0x2000 ∧
    ∀ a mem vma mm', stackMm.mmMap USERBASE 0x2000 VM_READ a mem = some (0, vma, mm') →
      USERBASE + 0x2000 ≤ USERTOP ∧ NewArea stackMm mm' USERBASE (USERBASE + 0x2000) := by
  have hfin : {v | stackMm.vmas v ≠ none}.Finite := by
    refine (Set.finite_singleton 0).subset fun v hv => ?_
    by_contra hne
    exact hv (if_neg hne)
  have hmap := (ranges_covered_iff stackMm stackMm_inv hfin USERBASE 0x2000 (by decide)
    (by decide)).1 VM_READ
  exact ⟨by decide, hmap.mpr fun hwrap => absurd hwrap.1 (by decide)⟩

end Mm

end Ucore
