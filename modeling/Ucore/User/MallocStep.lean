import Ucore.User.MallocInv

/-!
# The user's heap: `malloc_locked` and its extensions

* `Ok.take_spec` — a block, or its front, is taken out of the free list;
* `Extended`, `Given`, `Ok.morecore_cases` — an extension is refused, or a new block goes through `free_locked`.
-/

namespace Ucore.Malloc

open SortedLoop (Path Loop Ascends Gap)

variable {base a b p q fuel nu : ℕ} {S S' : ℕ → Prop} {c live : List ℕ} {h h' h₁ : Heap} {call : Call}

/-! ## Taking a block -/

/-- The block at `p` is cut after `k` units. -/
theorem Tiled.split {k : ℕ} (h : Tiled base S h') (h₁ : Heap) (hp : S p) (hne : p ≠ base) (hk : 0 < k)
    (hkp : k < (h'.hd p).size) (hkern : h₁.kern = h'.kern) (hmem : ∀ x, h'.mem x ≠ none → h₁.mem x ≠ none)
    (hfront : (h₁.hd p).size = k ∧ (h₁.hd p).type = (h'.hd p).type)
    (hback : (h₁.hd (p + k * HEADER)).size = (h'.hd p).size - k ∧
      (h₁.hd (p + k * HEADER)).type = (h'.hd p).type)
    (hsame : ∀ x, S x → x ≠ p → (h₁.hd x).size = (h'.hd x).size ∧ (h₁.hd x).type = (h'.hd x).type) :
    Tiled base (fun x => S x ∨ x = p + k * HEADER) h₁ := by
  have hlp := h'.len_of_ne hne
  have hkpos : 0 < k * HEADER := Nat.mul_pos hk (by decide)
  have hkle : k * HEADER < h'.len base p := by
    rw [hlp]
    exact Nat.mul_lt_mul_of_pos_right hkp (by decide)
  have hnew : p + k * HEADER ≠ base := fun heq => by
    have hlb := h'.len_base base
    unfold HEADER at *
    exact hne (h.blocks.eq_of_mem hp h.base_mem (x := base) (by omega) (by omega) (Nat.le_refl _) (by omega))
  have hlf : h₁.len base p = k * HEADER := by rw [h₁.len_of_ne hne, hfront.1]
  have hlb : h₁.len base (p + k * HEADER) = h'.len base p - k * HEADER := by
    rw [h₁.len_of_ne hnew, hback.1, hlp, Nat.sub_mul]
  have hls : ∀ x, S x → x ≠ p → h₁.len base x = h'.len base x := fun x hx hxp => by
    unfold Heap.len
    rw [(hsame x hx hxp).1]
  refine ⟨.inl h.base_mem, (hsame base h.base_mem hne.symm).1.trans h.base_size,
    (hsame base h.base_mem hne.symm).2.trans h.base_type, h.blocks.split hp hkpos hkle hlf hlb hls,
    fun x y hx hxy hyx => ?_, by rw [hkern]; exact h.kern⟩
  -- every address was in the block that is cut, or is where it was
  have howned : ∀ z, S z → z ≤ y → y < z + h'.len base z → (z = base ↔ x = base) →
      (h₁.hd x).type = (h'.hd z).type → h₁.Owned base x y := by
    intro z hz hzy hyz hiff htype
    obtain ⟨hm, hy⟩ := h.owned z y hz hzy hyz
    refine ⟨hmem y hm, ?_⟩
    rw [htype, hkern]
    simpa only [hiff] using hy
  rcases hx with hx | rfl
  · by_cases hxp : x = p
    · subst hxp
      rw [hlf] at hyx
      exact howned x hx hxy (by omega) Iff.rfl hfront.2
    · rw [hls x hx hxp] at hyx
      exact howned x hx hxy hyx Iff.rfl (hsame x hx hxp).2
  · rw [hlb] at hyx
    exact howned p hp (by omega) (by omega) (by simp [hne, hnew]) hback.2

theorem units_pos (size : ℕ) : 0 < units size := Nat.succ_pos _

theorem Heap.take_exact (hpc : h.mem call.p ≠ none) (hprev : h.mem call.prevp ≠ none)
    (hsize : (h.hd call.p).size = call.nunits) :
    h.take call = some { h.put call.prevp { h.hd call.prevp with ptr := h.next call.p } with
      freep := some call.prevp } := by
  obtain ⟨x, hx⟩ := Option.ne_none_iff_exists'.mp hpc
  obtain ⟨y, hy⟩ := Option.ne_none_iff_exists'.mp hprev
  rw [Heap.hd_eq hx] at hsize
  have hnext : h.next call.p = x.ptr := congrArg Header.ptr (Heap.hd_eq hx)
  unfold Heap.take
  rw [hx, Option.bind_eq_bind, Option.bind_some, if_pos hsize, Heap.set_eq hy, Heap.hd_eq hy, hnext]
  rfl

/-- The heap where the block at `p` is cut after `k` units, and `prevp` is linked to the rest. -/
def Heap.cut (h : Heap) (prevp p k : ℕ) : Heap :=
  ((h.put prevp { h.hd prevp with ptr := p + k * HEADER }).put (p + k * HEADER)
    { h.hd p with size := (h.hd p).size - k }).put p { h.hd p with size := k }

theorem Heap.cut_front (h : Heap) (prevp p k : ℕ) : (h.cut prevp p k).hd p = { h.hd p with size := k } :=
  Heap.hd_put_self ..

theorem Heap.cut_back (h : Heap) (prevp : ℕ) {p k : ℕ} (hne : p + k * HEADER ≠ p) :
    (h.cut prevp p k).hd (p + k * HEADER) = { h.hd p with size := (h.hd p).size - k } :=
  (Heap.hd_put_of_ne _ _ hne).trans (Heap.hd_put_self ..)

theorem Heap.cut_of_ne (h : Heap) (prevp : ℕ) {p k x : ℕ} (hp : x ≠ p) (hnp : x ≠ p + k * HEADER) :
    (h.cut prevp p k).hd x = (h.put prevp { h.hd prevp with ptr := p + k * HEADER }).hd x :=
  (Heap.hd_put_of_ne _ _ hp).trans (Heap.hd_put_of_ne _ _ hnp)

/-- A new link leaves the block as it is. -/
theorem Heap.relink_same (h : Heap) (q r x : ℕ) : ((h.put q { h.hd q with ptr := r }).hd x).size = (h.hd x).size ∧
    ((h.put q { h.hd q with ptr := r }).hd x).type = (h.hd x).type := by
  by_cases hx : x = q
  · rw [hx, Heap.hd_put_self]
    exact ⟨rfl, rfl⟩
  · rw [Heap.hd_put_of_ne _ _ hx]
    exact ⟨rfl, rfl⟩

theorem Heap.take_split (hpc : h.mem call.p ≠ none) (hprev : h.mem call.prevp ≠ none)
    (hnp : h.mem (call.p + call.nunits * HEADER) ≠ none) (hlt : call.p + call.nunits * HEADER < WORD)
    (hsize : (h.hd call.p).size ≠ call.nunits) (htype : (h.hd call.p).type = call.type)
    (hne : call.p ≠ call.prevp) (hne' : call.p ≠ call.p + call.nunits * HEADER) :
    h.take call = some { h.cut call.prevp call.p call.nunits with freep := some call.prevp } := by
  obtain ⟨x, hx⟩ := Option.ne_none_iff_exists'.mp hpc
  obtain ⟨y, hy⟩ := Option.ne_none_iff_exists'.mp hprev
  unfold Heap.take Heap.cut
  rw [Heap.hd_eq hx] at hsize htype
  rw [hx, Heap.hd_eq hx, Heap.hd_eq hy, Option.bind_eq_bind, Option.bind_some, if_neg hsize,
    Nat.mod_eq_of_lt hlt]
  simp only [Heap.set_eq hy, Option.bind_eq_bind, Option.bind_some]
  obtain ⟨z, hz⟩ := Option.ne_none_iff_exists'.mp
    (Heap.put_ne_none h call.prevp { y with ptr := call.p + call.nunits * HEADER } hnp)
  rw [Heap.put_mem_of_ne _ _ hne, hx, Option.bind_some, Heap.set_eq hz, Option.bind_some,
    Heap.set_eq (x := x) (by rw [Heap.put_mem_of_ne _ _ hne', Heap.put_mem_of_ne _ _ hne, hx]), ← htype]
  rfl

/-- What `malloc_locked` has taken. -/
structure Taken (h : Heap) (call : Call) (h' : Heap) (c' : List ℕ) : Prop where
  freep : h'.freep = some call.prevp
  mem : call.prevp ∈ c'
  size : (h'.hd call.p).size = call.nunits
  brk : h'.brk = h.brk
  kern : h'.kern = h.kern

section Take

variable {m : List ℕ}

/-- The whole block is taken. -/
theorem Ok.takeExact (h : Ok base c live h') (hc : c ~r (q :: p :: m)) (hpb : p ≠ base) :
    Ok base (q :: m) (p :: live) { h'.put q { h'.hd q with ptr := h'.next p } with freep := some q } := by
  have hloop := h.loop.isRotated hc
  have hasc := h.ascends.isRotated hc
  have hnodup := hasc.nodup
  rw [List.nodup_cons, List.nodup_cons] at hnodup
  have hmem : ∀ x, x ∈ c ↔ x = q ∨ x = p ∨ x ∈ m := fun x => by rw [hc.mem_iff, List.mem_cons, List.mem_cons]
  set h₁ : Heap := { h'.put q { h'.hd q with ptr := h'.next p } with freep := some q } with hh₁
  have hq : h₁.hd q = { h'.hd q with ptr := h'.next p } := h'.hd_put_self ..
  have hne : ∀ x, x ≠ q → h₁.hd x = h'.hd x := fun x hx => h'.hd_put_of_ne _ hx
  refine ⟨h.tiled.congr (fun x => ?_) rfl (fun x hx => h'.put_ne_none _ _ hx) fun x _ => h'.relink_same q _ x,
    hloop.remove ?_ fun x hx => ?_, hasc.remove, ?_, ?_, fun x hx hmem' => ?_⟩
  · simp only [hmem, List.mem_cons]
    tauto
  · unfold Heap.next
    rw [hq]
    rfl
  · unfold Heap.next
    rw [hne x fun heq => hnodup.1 (heq ▸ List.mem_cons_of_mem p hx)]
  · rcases (hmem base).mp h.base_mem with hb | hb | hb
    · rw [hb]
      exact List.mem_cons_self
    · exact absurd hb.symm hpb
    · exact List.mem_cons_of_mem q hb
  · exact List.nodup_cons.mpr ⟨fun hp => h.apart p hp ((hmem p).mpr (.inr (.inl rfl))), h.nodup⟩
  · rcases List.mem_cons.mp hx with rfl | hx
    · rcases List.mem_cons.mp hmem' with rfl | hmem'
      · exact hnodup.1 List.mem_cons_self
      · exact hnodup.2.1 hmem'
    · exact h.apart x hx ((hmem x).mpr ((List.mem_cons.mp hmem').imp_right .inr))

/-- The front of the block is taken, and the rest is behind `q`. -/
theorem Ok.takeFront {k : ℕ} (h : Ok base c live h') (hc : c ~r (q :: p :: m)) (hpb : p ≠ base) (hk : 0 < k)
    (hkp : k < (h'.hd p).size) :
    Ok base (q :: (p + k * HEADER) :: m) (p :: live) { h'.cut q p k with freep := some q } := by
  have hloop := h.loop.isRotated hc
  have hasc := h.ascends.isRotated hc
  have hnodup := hasc.nodup
  rw [List.nodup_cons, List.nodup_cons] at hnodup
  have hmem : ∀ x, x ∈ c ↔ x = q ∨ x = p ∨ x ∈ m := fun x => by rw [hc.mem_iff, List.mem_cons, List.mem_cons]
  have hpc : p ∈ c := (hmem p).mpr (.inr (.inl rfl))
  have hpq : p ≠ q := fun heq => hnodup.1 (heq ▸ List.mem_cons_self)
  have hkpos : 0 < k * HEADER := Nat.mul_pos hk (by decide)
  have hkle : k * HEADER < h'.len base p := by
    rw [h'.len_of_ne hpb]
    exact Nat.mul_lt_mul_of_pos_right hkp (by decide)
  -- the rest begins inside the block
  have hnew : ∀ x, x ∈ c ∨ x ∈ live → x ≠ p + k * HEADER := fun x hx heq =>
    h.tiled.blocks.not_inside (.inl hpc) hkpos hkle (heq ▸ hx)
  set np := p + k * HEADER with hnp
  set h₁ : Heap := { h'.cut q p k with freep := some q } with hh₁
  have hnpp : np ≠ p := by omega
  have hp₁ : h₁.hd p = { h'.hd p with size := k } := h'.cut_front q p k
  have hnp₁ : h₁.hd np = { h'.hd p with size := (h'.hd p).size - k } := h'.cut_back q hnpp
  have hne₁ : ∀ x, x ≠ p → x ≠ np → h₁.hd x = (h'.put q { h'.hd q with ptr := np }).hd x := fun x hxp hxn =>
    h'.cut_of_ne q hxp hxn
  have hqn := hnew q (.inl ((hmem q).mpr (.inl rfl)))
  have hq₁ : h₁.hd q = { h'.hd q with ptr := np } := (hne₁ q hpq.symm hqn).trans (Heap.hd_put_self ..)
  have hrest : ∀ x, x ∈ c ∨ x ∈ live → x ≠ p → x ≠ q → h₁.hd x = h'.hd x := fun x hx hxp hxq =>
    (hne₁ x hxp (hnew x hx)).trans (Heap.hd_put_of_ne _ _ hxq)
  have htiled := h.tiled.split h₁ (.inl hpc) hpb hk hkp rfl
    (fun x hx => Heap.put_ne_none _ _ _ (Heap.put_ne_none _ _ _ (Heap.put_ne_none _ _ _ hx)))
    (by rw [hp₁]; exact ⟨rfl, rfl⟩) (by rw [← hnp, hnp₁]; exact ⟨rfl, rfl⟩) fun x hx hxp => by
      rw [hne₁ x hxp (hnew x hx)]
      exact h'.relink_same q np x
  have hmc : ∀ x ∈ m, x ∈ c := fun x hx => (hmem x).mpr (.inr (.inr hx))
  refine ⟨htiled.congr (fun x => ?_) rfl (fun _ hx => hx) fun _ _ => ⟨rfl, rfl⟩,
    hloop.replace ?_ ?_ fun x hx => ?_, hasc.replace ?_ fun x hx hlt => ?_, ?_, ?_, fun x hx hmem' => ?_⟩
  · simp only [hmem, List.mem_cons]
    tauto
  · unfold Heap.next
    rw [hq₁]
  · unfold Heap.next
    rw [hnp₁]
  · unfold Heap.next
    rw [hrest x (.inl (hmc x hx)) (fun heq => hnodup.2.1 (heq ▸ hx))
      fun heq => hnodup.1 (heq ▸ List.mem_cons_of_mem p hx)]
  · omega
  · have hxc : x ∈ c := (hmem x).mpr ((List.mem_cons.mp hx).imp_right .inr)
    have hapart := h.tiled.blocks.apart p x (.inl hpc) (.inl hxc) hlt
    omega
  · rcases (hmem base).mp h.base_mem with hb | hb | hb
    · rw [hb]
      exact List.mem_cons_self
    · exact absurd hb.symm hpb
    · exact List.mem_cons_of_mem q (List.mem_cons_of_mem np hb)
  · exact List.nodup_cons.mpr ⟨fun hp => h.apart p hp hpc, h.nodup⟩
  · simp only [List.mem_cons] at hx hmem'
    rcases hx with rfl | hx
    · rcases hmem' with hxq | hxn | hxm
      · exact hpq hxq
      · exact hnpp hxn.symm
      · exact hnodup.2.1 hxm
    · rcases hmem' with hxq | hxn | hxm
      · exact h.apart x hx ((hmem x).mpr (.inl hxq))
      · exact hnew x (.inr hx) hxn
      · exact h.apart x hx (hmc x hxm)

end Take

theorem fits_iff {x : Header} : call.fits x = true ↔ x.type = call.type ∧ call.nunits ≤ x.size := by
  unfold Call.fits
  rw [Bool.and_eq_true, decide_eq_true_eq, decide_eq_true_eq]

/-- A block that fits is not `base`. -/
theorem Tiled.ne_base_of_fits (h : Tiled base S h') (hfits : call.fits (h'.hd a) = true) : a ≠ base := by
  rintro rfl
  have hsize := (fits_iff.mp hfits).2
  rw [h.base_size] at hsize
  exact absurd ((units_pos call.size).trans_le hsize) (Nat.lt_irrefl 0)

/-- The heap without the block at `p`, or without its front. -/
theorem Ok.take_cases (h : Ok base c live h') (hprev : call.prevp ∈ c) (hnext : h'.next call.prevp = call.p)
    (hfits : call.fits (h'.hd call.p) = true) : ∃ m, c ~r (call.prevp :: call.p :: m) ∧
      ((h'.hd call.p).size = call.nunits ∧ h'.take call = some { h'.put call.prevp
          { h'.hd call.prevp with ptr := h'.next call.p } with freep := some call.prevp } ∨
        call.nunits < (h'.hd call.p).size ∧
          h'.take call = some { h'.cut call.prevp call.p call.nunits with freep := some call.prevp }) := by
  have hpc : call.p ∈ c := hnext ▸ h.loop.next_mem hprev
  have hpos := units_pos call.size
  have hpb := h.tiled.ne_base_of_fits hfits
  obtain ⟨htype, hsize⟩ := fits_iff.mp hfits
  obtain ⟨u, v, -, hc⟩ := SortedLoop.isRotated_cons_of_mem hprev
  have hloop := h.loop.isRotated hc
  cases hm : v ++ u with
  | nil =>
    -- the list has only `base`
    rw [hm] at hc hloop
    rw [hloop.next_singleton] at hnext
    have hbase := hc.mem_iff.mp h.base_mem
    rw [List.mem_singleton, hnext] at hbase
    exact absurd hbase.symm hpb
  | cons n m =>
    rw [hm] at hc hloop
    have hn : n = call.p := by rw [← hloop.next_cons, hnext]
    subst hn
    have hpq : call.p ≠ call.prevp := by
      have hnodup := (h.ascends.isRotated hc).nodup
      exact fun heq => (List.nodup_cons.mp hnodup).1 (heq ▸ List.mem_cons_self)
    have hpm := h.tiled.mem_ne_none (.inl hpc)
    have hqm := h.tiled.mem_ne_none (.inl hprev)
    refine ⟨m, hc, ?_⟩
    by_cases heq : (h'.hd call.p).size = call.nunits
    · exact .inl ⟨heq, Heap.take_exact hpm hqm heq⟩
    · have hlt : call.nunits < (h'.hd call.p).size := Nat.lt_of_le_of_ne hsize (Ne.symm heq)
      have hk : 0 < call.nunits * HEADER := Nat.mul_pos hpos (by decide)
      have hkle : call.nunits * HEADER < h'.len base call.p := by
        rw [h'.len_of_ne hpb]
        exact Nat.mul_lt_mul_of_pos_right hlt (by decide)
      have hend := h.tiled.end_le (.inl hpc)
      obtain ⟨hnp, -⟩ := h.tiled.owned call.p (call.p + call.nunits * HEADER) (.inl hpc) (by omega) (by omega)
      exact .inr ⟨hlt, Heap.take_split hpm hqm hnp (by unfold USERTOP WORD at *; omega) heq htype hpq (by omega)⟩

/-- **`malloc_locked`** takes the block behind `prevp`. -/
theorem Ok.take_spec (h : Ok base c live h') (hprev : call.prevp ∈ c) (hnext : h'.next call.prevp = call.p)
    (hfits : call.fits (h'.hd call.p) = true) :
    ∃ h₁ c', h'.take call = some h₁ ∧ Ok base c' (call.p :: live) h₁ ∧ Taken h' call h₁ c' := by
  have hpb := h.tiled.ne_base_of_fits hfits
  obtain ⟨m, hc, ⟨heq, hrun⟩ | ⟨hlt, hrun⟩⟩ := h.take_cases hprev hnext hfits
  · have hpq : call.p ≠ call.prevp := by
      have hnodup := (h.ascends.isRotated hc).nodup
      exact fun heq => (List.nodup_cons.mp hnodup).1 (heq ▸ List.mem_cons_self)
    refine ⟨_, _, hrun, h.takeExact hc hpb, ⟨rfl, List.mem_cons_self, ?_, rfl, rfl⟩⟩
    rw [← heq]
    exact congrArg Header.size (h'.hd_put_of_ne _ hpq)
  · refine ⟨_, _, hrun, h.takeFront hc hpb (units_pos call.size) hlt, ⟨rfl, List.mem_cons_self, ?_, rfl, rfl⟩⟩
    exact congrArg Header.size (Heap.hd_put_self ..)

/-! ## New memory -/

/-- The kernel has given the memory from `b` up to `stop`, for blocks of a type. -/
structure Kernel.Grows (k k' : Kernel) (b stop : ℕ) (type : Bool) : Prop where
  start : k'.brkStart = k.brkStart
  brk : k.brk ≤ k'.brk
  areas : ∀ r ∈ k.areas, r ∈ k'.areas
  region : ∀ y, b ≤ y → y < stop → if type = true then ∃ r ∈ k'.areas, r.1 ≤ y ∧ y < r.2
    else k'.brkStart ≤ y ∧ y < k'.brk
  apart : ∀ y, b ≤ y → y < stop → (∀ r ∈ k.areas, r.1 ≤ y → r.2 ≤ y) ∧ (k.brkStart ≤ y → k.brk ≤ y)

/-- The heap with that memory, and a header there. -/
def Heap.grown (h : Heap) (b stop : ℕ) (x : Header) (k : Kernel) : Heap :=
  { (h.remap b stop (some ⟨0, 0, false⟩)).put b x with kern := k }

variable {stop : ℕ} {x : Header} {k : Kernel}

theorem Heap.grown_hd_self : (h.grown b stop x k).hd b = x := Heap.hd_put_self ..

theorem Heap.grown_kern : (h.grown b stop x k).kern = k := rfl

theorem Heap.grown_ne_none {y : ℕ} (hy : h.mem y ≠ none ∨ b ≤ y ∧ y < stop) :
    (h.grown b stop x k).mem y ≠ none := by
  refine Heap.put_ne_none _ _ _ ?_
  unfold Heap.remap
  dsimp only
  split
  · nofun
  · rename_i hno
    exact hy.resolve_right hno

theorem Heap.grown_mem {y : ℕ} (hlt : b < stop) (hy : y < b ∨ stop ≤ y) :
    (h.grown b stop x k).mem y = h.mem y := by
  have hput : (h.grown b stop x k).mem y = (h.remap b stop (some ⟨0, 0, false⟩)).mem y :=
    Heap.put_mem_of_ne _ _ (by omega)
  rw [hput]
  exact if_neg (by omega)

theorem Kernel.Grows.outside {y : ℕ} (hgrows : h.kern.Grows k b stop x.type) (howned : h.Owned base a y) :
    y < b ∨ stop ≤ y := by
  by_contra hin
  obtain ⟨hareas, hbrk⟩ := hgrows.apart y (by omega) (by omega)
  obtain ⟨-, hy⟩ := howned
  split at hy
  · obtain ⟨r, hr, hle, hlt⟩ := hy
    have := hareas r hr hle
    omega
  · have := hbrk hy.1
    omega

/-- The new memory is a block. -/
theorem Tiled.add (h : Tiled base S h') (hgrows : h'.kern.Grows k b stop x.type) (hkern : k.Ok base)
    (hpos : 0 < x.size) (hstop : b + x.size * HEADER = stop) :
    Tiled base (fun a => S a ∨ a = b) (h'.grown b stop x k) := by
  have hlt : b < stop := by
    have := Nat.mul_pos hpos (show 0 < HEADER by decide)
    omega
  have hout : ∀ a y, S a → a ≤ y → y < a + h'.len base a → y < b ∨ stop ≤ y := fun a y ha hay hya =>
    hgrows.outside (h.owned a y ha hay hya)
  have hmem : ∀ a, S a → (h'.grown b stop x k).mem a = h'.mem a := fun a ha =>
    Heap.grown_mem hlt (hout a a ha (Nat.le_refl a) (by have := h.blocks.pos a ha; omega))
  have hhd : ∀ a, S a → (h'.grown b stop x k).hd a = h'.hd a := fun a ha => by
    unfold Heap.hd
    rw [hmem a ha]
  have hlen : ∀ a, S a → (h'.grown b stop x k).len base a = h'.len base a := fun a ha => by
    unfold Heap.len
    rw [hhd a ha]
  have hbase := hout base base h.base_mem (Nat.le_refl _) (by rw [h'.len_base]; unfold HEADER; omega)
  have hlb : b + (h'.grown b stop x k).len base b = stop := by
    rw [Heap.len_of_ne _ (by omega), Heap.grown_hd_self, hstop]
  have hblocks : Blocks.Disjoint S ((h'.grown b stop x k).len base) := h.blocks.mono (fun a ha => ha) hlen
  refine ⟨.inl h.base_mem, by rw [hhd base h.base_mem, h.base_size], by rw [hhd base h.base_mem, h.base_type],
    hblocks.add (by omega) fun a y ha hay hya => ?_, fun a y ha hay hya => ?_, hkern⟩
  · rw [hlen a ha] at hya
    have := hout a y ha hay hya
    omega
  · rcases ha with ha | rfl
    · rw [hlen a ha] at hya
      obtain ⟨hm, hy⟩ := h.owned a y ha hay hya
      refine ⟨Heap.grown_ne_none (.inl hm), ?_⟩
      rw [hhd a ha]
      split at hy
      · rename_i htype
        obtain ⟨r, hr, hry⟩ := hy
        rw [if_pos htype]
        exact ⟨r, hgrows.areas r hr, hry⟩
      · rename_i htype
        rw [if_neg htype]
        have hstart := hgrows.start
        have hbrk := hgrows.brk
        exact ⟨by rw [show (h'.grown b stop x k).kern = k from rfl, hstart]; exact hy.1, hy.2.trans_le hbrk⟩
    · rw [hlb] at hya
      refine ⟨Heap.grown_ne_none (.inr ⟨hay, hya⟩), ?_⟩
      have hregion := hgrows.region y hay hya
      rw [Heap.grown_hd_self, Heap.grown_kern]
      have hne : a ≠ base := by omega
      simpa only [hne, false_or] using hregion

/-- The new block is as one that was handed out. -/
theorem Ok.add (h : Ok base c live h') (hgrows : h'.kern.Grows k b stop x.type) (hkern : k.Ok base)
    (hpos : 0 < x.size) (hstop : b + x.size * HEADER = stop) :
    Ok base c (b :: live) (h'.grown b stop x k) ∧
      ∀ a, a ∈ c ∨ a ∈ live → (h'.grown b stop x k).mem a = h'.mem a := by
  have hlt : b < stop := by
    have := Nat.mul_pos hpos (show 0 < HEADER by decide)
    omega
  have hout : ∀ a, a ∈ c ∨ a ∈ live → a < b ∨ stop ≤ a := fun a ha =>
    hgrows.outside (h.tiled.owned a a ha (Nat.le_refl a) (by have := h.tiled.blocks.pos a ha; omega))
  have hmem : ∀ a, a ∈ c ∨ a ∈ live → (h'.grown b stop x k).mem a = h'.mem a := fun a ha =>
    Heap.grown_mem hlt (hout a ha)
  refine ⟨⟨(h.tiled.add hgrows hkern hpos hstop).congr (fun a => ?_) rfl (fun _ hx => hx) fun _ _ => ⟨rfl, rfl⟩,
    h.loop.congr fun a ha => ?_, h.ascends, h.base_mem, ?_, fun a ha hac => ?_⟩, hmem⟩
  · rw [List.mem_cons]
    tauto
  · unfold Heap.next Heap.hd
    rw [hmem a (.inl ha)]
  · refine List.nodup_cons.mpr ⟨fun hb => ?_, h.nodup⟩
    have := hout b (.inr hb)
    omega
  · rcases List.mem_cons.mp ha with rfl | ha
    · have := hout a (.inl hac)
      omega
    · exact h.apart a ha hac

/-! ## The kernel's answers -/

/-- What `morecore_brk_locked` asks for. -/
def Heap.request (h : Heap) (nu : ℕ) : ℕ := (h.kern.brk + nu * HEADER) % WORD

/-- `morecore_brk_locked` has never asked, or knows where the heap ends. -/
def Heap.KnowsBrk (h : Heap) : Prop := h.brk = 0 ∨ h.brk = h.kern.brk

theorem roundup_aligned (y : ℕ) : roundup y % PGSIZE = 0 := by
  unfold roundup PGSIZE WORD
  omega

theorem sysBrk_set_brk (grant : Bool) (r v : ℕ) : Heap.sysBrk { h with brk := v } grant r =
    ((h.sysBrk grant r).1, { (h.sysBrk grant r).2 with brk := v }) := by
  unfold Heap.sysBrk
  dsimp only
  split_ifs <;> rfl

theorem Kernel.apart_of_meets {k : Kernel} {start stop : ℕ} {r : ℕ × ℕ} (h : k.meets start stop = false)
    (hr : r ∈ k.areas) : r.2 ≤ start ∨ stop ≤ r.1 := by
  unfold Kernel.meets at h
  have hno := List.any_eq_false.mp h r hr
  simp only [Bool.and_eq_true, decide_eq_true_eq] at hno
  omega

/-- The kernel leaves the heap as it is, cuts it, or lets it grow. -/
theorem sysBrk_cases (hk : h.kern.Ok base) (grant : Bool) (r : ℕ) :
    h.sysBrk grant r = (h.kern.brk, h) ∨ (h.sysBrk grant r).1 < h.kern.brk ∨
      h.kern.brk < roundup r ∧ h.sysBrk grant r = (roundup r, { h.remap h.kern.brk (roundup r)
        (some ⟨0, 0, false⟩) with kern := { h.kern with brk := roundup r } }) ∧
      h.kern.Grows { h.kern with brk := roundup r } h.kern.brk (roundup r) false ∧
      Kernel.Ok base { h.kern with brk := roundup r } := by
  have hstart := hk.start_le
  unfold Heap.sysBrk
  dsimp only
  split_ifs with hlow hsame hlt hcut hgrow
  · exact .inl rfl
  · exact .inl rfl
  · exact .inr (.inl hlt)
  · exact .inl rfl
  · obtain ⟨-, htop, hmeets⟩ := hgrow
    have hgt : h.kern.brk < roundup r := by omega
    refine .inr (.inr ⟨hgt, rfl, ⟨rfl, hgt.le, fun _ hr => hr, fun y hy hy' => ?_,
      fun y hy hy' => ⟨fun a ha hay => ?_,
      fun _ => hy⟩⟩, hk.base_lt, hstart.trans hgt.le, roundup_aligned r, htop, hk.areas_top⟩)
    · rw [if_neg Bool.false_ne_true]
      exact ⟨hstart.trans hy, hy'⟩
    · have hno := Kernel.apart_of_meets hmeets ha
      omega
  · exact .inl rfl

theorem sysShmem_spec {grant : Option ℕ} {len : ℕ} (hk : h.kern.Ok base)
    (hrun : h.sysShmem grant len = some (b, h₁)) : ∃ k, len ≠ 0 ∧ b % PGSIZE = 0 ∧
      h₁ = { h.remap b (b + len) (some ⟨0, 0, false⟩) with kern := k } ∧ k.brk = h.kern.brk ∧
      k.areas = (b, b + len) :: h.kern.areas ∧ h.kern.Grows k b (b + len) true ∧ k.Ok base := by
  unfold Heap.sysShmem at hrun
  cases grant with
  | none => cases hrun
  | some g =>
    dsimp only at hrun
    split_ifs at hrun with hgrant
    cases hrun
    obtain ⟨hlen, halign, -, htop, hmeets, hheap⟩ := hgrant
    refine ⟨_, hlen, halign, rfl, rfl, rfl, ⟨rfl, Nat.le_refl _, fun r hr => List.mem_cons_of_mem _ hr,
      fun y hy hy' => ?_,
      fun y hy hy' => ⟨fun a ha hay => ?_, fun hle => ?_⟩⟩,
      ⟨hk.base_lt, hk.start_le, hk.aligned, hk.top, fun r hr => ?_⟩⟩
    · rw [if_pos rfl]
      exact ⟨_, List.mem_cons_self, hy, hy'⟩
    · have hno := Kernel.apart_of_meets hmeets ha
      omega
    · omega
    · rcases List.mem_cons.mp hr with rfl | hr
      · exact htop
      · exact hk.areas_top r hr

/-! ## Extensions -/

/-- The heap with a new block at `b`, of the type of the call and large enough. -/
structure Extended (base : ℕ) (c live : List ℕ) (h : Heap) (call : Call) (b : ℕ) (h' : Heap) : Prop where
  ok : Ok base c (b :: live) h'
  same : ∀ a ∈ c, h'.mem a = h.mem a
  freep : h'.freep = h.freep
  type : (h'.hd b).type = call.type
  size : call.nunits ≤ (h'.hd b).size
  top : call.type = false → b = h.kern.brk
  stop : call.type = true → (h'.hd b).size * HEADER = Heap.shmemSize call.nunits

/-- The new block at `b` is all that the kernel has given, and the other blocks are as before. -/
structure Given (c live : List ℕ) (h : Heap) (call : Call) (b : ℕ) (h' : Heap) : Prop where
  same : ∀ a, a ∈ c ∨ a ∈ live → h'.hd a = h.hd a
  brk : h'.kern.brk = if call.type = true then h.kern.brk else b + (h'.hd b).size * HEADER
  areas : h'.kern.areas = if call.type = true then (b, b + (h'.hd b).size * HEADER) :: h.kern.areas else h.kern.areas
  apart : ∀ y, b ≤ y → y < b + (h'.hd b).size * HEADER → ∀ r ∈ h.kern.areas, r.1 ≤ y → r.2 ≤ y

/-- The kernel would give the call memory from `b` on. -/
def Heap.GrowsAt (h : Heap) (call : Call) (grant : Option ℕ) (b : ℕ) : Prop :=
  if call.type = true then ∃ h', h.sysShmem grant (shmemSize call.nunits) = some (b, h')
  else b = h.kern.brk ∧ h.kern.brk < (h.sysBrk grant.isSome (h.request call.nunits)).1

/-- The kernel refuses, or there is a new block that goes through `free_locked`. -/
def Grew (base : ℕ) (c live : List ℕ) (h : Heap) (call : Call) (grant : Option ℕ) (fuel : ℕ) (ok : Bool)
    (h₁ : Heap) : Prop :=
  (ok = false ∧ (∀ b, ¬ h.GrowsAt call grant b) ∧ h₁ = { h with brk := h₁.brk } ∧ h₁.KnowsBrk) ∨
    ok = true ∧ ∃ b h₂ h₃, h.GrowsAt call grant b ∧ Extended base c live h call b h₂ ∧
      Given c live h call b h₂ ∧ h₂.freeLocked fuel b = some h₃ ∧ h₁ = { h₃ with brk := h₁.brk } ∧
      (h₃.kern = h₂.kern → h₃.brk = h₂.brk → h₁.KnowsBrk)

/-- The kernel would cut the heap. -/
def Heap.Cuts (h : Heap) (call : Call) (grant : Option ℕ) : Prop :=
  call.type = false ∧ (h.sysBrk grant.isSome (h.request call.nunits)).1 < h.kern.brk

theorem nunits_le (call : Call) : call.nunits * HEADER ≤ WORD := by
  unfold Call.nunits units WORD HEADER
  omega

theorem initBrk_eq (hk : h.kern.Ok base) (hbrk : h.KnowsBrk) (grant : Bool) :
    h.initBrk grant = { h with brk := h.kern.brk } := by
  have hpos := hk.base_lt
  unfold HEADER at hpos
  unfold Heap.initBrk
  rcases hbrk with hbrk | hbrk
  · have hsys : h.sysBrk grant 0 = (h.kern.brk, h) := if_pos (show 0 < h.kern.brkStart by omega)
    rw [if_pos hbrk, hsys]
  · have hne : h.brk ≠ 0 := by
      have := hk.start_le
      omega
    rw [if_neg hne, ← hbrk]

theorem Ok.morecoreBrk_cases {grant : Option ℕ} {ok : Bool} (h : Ok base c live h') (hbrk : h'.KnowsBrk)
    (htype : call.type = false) (hcut : ¬ h'.Cuts call grant)
    (hrun : h'.morecoreBrk fuel call.nunits grant.isSome = some (ok, h₁)) :
    Grew base c live h' call grant fuel ok h₁ := by
  have hk := h.tiled.kern
  have hpos : 0 < h'.kern.brk := by
    have := hk.base_lt
    have := hk.start_le
    unfold HEADER at *
    omega
  unfold Heap.morecoreBrk at hrun
  dsimp only at hrun
  rw [initBrk_eq hk hbrk, if_neg (show h'.kern.brk ≠ 0 by omega)] at hrun
  dsimp only at hrun
  rw [show (h'.kern.brk + call.nunits * HEADER) % WORD = h'.request call.nunits from rfl, sysBrk_set_brk] at hrun
  dsimp only at hrun
  rcases sysBrk_cases hk grant.isSome (h'.request call.nunits) with hsys | hsys | ⟨hgt, hsys, hgrows, hok⟩
  · rw [hsys, if_pos (Nat.le_refl _)] at hrun
    cases hrun
    refine .inl ⟨rfl, fun b hb => ?_, rfl, .inr rfl⟩
    unfold Heap.GrowsAt at hb
    rw [if_neg (by simp [htype]), hsys] at hb
    exact absurd hb.2 (Nat.lt_irrefl _)
  · exact absurd ⟨htype, hsys⟩ hcut
  · -- the sum has not wrapped
    have hreq : h'.kern.brk + call.nunits * HEADER ≤ roundup (h'.request call.nunits) := by
      have hle := nunits_le call
      have htop := hk.top
      have halign := hk.aligned
      unfold Heap.request roundup WORD HEADER PGSIZE USERTOP at *
      omega
    set nb := roundup (h'.request call.nunits) with hnb
    have halign : nb % PGSIZE = 0 := roundup_aligned _
    have hsize : h'.kern.brk + (nb - h'.kern.brk) / HEADER * HEADER = nb := by
      have := hk.aligned
      unfold PGSIZE HEADER at *
      omega
    have hnu : call.nunits ≤ (nb - h'.kern.brk) / HEADER :=
      (Nat.le_div_iff_mul_le (by decide)).mpr (by omega)
    have hnpos : 0 < call.nunits := units_pos call.size
    rw [hsys, if_neg (by dsimp only; omega)] at hrun
    have hget : (h'.remap h'.kern.brk nb (some ⟨0, 0, false⟩)).mem h'.kern.brk = some ⟨0, 0, false⟩ :=
      if_pos ⟨Nat.le_refl _, hgt⟩
    rw [Heap.set_eq (x := ⟨0, 0, false⟩) (by exact hget), Option.bind_eq_bind, Option.bind_some] at hrun
    set x : Header := ⟨0, (nb - h'.kern.brk) / HEADER, false⟩ with hx
    obtain ⟨hadd, hsame⟩ := h.add (x := x) hgrows hok (Nat.lt_of_lt_of_le hnpos hnu) hsize
    set g : Heap := h'.grown h'.kern.brk nb x { h'.kern with brk := nb } with hg
    have hgx : g.hd h'.kern.brk = x := Heap.grown_hd_self
    obtain ⟨h₃, hfree, hend⟩ := Option.bind_eq_some_iff.mp hrun
    have hfree' : Heap.freeLocked { g with brk := h'.kern.brk } fuel h'.kern.brk = some h₃ := hfree
    cases hend
    have hadd' : Ok base c (h'.kern.brk :: live) { g with brk := h'.kern.brk } :=
      ⟨hadd.tiled.congr (fun _ => Iff.rfl) rfl (fun _ hx => hx) fun _ _ => ⟨rfl, rfl⟩, hadd.loop, hadd.ascends,
        hadd.base_mem, hadd.nodup, hadd.apart⟩
    have hstop : h'.kern.brk + (g.hd h'.kern.brk).size * HEADER = nb := by rw [hgx, hx, hsize]
    have hgiven : Given c live h' call h'.kern.brk { g with brk := h'.kern.brk } := by
      refine ⟨fun a ha => ?_, ?_, ?_, fun y hy hy' => (hgrows.apart y hy (hy'.trans_eq hstop)).1⟩
      · exact congrArg (·.getD ⟨0, 0, false⟩) (hsame a ha)
      · rw [if_neg (by simp [htype])]
        exact hstop.symm
      · rw [if_neg (by simp [htype])]
        rfl
    refine .inr ⟨rfl, h'.kern.brk, { g with brk := h'.kern.brk }, h₃, ?_, ⟨hadd', fun a ha => hsame a (.inl ha), rfl,
      (congrArg Header.type hgx).trans htype.symm, hnu.trans_eq (congrArg Header.size hgx).symm, fun _ => rfl,
      fun hyes => ?_⟩, hgiven, hfree', rfl, fun hkern _ => .inr (congrArg Kernel.brk hkern).symm⟩
    · unfold Heap.GrowsAt
      rw [if_neg (by simp [htype]), hsys]
      exact ⟨rfl, hgt⟩
    · rw [htype] at hyes
      cases hyes

theorem Ok.morecoreShmem_cases {grant : Option ℕ} {ok : Bool} (h : Ok base c live h') (hbrk : h'.KnowsBrk)
    (htype : call.type = true) (hrun : h'.morecoreShmem fuel call.nunits grant = some (ok, h₁)) :
    Grew base c live h' call grant fuel ok h₁ := by
  unfold Heap.morecoreShmem at hrun
  cases hsys : h'.sysShmem grant (Heap.shmemSize call.nunits) with
  | none =>
    rw [hsys] at hrun
    cases hrun
    refine .inl ⟨rfl, fun b hb => ?_, rfl, hbrk⟩
    unfold Heap.GrowsAt at hb
    rw [if_pos htype, hsys] at hb
    obtain ⟨_, hb⟩ := hb
    cases hb
  | some r =>
    obtain ⟨b, hmap⟩ := r
    rw [hsys] at hrun
    obtain ⟨k, hlen, -, rfl, hkbrk, hkareas, hgrows, hok⟩ := sysShmem_spec h.tiled.kern hsys
    have hnpos : 0 < call.nunits := units_pos call.size
    have hle := nunits_le call
    have hsize : Heap.shmemSize call.nunits / HEADER * HEADER = Heap.shmemSize call.nunits := by
      unfold Heap.shmemSize PGSIZE HEADER
      omega
    -- the size has not wrapped
    have hnu : call.nunits ≤ Heap.shmemSize call.nunits / HEADER := by
      refine (Nat.le_div_iff_mul_le (by decide)).mpr ?_
      unfold Heap.shmemSize PGSIZE WORD HEADER at *
      omega
    have hpos := Nat.lt_of_lt_of_le hnpos hnu
    have hlt : b < b + Heap.shmemSize call.nunits := by omega
    have hget : (h'.remap b (b + Heap.shmemSize call.nunits) (some ⟨0, 0, false⟩)).mem b = some ⟨0, 0, false⟩ :=
      if_pos ⟨Nat.le_refl _, hlt⟩
    dsimp only at hrun
    rw [Heap.set_eq (x := ⟨0, 0, false⟩) (by exact hget), Option.bind_eq_bind, Option.bind_some] at hrun
    set x : Header := ⟨0, Heap.shmemSize call.nunits / HEADER, true⟩ with hx
    obtain ⟨hadd, hsame⟩ := h.add (x := x) hgrows hok hpos (by rw [hx, hsize])
    set g : Heap := h'.grown b (b + Heap.shmemSize call.nunits) x k with hg
    have hgx : g.hd b = x := Heap.grown_hd_self
    obtain ⟨h₃, hfree, hend⟩ := Option.bind_eq_some_iff.mp hrun
    cases hend
    have hstop : b + (g.hd b).size * HEADER = b + Heap.shmemSize call.nunits := by rw [hgx, hx, hsize]
    have hgiven : Given c live h' call b g := by
      refine ⟨fun a ha => ?_, ?_, ?_, fun y hy hy' => (hgrows.apart y hy (hy'.trans_eq hstop)).1⟩
      · exact congrArg (·.getD ⟨0, 0, false⟩) (hsame a ha)
      · rw [if_pos htype]
        exact hkbrk
      · rw [if_pos htype, hstop]
        exact hkareas
    refine .inr ⟨rfl, b, g, h₁, ?_, ⟨hadd, fun a ha => hsame a (.inl ha), rfl,
      (congrArg Header.type hgx).trans htype.symm, hnu.trans_eq (congrArg Header.size hgx).symm, fun hno => ?_,
      fun _ => ?_⟩, hgiven, hfree, rfl, fun hkern hbrk' => ?_⟩
    · unfold Heap.GrowsAt
      rw [if_pos htype]
      exact ⟨_, hsys⟩
    · rw [htype] at hno
      cases hno
    · rw [hgx, hx, hsize]
    · unfold Heap.KnowsBrk at hbrk ⊢
      rw [hkern, hbrk', show g.kern = k from rfl, hkbrk]
      exact hbrk

/-! ## `free_locked` and `morecore_locked`, when they end -/

theorem Ok.freeLocked_run {f : ℕ} (h : Ok base c (b :: live) h') (hf : h'.freep = some f) (hfc : f ∈ c)
    (hrun : h'.freeLocked fuel b = some h₁) :
    ∃ q c', h₁ = h'.freed b q ∧ Gap h'.next q b ∧ Ok base c' live h₁ ∧ Freed h' b q c h₁ c' := by
  cases hgap : h'.findGap b fuel f with
  | none =>
    unfold Heap.freeLocked at hrun
    rw [hf, Option.bind_eq_bind, Option.bind_some, hgap] at hrun
    cases hrun
  | some q =>
    obtain ⟨c', hrun', hok, hfreed⟩ := h.freeLocked_spec hf hfc hgap
    rw [hrun'] at hrun
    cases hrun
    have hplace := (findGap_spec h.loop (fun x hx => h.tiled.mem_ne_none (.inl hx)) hfc hgap).2
    exact ⟨q, c', rfl, hplace, hok, hfreed⟩

/-- **`morecore_locked`**: the kernel refuses, or there is a new block in the free list. -/
theorem Ok.morecore_cases {grant : Option ℕ} {ok : Bool} {f : ℕ} (h : Ok base c live h') (hbrk : h'.KnowsBrk)
    (hf : h'.freep = some f) (hfc : f ∈ c) (hcut : ¬ h'.Cuts call grant)
    (hrun : h'.morecore fuel call.nunits call.type grant = some (ok, h₁)) :
    (ok = false ∧ h₁ = { h' with brk := h₁.brk } ∧ h₁.KnowsBrk) ∨
      ok = true ∧ h₁.KnowsBrk ∧ ∃ b q h₂ c', h'.GrowsAt call grant b ∧ Extended base c live h' call b h₂ ∧
        Given c live h' call b h₂ ∧ h₁ = { h₂.freed b q with brk := h₁.brk } ∧ Gap h₂.next q b ∧
        Ok base c' live h₁ ∧ Freed h₂ b q c h₁ c' := by
  have hcases : Grew base c live h' call grant fuel ok h₁ := by
    unfold Heap.morecore at hrun
    split at hrun
    · rename_i htype
      exact h.morecoreShmem_cases hbrk htype hrun
    · rename_i htype
      exact h.morecoreBrk_cases hbrk (Bool.eq_false_iff.mpr htype) hcut hrun
  rcases hcases with ⟨hok, -, heq, hknows⟩ | ⟨hok, b, h₂, h₃, hgrows, hext, hgiven, hfree, heq, hknows⟩
  · exact .inl ⟨hok, heq, hknows⟩
  · obtain ⟨q, c', heq₃, hgap, hok₃, hfreed⟩ := hext.ok.freeLocked_run (hext.freep.trans hf) hfc hfree
    have hbrk₃ : h₃.brk = h₂.brk := by
      rw [heq₃]
      rfl
    refine .inr ⟨hok, hknows hfreed.kern hbrk₃, b, q, h₂, c', hgrows, hext, hgiven, heq₃ ▸ heq, hgap, ?_, ?_⟩
    · rw [heq]
      exact ⟨hok₃.tiled.congr (fun _ => Iff.rfl) rfl (fun _ hx => hx) fun _ _ => ⟨rfl, rfl⟩, hok₃.loop,
        hok₃.ascends, hok₃.base_mem, hok₃.nodup, hok₃.apart⟩
    · rw [heq]
      exact ⟨hfreed.freep, hfreed.kern, hfreed.frame, hfreed.gap, hfreed.sub, hfreed.kept, hfreed.gone,
        hfreed.type, hfreed.merged, hfreed.inserted⟩

end Ucore.Malloc
