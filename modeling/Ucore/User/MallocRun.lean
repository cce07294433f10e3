import Ucore.User.MallocStep

/-!
# The user's heap: runs

* `Inv`, `Inv.step` — what holds between the steps, and that a step keeps it;
* `Inv.visit_granted` — a call that has the heap extended goes on from its old place.
-/

namespace Ucore.Malloc

open SortedLoop (Path Loop Ascends Gap)

variable {base a b p q f fuel size : ℕ} {type : Bool} {c live : List ℕ} {h h₁ : Heap} {call : Call} {s s' s₀ : Sys}
  {grant : Option ℕ} {act : Act} {P : Sys → Act → Prop}

/-! ## The free list -/

theorem Ok.free_iff (hok : Ok base c live h) (hf : h.freep = some f) (hfc : f ∈ c) : h.Free a ↔ a ∈ c := by
  constructor
  · intro hfree
    induction hfree with
    | head hp =>
      rw [hf] at hp
      cases hp
      exact hfc
    | next hp hx ih =>
      rw [← congrArg Header.ptr (Heap.hd_eq hx)]
      exact hok.loop.next_mem ih
  · intro hac
    obtain ⟨u, hu, -⟩ := hok.loop.exists_path hfc hac
    have hpath : ∀ l p, Path h.next p l a → p ∈ c → h.Free p → h.Free a := by
      intro l
      induction l with
      | nil =>
        rintro p rfl - hp
        exact hp
      | cons x l ih =>
        rintro p ⟨rfl, hl⟩ hpc hp
        exact ih _ hl (hok.loop.next_mem hpc) (hp.next (hok.tiled.mem_eq (.inl hpc)))
    exact hpath u f hu hfc (.head hf)

/-! ## The invariant -/

/-- Before the first call: `base` is in the image of the program, and zero. -/
structure Start (base : ℕ) (s : Sys) : Prop where
  freep : s.heap.freep = none
  brk : s.heap.brk = 0
  header : s.heap.mem base = some ⟨0, 0, false⟩
  image : ∀ x, base ≤ x → x < base + HEADER → s.heap.mem x ≠ none ∧ ∃ r ∈ s.heap.kern.areas, r.1 ≤ x ∧ x < r.2
  kern : s.heap.kern.Ok base
  live : s.live = []
  call : s.call = none
  result : s.result = none

/-- The call is at a block of the free list, and `prevp` is before it if it is to be taken. -/
structure Call.At (call : Call) (c : List ℕ) (h : Heap) : Prop where
  mem : call.p ∈ c
  behind : call.fits (h.hd call.p) = true → call.prevp ∈ c ∧ h.next call.prevp = call.p

structure Inv (base : ℕ) (c : List ℕ) (s : Sys) : Prop where
  ok : Ok base c s.live s.heap
  freep : ∃ f ∈ c, s.heap.freep = some f
  brk : s.heap.KnowsBrk
  call : ∀ call, s.call = some call → call.At c s.heap

/-- A call would go on from a block that the new one takes in, and take the one behind it. -/
def Heap.Stale (h : Heap) (call : Call) (grant : Option ℕ) : Prop :=
  call.type = true ∧ ∃ b, h.GrowsAt call grant b ∧ b + Heap.shmemSize call.nunits = call.p ∧
    (h.hd call.p).type = true ∧ (call.fits (h.hd (h.next call.p)) = true ∨
      (h.hd (h.next call.p)).type = true ∧ h.next call.p + (h.hd (h.next call.p)).size * HEADER = b)

/-- A step at which the heap stays whole. -/
def KeepsHeap (s : Sys) : Act → Prop
  | .visit grant => ∀ call, s.call = some call → call.fits (s.heap.hd call.p) = false →
      s.heap.freep = some call.p → ¬ s.heap.Cuts call grant ∧ ¬ s.heap.Stale call grant
  | _ => True

/-! ## Steps -/

theorem Inv.take (hi : Inv base c s) (hcall : s.call = some call) (hfits : call.fits (s.heap.hd call.p) = true)
    (htake : s.heap.take call = some h₁) : ∃ c', Inv base c' ⟨h₁, none, call.p :: s.live,
      some (call, some (call.p + HEADER))⟩ ∧ (h₁.hd call.p).size = call.nunits := by
  obtain ⟨hprev, hnext⟩ := (hi.call call hcall).behind hfits
  obtain ⟨h₂, c', hrun, hok, htaken⟩ := hi.ok.take_spec hprev hnext hfits
  rw [htake] at hrun
  cases hrun
  refine ⟨c', ⟨hok, ⟨call.prevp, htaken.mem, htaken.freep⟩, ?_, nofun⟩, htaken.size⟩
  unfold Heap.KnowsBrk
  rw [htaken.brk, htaken.kern]
  exact hi.brk

theorem Inv.move (hi : Inv base c s) (hcall : s.call = some call) :
    Inv base c { s with call := some { call with prevp := call.p, p := s.heap.next call.p }, result := none } := by
  have hmem := (hi.call call hcall).mem
  refine ⟨hi.ok, hi.freep, hi.brk, fun call' hcall' => ?_⟩
  cases hcall'
  exact ⟨hi.ok.loop.next_mem hmem, fun _ => ⟨hmem, rfl⟩⟩

theorem Call.fits_congr {x y : Header} (hsize : x.size = y.size) (htype : x.type = y.type) :
    call.fits x = call.fits y := by
  unfold Call.fits
  rw [hsize, htype]

/-- The kernel has refused. -/
theorem Inv.refused {r : Option (Call × Option ℕ)} (hi : Inv base c s) (heq : h₁ = { s.heap with brk := h₁.brk })
    (hknows : h₁.KnowsBrk) : Inv base c { s with heap := h₁, call := none, result := r } := by
  refine ⟨?_, ?_, hknows, nofun⟩
  · dsimp only
    rw [heq]
    exact ⟨hi.ok.tiled.congr (fun _ => Iff.rfl) rfl (fun _ hx => hx) fun _ _ => ⟨rfl, rfl⟩, hi.ok.loop,
      hi.ok.ascends, hi.ok.base_mem, hi.ok.nodup, hi.ok.apart⟩
  · rw [heq]
    exact hi.freep

section Granted

variable {h₂ : Heap} {c' : List ℕ}

theorem Extended.hd_eq (hext : Extended base c live h call b h₂) (ha : a ∈ c) : h₂.hd a = h.hd a := by
  unfold Heap.hd
  rw [hext.same a ha]

theorem Extended.next_eq (hext : Extended base c live h call b h₂) (ha : a ∈ c) : h₂.next a = h.next a :=
  congrArg Header.ptr (hext.hd_eq ha)

/-- A new block of memory that is not shared is above the others. -/
theorem Extended.type_of_absorbs (hext : Extended base c live h call b h₂) (hok : Ok base c live h) (hq : q ∈ c)
    (habsorbs : h₂.Absorbs b q) : call.type = true := by
  by_contra hno
  have hfalse : call.type = false := Bool.eq_false_iff.mpr hno
  have hn : h₂.next q ∈ c := hext.ok.loop.next_mem hq
  have hne := hext.ok.absorbs_ne_base List.mem_cons_self habsorbs
  have hpos := hok.tiled.blocks.pos _ (.inl hn)
  obtain ⟨-, hbrk⟩ := hok.tiled.owned _ _ (.inl hn) (Nat.le_refl _) (by omega)
  obtain ⟨htype, hend⟩ := habsorbs
  rw [hext.hd_eq hn, hext.type, hfalse] at htype
  rw [if_neg (by simp [hne, ← htype])] at hbrk
  have := hext.top hfalse
  omega

/-- The block that the new one has taken in is not met again. -/
theorem Extended.next_mem (hext : Extended base c live h call b h₂) (hfreed : Freed h₂ b q c h₁ c')
    (hok₁ : Ok base c' live h₁) (ha : a ∈ c) : h₁.next a ∈ c' := by
  by_cases hac : a ∈ c'
  · exact hok₁.loop.next_mem hac
  · obtain ⟨heq, habsorbs⟩ := (hfreed.kept a ha).resolve_left hac
    have hbc : b ∉ c := hext.ok.apart b List.mem_cons_self
    have hqa : a ≠ q := fun hqa => hac (hqa ▸ hfreed.gap.2)
    have hnext : h₁.next a = h₂.next a := by
      unfold Heap.next Heap.hd
      rw [hfreed.frame a hqa fun hab => hbc (hab ▸ ha)]
    rw [hnext]
    refine (hfreed.kept _ (hext.ok.loop.next_mem ha)).resolve_right ?_
    rintro ⟨hself, -⟩
    -- it would be the only one
    exact hqa (hext.ok.loop.eq_of_next_self hext.ok.ascends.nodup ha (hself.trans heq.symm) q hfreed.gap.1).symm

/-- A block of the old list, in the new one: it is as large as before, or has the new one. -/
theorem Extended.fits_old (hext : Extended base c live h call b h₂) (hfreed : Freed h₂ b q c h₁ c') (ha : a ∈ c)
    (hno : call.fits (h.hd a) = false) (hfits : call.fits (h₁.hd a) = true) : a = q ∧ h₂.Merges b q := by
  have hbc : b ∉ c := hext.ok.apart b List.mem_cons_self
  rw [← hext.hd_eq ha] at hno
  by_cases haq : a = q
  · refine ⟨haq, ?_⟩
    by_contra hmerges
    obtain ⟨-, hsize, -⟩ := hfreed.inserted hmerges
    rw [haq, Call.fits_congr hsize hfreed.type, ← haq, hno] at hfits
    cases hfits
  · have hsame : h₁.hd a = h₂.hd a := by
      unfold Heap.hd
      rw [hfreed.frame a haq fun hab => hbc (hab ▸ ha)]
    rw [hsame, hno] at hfits
    cases hfits

/-- The call that goes on from its old place. -/
def Call.goesOn (call : Call) (h : Heap) : Call :=
  ⟨call.size, call.type, call.p, h.next call.p, call.asked + 1⟩

/-- **An extension keeps the invariant**, unless the call is left behind a block that is gone. -/
theorem Inv.granted (hi : Inv base c s) (hcall : s.call = some call) (hgrows : s.heap.GrowsAt call grant b)
    (hext : Extended base c s.live s.heap call b h₂) (hfreed : Freed h₂ b q c h₁ c')
    (hok₁ : Ok base c' s.live h₁) (hbrk : h₁.KnowsBrk) (hstale : ¬ s.heap.Stale call grant) :
    Inv base c' { s with heap := h₁, call := some (call.goesOn h₁), result := none } := by
  have hpc := (hi.call call hcall).mem
  have hbc : b ∉ c := hext.ok.apart b List.mem_cons_self
  refine ⟨hok₁, ⟨q, hfreed.gap.2, hfreed.freep⟩, hbrk, fun call' hcall' => ?_⟩
  cases hcall'
  refine ⟨hext.next_mem hfreed hok₁ hpc, fun hfits => ?_⟩
  by_cases hpc' : call.p ∈ c'
  · exact ⟨hpc', rfl⟩
  · refine absurd ?_ hstale
    obtain ⟨heq, habsorbs⟩ := (hfreed.kept _ hpc).resolve_left hpc'
    have htype := hext.type_of_absorbs hi.ok hfreed.gap.1 habsorbs
    have hpq : call.p ≠ q := fun heq => hpc' (heq ▸ hfreed.gap.2)
    have hnext : h₁.next call.p = s.heap.next call.p := by
      rw [← hext.next_eq hpc]
      unfold Heap.next Heap.hd
      rw [hfreed.frame _ hpq fun heq => hbc (heq ▸ hpc)]
    have hnc := hi.ok.loop.next_mem hpc
    obtain ⟨hty, hend⟩ := habsorbs
    rw [← heq] at hty hend
    rw [hext.stop htype] at hend
    refine ⟨htype, b, hgrows, hend, by rw [← hext.hd_eq hpc, ← hty, hext.type, htype], ?_⟩
    by_cases hold : call.fits (s.heap.hd (s.heap.next call.p)) = true
    · exact .inl hold
    · have hfits' : call.fits (h₁.hd (s.heap.next call.p)) = true := hnext ▸ hfits
      obtain ⟨hnq, hmtype, hmend⟩ := hext.fits_old hfreed hnc (Bool.eq_false_iff.mpr hold) hfits'
      rw [← hnq, hext.hd_eq hnc] at hmtype hmend
      exact .inr ⟨by rw [hmtype, hext.type, htype], hmend⟩

/-- **The new block is ahead**, if it is behind `freep` or part of the block there. -/
theorem Inv.granted_ahead (hext : Extended base c s.live s.heap call b h₂) (hfreed : Freed h₂ b q c h₁ c')
    (hok₁ : Ok base c' s.live h₁) (hpc : call.p ∈ c) (hmeets : call.p = q ∨ h₂.Merges b q) :
    ∃ l t, Path h₁.next (h₁.next call.p) l t ∧ q ∉ l ∧ call.fits (h₁.hd t) = true := by
  by_cases hmerges : h₂.Merges b q
  · obtain ⟨l, hl, hq⟩ := hok₁.loop.exists_path (hext.next_mem hfreed hok₁ hpc) hfreed.gap.2
    obtain ⟨-, hsize, -⟩ := hfreed.merged hmerges
    refine ⟨l, q, hl, hq, fits_iff.mpr ⟨?_, hext.size.trans hsize⟩⟩
    rw [hfreed.type, hmerges.1, hext.type]
  · obtain ⟨-, -, hnext, hsize, htype⟩ := hfreed.inserted hmerges
    obtain rfl := hmeets.resolve_right hmerges
    exact ⟨[], b, hnext, List.not_mem_nil, fits_iff.mpr ⟨htype.trans hext.type, hext.size.trans hsize⟩⟩

end Granted

/-! ## One step -/

/-- What a round of `malloc_locked` can do. -/
theorem visit_cases (hcall : s.call = some call) (hmem : s.heap.mem call.p ≠ none)
    (hrun : s.visit fuel grant = some s') :
    (call.fits (s.heap.hd call.p) = true ∧ ∃ h₁, s.heap.take call = some h₁ ∧
      s' = ⟨h₁, none, call.p :: s.live, some (call, some (call.p + HEADER))⟩) ∨
    (call.fits (s.heap.hd call.p) = false ∧ s.heap.freep = some call.p ∧ ∃ ok h₁,
      s.heap.morecore fuel call.nunits call.type grant = some (ok, h₁) ∧
      (ok = true ∧ s' = { s with heap := h₁, call := some (call.goesOn h₁), result := none } ∨
        ok = false ∧ s' = { s with
          heap := h₁, call := none, result := some ({ call with asked := call.asked + 1 }, none) })) ∨
    (call.fits (s.heap.hd call.p) = false ∧ s.heap.freep ≠ some call.p ∧
      s' = { s with call := some { call with prevp := call.p, p := s.heap.next call.p }, result := none }) := by
  obtain ⟨x, hx⟩ := Option.ne_none_iff_exists'.mp hmem
  have hnext : s.heap.next call.p = x.ptr := congrArg Header.ptr (Heap.hd_eq hx)
  unfold Sys.visit at hrun
  rw [hcall, Option.bind_eq_bind, Option.bind_some, hx, Option.bind_eq_bind, Option.bind_some] at hrun
  rw [Heap.hd_eq hx, hnext]
  by_cases hfits : call.fits x = true
  · rw [if_pos hfits] at hrun
    obtain ⟨h₁, htake, hend⟩ := Option.bind_eq_some_iff.mp hrun
    cases hend
    exact .inl ⟨hfits, h₁, htake, rfl⟩
  · rw [if_neg hfits] at hrun
    rw [Bool.not_eq_true] at hfits
    by_cases hf : s.heap.freep = some call.p
    · rw [if_pos hf] at hrun
      obtain ⟨⟨ok, h₁⟩, hmore, hend⟩ := Option.bind_eq_some_iff.mp hrun
      refine .inr (.inl ⟨hfits, hf, ok, h₁, hmore, ?_⟩)
      cases ok with
      | false =>
        cases hend
        exact .inr ⟨rfl, rfl⟩
      | true =>
        obtain ⟨y, hy, hend⟩ := Option.bind_eq_some_iff.mp hend
        cases hend
        refine .inl ⟨rfl, ?_⟩
        unfold Call.goesOn
        rw [show h₁.next call.p = y.ptr from congrArg Header.ptr (Heap.hd_eq hy)]
    · rw [if_neg hf] at hrun
      cases hrun
      exact .inr (.inr ⟨hfits, hf, rfl⟩)

theorem Ok.erase (hok : Ok base c live h) (hb : b ∈ live) : Ok base c (b :: live.erase b) h := by
  have hperm := List.perm_cons_erase hb
  exact ⟨hok.tiled.congr (fun x => by rw [hperm.mem_iff]) rfl (fun _ hx => hx) fun _ _ => ⟨rfl, rfl⟩, hok.loop,
    hok.ascends, hok.base_mem, hperm.nodup_iff.mp hok.nodup, fun x hx => hok.apart x (hperm.mem_iff.mpr hx)⟩

theorem Inv.free (hi : Inv base c s) (hcall : s.call = none) (hb : b ∈ s.live) (hrun : s.free fuel b = some s') :
    (∃ c', Inv base c' s') ∧ s'.call = none ∧ s'.result = none := by
  obtain ⟨h₁, hfree, hend⟩ := Option.bind_eq_some_iff.mp hrun
  cases hend
  obtain ⟨f, hfc, hf⟩ := hi.freep
  obtain ⟨q, c', rfl, -, hok, hfreed⟩ := (hi.ok.erase hb).freeLocked_run hf hfc hfree
  refine ⟨⟨c', hok, ⟨q, hfreed.gap.2, hfreed.freep⟩, ?_, fun call' hcall' => ?_⟩, hcall, rfl⟩
  · exact hi.brk
  · rw [hcall] at hcall'
    cases hcall'

/-- The heap with `base` as its free list. -/
def Heap.init (h : Heap) (base : ℕ) : Heap := { h.put base ⟨base, 0, false⟩ with freep := some base }

theorem Start.ok (hstart : Start base s) : Ok base [base] [] (s.heap.init base) := by
  have hhd : (s.heap.init base).hd base = ⟨base, 0, false⟩ := Heap.hd_put_self ..
  refine ⟨⟨.inl List.mem_cons_self, congrArg Header.size hhd, congrArg Header.type hhd, ⟨fun a ha => ?_,
    fun a b ha hb hab => ?_⟩, fun a x ha hax hxa => ?_, hstart.kern⟩, congrArg Header.ptr hhd,
    ⟨[base], List.pairwise_singleton _ _, List.IsRotated.refl _⟩, List.mem_cons_self, List.nodup_nil, nofun⟩
  · obtain rfl := List.mem_singleton.mp (ha.resolve_right List.not_mem_nil)
    rw [Heap.len_base]
    decide
  · obtain rfl := List.mem_singleton.mp (ha.resolve_right List.not_mem_nil)
    obtain rfl := List.mem_singleton.mp (hb.resolve_right List.not_mem_nil)
    exact absurd hab (Nat.lt_irrefl _)
  · obtain rfl := List.mem_singleton.mp (ha.resolve_right List.not_mem_nil)
    rw [Heap.len_base] at hxa
    obtain ⟨hm, harea⟩ := hstart.image x hax hxa
    refine ⟨Heap.put_ne_none _ _ _ hm, ?_⟩
    rw [if_pos (.inl rfl)]
    exact harea

theorem Start.inv (hstart : Start base s) : Inv base [base] { s with heap := s.heap.init base } := by
  refine ⟨?_, ⟨base, List.mem_cons_self, rfl⟩, .inl hstart.brk, fun call hcall => ?_⟩
  · rw [show s.live = [] from hstart.live]
    exact hstart.ok
  · rw [show s.call = none from hstart.call] at hcall
    cases hcall

/-- The first call makes the free list. -/
theorem malloc_start (hstart : Start base s) :
    s.malloc base size type = Sys.malloc { s with heap := s.heap.init base } base size type := by
  unfold Sys.malloc
  dsimp only
  rw [hstart.freep, Heap.set_eq hstart.header]
  rfl

theorem malloc_eq (hf : s.heap.freep = some f) (hmem : s.heap.mem f ≠ none) : s.malloc base size type =
    some { s with call := some ⟨size, type, f, s.heap.next f, 0⟩, result := none } := by
  obtain ⟨x, hx⟩ := Option.ne_none_iff_exists'.mp hmem
  unfold Sys.malloc
  rw [hf]
  simp only [Option.bind_eq_bind, Option.bind_some, hf, hx]
  rw [show s.heap.next f = x.ptr from congrArg Header.ptr (Heap.hd_eq hx)]
  rfl

/-- A call begins behind `freep`. -/
theorem Inv.malloc (hi : Inv base c s) (hrun : s.malloc base size type = some s') :
    Inv base c s' ∧ s'.result = none ∧
      ∃ f ∈ c, s'.heap.freep = some f ∧ s'.call = some ⟨size, type, f, s'.heap.next f, 0⟩ := by
  obtain ⟨f, hfc, hf⟩ := hi.freep
  rw [malloc_eq hf (hi.ok.tiled.mem_ne_none (.inl hfc))] at hrun
  cases hrun
  refine ⟨⟨hi.ok, hi.freep, hi.brk, fun call' hcall' => ?_⟩, rfl, f, hfc, hf, rfl⟩
  cases hcall'
  exact ⟨hi.ok.loop.next_mem hfc, fun _ => ⟨hfc, rfl⟩⟩

/-- **A round of `malloc_locked` keeps the invariant.** -/
theorem Inv.visit (hi : Inv base c s) (hcall : s.call = some call) (hkeeps : KeepsHeap s (.visit grant))
    (hrun : s.visit fuel grant = some s') : ∃ c', Inv base c' s' ∧ ∀ call' ptr,
      s'.result = some (call', some ptr) → call' = call ∧ call.fits (s.heap.hd call.p) = true ∧
        ptr = call.p + HEADER ∧ call.p ∈ s'.live ∧ (s'.heap.hd call.p).size = call.nunits := by
  have hmem := hi.ok.tiled.mem_ne_none (.inl (hi.call call hcall).mem)
  rcases visit_cases hcall hmem hrun with ⟨hfits, h₁, htake, rfl⟩ | ⟨hno, hf, ok, h₁, hmore, hend⟩ | ⟨hno, hf, rfl⟩
  · obtain ⟨c', hi', hsize⟩ := hi.take hcall hfits htake
    refine ⟨c', hi', fun call' ptr hres => ?_⟩
    cases hres
    exact ⟨rfl, hfits, rfl, List.mem_cons_self, hsize⟩
  · obtain ⟨hcut, hstale⟩ := hkeeps call hcall hno hf
    have hpc := (hi.call call hcall).mem
    rcases hi.ok.morecore_cases hi.brk hf hpc hcut hmore with
      ⟨rfl, heq, hknows⟩ | ⟨rfl, hknows, b, q, h₂, c', hgrows, hext, -, -, -, hok₁, hfreed⟩
    · obtain ⟨-, rfl⟩ := hend.resolve_left fun hend => Bool.false_ne_true hend.1
      refine ⟨c, hi.refused heq hknows, fun _ _ hres => ?_⟩
      cases hres
    · obtain ⟨-, rfl⟩ := hend.resolve_right fun hend => Bool.false_ne_true hend.1.symm
      exact ⟨c', hi.granted hcall hgrows hext hfreed hok₁ hknows hstale, nofun⟩
  · exact ⟨c, hi.move hcall, nofun⟩

/-! ## Runs -/

theorem Inv.step (hi : Start base s ∨ ∃ c, Inv base c s) (hkeeps : KeepsHeap s act) (henabled : s.Enabled act)
    (hstep : s.step base fuel act = some s') : ∃ c, Inv base c s' := by
  cases act with
  | malloc size type =>
    rcases hi with hstart | ⟨c, hi⟩
    · exact ⟨_, (hstart.inv.malloc ((malloc_start hstart).symm.trans hstep)).1⟩
    · exact ⟨c, (hi.malloc hstep).1⟩
  | visit grant =>
    obtain ⟨call, hcall⟩ := Option.ne_none_iff_exists'.mp henabled
    rcases hi with hstart | ⟨c, hi⟩
    · rw [hstart.call] at hcall
      cases hcall
    · obtain ⟨c', hi', -⟩ := hi.visit hcall hkeeps hstep
      exact ⟨c', hi'⟩
  | free bp =>
    rcases hi with hstart | ⟨c, hi⟩
    · exact absurd henabled.2 (by rw [hstart.live]; exact List.not_mem_nil)
    · exact (hi.free henabled.1 henabled.2 hstep).1

theorem Inv.run (hrun : RunIf P base s₀ s) (hP : ∀ s a, P s a → KeepsHeap s a) (hstart : Start base s₀) :
    Start base s ∨ ∃ c, Inv base c s := by
  induction hrun with
  | nil => exact .inl hstart
  | cons fuel _ hmeets henabled hstep ih => exact .inr (Inv.step ih (hP _ _ hmeets) henabled hstep)

/-- A run of given steps that pass a check. -/
def Sys.run (check : Sys → Act → Bool) (base fuel : ℕ) : List Act → Sys → Option Sys
  | [], s => some s
  | a :: acts, s =>
    if s.Enabled a ∧ check s a = true then (s.step base fuel a).bind (Sys.run check base fuel acts) else none

theorem runIf_of_run {check : Sys → Act → Bool} {acts : List Act} (hP : ∀ s a, check s a = true → P s a)
    (hrun : RunIf P base s₀ s) (hacts : s.run check base fuel acts = some s') : RunIf P base s₀ s' := by
  induction acts generalizing s with
  | nil =>
    cases hacts
    exact hrun
  | cons a acts ih =>
    unfold Sys.run at hacts
    split at hacts
    · rename_i hmeets
      obtain ⟨s₁, hstep, hacts⟩ := Option.bind_eq_some_iff.mp hacts
      exact ih (.cons fuel hrun (hP s a hmeets.2) hmeets.1 hstep) hacts
    · cases hacts

/-! ## A program with one page -/

/-- The program before its first call. -/
def onePage : Sys :=
  ⟨⟨fun x => if USERBASE ≤ x ∧ x < USERBASE + PGSIZE then some ⟨0, 0, false⟩ else none, none, 0,
    ⟨USERBASE + PGSIZE, USERBASE + PGSIZE, [(USERBASE, USERBASE + PGSIZE)]⟩⟩, none, [], none⟩

theorem onePage_start : Start USERBASE onePage := by
  have hkern : onePage.heap.kern.Ok USERBASE :=
    ⟨by decide, by decide, by decide, by decide, fun r hr => by
      rw [List.mem_singleton.mp hr]
      decide⟩
  refine ⟨rfl, rfl, rfl, fun x hle hlt => ?_, hkern, rfl, rfl, rfl⟩
  have hx : x < USERBASE + PGSIZE := Nat.lt_of_lt_of_le hlt (by decide)
  have hmem : onePage.heap.mem x = some ⟨0, 0, false⟩ := if_pos ⟨hle, hx⟩
  refine ⟨?_, (USERBASE, USERBASE + PGSIZE), List.mem_cons_self, hle, hx⟩
  rw [hmem]
  nofun

end Ucore.Malloc
