import Ucore.User.MallocRoom

/-!
# The user's heap: when `malloc` gives up

A call walks once round the free list, up to `freep`, before it asks the kernel.  `free_locked` moves `freep`
when it puts the new block into the list, and the call goes on from its old place: it may come to `freep`
before it comes to the new block, and then asks again.

* `Lap` — a call has still to see every block that fits, or has one that fits ahead of `freep`;
* `gives_up_when_full` — a run in which a new block is put behind `freep`, or into the block there.
-/

namespace Ucore.Malloc

open SortedLoop (Path Gap)

variable {base b fuel size : ℕ} {type : Bool} {c : List ℕ} {call : Call} {act : Act} {s s' s₀ : Sys} {h : Heap}
  {grant : Option ℕ}

/-- A new block is put behind `freep`, or the block before it takes it in. -/
def MeetsNew (s : Sys) : Act → Prop
  | .visit grant => ∀ call, s.call = some call → call.fits (s.heap.hd call.p) = false →
      s.heap.freep = some call.p → ∀ b q, s.heap.GrowsAt call grant b → s.heap.Free q → Gap s.heap.next q b →
        q = call.p ∨ (s.heap.hd q).type = call.type ∧ q + (s.heap.hd q).size * HEADER = b
  | _ => True

/-- What is left of a call: on the first lap, the blocks that it has not seen; on the second, a block that
fits. -/
inductive Lap (c : List ℕ) (h : Heap) (call : Call) : Prop
  | first {l : List ℕ} {f : ℕ} (hasked : call.asked = 0) (hf : h.freep = some f) (hpath : Path h.next call.p l f)
      (hno : f ∉ l) (hseen : ∀ x ∈ c, x ∈ l ∨ x = f ∨ call.fits (h.hd x) = false) : Lap c h call
  | second {l : List ℕ} {f t : ℕ} (hasked : call.asked = 1) (hf : h.freep = some f)
      (hpath : Path h.next call.p l t) (hno : f ∉ l) (hfits : call.fits (h.hd t) = true) : Lap c h call

/-- Between the steps, with what the last call has returned. -/
structure Laps (c : List ℕ) (s : Sys) : Prop where
  call : ∀ call, s.call = some call → Lap c s.heap call
  result : ∀ call r, s.result = some (call, r) →
    call.asked ≤ 1 ∧ (r = none → ∀ x ∈ c, call.fits (s.heap.hd x) = false)

theorem Lap.asked_le (hlap : Lap c h call) : call.asked ≤ 1 := by
  cases hlap with
  | first hasked => omega
  | second hasked => omega

/-- A call goes past a block that does not fit. -/
theorem Lap.move (hlap : Lap c h call) (hno : call.fits (h.hd call.p) = false) (hf : h.freep ≠ some call.p) :
    Lap c h { call with prevp := call.p, p := h.next call.p } := by
  cases hlap with
  | @first l f hasked hf' hpath hfl hseen =>
    cases l with
    | nil => exact absurd (hf'.trans (congrArg some hpath.symm)) hf
    | cons x l =>
      obtain ⟨rfl, hpath⟩ := hpath
      refine .first hasked hf' hpath (fun hmem => hfl (List.mem_cons_of_mem _ hmem)) fun y hy => ?_
      rcases hseen y hy with hy | hy
      · rcases List.mem_cons.mp hy with rfl | hy
        · exact .inr (.inr hno)
        · exact .inl hy
      · exact .inr hy
  | @second l f t hasked hf' hpath hfl hfits =>
    cases l with
    | nil =>
      rw [show call.p = t from hpath] at hno
      rw [hno] at hfits
      cases hfits
    | cons x l =>
      obtain ⟨rfl, hpath⟩ := hpath
      exact .second hasked hf' hpath (fun hmem => hfl (List.mem_cons_of_mem _ hmem)) hfits

/-- At `freep`, every block has been seen. -/
theorem Lap.none_fits (hlap : Lap c h call) (hno : call.fits (h.hd call.p) = false) (hf : h.freep = some call.p) :
    call.asked = 0 ∧ ∀ x ∈ c, call.fits (h.hd x) = false := by
  cases hlap with
  | @first l f hasked hf' hpath hfl hseen =>
    obtain rfl : call.p = f := Option.some_inj.mp (hf.symm.trans hf')
    cases l with
    | nil =>
      refine ⟨hasked, fun x hx => ?_⟩
      rcases hseen x hx with hx | rfl | hx
      · exact absurd hx List.not_mem_nil
      · exact hno
      · exact hx
    | cons x l => exact absurd (hpath.1 ▸ List.mem_cons_self) hfl
  | @second l f t hasked hf' hpath hfl hfits =>
    obtain rfl : call.p = f := Option.some_inj.mp (hf.symm.trans hf')
    cases l with
    | nil =>
      rw [show call.p = t from hpath] at hno
      rw [hno] at hfits
      cases hfits
    | cons x l => exact absurd (hpath.1 ▸ List.mem_cons_self) hfl

/-- A call begins with a whole lap. -/
theorem Inv.first_lap {f : ℕ} (hi : Inv base c s) (hfc : f ∈ c) (hf : s.heap.freep = some f) :
    Lap c s.heap ⟨size, type, f, s.heap.next f, 0⟩ := by
  obtain ⟨u, v, -, hr⟩ := SortedLoop.isRotated_cons_of_mem hfc
  have hloop := hi.ok.loop.isRotated hr
  have hnodup := (hi.ok.ascends.isRotated hr).nodup
  refine .first rfl hf hloop (List.nodup_cons.mp hnodup).1 fun x hx => ?_
  rcases List.mem_cons.mp (hr.mem_iff.mp hx) with hx | hx
  · exact .inr (.inl hx)
  · exact .inl hx

theorem Laps.malloc (hi : Inv base c s) (hrun : s.malloc base size type = some s') : Laps c s' := by
  obtain ⟨hi', hresult, f, hfc, hf, hcall⟩ := hi.malloc hrun
  refine ⟨fun call hcall' => ?_, fun call r hresult' => ?_⟩
  · rw [hcall] at hcall'
    cases hcall'
    exact hi'.first_lap hfc hf
  · rw [hresult] at hresult'
    cases hresult'

/-- A round of `malloc_locked`. -/
theorem Laps.visit (hi : Inv base c s) (hlaps : Laps c s) (hcall : s.call = some call)
    (hkeeps : KeepsHeap s (.visit grant)) (hmeets : MeetsNew s (.visit grant))
    (hrun : s.visit fuel grant = some s') : ∃ c', Inv base c' s' ∧ Laps c' s' := by
  have hlap := hlaps.call call hcall
  have hpc := (hi.call call hcall).mem
  have hmem := hi.ok.tiled.mem_ne_none (.inl hpc)
  rcases visit_cases hcall hmem hrun with ⟨hfits, h₁, htake, rfl⟩ | ⟨hno, hf, ok, h₁, hmore, hend⟩ | ⟨hno, hf, rfl⟩
  · obtain ⟨c', hi', -⟩ := hi.take hcall hfits htake
    refine ⟨c', hi', nofun, fun call' r hres => ?_⟩
    cases hres
    exact ⟨hlap.asked_le, nofun⟩
  · obtain ⟨hasked, hnone⟩ := hlap.none_fits hno hf
    obtain ⟨hcut, hstale⟩ := hkeeps call hcall hno hf
    rcases hi.ok.morecore_cases hi.brk hf hpc hcut hmore with
      ⟨rfl, heq, hknows⟩ | ⟨rfl, hknows, b, q, h₂, c', hgrows, hext, -, -, hgap, hok₁, hfreed⟩
    · obtain ⟨-, rfl⟩ := hend.resolve_left fun hend => Bool.false_ne_true hend.1
      refine ⟨c, hi.refused heq hknows, nofun, fun call' r hres => ?_⟩
      cases hres
      refine ⟨by dsimp only; omega, fun _ x hx => ?_⟩
      dsimp only
      rw [heq]
      exact hnone x hx
    · obtain ⟨-, rfl⟩ := hend.resolve_right fun hend => Bool.false_ne_true hend.1.symm
      refine ⟨c', hi.granted hcall hgrows hext hfreed hok₁ hknows hstale, fun call' hcall' => ?_, nofun⟩
      cases hcall'
      have hqc := hfreed.gap.1
      have hgap' : Gap s.heap.next q b := by
        unfold Gap at hgap ⊢
        rwa [hext.next_eq hqc] at hgap
      have hplace : call.p = q ∨ h₂.Merges b q := by
        refine (hmeets call hcall hno hf b q hgrows ((hi.ok.free_iff hf hpc).mpr hqc) hgap').imp Eq.symm fun hq => ?_
        unfold Heap.Merges
        rw [hext.hd_eq hqc, hext.type]
        exact hq
      obtain ⟨l, t, hpath, hql, hfits⟩ := Inv.granted_ahead hext hfreed hok₁ hpc hplace
      exact .second (by unfold Call.goesOn; dsimp only; omega) hfreed.freep hpath hql hfits
  · refine ⟨c, hi.move hcall, fun call' hcall' => ?_, nofun⟩
    cases hcall'
    exact hlap.move hno hf

/-! ## Runs -/

theorem Laps.step (hi : Start base s ∨ ∃ c, Inv base c s ∧ Laps c s) (hkeeps : KeepsHeap s act)
    (hmeets : MeetsNew s act) (henabled : s.Enabled act) (hstep : s.step base fuel act = some s') :
    ∃ c, Inv base c s' ∧ Laps c s' := by
  cases act with
  | malloc size type =>
    rcases hi with hstart | ⟨c, hi, -⟩
    · have hrun := (malloc_start hstart).symm.trans hstep
      exact ⟨_, (hstart.inv.malloc hrun).1, Laps.malloc hstart.inv hrun⟩
    · exact ⟨c, (hi.malloc hstep).1, Laps.malloc hi hstep⟩
  | visit grant =>
    obtain ⟨call, hcall⟩ := Option.ne_none_iff_exists'.mp henabled
    rcases hi with hstart | ⟨c, hi, hlaps⟩
    · rw [hstart.call] at hcall
      cases hcall
    · exact Laps.visit hi hlaps hcall hkeeps hmeets hstep
  | free bp =>
    rcases hi with hstart | ⟨c, hi, hlaps⟩
    · exact absurd henabled.2 (by rw [hstart.live]; exact List.not_mem_nil)
    · obtain ⟨⟨c', hi'⟩, hcall, hresult⟩ := hi.free henabled.1 henabled.2 hstep
      refine ⟨c', hi', fun call hcall' => ?_, fun call r hresult' => ?_⟩
      · rw [hcall] at hcall'
        cases hcall'
      · rw [hresult] at hresult'
        cases hresult'

theorem Laps.run (hrun : RunIf (fun s a => KeepsHeap s a ∧ MeetsNew s a) base s₀ s) (hstart : Start base s₀) :
    Start base s ∨ ∃ c, Inv base c s ∧ Laps c s := by
  induction hrun with
  | nil => exact .inl hstart
  | cons fuel _ hmeets henabled hstep ih => exact .inr (Laps.step ih hmeets.1 hmeets.2 henabled hstep)

theorem sysBrk_refused (h : Heap) (r : ℕ) : h.sysBrk false r = (h.kern.brk, h) := by
  unfold Heap.sysBrk
  simp

theorem not_growsAt_none : ¬ h.GrowsAt call none b := by
  unfold Heap.GrowsAt
  split
  · rintro ⟨_, hgrant⟩
    cases hgrant
  · rintro ⟨-, hlt⟩
    rw [show (none : Option ℕ).isSome = false from rfl, sysBrk_refused] at hlt
    exact absurd hlt (Nat.lt_irrefl _)

/-- The kernel refuses. -/
def refused (_ : Sys) : Act → Bool
  | .visit grant => grant.isNone
  | _ => true

theorem refused_meets (hcheck : refused s act = true) : KeepsHeap s act ∧ MeetsNew s act := by
  cases act with
  | visit grant =>
    obtain rfl := Option.isNone_iff_eq_none.mp hcheck
    refine ⟨fun call _ _ _ => ⟨fun hcuts => ?_, fun hstale => ?_⟩, fun call _ _ _ b q hgrows =>
      absurd hgrows not_growsAt_none⟩
    · have hlt := hcuts.2
      rw [show (none : Option ℕ).isSome = false from rfl, sysBrk_refused] at hlt
      exact absurd hlt (Nat.lt_irrefl _)
    · obtain ⟨-, b, hgrows, -⟩ := hstale
      exact not_growsAt_none hgrows
  | malloc size type => exact ⟨trivial, trivial⟩
  | free bp => exact ⟨trivial, trivial⟩

/-- The kernel refuses, or the free list has one block when the kernel grants more. -/
def lone (s : Sys) : Act → Bool
  | .visit grant => grant.isNone ||
      tame s (.visit grant) && s.call.all fun call => decide (s.heap.next call.p = call.p)
  | _ => true

theorem Heap.Free.eq_of_lone {a p : ℕ} (hfree : h.Free a) (hp : h.freep = some p) (hnext : h.next p = p) : a = p := by
  induction hfree with
  | head hp' => exact Option.some.inj (hp'.symm.trans hp)
  | next _ hx ih =>
    subst ih
    unfold Heap.next at hnext
    rwa [Heap.hd_eq hx] at hnext

theorem lone_meets (hcheck : lone s act = true) : KeepsHeap s act ∧ MeetsNew s act := by
  cases act with
  | visit grant =>
    rcases Bool.or_eq_true_iff.mp hcheck with hnone | hcheck
    · exact refused_meets hnone
    · obtain ⟨htame, hlone⟩ := Bool.and_eq_true_iff.mp hcheck
      refine ⟨(tame_keeps htame).1, fun call hcall _ hfreep b q _ hfree _ => .inl (hfree.eq_of_lone hfreep ?_)⟩
      rw [hcall] at hlone
      exact of_decide_eq_true hlone
  | malloc size type => exact ⟨trivial, trivial⟩
  | free bp => exact ⟨trivial, trivial⟩

/-- **A call that gives up has asked the kernel once, and no free block is large enough.** -/
theorem gives_up_when_full (hrun : RunIf (fun s a => KeepsHeap s a ∧ MeetsNew s a) base s₀ s)
    (hstart : Start base s₀) :
    (∀ call, s.call = some call → call.asked ≤ 1) ∧ ∀ call r, s.result = some (call, r) → call.asked ≤ 1 ∧
      (r = none → ∀ a x, s.heap.Free a → s.heap.mem a = some x → call.fits x = false) := by
  rcases Laps.run hrun hstart with hstart | ⟨c, hi, hlaps⟩
  · rw [hstart.call, hstart.result]
    exact ⟨nofun, nofun⟩
  · refine ⟨fun call hcall => (hlaps.call call hcall).asked_le, fun call r hresult => ?_⟩
    obtain ⟨hasked, hnone⟩ := hlaps.result call r hresult
    refine ⟨hasked, fun hr a x hfree hx => ?_⟩
    obtain ⟨f, hfc, hf⟩ := hi.freep
    rw [← Heap.hd_eq hx]
    exact hnone hr a ((hi.ok.free_iff hf hfc).mp hfree)

/-- The kernel gives a page for the first call, and nothing for the second. -/
theorem gives_up_when_full_refused : ∃ s call, onePage.run lone USERBASE 1 [.malloc 64 false, .visit (some 0),
      .visit none, .malloc 8000 false, .visit none, .visit none] = some s ∧
    s.result = some (call, none) ∧ call.asked ≤ 1 ∧
    ∀ a x, s.heap.Free a → s.heap.mem a = some x → call.fits x = false := by
  have hrun : ((onePage.run lone USERBASE 1 [.malloc 64 false, .visit (some 0), .visit none, .malloc 8000 false,
      .visit none, .visit none]).map (·.result)) =
        some (some (⟨8000, false, USERBASE + 0x1080, USERBASE, 1⟩, none)) := by decide +kernel
  obtain ⟨s, hs, hresult⟩ := Option.map_eq_some_iff.mp hrun
  have hruns := runIf_of_run (P := fun s a => KeepsHeap s a ∧ MeetsNew s a) (fun s a => lone_meets) .nil hs
  obtain ⟨hasked, hfull⟩ := (gives_up_when_full hruns onePage_start).2 _ _ hresult
  exact ⟨s, _, hs, hresult, hasked, hfull rfl⟩

/-- The call meets `freep` before the new block, and asks again. -/
theorem gives_up_too_early : Start USERBASE onePage ∧ ∃ s call a x, RunIf (fun _ _ => True) USERBASE onePage s ∧
    s.result = some (call, none) ∧ call.size + HEADER ≤ WORD ∧ call.asked = 2 ∧ s.heap.Free a ∧
    s.heap.mem a = some x ∧ call.fits x = true := by
  have hrun : ((onePage.run (fun _ _ => true) USERBASE 4
      [.malloc 64 false, .visit (some 0), .visit none, .malloc 3904 false, .visit none, .free (USERBASE + 0x1000),
        .malloc 4096 false, .visit none, .visit (some 0), .visit none]).map fun s =>
        (s.result, s.heap.freep, s.heap.mem (USERBASE + 0x1000), s.heap.mem (USERBASE + 0x2000))) =
      some (some (⟨4096, false, USERBASE, USERBASE + 0x1000, 2⟩, none), some (USERBASE + 0x1000),
        some ⟨USERBASE + 0x2000, 2, false⟩, some ⟨USERBASE, 128, false⟩) := by
    decide +kernel
  obtain ⟨s, hs, heq⟩ := Option.map_eq_some_iff.mp hrun
  simp only [Prod.mk.injEq] at heq
  obtain ⟨hresult, hfreep, hfirst, hsecond⟩ := heq
  have hfree : s.heap.Free (USERBASE + 0x2000) := (Heap.Free.head hfreep).next hfirst
  exact ⟨onePage_start, s, _, _, _, runIf_of_run (fun _ _ _ => trivial) .nil hs, hresult, by decide, rfl, hfree,
    hsecond, by decide⟩

end Ucore.Malloc
