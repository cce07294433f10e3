import Mathlib.Algebra.Order.Group.Int
import Mathlib.Algebra.Order.Monoid.Prod
import Ucore.Fork.Objects
import Ucore.Lib.Lease

/-!
# `copy_sem` and `put_sem_queue`

The rules for the operations on a heap whose objects are partly on lease, and from them: a `copy_sem`
that fails leaves the heap as it was, and `put_sem_queue` undoes one that succeeds.
-/

namespace Ucore.Fork

open Lease

/-- `Leased`, for the objects of the kernel. -/
abbrev Lent (base new : Heap) (taken : ℕ → Counters) (h : Heap) : Prop := Leased base new taken h

/-- What a process has: not itself a process. -/
def Obj.Held (x : Obj) : Prop := ∀ r, x.body ≠ .proc r

/-- Objects that processes have are still there, and no counter is lower. -/
def Grown (h h' : Heap) : Prop :=
  ∀ a x, h a = some x → x.Held → ∃ c : Counters, 0 ≤ c ∧ h' a = some (c +ᵥ x)

/-- What a successful copy leaves: `put` gives the heap back as it was. -/
structure Copied (h h' : Heap) (put : Heap → Option Heap) : Prop where
  grown : Grown h h'
  undone : ∀ h'', put h' = some h'' → h'' = h

section rules

variable {base new h h' : Heap} {taken : ℕ → Counters} {a : ℕ} {x y : Obj} {c : Counters} {r : Option ℕ}

theorem Grown.refl (h : Heap) : Grown h h := fun a x hx _ => ⟨0, le_rfl, by rw [zero_vadd, hx]⟩

theorem Grown.trans {h'' : Heap} (hg : Grown h h') (hg' : Grown h' h'') : Grown h h'' := by
  intro a x hx hheld
  obtain ⟨c, hc, hx'⟩ := hg a x hx hheld
  obtain ⟨d, hd, hx''⟩ := hg' a _ hx' hheld
  exact ⟨d + c, add_nonneg hd hc, by rw [add_vadd, hx'']⟩

theorem Leased.grown (hl : Lent base new taken h) (hpos : ∀ a, 0 ≤ taken a) : Grown base h :=
  fun a _ hx _ => ⟨taken a, hpos a, hl.get_old hx⟩

/-- `kmalloc` fails, or finds an address that is not in use. -/
theorem kmalloc_cases (h : Heap) (r : Option ℕ) (obj : ℕ → Obj) :
    h.kmalloc r obj = (none, h) ∨
      ∃ a, h a = none ∧ h.kmalloc r obj = (some a, Function.update h a (some (obj a))) := by
  unfold Heap.kmalloc
  cases hr : r.filter fun a => (h a).isNone with
  | none => exact Or.inl rfl
  | some a =>
    obtain ⟨-, hfree⟩ := Option.filter_eq_some_iff.mp hr
    exact Or.inr ⟨a, by simpa using hfree, rfl⟩

theorem add_eq_some (hrun : h.add a c = some (y, h')) :
    ∃ x, h a = some x ∧ y = c +ᵥ x ∧ h' = Function.update h a (some (c +ᵥ x)) := by
  obtain ⟨x, hx, heq⟩ := Option.map_eq_some_iff.mp hrun
  cases heq
  exact ⟨x, hx, rfl, rfl⟩

/-- `add` on an old object. -/
theorem Leased.add_old (hl : Lent base new taken h) (ha : base a = some x) (hrun : h.add a c = some (y, h')) :
    y = c +ᵥ (taken a +ᵥ x) ∧ Lent base new (Pi.single a c + taken) h' := by
  obtain ⟨z, hz, rfl, rfl⟩ := add_eq_some hrun
  cases (hl.get_old ha).symm.trans hz
  exact ⟨rfl, hl.take ha c⟩

/-- `add` on a new object. -/
theorem Leased.add_new (hl : Lent base new taken h) (ha : new a = some x) (hrun : h.add a c = some (y, h')) :
    y = c +ᵥ x ∧ Lent base (Function.update new a (some (c +ᵥ x))) taken h' := by
  obtain ⟨z, hz, rfl, rfl⟩ := add_eq_some hrun
  cases (hl.get_new ha).symm.trans hz
  exact ⟨rfl, hl.write ha _⟩

theorem Leased.kfree_new (hl : Lent base new taken h) (ha : new a = some x) (hrun : h.kfree a = some h') :
    Lent base (Function.update new a none) taken h' := by
  obtain ⟨z, -, rfl⟩ := Option.map_eq_some_iff.mp hrun
  exact hl.free ha

theorem Leased.setBody_new {b : Body} (hl : Lent base new taken h) (ha : new a = some x)
    (hrun : h.setBody a b = some h') : Lent base (Function.update new a (some { x with body := b })) taken h' := by
  obtain ⟨z, hz, rfl⟩ := Option.map_eq_some_iff.mp hrun
  cases (hl.get_new ha).symm.trans hz
  exact hl.write ha _

theorem Leased.down_old (hl : Lent base new taken h) (ha : base a = some x) (hrun : h.down a = some h') :
    Lent base new (Pi.single a (-anUp) + taken) h' := by
  obtain ⟨y, -, hrest⟩ := Option.bind_eq_some_iff.mp hrun
  obtain ⟨_, -, hmap⟩ := Option.bind_eq_some_iff.mp hrest
  obtain ⟨⟨z, h₁⟩, hadd, rfl⟩ := Option.map_eq_some_iff.mp hmap
  exact (Leased.add_old hl ha hadd).2

theorem Leased.up_old (hl : Lent base new taken h) (ha : base a = some x) (hrun : h.up a = some h') :
    Lent base new (Pi.single a anUp + taken) h' := by
  obtain ⟨⟨z, h₁⟩, hadd, rfl⟩ := Option.map_eq_some_iff.mp hrun
  exact (Leased.add_old hl ha hadd).2

/-- Between `down` and `up` something else has been taken. -/
theorem up_down (a : ℕ) (t t' : ℕ → Counters) :
    Pi.single a anUp + (t + (Pi.single a (-anUp) + t')) = t + t' := by
  rw [add_left_comm, ← add_assoc (Pi.single a anUp) (Pi.single a (-anUp)) t', ← Pi.single_add, add_neg_cancel,
    Pi.single_zero, zero_add]

/-- What has been taken several times is not negative. -/
theorem total_nonneg (hc : 0 ≤ c) : ∀ (l : List ℕ) (a : ℕ), 0 ≤ total c l a
  | [], _ => le_rfl
  | b :: l, a => by
    rw [total_cons, Pi.add_apply]
    refine add_nonneg ?_ (total_nonneg hc l a)
    by_cases hab : a = b
    · subst hab
      rwa [Pi.single_eq_same]
    · rw [Pi.single_eq_of_ne hab]

theorem aRef_nonneg : 0 ≤ aRef := by decide

end rules

/-! ## The entries of a queue -/

/-- A semaphore with references. -/
def SemLive (h : Heap) (sem : ℕ) : Prop := ∃ c valid, h sem = some ⟨c, .sem valid⟩ ∧ 0 < c.1

/-- A queue with references, and entries for semaphores that have references. -/
def QueueOk (h : Heap) (q : ℕ) : Prop :=
  ∃ c us, h q = some ⟨c, .semQueue us⟩ ∧ 0 < c.1 ∧ ∀ u ∈ us, ∃ d sem, h u = some ⟨d, .semu sem⟩ ∧ SemLive h sem

theorem SemLive.grown {h h' : Heap} {sem : ℕ} (hs : SemLive h sem) (hg : Grown h h') : SemLive h' sem := by
  obtain ⟨c, valid, hx, hpos⟩ := hs
  obtain ⟨d, hd, hx'⟩ := hg _ _ hx nofun
  have hd1 : 0 ≤ d.1 := hd.1
  refine ⟨d + c, valid, hx', ?_⟩
  show 0 < d.1 + c.1
  omega

theorem QueueOk.grown {h h' : Heap} {q : ℕ} (hq : QueueOk h q) (hg : Grown h h') : QueueOk h' q := by
  obtain ⟨c, us, hx, hpos, hus⟩ := hq
  obtain ⟨d, hd, hx'⟩ := hg _ _ hx nofun
  have hd1 : 0 ≤ d.1 := hd.1
  refine ⟨d + c, us, hx', ?_, fun u hu => ?_⟩
  · show 0 < d.1 + c.1
    omega
  · obtain ⟨e, sem, hsemu, hlive⟩ := hus u hu
    obtain ⟨d', -, hsemu'⟩ := hg _ _ hsemu nofun
    exact ⟨d' + e, sem, hsemu', hlive.grown hg⟩

/-- The objects of the entries `l`, each for the semaphore that `σ` says. -/
def semus (σ : ℕ → ℕ) : ℕ → Obj := fun u => ⟨0, .semu (σ u)⟩

/-- The entries `l` are on lease, with a reference to a semaphore each. -/
structure Queued (base new : Heap) (taken : ℕ → Counters) (σ : ℕ → ℕ) (l : List ℕ) (h : Heap) : Prop where
  lent : Lent base (withNew new (semus σ) l) (total aRef (l.map σ) + taken) h
  nodup : l.Nodup
  fresh : ∀ u ∈ l, new u = none
  live : ∀ u ∈ l, SemLive base (σ u)
  quiet : ∀ sem, SemLive base sem → (taken sem).1 = 0

section queued

variable {base new h h' : Heap} {taken : ℕ → Counters} {σ : ℕ → ℕ} {l us : List ℕ} {u v sem : ℕ} {ret : Int}
  {r : Option ℕ}

/-- `semu_create` adds an entry, or nothing. -/
theorem Queued.semuCreate {o : Option ℕ} (hq : Queued base new taken σ l h) (hsem : SemLive base sem)
    (hrun : h.semuCreate r sem = some (o, h')) :
    (o = none ∧ h' = h) ∨ ∃ v, o = some v ∧ Queued base new taken (Function.update σ v sem) (v :: l) h' := by
  unfold Heap.semuCreate at hrun
  rcases kmalloc_cases h r fun _ => ⟨0, .semu sem⟩ with hnone | ⟨v, hv, hsome⟩
  · rw [hnone] at hrun
    cases hrun
    exact Or.inl ⟨rfl, rfl⟩
  · rw [hsome] at hrun
    obtain ⟨⟨y, h₁⟩, hadd, heq⟩ := Option.map_eq_some_iff.mp hrun
    cases heq
    obtain ⟨c, valid, hbase, -⟩ := id hsem
    obtain ⟨hnew, -⟩ := hq.lent.new_none hv
    have hvl : v ∉ l := fun hmem => by simp [hmem] at hnew
    have hnewv : new v = none := by simpa [hvl] using hnew
    have hold : ∀ w ∈ l, Function.update σ v sem w = σ w := fun w hw =>
      Function.update_of_ne (fun heq : w = v => hvl (heq ▸ hw)) ..
    have hmap : l.map (Function.update σ v sem) = l.map σ := List.map_congr_left hold
    have hlent := (Leased.add_old (hq.lent.alloc hv ⟨0, .semu sem⟩) hbase hadd).2
    have hobj : withNew new (semus (Function.update σ v sem)) l = withNew new (semus σ) l :=
      withNew_congr fun w hw => by unfold semus; rw [hold w hw]
    refine Or.inr ⟨v, rfl, ?_, List.nodup_cons.mpr ⟨hvl, hq.nodup⟩, ?_, ?_, hq.quiet⟩
    · rw [withNew_cons, List.map_cons, total_cons, hmap, hobj, Function.update_self, add_assoc]
      simpa [semus] using hlent
    · intro w hw
      rcases List.mem_cons.mp hw with rfl | hw
      · exact hnewv
      · exact hq.fresh w hw
    · intro w hw
      rcases List.mem_cons.mp hw with rfl | hw
      · rw [Function.update_self]
        exact hsem
      · rw [hold w hw]
        exact hq.live w hw

/-- **`semu_destroy`** of the first entry: it goes, and its semaphore stays. -/
theorem Queued.semuDestroy (hq : Queued base new taken σ (u :: l) h) (hrun : h.semuDestroy u = some h') :
    Queued base new taken σ l h' := by
  obtain ⟨hul, hnodup⟩ := List.nodup_cons.mp hq.nodup
  have hu := hq.lent.get_new (withNew_of_mem (List.mem_cons_self (a := u) (l := l)))
  unfold Heap.semuDestroy at hrun
  obtain ⟨sem, hsem, hrest⟩ := Option.bind_eq_some_iff.mp hrun
  unfold Heap.semOf at hsem
  rw [hu] at hsem
  cases hsem
  obtain ⟨⟨y, h₁⟩, hadd, hrest⟩ := Option.bind_eq_some_iff.mp hrest
  obtain ⟨c, valid, hbase, hpos⟩ := hq.live u List.mem_cons_self
  obtain ⟨hy, hlent⟩ := Leased.add_old hq.lent hbase hadd
  have htaken : Pi.single (σ u) (-aRef) + (total aRef ((u :: l).map σ) + taken) =
      total aRef (l.map σ) + taken := by
    rw [List.map_cons, total_cons, add_assoc, give]
  rw [htaken] at hlent
  -- the semaphore keeps the references that it had
  have hne : y.count ≠ 0 := by
    have hstill := hlent.get_old hbase
    obtain ⟨z, hz, rfl, rfl⟩ := add_eq_some hadd
    rw [Function.update_self] at hstill
    rw [Option.some.inj hstill, vadd_count]
    have hnonneg : 0 ≤ (total aRef (l.map σ) (σ u)).1 := (total_nonneg aRef_nonneg _ _).1
    have hquiet := hq.quiet _ (hq.live u List.mem_cons_self)
    show (total aRef (l.map σ) (σ u)).1 + (taken (σ u)).1 + c.1 ≠ 0
    omega
  dsimp only at hrest
  rw [if_neg hne] at hrest
  obtain ⟨h₂, heq, hfree⟩ := Option.bind_eq_some_iff.mp hrest
  cases heq
  have hlent' := Leased.kfree_new hlent (withNew_of_mem (List.mem_cons_self (a := u) (l := l))) hfree
  rw [update_withNew_cons hul (hq.fresh u List.mem_cons_self)] at hlent'
  exact ⟨hlent', hnodup, fun w hw => hq.fresh w (List.mem_cons_of_mem u hw),
    fun w hw => hq.live w (List.mem_cons_of_mem u hw), hq.quiet⟩

/-- **The loop of `dup_sem_queue`**, from any state of the new queue on. -/
theorem dupSemLoop_spec {b : ℕ → Option ℕ} : ∀ (us l : List ℕ) (σ : ℕ → ℕ) (h : Heap) {l' : List ℕ},
    (∀ u ∈ us, ∃ d sem, base u = some ⟨d, .semu sem⟩ ∧ SemLive base sem) → Queued base new taken σ l h →
    Heap.dupSemLoop b us l h = some (ret, l', h') → ∃ σ', Queued base new taken σ' l' h'
  | [], l, σ, h, l', _, hq, hrun => by
    cases hrun
    exact ⟨σ, hq⟩
  | u :: us, l, σ, h, l', hus, hq, hrun => by
    obtain ⟨d, sem, hu, hlive⟩ := hus u List.mem_cons_self
    have hus' := fun w hw => hus w (List.mem_cons_of_mem u hw)
    unfold Heap.dupSemLoop at hrun
    obtain ⟨sem', hsem, hrest⟩ := Option.bind_eq_some_iff.mp hrun
    have hsem' : sem' = sem := by
      unfold Heap.semOf at hsem
      rw [hq.lent.get_old hu] at hsem
      exact (Option.some.inj hsem).symm
    subst hsem'
    obtain ⟨valid, -, hrest⟩ := Option.bind_eq_some_iff.mp hrest
    split at hrest
    · obtain ⟨⟨o, h₁⟩, hcreate, hnext⟩ := Option.bind_eq_some_iff.mp hrest
      rcases hq.semuCreate hlive hcreate with ⟨rfl, rfl⟩ | ⟨v, rfl, hq'⟩
      · cases hnext
        exact ⟨σ, hq⟩
      · exact dupSemLoop_spec us (v :: l) _ h₁ hus' hq' hnext
    · exact dupSemLoop_spec us l σ h hus' hq hrest

/-- **The loop of `exit_sem_queue`**: the entries go. -/
theorem exitSemLoop_spec : ∀ (l : List ℕ) (h : Heap), Queued base new taken σ l h →
    Heap.exitSemLoop l h = some h' → Lent base new taken h'
  | [], h, hq, hrun => by
    cases hrun
    simpa using hq.lent
  | u :: l, h, hq, hrun => by
    unfold Heap.exitSemLoop at hrun
    obtain ⟨h₁, hdestroy, hrest⟩ := Option.bind_eq_some_iff.mp hrun
    exact exitSemLoop_spec l h₁ (hq.semuDestroy hdestroy) hrest

end queued

/-! ## The calls -/

section calls

variable {base h h' : Heap} {taken : ℕ → Counters} {q dst : ℕ} {ret : Int}

/-- The queue at `dst` is new, and its entries are on lease. -/
def QueueNew (base : Heap) (taken : ℕ → Counters) (dst : ℕ) (c : Counters) (h : Heap) : Prop :=
  ∃ σ l, Queued base (Function.update (fun _ => none) dst (some ⟨c, .semQueue l⟩)) taken σ l h

/-- `exit_sem_queue` of a new queue. -/
theorem QueueNew.exitSemQueue {c : Counters} (hq : QueueNew base 0 dst c h)
    (hrun : h.exitSemQueue dst = some h') : h' = base := by
  obtain ⟨σ, l, hq⟩ := hq
  have hdst : dst ∉ l := fun hmem => by simpa using hq.fresh dst hmem
  have hget := hq.lent.get_new (a := dst) (x := ⟨c, .semQueue l⟩) (by simp [hdst])
  unfold Heap.exitSemQueue at hrun
  obtain ⟨x, -, hrest⟩ := Option.bind_eq_some_iff.mp hrun
  obtain ⟨_, -, hrest⟩ := Option.bind_eq_some_iff.mp hrest
  obtain ⟨us, hus, hrest⟩ := Option.bind_eq_some_iff.mp hrest
  unfold Heap.semuList at hus
  rw [hget] at hus
  cases hus
  obtain ⟨h₁, hexit, hfree⟩ := Option.bind_eq_some_iff.mp hrest
  have hlent := Leased.kfree_new (exitSemLoop_spec l h hq hexit) (Function.update_self ..) hfree
  rw [Function.update_idem, Function.update_eq_self] at hlent
  exact hlent.eq

/-- **`dup_sem_queue`** into a queue that has just been created, with the lock of the old one. -/
theorem dupSemQueue_spec {b : ℕ → Option ℕ} (hok : QueueOk base q) {c : Counters}
    (hl : Lent base (Function.update (fun _ => none) dst (some ⟨c, .semQueue []⟩)) taken h)
    (hquiet : ∀ sem, SemLive base sem → (taken sem).1 = 0)
    (hrun : h.dupSemQueue b dst q = some (ret, h')) : QueueNew base taken dst c h' := by
  obtain ⟨d, us, hq, -, hus⟩ := hok
  unfold Heap.dupSemQueue at hrun
  obtain ⟨l, hl0, hrest⟩ := Option.bind_eq_some_iff.mp hrun
  unfold Heap.semuList at hl0
  rw [hl.get_new (Function.update_self ..)] at hl0
  cases hl0
  obtain ⟨us', hus', hrest⟩ := Option.bind_eq_some_iff.mp hrest
  unfold Heap.semuList at hus'
  rw [hl.get_old hq] at hus'
  cases hus'
  obtain ⟨⟨r, l, h₁⟩, hloop, hrest⟩ := Option.bind_eq_some_iff.mp hrest
  obtain ⟨h₂, hset, hend⟩ := Option.bind_eq_some_iff.mp hrest
  cases hend
  have hstart : Queued base (Function.update (fun _ => none) dst (some ⟨c, .semQueue []⟩)) taken id [] h :=
    ⟨by simpa using hl, List.nodup_nil, nofun, nofun, hquiet⟩
  obtain ⟨σ, hq'⟩ := dupSemLoop_spec us [] id h hus hstart hloop
  have hdst : dst ∉ l := fun hmem => by simpa using hq'.fresh dst hmem
  have hset' := Leased.setBody_new hq'.lent (x := ⟨c, .semQueue []⟩) (by simp [hdst]) hset
  rw [update_withNew hdst, Function.update_idem] at hset'
  refine ⟨σ, l, hset', hq'.nodup, fun u hu => ?_, hq'.live, hquiet⟩
  have hne : u ≠ dst := fun heq => hdst (heq ▸ hu)
  simp [hne]

/-- The counters of a new queue change. -/
theorem QueueNew.add {c m : Counters} {y : Obj} (hq : QueueNew base taken dst c h)
    (hrun : h.add dst m = some (y, h')) : y.count = m.1 + c.1 ∧ QueueNew base taken dst (m + c) h' := by
  obtain ⟨σ, l, hq⟩ := hq
  have hdst : dst ∉ l := fun hmem => by simpa using hq.fresh dst hmem
  obtain ⟨rfl, hl⟩ := Leased.add_new hq.lent (x := ⟨c, .semQueue l⟩) (by simp [hdst]) hrun
  rw [update_withNew hdst, Function.update_idem] at hl
  refine ⟨rfl, σ, l, hl, hq.nodup, fun u hu => ?_, hq.live, hq.quiet⟩
  have hne : u ≠ dst := fun heq => hdst (heq ▸ hu)
  simp [hne]

/-- The lock of the old queue is given back. -/
theorem QueueNew.up {c : Counters} {x : Obj} (hq : QueueNew base (Pi.single q (-anUp) + 0) dst c h)
    (hx : base q = some x) (hrun : h.up q = some h') : QueueNew base 0 dst c h' := by
  obtain ⟨σ, l, hq⟩ := hq
  have hl := Leased.up_old hq.lent hx hrun
  rw [up_down] at hl
  exact ⟨σ, l, hl, hq.nodup, hq.fresh, hq.live, fun _ _ => rfl⟩

theorem QueueNew.grown {c : Counters} (hq : QueueNew base 0 dst c h) : Grown base h := by
  obtain ⟨σ, l, hq⟩ := hq
  refine Leased.grown hq.lent fun a => ?_
  rw [add_zero]
  exact total_nonneg aRef_nonneg _ a

/-- A reference to an object is taken. -/
theorem share_grown {a : ℕ} {x y : Obj} (ha : h a = some x) (hrun : h.add a aRef = some (y, h')) : Grown h h' := by
  obtain ⟨-, hl⟩ := Leased.add_old (Leased.refl h) ha hrun
  refine Leased.grown hl fun b => ?_
  have hnonneg := total_nonneg aRef_nonneg [a] b
  rwa [total_cons] at hnonneg

/-- A reference to an object is taken and given back. -/
theorem share_undone {a : ℕ} {x y z : Obj} {h'' : Heap} (ha : h a = some x) (hrun : h.add a aRef = some (y, h'))
    (hback : h'.add a (-aRef) = some (z, h'')) : z = x ∧ h'' = h := by
  obtain ⟨-, hl⟩ := Leased.add_old (Leased.refl h) ha hrun
  obtain ⟨rfl, hl'⟩ := Leased.add_old hl ha hback
  rw [give] at hl'
  refine ⟨?_, hl'.eq⟩
  rw [← add_vadd]
  have hzero : -aRef + (Pi.single a aRef + 0 : ℕ → Counters) a = 0 := by simp
  rw [hzero, zero_vadd]

/-- **`copy_sem`**: a failure leaves nothing behind, and `put_sem_queue` undoes a success. -/
theorem copySem_spec {a : Site → Option ℕ} {cloneFlags : UInt32} {old new : Option ℕ}
    (hok : ∀ q, old = some q → QueueOk h q) (hrun : h.copySem a cloneFlags old = some (ret, new, h')) :
    (ret ≠ 0 → h' = h) ∧ (ret = 0 → Copied h h' fun h₁ => h₁.putSemQueue new) := by
  unfold Heap.copySem at hrun
  cases old with
  | none =>
    cases hrun
    exact ⟨fun h0 => absurd rfl h0, fun _ => ⟨.refl h, fun h'' hput => (Option.some.inj hput).symm⟩⟩
  | some q =>
    have hq := hok q rfl
    obtain ⟨c, us, hx, hpos, -⟩ := id hq
    dsimp only at hrun
    split at hrun
    · -- the queue is shared
      obtain ⟨⟨y, h₁⟩, hadd, heq⟩ := Option.map_eq_some_iff.mp hrun
      cases heq
      refine ⟨fun h0 => absurd rfl h0, fun _ => ⟨share_grown hx hadd, fun h'' hput => ?_⟩⟩
      obtain ⟨⟨z, h₂⟩, hdec, hrest⟩ := Option.bind_eq_some_iff.mp hput
      obtain ⟨rfl, rfl⟩ := share_undone hx hadd hdec
      have hne : (⟨c, .semQueue us⟩ : Obj).count ≠ 0 := ne_of_gt hpos
      dsimp only at hrest
      rw [if_neg hne] at hrest
      exact (Option.some.inj hrest).symm
    · rcases kmalloc_cases h (a .semQueue) fun _ => ⟨anUp, .semQueue []⟩ with hnone | ⟨dst, hfree, hsome⟩
      · unfold Heap.semQueueCreate at hrun
        rw [hnone] at hrun
        cases hrun
        exact ⟨fun _ => rfl, nofun⟩
      · unfold Heap.semQueueCreate at hrun
        rw [hsome] at hrun
        obtain ⟨h₁, hdown, hrest⟩ := Option.bind_eq_some_iff.mp hrun
        obtain ⟨⟨r, h₂⟩, hdup, hrest⟩ := Option.bind_eq_some_iff.mp hrest
        obtain ⟨h₃, hup, hrest⟩ := Option.bind_eq_some_iff.mp hrest
        have hl := Leased.down_old ((Leased.refl h).alloc hfree ⟨anUp, .semQueue []⟩) hx hdown
        have hquiet : ∀ sem, SemLive h sem → ((Pi.single q (-anUp) + 0 : ℕ → Counters) sem).1 = 0 := by
          intro sem _
          by_cases hsem : sem = q
          · subst hsem
            simp [anUp]
          · simp [hsem]
        have hnew := (dupSemQueue_spec hq hl hquiet hdup).up hx hup
        dsimp only at hrest
        split at hrest
        · rename_i hret
          obtain ⟨h₄, hexit, hend⟩ := Option.bind_eq_some_iff.mp hrest
          cases hend
          exact ⟨fun _ => hnew.exitSemQueue hexit, fun h0 => absurd h0 hret⟩
        · obtain ⟨⟨y, h₄⟩, hadd, hend⟩ := Option.bind_eq_some_iff.mp hrest
          cases hend
          obtain ⟨-, hnew'⟩ := hnew.add hadd
          refine ⟨fun h0 => absurd rfl h0, fun _ => ⟨hnew'.grown, fun h'' hput => ?_⟩⟩
          obtain ⟨⟨z, h₅⟩, hdec, hrest⟩ := Option.bind_eq_some_iff.mp hput
          obtain ⟨hz, hnew''⟩ := hnew'.add hdec
          dsimp only at hrest
          rw [if_pos (by rw [hz]; decide)] at hrest
          exact hnew''.exitSemQueue hrest

end calls

end Ucore.Fork
