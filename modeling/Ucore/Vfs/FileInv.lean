import Ucore.Lib.Count
import Ucore.Vfs.FileStep

/-!
# Who refers to what

Invariants of the tables of files and of the inodes, and for each what a step that changes one file and
moves one thread has to keep up.

* `Counts` — `open_count` of a file counts the descriptor and the operations in flight;
* `Refs` — the counters of an inode count files, threads and other references;
* `Lives` — `reclaim_count` counts the calls of `vop_reclaim` under way;
* `Owners` — a file that is neither free nor open has one thread that will free it;
* `Homes` — a thread works on its table, or on one that it destroys.
-/

namespace Ucore.Vfs

open Occurrence

/-! ## What a thread has -/

/-- The inode to which the file refers, with a reference that is also counted as open. -/
def File.holds (f : File) : Option ℕ :=
  match f.status with
  | .opened => f.node
  | .closed => if f.openCount = 0 then none else f.node
  | _ => none

/-- The inode that the thread has open. -/
def Pc.opens : Pc → Option ℕ
  | .truncate _ _ n | .fstat _ _ n | .vfsClose n _ => some n
  | _ => none

/-- The inode to which the thread has a mere reference. -/
def Pc.refs : Pc → Option ℕ
  | .vopOpen _ _ n | .vopClose n _ | .refDec n _ => some n
  | _ => none

def Pc.reclaims : Pc → Option ℕ
  | .reclaim n _ => some n
  | _ => none

def Pc.dies : Pc → Option ℕ
  | .dying n _ => some n
  | _ => none

/-- The file that an operation has acquired. -/
def Pc.uses : Pc → Option Slot
  | .io x _ => some x
  | _ => none

def Next.inits : Next → List Slot
  | .free x _ => [x]
  | _ => []

def After.inits : After → List Slot
  | .done => []
  | .free x next => x :: next.inits
  | .freed _ next => next.inits

def After.frees : After → List Slot
  | .freed x _ => [x]
  | _ => []

/-- The files that the thread has allocated and not opened. -/
def Pc.inits : Pc → List Slot
  | .lookup x _ | .vopOpen x _ _ | .truncate x _ _ | .fstat x _ _ => [x]
  | .pipe x y => [x, y]
  | .vfsClose _ after | .vopClose _ after | .refDec _ after | .reclaim _ after | .dying _ after =>
    after.inits
  | .free x next => x :: next.inits
  | .freed _ next => next.inits
  | _ => []

/-- The file whose `vfs_close` the thread has called. -/
def Pc.frees : Pc → List Slot
  | .vfsClose _ after | .vopClose _ after | .refDec _ after | .reclaim _ after | .dying _ after =>
    after.frees
  | .freed x _ => [x]
  | _ => []

def Next.tables : Next → List ℕ
  | .ret _ => []
  | .free x _ => [x.1]
  | .closeall table _ | .destroy table _ => [table]

def After.tables : After → List ℕ
  | .done => []
  | .free x next | .freed x next => x.1 :: next.tables

/-- The tables on which the thread works. -/
def Pc.tables : Pc → List ℕ
  | .run => []
  | .lookup x _ | .vopOpen x _ _ | .truncate x _ _ | .fstat x _ _ | .io x _ => [x.1]
  | .pipe x y => [x.1, y.1]
  | .vfsClose _ after | .vopClose _ after | .refDec _ after | .reclaim _ after | .dying _ after =>
    after.tables
  | .free x next | .freed x next => x.1 :: next.tables
  | .closeall table _ | .destroy table _ | .destroyCheck table _ => [table]

def Next.checks : Next → Option Slot
  | .destroy table i => some (table, i)
  | _ => none

def After.checks : After → Option Slot
  | .done => none
  | .free _ next | .freed _ next => next.checks

/-- The file that the thread closes in `fs_destroy`. -/
def Pc.checks : Pc → Option Slot
  | .vfsClose _ after | .vopClose _ after | .refDec _ after | .reclaim _ after | .dying _ after =>
    after.checks
  | .free _ next | .freed _ next => next.checks
  | .destroyCheck table i => some (table, i)
  | _ => none

/-- The thread will free the file. -/
def Pc.Owns (pc : Pc) (x : Slot) : Prop := x ∈ pc.inits ∨ x ∈ pc.frees

/-- The same files, for the same purpose. -/
structure Pc.Same (pc pc' : Pc) : Prop where
  uses : pc.uses = pc'.uses
  inits : pc.inits = pc'.inits
  frees : pc.frees = pc'.frees
  tables : pc.tables = pc'.tables
  destroys : pc.destroys = pc'.destroys
  checks : pc.checks = pc'.checks

theorem Next.destroys_of_checks {y : Slot} (next : Next) (h : next.checks = some y) :
    next.destroys = some y.1 := by
  cases next with
  | destroy table i =>
    cases h
    rfl
  | _ => cases h

theorem After.destroys_of_checks {y : Slot} (after : After) (h : after.checks = some y) :
    after.destroys = some y.1 := by
  cases after with
  | done => cases h
  | free x next => exact next.destroys_of_checks h
  | freed x next => exact next.destroys_of_checks h

theorem Pc.destroys_of_checks {pc : Pc} {y : Slot} (h : pc.checks = some y) :
    pc.destroys = some y.1 := by
  cases pc with
  | vfsClose n after | vopClose n after | refDec n after | reclaim n after | dying n after =>
    exact after.destroys_of_checks h
  | free x next | freed x next => exact next.destroys_of_checks h
  | destroyCheck table i =>
    cases h
    rfl
  | _ => cases h

theorem After.opens_pc (after : After) : after.pc.opens = none := by cases after <;> rfl

theorem After.refs_pc (after : After) : after.pc.refs = none := by cases after <;> rfl

theorem After.reclaims_pc (after : After) : after.pc.reclaims = none := by cases after <;> rfl

theorem After.dies_pc (after : After) : after.pc.dies = none := by cases after <;> rfl

theorem After.uses_pc (after : After) : after.pc.uses = none := by cases after <;> rfl

theorem After.inits_pc (after : After) : after.pc.inits = after.inits := by cases after <;> rfl

theorem After.frees_pc (after : After) : after.pc.frees = after.frees := by cases after <;> rfl

theorem After.tables_pc (after : After) : after.pc.tables = after.tables := by cases after <;> rfl

theorem After.destroys_pc (after : After) : after.pc.destroys = after.destroys := by
  cases after <;> rfl

theorem After.checks_pc (after : After) : after.pc.checks = after.checks := by cases after <;> rfl

theorem After.same_pc (after : After) {pc : Pc} (h : pc.Same (.refDec 0 after)) : after.pc.Same pc :=
  ⟨after.uses_pc.trans h.uses.symm, after.inits_pc.trans h.inits.symm, after.frees_pc.trans h.frees.symm,
    after.tables_pc.trans h.tables.symm, after.destroys_pc.trans h.destroys.symm,
    after.checks_pc.trans h.checks.symm⟩

/-- The life of an inode, with `r` calls of `vop_reclaim` under way and `d` that take it down. -/
def Inode.Ok (i : Inode) (r d : ℕ) : Prop :=
  if i.alive then
    match i.kind with
    | .device => i.dying = false ∧ d = 0
    | .pipe => i.dying = false ∧ d = 0 ∧ r = if i.refCount = 0 then 1 else 0
    | .fifo => i.dying = false ∧ d = 0 ∧ i.reclaimCount = r + if i.refCount = 0 then 0 else 1
    | .sfs =>
      if i.dying then d = 1 ∧ r = 0 ∧ i.refCount = 0 ∧ i.reclaimCount = 0
      else d = 0 ∧ i.reclaimCount = r + if i.refCount = 0 then 0 else 1
  else i.dying = false ∧ i.refCount = 0 ∧ r = 0 ∧ d = 0

namespace Threads

/-! ## The invariants -/

/-- The operations in flight on a file. -/
noncomputable def inFlight (s : Threads) (x : Slot) : ℕ := occ (fun t => (s.pc t).uses) (· = some x)

/-- The open files that refer to the inode. -/
noncomputable def openFiles (s : Threads) (n : ℕ) : ℕ := occ (fun x => (s.file x).holds) (· = some n)

/-- The calls that have the inode open, on the way to or from a file. -/
noncomputable def opening (s : Threads) (n : ℕ) : ℕ := occ (fun t => (s.pc t).opens) (· = some n)

noncomputable def referring (s : Threads) (n : ℕ) : ℕ := occ (fun t => (s.pc t).refs) (· = some n)

noncomputable def reclaiming (s : Threads) (n : ℕ) : ℕ := occ (fun t => (s.pc t).reclaims) (· = some n)

noncomputable def dying (s : Threads) (n : ℕ) : ℕ := occ (fun t => (s.pc t).dies) (· = some n)

structure Support (s : Threads) : Prop where
  pcs : {t | s.pc t ≠ .run}.Finite
  files : {x | (s.file x).status ≠ .none}.Finite

structure Counts (s : Threads) : Prop where
  count : ∀ x, (s.file x).openCount = (if (s.file x).status = .opened then 1 else 0) + s.inFlight x
  idle : ∀ x, (s.file x).status = .none ∨ (s.file x).status = .init → (s.file x).openCount = 0
  node : ∀ x, (s.file x).status = .opened ∨ (s.file x).status = .closed → (s.file x).node ≠ none

structure Refs (s : Threads) : Prop where
  opens : ∀ n, (s.inode n).openCount = s.openFiles n + s.opening n
  refs : ∀ n, (s.inode n).refCount = s.openFiles n + s.opening n + s.referring n + s.others n

def Lives (s : Threads) : Prop := ∀ n, (s.inode n).Ok (s.reclaiming n) (s.dying n)

structure Owners (s : Threads) : Prop where
  init : ∀ t, ∀ x ∈ (s.pc t).inits, (s.file x).status = .init
  freed : ∀ t, ∀ x ∈ (s.pc t).frees, (s.file x).status = .closed ∧ (s.file x).openCount = 0
  one : ∀ t u x, (s.pc t).Owns x → (s.pc u).Owns x → t = u
  nodup : ∀ t, (s.pc t).inits.Nodup
  owner : ∀ x, (s.file x).status = .init ∨ (s.file x).status = .closed ∧ (s.file x).openCount = 0 →
    ∃ t, (s.pc t).Owns x

structure Homes (s : Threads) : Prop where
  members : {t | s.table t ≠ none}.Finite
  fsCount : ∀ table, s.fsCount table = occ s.table (· = some table)
  home : ∀ t, ∀ table ∈ (s.pc t).tables, s.table t = some table ∨ (s.pc t).destroys = some table
  destroys : ∀ t table, (s.pc t).destroys = some table → s.fsCount table = 0
  one : ∀ t u table, (s.pc t).destroys = some table → (s.pc u).destroys = some table → t = u
  checked : ∀ t x, (s.pc t).checks = some x → (s.file x).status ≠ .opened

/-- One file changes, and one thread moves. -/
structure Change (s s' : Threads) (t : ℕ) (pc : Pc) (x : Slot) (f : File) : Prop where
  pc : s'.pc = Function.update s.pc t pc
  file : s'.file = Function.update s.file x f

variable {s s' : Threads} {t u n : ℕ} {pc : Pc} {x y : Slot} {f : File} {table : ℕ}

@[simp] theorem setPc_self (s : Threads) (t : ℕ) (pc : Pc) : (s.setPc t pc).pc t = pc :=
  Function.update_self ..

theorem Change.self (c : Change s s' t pc x f) : s'.pc t = pc := by rw [c.pc, Function.update_self]

theorem Change.other (c : Change s s' t pc x f) (hu : u ≠ t) : s'.pc u = s.pc u := by
  rw [c.pc, Function.update_of_ne hu]

theorem Change.file_self (c : Change s s' t pc x f) : s'.file x = f := by
  rw [c.file, Function.update_self]

theorem Change.file_other (c : Change s s' t pc x f) (hy : y ≠ x) : s'.file y = s.file y := by
  rw [c.file, Function.update_of_ne hy]

/-- A count over the threads, or over the files. -/
theorem occ_change {α β : Type} [DecidableEq α] [DecidableEq β] {g : α → Option β} {a : α}
    {b : Option β} {m : β} (hfin : {z | g z ≠ none}.Finite) :
    occ (Function.update g a b) (· = some m) + (if g a = some m then 1 else 0) =
      occ g (· = some m) + (if b = some m then 1 else 0) := by
  have hfin' : {z | g z = some m}.Finite := hfin.subset fun z hz => by
    show g z ≠ none
    rw [show g z = some m from hz]
    nofun
  have hupd := occ_update (P := (· = some m)) (g := g) a b hfin'
  convert hupd

theorem Change.occ_pc {β : Type} [DecidableEq β] (c : Change s s' t pc x f) (hs : Support s)
    (g : Pc → Option β) (hg : g .run = none) (m : β) :
    occ (fun u => g (s'.pc u)) (· = some m) + (if g (s.pc t) = some m then 1 else 0) =
      occ (fun u => g (s.pc u)) (· = some m) + (if g pc = some m then 1 else 0) := by
  have hupd : (fun u => g (s'.pc u)) = Function.update (fun u => g (s.pc u)) t (g pc) := by
    funext u
    by_cases hu : u = t
    · rw [hu, c.self, Function.update_self]
    · rw [c.other hu, Function.update_of_ne hu]
  rw [hupd]
  refine occ_change (hs.pcs.subset fun u hu => ?_)
  show s.pc u ≠ .run
  intro hrun
  exact hu (by rw [hrun]; exact hg)

theorem Change.occ_file (c : Change s s' t pc x f) (hs : Support s) (m : ℕ) :
    s'.openFiles m + (if (s.file x).holds = some m then 1 else 0) =
      s.openFiles m + (if f.holds = some m then 1 else 0) := by
  have hupd : (fun y => (s'.file y).holds) = Function.update (fun y => (s.file y).holds) x f.holds := by
    funext y
    by_cases hy : y = x
    · rw [hy, c.file_self, Function.update_self]
    · rw [c.file_other hy, Function.update_of_ne hy]
  unfold openFiles
  rw [hupd]
  refine occ_change (hs.files.subset fun y hy => ?_)
  show (s.file y).status ≠ .none
  intro hnone
  refine hy ?_
  unfold File.holds
  rw [hnone]

theorem Support.change (h : Support s) (c : Change s s' t pc x f) : Support s' := by
  refine ⟨(h.pcs.insert t).subset fun u hu => ?_, (h.files.insert x).subset fun y hy => ?_⟩
  · by_cases hut : u = t
    · exact Or.inl hut
    · refine Or.inr ?_
      show s.pc u ≠ .run
      rw [← c.other hut]
      exact hu
  · by_cases hyx : y = x
    · exact Or.inl hyx
    · refine Or.inr ?_
      show (s.file y).status ≠ .none
      rw [← c.file_other hyx]
      exact hy

theorem Counts.change (h : Counts s) (hs : Support s) (c : Change s s' t pc x f)
    (hcount : f.openCount + (if (s.pc t).uses = some x then 1 else 0) +
        (if (s.file x).status = .opened then 1 else 0) =
      (s.file x).openCount + (if pc.uses = some x then 1 else 0) + (if f.status = .opened then 1 else 0))
    (hother : ∀ y, y ≠ x → (pc.uses = some y ↔ (s.pc t).uses = some y))
    (hidle : f.status = .none ∨ f.status = .init → f.openCount = 0)
    (hnode : f.status = .opened ∨ f.status = .closed → f.node ≠ none) : Counts s' := by
  refine ⟨fun y => ?_, fun y hy => ?_, fun y hy => ?_⟩
  · have hocc : s'.inFlight y + _ = s.inFlight y + _ := c.occ_pc hs Pc.uses rfl y
    have hold := h.count y
    by_cases hyx : y = x
    · subst hyx
      rw [c.file_self]
      omega
    · rw [c.file_other hyx]
      simp only [hother y hyx] at hocc
      omega
  · by_cases hyx : y = x
    · subst hyx
      rw [c.file_self] at hy ⊢
      exact hidle hy
    · rw [c.file_other hyx] at hy ⊢
      exact h.idle y hy
  · by_cases hyx : y = x
    · subst hyx
      rw [c.file_self] at hy ⊢
      exact hnode hy
    · rw [c.file_other hyx] at hy ⊢
      exact h.node y hy

theorem Refs.change (h : Refs s) (hs : Support s) (c : Change s s' t pc x f)
    (hopens : ∀ m, (s'.inode m).openCount + (if (s.file x).holds = some m then 1 else 0) +
        (if (s.pc t).opens = some m then 1 else 0) =
      (s.inode m).openCount + (if f.holds = some m then 1 else 0) + (if pc.opens = some m then 1 else 0))
    (hrefs : ∀ m, (s'.inode m).refCount + (if (s.file x).holds = some m then 1 else 0) +
        (if (s.pc t).opens = some m then 1 else 0) + (if (s.pc t).refs = some m then 1 else 0) + s.others m =
      (s.inode m).refCount + (if f.holds = some m then 1 else 0) + (if pc.opens = some m then 1 else 0) +
        (if pc.refs = some m then 1 else 0) + s'.others m) : Refs s' := by
  refine ⟨fun m => ?_, fun m => ?_⟩
  · have hfile := c.occ_file hs m
    have hpc : s'.opening m + _ = s.opening m + _ := c.occ_pc hs Pc.opens rfl m
    have hold := h.opens m
    have hnew := hopens m
    omega
  · have hfile := c.occ_file hs m
    have hpc : s'.opening m + _ = s.opening m + _ := c.occ_pc hs Pc.opens rfl m
    have href : s'.referring m + _ = s.referring m + _ := c.occ_pc hs Pc.refs rfl m
    have hold := h.refs m
    have hnew := hrefs m
    omega

theorem Lives.change (h : Lives s) (hs : Support s) (c : Change s s' t pc x f)
    (hok : ∀ m r d r' d', (s.inode m).Ok r d →
      r' + (if (s.pc t).reclaims = some m then 1 else 0) = r + (if pc.reclaims = some m then 1 else 0) →
      d' + (if (s.pc t).dies = some m then 1 else 0) = d + (if pc.dies = some m then 1 else 0) →
      (s'.inode m).Ok r' d') : Lives s' := fun m =>
  hok m _ _ _ _ (h m) (c.occ_pc hs Pc.reclaims rfl m) (c.occ_pc hs Pc.dies rfl m)

theorem Owners.change (h : Owners s) (c : Change s s' t pc x f)
    (hinit : ∀ y ∈ pc.inits, y = x ∧ f.status = .init ∨ y ≠ x ∧ y ∈ (s.pc t).inits)
    (hfreed : ∀ y ∈ pc.frees, y = x ∧ f.status = .closed ∧ f.openCount = 0 ∨ y ≠ x ∧ y ∈ (s.pc t).frees)
    (hnodup : pc.inits.Nodup) (hkeep : ∀ y, y ≠ x → (s.pc t).Owns y → pc.Owns y)
    (hexcl : (∀ u, u ≠ t → ¬ (s.pc u).Owns x) ∨
      f.status = (s.file x).status ∧ f.openCount = (s.file x).openCount ∧ ¬ pc.Owns x ∧ ¬ (s.pc t).Owns x)
    (howner : f.status = .init ∨ f.status = .closed ∧ f.openCount = 0 →
      pc.Owns x ∨ f.status = (s.file x).status ∧ f.openCount = (s.file x).openCount ∧ ¬ (s.pc t).Owns x) :
    Owners s' := by
  have hown : ∀ y, y ≠ x → pc.Owns y → (s.pc t).Owns y := by
    rintro y hyx (hy | hy)
    · exact Or.inl ((hinit y hy).resolve_left fun hno => hyx hno.1).2
    · exact Or.inr ((hfreed y hy).resolve_left fun hno => hyx hno.1).2
  -- nobody else owns what the thread owns
  have hone : ∀ u y, u ≠ t → pc.Owns y → ¬ (s.pc u).Owns y := by
    intro u y hu hy hno
    by_cases hyx : y = x
    · subst hyx
      rcases hexcl with hexcl | ⟨-, -, hno', -⟩
      · exact hexcl u hu hno
      · exact hno' hy
    · exact hu (h.one u t y hno (hown y hyx hy))
  have hfile : ∀ u, u ≠ t → ∀ y, (s.pc u).Owns y →
      (s'.file y).status = (s.file y).status ∧ (s'.file y).openCount = (s.file y).openCount := by
    intro u hu y hy
    by_cases hyx : y = x
    · subst hyx
      rw [c.file_self]
      rcases hexcl with hexcl | ⟨hst, hcount, -⟩
      · exact absurd hy (hexcl u hu)
      · exact ⟨hst, hcount⟩
    · rw [c.file_other hyx]
      exact ⟨rfl, rfl⟩
  refine ⟨fun u y hy => ?_, fun u y hy => ?_, fun u v y hu hv => ?_, fun u => ?_, fun y hy => ?_⟩
  · by_cases hut : u = t
    · subst hut
      rw [c.self] at hy
      rcases hinit y hy with ⟨rfl, hst⟩ | ⟨hyx, hy⟩
      · rw [c.file_self]
        exact hst
      · rw [c.file_other hyx]
        exact h.init u y hy
    · rw [c.other hut] at hy
      rw [(hfile u hut y (Or.inl hy)).1]
      exact h.init u y hy
  · by_cases hut : u = t
    · subst hut
      rw [c.self] at hy
      rcases hfreed y hy with ⟨rfl, hst⟩ | ⟨hyx, hy⟩
      · rw [c.file_self]
        exact hst
      · rw [c.file_other hyx]
        exact h.freed u y hy
    · rw [c.other hut] at hy
      rw [(hfile u hut y (Or.inr hy)).1, (hfile u hut y (Or.inr hy)).2]
      exact h.freed u y hy
  · by_cases hut : u = t
    · subst hut
      by_cases hvt : v = u
      · exact hvt.symm
      · rw [c.self] at hu
        rw [c.other hvt] at hv
        exact absurd hv (hone v y hvt hu)
    · rw [c.other hut] at hu
      by_cases hvt : v = t
      · subst hvt
        rw [c.self] at hv
        exact absurd hu (hone u y hut hv)
      · rw [c.other hvt] at hv
        exact h.one u v y hu hv
  · by_cases hut : u = t
    · subst hut
      rw [c.self]
      exact hnodup
    · rw [c.other hut]
      exact h.nodup u
  · by_cases hyx : y = x
    · subst hyx
      rw [c.file_self] at hy
      rcases howner hy with hpc | ⟨hst, hcount, hno⟩
      · exact ⟨t, by rw [c.self]; exact hpc⟩
      · rw [hst, hcount] at hy
        obtain ⟨u, hu⟩ := h.owner y hy
        have hut : u ≠ t := fun heq => hno (heq ▸ hu)
        exact ⟨u, by rw [c.other hut]; exact hu⟩
    · rw [c.file_other hyx] at hy
      obtain ⟨u, hu⟩ := h.owner y hy
      by_cases hut : u = t
      · subst hut
        exact ⟨u, by rw [c.self]; exact hkeep y hyx hu⟩
      · exact ⟨u, by rw [c.other hut]; exact hu⟩

theorem Homes.fsCount_ne (h : Homes s) (ht : s.table t = some table) : s.fsCount table ≠ 0 := by
  rw [h.fsCount]
  refine occ_ne_zero (h.members.subset fun u hu => ?_) ht
  show s.table u ≠ none
  rw [show s.table u = some table from hu]
  nofun

/-- A table that a thread has is not destroyed. -/
theorem Homes.not_destroys (h : Homes s) (ht : s.table t = some table) (u : ℕ) :
    (s.pc u).destroys ≠ some table := fun hu => h.fsCount_ne ht (h.destroys u table hu)

theorem Homes.change (h : Homes s) (c : Change s s' t pc x f) (htable : s'.table = s.table)
    (hcount : s'.fsCount = s.fsCount)
    (hhome : ∀ table ∈ pc.tables, s.table t = some table ∨ pc.destroys = some table)
    (hdestroys : ∀ table, pc.destroys = some table → (s.pc t).destroys = some table)
    (hchecks : ∀ y, pc.checks = some y → (s'.file y).status ≠ .opened)
    (hopened : f.status = .opened →
      (s.file x).status = .opened ∨ ∀ u, (s.pc u).destroys ≠ some x.1) : Homes s' := by
  have hold : ∀ u table, (s'.pc u).destroys = some table → (s.pc u).destroys = some table := by
    intro u table hu
    by_cases hut : u = t
    · subst hut
      rw [c.self] at hu
      exact hdestroys table hu
    · rw [c.other hut] at hu
      exact hu
  refine ⟨?_, ?_, fun u table hu => ?_, fun u table hu => ?_, fun u v table hu hv => ?_, fun u y hu => ?_⟩
  · rw [htable]
    exact h.members
  · rw [htable, hcount]
    exact h.fsCount
  · rw [htable]
    by_cases hut : u = t
    · subst hut
      rw [c.self] at hu ⊢
      exact hhome table hu
    · rw [c.other hut] at hu ⊢
      exact h.home u table hu
  · rw [hcount]
    exact h.destroys u table (hold u table hu)
  · exact h.one u v table (hold u table hu) (hold v table hv)
  · by_cases hut : u = t
    · subst hut
      rw [c.self] at hu
      exact hchecks y hu
    · rw [c.other hut] at hu
      by_cases hyx : y = x
      · subst hyx
        rw [c.file_self]
        intro hst
        rcases hopened hst with hst | hno
        · exact h.checked u y hu hst
        · exact hno u (Pc.destroys_of_checks hu)
      · rw [c.file_other hyx]
        exact h.checked u y hu

structure Inv (s : Threads) : Prop where
  support : Support s
  counts : Counts s
  refs : Refs s
  lives : Lives s
  owners : Owners s
  homes : Homes s

/-- What the tables of files say is the same when no file changes. -/
theorem Inv.of_same (h : Inv s) (c : Change s s' t pc x (s.file x)) (htable : s'.table = s.table)
    (hcount : s'.fsCount = s.fsCount) (hsame : pc.Same (s.pc t)) (hrefs : Refs s') (hlives : Lives s') :
    Inv s' := by
  have hfile : s'.file = s.file := by rw [c.file, Function.update_eq_self]
  have howns : ∀ y, pc.Owns y ↔ (s.pc t).Owns y := fun y => by
    unfold Pc.Owns
    rw [hsame.inits, hsame.frees]
  refine ⟨h.support.change c, h.counts.change h.support c ?_ ?_ (h.counts.idle x) (h.counts.node x), hrefs,
    hlives, ?_, h.homes.change c htable hcount ?_ ?_ ?_ fun hst => Or.inl hst⟩
  · rw [hsame.uses]
  · intro y _
    rw [hsame.uses]
  · refine ⟨fun u y hy => ?_, fun u y hy => ?_, fun u v y hu hv => ?_, fun u => ?_, fun y hy => ?_⟩
    · rw [hfile]
      by_cases hut : u = t
      · subst hut
        rw [c.self, hsame.inits] at hy
        exact h.owners.init u y hy
      · rw [c.other hut] at hy
        exact h.owners.init u y hy
    · rw [hfile]
      by_cases hut : u = t
      · subst hut
        rw [c.self, hsame.frees] at hy
        exact h.owners.freed u y hy
      · rw [c.other hut] at hy
        exact h.owners.freed u y hy
    · have hold : ∀ w, (s'.pc w).Owns y → (s.pc w).Owns y := by
        intro w hw
        by_cases hwt : w = t
        · subst hwt
          rw [c.self] at hw
          exact (howns y).mp hw
        · rw [c.other hwt] at hw
          exact hw
      exact h.owners.one u v y (hold u hu) (hold v hv)
    · by_cases hut : u = t
      · subst hut
        rw [c.self, hsame.inits]
        exact h.owners.nodup u
      · rw [c.other hut]
        exact h.owners.nodup u
    · rw [hfile] at hy
      obtain ⟨u, hu⟩ := h.owners.owner y hy
      by_cases hut : u = t
      · subst hut
        exact ⟨u, by rw [c.self]; exact (howns y).mpr hu⟩
      · exact ⟨u, by rw [c.other hut]; exact hu⟩
  · rw [hsame.tables, hsame.destroys]
    exact h.homes.home t
  · intro table hd
    rw [← hsame.destroys]
    exact hd
  · rw [hsame.checks, hfile]
    exact h.homes.checked t

/-- One thread moves. -/
theorem Inv.move (h : Inv s) (hsame : pc.Same (s.pc t)) (hopens : pc.opens = (s.pc t).opens)
    (hrefs : pc.refs = (s.pc t).refs) (hreclaims : pc.reclaims = (s.pc t).reclaims)
    (hdies : pc.dies = (s.pc t).dies) : Inv (s.setPc t pc) := by
  have c : Change s (s.setPc t pc) t pc (0, 0) (s.file (0, 0)) :=
    ⟨rfl, (Function.update_eq_self (0, 0) s.file).symm⟩
  refine h.of_same c rfl rfl hsame (h.refs.change h.support c ?_ ?_) (h.lives.change h.support c ?_)
  · intro m
    rw [hopens]
    rfl
  · intro m
    rw [hopens, hrefs]
    rfl
  · intro m r d r' d' hok hr hd
    rw [hreclaims] at hr
    rw [hdies] at hd
    rw [show r' = r by omega, show d' = d by omega]
    exact hok

/-- One thread moves, and one inode changes, for whose counters the thread has a part. -/
theorem Inv.moveInode (h : Inv s) {i : Inode} {o : ℕ} (hsame : pc.Same (s.pc t))
    (hold : ∀ m, m ≠ n → (s.pc t).opens ≠ some m ∧ (s.pc t).refs ≠ some m ∧ (s.pc t).reclaims ≠ some m ∧
      (s.pc t).dies ≠ some m)
    (hnew : ∀ m, m ≠ n → pc.opens ≠ some m ∧ pc.refs ≠ some m ∧ pc.reclaims ≠ some m ∧ pc.dies ≠ some m)
    (hopens : i.openCount + (if (s.pc t).opens = some n then 1 else 0) =
      (s.inode n).openCount + (if pc.opens = some n then 1 else 0))
    (hrefs : i.refCount + (if (s.pc t).opens = some n then 1 else 0) +
        (if (s.pc t).refs = some n then 1 else 0) + s.others n =
      (s.inode n).refCount + (if pc.opens = some n then 1 else 0) + (if pc.refs = some n then 1 else 0) + o)
    (hok : ∀ r d r' d', (s.inode n).Ok r d →
      r' + (if (s.pc t).reclaims = some n then 1 else 0) = r + (if pc.reclaims = some n then 1 else 0) →
      d' + (if (s.pc t).dies = some n then 1 else 0) = d + (if pc.dies = some n then 1 else 0) →
      i.Ok r' d') :
    Inv ({ s.setInode n i with others := Function.update s.others n o }.setPc t pc) := by
  have c : Change s ({ s.setInode n i with others := Function.update s.others n o }.setPc t pc) t pc (0, 0)
      (s.file (0, 0)) := ⟨rfl, (Function.update_eq_self (0, 0) s.file).symm⟩
  have hinode : ∀ m, ({ s.setInode n i with others := Function.update s.others n o }.setPc t pc).inode m =
      if m = n then i else s.inode m := fun m => Function.update_apply s.inode n i m
  have hothers : ∀ m, ({ s.setInode n i with others := Function.update s.others n o }.setPc t pc).others m =
      if m = n then o else s.others m := fun m => Function.update_apply s.others n o m
  refine h.of_same c rfl rfl hsame (h.refs.change h.support c ?_ ?_) (h.lives.change h.support c ?_)
  · intro m
    rw [hinode]
    by_cases hm : m = n
    · subst hm
      rw [if_pos rfl]
      omega
    · rw [if_neg hm, if_neg (hold m hm).1, if_neg (hnew m hm).1]
  · intro m
    rw [hinode, hothers]
    by_cases hm : m = n
    · subst hm
      rw [if_pos rfl, if_pos rfl]
      omega
    · rw [if_neg hm, if_neg hm, if_neg (hold m hm).1, if_neg (hnew m hm).1, if_neg (hold m hm).2.1,
        if_neg (hnew m hm).2.1]
  · intro m r d r' d' hmok hr hd
    rw [hinode]
    by_cases hm : m = n
    · subst hm
      rw [if_pos rfl]
      exact hok r d r' d' hmok hr hd
    · rw [if_neg hm]
      rw [if_neg (hold m hm).2.2.1, if_neg (hnew m hm).2.2.1] at hr
      rw [if_neg (hold m hm).2.2.2, if_neg (hnew m hm).2.2.2] at hd
      rw [show r' = r by omega, show d' = d by omega]
      exact hmok

end Threads

end Ucore.Vfs
