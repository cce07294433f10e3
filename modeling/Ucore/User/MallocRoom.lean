import Ucore.User.MallocRun

/-!
# The user's heap: what `malloc` returns

The units of a request are counted modulo the word, so a request that is near its end is served with one
unit; and an extension whose break wraps makes the kernel cut the heap.

* `returns_own_memory` — a run without these steps: a block that is returned has the size that was asked for, and
  shares no address with the others.
-/

namespace Ucore.Malloc

variable {base b fuel ptr : ℕ} {c : List ℕ} {call : Call} {a : Act} {s s' s₀ : Sys} {P : Sys → Act → Prop}

/-- What a call has returned is a block in mapped memory, large enough, and apart from the others. -/
structure Provides (base : ℕ) (s : Sys) (b ptr size : ℕ) : Prop where
  live : b ∈ s.live
  inside : ptr = b + HEADER ∧ ptr + size ≤ b + s.heap.len base b
  mapped : ∀ x, b ≤ x → x < b + s.heap.len base b → s.heap.mem x ≠ none
  apart : ∀ a, a ∈ s.live.erase b ∨ s.heap.Free a → a + s.heap.len base a ≤ b ∨ b + s.heap.len base b ≤ a

/-- A block is taken for a size whose units do not wrap. -/
def UnitsHold (s : Sys) : Act → Prop
  | .visit _ => ∀ call, s.call = some call → call.fits (s.heap.hd call.p) = true → call.size + HEADER ≤ WORD
  | _ => True

theorem Inv.provides (hi : Inv base c s) (hb : b ∈ s.live) (hsize : (s.heap.hd b).size = call.nunits)
    (hword : call.size + HEADER ≤ WORD) : Provides base s b (b + HEADER) call.size := by
  have hlen : s.heap.len base b = call.nunits * HEADER := by
    rw [s.heap.len_of_ne (hi.ok.ne_base hb), hsize]
  obtain ⟨f, hfc, hf⟩ := hi.freep
  refine ⟨hb, ⟨rfl, ?_⟩, fun x hbx hxb => (hi.ok.tiled.owned b x (.inr hb) hbx hxb).1, fun a ha => ?_⟩
  · rw [hlen]
    unfold Call.nunits units HEADER WORD at *
    omega
  · have hne : a ≠ b := by
      rcases ha with ha | ha
      · exact fun heq => (List.Nodup.not_mem_erase hi.ok.nodup) (heq ▸ ha)
      · exact fun heq => hi.ok.apart b hb ((hi.ok.free_iff hf hfc).mp (heq ▸ ha))
    have ha' : a ∈ c ∨ a ∈ s.live :=
      ha.symm.imp (hi.ok.free_iff hf hfc).mp List.mem_of_mem_erase
    rcases Nat.lt_or_gt_of_ne hne with hlt | hgt
    · exact .inl (hi.ok.tiled.blocks.apart a b ha' (.inr hb) hlt)
    · exact .inr (hi.ok.tiled.blocks.apart b a (.inr hb) ha' hgt)

/-- A check that is enough for a step: no shared memory, and no break that wraps. -/
def tame (s : Sys) : Act → Bool
  | .visit grant => s.call.all fun call => !call.type && decide (call.size + HEADER ≤ WORD) &&
      decide (s.heap.kern.brk ≤ (s.heap.sysBrk grant.isSome (s.heap.request call.nunits)).1)
  | _ => true

theorem tame_keeps (h : tame s a = true) : KeepsHeap s a ∧ UnitsHold s a := by
  cases a with
  | visit grant =>
    have hall : ∀ call, s.call = some call → call.type = false ∧ call.size + HEADER ≤ WORD ∧
        s.heap.kern.brk ≤ (s.heap.sysBrk grant.isSome (s.heap.request call.nunits)).1 := by
      intro call hcall
      unfold tame at h
      rw [hcall] at h
      simpa only [Option.all_some, Bool.and_eq_true, Bool.not_eq_true', decide_eq_true_eq, and_assoc] using h
    refine ⟨fun call hcall _ _ => ⟨fun hcuts => ?_, fun hstale => ?_⟩, fun call hcall _ => (hall call hcall).2.1⟩
    · exact absurd hcuts.2 (hall call hcall).2.2.not_gt
    · exact Bool.false_ne_true ((hall call hcall).1.symm.trans hstale.1)
  | malloc size type => exact ⟨trivial, trivial⟩
  | free bp => exact ⟨trivial, trivial⟩

/-- **A block that is returned is large enough, and is handed out once.** -/
theorem returns_own_memory (hrun : RunIf (fun s a => KeepsHeap s a ∧ UnitsHold s a) base s₀ s)
    (hstart : Start base s₀) (hresult : s.result = some (call, some ptr)) : ∃ b, Provides base s b ptr call.size := by
  cases hrun with
  | nil =>
    rw [hstart.result] at hresult
    cases hresult
  | @cons s _ a fuel hrun hmeets henabled hstep =>
    have hi := Inv.run hrun (fun _ _ h => h.1) hstart
    cases a with
    | malloc size type =>
      rcases hi with hfresh | ⟨c, hi⟩
      · have hnone := (hfresh.inv.malloc ((malloc_start hfresh).symm.trans hstep)).2.1
        rw [hnone] at hresult
        cases hresult
      · rw [(hi.malloc hstep).2.1] at hresult
        cases hresult
    | visit grant =>
      obtain ⟨call₀, hcall⟩ := Option.ne_none_iff_exists'.mp henabled
      rcases hi with hfresh | ⟨c, hi⟩
      · rw [hfresh.call] at hcall
        cases hcall
      · obtain ⟨c', hi', hret⟩ := hi.visit hcall hmeets.1 hstep
        obtain ⟨rfl, hfits, rfl, hlive, hsize⟩ := hret call ptr hresult
        exact ⟨call.p, hi'.provides hlive hsize (hmeets.2 call hcall hfits)⟩
    | free bp =>
      rcases hi with hfresh | ⟨c, hi⟩
      · exact absurd henabled.2 (by rw [hfresh.live]; exact List.not_mem_nil)
      · rw [(hi.free henabled.1 henabled.2 hstep).2.2] at hresult
        cases hresult

theorem returns_own_memory_small : ∃ s b, onePage.run tame USERBASE 1
    [.malloc 64 false, .visit (some 0), .visit none] = some s ∧ Provides USERBASE s b (USERBASE + 0x1040) 64 := by
  have hrun : ((onePage.run tame USERBASE 1 [.malloc 64 false, .visit (some 0), .visit none]).map (·.result)) =
      some (some (⟨64, false, USERBASE, USERBASE + 0x1000, 1⟩, some (USERBASE + 0x1040))) := by decide +kernel
  obtain ⟨s, hs, hresult⟩ := Option.map_eq_some_iff.mp hrun
  have hruns := runIf_of_run (P := fun s a => KeepsHeap s a ∧ UnitsHold s a) (fun s a => tame_keeps) .nil hs
  obtain ⟨b, hb⟩ := returns_own_memory hruns onePage_start hresult
  exact ⟨s, b, hs, hb⟩

/-- The units of a request near the end of the word wrap to one. -/
theorem huge_request_served : Start USERBASE onePage ∧ ∃ s call, RunIf (fun _ _ => True) USERBASE onePage s ∧
    call.size = 0xFFFFFFC1 ∧ s.result = some (call, some (USERBASE + 0x1040)) ∧
    ¬ ∃ b, Provides USERBASE s b (USERBASE + 0x1040) call.size := by
  have hrun : ((onePage.run (fun _ _ => true) USERBASE 1
      [.malloc 0xFFFFFFC1 false, .visit (some 0), .visit none]).map fun s =>
        (s.result, s.heap.len USERBASE (USERBASE + 0x1000))) =
      some (some (⟨0xFFFFFFC1, false, USERBASE, USERBASE + 0x1000, 1⟩, some (USERBASE + 0x1040)), 64) := by
    decide +kernel
  obtain ⟨s, hs, heq⟩ := Option.map_eq_some_iff.mp hrun
  obtain ⟨hresult, hlen⟩ := Prod.mk.inj heq
  refine ⟨onePage_start, s, _, runIf_of_run (fun _ _ _ => trivial) .nil hs, rfl, hresult, ?_⟩
  rintro ⟨b, hb⟩
  obtain ⟨hptr, hle⟩ := hb.inside
  have hbase : b = USERBASE + 0x1000 := by
    unfold HEADER at hptr
    omega
  rw [hbase, hlen] at hle
  dsimp only at hle
  omega

end Ucore.Malloc
