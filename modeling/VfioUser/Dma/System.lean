import VfioUser.Dma.Controller

/-!
# Runs of a controller

One thread drives one controller: it registers and removes regions, starts and stops
logging, translates spans and maps and unmaps entries, in any order. Its state is the
controller and its `region_hint`. Along every run in which each call returns, the table stays
well formed and every live region has a bitmap while logging is on, so the assertion in
`_dma_mark_dirty` never fires. An entry keeps naming its own region until a region is
removed; after a removal its index can name a region registered later.
-/

namespace VfioUser.Dma

/-- A thread's view of a controller: the controller and the thread's `region_hint`. -/
structure DmaState where
  dma : DmaController
  regionHint : Nat

/-- The calls a thread makes on a controller. -/
inductive DmaOp where
  | addRegion (dmaAddr size : BitVec 64) (fd offset : Int) (prot : BitVec 32)
      (mmapAddr : BitVec 64)
  | removeRegion (dmaAddr size : BitVec 64)
  | loggingStart (pgsize : BitVec 64)
  | loggingStop
  | addrToSg (dmaAddr len : BitVec 64) (maxSg : Int) (prot : BitVec 32)
  | mapSg (sgs : List DmaSg)
  | unmapSg (sgs : List DmaSg)

/-- What each call returns. -/
inductive DmaOut where
  | addRegion (r : AddRegionResult)
  | removeRegion (r : RemoveRegionResult)
  | logging (r : LoggingResult)
  | addrToSg (ret : Int) (errno : Option Int) (sgs : List DmaSg)
  | mapSg (ret : Int) (iovs : List Iovec)
  | unmapSg

/-- One call, or the fault that keeps it from returning. -/
def exec (s : DmaState) : DmaOp → Except Fault (DmaState × DmaOut)
  | .addRegion a n fd off prot v =>
      let r := dmaControllerAddRegion s.dma a n fd off prot v
      .ok (⟨r.2, s.regionHint⟩, .addRegion r.1)
  | .removeRegion a n =>
      let r := dmaControllerRemoveRegion s.dma a n
      .ok (⟨r.2, s.regionHint⟩, .removeRegion r.1)
  | .loggingStart p =>
      let r := dmaControllerDirtyPageLoggingStart s.dma p
      .ok (⟨r.2, s.regionHint⟩, .logging r.1)
  | .loggingStop => .ok (⟨dmaControllerDirtyPageLoggingStop s.dma, s.regionHint⟩, .logging .ok)
  | .addrToSg a n m prot =>
      (dmaAddrToSg s.regionHint s.dma a n m prot).map fun r =>
        (⟨r.1.dma, r.2⟩, .addrToSg r.1.ret r.1.errno r.1.sgs)
  | .mapSg sgs =>
      let r := dmaMapSg s.dma sgs
      .ok (⟨r.2.2, s.regionHint⟩, .mapSg r.1 r.2.1)
  | .unmapSg sgs => .ok (⟨dmaUnmapSg s.dma sgs, s.regionHint⟩, .unmapSg)

/-- A run in which every call returns, with the outputs recorded. -/
inductive Run : DmaState → List (DmaOp × DmaOut) → DmaState → Prop
  | nil (s : DmaState) : Run s [] s
  | cons {s s' s'' : DmaState} {op : DmaOp} {out : DmaOut} {tr : List (DmaOp × DmaOut)}
      (h : exec s op = .ok (s', out)) (rest : Run s' tr s'') : Run s ((op, out) :: tr) s''

/-- The states a run from a fresh controller reaches; the thread's hint starts anywhere. -/
def Reachable (s : DmaState) : Prop :=
  ∃ maxRegions slots hint tr, Run ⟨dmaControllerCreate maxRegions slots, hint⟩ tr s

/-- The run invariant: a well-formed table, and bitmaps for every live region while logging. -/
structure Inv (s : DmaState) : Prop where
  wf : s.dma.TableWf
  bitmaps : BitmapInv s.dma

/-- A translation call returns what `dma_addr_to_sg` returns, and the thread keeps its new hint. -/
theorem exec_addrToSg_eq_ok {s s' : DmaState} {dmaAddr len : BitVec 64} {maxSg : Int}
    {prot : BitVec 32} {out : DmaOut} (h : exec s (.addrToSg dmaAddr len maxSg prot) = .ok (s', out)) :
    ∃ res, dmaAddrToSg s.regionHint s.dma dmaAddr len maxSg prot = .ok (res, s'.regionHint) ∧
      s'.dma = res.dma ∧ out = .addrToSg res.ret res.errno res.sgs := by
  obtain ⟨r, hr, hs⟩ := except_map_eq_ok.mp h
  cases hs
  exact ⟨r.1, hr, rfl, rfl⟩

/-- What one call does to the controller: a registration, a removal, starting or stopping
logging, a change of dirty bits only, or a shift of refcounts. -/
theorem exec_cases {s s' : DmaState} {op : DmaOp} {out : DmaOut}
    (h : exec s op = .ok (s', out)) :
    (∃ a n fd off prot v r, dmaControllerAddRegion s.dma a n fd off prot v = (r, s'.dma)) ∨
      (∃ a n r, dmaControllerRemoveRegion s.dma a n = (r, s'.dma) ∧ out = .removeRegion r) ∨
      (∃ p, s'.dma = (dmaControllerDirtyPageLoggingStart s.dma p).2) ∨
      s'.dma = dmaControllerDirtyPageLoggingStop s.dma ∨
      DirtyBitsOnly s.dma s'.dma ∨
      ∃ c, s'.dma = s.dma.shiftRefcnts c := by
  cases op with
  | addRegion a n fd off prot v => cases h; exact .inl ⟨a, n, fd, off, prot, v, _, rfl⟩
  | removeRegion a n => cases h; exact .inr (.inl ⟨a, n, _, rfl, rfl⟩)
  | loggingStart p => cases h; exact .inr (.inr (.inl ⟨p, rfl⟩))
  | loggingStop => cases h; exact .inr (.inr (.inr (.inl rfl)))
  | addrToSg a n m prot =>
      obtain ⟨res, hres, hd, -⟩ := exec_addrToSg_eq_ok h
      exact .inr (.inr (.inr (.inr (.inl (hd ▸ (dmaAddrToSg_eq_ok hres).1)))))
  | mapSg sgs => cases h; exact .inr (.inr (.inr (.inr (.inr ⟨_, dmaMapSg_eq _ _⟩))))
  | unmapSg sgs => cases h; exact .inr (.inr (.inr (.inr (.inr ⟨_, dmaUnmapSg_eq _ _⟩))))

/-- Every call that returns keeps the invariant. -/
theorem exec_inv {s s' : DmaState} {op : DmaOp} {out : DmaOut} (hs : Inv s)
    (h : exec s op = .ok (s', out)) : Inv s' := by
  rcases exec_cases h with ⟨_, _, _, _, _, _, _, ha⟩ | ⟨_, _, _, hr, -⟩ | ⟨p, hl⟩ | hl | hd | ⟨c, hc⟩
  · exact ⟨dmaControllerAddRegion_wf hs.wf ha, dmaControllerAddRegion_bitmapInv hs.bitmaps ha⟩
  · exact ⟨dmaControllerRemoveRegion_wf hs.wf hr, dmaControllerRemoveRegion_bitmapInv hs.bitmaps hr⟩
  · exact ⟨hl ▸ dmaControllerDirtyPageLoggingStart_wf p hs.wf,
      hl ▸ dmaControllerDirtyPageLoggingStart_bitmapInv p hs.bitmaps⟩
  · exact ⟨hl ▸ dmaControllerDirtyPageLoggingStop_wf hs.wf, hl ▸ bitmapInv_of_pgsize_zero rfl⟩
  · exact ⟨hd.tableWf hs.wf, hd.bitmapInv hs.bitmaps⟩
  · exact ⟨hc ▸ tableWf_shiftRefcnts hs.wf c, hc ▸ bitmapInv_shiftRefcnts hs.bitmaps c⟩

theorem Run.inv {s s' : DmaState} {tr : List (DmaOp × DmaOut)} (hr : Run s tr s')
    (hs : Inv s) : Inv s' := by
  induction hr with
  | nil => exact hs
  | cons h _ ih => exact ih (exec_inv hs h)

theorem Reachable.inv {s : DmaState} (h : Reachable s) : Inv s := by
  obtain ⟨maxRegions, slots, hint, tr, hr⟩ := h
  exact hr.inv ⟨dmaControllerCreate_wf maxRegions slots,
    dmaControllerCreate_bitmapInv maxRegions slots⟩

/-- Every call that returns, except a removal that succeeds, keeps the live regions in their
slots. -/
theorem exec_keepsSlots {s s' : DmaState} {op : DmaOp} {out : DmaOut}
    (h : exec s op = .ok (s', out)) (hr : out ≠ .removeRegion .ok) : KeepsSlots s.dma s'.dma := by
  rcases exec_cases h with ⟨_, _, _, _, _, _, _, ha⟩ | ⟨_, _, _, hrm, rfl⟩ | ⟨p, hl⟩ | hl | hd | ⟨c, hc⟩
  · exact dmaControllerAddRegion_keepsSlots ha
  · rcases dmaControllerRemoveRegion_cases hrm with ⟨-, he⟩ | ⟨rfl, -⟩
    · exact he ▸ KeepsSlots.refl _
    · exact absurd rfl hr
  · have hk := dmaControllerDirtyPageLoggingStart_keeps s.dma p
    exact hl ▸ ⟨Nat.le_of_eq hk.1.symm, fun i _ => hk.2.2 i⟩
  · exact hl ▸ ⟨Nat.le_refl _, fun i _ => dmaControllerDirtyPageLoggingStop_iova s.dma i⟩
  · exact hd.keepsSlots
  · exact hc ▸ keepsSlots_shiftRefcnts _ _

/-- A run that removes no region keeps the live regions in their slots. -/
theorem Run.keepsSlots {s s' : DmaState} {tr : List (DmaOp × DmaOut)} (hr : Run s tr s')
    (hk : ∀ e ∈ tr, e.2 ≠ .removeRegion .ok) : KeepsSlots s.dma s'.dma := by
  induction hr with
  | nil => exact KeepsSlots.refl _
  | cons h _ ih =>
      simp only [List.mem_cons, forall_eq_or_imp] at hk
      exact (exec_keepsSlots h hk.1).trans (ih hk.2)

/-- In every reachable state, a write that `_dma_should_mark_dirty` lets through finds on every
live region a bitmap of one bit per page at the current page size, so neither `dma_init_sg` on a
live region nor any translation fails the assertion of `_dma_mark_dirty`. -/
theorem reachable_marked_regions_have_bitmaps {s : DmaState} (h : Reachable s) :
    (∀ prot, dmaShouldMarkDirty s.dma prot → ∀ i < s.dma.nregions, ∃ bm,
      (s.dma.regions i).dirtyBitmap = some bm ∧
        bm.nbits = pageCount (s.dma.regions i).len s.dma.dirtyPgsize.toNat) ∧
      (∀ dmaAddr len prot i, i < s.dma.nregions →
        dmaInitSg s.dma dmaAddr len prot i ≠ .error .assertion) ∧
      ∀ regionHint dmaAddr len maxSg prot,
        dmaAddrToSg regionHint s.dma dmaAddr len maxSg prot ≠ .error .assertion := by
  have hb := h.inv.bitmaps
  refine ⟨fun prot hd => hb (dmaShouldMarkDirty_pos hd), fun dmaAddr len prot i hi he => ?_,
    fun regionHint dmaAddr len maxSg prot he => ?_⟩
  · obtain ⟨hd, hm⟩ := dmaInitSg_eq_error he
    exact hb.dirtyBitmap_ne_none hd hi (dmaMarkDirty_eq_assertion.mp hm)
  · obtain ⟨i, hi, hd, hn⟩ := dmaAddrToSg_eq_assertion he
    exact hb.dirtyBitmap_ne_none hd hi hn

/-- A free slot of a fresh table. -/
def freeSlot : DmaMemoryRegion :=
  { info := { iova := ⟨0, 0⟩, vaddr := 0, prot := 0 }, fd := -1, offset := 0, refcnt := 0,
    dirtyBitmap := none }

/-- A two-slot controller that starts logging at page size `0x1000` and then registers the
read-write region `[0x1000, 0x3000)`. -/
def lateRegionState : DmaState :=
  ⟨(dmaControllerAddRegion (dmaControllerDirtyPageLoggingStart
      (dmaControllerCreate 2 fun _ => freeSlot) 0x1000).2 0x1000 0x2000 3 0
      (protRead ||| protWrite) 0x7f0000000000).2, 0⟩

/-- The region registered after logging started has a bitmap, and no write into it aborts. -/
theorem reachable_marked_regions_have_bitmaps_late_region :
    Reachable lateRegionState ∧ lateRegionState.dma.nregions = 1 ∧
      dmaShouldMarkDirty lateRegionState.dma protWrite ∧
      ∀ dmaAddr len maxSg, dmaAddrToSg 0 lateRegionState.dma dmaAddr len maxSg protWrite ≠
        .error .assertion := by
  have hr : Reachable lateRegionState := ⟨2, fun _ => freeSlot, 0,
    [(.loggingStart 0x1000, .logging .ok),
      (.addRegion 0x1000 0x2000 3 0 (protRead ||| protWrite) 0x7f0000000000, .addRegion (.ok 0))],
    .cons rfl (.cons rfl (.nil _))⟩
  exact ⟨hr, rfl, by decide, fun a n m => (reachable_marked_regions_have_bitmaps hr).2.2 0 a n m _⟩

/-- An entry translated in a reachable state keeps naming its own region along any later run
that removes no region: the slot it names is live and has the entry's base, `dma_map_sg` on it
returns the host address at the entry's offset in that region and raises that region's
refcount, and `dma_unmap_sg` lowers the same one. A span that does not wrap the 64-bit space
gives an entry that ends by the region's end. -/
theorem translated_entry_maps_own_region {s s₁ s₂ : DmaState} {dmaAddr len : BitVec 64}
    {maxSg : Int} {prot : BitVec 32} {ret : Int} {errno : Option Int} {sgs : List DmaSg}
    {tr : List (DmaOp × DmaOut)} {sg : DmaSg} (hs : Reachable s)
    (ht : exec s (.addrToSg dmaAddr len maxSg prot) = .ok (s₁, .addrToSg ret errno sgs))
    (hsg : sg ∈ sgs) (hrun : Run s₁ tr s₂) (hkeep : ∀ e ∈ tr, e.2 ≠ .removeRegion .ok) :
    sg.region < s₂.dma.nregions ∧ (s₂.dma.regions sg.region).info.iova.iovBase = sg.dmaAddr ∧
      ((s₂.dma.regions sg.region).info.vaddr ≠ 0 →
        dmaMapSg s₂.dma [sg] =
            (0, [⟨(s₂.dma.regions sg.region).info.vaddr + sg.offset, sg.length⟩],
              s₂.dma.addRefcnt sg.region 1) ∧
          dmaUnmapSg (s₂.dma.addRefcnt sg.region 1) [sg] = s₂.dma) ∧
      (dmaAddr.toNat + len.toNat < 2 ^ 64 →
        sg.offset.toNat + sg.length.toNat ≤ (s₂.dma.regions sg.region).len) := by
  obtain ⟨res, hr, hd, hout⟩ := exec_addrToSg_eq_ok ht
  cases hout
  have hv := (dmaAddrToSg_eq_ok hr).2 sg hsg
  have hk : KeepsSlots s.dma s₂.dma :=
    (dmaAddrToSg_eq_ok hr).1.keepsSlots.trans (hd ▸ hrun.keepsSlots hkeep)
  have hv₂ := hk.sgValid hv
  have hwf₂ := (hrun.inv (exec_inv hs.inv ht)).wf
  have hmap : (s₂.dma.regions sg.region).info.vaddr ≠ 0 → dmaMapSg s₂.dma [sg] =
      (0, [⟨(s₂.dma.regions sg.region).info.vaddr + sg.offset, sg.length⟩],
        s₂.dma.addRefcnt sg.region 1) := fun h0 => by
    rw [dmaMapSg, if_neg (Nat.not_le.mpr hv₂.1), if_neg h0]; rfl
  refine ⟨hv₂.1, hv₂.2.symm, fun h0 => ⟨hmap h0, ?_⟩, fun hnw => ?_⟩
  · have := dmaMapSg_unmap_processed hwf₂ (show ∀ x ∈ [sg], s₂.dma.SgValid x by simpa using hv₂)
    rwa [hmap h0] at this
  · have hl : (s₂.dma.regions sg.region).len = (s.dma.regions sg.region).len := by
      simp only [DmaMemoryRegion.len, hk.2 _ hv.1]
    exact hl ▸ dmaAddrToSg_inside hs.inv.wf hnw hr sg hsg

/-- A two-slot controller with the read-write region `[0x1000, 0x2000)` in slot 0, mapped at
`0x7f0000000000`. -/
def oneRegionState : DmaState :=
  ⟨(dmaControllerAddRegion (dmaControllerCreate 2 fun _ => freeSlot) 0x1000 0x1000 3 0
      (protRead ||| protWrite) 0x7f0000000000).2, 0⟩

theorem oneRegionState_reachable : Reachable oneRegionState :=
  ⟨2, fun _ => freeSlot, 0,
    [(.addRegion 0x1000 0x1000 3 0 (protRead ||| protWrite) 0x7f0000000000, .addRegion (.ok 0))],
    .cons rfl (.nil _)⟩

/-- An entry translated from `0x1800` and mapped after a second region is registered: the
iovec is `0x800` bytes into the first region's mapping, and unmapping restores the table. -/
theorem translated_entry_maps_own_region_after_add :
    ∃ s₁ s₂ sg, exec oneRegionState (.addrToSg 0x1800 0x100 1 protRead) =
        .ok (s₁, .addrToSg 1 none [sg]) ∧
      Run s₁ [(.addRegion 0x8000 0x100 4 0 (protRead ||| protWrite) 0x7f0000100000,
        .addRegion (.ok 1))] s₂ ∧
      dmaMapSg s₂.dma [sg] = (0, [⟨0x7f0000000800, 0x100⟩], s₂.dma.addRefcnt 0 1) ∧
      dmaUnmapSg (s₂.dma.addRefcnt 0 1) [sg] = s₂.dma := by
  have ht : exec oneRegionState (.addrToSg 0x1800 0x100 1 protRead) = .ok (oneRegionState,
      .addrToSg 1 none [⟨0x1000, 0, 0x100, 0x800, true⟩]) := rfl
  have hrun : Run oneRegionState [(.addRegion 0x8000 0x100 4 0 (protRead ||| protWrite) 0x7f0000100000,
      .addRegion (.ok 1))] _ := .cons rfl (.nil _)
  have h := translated_entry_maps_own_region oneRegionState_reachable ht
    (List.mem_singleton_self _) hrun (by simp)
  exact ⟨_, _, _, ht, hrun, (h.2.2.1 (by decide)).1, (h.2.2.1 (by decide)).2⟩

/-- The state after translating `0x1800` in `oneRegionState`, removing its region and
registering `[0x8000, 0x8100)` at `0x7f0000100000`, which takes over slot 0. -/
theorem dmaMapSg_after_slot_reuse :
    ∃ s₁ s₂ sg, exec oneRegionState (.addrToSg 0x1800 0x100 1 protRead) =
        .ok (s₁, .addrToSg 1 none [sg]) ∧
      Run s₁ [(.removeRegion 0x1000 0x1000, .removeRegion .ok),
        (.addRegion 0x8000 0x100 4 0 (protRead ||| protWrite) 0x7f0000100000,
          .addRegion (.ok 0))] s₂ ∧
      sg.region = 0 ∧ sg.region < s₂.dma.nregions ∧ sg.dmaAddr = 0x1000 ∧
      (s₂.dma.regions 0).info.iova.iovBase = 0x8000 ∧
      dmaMapSg s₂.dma [sg] = (0, [⟨0x7f0000100800, 0x100⟩], s₂.dma.addRefcnt 0 1) ∧
      (s₂.dma.regions 0).len < sg.offset.toNat + sg.length.toNat ∧
      ((dmaUnmapSg (s₂.dma.addRefcnt 0 1) [sg]).regions 0).refcnt = 1 :=
  ⟨_, _, _, rfl, .cons rfl (.cons rfl (.nil _)), rfl, by decide, rfl, rfl, rfl, by decide, rfl⟩

end VfioUser.Dma
