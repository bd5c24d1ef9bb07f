import VfioUser.Dma.System

/-!
# Refcount accounting over runs

`dma_map_sg` raises a region's refcount once for each entry it processed that names the
region's slot, and `dma_unmap_sg` lowers it once for each entry carrying the region's base; no
other call touches a live region's refcount. Along a run that removes no region, the refcount
of a region live at the start is therefore its first value, plus what the maps added, minus
what the unmaps took: counted from the calls and their outputs alone.
-/

namespace VfioUser.Dma

/-- The entries of a `dma_map_sg` call that it processed and that name slot `k`. -/
def mapCount (k : Nat) : DmaOp × DmaOut → Nat
  | (.mapSg sgs, .mapSg _ iovs) => (sgs.take iovs.length).countP fun sg => sg.region = k
  | _ => 0

/-- The entries of a `dma_unmap_sg` call that carry base `a`. -/
def unmapCount (a : BitVec 64) : DmaOp × DmaOut → Nat
  | (.unmapSg sgs, _) => sgs.countP fun sg => sg.dmaAddr = a
  | _ => 0

theorem dmaControllerDirtyPageLoggingStart_refcnt (dma : DmaController) (pgsize : BitVec 64)
    (k : Nat) : ((dmaControllerDirtyPageLoggingStart dma pgsize).2.regions k).refcnt =
      (dma.regions k).refcnt := by
  unfold dmaControllerDirtyPageLoggingStart
  split
  · rfl
  · split
    · rfl
    · simp only; split <;> rfl

theorem dmaControllerDirtyPageLoggingStop_refcnt (dma : DmaController) (k : Nat) :
    ((dmaControllerDirtyPageLoggingStop dma).regions k).refcnt = (dma.regions k).refcnt := by
  simp only [dmaControllerDirtyPageLoggingStop]; split <;> rfl

/-- One call that returns, other than a removal that succeeds, moves the refcount of a live
region by what it maps to the region's slot minus what it unmaps from the region's base. -/
theorem exec_refcnt {s s' : DmaState} {op : DmaOp} {out : DmaOut} (hs : Inv s)
    (h : exec s op = .ok (s', out)) (hr : out ≠ .removeRegion .ok) {k : Nat}
    (hk : k < s.dma.nregions) :
    (s'.dma.regions k).refcnt = (s.dma.regions k).refcnt + mapCount k (op, out) -
      unmapCount (s.dma.regions k).info.iova.iovBase (op, out) := by
  cases op with
  | addRegion a n fd off prot v =>
      cases h
      simp only [mapCount, unmapCount, Nat.cast_zero, add_zero, sub_zero]
      rcases dmaControllerAddRegion_cases (Prod.eta _).symm with he | ⟨-, -, -, -, he⟩ <;> rw [he]
      simp only [Function.update_noteq (Nat.ne_of_lt hk)]
  | removeRegion a n =>
      cases h
      simp only [mapCount, unmapCount, Nat.cast_zero, add_zero, sub_zero]
      rcases dmaControllerRemoveRegion_cases (Prod.eta _).symm with ⟨-, he⟩ | ⟨hok, -⟩
      · rw [he]
      · exact absurd (congrArg DmaOut.removeRegion hok) hr
  | loggingStart p =>
      cases h
      simpa [mapCount, unmapCount] using dmaControllerDirtyPageLoggingStart_refcnt s.dma p k
  | loggingStop =>
      cases h
      simpa [mapCount, unmapCount] using dmaControllerDirtyPageLoggingStop_refcnt s.dma k
  | addrToSg a n m prot =>
      obtain ⟨res, hres, hd, rfl⟩ := exec_addrToSg_eq_ok h
      simpa [mapCount, unmapCount, hd] using ((dmaAddrToSg_eq_ok hres).1.regions k).refcnt
  | mapSg sgs =>
      cases h
      simp [mapCount, unmapCount, dmaMapSg_eq]
  | unmapSg sgs =>
      cases h
      simp [mapCount, unmapCount, dmaUnmapSg_live hs.wf sgs hk, Int.sub_eq_add_neg]

/-- Along a run that removes no region, the refcount of a region live at the start is its first
value plus the entries the maps processed for its slot, minus the entries the unmaps carried
with its base. -/
theorem Run.refcnt_accounting {s s' : DmaState} {tr : List (DmaOp × DmaOut)} (hr : Run s tr s')
    (hs : Inv s) (hkeep : ∀ e ∈ tr, e.2 ≠ .removeRegion .ok) {k : Nat} (hk : k < s.dma.nregions) :
    (s'.dma.regions k).refcnt = (s.dma.regions k).refcnt + ((tr.map (mapCount k)).sum : Nat) -
      ((tr.map (unmapCount (s.dma.regions k).info.iova.iovBase)).sum : Nat) := by
  induction hr with
  | nil => simp
  | cons h _ ih =>
      simp only [List.mem_cons, forall_eq_or_imp] at hkeep
      have hks := exec_keepsSlots h hkeep.1
      have hbase := congrArg Iovec.iovBase (hks.2 k hk)
      rw [ih (exec_inv hs h) hkeep.2 (lt_of_lt_of_le hk hks.1), exec_refcnt hs h hkeep.1 hk, hbase]
      simp only [List.map_cons, List.sum_cons, Nat.cast_add]
      omega

/-- A translated entry of `oneRegionState` mapped twice and unmapped once leaves one reference. -/
theorem Run.refcnt_accounting_map_twice_unmap_once :
    ∃ tr s', Run oneRegionState tr s' ∧
      tr.map Prod.fst = [.addrToSg 0x1800 0x100 1 protRead,
        .mapSg [⟨0x1000, 0, 0x100, 0x800, true⟩, ⟨0x1000, 0, 0x100, 0x800, true⟩],
        .unmapSg [⟨0x1000, 0, 0x100, 0x800, true⟩]] ∧
      Inv oneRegionState ∧ (∀ e ∈ tr, e.2 ≠ .removeRegion .ok) ∧ 0 < oneRegionState.dma.nregions ∧
      (s'.dma.regions 0).refcnt = (oneRegionState.dma.regions 0).refcnt +
        ((tr.map (mapCount 0)).sum : Nat) -
        ((tr.map (unmapCount (oneRegionState.dma.regions 0).info.iova.iovBase)).sum : Nat) := by
  have hr : Run oneRegionState [(.addrToSg 0x1800 0x100 1 protRead, _),
      (.mapSg [⟨0x1000, 0, 0x100, 0x800, true⟩, ⟨0x1000, 0, 0x100, 0x800, true⟩], _),
      (.unmapSg [⟨0x1000, 0, 0x100, 0x800, true⟩], _)] _ :=
    .cons rfl (.cons rfl (.cons rfl (.nil _)))
  exact ⟨_, _, hr, rfl, oneRegionState_reachable.inv, by simp, by decide,
    Run.refcnt_accounting hr oneRegionState_reachable.inv (by simp) (by decide)⟩

end VfioUser.Dma
