import VfioUser.Dma.System

/-!
# Dirty pages over runs

While logging is on, a thread's calls only ever set dirty bits of the live regions: a
translation marks pages through `_dma_mark_dirty`, whose loop only sets bits; maps and unmaps
shift refcounts; a registration appends past the live regions; starting logging again returns
`alreadyActive` and changes nothing. Along a run that neither stops logging nor removes a
region, a page of a region live at the start that is marked dirty therefore stays marked, in
the same slot, at the same page size.
-/

namespace VfioUser.Dma

/-- `dma'` logs at the page size of `dma`, keeps its live regions live, and keeps every dirty
bit they have set. -/
structure KeepsDirty (dma dma' : DmaController) : Prop where
  dirtyPgsize : dma'.dirtyPgsize = dma.dirtyPgsize
  nregions : dma.nregions ≤ dma'.nregions
  bits : ∀ i < dma.nregions, ∀ bm, (dma.regions i).dirtyBitmap = some bm →
    ∃ bm', (dma'.regions i).dirtyBitmap = some bm' ∧ ∀ p, bm.test p → bm'.test p

theorem KeepsDirty.refl (dma : DmaController) : KeepsDirty dma dma :=
  ⟨rfl, le_rfl, fun _ _ bm h => ⟨bm, h, fun _ => id⟩⟩

theorem KeepsDirty.trans {dma dma' dma'' : DmaController} (h : KeepsDirty dma dma')
    (h' : KeepsDirty dma' dma'') : KeepsDirty dma dma'' :=
  ⟨h'.dirtyPgsize.trans h.dirtyPgsize, h.nregions.trans h'.nregions, fun i hi bm hb =>
    have ⟨bm', h₁, g₁⟩ := h.bits i hi bm hb
    have ⟨bm'', h₂, g₂⟩ := h'.bits i (lt_of_lt_of_le hi h.nregions) bm' h₁
    ⟨bm'', h₂, fun p hp => g₂ p (g₁ p hp)⟩⟩

theorem DirtyBitsOnly.keepsDirty {dma dma' : DmaController} (h : DirtyBitsOnly dma dma') :
    KeepsDirty dma dma' :=
  ⟨h.dirtyPgsize, h.nregions.ge, fun i _ => (h.regions i).grows⟩

theorem keepsDirty_shiftRefcnts (dma : DmaController) (c : Nat → Int) :
    KeepsDirty dma (dma.shiftRefcnts c) :=
  ⟨rfl, le_rfl, fun _ _ bm h => ⟨bm, h, fun _ => id⟩⟩

/-- A registration appends past the live regions and keeps the page size. -/
theorem dmaControllerAddRegion_keepsDirty {dma dma' : DmaController} {dmaAddr size : BitVec 64}
    {fd offset : Int} {prot : BitVec 32} {mmapAddr : BitVec 64} {r : AddRegionResult}
    (h : dmaControllerAddRegion dma dmaAddr size fd offset prot mmapAddr = (r, dma')) :
    KeepsDirty dma dma' := by
  rcases dmaControllerAddRegion_cases h with rfl | ⟨-, -, -, -, rfl⟩
  · exact .refl _
  · exact ⟨rfl, Nat.le_succ _, fun i hi bm hb =>
      ⟨bm, by simpa [Function.update_noteq (Nat.ne_of_lt hi)] using hb, fun _ => id⟩⟩

/-- The step lemma: while logging is on, every call that returns, other than stopping logging
or a removal that succeeds, keeps the dirty bits of the live regions. -/
theorem exec_keepsDirty {s s' : DmaState} {op : DmaOp} {out : DmaOut}
    (h : exec s op = .ok (s', out)) (hlog : 0 < s.dma.dirtyPgsize) (hstop : op ≠ .loggingStop)
    (hr : out ≠ .removeRegion .ok) : KeepsDirty s.dma s'.dma := by
  cases op with
  | addRegion a n fd off prot v => cases h; exact dmaControllerAddRegion_keepsDirty rfl
  | removeRegion a n =>
      cases h
      show KeepsDirty s.dma (dmaControllerRemoveRegion s.dma a n).2
      rcases hrm : dmaControllerRemoveRegion s.dma a n with ⟨r, d⟩
      rw [hrm] at hr
      rcases dmaControllerRemoveRegion_cases hrm with ⟨-, rfl⟩ | ⟨rfl, -⟩
      · exact .refl _
      · exact absurd rfl hr
  | loggingStart p =>
      cases h
      show KeepsDirty s.dma (dmaControllerDirtyPageLoggingStart s.dma p).2
      rw [dmaControllerDirtyPageLoggingStart, if_pos hlog]
      exact .refl s.dma
  | loggingStop => exact absurd rfl hstop
  | addrToSg a n m prot =>
      obtain ⟨res, hres, hd, -⟩ := exec_addrToSg_eq_ok h
      exact hd ▸ (dmaAddrToSg_eq_ok hres).1.keepsDirty
  | mapSg sgs =>
      cases h
      show KeepsDirty s.dma (dmaMapSg s.dma sgs).2.2
      rw [dmaMapSg_eq]
      exact keepsDirty_shiftRefcnts _ _
  | unmapSg sgs =>
      cases h
      show KeepsDirty s.dma (dmaUnmapSg s.dma sgs)
      rw [dmaUnmapSg_eq]
      exact keepsDirty_shiftRefcnts _ _

/-- The run lemma: logging stays on at the same page size, so every call of a run that neither
stops logging nor removes a region keeps the dirty bits. -/
theorem Run.keepsDirty {s s' : DmaState} {tr : List (DmaOp × DmaOut)} (hr : Run s tr s')
    (hlog : 0 < s.dma.dirtyPgsize) (hk : ∀ e ∈ tr, e.1 ≠ .loggingStop ∧ e.2 ≠ .removeRegion .ok) :
    KeepsDirty s.dma s'.dma := by
  induction hr with
  | nil => exact .refl _
  | cons h _ ih =>
      simp only [List.mem_cons, forall_eq_or_imp] at hk
      have h₁ := exec_keepsDirty h hlog hk.1.1 hk.1.2
      exact h₁.trans (ih (h₁.dirtyPgsize ▸ hlog) hk.2)

/-- While dirty logging is on, along any run that neither stops logging nor removes a region,
logging stays at the same page size, every region live at the start keeps its slot, and every
page of it that is marked dirty stays marked. -/
theorem Run.dirty_pages_kept {s s' : DmaState} {tr : List (DmaOp × DmaOut)} (hr : Run s tr s')
    (hlog : 0 < s.dma.dirtyPgsize) (hk : ∀ e ∈ tr, e.1 ≠ .loggingStop ∧ e.2 ≠ .removeRegion .ok)
    {i : Nat} (hi : i < s.dma.nregions) {bm : DirtyBitmap}
    (hbm : (s.dma.regions i).dirtyBitmap = some bm) :
    s'.dma.dirtyPgsize = s.dma.dirtyPgsize ∧ i < s'.dma.nregions ∧
      (s'.dma.regions i).info.iova = (s.dma.regions i).info.iova ∧
      ∃ bm', (s'.dma.regions i).dirtyBitmap = some bm' ∧ ∀ p, bm.test p → bm'.test p :=
  have hd := hr.keepsDirty hlog hk
  ⟨hd.dirtyPgsize, lt_of_lt_of_le hi hd.nregions, (hr.keepsSlots fun e he => (hk e he).2).2 i hi,
    hd.bits i hi bm hbm⟩

/-- `loggedRegionDma`'s region of two pages, as a thread's state with hint 0. -/
def loggedState : DmaState := ⟨loggedRegionDma 0 0x2000 0x1000 2, 0⟩

/-- `loggedState` with page 0 of its region marked, as a write to that page leaves it. -/
def markedState : DmaState :=
  ⟨loggedState.dma.modifyRegion 0 fun r =>
    { r with dirtyBitmap := some ((DirtyBitmap.zero 2).setBit 0) }, 0⟩

/-- A write translation to the first page of `loggedState` leaves `markedState`, with page 0
marked; from there logging is started again, the entry is mapped and a registration finds the
table full, and page 0 is still marked at the end. -/
theorem Run.dirty_pages_kept_after_write :
    (∃ out, exec loggedState (.addrToSg 0x100 0x100 1 protWrite) = .ok (markedState, out)) ∧
      (markedState.dma.regions 0).dirtyBitmap = some ((DirtyBitmap.zero 2).setBit 0) ∧
      ((DirtyBitmap.zero 2).setBit 0).test 0 = true ∧
      ∃ tr s', Run markedState tr s' ∧
        tr.map Prod.fst = [.loggingStart 0x1000, .mapSg [⟨0, 0, 0x100, 0x100, true⟩],
          .addRegion 0x4000 0x1000 4 0 protRead 0] ∧
        (s'.dma.dirtyPgsize = markedState.dma.dirtyPgsize ∧ 0 < s'.dma.nregions ∧
          (s'.dma.regions 0).info.iova = (markedState.dma.regions 0).info.iova ∧
          ∃ bm', (s'.dma.regions 0).dirtyBitmap = some bm' ∧
            ∀ p, ((DirtyBitmap.zero 2).setBit 0).test p → bm'.test p) := by
  have hr : Run markedState [(.loggingStart 0x1000, _), (.mapSg [⟨0, 0, 0x100, 0x100, true⟩], _),
      (.addRegion 0x4000 0x1000 4 0 protRead 0, _)] _ :=
    .cons rfl (.cons rfl (.cons rfl (.nil _)))
  exact ⟨⟨_, rfl⟩, rfl, by decide, _, _, hr, rfl,
    Run.dirty_pages_kept hr (by decide) (by simp) (by decide) rfl⟩

end VfioUser.Dma
