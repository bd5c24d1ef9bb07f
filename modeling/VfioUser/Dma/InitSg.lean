import VfioUser.Dma.Dirty

/-!
# Building one scatter-gather entry

`dma_init_sg` checks write permission, fills the entry from the region, and marks the
entry's pages dirty when the access is a write and logging is on. The only state it changes
is the contents of that region's bitmap.
-/

namespace VfioUser.Dma

/-- `dma_init_sg`: the entry and the controller with the region's new dirty bits, or `none`
for the `EACCES` return. The `uint32_t` length widens to the entry's `uint64_t` field. -/
def dmaInitSg (dma : DmaController) (dmaAddr : BitVec 64) (len : BitVec 32) (prot : BitVec 32)
    (regionIndex : Nat) : Except Fault (Option (DmaSg × DmaController)) :=
  let region := dma.regions regionIndex
  if prot &&& protWrite ≠ 0 ∧ region.info.prot &&& protWrite = 0 then .ok none
  else
    let sg : DmaSg :=
      { dmaAddr := region.info.iova.iovBase, region := regionIndex,
        offset := dmaAddr - region.info.iova.iovBase, length := len.setWidth 64,
        mappable := region.info.vaddr ≠ 0 }
    if dmaShouldMarkDirty dma prot then
      (dmaMarkDirty dma region sg).map fun bm =>
        some (sg, dma.modifyRegion regionIndex fun r => { r with dirtyBitmap := some bm })
    else .ok (some (sg, dma))

/-- Two region slots agree in everything but the bits of their dirty bitmaps, and the second
keeps every bit the first has set. -/
structure SameButBits (r r' : DmaMemoryRegion) : Prop where
  info : r'.info = r.info
  fd : r'.fd = r.fd
  offset : r'.offset = r.offset
  refcnt : r'.refcnt = r.refcnt
  nbits : r'.dirtyBitmap.map DirtyBitmap.nbits = r.dirtyBitmap.map DirtyBitmap.nbits
  grows : ∀ bm, r.dirtyBitmap = some bm →
    ∃ bm', r'.dirtyBitmap = some bm' ∧ ∀ p, bm.test p → bm'.test p

/-- `dma'` differs from `dma` at most in bits it sets in the dirty bitmaps `dma` already has. -/
structure DirtyBitsOnly (dma dma' : DmaController) : Prop where
  maxRegions : dma'.maxRegions = dma.maxRegions
  nregions : dma'.nregions = dma.nregions
  dirtyPgsize : dma'.dirtyPgsize = dma.dirtyPgsize
  regions : ∀ i, SameButBits (dma.regions i) (dma'.regions i)

theorem SameButBits.refl (r : DmaMemoryRegion) : SameButBits r r :=
  ⟨rfl, rfl, rfl, rfl, rfl, fun bm h => ⟨bm, h, fun _ => id⟩⟩

theorem SameButBits.trans {r r' r'' : DmaMemoryRegion} (h : SameButBits r r')
    (h' : SameButBits r' r'') : SameButBits r r'' :=
  ⟨h'.info.trans h.info, h'.fd.trans h.fd, h'.offset.trans h.offset,
    h'.refcnt.trans h.refcnt, h'.nbits.trans h.nbits, fun bm hb =>
      have ⟨bm', h₁, g₁⟩ := h.grows bm hb
      have ⟨bm'', h₂, g₂⟩ := h'.grows bm' h₁
      ⟨bm'', h₂, fun p hp => g₂ p (g₁ p hp)⟩⟩

theorem DirtyBitsOnly.refl (dma : DmaController) : DirtyBitsOnly dma dma :=
  ⟨rfl, rfl, rfl, fun _ => SameButBits.refl _⟩

theorem DirtyBitsOnly.trans {dma dma' dma'' : DmaController} (h : DirtyBitsOnly dma dma')
    (h' : DirtyBitsOnly dma' dma'') : DirtyBitsOnly dma dma'' :=
  ⟨h'.maxRegions.trans h.maxRegions, h'.nregions.trans h.nregions,
    h'.dirtyPgsize.trans h.dirtyPgsize, fun i => (h.regions i).trans (h'.regions i)⟩

/-- Replacing a bitmap by one of the same size that keeps its set bits changes only dirty bits. -/
theorem dirtyBitsOnly_setBitmap (dma : DmaController) (i : Nat) {bm bm' : DirtyBitmap}
    (hbm : (dma.regions i).dirtyBitmap = some bm) (hn : bm'.nbits = bm.nbits)
    (hg : ∀ p, bm.test p → bm'.test p) :
    DirtyBitsOnly dma (dma.modifyRegion i fun r => { r with dirtyBitmap := some bm' }) := by
  refine ⟨rfl, rfl, rfl, fun j => ?_⟩
  rw [DmaController.modifyRegion_regions]
  split
  · subst j
    exact ⟨rfl, rfl, rfl, rfl, by simp [hbm, hn], fun b hb => ⟨bm', rfl, by
      cases hbm.symm.trans hb; exact hg⟩⟩
  · exact SameButBits.refl _

/-- The entry `dma_init_sg` builds for `len` bytes at `dmaAddr` in slot `i`. -/
def initSgEntry (dma : DmaController) (dmaAddr : BitVec 64) (len : BitVec 32) (i : Nat) : DmaSg :=
  { dmaAddr := (dma.regions i).info.iova.iovBase, region := i,
    offset := dmaAddr - (dma.regions i).info.iova.iovBase, length := len.setWidth 64,
    mappable := (dma.regions i).info.vaddr ≠ 0 }

/-- A successful `dma_init_sg` passed the write check, built `initSgEntry`, and changed only
dirty bits. -/
theorem dmaInitSg_eq_some {dma dma' : DmaController} {dmaAddr : BitVec 64} {len prot : BitVec 32}
    {i : Nat} {sg : DmaSg} (h : dmaInitSg dma dmaAddr len prot i = .ok (some (sg, dma'))) :
    sg = initSgEntry dma dmaAddr len i ∧
      (prot &&& protWrite ≠ 0 → (dma.regions i).info.prot &&& protWrite ≠ 0) ∧
      DirtyBitsOnly dma dma' := by
  simp only [dmaInitSg] at h
  by_cases hw : prot &&& protWrite ≠ 0 ∧ (dma.regions i).info.prot &&& protWrite = 0
  · rw [if_pos hw] at h; cases h
  have hp : prot &&& protWrite ≠ 0 → (dma.regions i).info.prot &&& protWrite ≠ 0 :=
    fun hp hr => hw ⟨hp, hr⟩
  rw [if_neg hw] at h
  by_cases hd : dmaShouldMarkDirty dma prot
  · rw [if_pos hd] at h
    cases hm : dmaMarkDirty dma (dma.regions i) (initSgEntry dma dmaAddr len i) with
    | error e => simp only [initSgEntry] at hm; rw [hm] at h; cases h
    | ok bm' =>
        simp only [initSgEntry] at hm
        simp only [hm, Except.map, Except.ok.injEq, Option.some.injEq, Prod.mk.injEq] at h
        obtain ⟨rfl, rfl⟩ := h
        obtain ⟨bm, hbm, hn, hg⟩ := dmaMarkDirty_eq_ok hm
        exact ⟨rfl, hp, dirtyBitsOnly_setBitmap dma i hbm hn hg⟩
  · simp only [hd, Bool.false_eq_true, if_false, Except.ok.injEq, Option.some.injEq,
      Prod.mk.injEq] at h
    obtain ⟨rfl, rfl⟩ := h
    exact ⟨rfl, hp, DirtyBitsOnly.refl dma⟩

/-- `dma_init_sg` fails to return only inside `_dma_mark_dirty`. -/
theorem dmaInitSg_eq_error {dma : DmaController} {dmaAddr : BitVec 64} {len prot : BitVec 32}
    {i : Nat} {f : Fault} (h : dmaInitSg dma dmaAddr len prot i = .error f) :
    dmaShouldMarkDirty dma prot ∧
      dmaMarkDirty dma (dma.regions i) (initSgEntry dma dmaAddr len i) = .error f := by
  simp only [dmaInitSg] at h
  by_cases hw : prot &&& protWrite ≠ 0 ∧ (dma.regions i).info.prot &&& protWrite = 0
  · rw [if_pos hw] at h; cases h
  rw [if_neg hw] at h
  by_cases hd : dmaShouldMarkDirty dma prot
  · rw [if_pos hd] at h
    refine ⟨hd, ?_⟩
    cases hm : dmaMarkDirty dma (dma.regions i) (initSgEntry dma dmaAddr len i) with
    | error e => simp only [initSgEntry] at hm; rw [hm] at h; cases h; rfl
    | ok bm' => simp only [initSgEntry] at hm; rw [hm] at h; cases h
  · simp only [hd, Bool.false_eq_true, if_false] at h; cases h

theorem DirtyBitsOnly.initSgEntry_eq {dma dma' : DmaController} (h : DirtyBitsOnly dma dma')
    (dmaAddr : BitVec 64) (len : BitVec 32) (i : Nat) :
    initSgEntry dma' dmaAddr len i = initSgEntry dma dmaAddr len i := by
  simp [initSgEntry, (h.regions i).info]

theorem DirtyBitsOnly.dmaShouldMarkDirty_eq {dma dma' : DmaController}
    (h : DirtyBitsOnly dma dma') (prot : BitVec 32) :
    dmaShouldMarkDirty dma' prot = dmaShouldMarkDirty dma prot := by
  simp [dmaShouldMarkDirty, h.dirtyPgsize]

theorem DirtyBitsOnly.dirtyBitmap_eq_none {dma dma' : DmaController} (h : DirtyBitsOnly dma dma')
    (i : Nat) : (dma'.regions i).dirtyBitmap = none ↔ (dma.regions i).dirtyBitmap = none := by
  have := (h.regions i).nbits
  rw [← Option.map_eq_none' (f := DirtyBitmap.nbits), this, Option.map_eq_none']

/-- One read-write region of `len` bytes at `base`, logged at page size `pgsize` with a zero
bitmap of `nbits` pages. -/
def loggedRegionDma (base len pgsize : BitVec 64) (nbits : Nat) : DmaController where
  maxRegions := 1
  nregions := 1
  dirtyPgsize := pgsize
  regions := fun _ =>
    { info := { iova := ⟨base, len⟩, vaddr := 0x7f0000000000, prot := protRead ||| protWrite },
      fd := 3, offset := 0, refcnt := 0, dirtyBitmap := some (DirtyBitmap.zero nbits) }

/-- A zero-length write whose first page index comes out as 0 never returns: the last page
index `0 + 0 - 1` is the largest `size_t`. -/
theorem dmaInitSg_zero_length_hangs {dma : DmaController} {dmaAddr : BitVec 64}
    {prot : BitVec 32} {i : Nat} (hw : (dma.regions i).info.prot &&& protWrite ≠ 0)
    (hd : dmaShouldMarkDirty dma prot) (hbm : (dma.regions i).dirtyBitmap ≠ none)
    (hs : getPgstart dma.dirtyPgsize (dma.regions i).info.iova.iovBase
      (dmaAddr - (dma.regions i).info.iova.iovBase) = 0) :
    dmaInitSg dma dmaAddr 0 prot i = .error .hang := by
  have he : (dmaBitmapGetPgrange dma (dma.regions i) (initSgEntry dma dmaAddr 0 i)).2 =
      BitVec.allOnes 64 := by
    simp only [dmaBitmapGetPgrange, initSgEntry, hs, getPgend, BitVec.setWidth_zero]
    simp [BitVec.zero_udiv, BitVec.zero_umod]
  have hm := (dmaMarkDirty_spec dma (dma.regions i) (initSgEntry dma dmaAddr 0 i)).2.1 he hbm
  simp only [initSgEntry] at hm
  simp only [dmaInitSg, hw, and_false, if_false, hd, if_true, hm]
  rfl

/-- A zero-length write at the start of a logged region at DMA address 0 hangs. -/
theorem dmaInitSg_zero_length_hangs_at_base :
    ((loggedRegionDma 0 0x1000 0x1000 1).regions 0).info.prot &&& protWrite ≠ 0 ∧
      dmaShouldMarkDirty (loggedRegionDma 0 0x1000 0x1000 1) protWrite ∧
      ((loggedRegionDma 0 0x1000 0x1000 1).regions 0).dirtyBitmap ≠ none ∧
      getPgstart 0x1000 0 (0 - 0) = 0 ∧
      dmaInitSg (loggedRegionDma 0 0x1000 0x1000 1) 0 0 protWrite 0 = .error .hang :=
  have hb : ((loggedRegionDma 0 0x1000 0x1000 1).regions 0).dirtyBitmap ≠ none :=
    fun h => Option.noConfusion h
  ⟨by decide, by decide, hb, by decide, dmaInitSg_zero_length_hangs (by decide) (by decide) hb
    (by decide)⟩

/-- A write of `0x1000` bytes at offset `0x800` of a region at DMA address 0, logged at page
size `0x1000`, touches pages 0 and 1 but marks only page 0. -/
theorem dmaInitSg_unaligned_write_misses_page :
    ∃ sg dma' bm, dmaInitSg (loggedRegionDma 0 0x2000 0x1000 2) 0x800 0x1000 protWrite 0 =
        .ok (some (sg, dma')) ∧ sg.offset = 0x800 ∧ sg.length = 0x1000 ∧
      (dma'.regions 0).dirtyBitmap = some bm ∧ bm.test 0 = true ∧ bm.test 1 = false :=
  ⟨_, _, _, rfl, rfl, rfl, rfl, by decide, by decide⟩

/-- `loggedRegionDma`'s region of one page at DMA address `0x1000`, logged at page size
`0x1000`. -/
def nonzeroBaseDma : DmaController := loggedRegionDma 0x1000 0x1000 0x1000 1

/-- A write to the first page of a region at DMA address `0x1000`: `dma_init_sg` builds an entry
at offset 0 and hands it to `_dma_mark_dirty`, whose page range is `[2 ^ 52 - 1, 2 ^ 52 - 1]`,
far past the region's one-page bitmap, with page 0 outside it. -/
theorem dmaInitSg_nonzero_base_marks_outside :
    dmaShouldMarkDirty nonzeroBaseDma protWrite = true ∧
      dmaInitSg nonzeroBaseDma 0x1000 0x10 protWrite 0 =
        (dmaMarkDirty nonzeroBaseDma (nonzeroBaseDma.regions 0)
          (initSgEntry nonzeroBaseDma 0x1000 0x10 0)).map (fun bm =>
            some (initSgEntry nonzeroBaseDma 0x1000 0x10 0,
              nonzeroBaseDma.modifyRegion 0 fun r => { r with dirtyBitmap := some bm })) ∧
      (initSgEntry nonzeroBaseDma 0x1000 0x10 0).offset = 0 ∧
      (initSgEntry nonzeroBaseDma 0x1000 0x10 0).length = 0x10 ∧
      dmaBitmapGetPgrange nonzeroBaseDma (nonzeroBaseDma.regions 0)
        (initSgEntry nonzeroBaseDma 0x1000 0x10 0) = (2 ^ 52 - 1, 2 ^ 52 - 1) ∧
      (nonzeroBaseDma.regions 0).dirtyBitmap.map DirtyBitmap.nbits = some 1 :=
  ⟨rfl, rfl, rfl, rfl, rfl, rfl⟩

end VfioUser.Dma
