import VfioUser.Dma.Basic

/-!
# Dirty page marking

`_dma_mark_dirty` sets the bits `start ..= end` that `_dma_bitmap_get_pgrange` computes from
an entry's offset and length. The loop runs on `size_t` indices: when `end` is the largest
`size_t`, `i <= end` holds for every `i` and the loop never exits.

## Implementation notes

The loop takes a fuel bound of `2 ^ 64` iterations, which every exiting run stays under; a run
that uses it up is a hang.
-/

namespace VfioUser.Dma

/-- `_dma_should_mark_dirty`. -/
def dmaShouldMarkDirty (dma : DmaController) (prot : BitVec 32) : Bool :=
  (prot &&& protWrite == protWrite) && decide (0 < dma.dirtyPgsize)

theorem dmaShouldMarkDirty_pos {dma : DmaController} {prot : BitVec 32}
    (h : dmaShouldMarkDirty dma prot) : 0 < dma.dirtyPgsize := by
  simp only [dmaShouldMarkDirty, Bool.and_eq_true, decide_eq_true_eq] at h
  exact h.2

/-- `_get_pgstart`. -/
def getPgstart (pgsize baseAddr offset : BitVec 64) : BitVec 64 :=
  (offset - baseAddr) / pgsize

/-- `_get_pgend`. -/
def getPgend (pgsize len start : BitVec 64) : BitVec 64 :=
  start + len / pgsize + (if len % pgsize ≠ 0 then 1 else 0) - 1

/-- `_dma_bitmap_get_pgrange`: the first and last page index to mark. -/
def dmaBitmapGetPgrange (dma : DmaController) (region : DmaMemoryRegion) (sg : DmaSg) :
    BitVec 64 × BitVec 64 :=
  let start := getPgstart dma.dirtyPgsize region.info.iova.iovBase sg.offset
  (start, getPgend dma.dirtyPgsize sg.length start)

/-- `for (i = start; i <= end; i++)` of `_dma_mark_dirty`, for at most `fuel` iterations. -/
def markLoop : Nat → BitVec 64 → BitVec 64 → DirtyBitmap → Except Fault DirtyBitmap
  | 0, _, _, _ => .error .hang
  | fuel + 1, i, e, bm => if i ≤ e then markLoop fuel (i + 1) e (bm.setBit i) else .ok bm

/-- `_dma_mark_dirty`: the region's bitmap after marking, or the failed assertion
`region->dirty_bitmap != NULL`. -/
def dmaMarkDirty (dma : DmaController) (region : DmaMemoryRegion) (sg : DmaSg) :
    Except Fault DirtyBitmap :=
  match region.dirtyBitmap with
  | none => .error .assertion
  | some bm =>
      let (start, e) := dmaBitmapGetPgrange dma region sg
      markLoop (2 ^ 64) start e bm

/-- The loop never exits when its bound is the largest `size_t`. -/
theorem markLoop_allOnes (fuel : Nat) (i : BitVec 64) (bm : DirtyBitmap) :
    markLoop fuel i (BitVec.allOnes 64) bm = .error .hang := by
  induction fuel generalizing i bm with
  | zero => rfl
  | succ fuel ih =>
      have hle : i ≤ BitVec.allOnes 64 := by
        rw [BitVec.le_def, BitVec.toNat_allOnes]; have := i.isLt; omega
      simp only [markLoop, hle, if_true, ih]

/-- Marking keeps the bitmap's size. -/
theorem markLoop_nbits {fuel : Nat} {i e : BitVec 64} {bm bm' : DirtyBitmap}
    (h : markLoop fuel i e bm = .ok bm') : bm'.nbits = bm.nbits := by
  induction fuel generalizing i bm with
  | zero => cases h
  | succ fuel ih =>
      simp only [markLoop] at h
      split at h
      · simpa using ih h
      · cases h; rfl

/-- The marking loop only sets bits. -/
theorem markLoop_grows {fuel : Nat} {i e : BitVec 64} {bm bm' : DirtyBitmap}
    (h : markLoop fuel i e bm = .ok bm') {p : Nat} (hp : bm.test p) : bm'.test p := by
  induction fuel generalizing i bm with
  | zero => cases h
  | succ fuel ih =>
      simp only [markLoop] at h
      split at h
      · exact ih h (by simp [hp])
      · cases h; exact hp

/-- A returning `_dma_mark_dirty` found a bitmap, kept its size and cleared none of its bits. -/
theorem dmaMarkDirty_eq_ok {dma : DmaController} {region : DmaMemoryRegion} {sg : DmaSg}
    {bm' : DirtyBitmap} (h : dmaMarkDirty dma region sg = .ok bm') :
    ∃ bm, region.dirtyBitmap = some bm ∧ bm'.nbits = bm.nbits ∧ ∀ p, bm.test p → bm'.test p := by
  unfold dmaMarkDirty at h
  split at h
  · cases h
  · exact ⟨_, ‹_›, markLoop_nbits h, fun _ => markLoop_grows h⟩

theorem markLoop_ne_assertion (fuel : Nat) (i e : BitVec 64) (bm : DirtyBitmap) :
    markLoop fuel i e bm ≠ .error .assertion := by
  induction fuel generalizing i bm with
  | zero => simp [markLoop]
  | succ fuel ih =>
      simp only [markLoop]
      split
      · exact ih _ _
      · simp

/-- `_dma_mark_dirty` aborts exactly when the region has no bitmap. -/
theorem dmaMarkDirty_eq_assertion {dma : DmaController} {region : DmaMemoryRegion}
    {sg : DmaSg} : dmaMarkDirty dma region sg = .error .assertion ↔ region.dirtyBitmap = none := by
  unfold dmaMarkDirty
  split
  · simp [*]
  · simp only [reduceCtorEq, iff_false, not_false_eq_true, *]
    exact markLoop_ne_assertion _ _ _ _

/-- Below the largest `size_t`, the loop exits with exactly the pages `i ..= e` added. -/
theorem markLoop_eq_ok {fuel : Nat} {i e : BitVec 64} (bm : DirtyBitmap)
    (he : e.toNat + 1 < 2 ^ 64) (hfuel : e.toNat + 1 - i.toNat < fuel) :
    ∃ bm', markLoop fuel i e bm = .ok bm' ∧ bm'.nbits = bm.nbits ∧
      ∀ p, bm'.test p = (decide (i.toNat ≤ p ∧ p ≤ e.toNat) || bm.test p) := by
  induction fuel generalizing i bm with
  | zero => omega
  | succ fuel ih =>
      by_cases hie : i ≤ e
      · rw [BitVec.le_def] at hie
        have hi1 : (i + 1).toNat = i.toNat + 1 := by
          bv_omega
        obtain ⟨bm', hrun, hn, ht⟩ := ih (i := i + 1) (bm.setBit i) (by omega)
        refine ⟨bm', ?_, by simpa using hn, fun p => ?_⟩
        · simpa only [markLoop, BitVec.le_def, hie, if_true] using hrun
        · rw [ht p, DirtyBitmap.test_setBit, hi1]
          by_cases h1 : p = i.toNat
          · simp [h1, hie]
          · by_cases h2 : i.toNat ≤ p ∧ p ≤ e.toNat
            · simp [h1, show i.toNat + 1 ≤ p ∧ p ≤ e.toNat by omega, h2]
            · simp [h1, show ¬ (i.toNat + 1 ≤ p ∧ p ≤ e.toNat) by omega, h2]
      · refine ⟨bm, by simp [markLoop, hie], rfl, fun p => ?_⟩
        rw [BitVec.le_def] at hie
        simp [show ¬ (i.toNat ≤ p ∧ p ≤ e.toNat) by omega]

/-- What `_dma_mark_dirty` does with a region's bitmap: it aborts without one, hangs when the
page range ends at the largest `size_t`, and otherwise sets exactly the pages of the range. -/
theorem dmaMarkDirty_spec (dma : DmaController) (region : DmaMemoryRegion) (sg : DmaSg) :
    (region.dirtyBitmap = none → dmaMarkDirty dma region sg = .error .assertion) ∧
    ((dmaBitmapGetPgrange dma region sg).2 = BitVec.allOnes 64 →
      region.dirtyBitmap ≠ none → dmaMarkDirty dma region sg = .error .hang) ∧
    (∀ bm, region.dirtyBitmap = some bm →
      (dmaBitmapGetPgrange dma region sg).2 ≠ BitVec.allOnes 64 →
      ∃ bm', dmaMarkDirty dma region sg = .ok bm' ∧ bm'.nbits = bm.nbits ∧
        ∀ p, bm'.test p = (decide ((dmaBitmapGetPgrange dma region sg).1.toNat ≤ p ∧
          p ≤ (dmaBitmapGetPgrange dma region sg).2.toNat) || bm.test p)) := by
  refine ⟨fun h => by simp [dmaMarkDirty, h], fun he h => ?_, fun bm h he => ?_⟩
  · obtain ⟨bm, hbm⟩ := Option.ne_none_iff_exists'.mp h
    simp only [dmaMarkDirty, hbm, he, markLoop_allOnes]
  · have hlt : (dmaBitmapGetPgrange dma region sg).2.toNat + 1 < 2 ^ 64 := by
      have := (dmaBitmapGetPgrange dma region sg).2.isLt
      have : (dmaBitmapGetPgrange dma region sg).2.toNat ≠ 2 ^ 64 - 1 := fun h' =>
        he (BitVec.eq_of_toNat_eq (by rw [h', BitVec.toNat_allOnes]))
      omega
    obtain ⟨bm', hrun, hn, ht⟩ := markLoop_eq_ok bm hlt (show _ < 2 ^ 64 by omega)
    exact ⟨bm', by simpa [dmaMarkDirty, h] using hrun, hn, ht⟩

end VfioUser.Dma
