import VfioUser.Dma.MapSg

/-!
# Registering regions and dirty logging

`dma.c`, which creates controllers, registers and removes regions and starts and stops dirty
logging, is not among the sources. These operations follow the spec (§4.1, §4.5):
registration checks its arguments, refuses a span that overlaps a live region or a full
table, appends the region and gives it a bitmap when logging is on; removal refuses a region
that is still mapped and re-packs the table; starting logging gives every live region a
zeroed bitmap, stopping drops them all.
-/

namespace VfioUser.Dma

/-- Pages of `pgsize` bytes needed to cover `len` bytes. -/
def pageCount (len pgsize : Nat) : Nat := (len + pgsize - 1) / pgsize

/-- While logging is on, every live region has a bitmap with one bit per page. -/
def BitmapInv (dma : DmaController) : Prop :=
  0 < dma.dirtyPgsize → ∀ i < dma.nregions, ∃ bm, (dma.regions i).dirtyBitmap = some bm ∧
    bm.nbits = pageCount (dma.regions i).len dma.dirtyPgsize.toNat

/-- With logging off the bitmap invariant holds vacuously. -/
theorem bitmapInv_of_pgsize_zero {dma : DmaController} (h : dma.dirtyPgsize = 0) :
    BitmapInv dma :=
  fun hp => absurd (h ▸ hp) (show ¬ (0 : BitVec 64) < 0 by decide)

/-- Under the bitmap invariant a write that must be logged finds a bitmap on every live region. -/
theorem BitmapInv.dirtyBitmap_ne_none {dma : DmaController} (hb : BitmapInv dma)
    {prot : BitVec 32} (hd : dmaShouldMarkDirty dma prot) {i : Nat} (hi : i < dma.nregions) :
    (dma.regions i).dirtyBitmap ≠ none := fun hn => by
  obtain ⟨bm, hbm, -⟩ := hb (dmaShouldMarkDirty_pos hd) i hi
  rw [hn] at hbm; cases hbm

/-- `dma'` keeps every live region of `dma` in its slot, with the same iova. -/
def KeepsSlots (dma dma' : DmaController) : Prop :=
  dma.nregions ≤ dma'.nregions ∧
    ∀ i < dma.nregions, (dma'.regions i).info.iova = (dma.regions i).info.iova

theorem KeepsSlots.refl (dma : DmaController) : KeepsSlots dma dma :=
  ⟨Nat.le_refl _, fun _ _ => rfl⟩

theorem KeepsSlots.trans {dma dma' dma'' : DmaController} (h : KeepsSlots dma dma')
    (h' : KeepsSlots dma' dma'') : KeepsSlots dma dma'' :=
  ⟨Nat.le_trans h.1 h'.1, fun i hi => (h'.2 i (by have := h.1; omega)).trans (h.2 i hi)⟩

theorem KeepsSlots.sgValid {dma dma' : DmaController} (h : KeepsSlots dma dma') {sg : DmaSg}
    (hv : dma.SgValid sg) : dma'.SgValid sg :=
  ⟨Nat.lt_of_lt_of_le hv.1 h.1, by rw [h.2 _ hv.1]; exact hv.2⟩

theorem DirtyBitsOnly.keepsSlots {dma dma' : DmaController} (h : DirtyBitsOnly dma dma') :
    KeepsSlots dma dma' :=
  ⟨Nat.le_of_eq h.nregions.symm, fun i _ => by rw [(h.regions i).info]⟩

theorem keepsSlots_shiftRefcnts (dma : DmaController) (c : Nat → Int) :
    KeepsSlots dma (dma.shiftRefcnts c) :=
  ⟨Nat.le_refl _, fun _ _ => rfl⟩

/-- The table invariant reads only the live slots' iovas, the count and the capacity. -/
theorem DmaController.TableWf.of_iova {dma dma' : DmaController} (hwf : dma.TableWf)
    (hn : dma'.nregions = dma.nregions) (hm : dma'.maxRegions = dma.maxRegions)
    (hi : ∀ i < dma.nregions, (dma'.regions i).info.iova = (dma.regions i).info.iova) :
    dma'.TableWf := by
  have hb : ∀ i < dma'.nregions, (dma'.regions i).base = (dma.regions i).base ∧
      (dma'.regions i).len = (dma.regions i).len := fun i h => by
    simp [DmaMemoryRegion.base, DmaMemoryRegion.len, hi i (hn ▸ h)]
  refine ⟨hn ▸ hm ▸ hwf.bound, fun i h => ?_, fun i h => ?_, fun i h j h' hne => ?_⟩
  · rw [(hb i h).2]; exact hwf.nonempty i (hn ▸ h)
  · rw [(hb i h).1, (hb i h).2]; exact hwf.noWrap i (hn ▸ h)
  · rw [(hb i h).1, (hb i h).2, (hb j h').1, (hb j h').2]
    exact hwf.disjoint i (hn ▸ h) j (hn ▸ h') hne

theorem DirtyBitsOnly.tableWf {dma dma' : DmaController} (h : DirtyBitsOnly dma dma')
    (hwf : dma.TableWf) : dma'.TableWf :=
  hwf.of_iova h.nregions h.maxRegions fun i _ => by rw [(h.regions i).info]

theorem DirtyBitsOnly.bitmapInv {dma dma' : DmaController} (h : DirtyBitsOnly dma dma')
    (hb : BitmapInv dma) : BitmapInv dma' := by
  intro hp i hi
  rw [h.dirtyPgsize] at hp ⊢
  rw [h.nregions] at hi
  obtain ⟨bm, hbm, hn⟩ := hb hp i hi
  have hmap := (h.regions i).nbits
  rw [hbm] at hmap
  obtain ⟨bm', hbm', hn'⟩ := Option.map_eq_some'.mp hmap
  refine ⟨bm', hbm', ?_⟩
  simp only [DmaMemoryRegion.len, (h.regions i).info] at hn ⊢
  omega

theorem tableWf_shiftRefcnts {dma : DmaController} (hwf : dma.TableWf) (c : Nat → Int) :
    (dma.shiftRefcnts c).TableWf :=
  hwf.of_iova rfl rfl fun _ _ => rfl

theorem bitmapInv_shiftRefcnts {dma : DmaController} (hb : BitmapInv dma) (c : Nat → Int) :
    BitmapInv (dma.shiftRefcnts c) :=
  hb

/-- Modelled from the spec: `dma_controller_create`, an empty table of `maxRegions` slots
with logging off. The slots hold whatever the allocation held, `slots`. -/
def dmaControllerCreate (maxRegions : Nat) (slots : Nat → DmaMemoryRegion) : DmaController where
  maxRegions := maxRegions
  nregions := 0
  dirtyPgsize := 0
  regions := slots

theorem dmaControllerCreate_bitmapInv (maxRegions : Nat) (slots : Nat → DmaMemoryRegion) :
    BitmapInv (dmaControllerCreate maxRegions slots) :=
  bitmapInv_of_pgsize_zero rfl

theorem dmaControllerCreate_wf (maxRegions : Nat) (slots : Nat → DmaMemoryRegion) :
    (dmaControllerCreate maxRegions slots).TableWf where
  bound := Nat.zero_le _
  nonempty _ h := absurd h (Nat.not_lt_zero _)
  noWrap _ h := absurd h (Nat.not_lt_zero _)
  disjoint _ h := absurd h (Nat.not_lt_zero _)

/-- The outcome of `dma_controller_add_region`, as the spec's sum type: the new region's
index, the index of a live region it overlaps, a full table, or bad arguments. -/
inductive AddRegionResult where
  | ok (index : Nat)
  | overlap (index : Nat)
  | noSpace
  | badArg
deriving DecidableEq, Repr

/-- The spans `[a, a + n)` and `[b, b + m)` share a byte. -/
def Overlaps (a n b m : Nat) : Prop := a < b + m ∧ b < a + n

instance (a n b m : Nat) : Decidable (Overlaps a n b m) := inferInstanceAs (Decidable (_ ∧ _))

/-- The region `dma_controller_add_region` appends. Its bitmap follows the spec's §4.1 ("If
logging is active, allocate a zeroed `dirty_bitmap` for the new region sized for the current
`page_size`"), where §3's invariant, §4.5 and §9 say a region added while logging has none. -/
def newRegion (dma : DmaController) (dmaAddr size : BitVec 64) (fd offset : Int)
    (prot : BitVec 32) (mmapAddr : BitVec 64) : DmaMemoryRegion where
  info := { iova := ⟨dmaAddr, size⟩, vaddr := mmapAddr, prot := prot }
  fd := fd
  offset := offset
  refcnt := 0
  dirtyBitmap := if 0 < dma.dirtyPgsize then
    some (DirtyBitmap.zero (pageCount size.toNat dma.dirtyPgsize.toNat)) else none

/-- Modelled from the spec: `dma_controller_add_region` (§4.1). `mmapAddr` is what `mmap`
returned for the region, 0 when it failed; the region is registered either way. -/
def dmaControllerAddRegion (dma : DmaController) (dmaAddr size : BitVec 64) (fd offset : Int)
    (prot : BitVec 32) (mmapAddr : BitVec 64) : AddRegionResult × DmaController :=
  if size = 0 ∨ 2 ^ 64 < dmaAddr.toNat + size.toNat then (.badArg, dma)
  else match dma.findRegion fun r => decide (Overlaps dmaAddr.toNat size.toNat r.base r.len) with
    | some x => (.overlap x, dma)
    | none =>
        if dma.maxRegions ≤ dma.nregions then (.noSpace, dma)
        else (.ok dma.nregions,
          { dma with
            nregions := dma.nregions + 1
            regions := Function.update dma.regions dma.nregions
              (newRegion dma dmaAddr size fd offset prot mmapAddr) })

/-- A registration that changes the table appends one region past the live ones, with
arguments that passed the checks and a span that overlaps no live region. -/
theorem dmaControllerAddRegion_cases {dma dma' : DmaController} {dmaAddr size : BitVec 64}
    {fd offset : Int} {prot : BitVec 32} {mmapAddr : BitVec 64} {r : AddRegionResult}
    (h : dmaControllerAddRegion dma dmaAddr size fd offset prot mmapAddr = (r, dma')) :
    dma' = dma ∨
      (0 < size.toNat ∧ dmaAddr.toNat + size.toNat ≤ 2 ^ 64 ∧ dma.nregions < dma.maxRegions ∧
        (∀ j < dma.nregions,
          ¬ Overlaps dmaAddr.toNat size.toNat (dma.regions j).base (dma.regions j).len) ∧
        dma' = { dma with
          nregions := dma.nregions + 1
          regions := Function.update dma.regions dma.nregions
            (newRegion dma dmaAddr size fd offset prot mmapAddr) }) := by
  unfold dmaControllerAddRegion at h
  split at h
  · exact .inl (Prod.mk.inj h).2.symm
  · rename_i hargs
    split at h
    · exact .inl (Prod.mk.inj h).2.symm
    · rename_i hnone
      split at h
      · exact .inl (Prod.mk.inj h).2.symm
      · rename_i hfull
        refine .inr ⟨?_, by omega, by omega, fun j hj => ?_, (Prod.mk.inj h).2.symm⟩
        · have : size.toNat ≠ 0 := fun h0 => hargs (.inl (BitVec.eq_of_toNat_eq (by simp [h0])))
          omega
        · simpa using DmaController.findRegion_eq_none.mp hnone j hj

/-- Registration keeps the table well formed. -/
theorem dmaControllerAddRegion_wf {dma dma' : DmaController} {dmaAddr size : BitVec 64}
    {fd offset : Int} {prot : BitVec 32} {mmapAddr : BitVec 64} {r : AddRegionResult}
    (hwf : dma.TableWf)
    (h : dmaControllerAddRegion dma dmaAddr size fd offset prot mmapAddr = (r, dma')) :
    dma'.TableWf := by
  rcases dmaControllerAddRegion_cases h with rfl | ⟨hs, hnw, hfull, hov, rfl⟩
  · exact hwf
  have hreg : ∀ i, i < dma.nregions + 1 → i ≠ dma.nregions →
      Function.update dma.regions dma.nregions
        (newRegion dma dmaAddr size fd offset prot mmapAddr) i = dma.regions i ∧
        i < dma.nregions := fun i hi hne => ⟨Function.update_noteq hne _ _, by omega⟩
  have hnew : (newRegion dma dmaAddr size fd offset prot mmapAddr).base = dmaAddr.toNat ∧
      (newRegion dma dmaAddr size fd offset prot mmapAddr).len = size.toNat := ⟨rfl, rfl⟩
  refine ⟨Nat.succ_le_of_lt hfull, fun i hi => ?_, fun i hi => ?_, fun i hi j hj hne => ?_⟩
  · by_cases he : i = dma.nregions
    · subst he; simpa [hnew] using hs
    · obtain ⟨hr, hi'⟩ := hreg i hi he; simpa [hr] using hwf.nonempty i hi'
  · by_cases he : i = dma.nregions
    · subst he; simpa [hnew] using hnw
    · obtain ⟨hr, hi'⟩ := hreg i hi he; simpa [hr] using hwf.noWrap i hi'
  · by_cases hei : i = dma.nregions
    · subst hei
      obtain ⟨hr, hj'⟩ := hreg j hj (Ne.symm hne)
      have := hov j hj'
      simp only [Function.update_same, hr, hnew, Overlaps] at this ⊢
      omega
    · by_cases hej : j = dma.nregions
      · subst hej
        obtain ⟨hr, hi'⟩ := hreg i hi hei
        have := hov i hi'
        simp only [Function.update_same, hr, hnew, Overlaps] at this ⊢
        omega
      · obtain ⟨hri, hi'⟩ := hreg i hi hei
        obtain ⟨hrj, hj'⟩ := hreg j hj hej
        simpa [hri, hrj] using hwf.disjoint i hi' j hj' hne

/-- Registration keeps every live region's bitmap, and a region registered while logging gets
one of the right size. -/
theorem dmaControllerAddRegion_bitmapInv {dma dma' : DmaController} {dmaAddr size : BitVec 64}
    {fd offset : Int} {prot : BitVec 32} {mmapAddr : BitVec 64} {r : AddRegionResult}
    (hb : BitmapInv dma)
    (h : dmaControllerAddRegion dma dmaAddr size fd offset prot mmapAddr = (r, dma')) :
    BitmapInv dma' := by
  rcases dmaControllerAddRegion_cases h with rfl | ⟨-, -, -, -, rfl⟩
  · exact hb
  intro hp i hi
  by_cases he : i = dma.nregions
  · subst he
    simp only [Function.update_same, newRegion, if_pos hp]
    exact ⟨_, rfl, rfl⟩
  · simp only [Function.update_noteq he]
    exact hb hp i (by simp at hi; omega)

/-- Registration keeps the live regions in their slots. -/
theorem dmaControllerAddRegion_keepsSlots {dma dma' : DmaController} {dmaAddr size : BitVec 64}
    {fd offset : Int} {prot : BitVec 32} {mmapAddr : BitVec 64} {r : AddRegionResult}
    (h : dmaControllerAddRegion dma dmaAddr size fd offset prot mmapAddr = (r, dma')) :
    KeepsSlots dma dma' := by
  rcases dmaControllerAddRegion_cases h with rfl | ⟨-, -, -, -, rfl⟩
  · exact KeepsSlots.refl _
  exact ⟨Nat.le_succ _, fun i hi => by
    simp only [Function.update_noteq (Nat.ne_of_lt hi)]⟩

/-- The outcome of `dma_controller_remove_region`: removed, no such region, or `BUSY`, which
comes with one call of the unregister callback. -/
inductive RemoveRegionResult where
  | ok
  | notFound
  | busy
deriving DecidableEq, Repr

/-- The slots after removing live slot `idx` of `n`: the later live regions move down one. -/
def repack (regions : Nat → DmaMemoryRegion) (n idx : Nat) : Nat → DmaMemoryRegion :=
  fun k => if idx ≤ k ∧ k + 1 < n then regions (k + 1) else regions k

/-- Modelled from the spec: `dma_controller_remove_region` (§4.1). A region still mapped is
left in place; otherwise its mapping, file and bitmap are released and the table re-packed. -/
def dmaControllerRemoveRegion (dma : DmaController) (dmaAddr size : BitVec 64) :
    RemoveRegionResult × DmaController :=
  match dma.findRegion fun r => decide (r.info.iova.iovBase = dmaAddr ∧ r.info.iova.iovLen = size) with
  | none => (.notFound, dma)
  | some idx =>
      if 0 < (dma.regions idx).refcnt then (.busy, dma)
      else (.ok, { dma with
        nregions := dma.nregions - 1
        regions := repack dma.regions dma.nregions idx })

/-- A removal that changes the table drops one live slot and moves the later ones down. -/
theorem dmaControllerRemoveRegion_cases {dma dma' : DmaController} {dmaAddr size : BitVec 64}
    {r : RemoveRegionResult} (h : dmaControllerRemoveRegion dma dmaAddr size = (r, dma')) :
    (r ≠ .ok ∧ dma' = dma) ∨
      (r = .ok ∧ ∃ idx < dma.nregions, dma' = { dma with
        nregions := dma.nregions - 1
        regions := repack dma.regions dma.nregions idx }) := by
  unfold dmaControllerRemoveRegion at h
  split at h
  · cases h; exact .inl ⟨by decide, rfl⟩
  · rename_i idx hidx
    split at h
    · cases h; exact .inl ⟨by decide, rfl⟩
    · cases h; exact .inr ⟨rfl, idx, (DmaController.findRegion_eq_some.mp hidx).1, rfl⟩

/-- Each live slot after re-packing holds the region of a live slot before it, and different
slots hold different ones. -/
theorem repack_live {regions : Nat → DmaMemoryRegion} {n idx : Nat} (hidx : idx < n) {k : Nat}
    (hk : k < n - 1) :
    repack regions n idx k = regions (if idx ≤ k then k + 1 else k) ∧
      (if idx ≤ k then k + 1 else k) < n := by
  unfold repack
  split <;> split <;> first | omega | exact ⟨rfl, by omega⟩

/-- Removal keeps the table well formed. -/
theorem dmaControllerRemoveRegion_wf {dma dma' : DmaController} {dmaAddr size : BitVec 64}
    {r : RemoveRegionResult} (hwf : dma.TableWf)
    (h : dmaControllerRemoveRegion dma dmaAddr size = (r, dma')) : dma'.TableWf := by
  rcases dmaControllerRemoveRegion_cases h with ⟨-, rfl⟩ | ⟨-, idx, hidx, rfl⟩
  · exact hwf
  refine ⟨by have := hwf.bound; simp; omega, fun k hk => ?_, fun k hk => ?_,
    fun i hi j hj hne => ?_⟩
  · obtain ⟨he, hlt⟩ := @repack_live dma.regions _ _ hidx _ hk
    simpa [he] using hwf.nonempty _ hlt
  · obtain ⟨he, hlt⟩ := @repack_live dma.regions _ _ hidx _ hk
    simpa [he] using hwf.noWrap _ hlt
  · obtain ⟨hei, hlti⟩ := @repack_live dma.regions _ _ hidx _ hi
    obtain ⟨hej, hltj⟩ := @repack_live dma.regions _ _ hidx _ hj
    have hne' : (if idx ≤ i then i + 1 else i) ≠ (if idx ≤ j then j + 1 else j) := by
      split <;> split <;> omega
    simpa [hei, hej] using hwf.disjoint _ hlti _ hltj hne'

/-- Removal keeps every remaining live region's bitmap. -/
theorem dmaControllerRemoveRegion_bitmapInv {dma dma' : DmaController} {dmaAddr size : BitVec 64}
    {r : RemoveRegionResult} (hb : BitmapInv dma)
    (h : dmaControllerRemoveRegion dma dmaAddr size = (r, dma')) : BitmapInv dma' := by
  rcases dmaControllerRemoveRegion_cases h with ⟨-, rfl⟩ | ⟨-, idx, hidx, rfl⟩
  · exact hb
  intro hp k hk
  obtain ⟨he, hlt⟩ := @repack_live dma.regions _ _ hidx _ hk
  simpa [he] using hb hp _ hlt

/-- The outcome of starting or stopping dirty logging. -/
inductive LoggingResult where
  | ok
  | alreadyActive
  | badArg
deriving DecidableEq, Repr

/-- Modelled from the spec: `dma_controller_dirty_page_logging_start` (§4.5). The page size
must be a power of two and logging off; every live region gets a zeroed bitmap. -/
def dmaControllerDirtyPageLoggingStart (dma : DmaController) (pgsize : BitVec 64) :
    LoggingResult × DmaController :=
  if 0 < dma.dirtyPgsize then (.alreadyActive, dma)
  else if pgsize = 0 ∨ pgsize &&& (pgsize - 1) ≠ 0 then (.badArg, dma)
  else (.ok, { dma with
    dirtyPgsize := pgsize
    regions := fun k => if k < dma.nregions then
      { dma.regions k with
        dirtyBitmap := some (DirtyBitmap.zero (pageCount (dma.regions k).len pgsize.toNat)) }
      else dma.regions k })

/-- Modelled from the spec: `dma_controller_dirty_page_logging_stop` (§4.5). -/
def dmaControllerDirtyPageLoggingStop (dma : DmaController) : DmaController :=
  { dma with
    dirtyPgsize := 0
    regions := fun k => if k < dma.nregions then { dma.regions k with dirtyBitmap := none }
      else dma.regions k }

/-- Starting logging changes no region's iova and neither the count nor the capacity. -/
theorem dmaControllerDirtyPageLoggingStart_keeps (dma : DmaController) (pgsize : BitVec 64) :
    (dmaControllerDirtyPageLoggingStart dma pgsize).2.nregions = dma.nregions ∧
      (dmaControllerDirtyPageLoggingStart dma pgsize).2.maxRegions = dma.maxRegions ∧
      ∀ k, ((dmaControllerDirtyPageLoggingStart dma pgsize).2.regions k).info.iova =
        (dma.regions k).info.iova := by
  unfold dmaControllerDirtyPageLoggingStart
  split
  · exact ⟨rfl, rfl, fun _ => rfl⟩
  · split
    · exact ⟨rfl, rfl, fun _ => rfl⟩
    · exact ⟨rfl, rfl, fun k => by simp only; split <;> rfl⟩

theorem dmaControllerDirtyPageLoggingStart_wf {dma : DmaController} (pgsize : BitVec 64)
    (hwf : dma.TableWf) : (dmaControllerDirtyPageLoggingStart dma pgsize).2.TableWf :=
  have h := dmaControllerDirtyPageLoggingStart_keeps dma pgsize
  hwf.of_iova h.1 h.2.1 fun k _ => h.2.2 k

theorem dmaControllerDirtyPageLoggingStop_iova (dma : DmaController) (k : Nat) :
    ((dmaControllerDirtyPageLoggingStop dma).regions k).info.iova = (dma.regions k).info.iova := by
  simp only [dmaControllerDirtyPageLoggingStop]; split <;> rfl

theorem dmaControllerDirtyPageLoggingStop_wf {dma : DmaController} (hwf : dma.TableWf) :
    (dmaControllerDirtyPageLoggingStop dma).TableWf :=
  hwf.of_iova rfl rfl fun k _ => dmaControllerDirtyPageLoggingStop_iova dma k

/-- Starting logging gives every live region a bitmap of the new page size. -/
theorem dmaControllerDirtyPageLoggingStart_bitmapInv {dma : DmaController} (pgsize : BitVec 64)
    (hb : BitmapInv dma) : BitmapInv (dmaControllerDirtyPageLoggingStart dma pgsize).2 := by
  unfold dmaControllerDirtyPageLoggingStart
  split
  · exact hb
  · split
    · exact hb
    · intro _ k hk
      simp only at hk ⊢
      simp only [hk, if_true]
      exact ⟨_, rfl, rfl⟩

end VfioUser.Dma
