import VfioUser.Dma.AddrToSg

/-!
# Mapping and unmapping scatter-gather lists

`dma_map_sg` finds each entry's region by its stored index and raises that region's
refcount; `dma_unmap_sg` finds the region by the entry's base and lowers it. Both change only
refcounts. Map stops at the first entry it cannot map and keeps the increments made before
it, so unmapping balances mapping over the entries map processed. The unmap search stops at
`nregions` when no base matches, and the not-found test `r > regions + nregions` lets that slot
be decremented.
-/

namespace VfioUser.Dma

/-- `dma_map_sg`: the return value, the iovecs written to `iov[0..)` and the controller with
the refcounts raised. -/
def dmaMapSg (dma : DmaController) : List DmaSg → Int × List Iovec × DmaController
  | [] => (0, [], dma)
  | sg :: sgs =>
      if dma.nregions ≤ sg.region then (-einval, [], dma)
      else if (dma.regions sg.region).info.vaddr = 0 then (-efault, [], dma)
      else
        let r := dmaMapSg (dma.addRefcnt sg.region 1) sgs
        (r.1, ⟨(dma.regions sg.region).info.vaddr + sg.offset, sg.length⟩ :: r.2.1, r.2.2)

/-- The search loop of `dma_unmap_sg`: from slot `r`, with `n` live slots left, step past
regions whose base is not `a`. -/
def unmapSearch (dma : DmaController) (a : BitVec 64) : Nat → Nat → Nat
  | 0, r => r
  | n + 1, r => if (dma.regions r).info.iova.iovBase ≠ a then unmapSearch dma a n (r + 1) else r

/-- `dma_unmap_sg`. -/
def dmaUnmapSg (dma : DmaController) : List DmaSg → DmaController
  | [] => dma
  | sg :: sgs =>
      let r := unmapSearch dma sg.dmaAddr dma.nregions 0
      if dma.nregions < r then dmaUnmapSg dma sgs
      else dmaUnmapSg (dma.addRefcnt r (-1)) sgs

/-- The search stops at the first live slot with base `a`, or at the end of the live slots. -/
theorem unmapSearch_eq (dma : DmaController) (a : BitVec 64) (n r : Nat) :
    unmapSearch dma a n r =
      (dma.findFrom (fun x => decide (x.info.iova.iovBase = a)) n r).getD (r + n) := by
  induction n generalizing r with
  | zero => rfl
  | succ n ih =>
      by_cases h : (dma.regions r).info.iova.iovBase = a
      · simp [unmapSearch, DmaController.findFrom, h]
      · simp [unmapSearch, DmaController.findFrom, h, ih, Nat.add_assoc, Nat.add_comm 1 n]

theorem unmapSearch_shiftRefcnts (dma : DmaController) (c : Nat → Int) (a : BitVec 64)
    (n r : Nat) : unmapSearch (dma.shiftRefcnts c) a n r = unmapSearch dma a n r := by
  induction n generalizing r with
  | zero => rfl
  | succ n ih => simp [unmapSearch, ih]

theorem unmapSearch_le (dma : DmaController) (a : BitVec 64) (n r : Nat) :
    unmapSearch dma a n r ≤ r + n := by
  induction n generalizing r with
  | zero => exact Nat.le_refl _
  | succ n ih =>
      simp only [unmapSearch]
      split
      · have := ih (r + 1); omega
      · omega

/-- In a well-formed table the search finds a valid entry's own region. -/
theorem unmapSearch_of_valid {dma : DmaController} (hwf : dma.TableWf) {sg : DmaSg}
    (hv : dma.SgValid sg) : unmapSearch dma sg.dmaAddr dma.nregions 0 = sg.region := by
  have hf : dma.findRegion (fun x => decide (x.info.iova.iovBase = sg.dmaAddr)) = some sg.region := by
    refine DmaController.findRegion_eq_some.mpr ⟨hv.1, by simp [hv.2], fun j hj => ?_⟩
    simp only [decide_eq_false_iff_not]
    intro hb
    have := hwf.base_unique (by have := hv.1; omega) hv.1 (hb.trans hv.2)
    omega
  rw [unmapSearch_eq]
  simp only [DmaController.findRegion] at hf
  simp [hf]

/-- `dma_unmap_sg` only lowers refcounts: each entry lowers the slot its search stops at. -/
theorem dmaUnmapSg_eq (dma : DmaController) (sgs : List DmaSg) :
    dmaUnmapSg dma sgs = dma.shiftRefcnts fun k =>
      -(sgs.countP fun sg => unmapSearch dma sg.dmaAddr dma.nregions 0 = k : Int) := by
  induction sgs generalizing dma with
  | nil => simp [dmaUnmapSg, DmaController.shiftRefcnts_zero]
  | cons sg sgs ih =>
      have hle : ¬ dma.nregions < unmapSearch dma sg.dmaAddr dma.nregions 0 := by
        have := unmapSearch_le dma sg.dmaAddr dma.nregions 0; omega
      simp only [dmaUnmapSg, hle, if_false, ih,
        DmaController.addRefcnt_eq_shiftRefcnts, DmaController.shiftRefcnts_shiftRefcnts,
        DmaController.shiftRefcnts_nregions, unmapSearch_shiftRefcnts]
      congr 1
      funext k
      rw [List.countP_cons]
      by_cases hk : unmapSearch dma sg.dmaAddr dma.nregions 0 = k
      · subst hk; simp only [eq_self_iff_true, if_true, decide_True]; omega
      · simp [hk, Ne.symm hk]

/-- On a live slot of a well-formed table, the search stops at `k` exactly for `k`'s base. -/
theorem unmapSearch_eq_live {dma : DmaController} (hwf : dma.TableWf) {k : Nat}
    (hk : k < dma.nregions) (a : BitVec 64) :
    unmapSearch dma a dma.nregions 0 = k ↔ a = (dma.regions k).info.iova.iovBase := by
  constructor
  · intro h
    rw [unmapSearch_eq] at h
    cases hf : dma.findFrom (fun x => decide (x.info.iova.iovBase = a)) dma.nregions 0 with
    | none => simp [hf] at h; omega
    | some j =>
        simp only [hf, Option.getD_some] at h
        subst h
        have := (DmaController.findFrom_eq_some.mp hf).2.2.1
        simpa [eq_comm] using this
  · rintro rfl
    exact unmapSearch_of_valid hwf
      (show dma.SgValid ⟨(dma.regions k).info.iova.iovBase, k, 0, 0, true⟩ from ⟨hk, rfl⟩)

/-- On a well-formed table `dma_unmap_sg` lowers each live region's refcount by the number of
entries carrying its base, and changes nothing else in it. -/
theorem dmaUnmapSg_live {dma : DmaController} (hwf : dma.TableWf) (sgs : List DmaSg) {k : Nat}
    (hk : k < dma.nregions) :
    (dmaUnmapSg dma sgs).regions k = { dma.regions k with
      refcnt := (dma.regions k).refcnt -
        (sgs.countP fun sg => sg.dmaAddr = (dma.regions k).info.iova.iovBase : Int) } := by
  have hc : (sgs.countP fun sg => unmapSearch dma sg.dmaAddr dma.nregions 0 = k) =
      sgs.countP fun sg => sg.dmaAddr = (dma.regions k).info.iova.iovBase :=
    List.countP_congr fun sg _ => by simpa using unmapSearch_eq_live hwf hk sg.dmaAddr
  rw [dmaUnmapSg_eq, DmaController.shiftRefcnts_regions, Int.sub_eq_add_neg, hc]

/-- Unmapping an entry of `oneRegionDma`'s region and one whose base matches no region. -/
theorem dmaUnmapSg_live_one_region :
    oneRegionDma.TableWf ∧ 0 < oneRegionDma.nregions ∧
      (dmaUnmapSg oneRegionDma [⟨0x1000, 0, 0x100, 0x800, true⟩, ⟨0x5000, 0, 0x10, 0, true⟩]).regions 0 =
        { oneRegionDma.regions 0 with
          refcnt := (oneRegionDma.regions 0).refcnt -
            (([⟨0x1000, 0, 0x100, 0x800, true⟩, ⟨0x5000, 0, 0x10, 0, true⟩] : List DmaSg).countP
              fun sg => sg.dmaAddr = (oneRegionDma.regions 0).info.iova.iovBase : Int) } :=
  ⟨oneRegionDma_wf, by decide, dmaUnmapSg_live oneRegionDma_wf _ (by decide)⟩

/-- An entry whose base matches no live region lowers the refcount of slot 1, the slot after
the only live region. -/
theorem dmaUnmapSg_unmatched_touches_next_slot :
    ((dmaUnmapSg oneRegionDma [⟨0x5000, 0, 0x100, 0, true⟩]).regions 1).refcnt = -1 ∧
      (oneRegionDma.regions 1).refcnt = 0 ∧ oneRegionDma.nregions = 1 :=
  ⟨rfl, rfl, rfl⟩

/-- `dma_map_sg` raises the refcount of each entry it processed, the first `iovs.length`, by
one on the region the entry names. -/
theorem dmaMapSg_eq (dma : DmaController) (sgs : List DmaSg) :
    (dmaMapSg dma sgs).2.2 = dma.shiftRefcnts fun k =>
      ((sgs.take (dmaMapSg dma sgs).2.1.length).countP fun sg => sg.region = k : Int) := by
  induction sgs generalizing dma with
  | nil => simp [dmaMapSg, DmaController.shiftRefcnts_zero]
  | cons sg sgs ih =>
      simp only [dmaMapSg]
      split
      · simp [DmaController.shiftRefcnts_zero]
      · split
        · simp [DmaController.shiftRefcnts_zero]
        · simp only [List.length_cons, List.take_succ_cons, ih,
            DmaController.addRefcnt_eq_shiftRefcnts, DmaController.shiftRefcnts_shiftRefcnts]
          congr 1
          funext k
          rw [List.countP_cons]
          by_cases hk : sg.region = k
          · subst hk; simp only [eq_self_iff_true, if_true, decide_True]; omega
          · simp [hk, Ne.symm hk]

/-- A zero return means every entry was processed. -/
theorem dmaMapSg_ret_zero {dma : DmaController} {sgs : List DmaSg}
    (h : (dmaMapSg dma sgs).1 = 0) : (dmaMapSg dma sgs).2.1.length = sgs.length := by
  induction sgs generalizing dma with
  | nil => rfl
  | cons sg sgs ih =>
      simp only [dmaMapSg] at h ⊢
      by_cases h1 : dma.nregions ≤ sg.region
      · simp [h1, einval] at h
      · by_cases h2 : (dma.regions sg.region).info.vaddr = 0
        · simp [h1, h2, efault] at h
        · simp only [h1, h2, if_false] at h ⊢
          simp [ih h]

/-- Unmapping the entries `dma_map_sg` processed undoes it, for entries that name live regions
by index and base in a well-formed table. -/
theorem dmaMapSg_unmap_processed {dma : DmaController} (hwf : dma.TableWf) {sgs : List DmaSg}
    (hv : ∀ sg ∈ sgs, dma.SgValid sg) :
    dmaUnmapSg (dmaMapSg dma sgs).2.2 (sgs.take (dmaMapSg dma sgs).2.1.length) = dma := by
  rw [dmaUnmapSg_eq, dmaMapSg_eq, DmaController.shiftRefcnts_shiftRefcnts]
  simp only [unmapSearch_shiftRefcnts, DmaController.shiftRefcnts_nregions]
  conv => rhs; rw [← DmaController.shiftRefcnts_zero dma]
  congr 1
  funext k
  have hc : ((sgs.take (dmaMapSg dma sgs).2.1.length).countP fun sg =>
      unmapSearch dma sg.dmaAddr dma.nregions 0 = k) =
      (sgs.take (dmaMapSg dma sgs).2.1.length).countP fun sg => sg.region = k :=
    List.countP_congr fun sg hsg => by
      rw [unmapSearch_of_valid hwf (hv sg (List.mem_of_mem_take hsg))]
  omega

/-- `sg` is an entry that some `dma_addr_to_sg` call on `dma` wrote. -/
def Translated (dma : DmaController) (sg : DmaSg) : Prop :=
  ∃ regionHint dmaAddr len maxSg prot res hint',
    dmaAddrToSg regionHint dma dmaAddr len maxSg prot = .ok (res, hint') ∧ sg ∈ res.sgs

theorem Translated.valid {dma : DmaController} {sg : DmaSg} (h : Translated dma sg) :
    dma.SgValid sg := by
  obtain ⟨_, _, _, _, _, _, _, hr, hsg⟩ := h
  exact (dmaAddrToSg_eq_ok hr).2 sg hsg

/-- For translated entries of a well-formed table, unmapping the entries `dma_map_sg`
processed restores the controller: all of them when it returns 0, the ones before the entry
it failed on when it returns `-EINVAL` or `-EFAULT`. -/
theorem dmaMapSg_unmap_restores {dma : DmaController} (hwf : dma.TableWf) {sgs : List DmaSg}
    (hsgs : ∀ sg ∈ sgs, Translated dma sg) :
    dmaUnmapSg (dmaMapSg dma sgs).2.2 (sgs.take (dmaMapSg dma sgs).2.1.length) = dma ∧
      ((dmaMapSg dma sgs).1 = 0 → dmaUnmapSg (dmaMapSg dma sgs).2.2 sgs = dma) := by
  have h := dmaMapSg_unmap_processed hwf fun sg hsg => (hsgs sg hsg).valid
  exact ⟨h, fun h0 => by rwa [dmaMapSg_ret_zero h0, List.take_length] at h⟩

/-- A translated entry of `oneRegionDma`, mapped and unmapped. -/
theorem dmaMapSg_unmap_restores_one_region :
    oneRegionDma.TableWf ∧
      (∀ sg ∈ [initSgEntry oneRegionDma 0x1800 0x100 0], Translated oneRegionDma sg) ∧
      dmaUnmapSg (dmaMapSg oneRegionDma [initSgEntry oneRegionDma 0x1800 0x100 0]).2.2
        [initSgEntry oneRegionDma 0x1800 0x100 0] = oneRegionDma := by
  have ht : ∀ sg ∈ [initSgEntry oneRegionDma 0x1800 0x100 0], Translated oneRegionDma sg := by
    simp only [List.mem_singleton, forall_eq]
    exact ⟨0, 0x1800, 0x100, 1, protRead, _, _, rfl, List.mem_singleton.mpr rfl⟩
  exact ⟨oneRegionDma_wf, ht, (dmaMapSg_unmap_restores oneRegionDma_wf ht).2 rfl⟩

/-- `oneRegionDma` with its region registered but not host-mapped. -/
def unmappedRegionDma : DmaController :=
  { oneRegionDma with
    regions := fun _ => { oneRegionDma.regions 0 with
      info := { (oneRegionDma.regions 0).info with vaddr := 0 } } }

/-- An entry translated on an unmappable region: `dma_map_sg` fails with `-EFAULT` before any
increment, and `dma_unmap_sg` on the same list takes the refcount from 0 to -1. -/
theorem dmaMapSg_failure_unbalances :
    ∃ sg, dmaAddrToSg 0 unmappedRegionDma 0x1000 0x100 1 protRead =
        .ok (⟨1, none, [sg], unmappedRegionDma⟩, 0) ∧
      dmaMapSg unmappedRegionDma [sg] = (-efault, [], unmappedRegionDma) ∧
      (unmappedRegionDma.regions 0).refcnt = 0 ∧
      ((dmaUnmapSg unmappedRegionDma [sg]).regions 0).refcnt = -1 :=
  ⟨_, rfl, rfl, rfl, rfl⟩

end VfioUser.Dma
