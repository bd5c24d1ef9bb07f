import VfioUser.Dma.Split

/-!
# Address translation

`dma_addr_to_sg` tries the region named by the thread-local `region_hint` first and falls
back to `_dma_addr_sg_split`. The fast-path guard adds `dma_addr + len` in 64 bits, and the
`size_t` length reaches `dma_init_sg` and `_dma_addr_sg_split` as a `uint32_t`. For spans that
neither wrap nor reach 4 GiB the fast path computes what the slow path computes; past that, the
hint changes the answer.
-/

namespace VfioUser.Dma

/-- The fast-path test of `dma_addr_to_sg` on the hinted slot. -/
def FastPathGuard (regionHint : Nat) (dma : DmaController) (dmaAddr len : BitVec 64)
    (maxSg : Int) : Prop :=
  0 < maxSg ∧ 0 < len ∧ (dma.regions regionHint).info.iova.iovBase ≤ dmaAddr ∧
    dmaAddr + len ≤ (dma.regions regionHint).info.iova.iovBase +
      (dma.regions regionHint).info.iova.iovLen ∧ regionHint < dma.nregions

instance (regionHint : Nat) (dma : DmaController) (dmaAddr len : BitVec 64) (maxSg : Int) :
    Decidable (FastPathGuard regionHint dma dmaAddr len maxSg) :=
  inferInstanceAs (Decidable (_ ∧ _))

/-- `dma_addr_to_sg`, with the thread-local `region_hint` passed in and its new value returned. -/
def dmaAddrToSg (regionHint : Nat) (dma : DmaController) (dmaAddr len : BitVec 64) (maxSg : Int)
    (prot : BitVec 32) : Except Fault (SgResult × Nat) :=
  if FastPathGuard regionHint dma dmaAddr len maxSg then
    (dmaInitSg dma dmaAddr (len.setWidth 32) prot regionHint).map fun
      | none => (⟨-1, some eacces, [], dma⟩, regionHint)
      | some (sg, dma') => (⟨1, none, [sg], dma'⟩, regionHint)
  else
    (dmaAddrSgSplit dma dmaAddr (len.setWidth 32) maxSg prot).map fun res =>
      (res, match res.sgs with
        | sg :: _ => if 0 < res.ret then sg.region else regionHint
        | [] => regionHint)

/-- One read-write region `[0x1000, 0x2000)` in a two-slot table, mapped at `0x7f0000000000`,
with logging off. -/
def oneRegionDma : DmaController where
  maxRegions := 2
  nregions := 1
  dirtyPgsize := 0
  regions := fun _ =>
    { info := { iova := ⟨0x1000, 0x1000⟩, vaddr := 0x7f0000000000, prot := protRead ||| protWrite },
      fd := 3, offset := 0, refcnt := 0, dirtyBitmap := none }

theorem oneRegionDma_wf : oneRegionDma.TableWf where
  bound := by decide
  nonempty _ _ := show 0 < 0x1000 by decide
  noWrap _ _ := show 0x1000 + 0x1000 ≤ 2 ^ 64 by decide
  disjoint i hi j hj hne := absurd (by simp [oneRegionDma] at hi hj; omega) hne

/-- A fast-path return of 1 is the `dma_init_sg` entry of the live hinted region: it starts at
`dmaAddr` and carries the length cut to 32 bits, and a write passed the region's permission. -/
theorem dmaAddrToSg_fast_entry {regionHint : Nat} {dma : DmaController} {dmaAddr len : BitVec 64}
    {maxSg : Int} {prot : BitVec 32} {res : SgResult} {hint' : Nat}
    (hg : FastPathGuard regionHint dma dmaAddr len maxSg)
    (h : dmaAddrToSg regionHint dma dmaAddr len maxSg prot = .ok (res, hint')) (h1 : res.ret = 1) :
    ∃ sg, res.sgs = [sg] ∧ sg = initSgEntry dma dmaAddr (len.setWidth 32) regionHint ∧
      regionHint < dma.nregions ∧ sg.dmaAddr.toNat + sg.offset.toNat = dmaAddr.toNat ∧
      sg.length.toNat = len.toNat % 2 ^ 32 ∧
      (prot &&& protWrite ≠ 0 → (dma.regions regionHint).info.prot &&& protWrite ≠ 0) := by
  rw [dmaAddrToSg, if_pos hg] at h
  obtain ⟨r, hr, hres⟩ := except_map_eq_ok.mp h
  rcases r with _ | ⟨sg, dma'⟩
  · cases hres; cases h1
  · cases hres
    obtain ⟨rfl, hw, -⟩ := dmaInitSg_eq_some hr
    have hle := BitVec.le_def.mp hg.2.2.1
    refine ⟨_, rfl, rfl, hg.2.2.2.2, ?_, by simp [initSgEntry]; omega, hw⟩
    simp only [initSgEntry, BitVec.toNat_sub]
    omega

/-- For a span that does not wrap the 64-bit space and is shorter than 4 GiB, the fast-path
entry lies inside the hinted region and has exactly the span's length. -/
theorem dmaAddrToSg_fast_inside {regionHint : Nat} {dma : DmaController}
    {dmaAddr len : BitVec 64} {maxSg : Int} {prot : BitVec 32} {res : SgResult} {hint' : Nat}
    (hg : FastPathGuard regionHint dma dmaAddr len maxSg)
    (h : dmaAddrToSg regionHint dma dmaAddr len maxSg prot = .ok (res, hint')) (h1 : res.ret = 1)
    (hnw : dmaAddr.toNat + len.toNat < 2 ^ 64) (hlen : len.toNat < 2 ^ 32) :
    ∃ sg, res.sgs = [sg] ∧ sg.length = len ∧
      sg.offset.toNat + sg.length.toNat ≤ (dma.regions regionHint).len := by
  obtain ⟨sg, hs, rfl, -, hoff, hl, -⟩ := dmaAddrToSg_fast_entry hg h h1
  have hle := BitVec.le_def.mp hg.2.2.1
  have hend := BitVec.le_def.mp hg.2.2.2.1
  have hpos := BitVec.lt_def.mp hg.2.1
  refine ⟨_, hs, BitVec.eq_of_toNat_eq (by rw [hl]; omega), ?_⟩
  simp only [initSgEntry, DmaMemoryRegion.len, BitVec.toNat_sub, BitVec.toNat_setWidth] at *
  simp only [BitVec.toNat_add] at hend
  rw [Nat.mod_eq_of_lt hnw] at hend
  have := (dma.regions regionHint).info.iova.iovBase.isLt
  have := (dma.regions regionHint).info.iova.iovLen.isLt
  by_cases hw : (dma.regions regionHint).info.iova.iovBase.toNat +
      (dma.regions regionHint).info.iova.iovLen.toNat < 2 ^ 64
  · rw [Nat.mod_eq_of_lt hw] at hend; omega
  · rw [Nat.mod_eq_sub_mod (by omega), Nat.mod_eq_of_lt (by omega)] at hend; omega

/-- A span of `0x100` bytes from `0x1800` in `oneRegionDma`'s region, on the fast path. -/
theorem dmaAddrToSg_fast_inside_one_region :
    FastPathGuard 0 oneRegionDma 0x1800 0x100 1 ∧
      dmaAddrToSg 0 oneRegionDma 0x1800 0x100 1 protRead =
        .ok (⟨1, none, [⟨0x1000, 0, 0x100, 0x800, true⟩], oneRegionDma⟩, 0) ∧
      (0x1800 : BitVec 64).toNat + (0x100 : BitVec 64).toNat < 2 ^ 64 ∧
      (0x100 : BitVec 64).toNat < 2 ^ 32 ∧
      ∃ sg, [(⟨0x1000, 0, 0x100, 0x800, true⟩ : DmaSg)] = [sg] ∧ sg.length = 0x100 ∧
        sg.offset.toNat + sg.length.toNat ≤ (oneRegionDma.regions 0).len := by
  have hg : FastPathGuard 0 oneRegionDma 0x1800 0x100 1 := by decide
  have h : dmaAddrToSg 0 oneRegionDma 0x1800 0x100 1 protRead =
      .ok (⟨1, none, [⟨0x1000, 0, 0x100, 0x800, true⟩], oneRegionDma⟩, 0) := rfl
  exact ⟨hg, h, by decide, by decide, dmaAddrToSg_fast_inside hg h rfl (by decide) (by decide)⟩

/-- A span from `0x1800` whose end wraps past `2 ^ 64` passes the fast-path guard: the entry
runs `0xfffff000` bytes from offset `0x800` of a `0x1000`-byte region, and its length is not
the span's. -/
theorem dmaAddrToSg_fast_path_wraps :
    ∃ sg, dmaAddrToSg 0 oneRegionDma 0x1800 0xfffffffffffff000 1 protRead =
        .ok (⟨1, none, [sg], oneRegionDma⟩, 0) ∧
      sg.region = 0 ∧ sg.dmaAddr = 0x1000 ∧ sg.offset = 0x800 ∧ sg.length = 0xfffff000 ∧
      sg.length ≠ 0xfffffffffffff000 ∧
      (oneRegionDma.regions 0).len < sg.offset.toNat + sg.length.toNat :=
  ⟨_, rfl, rfl, rfl, rfl, rfl, by decide, by decide⟩

/-- A translation changes only dirty bits, and every entry it writes names a live region and
carries that region's base. -/
theorem dmaAddrToSg_eq_ok {regionHint : Nat} {dma : DmaController} {dmaAddr len : BitVec 64}
    {maxSg : Int} {prot : BitVec 32} {res : SgResult} {hint' : Nat}
    (h : dmaAddrToSg regionHint dma dmaAddr len maxSg prot = .ok (res, hint')) :
    DirtyBitsOnly dma res.dma ∧ ∀ sg ∈ res.sgs, dma.SgValid sg := by
  unfold dmaAddrToSg at h
  split at h
  · rename_i hg
    obtain ⟨r, hr, hres⟩ := except_map_eq_ok.mp h
    rcases r with _ | ⟨sg, dma'⟩
    · cases hres; exact ⟨DirtyBitsOnly.refl _, by simp⟩
    · cases hres
      obtain ⟨rfl, -, hsame⟩ := dmaInitSg_eq_some hr
      exact ⟨hsame, by simpa [initSgEntry] using ⟨hg.2.2.2.2, rfl⟩⟩
  · obtain ⟨r, hr, hres⟩ := except_map_eq_ok.mp h
    cases hres
    exact dmaAddrSgSplit_eq_ok hr

/-- A translation aborts only when it marks a live region that has no bitmap. -/
theorem dmaAddrToSg_eq_assertion {regionHint : Nat} {dma : DmaController}
    {dmaAddr len : BitVec 64} {maxSg : Int} {prot : BitVec 32}
    (h : dmaAddrToSg regionHint dma dmaAddr len maxSg prot = .error .assertion) :
    ∃ i < dma.nregions, dmaShouldMarkDirty dma prot ∧ (dma.regions i).dirtyBitmap = none := by
  unfold dmaAddrToSg at h
  split at h
  · rename_i hg
    cases hr : dmaInitSg dma dmaAddr (len.setWidth 32) prot regionHint with
    | error f =>
        rw [hr] at h; cases h
        obtain ⟨hd, hm⟩ := dmaInitSg_eq_error hr
        exact ⟨regionHint, hg.2.2.2.2, hd, dmaMarkDirty_eq_assertion.mp hm⟩
    | ok r => rw [hr] at h; cases h
  · cases hr : dmaAddrSgSplit dma dmaAddr (len.setWidth 32) maxSg prot with
    | error f => rw [hr] at h; cases h; exact dmaAddrSgSplit_eq_assertion hr
    | ok r => rw [hr] at h; cases h

/-- A guarded span that neither wraps nor reaches 4 GiB lies inside the hinted region. -/
theorem FastPathGuard.inside {regionHint : Nat} {dma : DmaController} {dmaAddr len : BitVec 64}
    {maxSg : Int} (hwf : dma.TableWf) (hg : FastPathGuard regionHint dma dmaAddr len maxSg)
    (hnw : dmaAddr.toNat + len.toNat < 2 ^ 64) :
    (dma.regions regionHint).base ≤ dmaAddr.toNat ∧
      dmaAddr.toNat + len.toNat ≤ dma.regionEnd regionHint := by
  obtain ⟨-, hpos, hle, hend, hi⟩ := hg
  rw [BitVec.le_def] at hle hend
  rw [BitVec.lt_def] at hpos
  have hw := hwf.noWrap regionHint hi
  simp only [BitVec.toNat_add, Nat.mod_eq_of_lt hnw, DmaController.regionEnd,
    DmaMemoryRegion.base, DmaMemoryRegion.len] at hend hw ⊢
  refine ⟨hle, ?_⟩
  rcases Nat.lt_or_eq_of_le hw with hlt | heq
  · rwa [Nat.mod_eq_of_lt hlt] at hend
  · simp only [heq, Nat.mod_self] at hend; simp at hpos; omega

/-- Under the table invariant, every entry written by a translation of a span that does not wrap
the 64-bit space lies inside the region it names. -/
theorem dmaAddrToSg_inside {regionHint : Nat} {dma : DmaController} {dmaAddr len : BitVec 64}
    {maxSg : Int} {prot : BitVec 32} {res : SgResult} {hint' : Nat} (hwf : dma.TableWf)
    (hnw : dmaAddr.toNat + len.toNat < 2 ^ 64)
    (h : dmaAddrToSg regionHint dma dmaAddr len maxSg prot = .ok (res, hint')) :
    ∀ sg ∈ res.sgs, sg.offset.toNat + sg.length.toNat ≤ (dma.regions sg.region).len := by
  unfold dmaAddrToSg at h
  split at h
  · rename_i hg
    obtain ⟨r, hr, hres⟩ := except_map_eq_ok.mp h
    rcases r with _ | ⟨sg, dma'⟩
    · cases hres; simp
    · cases hres
      obtain ⟨rfl, -, -⟩ := dmaInitSg_eq_some hr
      have ⟨hb, he⟩ := hg.inside hwf hnw
      simp only [List.mem_singleton, forall_eq, initSgEntry, BitVec.toNat_sub,
        BitVec.toNat_setWidth]
      simp only [DmaController.regionEnd, DmaMemoryRegion.base, DmaMemoryRegion.len] at hb he ⊢
      have := dmaAddr.isLt
      omega
  · obtain ⟨r, hr, hres⟩ := except_map_eq_ok.mp h
    cases hres
    exact dmaAddrSgSplit_inside hwf hr

/-- Under the table invariant, for a span that neither wraps nor reaches 4 GiB, a guarded fast
path returns what the slow path returns. -/
theorem fastPath_eq_split {regionHint : Nat} {dma : DmaController} {dmaAddr len : BitVec 64}
    {maxSg : Int} {prot : BitVec 32} (hwf : dma.TableWf)
    (hg : FastPathGuard regionHint dma dmaAddr len maxSg)
    (hnw : dmaAddr.toNat + len.toNat < 2 ^ 64) (hlen : len.toNat < 2 ^ 32) :
    (dmaAddrToSg regionHint dma dmaAddr len maxSg prot).map Prod.fst =
      dmaAddrSgSplit dma dmaAddr (len.setWidth 32) maxSg prot := by
  have ⟨hb, he⟩ := hg.inside hwf hnw
  have hpos : 0 < len.toNat := BitVec.lt_def.mp hg.2.1
  have hi := hg.2.2.2.2
  have hl32 : (len.setWidth 32).toNat = len.toNat := by simp; omega
  have hfind : dma.findRegion (fun r => decide (r.Holds dmaAddr.toNat)) = some regionHint := by
    refine DmaController.findRegion_eq_some.mpr ⟨hi, ?_, fun j hj => ?_⟩
    · simp only [decide_eq_true_eq]; exact ⟨hb, by simp [DmaController.regionEnd] at he; omega⟩
    · simp only [decide_eq_false_iff_not]
      intro hj'
      have := hwf.holds_unique (by omega) hi hj'
        ⟨hb, by simp [DmaController.regionEnd] at he; omega⟩
      omega
  obtain ⟨k, hk⟩ : ∃ k, dma.nregions = k + 1 := ⟨dma.nregions - 1, by omega⟩
  have hwalk : sgWalk dma dma.nregions regionHint dmaAddr.toNat len.toNat =
      some [⟨regionHint, dmaAddr.toNat, len.toNat⟩] := by
    rw [hk, sgWalk, if_neg (by omega), Nat.min_eq_right (by omega)]
  have hne : len.setWidth 32 ≠ 0 := fun h0 => by
    have := congrArg BitVec.toNat h0; simp only [hl32] at this; simp at this; omega
  rw [dmaAddrToSg, if_pos hg]
  simp only [dmaAddrSgSplit, hfind, hne, if_false, hl32, hwalk, List.length_singleton]
  rw [if_neg (by have := hg.1; omega)]
  simp only [emitSg, BitVec.ofNat_toNat, BitVec.setWidth_eq]
  cases dmaInitSg dma dmaAddr (len.setWidth 32) prot regionHint with
  | error f => rfl
  | ok r => rcases r with _ | ⟨sg, dma'⟩ <;> rfl

/-- Under the table invariant, for a span that neither wraps nor reaches 4 GiB, the value of
the hint does not change a translation's result. -/
theorem dmaAddrToSg_hint_independent {dma : DmaController} {dmaAddr len : BitVec 64}
    (hwf : dma.TableWf) (hnw : dmaAddr.toNat + len.toNat < 2 ^ 64) (hlen : len.toNat < 2 ^ 32)
    (h₁ h₂ : Nat) (maxSg : Int) (prot : BitVec 32) :
    (dmaAddrToSg h₁ dma dmaAddr len maxSg prot).map Prod.fst =
      (dmaAddrToSg h₂ dma dmaAddr len maxSg prot).map Prod.fst := by
  have hslow (h : Nat) : (dmaAddrToSg h dma dmaAddr len maxSg prot).map Prod.fst =
      dmaAddrSgSplit dma dmaAddr (len.setWidth 32) maxSg prot := by
    by_cases hg : FastPathGuard h dma dmaAddr len maxSg
    · exact fastPath_eq_split hwf hg hnw hlen
    · rw [dmaAddrToSg, if_neg hg]
      cases dmaAddrSgSplit dma dmaAddr (len.setWidth 32) maxSg prot <;> rfl
  rw [hslow, hslow]

/-- A span inside `oneRegionDma`'s region gives the same result under hint 0, which takes the
fast path, and hint 1, a stale slot that sends it down the slow path. -/
theorem dmaAddrToSg_hint_independent_one_region :
    oneRegionDma.TableWf ∧ (0x1800 : BitVec 64).toNat + (0x100 : BitVec 64).toNat < 2 ^ 64 ∧
      (0x100 : BitVec 64).toNat < 2 ^ 32 ∧
      (dmaAddrToSg 0 oneRegionDma 0x1800 0x100 1 protRead).map Prod.fst =
        (dmaAddrToSg 1 oneRegionDma 0x1800 0x100 1 protRead).map Prod.fst :=
  ⟨oneRegionDma_wf, by decide, by decide,
    dmaAddrToSg_hint_independent oneRegionDma_wf (by decide) (by decide) 0 1 1 protRead⟩

/-- With the wrapping span of `dmaAddrToSg_fast_path_wraps`, hint 0 takes the fast path and
returns 1, while hint 1 (a slot below `max_regions`) takes the slow path and returns -1 with
`EINVAL`. -/
theorem dmaAddrToSg_wrap_depends_on_hint :
    (dmaAddrToSg 0 oneRegionDma 0x1800 0xfffffffffffff000 1 protRead).map
        (fun r => (r.1.ret, r.1.errno)) = .ok (1, none) ∧
      (dmaAddrToSg 1 oneRegionDma 0x1800 0xfffffffffffff000 1 protRead).map
        (fun r => (r.1.ret, r.1.errno)) = .ok (-1, some einval) ∧
      1 < oneRegionDma.maxRegions :=
  ⟨rfl, rfl, by decide⟩

end VfioUser.Dma
