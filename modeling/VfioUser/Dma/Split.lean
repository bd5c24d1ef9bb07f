import VfioUser.Dma.InitSg

/-!
# The slow path of address translation

`_dma_addr_sg_split` is declared in the DMA header, but its body lives in `dma.c`, which is
not among the sources. It follows the spec's slow path: locate the region holding the address,
walk on through regions that start where the previous one ends, fail with `EINVAL` when the
span is not covered, report `-(needed + 1)` when the caller's array is too small, and
otherwise emit one entry per region through `dma_init_sg`.
-/

namespace VfioUser.Dma

/-- `len` bytes at DMA address `addr` inside region `region`. -/
structure SgPiece where
  region : Nat
  addr : Nat
  len : Nat
deriving DecidableEq, Repr

/-- What a translation leaves behind: the return value, the `errno` it sets, the entries written
to `sg[0..)`, and the controller with its dirty bits. -/
structure SgResult where
  ret : Int
  errno : Option Int
  sgs : List DmaSg
  dma : DmaController

/-- The end of region `i`'s iova. -/
def DmaController.regionEnd (dma : DmaController) (i : Nat) : Nat :=
  (dma.regions i).base + (dma.regions i).len

/-- Modelled from the spec: the walk of `_dma_addr_sg_split`. It covers `remaining` bytes
from `addr` in region `i`, then goes on in the live region whose base is that region's end; it
visits at most `fuel` regions. -/
def sgWalk (dma : DmaController) : Nat → Nat → Nat → Nat → Option (List SgPiece)
  | 0, _, _, _ => none
  | fuel + 1, i, addr, remaining =>
      let piece := min (dma.regionEnd i - addr) remaining
      if piece < remaining then
        match dma.findRegion fun r => decide (r.base = dma.regionEnd i) with
        | none => none
        | some j =>
            (sgWalk dma fuel j (addr + piece) (remaining - piece)).map (⟨i, addr, piece⟩ :: ·)
      else some [⟨i, addr, piece⟩]

/-- Modelled from the spec: the emission step of `_dma_addr_sg_split`, one `dma_init_sg` per
piece in order, stopping at the first `EACCES`. The flag says whether every piece was emitted. -/
def emitSg (prot : BitVec 32) :
    DmaController → List SgPiece → Except Fault (List DmaSg × DmaController × Bool)
  | dma, [] => .ok ([], dma, true)
  | dma, p :: ps =>
      match dmaInitSg dma (BitVec.ofNat 64 p.addr) (BitVec.ofNat 32 p.len) prot p.region with
      | .error f => .error f
      | .ok none => .ok ([], dma, false)
      | .ok (some (sg, dma')) => (emitSg prot dma' ps).map fun r => (sg :: r.1, r.2)

/-- Modelled from the spec: `_dma_addr_sg_split`, the slow path of `dma_addr_to_sg`. -/
def dmaAddrSgSplit (dma : DmaController) (dmaAddr : BitVec 64) (len : BitVec 32) (maxSg : Int)
    (prot : BitVec 32) : Except Fault SgResult :=
  match dma.findRegion fun r => decide (r.Holds dmaAddr.toNat) with
  | none => .ok ⟨-1, some einval, [], dma⟩
  | some i =>
      match (if len = 0 then some [] else sgWalk dma dma.nregions i dmaAddr.toNat len.toNat) with
      | none => .ok ⟨-1, some einval, [], dma⟩
      | some ps =>
          if maxSg < ps.length then .ok ⟨-(ps.length + 1), none, [], dma⟩
          else (emitSg prot dma ps).map fun r =>
            if r.2.2 then ⟨ps.length, none, r.1, r.2.1⟩ else ⟨-1, some eacces, r.1, r.2.1⟩

/-- Every piece of a walk that starts in a live region is in a live region. -/
theorem sgWalk_region_lt {dma : DmaController} {fuel i addr remaining : Nat}
    {ps : List SgPiece} (h : sgWalk dma fuel i addr remaining = some ps)
    (hi : i < dma.nregions) : ∀ p ∈ ps, p.region < dma.nregions := by
  induction fuel generalizing i addr remaining ps with
  | zero => cases h
  | succ fuel ih =>
      simp only [sgWalk] at h
      split at h
      · split at h
        · cases h
        · rename_i j hj
          obtain ⟨ps', hps', rfl⟩ := Option.map_eq_some'.mp h
          have hj' := (DmaController.findRegion_eq_some.mp hj).1
          simpa [hi] using ih hps' hj'
      · cases h; simpa using hi

/-- Piece `p` starts inside the live region it names and ends by that region's end. -/
def DmaController.PieceInside (dma : DmaController) (p : SgPiece) : Prop :=
  p.region < dma.nregions ∧ (dma.regions p.region).base ≤ p.addr ∧
    p.addr < dma.regionEnd p.region ∧ p.addr + p.len ≤ dma.regionEnd p.region

/-- In a well-formed table, a walk from inside a live region cuts the span into pieces that
each lie inside their own region and are no longer than the span. -/
theorem sgWalk_inside {dma : DmaController} (hwf : dma.TableWf) {fuel i addr remaining : Nat}
    {ps : List SgPiece} (h : sgWalk dma fuel i addr remaining = some ps) (hi : i < dma.nregions)
    (hb : (dma.regions i).base ≤ addr) (he : addr < dma.regionEnd i) :
    ∀ p ∈ ps, dma.PieceInside p ∧ p.len ≤ remaining := by
  induction fuel generalizing i addr remaining ps with
  | zero => cases h
  | succ fuel ih =>
      simp only [sgWalk] at h
      split at h
      · rename_i hlt
        split at h
        · cases h
        · rename_i j hj
          obtain ⟨ps', hps', rfl⟩ := Option.map_eq_some'.mp h
          obtain ⟨hj', hbj, -⟩ := DmaController.findRegion_eq_some.mp hj
          have hbj : (dma.regions j).base = dma.regionEnd i := by simpa using hbj
          have hne := hwf.nonempty j hj'
          simp only [DmaController.regionEnd] at hbj he hlt
          have hrest := ih hps' hj' (by simp only [DmaController.regionEnd]; omega)
            (by simp only [DmaController.regionEnd]; omega)
          simp only [List.mem_cons, forall_eq_or_imp, DmaController.PieceInside,
            DmaController.regionEnd]
          exact ⟨⟨⟨hi, hb, he, by omega⟩, by omega⟩,
            fun p hp => ⟨(hrest p hp).1, by have := (hrest p hp).2; omega⟩⟩
      · rename_i hge
        cases h
        simp only [List.mem_singleton, forall_eq, DmaController.PieceInside]
        simp only [DmaController.regionEnd] at he hge ⊢
        exact ⟨⟨hi, hb, he, by omega⟩, by omega⟩

/-- In a well-formed table the entry `dma_init_sg` builds for a piece inside its region, of
less than 4 GiB, starts at the piece's offset in the region and ends by the region's end. -/
theorem initSgEntry_piece_inside {dma : DmaController} (hwf : dma.TableWf) {p : SgPiece}
    (hp : dma.PieceInside p) (hlen : p.len < 2 ^ 32) :
    (initSgEntry dma (BitVec.ofNat 64 p.addr) (BitVec.ofNat 32 p.len) p.region).offset.toNat +
      (initSgEntry dma (BitVec.ofNat 64 p.addr) (BitVec.ofNat 32 p.len) p.region).length.toNat ≤
      (dma.regions p.region).len := by
  obtain ⟨hi, hb, he, hend⟩ := hp
  have hw := hwf.noWrap _ hi
  simp only [initSgEntry, DmaController.regionEnd, DmaMemoryRegion.base,
    DmaMemoryRegion.len] at hb he hend hw ⊢
  simp only [BitVec.toNat_sub, BitVec.toNat_ofNat, BitVec.toNat_setWidth]
  rw [Nat.mod_eq_of_lt (a := p.addr) (by omega), Nat.mod_eq_of_lt (a := p.len) hlen,
    Nat.mod_eq_of_lt (a := p.len) (by omega)]
  omega

/-- The entries `emitSg` writes are `dma_init_sg` entries of the controller it started from,
and it changes only dirty bits. -/
theorem emitSg_eq_ok {prot : BitVec 32} {dma dma' : DmaController} {ps : List SgPiece}
    {sgs : List DmaSg} {ok : Bool} (h : emitSg prot dma ps = .ok (sgs, dma', ok)) :
    DirtyBitsOnly dma dma' ∧ ∀ sg ∈ sgs, ∃ p ∈ ps,
      sg = initSgEntry dma (BitVec.ofNat 64 p.addr) (BitVec.ofNat 32 p.len) p.region := by
  induction ps generalizing dma sgs with
  | nil => cases h; exact ⟨DirtyBitsOnly.refl _, by simp⟩
  | cons p ps ih =>
      simp only [emitSg] at h
      split at h
      · cases h
      · cases h; exact ⟨DirtyBitsOnly.refl _, by simp⟩
      · rename_i sg d hd
        obtain ⟨rfl, -, hsame⟩ := dmaInitSg_eq_some hd
        obtain ⟨⟨sgs', d', ok'⟩, hrest, hr⟩ := except_map_eq_ok.mp h
        cases hr
        obtain ⟨hd', hsgs⟩ := ih hrest
        refine ⟨hsame.trans hd', ?_⟩
        simp only [List.mem_cons, forall_eq_or_imp]
        refine ⟨⟨p, by simp, rfl⟩, fun sg hsg => ?_⟩
        obtain ⟨q, hq, rfl⟩ := hsgs sg hsg
        exact ⟨q, by simp [hq], hsame.initSgEntry_eq _ _ _⟩

/-- `emitSg` aborts only on a piece whose region is marked without a bitmap. -/
theorem emitSg_eq_assertion {prot : BitVec 32} {dma : DmaController} {ps : List SgPiece}
    (h : emitSg prot dma ps = .error .assertion) :
    ∃ p ∈ ps, dmaShouldMarkDirty dma prot ∧ (dma.regions p.region).dirtyBitmap = none := by
  induction ps generalizing dma with
  | nil => cases h
  | cons p ps ih =>
      simp only [emitSg] at h
      split at h
      · rename_i f hf
        cases h
        obtain ⟨hd, hm⟩ := dmaInitSg_eq_error hf
        exact ⟨p, by simp, hd, dmaMarkDirty_eq_assertion.mp hm⟩
      · cases h
      · rename_i sg d hd
        obtain ⟨-, -, hsame⟩ := dmaInitSg_eq_some hd
        cases hrest : emitSg prot d ps with
        | error f =>
            rw [hrest] at h; cases h
            obtain ⟨q, hq, hm, hn⟩ := ih hrest
            exact ⟨q, by simp [hq], by rwa [← hsame.dmaShouldMarkDirty_eq],
              (hsame.dirtyBitmap_eq_none _).mp hn⟩
        | ok r => rw [hrest] at h; cases h

/-- The pieces the slow path plans all lie in live regions. -/
theorem splitPieces_region_lt {dma : DmaController} {len : BitVec 32} {i addr : Nat}
    {ps : List SgPiece} (hi : i < dma.nregions)
    (h : (if len = 0 then some [] else sgWalk dma dma.nregions i addr len.toNat) = some ps) :
    ∀ p ∈ ps, p.region < dma.nregions := by
  split at h
  · cases h; simp
  · exact sgWalk_region_lt h hi

/-- The pieces the slow path plans from a held address lie inside their regions. -/
theorem splitPieces_inside {dma : DmaController} (hwf : dma.TableWf) {len : BitVec 32}
    {i addr : Nat} {ps : List SgPiece} (hi : i < dma.nregions) (hh : (dma.regions i).Holds addr)
    (h : (if len = 0 then some [] else sgWalk dma dma.nregions i addr len.toNat) = some ps) :
    ∀ p ∈ ps, dma.PieceInside p ∧ p.len < 2 ^ 32 := by
  split at h
  · cases h; simp
  · exact fun p hp => have hw := sgWalk_inside hwf h hi hh.1 hh.2 p hp
      ⟨hw.1, by have := len.isLt; omega⟩

/-- The slow path changes only dirty bits, and every entry it writes names a live region and
carries its base. -/
theorem dmaAddrSgSplit_eq_ok {dma : DmaController} {dmaAddr : BitVec 64} {len : BitVec 32}
    {maxSg : Int} {prot : BitVec 32} {res : SgResult}
    (h : dmaAddrSgSplit dma dmaAddr len maxSg prot = .ok res) :
    DirtyBitsOnly dma res.dma ∧ ∀ sg ∈ res.sgs, dma.SgValid sg := by
  unfold dmaAddrSgSplit at h
  split at h
  · cases h; exact ⟨DirtyBitsOnly.refl _, by simp⟩
  · rename_i i hi
    have hi := (DmaController.findRegion_eq_some.mp hi).1
    split at h
    · cases h; exact ⟨DirtyBitsOnly.refl _, by simp⟩
    · rename_i ps hps
      have hlive := splitPieces_region_lt hi hps
      split at h
      · cases h; exact ⟨DirtyBitsOnly.refl _, by simp⟩
      · obtain ⟨⟨sgs, dma', ok⟩, hr, rfl⟩ := except_map_eq_ok.mp h
        obtain ⟨hsame, hsgs⟩ := emitSg_eq_ok hr
        refine ⟨by split <;> exact hsame, fun sg hsg => ?_⟩
        obtain ⟨p, hp, rfl⟩ := hsgs sg (by split at hsg <;> exact hsg)
        exact ⟨hlive p hp, rfl⟩

/-- The slow path aborts only when it marks a live region that has no bitmap. -/
theorem dmaAddrSgSplit_eq_assertion {dma : DmaController} {dmaAddr : BitVec 64}
    {len : BitVec 32} {maxSg : Int} {prot : BitVec 32}
    (h : dmaAddrSgSplit dma dmaAddr len maxSg prot = .error .assertion) :
    ∃ i < dma.nregions, dmaShouldMarkDirty dma prot ∧ (dma.regions i).dirtyBitmap = none := by
  unfold dmaAddrSgSplit at h
  split at h
  · cases h
  · rename_i i hi
    have hi := (DmaController.findRegion_eq_some.mp hi).1
    split at h
    · cases h
    · rename_i ps hps
      split at h
      · cases h
      · cases hr : emitSg prot dma ps with
        | error f =>
            rw [hr] at h; cases h
            obtain ⟨p, hp, hd, hn⟩ := emitSg_eq_assertion hr
            exact ⟨p.region, splitPieces_region_lt hi hps p hp, hd, hn⟩
        | ok r => rw [hr] at h; cases h

/-- In a well-formed table every entry the slow path writes lies inside the region it names. -/
theorem dmaAddrSgSplit_inside {dma : DmaController} (hwf : dma.TableWf) {dmaAddr : BitVec 64}
    {len : BitVec 32} {maxSg : Int} {prot : BitVec 32} {res : SgResult}
    (h : dmaAddrSgSplit dma dmaAddr len maxSg prot = .ok res) :
    ∀ sg ∈ res.sgs, sg.offset.toNat + sg.length.toNat ≤ (dma.regions sg.region).len := by
  unfold dmaAddrSgSplit at h
  split at h
  · cases h; simp
  · rename_i i hi
    obtain ⟨hi, hh, -⟩ := DmaController.findRegion_eq_some.mp hi
    split at h
    · cases h; simp
    · rename_i ps hps
      have hin := splitPieces_inside hwf hi (by simpa using hh) hps
      split at h
      · cases h; simp
      · obtain ⟨⟨sgs, dma', ok⟩, hr, rfl⟩ := except_map_eq_ok.mp h
        intro sg hsg
        obtain ⟨p, hp, rfl⟩ := (emitSg_eq_ok hr).2 sg (by split at hsg <;> exact hsg)
        exact initSgEntry_piece_inside hwf (hin p hp).1 (hin p hp).2

end VfioUser.Dma
