import Mathlib

/-!
# DMA controller state

The region table of `dma_controller_t`, the scatter-gather entries built from it and the
dirty page bitmaps. Slots are addressed past the live prefix as well: `dma_addr_to_sg` reads
the hinted slot before it tests the index, and `dma_unmap_sg` can write the slot after the
last live region.

## Implementation notes

Pointers and `size_t`/`uint64_t` values are `BitVec 64`, so every C wrap-around is kept.
`int` counters and return values are `Int`; region indices and counts are `Nat`, since the
code only ever stores non-negative ones. A NULL `vaddr` is `0`, a NULL `dirty_bitmap` is
`none`. A call that aborts on an `assert` or never leaves a loop ends in a `Fault`.
-/

namespace VfioUser.Dma

/-- `PROT_WRITE` of `<sys/mman.h>`. -/
def protWrite : BitVec 32 := 2

/-- `PROT_READ` of `<sys/mman.h>`. -/
def protRead : BitVec 32 := 1

/-- The `errno` values the DMA code returns. -/
def einval : Int := 22
def eacces : Int := 13
def efault : Int := 14

/-- How a call can end without returning: an `assert` fails, or a loop never exits. -/
inductive Fault where
  | assertion
  | hang
deriving DecidableEq, Repr

theorem except_map_eq_ok {α β : Type} {f : α → β} {x : Except Fault α} {b : β} :
    x.map f = .ok b ↔ ∃ a, x = .ok a ∧ f a = b := by
  cases x <;> simp [Except.map]

/-- `struct iovec`. -/
structure Iovec where
  iovBase : BitVec 64
  iovLen : BitVec 64
deriving DecidableEq, Repr

/-- The fields of `vfu_dma_info_t` that the DMA code reads. -/
structure VfuDmaInfo where
  iova : Iovec
  vaddr : BitVec 64
  prot : BitVec 32
deriving DecidableEq, Repr

/-- A dirty page bitmap: the number of pages it was allocated for, and its bytes. Bytes past
the allocation are kept, so that an out-of-range write is visible. -/
structure DirtyBitmap where
  nbits : Nat
  bytes : Nat → BitVec 8

namespace DirtyBitmap

/-- Bit `p % 8` of byte `p / 8`, the bit of page `p`. -/
def test (bm : DirtyBitmap) (p : Nat) : Bool :=
  (bm.bytes (p / 8)).getLsbD (p % 8)

/-- `dirty_bitmap[i / CHAR_BIT] |= 1 << (i % CHAR_BIT)`. The bytes are unbounded: a bit past the
allocation of `nbits` bits is stored here, where the C store writes past the array, so no result
takes such a store as returning. -/
def setBit (bm : DirtyBitmap) (i : BitVec 64) : DirtyBitmap :=
  { bm with
    bytes := Function.update bm.bytes (i / 8).toNat
      (bm.bytes (i / 8).toNat ||| 1#8 <<< (i % 8).toNat) }

/-- A zeroed bitmap for `n` pages. -/
def zero (n : Nat) : DirtyBitmap := ⟨n, fun _ => 0⟩

@[simp] theorem zero_test (n p : Nat) : (zero n).test p = false := by
  simp [zero, test]

@[simp] theorem setBit_nbits (bm : DirtyBitmap) (i : BitVec 64) :
    (bm.setBit i).nbits = bm.nbits := rfl

/-- Setting the bit of page `i` sets exactly that page's bit. -/
@[simp] theorem test_setBit (bm : DirtyBitmap) (i : BitVec 64) (p : Nat) :
    (bm.setBit i).test p = (decide (p = i.toNat) || bm.test p) := by
  have hq : (i / 8).toNat = i.toNat / 8 := by simp [BitVec.toNat_udiv]
  have hr : (i % 8).toNat = i.toNat % 8 := by simp [BitVec.toNat_umod]
  simp only [test, setBit, hq, hr]
  by_cases h : p / 8 = i.toNat / 8
  · rw [h, Function.update_same, BitVec.getLsbD_or, BitVec.getLsbD_shiftLeft,
      BitVec.getLsbD_one]
    by_cases hp : p = i.toNat
    · subst hp; simp; omega
    · have : p % 8 ≠ i.toNat % 8 := by omega
      simp only [hp, decide_False, Bool.false_or]
      by_cases hlt : p % 8 < i.toNat % 8
      · simp [hlt]
      · simp [show p % 8 - i.toNat % 8 ≠ 0 by omega]
  · rw [Function.update_noteq h]
    have : p ≠ i.toNat := by rintro rfl; exact h rfl
    simp [this]

end DirtyBitmap

/-- `dma_memory_region_t`. -/
structure DmaMemoryRegion where
  info : VfuDmaInfo
  fd : Int
  offset : Int
  refcnt : Int
  dirtyBitmap : Option DirtyBitmap

namespace DmaMemoryRegion

/-- The first DMA address of the region. -/
def base (r : DmaMemoryRegion) : Nat := r.info.iova.iovBase.toNat

/-- The length of the region. -/
def len (r : DmaMemoryRegion) : Nat := r.info.iova.iovLen.toNat

/-- The region's iova holds DMA address `a`. -/
def Holds (r : DmaMemoryRegion) (a : Nat) : Prop := r.base ≤ a ∧ a < r.base + r.len

instance (r : DmaMemoryRegion) (a : Nat) : Decidable (r.Holds a) :=
  inferInstanceAs (Decidable (_ ∧ _))

end DmaMemoryRegion

/-- `dma_controller_t`, with the flexible array `regions` as a function on slots. -/
structure DmaController where
  maxRegions : Nat
  nregions : Nat
  dirtyPgsize : BitVec 64
  regions : Nat → DmaMemoryRegion

/-- `dma_sg_t`. -/
structure DmaSg where
  dmaAddr : BitVec 64
  region : Nat
  length : BitVec 64
  offset : BitVec 64
  mappable : Bool
deriving DecidableEq, Repr

namespace DmaController

/-- Rewrite slot `i` of the region table. -/
def modifyRegion (dma : DmaController) (i : Nat) (f : DmaMemoryRegion → DmaMemoryRegion) :
    DmaController :=
  { dma with regions := Function.update dma.regions i (f (dma.regions i)) }

@[simp] theorem modifyRegion_nregions (dma : DmaController) (i : Nat) (f) :
    (dma.modifyRegion i f).nregions = dma.nregions := rfl

@[simp] theorem modifyRegion_maxRegions (dma : DmaController) (i : Nat) (f) :
    (dma.modifyRegion i f).maxRegions = dma.maxRegions := rfl

@[simp] theorem modifyRegion_dirtyPgsize (dma : DmaController) (i : Nat) (f) :
    (dma.modifyRegion i f).dirtyPgsize = dma.dirtyPgsize := rfl

theorem modifyRegion_regions (dma : DmaController) (i j : Nat) (f) :
    (dma.modifyRegion i f).regions j = if j = i then f (dma.regions j) else dma.regions j := by
  by_cases h : j = i
  · subst h; simp [modifyRegion]
  · simp [modifyRegion, h, Function.update_noteq h]

/-- `region->refcnt += d` on slot `i`. -/
def addRefcnt (dma : DmaController) (i : Nat) (d : Int) : DmaController :=
  dma.modifyRegion i fun r => { r with refcnt := r.refcnt + d }

/-- Add `c k` to the refcount of every slot `k`. -/
def shiftRefcnts (dma : DmaController) (c : Nat → Int) : DmaController :=
  { dma with regions := fun k => { dma.regions k with refcnt := (dma.regions k).refcnt + c k } }

@[simp] theorem shiftRefcnts_nregions (dma : DmaController) (c : Nat → Int) :
    (dma.shiftRefcnts c).nregions = dma.nregions := rfl

@[simp] theorem shiftRefcnts_regions (dma : DmaController) (c : Nat → Int) (k : Nat) :
    (dma.shiftRefcnts c).regions k =
      { dma.regions k with refcnt := (dma.regions k).refcnt + c k } := rfl

theorem shiftRefcnts_shiftRefcnts (dma : DmaController) (c c' : Nat → Int) :
    (dma.shiftRefcnts c).shiftRefcnts c' = dma.shiftRefcnts fun k => c k + c' k := by
  simp only [shiftRefcnts, Int.add_assoc]

theorem shiftRefcnts_zero (dma : DmaController) : (dma.shiftRefcnts fun _ => 0) = dma := by
  simp only [shiftRefcnts, Int.add_zero]

theorem addRefcnt_eq_shiftRefcnts (dma : DmaController) (i : Nat) (d : Int) :
    dma.addRefcnt i d = dma.shiftRefcnts fun k => if k = i then d else 0 := by
  simp only [addRefcnt, modifyRegion, shiftRefcnts]
  congr 1
  funext k
  by_cases h : k = i
  · subst h; simp
  · simp [Function.update_noteq h, h]

/-- The first of the live slots `i, …, i + n - 1` whose region satisfies `p`. -/
def findFrom (dma : DmaController) (p : DmaMemoryRegion → Bool) : Nat → Nat → Option Nat
  | 0, _ => none
  | n + 1, i => if p (dma.regions i) then some i else dma.findFrom p n (i + 1)

/-- The first live region satisfying `p`: the linear scan over `regions[0..nregions)`. -/
def findRegion (dma : DmaController) (p : DmaMemoryRegion → Bool) : Option Nat :=
  dma.findFrom p dma.nregions 0

theorem findFrom_eq_some {dma : DmaController} {p : DmaMemoryRegion → Bool} {n i k : Nat} :
    dma.findFrom p n i = some k ↔ i ≤ k ∧ k < i + n ∧ p (dma.regions k) = true ∧
      ∀ j, i ≤ j → j < k → p (dma.regions j) = false := by
  induction n generalizing i with
  | zero =>
      simp only [findFrom, reduceCtorEq, false_iff, not_and]
      intro h1 h2; omega
  | succ n ih =>
      cases hp : p (dma.regions i) with
      | true =>
          simp only [findFrom, hp, if_true, Option.some.injEq]
          constructor
          · rintro rfl
            exact ⟨Nat.le_refl i, by omega, hp, fun j h1 h2 => absurd h2 (by omega)⟩
          · rintro ⟨h1, -, -, hj⟩
            by_contra hne
            simp [hj i (Nat.le_refl i) (by omega)] at hp
      | false =>
          simp only [findFrom, hp, Bool.false_eq_true, if_false, ih]
          constructor
          · rintro ⟨h1, h2, hk, hj⟩
            refine ⟨by omega, by omega, hk, fun j hij hjk => ?_⟩
            rcases Nat.eq_or_lt_of_le hij with rfl | hlt
            · exact hp
            · exact hj j hlt hjk
          · rintro ⟨h1, h2, hk, hj⟩
            have : k ≠ i := by rintro rfl; simp [hp] at hk
            exact ⟨by omega, by omega, hk, fun j hij hjk => hj j (by omega) hjk⟩

theorem findFrom_eq_none {dma : DmaController} {p : DmaMemoryRegion → Bool} {n i : Nat} :
    dma.findFrom p n i = none ↔ ∀ j, i ≤ j → j < i + n → p (dma.regions j) = false := by
  induction n generalizing i with
  | zero =>
      simp only [findFrom, true_iff]
      intro j h1 h2; omega
  | succ n ih =>
      cases hp : p (dma.regions i) with
      | true =>
          simp only [findFrom, hp, if_true, reduceCtorEq, false_iff, not_forall]
          exact ⟨i, Nat.le_refl i, by omega, by simp [hp]⟩
      | false =>
          simp only [findFrom, hp, Bool.false_eq_true, if_false, ih]
          constructor
          · intro h j hij hjn
            rcases Nat.eq_or_lt_of_le hij with rfl | hlt
            · exact hp
            · exact h j hlt (by omega)
          · exact fun h j hij hjn => h j (by omega) (by omega)

/-- The scan returns the first live region satisfying `p`. -/
theorem findRegion_eq_some {dma : DmaController} {p : DmaMemoryRegion → Bool} {k : Nat} :
    dma.findRegion p = some k ↔
      k < dma.nregions ∧ p (dma.regions k) ∧ ∀ j < k, p (dma.regions j) = false := by
  simp [findRegion, findFrom_eq_some]

/-- The scan fails exactly when no live region satisfies `p`. -/
theorem findRegion_eq_none {dma : DmaController} {p : DmaMemoryRegion → Bool} :
    dma.findRegion p = none ↔ ∀ j < dma.nregions, p (dma.regions j) = false := by
  simp [findRegion, findFrom_eq_none]

/-- The live regions are non-empty, end within the 64-bit space and are pairwise disjoint, and
there are at most `maxRegions` of them. -/
structure TableWf (dma : DmaController) : Prop where
  bound : dma.nregions ≤ dma.maxRegions
  nonempty : ∀ i < dma.nregions, 0 < (dma.regions i).len
  noWrap : ∀ i < dma.nregions, (dma.regions i).base + (dma.regions i).len ≤ 2 ^ 64
  disjoint : ∀ i < dma.nregions, ∀ j < dma.nregions, i ≠ j →
    (dma.regions i).base + (dma.regions i).len ≤ (dma.regions j).base ∨
      (dma.regions j).base + (dma.regions j).len ≤ (dma.regions i).base

/-- In a well-formed table a DMA address lies in at most one live region. -/
theorem TableWf.holds_unique {dma : DmaController} (hwf : dma.TableWf) {i j a : Nat}
    (hi : i < dma.nregions) (hj : j < dma.nregions) (hai : (dma.regions i).Holds a)
    (haj : (dma.regions j).Holds a) : i = j := by
  by_contra hne
  unfold DmaMemoryRegion.Holds at hai haj
  rcases hwf.disjoint i hi j hj hne with h | h <;> omega

/-- In a well-formed table no two live regions share a base. -/
theorem TableWf.base_unique {dma : DmaController} (hwf : dma.TableWf) {i j : Nat}
    (hi : i < dma.nregions) (hj : j < dma.nregions)
    (hb : (dma.regions i).info.iova.iovBase = (dma.regions j).info.iova.iovBase) : i = j := by
  have hb' : (dma.regions i).base = (dma.regions j).base := by simp [DmaMemoryRegion.base, hb]
  have hi0 := hwf.nonempty i hi
  have hj0 := hwf.nonempty j hj
  exact hwf.holds_unique hi hj (a := (dma.regions i).base) ⟨Nat.le_refl _, by omega⟩
    ⟨by omega, by omega⟩

/-- An entry names a live region and carries that region's base. -/
def SgValid (dma : DmaController) (sg : DmaSg) : Prop :=
  sg.region < dma.nregions ∧ sg.dmaAddr = (dma.regions sg.region).info.iova.iovBase

end DmaController

end VfioUser.Dma
