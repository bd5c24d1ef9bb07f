import VfioUser.Dma.Basic
import VfioUser.Pci.ConfigSpace

/-!
# Writes to the standard header

`pci_hdr_write` dispatches on the offset alone: the command register, the latency timer, the
six BARs, the expansion ROM address and the interrupt line are emulated, a write to the status
register is ignored and every other offset is refused. Only the command and ROM handlers look at
the count. `handle_command_write` sets each command bit it knows before it refuses the flags it
does not, and `pci_hdr_write_bar` emulates the sizing write `0xffffffff` but stores every other
value as written.

## Implementation notes

The config space is its bytes, `Nat → BitVec 8`, and so is the caller's buffer, bytes past
`count` included: the handlers read whole registers whatever the count. Registers are
little-endian, as on the hosts the library runs on. The fields of `vfu_pci_hdr_cmd_t` sit on the
bits of the `PCI_COMMAND_*` flags of the same names.
-/

namespace VfioUser.Pci

/-- `PCI_COMMAND`. -/
def pciCommand : Nat := 0x04

/-- `PCI_STATUS`. -/
def pciStatus : Nat := 0x06

/-- `PCI_LATENCY_TIMER`. -/
def pciLatencyTimer : Nat := 0x0d

/-- `PCI_BASE_ADDRESS_0`. -/
def pciBaseAddress0 : Nat := 0x10

/-- `PCI_BASE_ADDRESS_0` to `PCI_BASE_ADDRESS_5`. -/
def pciBaseAddresses : List Nat := [0x10, 0x14, 0x18, 0x1c, 0x20, 0x24]

/-- `PCI_ROM_ADDRESS`. -/
def pciRomAddress : Nat := 0x30

/-- `PCI_INTERRUPT_LINE`. -/
def pciInterruptLine : Nat := 0x3c

/-- `PCI_INTERRUPT_PIN`. -/
def pciInterruptPin : Nat := 0x3d

/-- `PCI_COMMAND_IO`. -/
def pciCommandIo : BitVec 16 := 0x1

/-- `PCI_COMMAND_MEMORY`. -/
def pciCommandMemory : BitVec 16 := 0x2

/-- `PCI_COMMAND_MASTER`. -/
def pciCommandMaster : BitVec 16 := 0x4

/-- `PCI_COMMAND_INVALIDATE`. -/
def pciCommandInvalidate : BitVec 16 := 0x10

/-- `PCI_COMMAND_VGA_PALETTE`. -/
def pciCommandVgaPalette : BitVec 16 := 0x20

/-- `PCI_COMMAND_SERR`. -/
def pciCommandSerr : BitVec 16 := 0x100

/-- `PCI_COMMAND_INTX_DISABLE`. -/
def pciCommandIntxDisable : BitVec 16 := 0x400

/-- `PCI_BASE_ADDRESS_MEM_MASK`, on the 32 bits of a BAR. -/
def pciBaseAddressMemMask : BitVec 32 := ~~~0x0f

/-- `PCI_BASE_ADDRESS_IO_MASK`, on the 32 bits of a BAR. -/
def pciBaseAddressIoMask : BitVec 32 := ~~~0x03

/-- `(uint32_t)PCI_ROM_ADDRESS_MASK`. -/
def pciRomAddressMask : BitVec 32 := ~~~0x7ff

/-- `PCI_ROM_ADDRESS_ENABLE`. -/
def pciRomAddressEnable : BitVec 32 := 0x01

/-- The `n`-byte little-endian value at `off`. -/
def readLe (mem : Nat → BitVec 8) : Nat → Nat → Nat
  | _, 0 => 0
  | off, n + 1 => (mem off).toNat + 256 * readLe mem (off + 1) n

/-- `mem` with the low `n` bytes of `v` stored little-endian at `off`. -/
def writeLe (mem : Nat → BitVec 8) : Nat → Nat → Nat → Nat → BitVec 8
  | _, 0, _ => mem
  | off, n + 1, v => Function.update (writeLe mem (off + 1) n (v / 256)) off (BitVec.ofNat 8 v)

/-- A read from `off` on does not see a byte written below `off`. -/
theorem readLe_update_of_lt (mem : Nat → BitVec 8) {j off : Nat} (h : j < off) (b : BitVec 8)
    (n : Nat) : readLe (Function.update mem j b) off n = readLe mem off n := by
  induction n generalizing off with
  | zero => rfl
  | succ n ih =>
      simp only [readLe, Function.update_noteq (Nat.ne_of_gt h), ih (show j < off + 1 by omega)]

/-- A write changes no byte outside the `n` it stores. -/
theorem writeLe_of_not_mem (mem : Nat → BitVec 8) {off n i : Nat} (h : i < off ∨ off + n ≤ i)
    (v : Nat) : writeLe mem off n v i = mem i := by
  induction n generalizing off v with
  | zero => rfl
  | succ n ih => rw [writeLe, Function.update_noteq (by omega), ih (by omega)]

theorem readLe_writeLe (mem : Nat → BitVec 8) (off n v : Nat) :
    readLe (writeLe mem off n v) off n = v % 256 ^ n := by
  induction n generalizing off v with
  | zero => simp [readLe, Nat.mod_one]
  | succ n ih =>
      rw [readLe, writeLe, Function.update_same, readLe_update_of_lt _ (Nat.lt_succ_self off), ih,
        pow_succ', Nat.mod_mul, BitVec.toNat_ofNat]

/-- A read of `n` bytes sees only those bytes. -/
theorem readLe_congr {mem mem' : Nat → BitVec 8} {off : Nat} (n : Nat)
    (h : ∀ i, off ≤ i → i < off + n → mem' i = mem i) : readLe mem' off n = readLe mem off n := by
  induction n generalizing off with
  | zero => rfl
  | succ n ih =>
      rw [readLe, readLe, h off le_rfl (by omega), @ih (off + 1) fun i h₁ h₂ => h i (by omega) (by omega)]

/-- The fields of `vfu_reg_info_t` that `pci_hdr_write_bar` reads: the region's size, and
whether its flags have `VFU_REGION_FLAG_MEM`. -/
structure VfuRegInfo where
  size : BitVec 64
  mem : Bool
deriving DecidableEq, Repr

/-- `hdr->bars[i].raw`. -/
def pciBar (cfg : Nat → BitVec 8) (i : Nat) : BitVec 32 :=
  BitVec.ofNat 32 (readLe cfg (pciBaseAddress0 + 4 * i) 4)

/-- A BAR reads back the value written over its four bytes. -/
theorem pciBar_writeLe (cfg : Nat → BitVec 8) (b : Nat) (v : BitVec 32) :
    pciBar (writeLe cfg (pciBaseAddress0 + 4 * b) 4 v.toNat) b = v := by
  rw [pciBar, readLe_writeLe, Nat.mod_eq_of_lt (by simpa using v.isLt), BitVec.ofNat_toNat,
    BitVec.setWidth_eq]

/-- `BAR_INDEX`. -/
def barIndex (offset : Nat) : Nat := (offset - pciBaseAddress0) >>> 2

/-- The address bits of a BAR: `PCI_BASE_ADDRESS_MEM_MASK` for a memory region,
`PCI_BASE_ADDRESS_IO_MASK` otherwise. -/
def barMask (r : VfuRegInfo) : BitVec 32 :=
  if r.mem then pciBaseAddressMemMask else pciBaseAddressIoMask

/-- `pci_hdr_write_bar`. -/
def pciHdrWriteBar (cfg : Nat → BitVec 8) (regInfo : Nat → VfuRegInfo) (barIndex : Nat)
    (buf : Nat → BitVec 8) : Nat → BitVec 8 :=
  if (regInfo barIndex).size = 0 then cfg
  else
    let w := BitVec.ofNat 32 (readLe buf 0 4)
    let cfgAddr := if w = 0xffffffff then (~~~(regInfo barIndex).size + 1).setWidth 32 else w
    writeLe cfg (pciBaseAddress0 + 4 * barIndex) 4
      (cfgAddr ||| (pciBar cfg barIndex &&& ~~~(barMask (regInfo barIndex)))).toNat

/-- One `if ((v & FLAG) == FLAG)` block of `handle_command_write` on the written value `v` and
the command register: the register's bit takes the written bit, and a set bit is consumed. -/
def commandFlagWrite (flag : BitVec 16) (s : BitVec 16 × BitVec 16) : BitVec 16 × BitVec 16 :=
  if s.1 &&& flag = flag then (s.1 &&& ~~~flag, s.2 ||| flag) else (s.1, s.2 &&& ~~~flag)

/-- `handle_command_write`: the return value and the config space. -/
def handleCommandWrite (cfg buf : Nat → BitVec 8) (count : Nat) : Int × (Nat → BitVec 8) :=
  if count ≠ 2 then (-Dma.einval, cfg)
  else
    let s := (BitVec.ofNat 16 (readLe buf 0 2), BitVec.ofNat 16 (readLe cfg pciCommand 2))
    let s := commandFlagWrite pciCommandInvalidate <| commandFlagWrite pciCommandIntxDisable <|
      commandFlagWrite pciCommandSerr <| commandFlagWrite pciCommandMaster <|
      commandFlagWrite pciCommandMemory <| commandFlagWrite pciCommandIo s
    let v := if s.1 &&& pciCommandVgaPalette = pciCommandVgaPalette then
      s.1 &&& ~~~pciCommandVgaPalette else s.1
    let cfg' := writeLe cfg pciCommand 2 s.2.toNat
    if v ≠ 0 then (-Dma.einval, cfg') else (0, cfg')

/-- `handle_erom_write`. -/
def handleEromWrite (cfg buf : Nat → BitVec 8) (count : Nat) : Int × (Nat → BitVec 8) :=
  if count ≠ 4 then (-Dma.einval, cfg)
  else
    let v := BitVec.ofNat 32 (readLe buf 0 4)
    if v = pciRomAddressMask then (0, cfg)
    else if v = 0 then (0, writeLe cfg pciRomAddress 4 0)
    else if v = ~~~pciRomAddressEnable then (0, cfg)
    else (-Dma.einval, cfg)

/-- `pci_hdr_write`: the return value and the config space. -/
def pciHdrWrite (cfg : Nat → BitVec 8) (regInfo : Nat → VfuRegInfo) (buf : Nat → BitVec 8)
    (count offset : Nat) : Int × (Nat → BitVec 8) :=
  if offset = pciCommand then handleCommandWrite cfg buf count
  else if offset = pciStatus then (0, cfg)
  else if offset = pciInterruptPin then (-Dma.einval, cfg)
  else if offset = pciInterruptLine then (0, Function.update cfg pciInterruptLine (buf 0))
  else if offset = pciLatencyTimer then (0, Function.update cfg pciLatencyTimer (buf 0))
  else if offset ∈ pciBaseAddresses then (0, pciHdrWriteBar cfg regInfo (barIndex offset) buf)
  else if offset = pciRomAddress then handleEromWrite cfg buf count
  else (-Dma.einval, cfg)

/-- `pci_hdr_access`: the return value, the config space and the caller's buffer, or `none`
when `assert(count <= PCI_STD_HEADER_SIZEOF)` fails. -/
def pciHdrAccess (cfg : Nat → BitVec 8) (regInfo : Nat → VfuRegInfo) (buf : Nat → BitVec 8)
    (count offset : Nat) (isWrite : Bool) : Option (Int × (Nat → BitVec 8) × (Nat → BitVec 8)) :=
  if pciStdHeaderSizeof < count then none
  else if isWrite then
    let r := pciHdrWrite cfg regInfo buf count offset
    some (if r.1 < 0 then r.1 else count, r.2, buf)
  else some (count, cfg, fun i => if i < count then cfg (offset + i) else buf i)

/-! ### The command register -/

/-- The command bits `handle_command_write` writes: IO, MEMORY, MASTER, SERR, INTX_DISABLE and
INVALIDATE. -/
def commandWritableBits : BitVec 16 := 0x517

/-- A flag block of `handle_command_write` as bit operations on the written value and the
register: the register takes the written bits of `flag`, and the written value loses them. -/
def commandTransfer (flag : BitVec 16) (s : BitVec 16 × BitVec 16) : BitVec 16 × BitVec 16 :=
  (s.1 &&& ~~~flag, (s.2 &&& ~~~flag) ||| (s.1 &&& flag))

theorem commandFlagWrite_twoPow {k : Nat} (hk : k < 16) (s : BitVec 16 × BitVec 16) :
    commandFlagWrite (BitVec.twoPow 16 k) s = commandTransfer (BitVec.twoPow 16 k) s := by
  obtain ⟨a, c⟩ := s
  have ht : BitVec.twoPow 16 k ≠ 0#16 := by
    intro h; have := congrArg (·.getLsbD k) h; simp [hk] at this
  unfold commandFlagWrite commandTransfer
  rw [BitVec.and_twoPow]
  by_cases ha : a.getLsbD k
  · simp only [ha, if_true, Prod.mk.injEq, true_and]
    ext j
    by_cases hj : k = j.val
    · subst hj; simp [ha]
    · simp [hj]
  · simp only [ha, Bool.false_eq_true, if_false]
    rw [if_neg (Ne.symm ht), Prod.mk.injEq]
    constructor <;> ext j <;> by_cases hj : k = j.val
    all_goals first | (subst hj; simp [ha]) | simp [hj]

/-- Two blocks on disjoint flags act as one block on both. -/
theorem commandTransfer_comp {f g : BitVec 16} (h : f &&& g = 0#16) (s : BitVec 16 × BitVec 16) :
    commandTransfer g (commandTransfer f s) = commandTransfer (f ||| g) s := by
  unfold commandTransfer
  ext j
  all_goals
    have hj : f.getLsbD j = true → g.getLsbD j = false := by
      simpa using congrArg (·.getLsbD j) h
    simp only [BitVec.getLsbD_and, BitVec.getLsbD_or, BitVec.getLsbD_not, j.isLt, decide_True,
      Bool.true_and]
    revert hj
    cases f.getLsbD j <;> cases g.getLsbD j <;> cases s.1.getLsbD j <;> cases s.2.getLsbD j <;>
      decide

/-- The six flag blocks of `handle_command_write`, in the source's order, are one transfer of
the writable bits. -/
theorem commandFlagWrite_writable (s : BitVec 16 × BitVec 16) :
    commandFlagWrite pciCommandInvalidate (commandFlagWrite pciCommandIntxDisable
      (commandFlagWrite pciCommandSerr (commandFlagWrite pciCommandMaster
        (commandFlagWrite pciCommandMemory (commandFlagWrite pciCommandIo s))))) =
      commandTransfer commandWritableBits s := by
  have e : ∀ k, k < 16 → commandFlagWrite (BitVec.twoPow 16 k) = commandTransfer (BitVec.twoPow 16 k) :=
    fun k hk => funext (commandFlagWrite_twoPow hk)
  rw [show pciCommandIo = BitVec.twoPow 16 0 from rfl, show pciCommandMemory = BitVec.twoPow 16 1 from rfl,
    show pciCommandMaster = BitVec.twoPow 16 2 from rfl, show pciCommandSerr = BitVec.twoPow 16 8 from rfl,
    show pciCommandIntxDisable = BitVec.twoPow 16 10 from rfl,
    show pciCommandInvalidate = BitVec.twoPow 16 4 from rfl, e 0 (by omega), e 1 (by omega),
    e 2 (by omega), e 8 (by omega), e 10 (by omega), e 4 (by omega)]
  simp (disch := decide) only [commandTransfer_comp]
  rfl

/-- The VGA_PALETTE block only clears the flag from the written value. -/
theorem vgaPalette_clear (x : BitVec 16) :
    (if x &&& pciCommandVgaPalette = pciCommandVgaPalette then x &&& ~~~pciCommandVgaPalette else x) =
      x &&& ~~~pciCommandVgaPalette := by
  have := congrArg Prod.fst (commandFlagWrite_twoPow (show 5 < 16 by omega) (x, 0))
  rw [commandFlagWrite, apply_ite Prod.fst] at this
  exact this

/-- A two-byte command write stores the written value's writable bits whatever it returns, and
is refused when the value has a bit that is neither writable nor VGA_PALETTE. -/
theorem handleCommandWrite_two (cfg buf : Nat → BitVec 8) :
    handleCommandWrite cfg buf 2 =
      (if BitVec.ofNat 16 (readLe buf 0 2) &&& ~~~commandWritableBits &&&
          ~~~pciCommandVgaPalette ≠ 0 then -Dma.einval else 0,
        writeLe cfg pciCommand 2 ((BitVec.ofNat 16 (readLe cfg pciCommand 2) &&&
          ~~~commandWritableBits) ||| (BitVec.ofNat 16 (readLe buf 0 2) &&& commandWritableBits)).toNat) := by
  unfold handleCommandWrite
  simp only [ne_eq, not_true_eq_false, if_false]
  rw [commandFlagWrite_writable, commandTransfer, vgaPalette_clear]
  split <;> rfl

/-! ### Which bytes a write changes -/

/-- `cfg'` differs from `cfg` at most in the `n` bytes from `lo`. -/
def ChangesOnly (cfg cfg' : Nat → BitVec 8) (lo n : Nat) : Prop :=
  ∀ i, i < lo ∨ lo + n ≤ i → cfg' i = cfg i

theorem ChangesOnly.refl (cfg : Nat → BitVec 8) (lo n : Nat) : ChangesOnly cfg cfg lo n :=
  fun _ _ => rfl

theorem ChangesOnly.mono {cfg cfg' : Nat → BitVec 8} {lo n lo' n' : Nat}
    (h : ChangesOnly cfg cfg' lo n) (hlo : lo' ≤ lo) (hn : lo + n ≤ lo' + n') :
    ChangesOnly cfg cfg' lo' n' :=
  fun i hi => h i (by omega)

theorem writeLe_changesOnly (mem : Nat → BitVec 8) (off n v : Nat) :
    ChangesOnly mem (writeLe mem off n v) off n :=
  fun _ hi => writeLe_of_not_mem mem hi v

theorem update_changesOnly (mem : Nat → BitVec 8) (j : Nat) (b : BitVec 8) :
    ChangesOnly mem (Function.update mem j b) j 1 :=
  fun _ hi => Function.update_noteq (by omega) _ _

theorem handleCommandWrite_changesOnly (cfg buf : Nat → BitVec 8) (count : Nat) :
    ChangesOnly cfg (handleCommandWrite cfg buf count).2 pciCommand 2 := by
  unfold handleCommandWrite
  dsimp only
  split_ifs
  · exact .refl cfg _ _
  all_goals exact writeLe_changesOnly cfg _ _ _

theorem handleEromWrite_changesOnly (cfg buf : Nat → BitVec 8) (count : Nat) :
    ChangesOnly cfg (handleEromWrite cfg buf count).2 pciRomAddress 4 := by
  unfold handleEromWrite
  dsimp only
  split_ifs
  all_goals first | exact .refl cfg _ _ | exact writeLe_changesOnly cfg _ _ _

theorem pciHdrWriteBar_changesOnly (cfg : Nat → BitVec 8) (regInfo : Nat → VfuRegInfo) (b : Nat)
    (buf : Nat → BitVec 8) :
    ChangesOnly cfg (pciHdrWriteBar cfg regInfo b buf) (pciBaseAddress0 + 4 * b) 4 := by
  unfold pciHdrWriteBar
  split_ifs
  · exact .refl cfg _ _
  · exact writeLe_changesOnly cfg _ _ _

/-- The BAR a `PCI_BASE_ADDRESS_n` offset names starts at that offset. -/
theorem barIndex_of_mem {offset : Nat} (h : offset ∈ pciBaseAddresses) :
    pciBaseAddress0 + 4 * barIndex offset = offset := by
  simp only [pciBaseAddresses, List.mem_cons, List.mem_singleton, List.not_mem_nil, or_false] at h
  rcases h with rfl | rfl | rfl | rfl | rfl | rfl <;> rfl

/-- Every write, whatever its offset, count and result, changes at most the four bytes from
its offset. -/
theorem pciHdrWrite_changesOnly (cfg : Nat → BitVec 8) (regInfo : Nat → VfuRegInfo)
    (buf : Nat → BitVec 8) (count offset : Nat) :
    ChangesOnly cfg (pciHdrWrite cfg regInfo buf count offset).2 offset 4 := by
  unfold pciHdrWrite
  by_cases h₁ : offset = pciCommand
  · rw [if_pos h₁]; subst offset
    exact (handleCommandWrite_changesOnly cfg buf count).mono le_rfl (by omega)
  rw [if_neg h₁]
  by_cases h₂ : offset = pciStatus
  · rw [if_pos h₂]; exact .refl cfg _ _
  rw [if_neg h₂]
  by_cases h₃ : offset = pciInterruptPin
  · rw [if_pos h₃]; exact .refl cfg _ _
  rw [if_neg h₃]
  by_cases h₄ : offset = pciInterruptLine
  · rw [if_pos h₄]; subst offset; exact (update_changesOnly cfg _ _).mono le_rfl (by omega)
  rw [if_neg h₄]
  by_cases h₅ : offset = pciLatencyTimer
  · rw [if_pos h₅]; subst offset; exact (update_changesOnly cfg _ _).mono le_rfl (by omega)
  rw [if_neg h₅]
  by_cases h₆ : offset ∈ pciBaseAddresses
  · rw [if_pos h₆]
    have := pciHdrWriteBar_changesOnly cfg regInfo (barIndex offset) buf
    rwa [barIndex_of_mem h₆] at this
  rw [if_neg h₆]
  by_cases h₇ : offset = pciRomAddress
  · rw [if_pos h₇]; subst offset; exact handleEromWrite_changesOnly cfg buf count
  rw [if_neg h₇]
  exact .refl cfg _ _

theorem handleEromWrite_error {cfg buf : Nat → BitVec 8} {count : Nat}
    (h : (handleEromWrite cfg buf count).1 < 0) : (handleEromWrite cfg buf count).2 = cfg := by
  revert h
  unfold handleEromWrite
  dsimp only
  split_ifs <;> first | exact fun _ => rfl | exact fun h => absurd h (lt_irrefl _)

/-- A refused write changes nothing, unless it is a two-byte write to the command register. -/
theorem pciHdrWrite_error {cfg : Nat → BitVec 8} {regInfo : Nat → VfuRegInfo}
    {buf : Nat → BitVec 8} {count offset : Nat}
    (h : (pciHdrWrite cfg regInfo buf count offset).1 < 0) (hcmd : offset = pciCommand → count ≠ 2) :
    (pciHdrWrite cfg regInfo buf count offset).2 = cfg := by
  unfold pciHdrWrite at h ⊢
  by_cases h₁ : offset = pciCommand
  · rw [if_pos h₁]; simp only [handleCommandWrite, hcmd h₁, ne_eq, not_false_eq_true, if_true]
  rw [if_neg h₁] at h ⊢
  by_cases h₂ : offset = pciStatus
  · rw [if_pos h₂]
  rw [if_neg h₂] at h ⊢
  by_cases h₃ : offset = pciInterruptPin
  · rw [if_pos h₃]
  rw [if_neg h₃] at h ⊢
  by_cases h₄ : offset = pciInterruptLine
  · rw [if_pos h₄] at h; exact absurd h (lt_irrefl _)
  rw [if_neg h₄] at h ⊢
  by_cases h₅ : offset = pciLatencyTimer
  · rw [if_pos h₅] at h; exact absurd h (lt_irrefl _)
  rw [if_neg h₅] at h ⊢
  by_cases h₆ : offset ∈ pciBaseAddresses
  · rw [if_pos h₆] at h; exact absurd h (lt_irrefl _)
  rw [if_neg h₆] at h ⊢
  by_cases h₇ : offset = pciRomAddress
  · rw [if_pos h₇] at h ⊢; exact handleEromWrite_error h
  rw [if_neg h₇]

/-! ### Read-only header bytes -/

/-- The header bytes `pci_hdr_write` can change: the command register, the latency timer, the six
BARs, the expansion ROM address and the interrupt line. -/
def HeaderWritable (i : Nat) : Prop :=
  i = pciCommand ∨ i = pciCommand + 1 ∨ i = pciLatencyTimer ∨
    (pciBaseAddress0 ≤ i ∧ i < pciBaseAddress0 + 24) ∨ (pciRomAddress ≤ i ∧ i < pciRomAddress + 4) ∨
    i = pciInterruptLine

instance (i : Nat) : Decidable (HeaderWritable i) := inferInstanceAs (Decidable (_ ∨ _))

theorem ChangesOnly.trans {cfg cfg' cfg'' : Nat → BitVec 8} {lo n : Nat}
    (h₁ : ChangesOnly cfg cfg' lo n) (h₂ : ChangesOnly cfg' cfg'' lo n) : ChangesOnly cfg cfg'' lo n :=
  fun i hi => (h₂ i hi).trans (h₁ i hi)

/-- What `pci_hdr_write` does to the config space, case by case of the offset. -/
theorem pciHdrWrite_cases (cfg : Nat → BitVec 8) (regInfo : Nat → VfuRegInfo)
    (buf : Nat → BitVec 8) (count offset : Nat) :
    (offset = pciCommand ∧
        (pciHdrWrite cfg regInfo buf count offset).2 = (handleCommandWrite cfg buf count).2) ∨
      (pciHdrWrite cfg regInfo buf count offset).2 = cfg ∨
      ((offset = pciInterruptLine ∨ offset = pciLatencyTimer) ∧
        (pciHdrWrite cfg regInfo buf count offset).2 = Function.update cfg offset (buf 0)) ∨
      (offset ∈ pciBaseAddresses ∧
        (pciHdrWrite cfg regInfo buf count offset).2 = pciHdrWriteBar cfg regInfo (barIndex offset) buf) ∨
      (offset = pciRomAddress ∧
        (pciHdrWrite cfg regInfo buf count offset).2 = (handleEromWrite cfg buf count).2) := by
  unfold pciHdrWrite
  by_cases h₁ : offset = pciCommand
  · rw [if_pos h₁]; exact .inl ⟨h₁, rfl⟩
  rw [if_neg h₁]
  by_cases h₂ : offset = pciStatus
  · rw [if_pos h₂]; exact .inr (.inl rfl)
  rw [if_neg h₂]
  by_cases h₃ : offset = pciInterruptPin
  · rw [if_pos h₃]; exact .inr (.inl rfl)
  rw [if_neg h₃]
  by_cases h₄ : offset = pciInterruptLine
  · rw [if_pos h₄]; subst h₄; exact .inr (.inr (.inl ⟨.inl rfl, rfl⟩))
  rw [if_neg h₄]
  by_cases h₅ : offset = pciLatencyTimer
  · rw [if_pos h₅]; subst h₅; exact .inr (.inr (.inl ⟨.inr rfl, rfl⟩))
  rw [if_neg h₅]
  by_cases h₆ : offset ∈ pciBaseAddresses
  · rw [if_pos h₆]; exact .inr (.inr (.inr (.inl ⟨h₆, rfl⟩)))
  rw [if_neg h₆]
  by_cases h₇ : offset = pciRomAddress
  · rw [if_pos h₇]; exact .inr (.inr (.inr (.inr ⟨h₇, rfl⟩)))
  rw [if_neg h₇]
  exact .inr (.inl rfl)

/-- No write changes a header byte outside the registers `pci_hdr_write` emulates. -/
theorem pciHdrWrite_readOnly (cfg : Nat → BitVec 8) (regInfo : Nat → VfuRegInfo)
    (buf : Nat → BitVec 8) (count offset : Nat) {i : Nat} (hi : ¬HeaderWritable i) :
    (pciHdrWrite cfg regInfo buf count offset).2 i = cfg i := by
  simp only [HeaderWritable, pciCommand, pciLatencyTimer, pciBaseAddress0, pciRomAddress,
    pciInterruptLine, not_or] at hi
  rcases pciHdrWrite_cases cfg regInfo buf count offset with
    ⟨-, h⟩ | h | ⟨ho, h⟩ | ⟨hb, h⟩ | ⟨-, h⟩ <;> rw [h]
  · exact handleCommandWrite_changesOnly cfg buf count i (by simp only [pciCommand]; omega)
  · exact Function.update_noteq (by
      simp only [pciInterruptLine, pciLatencyTimer] at ho; omega) _ _
  · have hc := pciHdrWriteBar_changesOnly cfg regInfo (barIndex offset) buf
    rw [barIndex_of_mem hb] at hc
    simp only [pciBaseAddresses, List.mem_cons, List.mem_singleton, List.not_mem_nil,
      or_false] at hb
    exact hc i (by omega)
  · exact handleEromWrite_changesOnly cfg buf count i (by simp only [pciRomAddress]; omega)

/-! ### BARs -/

/-- What `pci_hdr_write_bar` stores in the BAR: the sizing value for `0xffffffff` and the
written value otherwise, with the old value's bits outside the mask. -/
theorem pciBar_pciHdrWriteBar (cfg : Nat → BitVec 8) (regInfo : Nat → VfuRegInfo) (b : Nat)
    (buf : Nat → BitVec 8) (hsize : (regInfo b).size ≠ 0) :
    pciBar (pciHdrWriteBar cfg regInfo b buf) b =
      (if BitVec.ofNat 32 (readLe buf 0 4) = 0xffffffff then (~~~(regInfo b).size + 1).setWidth 32
        else BitVec.ofNat 32 (readLe buf 0 4)) ||| (pciBar cfg b &&& ~~~(barMask (regInfo b))) := by
  rw [pciHdrWriteBar, if_neg hsize]
  exact pciBar_writeLe cfg b _

/-- A write at `PCI_BASE_ADDRESS_0 + 4 i` goes to BAR `i` and succeeds, whatever its count. -/
theorem pciHdrWrite_bar (cfg : Nat → BitVec 8) (regInfo : Nat → VfuRegInfo) (buf : Nat → BitVec 8)
    (count : Nat) {i : Nat} (hi : i < 6) :
    pciHdrWrite cfg regInfo buf count (pciBaseAddress0 + 4 * i) = (0, pciHdrWriteBar cfg regInfo i buf) := by
  interval_cases i <;> rfl

/-! ### `pci_hdr_access` -/

theorem pciHdrAccess_write (cfg : Nat → BitVec 8) (regInfo : Nat → VfuRegInfo) (buf : Nat → BitVec 8)
    {count : Nat} (offset : Nat) (h : count ≤ pciStdHeaderSizeof) :
    pciHdrAccess cfg regInfo buf count offset true =
      some (if (pciHdrWrite cfg regInfo buf count offset).1 < 0 then
        (pciHdrWrite cfg regInfo buf count offset).1 else count,
        (pciHdrWrite cfg regInfo buf count offset).2, buf) := by
  simp only [pciHdrAccess, not_lt.mpr h, if_false, if_true]

theorem pciHdrAccess_write_eq_some {cfg cfg' : Nat → BitVec 8} {regInfo : Nat → VfuRegInfo}
    {buf buf' : Nat → BitVec 8} {count offset : Nat} {ret : Int}
    (h : pciHdrAccess cfg regInfo buf count offset true = some (ret, cfg', buf')) :
    ret = (if (pciHdrWrite cfg regInfo buf count offset).1 < 0 then
      (pciHdrWrite cfg regInfo buf count offset).1 else count) ∧
    cfg' = (pciHdrWrite cfg regInfo buf count offset).2 := by
  unfold pciHdrAccess at h
  split_ifs at h with h₁ h₂
  · simp only [Option.some.injEq, Prod.mk.injEq] at h
    exact ⟨h.1.symm, h.2.1.symm⟩
  · exact absurd rfl h₂

/-- A refused write through `pci_hdr_access` leaves the config space as it was, unless it is a
two-byte write to the command register. -/
theorem pciHdrAccess_refused_unchanged {cfg cfg' : Nat → BitVec 8} {regInfo : Nat → VfuRegInfo}
    {buf buf' : Nat → BitVec 8} {count offset : Nat} {ret : Int}
    (h : pciHdrAccess cfg regInfo buf count offset true = some (ret, cfg', buf')) (hret : ret < 0)
    (hcmd : offset = pciCommand → count ≠ 2) : cfg' = cfg := by
  obtain ⟨hr, rfl⟩ := pciHdrAccess_write_eq_some h
  split_ifs at hr with hneg
  · exact pciHdrWrite_error hneg hcmd
  · omega

theorem pciHdrAccess_refused_unchanged_rom :
    pciHdrAccess (fun _ => 0) (fun _ => ⟨0, false⟩) (fun i => BitVec.ofNat 8 (0x12345678 / 256 ^ i))
        4 pciRomAddress true = some (-Dma.einval, fun _ => 0, fun i => BitVec.ofNat 8 (0x12345678 / 256 ^ i)) ∧
      (fun _ => 0 : Nat → BitVec 8) = fun _ => 0 := by
  have h : pciHdrAccess (fun _ => 0) (fun _ => ⟨0, false⟩)
      (fun i => BitVec.ofNat 8 (0x12345678 / 256 ^ i)) 4 pciRomAddress true =
      some (-Dma.einval, fun _ => 0, fun i => BitVec.ofNat 8 (0x12345678 / 256 ^ i)) := rfl
  exact ⟨h, pciHdrAccess_refused_unchanged h (by decide) (by decide)⟩

/-- Every write through `pci_hdr_access` changes at most the four bytes from its offset. -/
theorem pciHdrAccess_write_changesOnly {cfg cfg' : Nat → BitVec 8} {regInfo : Nat → VfuRegInfo}
    {buf buf' : Nat → BitVec 8} {count offset : Nat} {ret : Int}
    (h : pciHdrAccess cfg regInfo buf count offset true = some (ret, cfg', buf')) :
    ChangesOnly cfg cfg' offset 4 := by
  obtain ⟨-, rfl⟩ := pciHdrAccess_write_eq_some h
  exact pciHdrWrite_changesOnly cfg regInfo buf count offset

theorem pciHdrAccess_write_changesOnly_latency_timer :
    pciHdrAccess (fun _ => 0) (fun _ => ⟨0, false⟩) (fun _ => 7) 1 pciLatencyTimer true =
        some (1, Function.update (fun _ => 0) pciLatencyTimer 7, fun _ => 7) ∧
      ChangesOnly (fun _ => 0) (Function.update (fun _ => 0) pciLatencyTimer 7) pciLatencyTimer 4 := by
  have h : pciHdrAccess (fun _ => 0) (fun _ => ⟨0, false⟩) (fun _ => 7) 1 pciLatencyTimer true =
      some (1, Function.update (fun _ => 0) pciLatencyTimer 7, fun _ => 7) := rfl
  exact ⟨h, pciHdrAccess_write_changesOnly h⟩

/-- A two-byte command write through `pci_hdr_access` that is refused for an unknown flag still
stores the written value's writable bits in the command register. -/
theorem pciHdrAccess_refused_command_stores_flags (cfg : Nat → BitVec 8)
    (regInfo : Nat → VfuRegInfo) (buf : Nat → BitVec 8)
    (h : BitVec.ofNat 16 (readLe buf 0 2) &&& ~~~commandWritableBits &&& ~~~pciCommandVgaPalette ≠ 0) :
    pciHdrAccess cfg regInfo buf 2 pciCommand true =
      some (-Dma.einval, writeLe cfg pciCommand 2 ((BitVec.ofNat 16 (readLe cfg pciCommand 2) &&&
          ~~~commandWritableBits) ||| (BitVec.ofNat 16 (readLe buf 0 2) &&& commandWritableBits)).toNat,
        buf) := by
  have hw : pciHdrWrite cfg regInfo buf 2 pciCommand = handleCommandWrite cfg buf 2 := if_pos rfl
  rw [pciHdrAccess_write _ _ _ _ (by decide), hw, handleCommandWrite_two, if_pos h]
  rfl

theorem pciHdrAccess_refused_command_stores_flags_io_special :
    ∃ cfg', pciHdrAccess (fun _ => 0) (fun _ => ⟨0, false⟩) (fun i => if i = 0 then 9 else 0) 2
        pciCommand true = some (-Dma.einval, cfg', fun i => if i = 0 then 9 else 0) ∧
      cfg' pciCommand = 1 :=
  ⟨_, pciHdrAccess_refused_command_stores_flags _ _ _ (by decide), by decide⟩

/-- A write of any count at the latency timer succeeds and stores one byte; a write of one byte
at a BAR stores four. -/
theorem pciHdrAccess_success_outside_register (cfg : Nat → BitVec 8) (regInfo : Nat → VfuRegInfo)
    (buf : Nat → BitVec 8) :
    pciHdrAccess cfg regInfo buf 4 pciLatencyTimer true =
        some (4, Function.update cfg pciLatencyTimer (buf 0), buf) ∧
      ∃ cfg', pciHdrAccess (fun _ => 0) (fun _ => ⟨0x1000, true⟩)
          (fun i => BitVec.ofNat 8 (0x12345678 / 256 ^ i)) 1 pciBaseAddress0 true =
          some (1, cfg', fun i => BitVec.ofNat 8 (0x12345678 / 256 ^ i)) ∧ cfg' 0x11 = 0x56 :=
  ⟨rfl, _, rfl, by decide⟩

/-- The BAR of a device whose address bits below the region's size read as zero and whose bits
outside the mask are read-only, after `w` is written over `old`. This follows the law stated
for the header's BARs, not the source. -/
def readOnlyBarValue (w old : BitVec 32) (r : VfuRegInfo) : BitVec 32 :=
  (w &&& ~~~(r.size.setWidth 32 - 1) &&& barMask r) ||| (old &&& ~~~barMask r)

/-- Any four-byte write other than `0xffffffff` at a BAR succeeds and stores the written value
whole, with the old value's bits outside the mask. -/
theorem pciHdrAccess_bar_stores_written_value (cfg : Nat → BitVec 8) (regInfo : Nat → VfuRegInfo)
    (buf : Nat → BitVec 8) {i : Nat} (hi : i < 6) (hsize : (regInfo i).size ≠ 0)
    (hw : BitVec.ofNat 32 (readLe buf 0 4) ≠ 0xffffffff) :
    ∃ cfg', pciHdrAccess cfg regInfo buf 4 (pciBaseAddress0 + 4 * i) true = some (4, cfg', buf) ∧
      pciBar cfg' i = BitVec.ofNat 32 (readLe buf 0 4) ||| (pciBar cfg i &&& ~~~barMask (regInfo i)) := by
  refine ⟨_, ?_, (pciBar_pciHdrWriteBar cfg regInfo i buf hsize).trans (by rw [if_neg hw])⟩
  rw [pciHdrAccess_write _ _ _ _ (by decide), pciHdrWrite_bar _ _ _ _ hi]
  rfl

theorem pciHdrAccess_bar_stores_written_value_bar0 :
    ∃ cfg', pciHdrAccess (fun _ => 0) (fun _ => ⟨0x1000, true⟩)
        (fun i => BitVec.ofNat 8 (0x12345678 / 256 ^ i)) 4 (pciBaseAddress0 + 4 * 0) true =
        some (4, cfg', fun i => BitVec.ofNat 8 (0x12345678 / 256 ^ i)) ∧
      pciBar cfg' 0 = 0x12345678 ∧ readOnlyBarValue 0x12345678 0 ⟨0x1000, true⟩ = 0x12345000 := by
  obtain ⟨cfg', hacc, hbar⟩ := pciHdrAccess_bar_stores_written_value (fun _ => 0)
    (fun _ => ⟨0x1000, true⟩) (fun i => BitVec.ofNat 8 (0x12345678 / 256 ^ i))
    (show 0 < 6 by omega) (by decide) (by decide)
  exact ⟨cfg', hacc, by rw [hbar]; decide, by decide⟩

/-- The sizing value `pci_hdr_write_bar` stores for a region of `2 ^ k` bytes is the written
`0xffffffff` with the bits below the size and outside the mask cleared. -/
theorem sizingValue_eq {r : VfuRegInfo} {k : Nat} (hk : k ≤ 31)
    (hsize : r.size = BitVec.ofNat 64 (2 ^ k)) (hmin : (if r.mem then 16 else 4) ≤ 2 ^ k) :
    (~~~r.size + 1).setWidth 32 = 0xffffffff &&& ~~~(r.size.setWidth 32 - 1) &&& barMask r := by
  obtain ⟨s, mem⟩ := r
  simp only at hsize hmin ⊢
  subst hsize
  have h0 : 0 < 2 ^ k := Nat.two_pow_pos k
  have h32 : 2 ^ k < 2 ^ 32 := Nat.pow_lt_pow_right (by omega) (by omega)
  have e64 : (1 : BitVec 64).toNat = 1 := rfl
  have e32 : (1 : BitVec 32).toNat = 1 := rfl
  -- the two's complement of the size is the complement of the bits below it
  have hneg : (~~~BitVec.ofNat 64 (2 ^ k) + 1).setWidth 32 = ~~~BitVec.ofNat 32 (2 ^ k - 1) := by
    apply BitVec.eq_of_toNat_eq
    simp only [BitVec.toNat_setWidth, BitVec.toNat_add, BitVec.toNat_not, BitVec.toNat_ofNat, e64,
      Nat.mod_eq_of_lt (show 2 ^ k < 2 ^ 64 by omega), Nat.reducePow]
    omega
  have hlow : (BitVec.ofNat 64 (2 ^ k)).setWidth 32 - 1 = BitVec.ofNat 32 (2 ^ k - 1) := by
    apply BitVec.eq_of_toNat_eq
    simp only [BitVec.toNat_setWidth, BitVec.toNat_sub, BitVec.toNat_ofNat, e32,
      Nat.mod_eq_of_lt (show 2 ^ k < 2 ^ 64 by omega), Nat.reducePow]
    omega
  -- the flag bits the mask clears lie below the size
  have hf : (if mem then 4 else 2) ≤ k :=
    (Nat.pow_le_pow_iff_right Nat.one_lt_two).mp (by cases mem <;> exact hmin)
  rw [hneg, hlow]
  have hff : (0xffffffff : BitVec 32) = BitVec.ofNat 32 (2 ^ 32 - 1) := rfl
  have h15 : (0x0f : BitVec 32) = BitVec.ofNat 32 (2 ^ 4 - 1) := rfl
  have h3 : (0x03 : BitVec 32) = BitVec.ofNat 32 (2 ^ 2 - 1) := rfl
  ext j
  cases mem <;> simp only [barMask, pciBaseAddressMemMask, pciBaseAddressIoMask, hff, h15, h3,
    BitVec.getLsbD_and, BitVec.getLsbD_not, BitVec.getLsbD_ofNat, Nat.testBit_two_pow_sub_one,
    j.isLt, decide_True, Bool.true_and, if_true, if_false, Bool.false_eq_true] at hf ⊢ <;>
    by_cases hj : (j : Nat) < k <;> simp [hj] <;> omega

/-- The sizing write: for a region whose size is a power of two no smaller than the flag bits,
writing `0xffffffff` to its BAR succeeds and leaves the value the read-only BAR law gives. -/
theorem pciHdrAccess_bar_sizing (cfg : Nat → BitVec 8) (regInfo : Nat → VfuRegInfo)
    (buf : Nat → BitVec 8) {i k : Nat} (hi : i < 6) (hk : k ≤ 31)
    (hsize : (regInfo i).size.toNat = 2 ^ k) (hmin : (if (regInfo i).mem then 16 else 4) ≤ 2 ^ k)
    (hw : BitVec.ofNat 32 (readLe buf 0 4) = 0xffffffff) :
    ∃ cfg', pciHdrAccess cfg regInfo buf 4 (pciBaseAddress0 + 4 * i) true = some (4, cfg', buf) ∧
      pciBar cfg' i = readOnlyBarValue 0xffffffff (pciBar cfg i) (regInfo i) := by
  have hs : (regInfo i).size = BitVec.ofNat 64 (2 ^ k) := by
    apply BitVec.eq_of_toNat_eq
    rw [hsize, BitVec.toNat_ofNat, Nat.mod_eq_of_lt (Nat.pow_lt_pow_right (by omega) (by omega))]
  have hne : (regInfo i).size ≠ 0 := fun h0 => by
    rw [h0] at hsize; exact absurd hsize (Nat.two_pow_pos k).ne
  refine ⟨_, ?_, (pciBar_pciHdrWriteBar cfg regInfo i buf hne).trans ?_⟩
  · rw [pciHdrAccess_write _ _ _ _ (by decide), pciHdrWrite_bar _ _ _ _ hi]
    rfl
  · rw [if_pos hw, readOnlyBarValue, sizingValue_eq hk hs hmin]

theorem pciHdrAccess_bar_sizing_bar0 :
    ∃ cfg', pciHdrAccess (fun _ => 0) (fun _ => ⟨0x1000, true⟩) (fun _ => 0xff) 4
        (pciBaseAddress0 + 4 * 0) true = some (4, cfg', fun _ => 0xff) ∧
      pciBar cfg' 0 = readOnlyBarValue 0xffffffff (pciBar (fun _ => 0) 0) ⟨0x1000, true⟩ :=
  pciHdrAccess_bar_sizing _ _ _ (show 0 < 6 by omega) (show 12 ≤ 31 by omega) (by decide)
    (by decide) (by decide)

end VfioUser.Pci
