import VfioUser.Pci.Device

/-!
# What a run keeps of the standard header

Register by register, what no sequence of setup calls and guest accesses can do to the header,
and what the guest sees of the registers `pci_hdr_write` emulates. Every run result is an
instance of `PciRun.keeps`: a relation between config spaces that every `pci_hdr_write`, every
change past the header and every setup store keep.

Header bytes that neither `pci_hdr_write` emulates nor a setup call stores never change, and
the identity registers read back as `vfu_pci_set_id` stored them. The expansion ROM register
stays as it was or becomes zero, the command bits `handle_command_write` does not emulate keep
their values, and a BAR's flag bits are never cleared, although a guest write can set them.
The guest reads back the byte registers it writes and learns a BAR's size from the sizing
handshake.
-/

namespace VfioUser.Pci

variable {dev : PciDevice} {ctx ctx' : PciCtx}

/-! ### Bytes no call writes -/

/-- The bytes `vfu_pci_set_id` stores. -/
def IdByte (i : Nat) : Prop := i < idDid + 2 ∨ (ssVid ≤ i ∧ i < ssSid + 2)

instance (i : Nat) : Decidable (IdByte i) := inferInstanceAs (Decidable (_ ∨ _))

theorem IdByte.readOnly {i : Nat} (h : IdByte i) : i < pciStdHeaderSizeof ∧ ¬HeaderWritable i := by
  simp only [IdByte, HeaderWritable, idDid, ssVid, ssSid, pciStdHeaderSizeof, pciCommand,
    pciLatencyTimer, pciBaseAddress0, pciRomAddress, pciInterruptLine] at h ⊢
  omega

/-- A header byte that no call writes: neither a register `pci_hdr_write` emulates nor a byte
`vfu_pci_set_id` or `vfu_pci_set_class` stores. -/
def FixedHeaderByte (i : Nat) : Prop :=
  i < pciStdHeaderSizeof ∧ ¬HeaderWritable i ∧ ¬IdByte i ∧ (i < ccPi ∨ ccBcc < i)

instance (i : Nat) : Decidable (FixedHeaderByte i) := inferInstanceAs (Decidable (_ ∧ _))

example : FixedHeaderByte pciStatus ∧ FixedHeaderByte pciInterruptPin ∧ ¬FixedHeaderByte ccScc := by
  decide

theorem FixedHeaderByte.not_setId {i : Nat} (h : FixedHeaderByte i) :
    (i < idVid ∨ idVid + 4 ≤ i) ∧ (i < ssVid ∨ ssVid + 4 ≤ i) := by
  have := h.2.2.1
  simp only [IdByte, idVid, idDid, ssVid, ssSid] at this ⊢
  omega

theorem FixedHeaderByte.not_setClass {i : Nat} (h : FixedHeaderByte i) : i < ccPi ∨ ccPi + 3 ≤ i := by
  have := h.2.2.2
  simp only [ccPi, ccBcc] at this ⊢
  omega

/-- On a well-formed device whose config space is set up, whatever the guest writes and whatever
setup calls follow, every header byte that no call writes (the status register, the revision,
the header type, the capability pointer, the interrupt pin among them) keeps its value. -/
theorem pciRun_fixed_header_bytes_kept (hwf : dev.Wf) {tr : List (PciOp × PciOut)}
    (hr : PciRun dev ctx tr ctx') {cfg : Nat → BitVec 8} (hcfg : ctx.configSpace = some cfg) :
    ∃ cfg', vfuPciGetConfigSpace ctx' = some cfg' ∧ ∀ i, FixedHeaderByte i → cfg' i = cfg i :=
  hr.keeps hwf (R := fun a b => ∀ i, FixedHeaderByte i → b i = a i) (fun _ _ _ => rfl)
    (fun h₁ h₂ i hi => (h₂ i hi).trans (h₁ i hi))
    (fun c buf count offset _ hi => pciHdrWrite_readOnly c _ buf count offset hi.2.1)
    (fun hlo hch i hi => hch i (.inl (lt_of_lt_of_le hi.1 hlo)))
    (fun hch i hi => hch i hi.not_setClass)
    (@fun _ _ _ _ _ _ _ _ _ h i hi => h.elim (· i hi.not_setId.1) (· i hi.not_setId.2)) hcfg

theorem pciRun_fixed_header_bytes_kept_guest_writes :
    ∃ tr ctx', PciRun readOnlyCapDevice ⟨.conventional, some fun _ => 0x11, pciCfgSpaceSize⟩ tr ctx' ∧
      tr.map Prod.fst = [.access true 2 pciStatus fun _ => 0xff,
        .access true 4 0x3c fun _ => 0xff, .setClass 0x02 0x00 0x00] ∧
      ∃ cfg', vfuPciGetConfigSpace ctx' = some cfg' ∧ ∀ i, FixedHeaderByte i → cfg' i = 0x11 := by
  have hr : PciRun readOnlyCapDevice ⟨.conventional, some fun _ => 0x11, pciCfgSpaceSize⟩
      [(.access true 2 pciStatus fun _ => 0xff, _), (.access true 4 0x3c fun _ => 0xff, _),
        (.setClass 0x02 0x00 0x00, _)] _ :=
    .cons rfl (.cons rfl (.cons rfl (.nil _)))
  exact ⟨_, _, hr, rfl, pciRun_fixed_header_bytes_kept readOnlyCapDevice_wf hr rfl⟩

/-! ### The identity registers -/

/-- After `vfu_pci_set_id`, whatever calls follow other than another `vfu_pci_set_id` (guest
writes to the header included), the vendor, device, subsystem vendor and subsystem ids read
back from the config space as stored, and a guest read in the header returns those bytes. -/
theorem vfuPciSetId_ids_kept (hwf : dev.Wf) {vid did ssvid ssid : BitVec 16} {out : PciOut}
    {tr : List (PciOp × PciOut)} (hr : PciRun dev ctx ((.setId vid did ssvid ssid, out) :: tr) ctx')
    (hno : ∀ e ∈ tr, ∀ vid did ssvid ssid, e.1 ≠ .setId vid did ssvid ssid) :
    ∃ cfg, vfuPciGetConfigSpace ctx' = some cfg ∧ readLe cfg idVid 2 = vid.toNat ∧
      readLe cfg idDid 2 = did.toNat ∧ readLe cfg ssVid 2 = ssvid.toNat ∧
      readLe cfg ssSid 2 = ssid.toNat ∧
      ∀ (n : BitVec 64) offset buf, 0 < n.toNat → offset + n.toNat ≤ pciStdHeaderSizeof →
        pciExec dev ctx' (.access false n offset buf) =
          .ok (ctx', .access n.toNat (memcpyFromCfg cfg buf n.toNat offset)) := by
  cases hr with
  | cons h rest =>
      obtain ⟨cfg, hcfg, hv, hd, hsv, hss⟩ := vfuPciSetId_readLe (pciExec_setId_eq_ok h).1
      obtain ⟨cfg', hcfg', hkeep⟩ := rest.keeps hwf (R := fun a b => ∀ i, IdByte i → b i = a i)
        (fun _ _ _ => rfl) (fun h₁ h₂ i hi => (h₂ i hi).trans (h₁ i hi))
        (fun c buf count offset i hi => pciHdrWrite_readOnly c _ buf count offset hi.readOnly.2)
        (fun hlo hch i hi => hch i (.inl (lt_of_lt_of_le hi.readOnly.1 hlo)))
        (fun hch i hi => hch i (by simp only [IdByte, ccPi, idDid, ssVid, ssSid] at hi ⊢; omega))
        (fun e he vid did ssvid ssid heq => absurd heq (hno e he vid did ssvid ssid)) hcfg
      have hread : ∀ off, IdByte off → IdByte (off + 1) → readLe cfg' off 2 = readLe cfg off 2 :=
        fun off h₀ h₁ => readLe_congr 2 fun i hi₁ hi₂ =>
          hkeep i (by rcases Nat.lt_or_ge i (off + 1) with h | h
                      · rwa [show i = off by omega]
                      · rwa [show i = off + 1 by omega])
      simp only [IdByte, idVid, idDid, ssVid, ssSid] at hread hv hd hsv hss ⊢
      exact ⟨cfg', hcfg', (hread 0 (by omega) (by omega)).trans hv,
        (hread 2 (by omega) (by omega)).trans hd, (hread 0x2c (by omega) (by omega)).trans hsv,
        (hread 0x2e (by omega) (by omega)).trans hss, fun n o buf h0 h => pciExec_hdr_read hcfg' h0 h buf⟩

theorem vfuPciSetId_ids_kept_guest_write :
    ∃ tr ctx', PciRun readOnlyCapDevice ⟨.conventional, some fun _ => 0, pciCfgSpaceSize⟩ tr ctx' ∧
      tr.map Prod.fst = [.setId 0x4e58 0x0001 0x1af4 0x1100, .access true 2 idVid fun _ => 0xff,
        .setClass 0x02 0x00 0x00] ∧
      ∃ cfg, vfuPciGetConfigSpace ctx' = some cfg ∧ readLe cfg idVid 2 = 0x4e58 ∧
        readLe cfg idDid 2 = 0x0001 ∧ readLe cfg ssVid 2 = 0x1af4 ∧ readLe cfg ssSid 2 = 0x1100 ∧
        ∀ (n : BitVec 64) offset buf, 0 < n.toNat → offset + n.toNat ≤ pciStdHeaderSizeof →
          pciExec readOnlyCapDevice ctx' (.access false n offset buf) =
            .ok (ctx', .access n.toNat (memcpyFromCfg cfg buf n.toNat offset)) := by
  have hr : PciRun readOnlyCapDevice ⟨.conventional, some fun _ => 0, pciCfgSpaceSize⟩
      [(.setId 0x4e58 0x0001 0x1af4 0x1100, _), (.access true 2 idVid fun _ => 0xff, _),
        (.setClass 0x02 0x00 0x00, _)] _ :=
    .cons rfl (.cons rfl (.cons rfl (.nil _)))
  exact ⟨_, _, hr, rfl, vfuPciSetId_ids_kept readOnlyCapDevice_wf hr (by simp)⟩

/-! ### The expansion ROM register -/

/-- The expansion ROM register of `cfg'` is that of `cfg`, or zero. -/
def EromKept (cfg cfg' : Nat → BitVec 8) : Prop :=
  (∀ j < 4, cfg' (pciRomAddress + j) = cfg (pciRomAddress + j)) ∨
    ∀ j < 4, cfg' (pciRomAddress + j) = 0

theorem EromKept.of_changesOnly {cfg cfg' : Nat → BitVec 8} {lo n : Nat} (h : ChangesOnly cfg cfg' lo n)
    (hd : lo + n ≤ pciRomAddress ∨ pciRomAddress + 4 ≤ lo) : EromKept cfg cfg' :=
  .inl fun _ _ => h _ (by omega)

theorem EromKept.trans {cfg cfg' cfg'' : Nat → BitVec 8} (h₁ : EromKept cfg cfg')
    (h₂ : EromKept cfg' cfg'') : EromKept cfg cfg'' := by
  rcases h₂ with h₂ | h₂
  · rcases h₁ with h₁ | h₁
    · exact .inl fun j hj => (h₂ j hj).trans (h₁ j hj)
    · exact .inr fun j hj => (h₂ j hj).trans (h₁ j hj)
  · exact .inr h₂

/-- Storing zero clears every byte it covers. -/
theorem writeLe_zero_of_mem (mem : Nat → BitVec 8) {off n i : Nat} (h₁ : off ≤ i) (h₂ : i < off + n) :
    writeLe mem off n 0 i = 0 := by
  induction n generalizing off with
  | zero => omega
  | succ n ih =>
      rw [writeLe, Nat.zero_div]
      by_cases hi : i = off
      · subst hi; rw [Function.update_same]; rfl
      · rw [Function.update_noteq hi, ih (by omega) (by omega)]

/-- `handle_erom_write` keeps the expansion ROM register or clears it. -/
theorem handleEromWrite_eromKept (cfg buf : Nat → BitVec 8) (count : Nat) :
    EromKept cfg (handleEromWrite cfg buf count).2 := by
  unfold handleEromWrite
  dsimp only
  split_ifs
  all_goals first
    | exact .inl fun _ _ => rfl
    | exact .inr fun j hj => writeLe_zero_of_mem cfg (by omega) (by omega)

/-- No header write stores an expansion ROM address: at `PCI_ROM_ADDRESS` the register is kept
or cleared, and no other register overlaps it. -/
theorem pciHdrWrite_eromKept (cfg : Nat → BitVec 8) (regInfo : Nat → VfuRegInfo)
    (buf : Nat → BitVec 8) (count offset : Nat) :
    EromKept cfg (pciHdrWrite cfg regInfo buf count offset).2 := by
  rcases pciHdrWrite_cases cfg regInfo buf count offset with
    ⟨-, h⟩ | h | ⟨ho, h⟩ | ⟨ho, h⟩ | ⟨-, h⟩ <;> rw [h]
  · exact .of_changesOnly (handleCommandWrite_changesOnly cfg buf count) (.inl (by decide))
  · exact .inl fun _ _ => rfl
  · exact .of_changesOnly (update_changesOnly cfg offset (buf 0))
      (by rcases ho with rfl | rfl <;> decide)
  · have hb := pciHdrWriteBar_changesOnly cfg regInfo (barIndex offset) buf
    rw [barIndex_of_mem ho] at hb
    refine .of_changesOnly hb (.inl ?_)
    simp only [pciBaseAddresses, List.mem_cons, List.mem_singleton, List.not_mem_nil, or_false] at ho
    simp only [pciRomAddress]
    omega
  · exact handleEromWrite_eromKept cfg buf count

/-- On a well-formed device whose config space is set up, whatever the guest writes and whatever
setup calls follow, the expansion ROM base address register ends as it started or zero: no
call ever stores a ROM address there. -/
theorem pciRun_erom_kept_or_cleared (hwf : dev.Wf) {tr : List (PciOp × PciOut)}
    (hr : PciRun dev ctx tr ctx') {cfg : Nat → BitVec 8} (hcfg : ctx.configSpace = some cfg) :
    ∃ cfg', vfuPciGetConfigSpace ctx' = some cfg' ∧
      (readLe cfg' pciRomAddress 4 = readLe cfg pciRomAddress 4 ∨ readLe cfg' pciRomAddress 4 = 0) := by
  obtain ⟨cfg', hcfg', hkeep⟩ := hr.keeps hwf (R := EromKept) (fun _ => .inl fun _ _ => rfl)
    .trans (fun c buf count offset => pciHdrWrite_eromKept c _ buf count offset)
    (fun hlo hch => .of_changesOnly hch (.inr (le_trans (by decide) hlo)))
    (fun hch => .of_changesOnly hch (.inl (by decide)))
    (@fun _ _ _ _ _ _ _ _ _ h => h.elim (.of_changesOnly · (.inl (by decide)))
      (.of_changesOnly · (.inl (by decide)))) hcfg
  refine ⟨cfg', hcfg', ?_⟩
  rcases hkeep with hk | hk
  · exact .inl (readLe_congr 4 fun i h₁ h₂ => by
      simpa [Nat.add_sub_cancel' h₁] using hk (i - pciRomAddress) (by omega))
  · exact .inr ((readLe_congr 4 fun i h₁ h₂ => by
      simpa [Nat.add_sub_cancel' h₁] using hk (i - pciRomAddress) (by omega)).trans
      (show readLe (fun _ => 0) pciRomAddress 4 = 0 from rfl))

theorem pciRun_erom_kept_or_cleared_guest_writes :
    ∃ tr ctx', PciRun readOnlyCapDevice ⟨.conventional, some fun _ => 0x11, pciCfgSpaceSize⟩ tr ctx' ∧
      tr.map Prod.fst = [.access true 4 pciRomAddress fun _ => 0x22,
        .access true 4 pciRomAddress fun _ => 0] ∧
      ∃ cfg', vfuPciGetConfigSpace ctx' = some cfg' ∧
        (readLe cfg' pciRomAddress 4 = readLe (fun _ => 0x11) pciRomAddress 4 ∨
          readLe cfg' pciRomAddress 4 = 0) := by
  have hr : PciRun readOnlyCapDevice ⟨.conventional, some fun _ => 0x11, pciCfgSpaceSize⟩
      [(.access true 4 pciRomAddress fun _ => 0x22, _), (.access true 4 pciRomAddress fun _ => 0, _)] _ :=
    .cons rfl (.cons rfl (.nil _))
  exact ⟨_, _, hr, rfl, pciRun_erom_kept_or_cleared readOnlyCapDevice_wf hr rfl⟩

/-! ### The command register -/

/-- The bits of the command register of `cfg'` that `handle_command_write` does not write are
those of `cfg`. -/
def CommandKept (cfg cfg' : Nat → BitVec 8) : Prop :=
  BitVec.ofNat 16 (readLe cfg' pciCommand 2) &&& ~~~commandWritableBits =
    BitVec.ofNat 16 (readLe cfg pciCommand 2) &&& ~~~commandWritableBits

theorem CommandKept.of_changesOnly {cfg cfg' : Nat → BitVec 8} {lo n : Nat}
    (h : ChangesOnly cfg cfg' lo n) (hd : lo + n ≤ pciCommand ∨ pciCommand + 2 ≤ lo) :
    CommandKept cfg cfg' := by
  rw [CommandKept, readLe_congr 2 fun i h₁ h₂ => h i (by omega)]

theorem CommandKept.trans {cfg cfg' cfg'' : Nat → BitVec 8} (h₁ : CommandKept cfg cfg')
    (h₂ : CommandKept cfg' cfg'') : CommandKept cfg cfg'' :=
  Eq.trans h₂ h₁

/-- `handle_command_write` stores the written value's writable bits over the register's others. -/
theorem handleCommandWrite_commandKept (cfg buf : Nat → BitVec 8) (count : Nat) :
    CommandKept cfg (handleCommandWrite cfg buf count).2 := by
  by_cases h2 : count = 2
  · subst h2
    have h16 : ∀ x : BitVec 16, x.toNat % 256 ^ 2 = x.toNat := fun x => Nat.mod_eq_of_lt x.isLt
    rw [handleCommandWrite_two, CommandKept, readLe_writeLe, h16, BitVec.ofNat_toNat,
      BitVec.setWidth_eq]
    ext j
    simp only [BitVec.getLsbD_and, BitVec.getLsbD_or, BitVec.getLsbD_not, j.isLt, decide_True,
      Bool.true_and]
    cases (BitVec.ofNat 16 (readLe cfg pciCommand 2)).getLsbD j <;>
      cases commandWritableBits.getLsbD j <;> simp
  · rw [handleCommandWrite, if_pos h2]
    exact rfl

/-- No header write changes a command bit `handle_command_write` does not write: no other register
overlaps the command register. -/
theorem pciHdrWrite_commandKept (cfg : Nat → BitVec 8) (regInfo : Nat → VfuRegInfo)
    (buf : Nat → BitVec 8) (count offset : Nat) :
    CommandKept cfg (pciHdrWrite cfg regInfo buf count offset).2 := by
  rcases pciHdrWrite_cases cfg regInfo buf count offset with
    ⟨-, h⟩ | h | ⟨ho, h⟩ | ⟨-, h⟩ | ⟨-, h⟩ <;> rw [h]
  · exact handleCommandWrite_commandKept cfg buf count
  · exact rfl
  · exact .of_changesOnly (update_changesOnly cfg offset (buf 0))
      (.inr (by rcases ho with rfl | rfl <;> decide))
  · exact .of_changesOnly (pciHdrWriteBar_changesOnly cfg regInfo (barIndex offset) buf)
      (.inr (by simp only [pciCommand, pciBaseAddress0]; omega))
  · exact .of_changesOnly (handleEromWrite_changesOnly cfg buf count) (.inr (by decide))

/-- On a well-formed device whose config space is set up, whatever the guest writes and whatever
setup calls follow, the command register bits that `handle_command_write` does not write (all
but IO, MEMORY, MASTER, INVALIDATE, SERR and INTX_DISABLE) keep the values they started with. -/
theorem pciRun_command_reserved_kept (hwf : dev.Wf) {tr : List (PciOp × PciOut)}
    (hr : PciRun dev ctx tr ctx') {cfg : Nat → BitVec 8} (hcfg : ctx.configSpace = some cfg) :
    ∃ cfg', vfuPciGetConfigSpace ctx' = some cfg' ∧
      BitVec.ofNat 16 (readLe cfg' pciCommand 2) &&& ~~~commandWritableBits =
        BitVec.ofNat 16 (readLe cfg pciCommand 2) &&& ~~~commandWritableBits :=
  hr.keeps hwf (R := CommandKept) (fun _ => rfl) .trans
    (fun c buf count offset => pciHdrWrite_commandKept c _ buf count offset)
    (fun hlo hch => .of_changesOnly hch (.inr (le_trans (by decide) hlo)))
    (fun hch => .of_changesOnly hch (.inr (by decide)))
    (@fun _ _ _ _ _ _ _ _ _ h => h.elim (.of_changesOnly · (.inl (by decide)))
      (.of_changesOnly · (.inr (by decide)))) hcfg

/-- A guest sets every command bit and then clears them all: the bits the emulation does not
write keep the `0x8888` they started with. -/
theorem pciRun_command_reserved_kept_guest_writes :
    ∃ tr ctx', PciRun readOnlyCapDevice ⟨.conventional, some fun _ => 0x88, pciCfgSpaceSize⟩ tr ctx' ∧
      tr.map Prod.fst = [.access true 2 pciCommand fun _ => 0xff,
        .access true 2 pciCommand fun _ => 0] ∧
      ∃ cfg', vfuPciGetConfigSpace ctx' = some cfg' ∧
        BitVec.ofNat 16 (readLe cfg' pciCommand 2) &&& ~~~commandWritableBits =
          BitVec.ofNat 16 (readLe (fun _ => 0x88) pciCommand 2) &&& ~~~commandWritableBits := by
  have hr : PciRun readOnlyCapDevice ⟨.conventional, some fun _ => 0x88, pciCfgSpaceSize⟩
      [(.access true 2 pciCommand fun _ => 0xff, _), (.access true 2 pciCommand fun _ => 0, _)] _ :=
    .cons rfl (.cons rfl (.nil _))
  exact ⟨_, _, hr, rfl, pciRun_command_reserved_kept readOnlyCapDevice_wf hr rfl⟩

/-! ### BAR flags -/

/-- Every flag bit of BAR `i`, a bit outside its address mask, that is set in `cfg` is set in
`cfg'`. -/
def BarFlagsKept (regInfo : Nat → VfuRegInfo) (i : Nat) (cfg cfg' : Nat → BitVec 8) : Prop :=
  pciBar cfg i &&& ~~~barMask (regInfo i) &&& ~~~pciBar cfg' i = 0

theorem BarFlagsKept.refl (regInfo : Nat → VfuRegInfo) (i : Nat) (cfg : Nat → BitVec 8) :
    BarFlagsKept regInfo i cfg cfg := by
  unfold BarFlagsKept
  ext j
  simp only [BitVec.getLsbD_and, BitVec.getLsbD_not, BitVec.getLsbD_zero, j.isLt, decide_True,
    Bool.true_and]
  cases (pciBar cfg i).getLsbD j <;> simp

theorem BarFlagsKept.trans {regInfo : Nat → VfuRegInfo} {i : Nat} {cfg cfg' cfg'' : Nat → BitVec 8}
    (h₁ : BarFlagsKept regInfo i cfg cfg') (h₂ : BarFlagsKept regInfo i cfg' cfg'') :
    BarFlagsKept regInfo i cfg cfg'' := by
  unfold BarFlagsKept at *
  ext j
  have e₁ := congrArg (·.getLsbD j) h₁
  have e₂ := congrArg (·.getLsbD j) h₂
  simp only [BitVec.getLsbD_and, BitVec.getLsbD_not, BitVec.getLsbD_zero, j.isLt, decide_True,
    Bool.true_and] at e₁ e₂ ⊢
  revert e₁ e₂
  cases (pciBar cfg i).getLsbD j <;> cases (pciBar cfg' i).getLsbD j <;>
    cases (pciBar cfg'' i).getLsbD j <;> simp

theorem BarFlagsKept.of_changesOnly {regInfo : Nat → VfuRegInfo} {i : Nat} {cfg cfg' : Nat → BitVec 8}
    {lo n : Nat} (h : ChangesOnly cfg cfg' lo n)
    (hd : lo + n ≤ pciBaseAddress0 + 4 * i ∨ pciBaseAddress0 + 4 * i + 4 ≤ lo) :
    BarFlagsKept regInfo i cfg cfg' := by
  have hbar : pciBar cfg' i = pciBar cfg i := by
    rw [pciBar, pciBar, readLe_congr 4 fun j h₁ h₂ => h j (by omega)]
  unfold BarFlagsKept
  rw [hbar]
  exact BarFlagsKept.refl regInfo i cfg

/-- `pci_hdr_write_bar` ORs the old flag bits into what it stores, and touches no other BAR. -/
theorem pciHdrWriteBar_barFlagsKept (cfg : Nat → BitVec 8) (regInfo : Nat → VfuRegInfo) (b : Nat)
    (buf : Nat → BitVec 8) (i : Nat) : BarFlagsKept regInfo i cfg (pciHdrWriteBar cfg regInfo b buf) := by
  by_cases hb : b = i
  · subst hb
    by_cases hs : (regInfo b).size = 0
    · rw [pciHdrWriteBar, if_pos hs]
      exact .refl regInfo b cfg
    · unfold BarFlagsKept
      rw [pciBar_pciHdrWriteBar cfg regInfo b buf hs]
      ext j
      simp only [BitVec.getLsbD_and, BitVec.getLsbD_or, BitVec.getLsbD_not, BitVec.getLsbD_zero,
        j.isLt, decide_True, Bool.true_and]
      cases (pciBar cfg b).getLsbD j <;> cases (barMask (regInfo b)).getLsbD j <;> simp
  · exact .of_changesOnly (pciHdrWriteBar_changesOnly cfg regInfo b buf) (by omega)

/-- No header write clears a flag bit of a BAR. -/
theorem pciHdrWrite_barFlagsKept (cfg : Nat → BitVec 8) (regInfo : Nat → VfuRegInfo)
    (buf : Nat → BitVec 8) (count offset : Nat) {i : Nat} (hi : i < 6) :
    BarFlagsKept regInfo i cfg (pciHdrWrite cfg regInfo buf count offset).2 := by
  rcases pciHdrWrite_cases cfg regInfo buf count offset with
    ⟨-, h⟩ | h | ⟨ho, h⟩ | ⟨-, h⟩ | ⟨-, h⟩ <;> rw [h]
  · exact .of_changesOnly (handleCommandWrite_changesOnly cfg buf count)
      (.inl (by simp only [pciCommand, pciBaseAddress0]; omega))
  · exact .refl regInfo i cfg
  · exact .of_changesOnly (update_changesOnly cfg offset (buf 0)) (by
      rcases ho with rfl | rfl <;> simp only [pciInterruptLine, pciLatencyTimer, pciBaseAddress0] <;>
        omega)
  · exact pciHdrWriteBar_barFlagsKept cfg regInfo _ buf i
  · exact .of_changesOnly (handleEromWrite_changesOnly cfg buf count)
      (.inr (by simp only [pciRomAddress, pciBaseAddress0]; omega))

/-- On a well-formed device whose config space is set up, whatever the guest writes and whatever
setup calls follow, every flag bit of a BAR (its I/O-space bit, and a memory BAR's type and
prefetchable bits) that is set at the start is still set at the end. -/
theorem pciRun_bar_flags_sticky (hwf : dev.Wf) {tr : List (PciOp × PciOut)}
    (hr : PciRun dev ctx tr ctx') {cfg : Nat → BitVec 8} (hcfg : ctx.configSpace = some cfg)
    {i : Nat} (hi : i < 6) :
    ∃ cfg', vfuPciGetConfigSpace ctx' = some cfg' ∧
      pciBar cfg i &&& ~~~barMask (dev.regInfo i) &&& ~~~pciBar cfg' i = 0 :=
  hr.keeps hwf (R := BarFlagsKept dev.regInfo i) (BarFlagsKept.refl _ i) .trans
    (fun c buf count offset => pciHdrWrite_barFlagsKept c _ buf count offset hi)
    (fun hlo hch => .of_changesOnly hch
      (.inr (le_trans (by simp only [pciBaseAddress0, pciStdHeaderSizeof]; omega) hlo)))
    (fun hch => .of_changesOnly hch (.inl (by simp only [ccPi, pciBaseAddress0]; omega)))
    (@fun _ _ _ _ _ _ _ _ _ h => h.elim
      (.of_changesOnly · (.inl (by simp only [idVid, pciBaseAddress0]; omega)))
      (.of_changesOnly · (.inr (by simp only [ssVid, pciBaseAddress0]; omega)))) hcfg

/-- BAR 0 of `readOnlyCapDevice` starts as a prefetchable 64-bit memory BAR; the guest writes
zero over it and then sizes it, and its flag bits stay set. -/
theorem pciRun_bar_flags_sticky_bar0 :
    ∃ tr ctx', PciRun readOnlyCapDevice ⟨.conventional, some fun _ => 0x0c, pciCfgSpaceSize⟩ tr ctx' ∧
      tr.map Prod.fst = [.access true 4 pciBaseAddress0 fun _ => 0,
        .access true 4 pciBaseAddress0 fun _ => 0xff] ∧
      ∃ cfg', vfuPciGetConfigSpace ctx' = some cfg' ∧
        pciBar (fun _ => 0x0c) 0 &&& ~~~barMask (readOnlyCapDevice.regInfo 0) &&& ~~~pciBar cfg' 0 = 0 := by
  have hr : PciRun readOnlyCapDevice ⟨.conventional, some fun _ => 0x0c, pciCfgSpaceSize⟩
      [(.access true 4 pciBaseAddress0 fun _ => 0, _), (.access true 4 pciBaseAddress0 fun _ => 0xff, _)] _ :=
    .cons rfl (.cons rfl (.nil _))
  exact ⟨_, _, hr, rfl, pciRun_bar_flags_sticky readOnlyCapDevice_wf hr rfl (by decide)⟩

/-! ### The byte registers -/

/-- `pci_hdr_write` stores the first byte written at the interrupt line or the latency timer,
whatever the count, and takes the write. -/
theorem pciHdrWrite_byteRegister (cfg : Nat → BitVec 8) (regInfo : Nat → VfuRegInfo)
    (buf : Nat → BitVec 8) (count : Nat) {o : Nat} (ho : o = pciInterruptLine ∨ o = pciLatencyTimer) :
    pciHdrWrite cfg regInfo buf count o = (0, Function.update cfg o (buf 0)) := by
  rcases ho with rfl | rfl <;> rfl

/-- A guest write of any length at the interrupt line or the latency timer returns the whole
count but stores only its first byte; a guest read of the register then returns that byte. -/
theorem pciExec_byteRegister_roundTrip {cfg : Nat → BitVec 8} (hcfg : ctx.configSpace = some cfg)
    {o : Nat} (ho : o = pciInterruptLine ∨ o = pciLatencyTimer) {n : BitVec 64} (h0 : 0 < n.toNat)
    (h : o + n.toNat ≤ pciStdHeaderSizeof) (buf : Nat → BitVec 8) :
    ∃ ctx₁, pciExec dev ctx (.access true n o buf) = .ok (ctx₁, .access n.toNat buf) ∧
      ctx₁.configSpace = some (Function.update cfg o (buf 0)) ∧
      ∀ buf', ∃ v, pciExec dev ctx₁ (.access false 1 o buf') = .ok (ctx₁, .access 1 v) ∧
        v 0 = buf 0 := by
  have hw := pciHdrWrite_byteRegister cfg dev.regInfo buf n.toNat ho
  refine ⟨_, pciExec_hdr_write hcfg h0 h buf (by rw [hw]), by rw [hw], fun buf' => ⟨_,
    pciExec_hdr_read (by rw [hw]) (by decide) (by rcases ho with rfl | rfl <;> decide) buf', ?_⟩⟩
  simp [memcpyFromCfg]

theorem pciExec_byteRegister_roundTrip_interruptLine :
    ∃ ctx₁, pciExec readOnlyCapDevice ⟨.conventional, some fun _ => 0, pciCfgSpaceSize⟩
        (.access true 2 pciInterruptLine fun _ => 0x0b) = .ok (ctx₁, .access 2 fun _ => 0x0b) ∧
      ctx₁.configSpace = some (Function.update (fun _ => 0) pciInterruptLine 0x0b) ∧
      ∀ buf', ∃ v, pciExec readOnlyCapDevice ctx₁ (.access false 1 pciInterruptLine buf') =
        .ok (ctx₁, .access 1 v) ∧ v 0 = 0x0b :=
  pciExec_byteRegister_roundTrip rfl (.inl rfl) (by decide) (by decide) _

/-! ### Sizing a BAR -/

/-- The copied bytes read back from the start of the buffer. -/
theorem readLe_memcpyFromCfg (cfg buf : Nat → BitVec 8) (n offset : Nat) :
    readLe (memcpyFromCfg cfg buf n offset) 0 n = readLe cfg offset n := by
  suffices ∀ j m, j + m ≤ n → readLe (memcpyFromCfg cfg buf n offset) j m = readLe cfg (offset + j) m
    from this 0 n (by omega)
  intro j m
  induction m generalizing j with
  | zero => intro; rfl
  | succ m ih =>
      intro hjm
      rw [readLe, readLe, ih (j + 1) (by omega), memcpyFromCfg, if_pos (by omega),
        Nat.add_assoc]

/-- What the guest reads back after writing all ones to a BAR of `2 ^ k` bytes: the address bits
give the size back, and the flag bits are the old ones. -/
theorem barSizing_readBack {r : VfuRegInfo} {k : Nat} (hk : k ≤ 31)
    (hsize : r.size = BitVec.ofNat 64 (2 ^ k)) (hmin : (if r.mem then 16 else 4) ≤ 2 ^ k)
    (old : BitVec 32) :
    ~~~(((~~~r.size + 1).setWidth 32 ||| (old &&& ~~~barMask r)) &&& barMask r) + 1 =
        r.size.setWidth 32 ∧
      ((~~~r.size + 1).setWidth 32 ||| (old &&& ~~~barMask r)) &&& ~~~barMask r =
        old &&& ~~~barMask r := by
  have hc := sizingValue_eq hk hsize hmin
  have hneg : ~~~((~~~r.size + 1).setWidth 32) + 1 = r.size.setWidth 32 := by bv_omega
  generalize (~~~r.size + 1).setWidth 32 = c at hc hneg ⊢
  generalize barMask r = m at hc ⊢
  have h₁ : c &&& m = c := by rw [hc, BitVec.and_assoc, BitVec.and_self]
  have h₂ : c &&& ~~~m = 0 := by rw [hc]; ext j; simp
  refine ⟨?_, ?_⟩
  · suffices (c ||| (old &&& ~~~m)) &&& m = c by rw [this, hneg]
    ext j
    have := congrArg (·.getLsbD j) h₁
    revert this
    simp only [BitVec.getLsbD_and, BitVec.getLsbD_or, BitVec.getLsbD_not]
    cases c.getLsbD j <;> cases old.getLsbD j <;> cases m.getLsbD j <;> simp
  · ext j
    have := congrArg (·.getLsbD j) h₂
    revert this
    simp only [BitVec.getLsbD_and, BitVec.getLsbD_or, BitVec.getLsbD_not, BitVec.getLsbD_zero]
    cases c.getLsbD j <;> cases old.getLsbD j <;> cases m.getLsbD j <;> simp

/-- The guest's sizing of a BAR whose region has `2 ^ k` bytes, no fewer than its flag bits
cover: a four-byte write of all ones to the BAR succeeds, and the four bytes a read of the BAR
then returns have address bits from which `~(v & mask) + 1` gives the region's size, and the
BAR's old flag bits. -/
theorem pciExec_bar_sizing {cfg : Nat → BitVec 8} (hcfg : ctx.configSpace = some cfg) {i k : Nat}
    (hi : i < 6) (hk : k ≤ 31) (hsize : (dev.regInfo i).size = BitVec.ofNat 64 (2 ^ k))
    (hmin : (if (dev.regInfo i).mem then 16 else 4) ≤ 2 ^ k) (ones buf : Nat → BitVec 8)
    (hw : BitVec.ofNat 32 (readLe ones 0 4) = 0xffffffff) :
    ∃ ctx₁ v, pciExec dev ctx (.access true 4 (pciBaseAddress0 + 4 * i) ones) =
        .ok (ctx₁, .access 4 ones) ∧
      pciExec dev ctx₁ (.access false 4 (pciBaseAddress0 + 4 * i) buf) = .ok (ctx₁, .access 4 v) ∧
      ~~~(BitVec.ofNat 32 (readLe v 0 4) &&& barMask (dev.regInfo i)) + 1 =
        (dev.regInfo i).size.setWidth 32 ∧
      BitVec.ofNat 32 (readLe v 0 4) &&& ~~~barMask (dev.regInfo i) =
        pciBar cfg i &&& ~~~barMask (dev.regInfo i) := by
  have h4 : (4 : BitVec 64).toNat = 4 := rfl
  have hb : pciBaseAddress0 + 4 * i + (4 : BitVec 64).toNat ≤ pciStdHeaderSizeof := by
    simp only [h4, pciBaseAddress0, pciStdHeaderSizeof]; omega
  have hwrite := pciHdrWrite_bar cfg dev.regInfo ones 4 hi
  have hne : (dev.regInfo i).size ≠ 0 := by
    have hlt : 2 ^ k < 2 ^ 64 := Nat.pow_lt_pow_right (by omega) (by omega)
    rw [hsize]
    intro h
    have := congrArg BitVec.toNat h
    simp only [BitVec.toNat_ofNat, Nat.mod_eq_of_lt hlt, Nat.zero_mod] at this
    exact (Nat.two_pow_pos k).ne' this
  refine ⟨_, _, pciExec_hdr_write hcfg (by rw [h4]; omega) hb ones (by rw [h4, hwrite]),
    pciExec_hdr_read rfl (by rw [h4]; omega) hb buf, ?_⟩
  have hbar := pciBar_pciHdrWriteBar cfg dev.regInfo i ones hne
  rw [if_pos hw] at hbar
  rw [h4, readLe_memcpyFromCfg, hwrite]
  have h := barSizing_readBack hk hsize hmin (pciBar cfg i)
  rw [← hbar] at h
  exact h

theorem pciExec_bar_sizing_bar0 :
    ∃ ctx₁ v, pciExec readOnlyCapDevice ⟨.conventional, some fun _ => 0, pciCfgSpaceSize⟩
        (.access true 4 (pciBaseAddress0 + 4 * 0) fun _ => 0xff) = .ok (ctx₁, .access 4 fun _ => 0xff) ∧
      pciExec readOnlyCapDevice ctx₁ (.access false 4 (pciBaseAddress0 + 4 * 0) fun _ => 0) =
        .ok (ctx₁, .access 4 v) ∧
      ~~~(BitVec.ofNat 32 (readLe v 0 4) &&& barMask (readOnlyCapDevice.regInfo 0)) + 1 =
        (readOnlyCapDevice.regInfo 0).size.setWidth 32 ∧
      BitVec.ofNat 32 (readLe v 0 4) &&& ~~~barMask (readOnlyCapDevice.regInfo 0) =
        pciBar (fun _ => 0) 0 &&& ~~~barMask (readOnlyCapDevice.regInfo 0) :=
  pciExec_bar_sizing rfl (show 0 < 6 by omega) (show 12 ≤ 31 by omega) rfl (by decide) _ _ (by decide)

end VfioUser.Pci
