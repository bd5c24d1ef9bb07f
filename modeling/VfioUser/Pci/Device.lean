import VfioUser.Pci.Access

/-!
# Setting up the config space, and the device's calls

`vfu_pci_init` allocates the config space once, zeroed; `vfu_pci_set_id` and
`vfu_pci_set_class` store the identity registers through its pointer; the guest then reads and
writes it through `pci_config_space_access`. A device's calls run one after another on its
context, with what each returns recorded.

Once the config space is set up, no call changes the PCI type, the config region's size or the
pointer's presence, and every further `vfu_pci_init` fails. With callbacks that keep their
contracts every setup call and every guest access inside the config region returns, a read
there returns the config bytes, and a relation between config spaces that every header write,
every change past the header and every setup store keep holds across any run
(`PciRun.keeps`).

## Implementation notes

Whether `calloc` succeeds is an argument of `vfu_pci_init`. Storing through a `NULL` config-space
pointer is the fault `nullConfigSpace`, and so is a guest access before the config space is set
up, which `vfu_realize_ctx` (not among the sources) rules out. An access whose loop runs past
`count + 1` iterations, which only a callback breaking its contract causes, is the fault `hang`.
The `vfu_pci_hdr_t` fields sit at the offsets of the standard header.

An access's offset is a `Nat` and the config space has no end. The region dispatcher (not among
the sources) passes on only accesses inside the config region, `PciOp.InRegion`; on a context
`vfu_pci_init` set up these lie in its allocation of 256 or 4096 bytes, below `2 ^ 63`, where
the `Nat` offset is C's signed `loff_t`. Results about what an access returns keep to them.
-/

namespace VfioUser.Pci

/-- `vfu_pci_type_t`; `other` is a value outside the enumeration. -/
inductive VfuPciType where
  | conventional
  | pciX1
  | pciX2
  | express
  | other
deriving DecidableEq, Repr

/-- `PCI_CFG_SPACE_SIZE`. -/
def pciCfgSpaceSize : Nat := 256

/-- `PCI_CFG_SPACE_EXP_SIZE`. -/
def pciCfgSpaceExpSize : Nat := 4096

/-- `PCI_HEADER_TYPE_NORMAL`. -/
def pciHeaderTypeNormal : Int := 0

/-- `EEXIST`. -/
def eexist : Int := 17

/-- `ENOMEM`. -/
def enomem : Int := 12

/-- The fields of `vfu_ctx_t` the setup calls read and write: `pci.type`, `pci.config_space`
(`none` for `NULL`) and `reg_info[VFU_PCI_DEV_CFG_REGION_IDX].size`. -/
structure PciCtx where
  type : VfuPciType
  configSpace : Option (Nat → BitVec 8)
  cfgRegionSize : Nat

/-- The size the `switch` of `vfu_pci_init` picks for a PCI type; `none` is its `default`. -/
def cfgSpaceSize : VfuPciType → Option Nat
  | .conventional | .pciX1 => some pciCfgSpaceSize
  | .pciX2 | .express => some pciCfgSpaceExpSize
  | .other => none

/-- `vfu_pci_init`: its return value with the `errno` it sets, and the context after it. -/
def vfuPciInit (ctx : PciCtx) (pciType : VfuPciType) (hdrType : Int) (callocOk : Bool) :
    (Int × Option Int) × PciCtx :=
  match cfgSpaceSize pciType with
  | none => ((-1, some Dma.einval), ctx)
  | some size =>
      if hdrType ≠ pciHeaderTypeNormal then ((-1, some Dma.einval), ctx)
      else if ctx.configSpace.isSome then ((-1, some eexist), ctx)
      else if !callocOk then ((-1, some enomem), ctx)
      else ((0, none), ⟨pciType, some fun _ => 0, size⟩)

/-- The offset of `hdr.id.vid`. -/
def idVid : Nat := 0x00

/-- The offset of `hdr.id.did`. -/
def idDid : Nat := 0x02

/-- The offset of `hdr.cc.pi`. -/
def ccPi : Nat := 0x09

/-- The offset of `hdr.cc.scc`. -/
def ccScc : Nat := 0x0a

/-- The offset of `hdr.cc.bcc`. -/
def ccBcc : Nat := 0x0b

/-- The offset of `hdr.ss.vid`. -/
def ssVid : Nat := 0x2c

/-- The offset of `hdr.ss.sid`. -/
def ssSid : Nat := 0x2e

/-- `vfu_pci_set_id`; `none` is the fault of storing through a `NULL` config space. -/
def vfuPciSetId (ctx : PciCtx) (vid did ssvid ssid : BitVec 16) : Option PciCtx :=
  ctx.configSpace.map fun cfg =>
    let cfg := writeLe cfg idVid 2 vid.toNat
    let cfg := writeLe cfg idDid 2 did.toNat
    let cfg := writeLe cfg ssVid 2 ssvid.toNat
    { ctx with configSpace := some (writeLe cfg ssSid 2 ssid.toNat) }

/-- `vfu_pci_set_class`; `none` is the fault of storing through a `NULL` config space. -/
def vfuPciSetClass (ctx : PciCtx) (base sub pi : BitVec 8) : Option PciCtx :=
  ctx.configSpace.map fun cfg =>
    let cfg : Nat → BitVec 8 := Function.update cfg ccBcc base
    let cfg : Nat → BitVec 8 := Function.update cfg ccScc sub
    { ctx with configSpace := some (Function.update cfg ccPi pi) }

/-- `vfu_pci_get_config_space`. -/
def vfuPciGetConfigSpace (ctx : PciCtx) : Option (Nat → BitVec 8) := ctx.configSpace

/-- What a device registers around its config space: its capabilities with the lookup and the
handler of `pci_caps.c`, the callback of the config-space region, and its BAR regions. -/
structure PciDevice where
  caps : List PciCap
  capFind : Nat → Nat → Option PciCap
  capAccess : RegionAccessCb
  cfgCb : Option RegionAccessCb
  regInfo : Nat → VfuRegInfo

/-- A device whose capabilities and callbacks keep the contracts the access results take. -/
structure PciDevice.Wf (dev : PciDevice) : Prop where
  caps : CapsWf dev.caps
  find : FindsLowestCap dev.caps dev.capFind
  capContract : ∀ isWrite, CbContract dev.capAccess isWrite
  capKeeps : KeepsOutside dev.capAccess
  cbContract : ∀ cb ∈ dev.cfgCb, ∀ isWrite, CbContract cb isWrite
  cbKeeps : ∀ cb ∈ dev.cfgCb, KeepsOutside cb

/-- The calls made on a device's PCI state: the setup calls, and the guest's config-space
accesses with the buffer they carry. -/
inductive PciOp where
  | init (pciType : VfuPciType) (hdrType : Int) (callocOk : Bool)
  | setId (vid did ssvid ssid : BitVec 16)
  | setClass (base sub pi : BitVec 8)
  | access (isWrite : Bool) (count : BitVec 64) (offset : Nat) (buf : Nat → BitVec 8)

/-- What each call returns. -/
inductive PciOut where
  | init (ret : Int) (errno : Option Int)
  | set
  | access (ret : Int) (buf : Nat → BitVec 8)

/-- The ways a call does not return. -/
inductive PciFault where
  /-- a store or a load through a `NULL` config space -/
  | nullConfigSpace
  /-- the `assert` of `pci_hdr_access` fails -/
  | abort
  /-- the access loop runs past `count + 1` iterations -/
  | hang
deriving DecidableEq, Repr

/-- One call, or the fault that keeps it from returning. An access is `pci_config_space_access` as
the region dispatcher calls it; the model takes its offset as a `Nat` and the config space as
having no end, which agree with C's signed `loff_t` and the allocation of `vfu_pci_init` on the
accesses the dispatcher passes on (`PciOp.InRegion`, `loffT_of_inRegion`). -/
def pciExec (dev : PciDevice) (ctx : PciCtx) : PciOp → Except PciFault (PciCtx × PciOut)
  | .init t hdr ok =>
      let r := vfuPciInit ctx t hdr ok
      .ok (r.2, .init r.1.1 r.1.2)
  | .setId vid did ssvid ssid =>
      match vfuPciSetId ctx vid did ssvid ssid with
      | none => .error .nullConfigSpace
      | some ctx' => .ok (ctx', .set)
  | .setClass base sub pi =>
      match vfuPciSetClass ctx base sub pi with
      | none => .error .nullConfigSpace
      | some ctx' => .ok (ctx', .set)
  | .access w count offset buf =>
      match ctx.configSpace with
      | none => .error .nullConfigSpace
      | some cfg =>
          match pciConfigSpaceRw dev.capFind dev.capAccess dev.cfgCb dev.regInfo w
              (count.toNat + 1) count.toNat offset ⟨cfg, buf⟩ with
          | none => .error .hang
          | some (_, _, none) => .error .abort
          | some (ret, _, some st) => .ok ({ ctx with configSpace := some st.cfg }, .access ret st.buf)

/-- A run in which every call returns, with the outputs recorded. -/
inductive PciRun (dev : PciDevice) : PciCtx → List (PciOp × PciOut) → PciCtx → Prop
  | nil (ctx : PciCtx) : PciRun dev ctx [] ctx
  | cons {ctx ctx' ctx'' : PciCtx} {op : PciOp} {out : PciOut} {tr : List (PciOp × PciOut)}
      (h : pciExec dev ctx op = .ok (ctx', out)) (rest : PciRun dev ctx' tr ctx'') :
      PciRun dev ctx ((op, out) :: tr) ctx''

/-- What a `vfu_pci_init` that returned 0 leaves: a config space, and a config region of its
type's size. -/
structure PciCtx.SetUp (ctx : PciCtx) : Prop where
  configSpace : ctx.configSpace.isSome
  size : cfgSpaceSize ctx.type = some ctx.cfgRegionSize

/-- The check the region dispatcher makes before a guest access reaches
`pci_config_space_access` (the dispatcher is not among the sources): the access lies inside the
config region of `size` bytes. The setup calls are no region accesses. -/
def PciOp.InRegion (size : Nat) : PciOp → Prop
  | .access _ count offset _ => offset + count.toNat ≤ size
  | _ => True

instance (size : Nat) : DecidablePred (PciOp.InRegion size) := fun op =>
  match op with
  | .access _ count offset _ => inferInstanceAs (Decidable (offset + count.toNat ≤ size))
  | .init .. | .setId .. | .setClass .. => isTrue trivial

variable {dev : PciDevice} {ctx ctx' : PciCtx}

/-- The run lemma: a property of the context that every allowed call keeps, and that holds of
each allowed call's output, holds at the end of a run of allowed calls. -/
theorem PciRun.inv {R : PciOp → Prop} {P : PciCtx → Prop} {Q : PciOp → PciOut → Prop}
    (hstep : ∀ {c c' : PciCtx} {op : PciOp} {out : PciOut}, R op → P c →
      pciExec dev c op = .ok (c', out) → P c' ∧ Q op out)
    {tr : List (PciOp × PciOut)} (hr : PciRun dev ctx tr ctx') (hR : ∀ e ∈ tr, R e.1)
    (hP : P ctx) : P ctx' ∧ ∀ e ∈ tr, Q e.1 e.2 := by
  induction hr with
  | nil => exact ⟨hP, by simp⟩
  | cons h _ ih =>
      simp only [List.mem_cons, forall_eq_or_imp] at hR ⊢
      obtain ⟨hP', hQ⟩ := hstep hR.1 hP h
      obtain ⟨hend, hrest⟩ := ih hR.2 hP'
      exact ⟨hend, hQ, hrest⟩

/-! ### The setup calls -/

/-- On a context that has a config space, `vfu_pci_init` fails with `EINVAL` or `EEXIST` and
changes nothing. -/
theorem vfuPciInit_setUp (t : VfuPciType) (hdr : Int) (ok : Bool) (h : ctx.configSpace.isSome) :
    (vfuPciInit ctx t hdr ok).2 = ctx ∧ (vfuPciInit ctx t hdr ok).1.1 = -1 ∧
      ((vfuPciInit ctx t hdr ok).1.2 = some Dma.einval ∨ (vfuPciInit ctx t hdr ok).1.2 = some eexist) := by
  simp only [vfuPciInit]
  split
  · exact ⟨rfl, rfl, .inl rfl⟩
  · simp only [h, if_true]
    split_ifs <;> exact ⟨rfl, rfl, by simp⟩

/-- `vfu_pci_init` fails and changes nothing, or returns 0 with a zeroed config space of its
type's size. -/
theorem vfuPciInit_cases (ctx : PciCtx) (t : VfuPciType) (hdr : Int) (ok : Bool) :
    ((vfuPciInit ctx t hdr ok).1.1 = -1 ∧ (vfuPciInit ctx t hdr ok).2 = ctx) ∨
      ((vfuPciInit ctx t hdr ok).1.1 = 0 ∧ ∃ size, cfgSpaceSize t = some size ∧
        (vfuPciInit ctx t hdr ok).2 = ⟨t, some fun _ => 0, size⟩) := by
  simp only [vfuPciInit]
  split
  · exact .inl ⟨rfl, rfl⟩
  · rename_i size hsize
    split_ifs <;> first | exact .inl ⟨rfl, rfl⟩ | exact .inr ⟨rfl, size, hsize, rfl⟩

theorem PciCtx.SetUp.size_le (h : ctx.SetUp) : ctx.cfgRegionSize ≤ pciCfgSpaceExpSize := by
  obtain ⟨t, _, _⟩ := ctx
  cases t <;> cases h.size <;> simp [pciCfgSpaceExpSize]

/-- Inside a config region of at most `PCI_CFG_SPACE_EXP_SIZE` bytes an access's offset is below
`2 ^ 63`, so the signed `loff_t` that `pci_config_space_access` takes is the offset itself. -/
theorem loffT_of_inRegion {size offset n : Nat} (hs : size ≤ pciCfgSpaceExpSize)
    (h : offset + n ≤ size) : (BitVec.ofNat 64 offset).toInt = offset := by
  simp only [pciCfgSpaceExpSize] at hs
  rw [BitVec.toInt_eq_toNat_cond, BitVec.toNat_ofNat, Nat.mod_eq_of_lt (by omega),
    if_pos (by omega)]

theorem vfuPciSetId_eq_some {vid did ssvid ssid : BitVec 16}
    (h : vfuPciSetId ctx vid did ssvid ssid = some ctx') :
    ∃ cfg, ctx.configSpace = some cfg ∧
      ctx' = { ctx with configSpace := some (writeLe (writeLe (writeLe (writeLe cfg idVid 2 vid.toNat)
        idDid 2 did.toNat) ssVid 2 ssvid.toNat) ssSid 2 ssid.toNat) } := by
  obtain ⟨cfg, hcfg, rfl⟩ := Option.map_eq_some'.mp h
  exact ⟨cfg, hcfg, rfl⟩

theorem vfuPciSetClass_eq_some {base sub pi : BitVec 8}
    (h : vfuPciSetClass ctx base sub pi = some ctx') :
    ∃ cfg, ctx.configSpace = some cfg ∧
      ctx' = { ctx with configSpace := some (Function.update (Function.update
        (Function.update cfg ccBcc base) ccScc sub) ccPi pi) } := by
  obtain ⟨cfg, hcfg, rfl⟩ := Option.map_eq_some'.mp h
  exact ⟨cfg, hcfg, rfl⟩

/-- `vfu_pci_set_class` changes only the three class-code bytes. -/
theorem vfuPciSetClass_changesOnly (cfg : Nat → BitVec 8) (base sub pi : BitVec 8) :
    ChangesOnly cfg (Function.update (Function.update (Function.update cfg ccBcc base) ccScc sub)
      ccPi pi) ccPi 3 :=
  (((update_changesOnly cfg ccBcc base).mono (by decide) (by decide)).trans
    ((update_changesOnly _ ccScc sub).mono (by decide) (by decide))).trans
    ((update_changesOnly _ ccPi pi).mono le_rfl (by decide))

/-- A read does not see a write to other bytes. -/
theorem readLe_writeLe_of_disjoint (mem : Nat → BitVec 8) {off n off' n' : Nat} (v : Nat)
    (h : off + n ≤ off' ∨ off' + n' ≤ off) : readLe (writeLe mem off' n' v) off n = readLe mem off n :=
  readLe_congr n fun i h₁ h₂ => @writeLe_of_not_mem mem off' n' i (by omega) v

/-- After `vfu_pci_set_id` the four ids read back as stored. -/
theorem vfuPciSetId_readLe {vid did ssvid ssid : BitVec 16}
    (h : vfuPciSetId ctx vid did ssvid ssid = some ctx') :
    ∃ cfg, ctx'.configSpace = some cfg ∧ readLe cfg idVid 2 = vid.toNat ∧
      readLe cfg idDid 2 = did.toNat ∧ readLe cfg ssVid 2 = ssvid.toNat ∧
      readLe cfg ssSid 2 = ssid.toNat := by
  obtain ⟨cfg, -, rfl⟩ := vfuPciSetId_eq_some h
  have h16 : ∀ x : BitVec 16, x.toNat % 256 ^ 2 = x.toNat := fun x => Nat.mod_eq_of_lt x.isLt
  refine ⟨_, rfl, ?_, ?_, ?_, ?_⟩ <;> simp only [idVid, idDid, ssVid, ssSid] <;>
    simp (disch := omega) only [readLe_writeLe, h16, readLe_writeLe_of_disjoint]

/-! ### One call -/

theorem pciExec_setId_eq_ok {vid did ssvid ssid : BitVec 16} {out : PciOut}
    (h : pciExec dev ctx (.setId vid did ssvid ssid) = .ok (ctx', out)) :
    vfuPciSetId ctx vid did ssvid ssid = some ctx' ∧ out = .set := by
  simp only [pciExec] at h
  split at h <;> cases h
  exact ⟨‹_›, rfl⟩

theorem pciExec_setClass_eq_ok {base sub pi : BitVec 8} {out : PciOut}
    (h : pciExec dev ctx (.setClass base sub pi) = .ok (ctx', out)) :
    vfuPciSetClass ctx base sub pi = some ctx' ∧ out = .set := by
  simp only [pciExec] at h
  split at h <;> cases h
  exact ⟨‹_›, rfl⟩

theorem pciExec_access_eq_ok {w : Bool} {count : BitVec 64} {offset : Nat} {buf : Nat → BitVec 8}
    {out : PciOut} (h : pciExec dev ctx (.access w count offset buf) = .ok (ctx', out)) :
    ∃ cfg ret calls st, ctx.configSpace = some cfg ∧
      pciConfigSpaceRw dev.capFind dev.capAccess dev.cfgCb dev.regInfo w (count.toNat + 1)
        count.toNat offset ⟨cfg, buf⟩ = some (ret, calls, some st) ∧
      ctx' = { ctx with configSpace := some st.cfg } ∧ out = .access ret st.buf := by
  simp only [pciExec] at h
  split at h
  · cases h
  · rename_i cfg hcfg
    split at h
    · cases h
    · cases h
    · rename_i ret calls st hrw
      cases h
      exact ⟨cfg, ret, calls, st, hcfg, hrw, rfl, rfl⟩

/-- On a context with a config space, a call that returns keeps the PCI type, the config region's
size and the config space's presence, and a `vfu_pci_init` among them fails with `EINVAL` or
`EEXIST`. -/
theorem pciExec_setUp {op : PciOp} {out : PciOut} (hcfg : ctx.configSpace.isSome)
    (h : pciExec dev ctx op = .ok (ctx', out)) :
    ctx'.type = ctx.type ∧ ctx'.cfgRegionSize = ctx.cfgRegionSize ∧ ctx'.configSpace.isSome ∧
      ∀ r er, out = .init r er → r = -1 ∧ (er = some Dma.einval ∨ er = some eexist) := by
  cases op with
  | init t hdr ok =>
      cases h
      obtain ⟨he, hr, herr⟩ := vfuPciInit_setUp t hdr ok hcfg
      rw [he]
      exact ⟨rfl, rfl, hcfg, by rintro r er ⟨⟩; exact ⟨hr, herr⟩⟩
  | setId vid did ssvid ssid =>
      obtain ⟨hs, rfl⟩ := pciExec_setId_eq_ok h
      obtain ⟨cfg, -, rfl⟩ := vfuPciSetId_eq_some hs
      exact ⟨rfl, rfl, rfl, fun _ _ h => nomatch h⟩
  | setClass base sub pi =>
      obtain ⟨hs, rfl⟩ := pciExec_setClass_eq_ok h
      obtain ⟨cfg, -, rfl⟩ := vfuPciSetClass_eq_some hs
      exact ⟨rfl, rfl, rfl, fun _ _ h => nomatch h⟩
  | access w count offset buf =>
      obtain ⟨cfg, ret, calls, st, -, -, rfl, rfl⟩ := pciExec_access_eq_ok h
      exact ⟨rfl, rfl, rfl, fun _ _ h => nomatch h⟩

/-- The step lemma for relations between config spaces: a reflexive, transitive relation that
every `pci_hdr_write`, every change past the standard header and every `vfu_pci_set_class` store
keep, and that the stores of `vfu_pci_set_id` keep when the call is one, holds between the config
space before a call that returns and after it. -/
theorem pciExec_keeps (hwf : dev.Wf) {R : (Nat → BitVec 8) → (Nat → BitVec 8) → Prop}
    (hrefl : ∀ c, R c c) (htrans : ∀ {a b c}, R a b → R b c → R a c)
    (hwrite : ∀ cfg buf count offset, R cfg (pciHdrWrite cfg dev.regInfo buf count offset).2)
    (hpast : ∀ {cfg cfg' : Nat → BitVec 8} {lo n : Nat}, pciStdHeaderSizeof ≤ lo →
      ChangesOnly cfg cfg' lo n → R cfg cfg')
    (hclass : ∀ {cfg cfg' : Nat → BitVec 8}, ChangesOnly cfg cfg' ccPi 3 → R cfg cfg')
    {op : PciOp} (hid : ∀ vid did ssvid ssid, op = .setId vid did ssvid ssid →
      ∀ {cfg cfg' : Nat → BitVec 8}, ChangesOnly cfg cfg' idVid 4 ∨ ChangesOnly cfg cfg' ssVid 4 →
        R cfg cfg')
    {out : PciOut} {cfg : Nat → BitVec 8} (hcfg : ctx.configSpace = some cfg)
    (h : pciExec dev ctx op = .ok (ctx', out)) : ∃ cfg', ctx'.configSpace = some cfg' ∧ R cfg cfg' := by
  cases op with
  | init t hdr ok =>
      cases h
      rw [(vfuPciInit_setUp t hdr ok (by simp [hcfg])).1]
      exact ⟨cfg, hcfg, hrefl cfg⟩
  | setId vid did ssvid ssid =>
      obtain ⟨cfg₁, hc₁, rfl⟩ := vfuPciSetId_eq_some (pciExec_setId_eq_ok h).1
      cases hcfg.symm.trans hc₁
      have hw := fun (mem : Nat → BitVec 8) off v => writeLe_changesOnly mem off 2 v
      exact ⟨_, rfl, htrans (hid _ _ _ _ rfl (.inl (((hw _ _ _).mono le_rfl (by decide)).trans
        ((hw _ _ _).mono (by decide) (by decide))))) (hid _ _ _ _ rfl (.inr
        (((hw _ _ _).mono le_rfl (by decide)).trans ((hw _ _ _).mono (by decide) (by decide)))))⟩
  | setClass base sub pi =>
      obtain ⟨cfg₁, hc₁, rfl⟩ := vfuPciSetClass_eq_some (pciExec_setClass_eq_ok h).1
      cases hcfg.symm.trans hc₁
      exact ⟨_, rfl, hclass (vfuPciSetClass_changesOnly cfg base sub pi)⟩
  | access w count offset buf =>
      obtain ⟨cfg₁, ret, calls, st, hc₁, hrw, rfl, -⟩ := pciExec_access_eq_ok h
      cases hcfg.symm.trans hc₁
      exact ⟨st.cfg, rfl, pciConfigSpaceRw_keeps hwf.caps hwf.find (hwf.capContract w)
        (fun cb h => hwf.cbContract cb h w) hwf.capKeeps hwf.cbKeeps hrefl htrans hwrite hpast
        count.isLt hrw⟩

/-- The run lemma for relations: a relation kept as in `pciExec_keeps` holds between the config
space a run starts from and the one it ends with. -/
theorem PciRun.keeps (hwf : dev.Wf) {R : (Nat → BitVec 8) → (Nat → BitVec 8) → Prop}
    (hrefl : ∀ c, R c c) (htrans : ∀ {a b c}, R a b → R b c → R a c)
    (hwrite : ∀ cfg buf count offset, R cfg (pciHdrWrite cfg dev.regInfo buf count offset).2)
    (hpast : ∀ {cfg cfg' : Nat → BitVec 8} {lo n : Nat}, pciStdHeaderSizeof ≤ lo →
      ChangesOnly cfg cfg' lo n → R cfg cfg')
    (hclass : ∀ {cfg cfg' : Nat → BitVec 8}, ChangesOnly cfg cfg' ccPi 3 → R cfg cfg')
    {tr : List (PciOp × PciOut)} (hr : PciRun dev ctx tr ctx')
    (hid : ∀ e ∈ tr, ∀ vid did ssvid ssid, e.1 = .setId vid did ssvid ssid →
      ∀ {cfg cfg' : Nat → BitVec 8}, ChangesOnly cfg cfg' idVid 4 ∨ ChangesOnly cfg cfg' ssVid 4 →
        R cfg cfg')
    {cfg : Nat → BitVec 8} (hcfg : ctx.configSpace = some cfg) :
    ∃ cfg', ctx'.configSpace = some cfg' ∧ R cfg cfg' :=
  (hr.inv (Q := fun _ _ => True) (P := fun c => ∃ cfg', c.configSpace = some cfg' ∧ R cfg cfg')
    (fun hop ⟨_, hc, hk⟩ h =>
      have ⟨cfg'', hc'', hk''⟩ := pciExec_keeps hwf hrefl htrans hwrite hpast hclass hop hc h
      ⟨⟨cfg'', hc'', htrans hk hk''⟩, trivial⟩)
    hid ⟨cfg, hcfg, hrefl cfg⟩).1

/-- On a context with a config space, every call of a well-formed device returns. -/
theorem pciExec_ok_of_setUp (hwf : dev.Wf) (hcfg : ctx.configSpace.isSome) (op : PciOp) :
    ∃ ctx' out, pciExec dev ctx op = .ok (ctx', out) := by
  obtain ⟨cfg, hc⟩ := Option.isSome_iff_exists.mp hcfg
  cases op with
  | init t hdr ok => exact ⟨_, _, rfl⟩
  | setId vid did ssvid ssid =>
      simp only [pciExec, vfuPciSetId, hc, Option.map_some']
      exact ⟨_, _, rfl⟩
  | setClass base sub pi =>
      simp only [pciExec, vfuPciSetClass, hc, Option.map_some']
      exact ⟨_, _, rfl⟩
  | access w count offset buf =>
      obtain ⟨ret, calls, st, hrw⟩ : ∃ ret calls st, pciConfigSpaceRw dev.capFind dev.capAccess
          dev.cfgCb dev.regInfo w (count.toNat + 1) count.toNat offset ⟨cfg, buf⟩ =
          some (ret, calls, some st) :=
        pciConfigSpaceRw_returns hwf.caps.pos hwf.find (hwf.capContract w)
          (fun cb h => hwf.cbContract cb h w) _ count.isLt _
      simp only [pciExec, hc, hrw]
      exact ⟨_, _, rfl⟩

/-- A guest read that stays in the standard header returns the config bytes and changes
nothing. -/
theorem pciExec_hdr_read {cfg : Nat → BitVec 8} (hcfg : ctx.configSpace = some cfg) {n : BitVec 64}
    {offset : Nat} (h0 : 0 < n.toNat) (h : offset + n.toNat ≤ pciStdHeaderSizeof)
    (buf : Nat → BitVec 8) :
    pciExec dev ctx (.access false n offset buf) =
      .ok (ctx, .access n.toNat (memcpyFromCfg cfg buf n.toNat offset)) := by
  rcases ctx with ⟨t, _ | cfg', sz⟩
  · cases hcfg
  · cases hcfg
    simp only [pciExec, pciConfigSpaceRw_hdr_read _ _ _ _ h0 h]

/-- A guest write that stays in the standard header and that `pci_hdr_write` takes stores what
`pci_hdr_write` stores. -/
theorem pciExec_hdr_write {cfg : Nat → BitVec 8} (hcfg : ctx.configSpace = some cfg) {n : BitVec 64}
    {offset : Nat} (h0 : 0 < n.toNat) (h : offset + n.toNat ≤ pciStdHeaderSizeof)
    (buf : Nat → BitVec 8) (hok : 0 ≤ (pciHdrWrite cfg dev.regInfo buf n.toNat offset).1) :
    pciExec dev ctx (.access true n offset buf) =
      .ok ({ ctx with configSpace := some (pciHdrWrite cfg dev.regInfo buf n.toNat offset).2 },
        .access n.toNat buf) := by
  simp only [pciExec, hcfg, pciConfigSpaceRw_hdr_write _ _ _ _ h0 h ⟨cfg, buf⟩ hok]

theorem PciRun.of_append {tr₁ tr₂ : List (PciOp × PciOut)} (hr : PciRun dev ctx (tr₁ ++ tr₂) ctx') :
    ∃ c, PciRun dev ctx tr₁ c ∧ PciRun dev c tr₂ ctx' := by
  induction tr₁ generalizing ctx with
  | nil => exact ⟨ctx, .nil ctx, hr⟩
  | cons e tr₁ ih =>
      cases hr with
      | cons h rest =>
          obtain ⟨c, h₁, h₂⟩ := ih rest
          exact ⟨c, .cons h h₁, h₂⟩

/-! ### Runs -/

/-- A device that registers one capability at `0x40` with a read-only handler, no config-space
callback, and memory BARs of `0x1000` bytes. -/
def readOnlyCapDevice : PciDevice where
  caps := [⟨0x40, 0x10⟩]
  capFind := lowestOverlappingCap [⟨0x40, 0x10⟩]
  capAccess := readOnlyCapAccess
  cfgCb := none
  regInfo := fun _ => ⟨0x1000, true⟩

theorem readOnlyCapDevice_wf : readOnlyCapDevice.Wf where
  caps := by decide
  find := lowestOverlappingCap_finds _
  capContract := readOnlyCapAccess_contract
  capKeeps := readOnlyCapAccess_keepsOutside
  cbContract _ h := absurd h (Option.not_mem_none _)
  cbKeeps _ h := absurd h (Option.not_mem_none _)

/-- Once `vfu_pci_init` has returned 0, the PCI type and the config region's size stay as it set
them, the config space stays, and every later `vfu_pci_init` fails with `EINVAL` or `EEXIST`. -/
theorem pciRun_init_once {pre tr : List (PciOp × PciOut)} {t : VfuPciType} {hdr : Int} {ok : Bool}
    {er : Option Int} (hr : PciRun dev ctx (pre ++ (.init t hdr ok, .init 0 er) :: tr) ctx') :
    ctx'.type = t ∧ cfgSpaceSize t = some ctx'.cfgRegionSize ∧ ctx'.configSpace.isSome ∧
      ∀ e ∈ tr, ∀ r er', e.2 = .init r er' → r = -1 ∧ (er' = some Dma.einval ∨ er' = some eexist) := by
  obtain ⟨c, -, hr⟩ := hr.of_append
  cases hr with
  | cons h rest =>
      simp only [pciExec, Except.ok.injEq, Prod.mk.injEq, PciOut.init.injEq] at h
      obtain ⟨rfl, hret, -⟩ := h
      rcases vfuPciInit_cases c t hdr ok with ⟨hneg, -⟩ | ⟨-, size, hsize, hc⟩
      · rw [hret] at hneg; cases hneg
      rw [hc] at rest
      obtain ⟨⟨htype, hsz, hsome⟩, hinit⟩ := rest.inv (R := fun _ => True)
        (P := fun c => c.type = t ∧ c.cfgRegionSize = size ∧ c.configSpace.isSome)
        (fun _ ⟨ht, hs, hsome⟩ h => by
          obtain ⟨ht', hs', hsome', hinit⟩ := pciExec_setUp hsome h
          exact ⟨⟨ht'.trans ht, hs'.trans hs, hsome'⟩, hinit⟩)
        (fun _ _ => trivial) ⟨rfl, rfl, rfl⟩
      exact ⟨htype, hsz ▸ hsize, hsome, hinit⟩

theorem pciRun_init_once_then_guest_write :
    ∃ tr ctx', PciRun readOnlyCapDevice ⟨.express, none, 0⟩ tr ctx' ∧
      tr.map Prod.fst = [.init .express 0 true, .access true 4 0x10 fun _ => 0xff,
        .init .conventional 0 true] ∧
      ctx'.type = .express ∧ cfgSpaceSize .express = some ctx'.cfgRegionSize ∧
      ctx'.configSpace.isSome ∧ ∀ e ∈ tr.tail, ∀ r er', e.2 = .init r er' →
        r = -1 ∧ (er' = some Dma.einval ∨ er' = some eexist) := by
  have hr : PciRun readOnlyCapDevice ⟨.express, none, 0⟩ ([] ++ [(.init .express 0 true, .init 0 none),
      (.access true 4 0x10 fun _ => 0xff, _), (.init .conventional 0 true, _)]) _ :=
    .cons rfl (.cons rfl (.cons rfl (.nil _)))
  exact ⟨_, _, hr, rfl, pciRun_init_once hr⟩

/-- In the model every call on a context with a config space returns, whatever the offset of an
access: its offsets are `Nat` and its config space has no end, where C's `loff_t` is signed and
the allocation has 256 or 4096 bytes. `pciRun_total` keeps to the calls the region dispatcher
passes on, where the two agree. -/
theorem pciRun_of_configSpace (hwf : dev.Wf) (hcfg : ctx.configSpace.isSome) (ops : List PciOp) :
    ∃ tr ctx', PciRun dev ctx tr ctx' ∧ tr.map Prod.fst = ops := by
  induction ops generalizing ctx with
  | nil => exact ⟨[], ctx, .nil ctx, rfl⟩
  | cons op ops ih =>
      obtain ⟨c, out, h⟩ := pciExec_ok_of_setUp hwf hcfg op
      obtain ⟨tr, c', hr, hops⟩ := ih (pciExec_setUp hcfg h).2.2.1
      exact ⟨(op, out) :: tr, c', .cons h hr, by simp [hops]⟩

/-- On a well-formed device whose config space `vfu_pci_init` set up, every sequence of setup
calls and of guest accesses inside the config region (the only accesses the region dispatcher
passes on) runs to the end: no call stores through a `NULL` config space, fails the `assert` of
`pci_hdr_access` or hangs. -/
theorem pciRun_total (hwf : dev.Wf) (hset : ctx.SetUp)
    (ops : List {op : PciOp // op.InRegion ctx.cfgRegionSize}) :
    ∃ tr ctx', PciRun dev ctx tr ctx' ∧ tr.map Prod.fst = ops.map Subtype.val :=
  pciRun_of_configSpace hwf hset.configSpace _

theorem pciRun_total_readOnlyCapDevice :
    readOnlyCapDevice.Wf ∧ (⟨.conventional, some fun _ => 0, pciCfgSpaceSize⟩ : PciCtx).SetUp ∧
      ∃ tr ctx', PciRun readOnlyCapDevice ⟨.conventional, some fun _ => 0, pciCfgSpaceSize⟩ tr ctx' ∧
        tr.map Prod.fst = [.setId 0x4e58 0x0001 0 0, .access false 0x48 0x10 fun _ => 0,
          .init .conventional 0 true] :=
  have hs : (⟨.conventional, some fun _ => 0, pciCfgSpaceSize⟩ : PciCtx).SetUp := ⟨rfl, rfl⟩
  ⟨readOnlyCapDevice_wf, hs, pciRun_total readOnlyCapDevice_wf hs
    [⟨.setId 0x4e58 0x0001 0 0, trivial⟩, ⟨.access false 0x48 0x10 fun _ => 0, by decide⟩,
      ⟨.init .conventional 0 true, trivial⟩]⟩

/-- On a device whose config space `vfu_pci_init` set up, with no config-space callback and a
capability handler that copies on reads, a guest read inside the config region has an offset
that is its own `loff_t`, returns the count, changes nothing, and fills the first `count` bytes
of the buffer with the config bytes from `offset`. -/
theorem pciExec_read (hwf : dev.Wf) (hcopy : CopiesOnRead dev.capAccess) (hcb : dev.cfgCb = none)
    (hset : ctx.SetUp) {cfg : Nat → BitVec 8} (hcfg : ctx.configSpace = some cfg) {n : BitVec 64}
    {offset : Nat} (hin : offset + n.toNat ≤ ctx.cfgRegionSize) (buf : Nat → BitVec 8) :
    (BitVec.ofNat 64 offset).toInt = offset ∧
      pciExec dev ctx (.access false n offset buf) =
        .ok (ctx, .access n.toNat (memcpyFromCfg cfg buf n.toNat offset)) := by
  refine ⟨loffT_of_inRegion hset.size_le hin, ?_⟩
  obtain ⟨t, _ | _, sz⟩ := ctx <;> cases hcfg
  obtain ⟨calls, h⟩ := pciConfigSpaceRw_read hwf.caps.pos hwf.find hcopy ⟨cfg, buf⟩ n.isLt offset
  simp only [pciExec, hcb]
  rw [h]

/-- A read of `0x10` bytes at `0x3c`, across the end of the header into the capability at
`0x40`. -/
theorem pciExec_read_header_then_cap :
    CopiesOnRead readOnlyCapDevice.capAccess ∧
      (⟨.conventional, some fun i => BitVec.ofNat 8 i, pciCfgSpaceSize⟩ : PciCtx).SetUp ∧
      (BitVec.ofNat 64 0x3c).toInt = 0x3c ∧
      pciExec readOnlyCapDevice ⟨.conventional, some fun i => BitVec.ofNat 8 i, pciCfgSpaceSize⟩
          (.access false 0x10 0x3c fun _ => 0) =
        .ok (⟨.conventional, some fun i => BitVec.ofNat 8 i, pciCfgSpaceSize⟩,
          .access (0x10 : BitVec 64).toNat
            (memcpyFromCfg (fun i => BitVec.ofNat 8 i) (fun _ => 0) (0x10 : BitVec 64).toNat 0x3c)) :=
  have hs : (⟨.conventional, some fun i => BitVec.ofNat 8 i, pciCfgSpaceSize⟩ : PciCtx).SetUp :=
    ⟨rfl, rfl⟩
  ⟨fun _ _ _ _ => rfl, hs, pciExec_read readOnlyCapDevice_wf (fun _ _ _ _ => rfl) rfl hs rfl
    (by decide) _⟩

end VfioUser.Pci
