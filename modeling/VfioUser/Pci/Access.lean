import VfioUser.Pci.Header

/-!
# Config-space accesses with their handlers

`pci_config_space_access` hands each segment to `pci_hdr_access`, `pci_cap_access` or
`pci_nonstd_access` on the buffer `buf + (offset - start)`. Here the header and non-standard
handlers are the source's; `pci_cap_access` and the callback registered for the config-space
region are parameters.

One run lemma carries a property of the handlers' state through the loop: it holds at the end
if every routed segment call keeps it. From it, `pci_hdr_access`'s `assert` never fails on the
segments the loop hands it, a read copies the config space into the buffer byte for byte, an
access changes no byte outside its span, and a relation between config spaces that every
`pci_hdr_write` and every change past the header keep holds across a whole access.

## Implementation notes

The handler's buffer is the caller's from `offset - start` on; what the handler leaves there is
written back. A failed `assert` aborts the process: the handler's state becomes `none` and the
loop stops at the negative value returned with it.
-/

namespace VfioUser.Pci

/-- What a config-space access reads and changes: the config space, and the caller's buffer
from the access's first byte on. -/
structure AccessState where
  cfg : Nat → BitVec 8
  buf : Nat → BitVec 8

/-- A `vfu_region_access_cb_t` on the config space and the buffer it is handed: from the count,
the offset and `is_write`, its return value, the config space and the buffer. -/
def RegionAccessCb : Type :=
  (Nat → BitVec 8) → (Nat → BitVec 8) → Nat → Nat → Bool → Int × (Nat → BitVec 8) × (Nat → BitVec 8)

/-- `memcpy(buf, pci_config_space_ptr(vfu_ctx, offset), count)`. -/
def memcpyFromCfg (cfg buf : Nat → BitVec 8) (count offset : Nat) : Nat → BitVec 8 :=
  fun i => if i < count then cfg (offset + i) else buf i

/-- `pci_nonstd_access`: the callback of the config-space region if there is one; otherwise a
write is refused and a read copies the config space. -/
def pciNonstdAccess (cfgCb : Option RegionAccessCb) (cfg buf : Nat → BitVec 8) (count offset : Nat)
    (isWrite : Bool) : Int × (Nat → BitVec 8) × (Nat → BitVec 8) :=
  match cfgCb with
  | some cb => cb cfg buf count offset isWrite
  | none => if isWrite then (-Dma.einval, cfg, buf) else (count, cfg, memcpyFromCfg cfg buf count offset)

/-- The caller's buffer after a handler left `win` in the part from byte `k` on. -/
def writeBack (buf : Nat → BitVec 8) (k : Nat) (win : Nat → BitVec 8) : Nat → BitVec 8 :=
  fun j => if k ≤ j then win (j - k) else buf j

/-- The handler `cb` as `pci_config_space_access` calls it in an access from `start`, on the
buffer `buf + (offset - start)`. -/
def pciConfigSpaceHandler (capAccess : RegionAccessCb) (cfgCb : Option RegionAccessCb)
    (regInfo : Nat → VfuRegInfo) (isWrite : Bool) (start : Nat) :
    PciAccessCb → Nat → Nat → Option AccessState → Int × Option AccessState
  | _, _, _, none => (-1, none)
  | cb, size, offset, some st =>
      let k := offset - start
      let win := fun i => st.buf (k + i)
      match cb with
      | .hdr =>
          match pciHdrAccess st.cfg regInfo win size offset isWrite with
          | none => (-1, none)
          | some (r, cfg', win') => (r, some ⟨cfg', writeBack st.buf k win'⟩)
      | .cap =>
          let r := capAccess st.cfg win size offset isWrite
          (r.1, some ⟨r.2.1, writeBack st.buf k r.2.2⟩)
      | .nonstd =>
          let r := pciNonstdAccess cfgCb st.cfg win size offset isWrite
          (r.1, some ⟨r.2.1, writeBack st.buf k r.2.2⟩)

/-- `pci_config_space_access` with its handlers, for at most `fuel` iterations of its loop. -/
def pciConfigSpaceRw (capFind : Nat → Nat → Option PciCap) (capAccess : RegionAccessCb)
    (cfgCb : Option RegionAccessCb) (regInfo : Nat → VfuRegInfo) (isWrite : Bool)
    (fuel count offset : Nat) (st : AccessState) : Option (Int × List SegmentCall × Option AccessState) :=
  pciConfigSpaceAccess capFind (pciConfigSpaceHandler capAccess cfgCb regInfo isWrite offset) fuel
    count offset (some st)

/-- A callback called with `isWrite` returns an error, or a count between one and what it was
asked for. -/
def CbContract (cb : RegionAccessCb) (isWrite : Bool) : Prop :=
  ∀ cfg buf n offset, 0 < n →
    (cb cfg buf n offset isWrite).1 < 0 ∨
      0 < (cb cfg buf n offset isWrite).1 ∧ (cb cfg buf n offset isWrite).1 ≤ n

/-- A handler that reads as `pci_hdr_access` does: a read copies the config space at the offset
into the buffer and returns the count. -/
def CopiesOnRead (cb : RegionAccessCb) : Prop :=
  ∀ cfg buf n offset, cb cfg buf n offset false = ((n : Int), cfg, memcpyFromCfg cfg buf n offset)

@[simp] theorem memcpyFromCfg_zero (cfg buf : Nat → BitVec 8) (offset : Nat) :
    memcpyFromCfg cfg buf 0 offset = buf := rfl

/-- Copying `n` more bytes into the window after the first `k` extends the copied prefix. -/
theorem writeBack_memcpyFromCfg (cfg buf : Nat → BitVec 8) {start k offset : Nat} (n : Nat)
    (ho : offset = start + k) :
    writeBack (memcpyFromCfg cfg buf k start) k
        (memcpyFromCfg cfg (fun i => memcpyFromCfg cfg buf k start (k + i)) n offset) =
      memcpyFromCfg cfg buf (k + n) start := by
  funext j
  simp only [writeBack, memcpyFromCfg]
  split_ifs <;> first | omega | (congr 1 <;> omega)

/-- A callback that changes no config byte outside the segment it is handed. -/
def KeepsOutside (cb : RegionAccessCb) : Prop :=
  ∀ cfg buf n offset isWrite, ChangesOnly cfg (cb cfg buf n offset isWrite).2.1 offset n

/-- A capability handler that reads as `pci_hdr_access` does and takes writes without storing
them. -/
def readOnlyCapAccess : RegionAccessCb := fun cfg buf n offset _ =>
  ((n : Int), cfg, memcpyFromCfg cfg buf n offset)

theorem readOnlyCapAccess_contract (isWrite : Bool) : CbContract readOnlyCapAccess isWrite :=
  fun _ _ n _ hn => .inr ⟨by simpa [readOnlyCapAccess] using hn, by simp [readOnlyCapAccess]⟩

theorem readOnlyCapAccess_keepsOutside : KeepsOutside readOnlyCapAccess :=
  fun _ _ _ _ _ => .refl _ _ _

/-- A segment the loop routes to a handler other than `pci_hdr_access` lies past the header,
when every capability does. -/
theorem Routed.hdr_or_past {caps : List PciCap} (hafter : ∀ c ∈ caps, pciStdHeaderSizeof ≤ c.off)
    {cb : PciAccessCb} {offset n : Nat} (hr : Routed caps cb offset n) :
    cb = .hdr ∨ pciStdHeaderSizeof ≤ offset := by
  cases cb with
  | hdr => exact .inl rfl
  | cap => obtain ⟨c, hc, hoff, -⟩ := hr; exact .inr ((hafter c hc).trans hoff)
  | nonstd => exact .inr hr.1

/-! ### The loop's run lemma -/

section Loop

variable {σ : Type} {caps : List PciCap} {capFind : Nat → Nat → Option PciCap}
  {handler : PciAccessCb → Nat → Nat → σ → Int × σ}

/-- A property of the position and the handlers' state that every routed segment call keeps
holds when the loop returns. If the loop returns a count, nothing is left at that position;
if it returns an error, a call made where the property held returned it. -/
theorem pciConfigSpaceLoop_inv (hsize : ∀ c ∈ caps, 0 < c.size)
    (hfind : FindsLowestCap caps capFind) (hh : HandlerContract handler)
    {P : Nat → Nat → σ → Prop}
    (hstep : ∀ cb n offset count st, 0 < n → n ≤ count → Routed caps cb offset n →
      P offset count st → P (offset + (handler cb n offset st).1.toNat)
        (count - (handler cb n offset st).1.toNat) (handler cb n offset st).2)
    {start fuel count offset : Nat} {st st' : σ} {ret : Int} {calls : List SegmentCall}
    (hs : start ≤ offset) (hc : count < 2 ^ 64) (hP : P offset count st)
    (h : pciConfigSpaceLoop capFind handler start fuel count offset st = some (ret, calls, st')) :
    (∃ o c, P o c st' ∧ (0 ≤ ret → c = 0 ∧ ret = (o : Int) - start)) ∧
      (ret < 0 → ∃ cb n o c s, 0 < n ∧ n ≤ c ∧ Routed caps cb o n ∧ P o c s ∧
        (handler cb n o s).1 = ret) := by
  induction fuel generalizing count offset st calls with
  | zero => cases h
  | succ fuel ih =>
      by_cases h0 : count = 0
      · subst h0
        simp only [pciConfigSpaceLoop, if_true, Option.some.injEq, Prod.mk.injEq] at h
        obtain ⟨rfl, -, rfl⟩ := h
        exact ⟨⟨offset, 0, hP, fun _ => ⟨rfl, rfl⟩⟩, fun hneg => by omega⟩
      obtain ⟨hn, hle, hr⟩ :=
        pciConfigSpaceNextSegment_spec hsize hfind offset (Nat.pos_of_ne_zero h0)
      simp only [pciConfigSpaceLoop, h0, if_false] at h
      generalize pciConfigSpaceNextSegment capFind count offset = seg at hn hle hr h
      obtain ⟨cb, n⟩ := seg
      have hP' := hstep cb n offset count st hn hle hr hP
      have hcon := hh cb n offset st hn
      rcases he : handler cb n offset st with ⟨ret₀, st₀⟩
      rw [he] at hP' hcon h
      simp only at hP' hcon h
      split at h
      · simp only [Option.some.injEq, Prod.mk.injEq] at h
        obtain ⟨rfl, -, rfl⟩ := h
        exact ⟨⟨_, _, hP', fun h => absurd h (by omega)⟩,
          fun _ => ⟨cb, n, offset, count, st, hn, hle, hr, hP, by rw [he]⟩⟩
      · rename_i hnn
        obtain ⟨⟨ret', calls', st''⟩, hrun, hx⟩ := Option.map_eq_some'.mp h
        cases hx
        have hpos : 0 < ret₀ ∧ ret₀ ≤ n := hcon.resolve_left hnn
        have hcnt : (count + 2 ^ 64 - ret₀.toNat) % 2 ^ 64 = count - ret₀.toNat := by omega
        rw [hcnt] at hrun
        exact ih (by omega) (by omega) hP' hrun

end Loop

/-! ### The handlers -/

theorem pciHdrAccess_read (cfg : Nat → BitVec 8) (regInfo : Nat → VfuRegInfo)
    (buf : Nat → BitVec 8) {count : Nat} (offset : Nat) (h : count ≤ pciStdHeaderSizeof) :
    pciHdrAccess cfg regInfo buf count offset false =
      some ((count : Int), cfg, memcpyFromCfg cfg buf count offset) := by
  simp only [pciHdrAccess, not_lt.mpr h, if_false, Bool.false_eq_true]
  rfl

/-- A read through `pci_hdr_access` returns the count and leaves the config space. -/
theorem pciHdrAccess_read_eq_some {cfg cfg' : Nat → BitVec 8} {regInfo : Nat → VfuRegInfo}
    {buf buf' : Nat → BitVec 8} {count offset : Nat} {r : Int}
    (h : pciHdrAccess cfg regInfo buf count offset false = some (r, cfg', buf')) :
    r = count ∧ cfg' = cfg := by
  simp only [pciHdrAccess, Bool.false_eq_true, if_false] at h
  split_ifs at h
  simp only [Option.some.injEq, Prod.mk.injEq] at h
  exact ⟨h.1.symm, h.2.1.symm⟩

/-- `pci_hdr_access` returns an error or the whole count, and so does `pci_nonstd_access`
without a callback. -/
theorem pciHdrAccess_ret {cfg cfg' : Nat → BitVec 8} {regInfo : Nat → VfuRegInfo}
    {buf buf' : Nat → BitVec 8} {count offset : Nat} {isWrite : Bool} {r : Int}
    (h : pciHdrAccess cfg regInfo buf count offset isWrite = some (r, cfg', buf')) :
    r < 0 ∨ r = count := by
  cases isWrite
  · exact .inr (pciHdrAccess_read_eq_some h).1
  · rw [(pciHdrAccess_write_eq_some h).1]
    split
    · exact .inl ‹_›
    · exact .inr rfl

/-- A relation that holds of the config space with itself and with what `pci_hdr_write` makes of
it holds across `pci_hdr_access`. -/
theorem pciHdrAccess_keeps {R : (Nat → BitVec 8) → (Nat → BitVec 8) → Prop}
    {cfg cfg' : Nat → BitVec 8} {regInfo : Nat → VfuRegInfo} {buf buf' : Nat → BitVec 8}
    {count offset : Nat} {isWrite : Bool} {r : Int} (hrefl : R cfg cfg)
    (hwrite : R cfg (pciHdrWrite cfg regInfo buf count offset).2)
    (h : pciHdrAccess cfg regInfo buf count offset isWrite = some (r, cfg', buf')) : R cfg cfg' := by
  cases isWrite
  · rwa [(pciHdrAccess_read_eq_some h).2]
  · obtain ⟨-, rfl⟩ := pciHdrAccess_write_eq_some h
    exact hwrite

theorem pciHdrAccess_readOnly {cfg cfg' : Nat → BitVec 8} {regInfo : Nat → VfuRegInfo}
    {buf buf' : Nat → BitVec 8} {count offset : Nat} {isWrite : Bool} {r : Int}
    (h : pciHdrAccess cfg regInfo buf count offset isWrite = some (r, cfg', buf')) {i : Nat}
    (hi : ¬HeaderWritable i) : cfg' i = cfg i :=
  pciHdrAccess_keeps (R := fun a b => b i = a i) rfl
    (pciHdrWrite_readOnly cfg regInfo buf count offset hi) h

/-- `pci_hdr_access` changes at most the four bytes from its offset. -/
theorem pciHdrAccess_changesOnly {cfg cfg' : Nat → BitVec 8} {regInfo : Nat → VfuRegInfo}
    {buf buf' : Nat → BitVec 8} {count offset : Nat} {isWrite : Bool} {r : Int}
    (h : pciHdrAccess cfg regInfo buf count offset isWrite = some (r, cfg', buf')) :
    ChangesOnly cfg cfg' offset 4 :=
  pciHdrAccess_keeps (R := fun a b => ChangesOnly a b offset 4) (.refl cfg _ _)
    (pciHdrWrite_changesOnly cfg regInfo buf count offset) h

theorem pciConfigSpaceHandler_contract {capAccess : RegionAccessCb}
    {cfgCb : Option RegionAccessCb} {isWrite : Bool} (hcap : CbContract capAccess isWrite)
    (hcb : ∀ cb ∈ cfgCb, CbContract cb isWrite) (regInfo : Nat → VfuRegInfo) (start : Nat) :
    HandlerContract (pciConfigSpaceHandler capAccess cfgCb regInfo isWrite start) := by
  intro cb n offset st hn
  rcases st with _ | st
  · exact .inl (show (-1 : Int) < 0 by decide)
  cases cb with
  | hdr =>
      simp only [pciConfigSpaceHandler]
      split
      · exact .inl (show (-1 : Int) < 0 by decide)
      · rename_i r cfg' win' h
        rcases pciHdrAccess_ret h with hr | rfl
        · exact .inl hr
        · exact .inr ⟨by omega, le_rfl⟩
  | cap => exact hcap _ _ n offset hn
  | nonstd =>
      simp only [pciConfigSpaceHandler, pciNonstdAccess]
      rcases cfgCb with _ | cb
      · cases isWrite
        · exact .inr ⟨by simp only [Bool.false_eq_true, if_false]; omega, by simp⟩
        · exact .inl (show -Dma.einval < 0 by decide)
      · exact hcb cb rfl _ _ n offset hn

/-- What one handler call does to the config space: `pci_hdr_access` changes no read-only header
byte and at most the four bytes from the offset; the other handlers change at most their
segment. -/
theorem pciConfigSpaceHandler_cfg {capAccess : RegionAccessCb} {cfgCb : Option RegionAccessCb}
    (hcap : KeepsOutside capAccess) (hcb : ∀ cb ∈ cfgCb, KeepsOutside cb)
    (regInfo : Nat → VfuRegInfo) (isWrite : Bool) (start : Nat) {cb : PciAccessCb}
    {n offset : Nat} {st st' : AccessState}
    (h : (pciConfigSpaceHandler capAccess cfgCb regInfo isWrite start cb n offset (some st)).2 =
      some st') :
    (cb = .hdr → (∀ i, ¬HeaderWritable i → st'.cfg i = st.cfg i) ∧
        ChangesOnly st.cfg st'.cfg offset 4) ∧
      (cb ≠ .hdr → ChangesOnly st.cfg st'.cfg offset n) := by
  cases cb with
  | hdr =>
      simp only [pciConfigSpaceHandler] at h
      split at h
      · cases h
      · rename_i r cfg' win' hh
        cases h
        exact ⟨fun _ => ⟨fun i hi => pciHdrAccess_readOnly hh hi, pciHdrAccess_changesOnly hh⟩,
          fun h => absurd rfl h⟩
  | cap =>
      cases h
      exact ⟨(fun h => nomatch h), fun _ => hcap _ _ _ _ _⟩
  | nonstd =>
      cases h
      refine ⟨(fun h => nomatch h), fun _ => ?_⟩
      rcases cfgCb with _ | cb
      · cases isWrite <;> exact .refl _ _ _
      · exact hcb cb rfl _ _ _ _ _

/-- On a segment the loop routes to it, `pci_hdr_access` passes its `assert`. -/
theorem pciConfigSpaceHandler_isSome (capAccess : RegionAccessCb) (cfgCb : Option RegionAccessCb)
    (regInfo : Nat → VfuRegInfo) (isWrite : Bool) (start : Nat) {caps : List PciCap}
    {cb : PciAccessCb} {n offset : Nat} (hr : Routed caps cb offset n) (st : AccessState) :
    (pciConfigSpaceHandler capAccess cfgCb regInfo isWrite start cb n offset (some st)).2.isSome := by
  cases cb with
  | hdr =>
      simp only [Routed] at hr
      simp only [pciConfigSpaceHandler, pciHdrAccess, not_lt.mpr (show n ≤ pciStdHeaderSizeof by omega),
        if_false]
      cases isWrite <;> rfl
  | cap => rfl
  | nonstd => rfl

/-- Without a config-space callback, and with a capability handler that copies on reads, every
routed segment of a read is copied whole. -/
theorem pciConfigSpaceHandler_read {capAccess : RegionAccessCb} (hcap : CopiesOnRead capAccess)
    (regInfo : Nat → VfuRegInfo) (start : Nat) {caps : List PciCap} {cb : PciAccessCb}
    {n offset : Nat} (hr : Routed caps cb offset n) (st : AccessState) :
    pciConfigSpaceHandler capAccess none regInfo false start cb n offset (some st) =
      ((n : Int), some ⟨st.cfg, writeBack st.buf (offset - start)
        (memcpyFromCfg st.cfg (fun i => st.buf (offset - start + i)) n offset)⟩) := by
  cases cb with
  | hdr =>
      simp only [Routed] at hr
      simp only [pciConfigSpaceHandler, pciHdrAccess_read _ _ _ _ (show n ≤ pciStdHeaderSizeof by omega)]
  | cap => simp only [pciConfigSpaceHandler]; rw [hcap]
  | nonstd => rfl

/-- An access that stays in the standard header is one `pci_hdr_access` call, when that call
takes the whole count. -/
theorem pciConfigSpaceRw_hdr (capFind : Nat → Nat → Option PciCap) (capAccess : RegionAccessCb)
    (cfgCb : Option RegionAccessCb) (regInfo : Nat → VfuRegInfo) (isWrite : Bool) {count offset : Nat}
    (h0 : 0 < count) (h : offset + count ≤ pciStdHeaderSizeof) {st st' : AccessState}
    (hh : pciConfigSpaceHandler capAccess cfgCb regInfo isWrite offset .hdr count offset (some st) =
      ((count : Int), some st')) :
    pciConfigSpaceRw capFind capAccess cfgCb regInfo isWrite (count + 1) count offset st =
      some ((count : Int), [⟨.hdr, offset, count, count⟩], some st') := by
  have hseg : pciConfigSpaceNextSegment capFind count offset = (.hdr, count) := by
    simp only [pciConfigSpaceNextSegment, pciStdHeaderSizeof] at h ⊢
    rw [if_pos (by omega), Nat.min_eq_left (by omega)]
  obtain ⟨k, rfl⟩ : ∃ k, count = k + 1 := ⟨count - 1, by omega⟩
  simp only [pciConfigSpaceRw, pciConfigSpaceAccess, pciConfigSpaceLoop, Nat.add_one_ne_zero,
    if_false, hseg, hh, Int.toNat_ofNat, show ¬((k + 1 : Nat) : Int) < 0 by omega,
    show (k + 1 + 2 ^ 64 - (k + 1)) % 2 ^ 64 = 0 by omega, if_true, Option.map_some']
  congr 2
  omega

/-- A read that stays in the standard header copies every byte. -/
theorem pciConfigSpaceRw_hdr_read (capFind : Nat → Nat → Option PciCap) (capAccess : RegionAccessCb)
    (cfgCb : Option RegionAccessCb) (regInfo : Nat → VfuRegInfo) {count offset : Nat}
    (h0 : 0 < count) (h : offset + count ≤ pciStdHeaderSizeof) (st : AccessState) :
    pciConfigSpaceRw capFind capAccess cfgCb regInfo false (count + 1) count offset st =
      some ((count : Int), [⟨.hdr, offset, count, count⟩],
        some ⟨st.cfg, memcpyFromCfg st.cfg st.buf count offset⟩) := by
  refine pciConfigSpaceRw_hdr _ _ _ _ _ h0 h ?_
  have := writeBack_memcpyFromCfg st.cfg st.buf count (show offset = offset + 0 from rfl)
  simp only [memcpyFromCfg_zero, Nat.zero_add] at this
  simp only [pciConfigSpaceHandler, Nat.sub_self, Nat.zero_add,
    pciHdrAccess_read _ _ _ _ (show count ≤ pciStdHeaderSizeof by omega), this]

/-- A write that stays in the standard header and that `pci_hdr_write` takes is stored as
`pci_hdr_write` stores it. -/
theorem pciConfigSpaceRw_hdr_write (capFind : Nat → Nat → Option PciCap) (capAccess : RegionAccessCb)
    (cfgCb : Option RegionAccessCb) (regInfo : Nat → VfuRegInfo) {count offset : Nat}
    (h0 : 0 < count) (h : offset + count ≤ pciStdHeaderSizeof) (st : AccessState)
    (hok : 0 ≤ (pciHdrWrite st.cfg regInfo st.buf count offset).1) :
    pciConfigSpaceRw capFind capAccess cfgCb regInfo true (count + 1) count offset st =
      some ((count : Int), [⟨.hdr, offset, count, count⟩],
        some ⟨(pciHdrWrite st.cfg regInfo st.buf count offset).2, st.buf⟩) := by
  refine pciConfigSpaceRw_hdr _ _ _ _ _ h0 h ?_
  have hwin : (fun i => st.buf (0 + i)) = st.buf := funext fun i => by rw [Nat.zero_add]
  have hback : writeBack st.buf 0 st.buf = st.buf := funext fun j => by simp [writeBack]
  simp only [pciConfigSpaceHandler, Nat.sub_self, hwin,
    pciHdrAccess_write _ _ _ _ (show count ≤ pciStdHeaderSizeof by omega), if_neg (not_lt.mpr hok),
    hback]

/-! ### Whole accesses -/

section Access

variable {caps : List PciCap} {capFind : Nat → Nat → Option PciCap} {capAccess : RegionAccessCb}
  {cfgCb : Option RegionAccessCb} {regInfo : Nat → VfuRegInfo}

/-- With callbacks that return an error or between one and the bytes asked for, every access of
the config space returns within `count + 1` iterations, and never fails the `assert` of
`pci_hdr_access`. -/
theorem pciConfigSpaceRw_returns (hsize : ∀ c ∈ caps, 0 < c.size)
    (hfind : FindsLowestCap caps capFind) {isWrite : Bool} (hcap : CbContract capAccess isWrite)
    (hcb : ∀ cb ∈ cfgCb, CbContract cb isWrite) (st : AccessState) {count : Nat}
    (hc : count < 2 ^ 64) (offset : Nat) :
    ∃ ret calls st', pciConfigSpaceRw capFind capAccess cfgCb regInfo isWrite (count + 1) count
      offset st = some (ret, calls, some st') := by
  have hh := pciConfigSpaceHandler_contract hcap hcb regInfo offset
  obtain ⟨ret, calls, st'', h, -⟩ :=
    pciConfigSpaceLoop_tiles hsize hfind hh offset hc (Nat.lt_succ_self _) offset (some st)
  obtain ⟨⟨o, c, hsome, -⟩, -⟩ := pciConfigSpaceLoop_inv (P := fun _ _ s => s.isSome) hsize hfind hh
    (fun cb n o _ s _ _ hr hs => by
      obtain ⟨s, rfl⟩ := Option.isSome_iff_exists.mp hs
      exact pciConfigSpaceHandler_isSome capAccess cfgCb regInfo isWrite offset hr s)
    le_rfl hc (show (some st).isSome = true from rfl) h
  obtain ⟨st', rfl⟩ := Option.isSome_iff_exists.mp hsome
  exact ⟨ret, calls, st', h⟩

/-- A read of the config space without a config-space callback, with a capability handler
that copies on reads, returns the count, leaves the config space as it was, and fills the first
`count` bytes of the caller's buffer with the config bytes from `offset`. -/
theorem pciConfigSpaceRw_read (hsize : ∀ c ∈ caps, 0 < c.size)
    (hfind : FindsLowestCap caps capFind) (hcap : CopiesOnRead capAccess) (st : AccessState)
    {count : Nat} (hc : count < 2 ^ 64) (offset : Nat) :
    ∃ calls, pciConfigSpaceRw capFind capAccess none regInfo false (count + 1) count offset st =
      some ((count : Int), calls, some ⟨st.cfg, memcpyFromCfg st.cfg st.buf count offset⟩) := by
  have hc' : CbContract capAccess false := fun cfg buf n o hn => by
    rw [hcap]; exact .inr ⟨by simpa using hn, le_rfl⟩
  have hh := pciConfigSpaceHandler_contract hc' (fun _ h => absurd h (Option.not_mem_none _)) regInfo offset
  obtain ⟨ret, calls, st', h, -⟩ :=
    pciConfigSpaceLoop_tiles hsize hfind hh offset hc (Nat.lt_succ_self _) offset (some st)
  let P : Nat → Nat → Option AccessState → Prop := fun o c s =>
    offset ≤ o ∧ o - offset + c = count ∧
      s = some ⟨st.cfg, memcpyFromCfg st.cfg st.buf (o - offset) offset⟩
  obtain ⟨⟨o, c, ⟨ho, hcnt, rfl⟩, hret⟩, herr⟩ := pciConfigSpaceLoop_inv (P := P) hsize hfind hh
    (fun cb n o c s _ _ hr ⟨ho, hcnt, hs⟩ => by
      subst hs
      rw [pciConfigSpaceHandler_read hcap regInfo offset hr,
        writeBack_memcpyFromCfg _ _ n (show o = offset + (o - offset) by omega)]
      refine ⟨by omega, by simp only [Int.toNat_ofNat]; omega, ?_⟩
      simp only [Int.toNat_ofNat, show o + n - offset = o - offset + n by omega])
    le_rfl hc ⟨le_rfl, by simp, by simp⟩ h
  by_cases hneg : ret < 0
  · obtain ⟨cb, n, o', c', s, hn, -, hr, ⟨-, -, rfl⟩, hr'⟩ := herr hneg
    rw [pciConfigSpaceHandler_read hcap regInfo offset hr] at hr'
    omega
  clear herr
  obtain ⟨rfl, rfl⟩ := hret (not_lt.mp hneg)
  simp only [Nat.add_zero] at hcnt
  subst hcnt
  rw [show (o : Int) - offset = ((o - offset : Nat) : Int) by omega] at h
  exact ⟨calls, h⟩

/-- A reflexive, transitive relation between config spaces that every `pci_hdr_write` and every
change past the standard header keep holds between the config space before an access and
after it, when the callbacks change nothing outside their segment. -/
theorem pciConfigSpaceRw_keeps (hwf : CapsWf caps) (hfind : FindsLowestCap caps capFind)
    {isWrite : Bool} (hcap : CbContract capAccess isWrite) (hcb : ∀ cb ∈ cfgCb, CbContract cb isWrite)
    (hcapk : KeepsOutside capAccess) (hcbk : ∀ cb ∈ cfgCb, KeepsOutside cb)
    {R : (Nat → BitVec 8) → (Nat → BitVec 8) → Prop} (hrefl : ∀ c, R c c)
    (htrans : ∀ {a b c}, R a b → R b c → R a c)
    (hwrite : ∀ cfg buf count offset, R cfg (pciHdrWrite cfg regInfo buf count offset).2)
    (hpast : ∀ {cfg cfg' : Nat → BitVec 8} {lo n : Nat}, pciStdHeaderSizeof ≤ lo →
      ChangesOnly cfg cfg' lo n → R cfg cfg')
    {st st' : AccessState} {fuel count offset : Nat} {ret : Int} {calls : List SegmentCall}
    (hc : count < 2 ^ 64)
    (h : pciConfigSpaceRw capFind capAccess cfgCb regInfo isWrite fuel count offset st =
      some (ret, calls, some st')) :
    R st.cfg st'.cfg := by
  have hh := pciConfigSpaceHandler_contract hcap hcb regInfo offset
  obtain ⟨⟨-, -, ⟨t, ht, hkeep⟩, -⟩, -⟩ :=
    pciConfigSpaceLoop_inv (P := fun _ _ s => ∃ t, s = some t ∧ R st.cfg t.cfg) hwf.pos hfind hh
    (fun cb n o _ s _ _ hr ⟨t, hs, hkeep⟩ => by
      subst hs
      obtain ⟨t', ht'⟩ := Option.isSome_iff_exists.mp
        (pciConfigSpaceHandler_isSome capAccess cfgCb regInfo isWrite offset hr t)
      refine ⟨t', ht', htrans hkeep ?_⟩
      by_cases hhd : cb = .hdr
      · subst hhd
        simp only [pciConfigSpaceHandler] at ht'
        split at ht'
        · cases ht'
        · rename_i r cfg' win' hacc
          cases ht'
          exact pciHdrAccess_keeps (hrefl _) (hwrite _ _ _ _) hacc
      · exact hpast ((hr.hdr_or_past hwf.afterHeader).resolve_left hhd)
          ((pciConfigSpaceHandler_cfg hcapk hcbk regInfo isWrite offset ht').2 hhd))
    le_rfl hc ⟨st, rfl, hrefl _⟩ h
  cases ht
  exact hkeep

/-- With callbacks that change nothing outside their segment, an access of `count` bytes at
`offset` changes no config byte outside `[offset, offset + count + 3)`: a header write may store
a whole register past a shorter count. -/
theorem pciConfigSpaceRw_changesOnly (hsize : ∀ c ∈ caps, 0 < c.size)
    (hfind : FindsLowestCap caps capFind) {isWrite : Bool} (hcap : CbContract capAccess isWrite)
    (hcb : ∀ cb ∈ cfgCb, CbContract cb isWrite) (hcapk : KeepsOutside capAccess)
    (hcbk : ∀ cb ∈ cfgCb, KeepsOutside cb) {st st' : AccessState} {fuel count offset : Nat}
    {ret : Int} {calls : List SegmentCall} (hc : count < 2 ^ 64)
    (h : pciConfigSpaceRw capFind capAccess cfgCb regInfo isWrite fuel count offset st =
      some (ret, calls, some st')) :
    ChangesOnly st.cfg st'.cfg offset (count + 3) := by
  have hh := pciConfigSpaceHandler_contract hcap hcb regInfo offset
  let P : Nat → Nat → Option AccessState → Prop := fun o c s =>
    ∃ t, s = some t ∧ offset ≤ o ∧ o + c = offset + count ∧ ChangesOnly st.cfg t.cfg offset (count + 3)
  obtain ⟨⟨-, -, ⟨t, ht, -, -, hch⟩, -⟩, -⟩ := pciConfigSpaceLoop_inv (P := P) hsize hfind hh
    (fun cb n o c s hn hle hr ⟨t, hs, ho, hoc, hch⟩ => by
      subst hs
      have hcon := hh cb n o (some t) hn
      obtain ⟨t', ht'⟩ := Option.isSome_iff_exists.mp
        (pciConfigSpaceHandler_isSome capAccess cfgCb regInfo isWrite offset hr t)
      have hcfg := pciConfigSpaceHandler_cfg hcapk hcbk regInfo isWrite offset ht'
      have hseg : ChangesOnly t.cfg t'.cfg o (n + 3) := by
        by_cases hcb : cb = .hdr
        · exact ((hcfg.1 hcb).2).mono le_rfl (by omega)
        · exact (hcfg.2 hcb).mono le_rfl (by omega)
      refine ⟨t', ht', by omega, by omega, hch.trans (hseg.mono ho (by omega))⟩)
    le_rfl hc ⟨st, rfl, le_rfl, rfl, .refl _ _ _⟩ h
  cases ht
  exact hch

theorem pciConfigSpaceRw_changesOnly_header_then_cap :
    KeepsOutside readOnlyCapAccess ∧
      ∃ ret calls st', pciConfigSpaceRw (lowestOverlappingCap [⟨0x40, 0x10⟩]) readOnlyCapAccess none
          (fun _ => ⟨0, false⟩) true (0x10 + 1) 0x10 0x3c ⟨fun _ => 0, fun _ => 7⟩ =
          some (ret, calls, some st') ∧
        ChangesOnly (fun _ => 0) st'.cfg 0x3c (0x10 + 3) := by
  have h : pciConfigSpaceRw (lowestOverlappingCap [⟨0x40, 0x10⟩]) readOnlyCapAccess none
      (fun _ => ⟨0, false⟩) true (0x10 + 1) 0x10 0x3c ⟨fun _ => 0, fun _ => 7⟩ =
      some (_, _, some _) := rfl
  exact ⟨readOnlyCapAccess_keepsOutside, _, _, _, h,
    pciConfigSpaceRw_changesOnly (by decide) (lowestOverlappingCap_finds _)
      (readOnlyCapAccess_contract true) (fun _ h => absurd h (Option.not_mem_none _))
      readOnlyCapAccess_keepsOutside (fun _ h => absurd h (Option.not_mem_none _)) (by decide) h⟩

end Access

end VfioUser.Pci
