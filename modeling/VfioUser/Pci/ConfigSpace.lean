import Mathlib

/-!
# Routing config-space accesses

`pci_config_space_access` cuts an access into segments and hands each to one of three
handlers: `pci_hdr_access` for the standard header, `pci_cap_access` for a capability and
`pci_nonstd_access` for the rest. `pci_config_space_next_segment` picks the handler and the
segment's size; the loop advances by what the handler returns and stops at the first error.

A segment that starts inside a capability is cut to the capability's size, not to what is
left of the capability, so it can run past the capability's end.

## Implementation notes

Offsets and counts are `Nat`: the routing results take `offset >= 0`, and config space lies far
below `2 ^ 63`. `count -= ret` keeps its `size_t` wrap. The buffer pointer is left out: it
always sits `offset - start` bytes into the caller's buffer. `cap_find_by_offset` is not among
the sources; the routing results take it as a parameter meeting the contract `FindsLowestCap`.
The handlers are one function of the handler chosen, the segment and a state it may change.
-/

namespace VfioUser.Pci

/-- `PCI_STD_HEADER_SIZEOF`. -/
def pciStdHeaderSizeof : Nat := 64

/-- The fields of `struct pci_cap` that routing reads. -/
structure PciCap where
  off : Nat
  size : Nat
deriving DecidableEq, Repr

/-- The handlers `pci_config_space_next_segment` chooses from. -/
inductive PciAccessCb where
  /-- `pci_hdr_access` -/
  | hdr
  /-- `pci_cap_access` -/
  | cap
  /-- `pci_nonstd_access` -/
  | nonstd
deriving DecidableEq, Repr

/-- The capability shares a byte with `[offset, offset + count)`. -/
def PciCap.Overlaps (c : PciCap) (offset count : Nat) : Prop :=
  c.off < offset + count ∧ offset < c.off + c.size

instance (c : PciCap) (offset count : Nat) : Decidable (c.Overlaps offset count) :=
  inferInstanceAs (Decidable (_ ∧ _))

/-- The contract assumed of `cap_find_by_offset`: it returns the lowest-offset capability
overlapping the access, or `NULL` when none does. -/
structure FindsLowestCap (caps : List PciCap) (capFind : Nat → Nat → Option PciCap) : Prop where
  none_spec : ∀ offset count, capFind offset count = none →
    ∀ c ∈ caps, ¬ c.Overlaps offset count
  some_spec : ∀ offset count cap, capFind offset count = some cap →
    cap ∈ caps ∧ cap.Overlaps offset count ∧ ∀ c ∈ caps, c.Overlaps offset count → cap.off ≤ c.off

/-- A capability list as the device builds it: every capability is non-empty, lies past the
standard header, and no two overlap. -/
structure CapsWf (caps : List PciCap) : Prop where
  pos : ∀ c ∈ caps, 0 < c.size
  afterHeader : ∀ c ∈ caps, pciStdHeaderSizeof ≤ c.off
  disjoint : caps.Pairwise fun c d => c.off + c.size ≤ d.off ∨ d.off + d.size ≤ c.off

instance (caps : List PciCap) : Decidable (CapsWf caps) :=
  decidable_of_iff ((∀ c ∈ caps, 0 < c.size) ∧ (∀ c ∈ caps, pciStdHeaderSizeof ≤ c.off) ∧
      caps.Pairwise fun c d => c.off + c.size ≤ d.off ∨ d.off + d.size ≤ c.off)
    ⟨fun ⟨a, b, c⟩ => ⟨a, b, c⟩, fun ⟨a, b, c⟩ => ⟨a, b, c⟩⟩

/-- A finder meeting the contract: of the capabilities overlapping the access, the first one
with the lowest offset. -/
def lowestOverlappingCap : List PciCap → Nat → Nat → Option PciCap
  | [], _, _ => none
  | c :: cs, offset, count =>
      if c.Overlaps offset count then
        match lowestOverlappingCap cs offset count with
        | some d => if d.off < c.off then some d else some c
        | none => some c
      else lowestOverlappingCap cs offset count

theorem lowestOverlappingCap_finds (caps : List PciCap) :
    FindsLowestCap caps (lowestOverlappingCap caps) := by
  induction caps with
  | nil => exact ⟨fun _ _ _ _ hc => absurd hc (List.not_mem_nil _), fun _ _ _ h => nomatch h⟩
  | cons c cs ih =>
      constructor
      · intro offset count h d hd
        by_cases hc : c.Overlaps offset count
        · simp only [lowestOverlappingCap, if_pos hc] at h
          split at h <;> (try split at h) <;> cases h
        · simp only [lowestOverlappingCap, if_neg hc] at h
          rcases List.mem_cons.mp hd with rfl | hd
          · exact hc
          · exact ih.none_spec offset count h d hd
      · intro offset count cap h
        simp only [List.mem_cons, forall_eq_or_imp]
        by_cases hc : c.Overlaps offset count
        · simp only [lowestOverlappingCap, if_pos hc] at h
          cases hr : lowestOverlappingCap cs offset count with
          | none =>
              rw [hr] at h; cases h
              exact ⟨.inl rfl, hc, fun _ => Nat.le_refl _,
                fun e he ho => absurd ho (ih.none_spec _ _ hr e he)⟩
          | some d =>
              simp only [hr] at h
              obtain ⟨hdm, hdo, hdl⟩ := ih.some_spec offset count d hr
              by_cases hlt : d.off < c.off
              · rw [if_pos hlt] at h; cases h
                exact ⟨.inr hdm, hdo, fun _ => Nat.le_of_lt hlt, hdl⟩
              · rw [if_neg hlt] at h; cases h
                exact ⟨.inl rfl, hc, fun _ => Nat.le_refl _,
                  fun e he ho => by have := hdl e he ho; omega⟩
        · simp only [lowestOverlappingCap, if_neg hc] at h
          obtain ⟨hm, ho, hl⟩ := ih.some_spec offset count cap h
          exact ⟨.inr hm, ho, fun h' => absurd h' hc, hl⟩

/-- `pci_config_space_next_segment`: the handler for the segment at `offset` and its size, for
an access with `count` bytes left. `capFind` is `cap_find_by_offset`. -/
def pciConfigSpaceNextSegment (capFind : Nat → Nat → Option PciCap) (count offset : Nat) :
    PciAccessCb × Nat :=
  if offset < pciStdHeaderSizeof then (.hdr, min count (pciStdHeaderSizeof - offset))
  else match capFind offset count with
    | none => (.nonstd, count)
    | some cap => if offset < cap.off then (.nonstd, cap.off - offset) else (.cap, min count cap.size)

/-- Where a segment of `size` bytes at `offset` handed to `cb` lies: a header segment ends by the
header's end; a non-standard one lies past the header and misses every capability; a capability
segment starts inside a capability and is no longer than it. -/
def Routed (caps : List PciCap) : PciAccessCb → Nat → Nat → Prop
  | .hdr, offset, size => offset + size ≤ pciStdHeaderSizeof
  | .nonstd, offset, size => pciStdHeaderSizeof ≤ offset ∧ ∀ c ∈ caps, ¬ c.Overlaps offset size
  | .cap, offset, size => ∃ c ∈ caps, c.off ≤ offset ∧ offset < c.off + c.size ∧ size ≤ c.size

section Routing

variable {caps : List PciCap} {capFind : Nat → Nat → Option PciCap}

/-- Every segment is between one byte and what is left of the access long, and lies where
`Routed` says. -/
theorem pciConfigSpaceNextSegment_spec (hsize : ∀ c ∈ caps, 0 < c.size)
    (hfind : FindsLowestCap caps capFind) {count : Nat} (offset : Nat) (hcount : 0 < count) :
    0 < (pciConfigSpaceNextSegment capFind count offset).2 ∧
      (pciConfigSpaceNextSegment capFind count offset).2 ≤ count ∧
      Routed caps (pciConfigSpaceNextSegment capFind count offset).1 offset
        (pciConfigSpaceNextSegment capFind count offset).2 := by
  unfold pciConfigSpaceNextSegment
  split
  · rename_i hh
    simp only [Routed, pciStdHeaderSizeof] at hh ⊢
    omega
  · rename_i hh
    split
    · rename_i hn
      simp only [Routed, pciStdHeaderSizeof] at hh ⊢
      exact ⟨hcount, Nat.le_refl _, by omega, hfind.none_spec offset count hn⟩
    · rename_i cap hcap
      obtain ⟨hm, ho, hl⟩ := hfind.some_spec offset count cap hcap
      have hpos := hsize cap hm
      simp only [PciCap.Overlaps] at ho
      split
      · simp only [Routed, pciStdHeaderSizeof] at hh ⊢
        refine ⟨by omega, by omega, by omega, fun c hc hco => ?_⟩
        have := hl c hc ⟨by simp only [PciCap.Overlaps] at hco; omega, hco.2⟩
        simp only [PciCap.Overlaps] at hco
        omega
      · simp only [Routed]
        exact ⟨by omega, Nat.min_le_left _ _, cap, hm, by omega, by omega, Nat.min_le_right _ _⟩

end Routing

/-- One handler call: the handler, the segment's offset and size, and what the handler
returned. -/
structure SegmentCall where
  cb : PciAccessCb
  offset : Nat
  size : Nat
  ret : Int
deriving DecidableEq, Repr

/-- The `while (count > 0)` loop of `pci_config_space_access` from `start`, for at most `fuel`
iterations: the return value, the handler calls made, and the handlers' final state; `none`
when the fuel runs out. -/
def pciConfigSpaceLoop {σ : Type} (capFind : Nat → Nat → Option PciCap)
    (handler : PciAccessCb → Nat → Nat → σ → Int × σ) (start : Nat) :
    Nat → Nat → Nat → σ → Option (Int × List SegmentCall × σ)
  | 0, _, _, _ => none
  | fuel + 1, count, offset, st =>
      if count = 0 then some ((offset : Int) - start, [], st)
      else
        let seg := pciConfigSpaceNextSegment capFind count offset
        let r := handler seg.1 seg.2 offset st
        let call : SegmentCall := ⟨seg.1, offset, seg.2, r.1⟩
        if r.1 < 0 then some (r.1, [call], r.2)
        else (pciConfigSpaceLoop capFind handler start fuel ((count + 2 ^ 64 - r.1.toNat) % 2 ^ 64)
            (offset + r.1.toNat) r.2).map fun x => (x.1, call :: x.2.1, x.2.2)

/-- `pci_config_space_access`. -/
def pciConfigSpaceAccess {σ : Type} (capFind : Nat → Nat → Option PciCap)
    (handler : PciAccessCb → Nat → Nat → σ → Int × σ) (fuel count offset : Nat) (st : σ) :
    Option (Int × List SegmentCall × σ) :=
  pciConfigSpaceLoop capFind handler offset fuel count offset st

/-- Every handler call on a segment of `n > 0` bytes returns an error or a count in `[1, n]`. -/
def HandlerContract {σ : Type} (handler : PciAccessCb → Nat → Nat → σ → Int × σ) : Prop :=
  ∀ cb n offset st, 0 < n →
    (handler cb n offset st).1 < 0 ∨
      0 < (handler cb n offset st).1 ∧ (handler cb n offset st).1 ≤ n

/-- The calls of an access of `count` bytes at `offset`, in order: each starts where the
previous one's returned count ended, is between one byte and what is left long, and returns
either an error, which ends the access and is `err`, or a count between one and its size. -/
inductive Tiles : Nat → Nat → List SegmentCall → Option Int → Prop
  | done (offset : Nat) : Tiles offset 0 [] none
  | fail {offset count : Nat} {c : SegmentCall} (ho : c.offset = offset) (hs : 0 < c.size)
      (hc : c.size ≤ count) (hr : c.ret < 0) : Tiles offset count [c] (some c.ret)
  | step {offset count : Nat} {c : SegmentCall} {cs : List SegmentCall} {err : Option Int}
      (ho : c.offset = offset) (hs : 0 < c.size) (hc : c.size ≤ count) (hr : 0 < c.ret)
      (hrs : c.ret ≤ c.size) (rest : Tiles (offset + c.ret.toNat) (count - c.ret.toNat) cs err) :
      Tiles offset count (c :: cs) err

/-- Tiled calls stay inside the access. -/
theorem Tiles.within {offset count : Nat} {cs : List SegmentCall} {err : Option Int}
    (h : Tiles offset count cs err) : ∀ c ∈ cs, offset ≤ c.offset ∧ c.offset + c.size ≤ offset + count := by
  induction h with
  | done => simp
  | fail ho _ hc => simp only [List.mem_singleton, forall_eq]; omega
  | step ho _ hc hr hrs _ ih =>
      simp only [List.mem_cons, forall_eq_or_imp]
      refine ⟨by omega, fun c hc' => ?_⟩
      have := ih c hc'
      omega

section Loop

variable {σ : Type} {caps : List PciCap} {capFind : Nat → Nat → Option PciCap}
  {handler : PciAccessCb → Nat → Nat → σ → Int × σ}

/-- From any point of the loop with at most `fuel - 1` bytes left, handlers meeting their
contract make the loop return: its calls tile what is left of the access, and it returns the
first error or the end of the access less `start`. -/
theorem pciConfigSpaceLoop_tiles (hsize : ∀ c ∈ caps, 0 < c.size)
    (hfind : FindsLowestCap caps capFind) (hh : HandlerContract handler) (start : Nat)
    {fuel count : Nat} (hc : count < 2 ^ 64) (hfuel : count < fuel) (offset : Nat) (st : σ) :
    ∃ ret calls st', pciConfigSpaceLoop capFind handler start fuel count offset st =
        some (ret, calls, st') ∧
      ∃ err, Tiles offset count calls err ∧ ret = err.getD ((offset + count : Nat) - start : Int) := by
  induction fuel generalizing count offset st with
  | zero => omega
  | succ fuel ih =>
      by_cases h0 : count = 0
      · subst h0
        exact ⟨(offset : Int) - start, [], st, by simp [pciConfigSpaceLoop], none, .done _,
          by simp⟩
      have hseg := pciConfigSpaceNextSegment_spec hsize hfind offset (Nat.pos_of_ne_zero h0)
      simp only [pciConfigSpaceLoop, h0, if_false]
      generalize pciConfigSpaceNextSegment capFind count offset = seg at hseg ⊢
      obtain ⟨cb, n⟩ := seg
      have hcon := hh cb n offset st hseg.1
      generalize handler cb n offset st = r at hcon ⊢
      obtain ⟨ret₀, st₀⟩ := r
      rcases hcon with hneg | ⟨hpos, hle⟩
      · simp only at hneg hseg
        exact ⟨ret₀, [⟨cb, offset, n, ret₀⟩], st₀, by simp only [if_pos hneg], some ret₀,
          .fail (c := ⟨cb, offset, n, ret₀⟩) rfl hseg.1 hseg.2.1 hneg, rfl⟩
      · have hn := hseg.2.1
        simp only at hpos hle hn hseg
        obtain ⟨ret, calls, st', hrun, err, ht, hret⟩ :=
          ih (show count - ret₀.toNat < 2 ^ 64 by omega) (by omega) (offset + ret₀.toNat) st₀
        have hcnt : (count + 2 ^ 64 - ret₀.toNat) % 2 ^ 64 = count - ret₀.toNat := by omega
        refine ⟨ret, ⟨cb, offset, n, ret₀⟩ :: calls, st', ?_, err,
          .step (c := ⟨cb, offset, n, ret₀⟩) rfl hseg.1 hn hpos hle ht, ?_⟩
        · simp only [if_neg (Int.not_lt.mpr (Int.le_of_lt hpos)), hcnt, hrun]; rfl
        · rw [hret]; congr 2; omega

/-- With a finder meeting its contract, capabilities of positive size and handlers that return
an error or between one byte and the segment's size, `pci_config_space_access` returns once its
fuel exceeds `count`: its calls tile `[offset, offset + count)` in order, none reaching past
`offset + count`, and it returns the first error or `count`. -/
theorem pciConfigSpaceAccess_tiles (hsize : ∀ c ∈ caps, 0 < c.size)
    (hfind : FindsLowestCap caps capFind) (hh : HandlerContract handler) {fuel count : Nat}
    (hc : count < 2 ^ 64) (hfuel : count < fuel) (offset : Nat) (st : σ) :
    ∃ ret calls st', pciConfigSpaceAccess capFind handler fuel count offset st =
        some (ret, calls, st') ∧
      ∃ err, Tiles offset count calls err ∧ ret = err.getD count ∧
        ∀ c ∈ calls, offset ≤ c.offset ∧ c.offset + c.size ≤ offset + count := by
  obtain ⟨ret, calls, st', h, err, ht, hret⟩ :=
    pciConfigSpaceLoop_tiles hsize hfind hh offset hc hfuel offset st
  exact ⟨ret, calls, st', h, err, ht, by rw [hret]; congr 1; omega, ht.within⟩

end Loop

/-- A handler that takes at most four bytes a call, on the capability `[0x40, 0x50)`: an access
of 16 bytes from `0x3c` returns. -/
theorem pciConfigSpaceAccess_tiles_four_bytes :
    (∀ c ∈ [PciCap.mk 0x40 0x10], 0 < c.size) ∧
      FindsLowestCap [⟨0x40, 0x10⟩] (lowestOverlappingCap [⟨0x40, 0x10⟩]) ∧
      HandlerContract (σ := Unit) (fun _ n _ st => ((min n 4 : Nat), st)) ∧
      0x10 < 2 ^ 64 ∧ 0x10 < 0x11 ∧
      ∃ ret calls st', pciConfigSpaceAccess (lowestOverlappingCap [⟨0x40, 0x10⟩])
          (fun _ n _ st => ((min n 4 : Nat), st)) 0x11 0x10 0x3c () = some (ret, calls, st') ∧
        ∃ err, Tiles 0x3c 0x10 calls err ∧ ret = err.getD 0x10 ∧
          ∀ c ∈ calls, 0x3c ≤ c.offset ∧ c.offset + c.size ≤ 0x3c + 0x10 :=
  have hh : HandlerContract (σ := Unit) (fun _ n _ st => ((min n 4 : Nat), st)) :=
    fun _ n _ _ hn => .inr (show 0 < ((min n 4 : Nat) : Int) ∧ ((min n 4 : Nat) : Int) ≤ n by omega)
  ⟨by decide, lowestOverlappingCap_finds _, hh, by decide, by decide,
    pciConfigSpaceAccess_tiles (by decide) (lowestOverlappingCap_finds _) hh (by decide)
      (by decide) 0x3c ()⟩

/-- An access of 16 bytes from `0x48`, inside the capability `[0x40, 0x50)`, reaches
`pci_cap_access` as the one segment `[0x48, 0x58)`, which runs 8 bytes past the capability. -/
theorem pciConfigSpaceAccess_cap_segment_overruns :
    CapsWf [⟨0x40, 0x10⟩] ∧
      FindsLowestCap [⟨0x40, 0x10⟩] (lowestOverlappingCap [⟨0x40, 0x10⟩]) ∧
      pciConfigSpaceAccess (lowestOverlappingCap [⟨0x40, 0x10⟩])
          (fun _ n _ st => ((n : Int), st)) 0x11 0x10 0x48 () =
        some (0x10, [⟨.cap, 0x48, 0x10, 0x10⟩], ()) ∧
      0x40 + 0x10 < 0x48 + 0x10 :=
  ⟨by decide, lowestOverlappingCap_finds _, rfl, by decide⟩

end VfioUser.Pci
