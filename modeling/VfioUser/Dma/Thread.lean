import VfioUser.Dma.AddrToSg

/-!
# One thread's translations

`region_hint` is a `static __thread` variable of `dma_addr_to_sg`: a thread has one hint for
every controller it translates against. Each call reads `dma->regions[region_hint]` to compute
`region_end` before the fast-path test compares the hint with `dma->nregions`, and a slow-path
success leaves behind the region index it found in the controller it was given.

A thread is the list of its calls, each against a controller in whatever state it then has. The
hint starts at zero, as a thread-local does. A hint left behind is always below the `nregions`
of some controller the thread has used, so the slots a thread reads stay in the table when all
its controllers have room for as many regions as any of them holds; across controllers of
different sizes they do not.
-/

namespace VfioUser.Dma

/-- The arguments of one `dma_addr_to_sg` call. -/
structure SgRequest where
  dma : DmaController
  dmaAddr : BitVec 64
  len : BitVec 64
  maxSg : Int
  prot : BitVec 32

/-- One call as it ran: the hint it read, which is the slot `regions[region_hint]` it
dereferenced, and its result. -/
structure SgCall where
  req : SgRequest
  hint : Nat
  res : SgResult

/-- A thread's `dma_addr_to_sg` calls in order from hint `hint`: the calls as they ran and the
hint they leave behind. -/
def threadAddrToSg : Nat → List SgRequest → Except Fault (List SgCall × Nat)
  | hint, [] => .ok ([], hint)
  | hint, q :: qs =>
      match dmaAddrToSg hint q.dma q.dmaAddr q.len q.maxSg q.prot with
      | .error f => .error f
      | .ok (res, hint') => (threadAddrToSg hint' qs).map fun r => (⟨q, hint, res⟩ :: r.1, r.2)

/-- A call keeps the hint or leaves the index of a live region of its controller. -/
theorem dmaAddrToSg_hint {hint : Nat} {dma : DmaController} {dmaAddr len : BitVec 64}
    {maxSg : Int} {prot : BitVec 32} {res : SgResult} {hint' : Nat}
    (h : dmaAddrToSg hint dma dmaAddr len maxSg prot = .ok (res, hint')) :
    hint' = hint ∨ hint' < dma.nregions := by
  unfold dmaAddrToSg at h
  split_ifs at h
  · obtain ⟨r, -, hr⟩ := except_map_eq_ok.mp h
    rcases r with _ | ⟨sg, dma'⟩ <;> cases hr <;> exact .inl rfl
  · obtain ⟨r, hr, hres⟩ := except_map_eq_ok.mp h
    cases hres
    split
    · rename_i sg sgs hsgs
      split
      · exact .inr ((dmaAddrSgSplit_eq_ok hr).2 sg (by simp [hsgs])).1
      · exact .inl rfl
    · exact .inl rfl

/-- The run lemma: if the hint starts below `N` and every controller the thread uses has at
most `N` live regions, every call reads a hint below `N`, and so does the one left behind. -/
theorem threadAddrToSg_hint_lt {N hint : Nat} {reqs : List SgRequest} {calls : List SgCall}
    {hint' : Nat} (h : threadAddrToSg hint reqs = .ok (calls, hint'))
    (hN : ∀ q ∈ reqs, q.dma.nregions ≤ N) (hhint : hint < N) :
    (∀ c ∈ calls, c.req ∈ reqs ∧ c.hint < N) ∧ hint' < N := by
  induction reqs generalizing hint calls with
  | nil => cases h; exact ⟨by simp, hhint⟩
  | cons q qs ih =>
      simp only [threadAddrToSg] at h
      split at h
      · cases h
      · rename_i res hint₁ hq
        obtain ⟨⟨calls', hint₂⟩, hrest, hr⟩ := except_map_eq_ok.mp h
        cases hr
        have h₁ : hint₁ < N := by
          rcases dmaAddrToSg_hint hq with rfl | hlt
          · exact hhint
          · exact lt_of_lt_of_le hlt (hN q (by simp))
        obtain ⟨hcalls, hlast⟩ := ih hrest (fun q' hq' => hN q' (by simp [hq'])) h₁
        refine ⟨?_, hlast⟩
        simp only [List.mem_cons, forall_eq_or_imp]
        exact ⟨⟨by simp, hhint⟩, fun c hc => ⟨by simp [(hcalls c hc).1], (hcalls c hc).2⟩⟩

/-- Two read-write regions `[0x1000, 0x2000)` and `[0x2000, 0x3000)` filling a two-slot table,
with logging off. -/
def twoRegionDma : DmaController where
  maxRegions := 2
  nregions := 2
  dirtyPgsize := 0
  regions := fun i =>
    { info := { iova := ⟨BitVec.ofNat 64 (0x1000 * (i + 1)), 0x1000⟩,
                vaddr := BitVec.ofNat 64 (0x7f0000000000 + 0x1000 * i),
                prot := protRead ||| protWrite },
      fd := 3, offset := 0, refcnt := 0, dirtyBitmap := none }

theorem twoRegionDma_wf : twoRegionDma.TableWf where
  bound := le_rfl
  nonempty i _ := show 0 < 0x1000 by decide
  noWrap i hi := by
    simp only [twoRegionDma, DmaMemoryRegion.base, DmaMemoryRegion.len, BitVec.toNat_ofNat] at hi ⊢
    interval_cases i <;> decide
  disjoint i hi j hj hne := by
    simp only [twoRegionDma, DmaMemoryRegion.base, DmaMemoryRegion.len, BitVec.toNat_ofNat] at hi hj ⊢
    interval_cases i <;> interval_cases j <;> first | decide | exact absurd rfl hne

/-- `oneRegionDma`'s region in a table of one slot. -/
def oneSlotDma : DmaController := { oneRegionDma with maxRegions := 1 }

theorem oneSlotDma_wf : oneSlotDma.TableWf where
  bound := le_rfl
  nonempty := oneRegionDma_wf.nonempty
  noWrap := oneRegionDma_wf.noWrap
  disjoint := oneRegionDma_wf.disjoint

/-- A thread whose controllers each have room for as many regions as any of them holds reads
only slots inside the table of the controller it queries. -/
theorem threadAddrToSg_reads_in_table {N : Nat} {reqs : List SgRequest} {calls : List SgCall}
    {hint' : Nat} (h : threadAddrToSg 0 reqs = .ok (calls, hint'))
    (hN : ∀ q ∈ reqs, q.dma.nregions ≤ N ∧ N ≤ q.dma.maxRegions) (hpos : 0 < N) :
    ∀ c ∈ calls, c.hint < c.req.dma.maxRegions := by
  intro c hc
  obtain ⟨hreq, hlt⟩ := (threadAddrToSg_hint_lt h (fun q hq => (hN q hq).1) hpos).1 c hc
  exact lt_of_lt_of_le hlt (hN c.req hreq).2

theorem threadAddrToSg_reads_in_table_two_controllers :
    ∃ calls hint', threadAddrToSg 0 [⟨oneRegionDma, 0x1800, 0x100, 1, protRead⟩,
        ⟨twoRegionDma, 0x2800, 0x100, 1, protRead⟩] = .ok (calls, hint') ∧
      ∀ c ∈ calls, c.hint < c.req.dma.maxRegions := by
  have h : threadAddrToSg 0 [⟨oneRegionDma, 0x1800, 0x100, 1, protRead⟩,
      ⟨twoRegionDma, 0x2800, 0x100, 1, protRead⟩] = .ok (_, _) := rfl
  refine ⟨_, _, h, threadAddrToSg_reads_in_table h ?_ (show 0 < 2 by omega)⟩
  simp only [List.mem_cons, List.mem_singleton, List.not_mem_nil, or_false]
  rintro q (rfl | rfl) <;> exact ⟨by decide, le_rfl⟩

/-- A thread translates `0x2800` in `twoRegionDma`, which the hinted slot 0 does not hold: the
slow path finds it in region 1 and leaves hint 1. Its next call, against the well-formed
one-slot `oneSlotDma`, reads slot 1 of a table that has only slot 0. -/
theorem threadAddrToSg_reads_past_table :
    ∃ calls hint', threadAddrToSg 0 [⟨twoRegionDma, 0x2800, 0x100, 1, protRead⟩,
        ⟨oneSlotDma, 0x1800, 0x100, 1, protRead⟩] = .ok (calls, hint') ∧
      twoRegionDma.TableWf ∧ oneSlotDma.TableWf ∧
      calls.map (fun c => (c.hint, c.req.dma.maxRegions, c.res.ret)) = [(0, 2, 1), (1, 1, 1)] :=
  ⟨_, _, rfl, twoRegionDma_wf, oneSlotDma_wf, rfl⟩

end VfioUser.Dma
