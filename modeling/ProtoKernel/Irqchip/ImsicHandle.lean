import ProtoKernel.Lib.Ffs
import ProtoKernel.Irqchip.ImsicRegs

/-!
# `imsic_handle_irq`

The top-level handler scans the pending words `EIP[0], EIP[1], ...` of the primary file for
the first non-zero one, turns it into a hwirq with `ffs`, dispatches the virq that
`irq_find_mapping` gives for it, and clears it through `CLREIPNUM`. A computed hwirq of `0`
is taken as "nothing pending".

* `scanEip_spec`: the scan loop reads the words from the first in order, and stops at the
  first non-zero one.
* `imsicHandleIrq_trace`: everything the handler does, for any register contents and any
  `num_ids`: the reads of the scan, then at most one `generic_handle_irq` and one write.
* `imsicHandleIrq_spec`: for `1 ≤ num_ids ≤ IMSIC_MAX_IDS` and id `0` not pending, the
  handler dispatches and clears exactly the lowest-numbered pending id.
-/

namespace ProtoKernel.Irqchip

open ProtoKernel.Lib

variable (irqFindMapping : Nat → BitVec 32 → BitVec 32)

/-- The offset of `EIP[i]`, `IMSIC_REG_EIP_BASE + i * 4`. -/
def eipReg (i : Nat) : BitVec 32 := imsicRegEipBase + BitVec.ofNat 32 (i * 4)

/-- `EIP[j]` lies at offset `0x80 + 4 j` of the file, for every word index a 32-bit offset can
reach. -/
theorem eipReg_toNat {j : Nat} (hj : j < 2 ^ 29) : (eipReg j).toNat = 0x80 + j * 4 := by
  simp only [eipReg, imsicRegEipBase, BitVec.toNat_add, BitVec.ofNat_eq_ofNat,
    BitVec.toNat_ofNat, Nat.reducePow, Nat.reduceMod]
  omega

/-- The `for` loop of `imsic_handle_irq` from index `i`, with `left` iterations to go:
the hwirq of the first pending word (`0` if none) and the state after the reads. -/
def scanEip (i : Nat) : Nat → Mmio → BitVec 32 × Mmio
  | 0, m => (0, m)
  | left + 1, m =>
    let (pending, m) := imsicReadReg m (eipReg i)
    if pending ≠ 0 then (BitVec.ofNat 32 (i * 32 + ffs pending - 1), m)
    else scanEip (i + 1) left m

/-- `generic_handle_irq(virq)`. -/
def genericHandleIrq (m : Mmio) (virq : BitVec 32) : Mmio :=
  { m with trace := m.trace ++ [.handle virq] }

/-- The number of pending words scanned, `(num_ids + 31) / 32` in 32-bit arithmetic. -/
def eipWords (numIds : BitVec 32) : Nat := ((numIds + 31) / 32).toNat

/-- `imsic_handle_irq`, with `irq_find_mapping` of the IRQ core as `irqFindMapping`. -/
def imsicHandleIrq (imsic : ImsicData) (m : Mmio) : Mmio :=
  let (hwirq, m) := scanEip 0 (eipWords imsic.numIds) m
  if hwirq ≠ 0 then
    let virq := irqFindMapping imsic.domain hwirq
    let m := if virq ≠ 0 then genericHandleIrq m virq else m
    imsicClearPending m hwirq
  else m

/-- The reads of `EIP[i], ..., EIP[i + n - 1]`. -/
def eipReads (i n : Nat) : List Access := (List.range n).map fun j => .read (eipReg (i + j))

theorem eipReads_succ (i n : Nat) : eipReads i (n + 1) = .read (eipReg i) :: eipReads (i + 1) n := by
  simp only [eipReads, List.range_succ_eq_map, List.map_cons, List.map_map, Nat.add_zero]
  congr 1
  apply List.map_congr_left
  intro j _
  simp [Nat.add_assoc, Nat.add_comm 1 j]

theorem scanEip_regs (i left : Nat) (m : Mmio) : (scanEip i left m).2.regs = m.regs := by
  induction left generalizing i m with
  | zero => rfl
  | succ left ih =>
    simp only [scanEip]
    split
    · rfl
    · rw [ih]
      rfl

/-- The scan from `i`: either every word it reads is zero and it returns `0`, or it stops at
the first non-zero word `i + k` and returns `32 (i + k) + ffs EIP[i + k] - 1`. -/
theorem scanEip_spec (i left : Nat) (m : Mmio) :
    ((scanEip i left m).1 = 0 ∧ (∀ j, j < left → m.regs (eipReg (i + j)) = 0) ∧
        (scanEip i left m).2.trace = m.trace ++ eipReads i left) ∨
      ∃ k, k < left ∧ (∀ j, j < k → m.regs (eipReg (i + j)) = 0) ∧
        m.regs (eipReg (i + k)) ≠ 0 ∧
        (scanEip i left m).1 = BitVec.ofNat 32 ((i + k) * 32 + ffs (m.regs (eipReg (i + k))) - 1) ∧
        (scanEip i left m).2.trace = m.trace ++ eipReads i (k + 1) := by
  induction left generalizing i m with
  | zero => simp [scanEip, eipReads]
  | succ left ih =>
    by_cases hp : m.regs (eipReg i) = 0
    · have hrest := ih (i + 1) (imsicReadReg m (eipReg i)).2
      simp only [scanEip, imsicReadReg_fst, hp, ne_eq, not_true_eq_false, if_false]
      simp only [imsicReadReg_regs, imsicReadReg_trace, List.append_assoc, List.singleton_append,
        ← eipReads_succ] at hrest
      have hz0 : ∀ {k}, (∀ j, j < k → m.regs (eipReg (i + 1 + j)) = 0) →
          ∀ j, j < k + 1 → m.regs (eipReg (i + j)) = 0 := by
        intro k hz j hj
        rcases j with _ | j
        · exact hp
        · simpa [Nat.add_assoc, Nat.add_comm 1 j] using hz j (by omega)
      rcases hrest with ⟨h0, hz, htr⟩ | ⟨k, hk, hz, hne, hv, htr⟩
      · exact .inl ⟨h0, hz0 hz, htr⟩
      · have hik : i + 1 + k = i + (k + 1) := by omega
        rw [hik] at hne hv
        exact .inr ⟨k + 1, by omega, hz0 hz, hne, hv, htr⟩
    · simp only [scanEip, imsicReadReg_fst, hp, ne_eq, not_false_eq_true, if_true]
      exact .inr ⟨0, by omega, fun j hj => by omega, by simpa using hp, by simp,
        by simp [eipReads]; rfl⟩

/-- What follows the scan: for a found hwirq `h ≠ 0`, the dispatch of its virq (when mapped) and
the write of `h` to `CLREIPNUM`. -/
def dispatch (imsic : ImsicData) (h : BitVec 32) : List Access :=
  if h ≠ 0 then
    (if irqFindMapping imsic.domain h ≠ 0 then [.handle (irqFindMapping imsic.domain h)] else []) ++
      [.write imsicRegClreipnum h]
  else []

theorem imsicHandleIrq_eq (imsic : ImsicData) (m : Mmio) :
    (imsicHandleIrq irqFindMapping imsic m).trace =
      (scanEip 0 (eipWords imsic.numIds) m).2.trace ++
        dispatch irqFindMapping imsic (scanEip 0 (eipWords imsic.numIds) m).1 := by
  simp only [imsicHandleIrq, dispatch]
  split <;> [split; skip] <;> simp [imsicClearPending, genericHandleIrq]

/-- Everything `imsic_handle_irq` does, for any `num_ids` and any register contents: it reads
`EIP[0], EIP[1], ...` up to the first non-zero word `k` among the `(num_ids + 31) / 32` it
scans, and then dispatches the hwirq `32 k + ffs EIP[k] - 1`. -/
theorem imsicHandleIrq_trace (imsic : ImsicData) (m : Mmio) :
    ((∀ k, k < eipWords imsic.numIds → m.regs (eipReg k) = 0) ∧
        (imsicHandleIrq irqFindMapping imsic m).trace = m.trace ++ eipReads 0 (eipWords imsic.numIds)) ∨
      ∃ k, k < eipWords imsic.numIds ∧ (∀ j, j < k → m.regs (eipReg j) = 0) ∧
        m.regs (eipReg k) ≠ 0 ∧
        (imsicHandleIrq irqFindMapping imsic m).trace = m.trace ++ eipReads 0 (k + 1) ++
          dispatch irqFindMapping imsic (BitVec.ofNat 32 (k * 32 + ffs (m.regs (eipReg k)) - 1)) := by
  rw [imsicHandleIrq_eq irqFindMapping]
  rcases scanEip_spec 0 (eipWords imsic.numIds) m with ⟨h0, hz, htr⟩ | ⟨k, hk, hz, hne, hv, htr⟩
  · refine .inl ⟨fun k hk => by simpa using hz k hk, ?_⟩
    rw [htr, h0]
    simp [dispatch]
  · refine .inr ⟨k, hk, fun j hj => by simpa using hz j hj, by simpa using hne, ?_⟩
    rw [htr, hv]
    simp

/-- The handler reads only pending words, among the first `eipWords num_ids`. -/
theorem imsicHandleIrq_reads (imsic : ImsicData) (m : Mmio) :
    ∃ L, (imsicHandleIrq irqFindMapping imsic m).trace = m.trace ++ L ∧
      ∀ reg, Access.read reg ∈ L → ∃ j, j < eipWords imsic.numIds ∧ reg = eipReg j := by
  have hreads : ∀ n, n ≤ eipWords imsic.numIds → ∀ reg, Access.read reg ∈ eipReads 0 n →
      ∃ j, j < eipWords imsic.numIds ∧ reg = eipReg j := by
    intro n hn reg h
    simp only [eipReads, List.mem_map, List.mem_range, Access.read.injEq, Nat.zero_add] at h
    obtain ⟨j, hj, rfl⟩ := h
    exact ⟨j, by omega, rfl⟩
  rcases imsicHandleIrq_trace irqFindMapping imsic m with ⟨-, htr⟩ | ⟨k, hk, -, -, htr⟩
  · exact ⟨_, htr, hreads _ le_rfl⟩
  · refine ⟨_, by rw [htr, List.append_assoc], fun reg h => ?_⟩
    rcases List.mem_append.mp h with h | h
    · exact hreads (k + 1) hk reg h
    · unfold dispatch at h
      split at h <;> [split at h; skip] <;> simp at h

theorem eipWords_toNat {numIds : BitVec 32} (h : numIds.toNat ≤ imsicMaxIds.toNat) :
    eipWords numIds = (numIds.toNat + 31) / 32 := by
  simp only [imsicMaxIds, BitVec.ofNat_eq_ofNat, BitVec.toNat_ofNat, Nat.reducePow,
    Nat.reduceMod] at h
  simp only [eipWords, BitVec.toNat_udiv, BitVec.toNat_add, BitVec.ofNat_eq_ofNat,
    BitVec.toNat_ofNat, Nat.reducePow, Nat.reduceMod]
  omega

/-- For `1 ≤ num_ids ≤ IMSIC_MAX_IDS` and id `0` not pending: if no scanned word is pending,
the handler only reads them; otherwise it reads up to the first pending word `k`, calls
`generic_handle_irq` once for the lowest pending id `h = 32 k + b` if it is mapped, and writes
`h` to `CLREIPNUM` once. The word `eipReg k` it reads is at offset `0x80 + 4 k`
(`eipReg_toNat`). -/
theorem imsicHandleIrq_spec (imsic : ImsicData) (m : Mmio)
    (hIds : 1 ≤ imsic.numIds.toNat ∧ imsic.numIds.toNat ≤ imsicMaxIds.toNat)
    (hZero : (m.regs (eipReg 0)).getLsbD 0 = false) :
    ((∀ k, k < (imsic.numIds.toNat + 31) / 32 → m.regs (eipReg k) = 0) ∧
        (imsicHandleIrq irqFindMapping imsic m).trace = m.trace ++ eipReads 0 ((imsic.numIds.toNat + 31) / 32)) ∨
      ∃ k, k < (imsic.numIds.toNat + 31) / 32 ∧ (∀ j, j < k → m.regs (eipReg j) = 0) ∧
        m.regs (eipReg k) ≠ 0 ∧ ∃ b, LowestSetBit (m.regs (eipReg k)) b ∧
        (imsicHandleIrq irqFindMapping imsic m).trace = m.trace ++ eipReads 0 (k + 1) ++
          ((if irqFindMapping imsic.domain (BitVec.ofNat 32 (32 * k + b)) ≠ 0 then
              [.handle (irqFindMapping imsic.domain (BitVec.ofNat 32 (32 * k + b)))] else []) ++
            [.write imsicRegClreipnum (BitVec.ofNat 32 (32 * k + b))]) := by
  have hmax : imsicMaxIds.toNat = 256 := rfl
  rw [← eipWords_toNat hIds.2]
  rcases imsicHandleIrq_trace irqFindMapping imsic m with h | ⟨k, hk, hz, hne, htr⟩
  · exact .inl h
  · refine .inr ⟨k, hk, hz, hne, ffs (m.regs (eipReg k)) - 1, (ffs_lowestSetBit hne).2, ?_⟩
    obtain ⟨h1, hb32, hbit, -⟩ := ffs_lowestSetBit hne
    have hk8 : k < 8 := by rw [eipWords_toNat hIds.2] at hk; omega
    -- the found id is not `0`: in word `0` bit `0` is clear
    have hpos : 0 < 32 * k + (ffs (m.regs (eipReg k)) - 1) := by
      rcases Nat.eq_zero_or_pos k with rfl | hk0
      · rcases Nat.eq_zero_or_pos (ffs (m.regs (eipReg 0)) - 1) with h0 | h0
        · rw [h0, hZero] at hbit
          cases hbit
        · omega
      · omega
    have hne0 : BitVec.ofNat 32 (32 * k + (ffs (m.regs (eipReg k)) - 1)) ≠ 0 := by
      intro h
      have := congrArg BitVec.toNat h
      simp only [BitVec.ofNat_eq_ofNat, BitVec.toNat_ofNat, Nat.zero_mod] at this
      rw [Nat.mod_eq_of_lt (by omega)] at this
      omega
    rw [htr, show k * 32 + ffs (m.regs (eipReg k)) - 1 = 32 * k + (ffs (m.regs (eipReg k)) - 1)
      by omega]
    simp only [dispatch, ne_eq, hne0, not_false_eq_true, if_true]

/-- `imsicHandleIrq_spec` with `num_ids = 256` and only id `5` pending. -/
theorem imsicHandleIrq_spec_pending5 :
    let irqFindMapping : Nat → BitVec 32 → BitVec 32 := fun _ h => h + 32
    let imsic : ImsicData := ⟨1, 256, 0x28000, 1, 0⟩
    let m : Mmio := ⟨fun r => if r = eipReg 0 then 0x20 else 0, []⟩
    (1 ≤ imsic.numIds.toNat ∧ imsic.numIds.toNat ≤ imsicMaxIds.toNat) ∧
      (m.regs (eipReg 0)).getLsbD 0 = false ∧
      (((∀ k, k < (imsic.numIds.toNat + 31) / 32 → m.regs (eipReg k) = 0) ∧
          (imsicHandleIrq irqFindMapping imsic m).trace =
            m.trace ++ eipReads 0 ((imsic.numIds.toNat + 31) / 32)) ∨
        ∃ k, k < (imsic.numIds.toNat + 31) / 32 ∧ (∀ j, j < k → m.regs (eipReg j) = 0) ∧
          m.regs (eipReg k) ≠ 0 ∧ ∃ b, LowestSetBit (m.regs (eipReg k)) b ∧
          (imsicHandleIrq irqFindMapping imsic m).trace = m.trace ++ eipReads 0 (k + 1) ++
            ((if irqFindMapping imsic.domain (BitVec.ofNat 32 (32 * k + b)) ≠ 0 then
                [.handle (irqFindMapping imsic.domain (BitVec.ofNat 32 (32 * k + b)))] else []) ++
              [.write imsicRegClreipnum (BitVec.ofNat 32 (32 * k + b))])) :=
  ⟨⟨by decide, by decide⟩, by decide, imsicHandleIrq_spec _ _ _ ⟨by decide, by decide⟩ (by decide)⟩

end ProtoKernel.Irqchip
