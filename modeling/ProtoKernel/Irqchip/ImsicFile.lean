import Mathlib.Data.List.Infix
import Mathlib.Data.List.Nodup
import ProtoKernel.Irqchip.ImsicAttach

/-!
# The interrupt file under `imsic_handle_irq`

`Mmio` keeps the registers as storage, which is all the driver's code needs. Here the primary
file is the device §4.5 of the specification describes: a write of `id` to `SETEIPNUM` sets,
and to `CLREIPNUM` clears, the pending bit of `id`, bit `id % 32` of `EIP[id / 32]`. Devices
deliver their MSIs by writing their id to `SETEIPNUM`; the hart calls `imsic_handle_irq`, whose
accesses the file takes in the order it makes them (`handleStep`). A call reads some pending
words and dispatches the lowest pending id it scans, the head of `pendingIds`
(`imsicHandleIrq_lowest`), taking an id of `0` for "nothing pending".

* `handleStep_drain`: with id `0` not pending, `n` calls in a row dispatch the `n` lowest
  pending ids once each, lowest first, and clear exactly their bits.
* `fileRun_clears_le`: over any interleaving of MSIs and handler calls, the handler dispatches
  an id no more often than MSIs of it arrived, plus one if it was pending at the start.
* `fileRun_msi_handled`: no MSI is lost: its id stays pending until a call dispatches it.
* `handleStep_stalls`: with id `0` pending, calls only read, and every pending bit stays set.
-/

namespace ProtoKernel.Irqchip

open ProtoKernel.Lib

variable (irqFindMapping : Nat → BitVec 32 → BitVec 32)

/-! ## The file as a device -/

/-- How the file takes an access (§4.5): a write of `id` to `SETEIPNUM` sets, and to
`CLREIPNUM` clears, bit `id % 32` of `EIP[id / 32]`; any other write stores its value. Reads
and calls of `generic_handle_irq` leave the file as it is. -/
def fileAccess (regs : BitVec 32 → BitVec 32) : Access → BitVec 32 → BitVec 32
  | .write reg id =>
    let w := eipReg (id.toNat / 32)
    if reg = imsicRegSeteipnum then Function.update regs w (regs w ||| imsicEieMask id)
    else if reg = imsicRegClreipnum then Function.update regs w (regs w &&& ~~~imsicEieMask id)
    else Function.update regs reg id
  | _ => regs

@[simp] theorem fileAccess_read (regs : BitVec 32 → BitVec 32) (reg : BitVec 32) :
    fileAccess regs (.read reg) = regs := rfl

@[simp] theorem fileAccess_handle (regs : BitVec 32 → BitVec 32) (virq : BitVec 32) :
    fileAccess regs (.handle virq) = regs := rfl

/-- Id `id` is pending: bit `id % 32` of `EIP[id / 32]` is set. -/
def eipPending (regs : BitVec 32 → BitVec 32) (id : Nat) : Bool :=
  (regs (eipReg (id / 32))).getLsbD (id % 32)

/-- The pending ids among the `32 * eipWords num_ids` that `imsic_handle_irq` scans, lowest
first. -/
def pendingIds (numIds : BitVec 32) (regs : BitVec 32 → BitVec 32) : List Nat :=
  (List.range (32 * eipWords numIds)).filter (eipPending regs)

/-- The lowest id `imsic_handle_irq` finds pending, `0` if there is none. -/
def lowestPending (numIds : BitVec 32) (regs : BitVec 32 → BitVec 32) : Nat :=
  (pendingIds numIds regs).headD 0

/-- One call of `imsic_handle_irq` against the file: the file takes the handler's accesses in
the order it makes them. -/
def handleStep (imsic : ImsicData) (m : Mmio) : Mmio :=
  let m' := imsicHandleIrq irqFindMapping imsic m
  ⟨(m'.trace.drop m.trace.length).foldl fileAccess m.regs, m'.trace⟩

/-- What happens to the file: a device's MSI, its id written to `SETEIPNUM`, or a call of
`imsic_handle_irq` on the hart. -/
inductive FileEvent where
  | msi (id : BitVec 32)
  | handleIrq
  deriving DecidableEq, Repr

def fileEvent (imsic : ImsicData) (m : Mmio) : FileEvent → Mmio
  | .msi id => { m with regs := fileAccess m.regs (.write imsicRegSeteipnum id) }
  | .handleIrq => handleStep irqFindMapping imsic m

/-- A run of events from `m`, oldest first. -/
def fileRun (imsic : ImsicData) (m : Mmio) (evs : List FileEvent) : Mmio :=
  evs.foldl (fileEvent irqFindMapping imsic) m

def Access.isRead : Access → Bool
  | .read _ => true
  | _ => false

/-- What a trace does besides reading. -/
def nonReads (t : List Access) : List Access := t.filter fun a => !a.isRead

/-- The accesses that dispatch the ids `ids`, one after the other. -/
def dispatchIds (imsic : ImsicData) (ids : List Nat) : List Access :=
  ids.flatMap fun h => dispatch irqFindMapping imsic (BitVec.ofNat 32 h)

/-! ## Pending bits -/

theorem eipWords_lt (numIds : BitVec 32) : eipWords numIds < 2 ^ 27 := by
  unfold eipWords
  generalize numIds + 31 = x
  have := x.isLt
  rw [BitVec.toNat_udiv]
  change x.toNat / 32 < 2 ^ 27
  omega

theorem eipReg_inj {i j : Nat} (hi : i < 2 ^ 29) (hj : j < 2 ^ 29) :
    eipReg i = eipReg j ↔ i = j := by
  rw [BitVec.toNat_eq, eipReg_toNat hi, eipReg_toNat hj]
  omega

theorem eipPending_clear (regs : BitVec 32 → BitVec 32) (id : BitVec 32) {y : Nat}
    (hy : y < 2 ^ 32) :
    eipPending (fileAccess regs (.write imsicRegClreipnum id)) y =
      (eipPending regs y && y ≠ id.toNat) := by
  have hid := id.isLt
  simp only [fileAccess, eipPending, show imsicRegClreipnum ≠ imsicRegSeteipnum by decide,
    if_false, if_true]
  by_cases hw : y / 32 = id.toNat / 32
  · have hb : y % 32 = id.toNat % 32 ↔ y = id.toNat := by omega
    rw [hw, Function.update_same, BitVec.getLsbD_and, BitVec.getLsbD_not,
      getLsbD_imsicEieMask _ (Nat.mod_lt _ (by omega))]
    simp [hb, Nat.mod_lt]
  · rw [Function.update_noteq (mt (eipReg_inj (by omega) (by omega)).mp hw)]
    have : y ≠ id.toNat := fun h => hw (by rw [h])
    simp [this]

theorem eipPending_set (regs : BitVec 32 → BitVec 32) (id : BitVec 32) {y : Nat}
    (hy : y < 2 ^ 32) :
    eipPending (fileAccess regs (.write imsicRegSeteipnum id)) y =
      (eipPending regs y || y = id.toNat) := by
  have hid := id.isLt
  simp only [fileAccess, eipPending, if_true]
  by_cases hw : y / 32 = id.toNat / 32
  · have hb : y % 32 = id.toNat % 32 ↔ y = id.toNat := by omega
    rw [hw, Function.update_same, BitVec.getLsbD_or,
      getLsbD_imsicEieMask _ (Nat.mod_lt _ (by omega))]
    simp [hb]
  · rw [Function.update_noteq (mt (eipReg_inj (by omega) (by omega)).mp hw)]
    have : y ≠ id.toNat := fun h => hw (by rw [h])
    simp [this]

theorem nodup_pendingIds (numIds : BitVec 32) (regs : BitVec 32 → BitVec 32) :
    (pendingIds numIds regs).Nodup :=
  (List.nodup_range _).filter _

theorem mem_pendingIds {numIds : BitVec 32} {regs : BitVec 32 → BitVec 32} {y : Nat} :
    y ∈ pendingIds numIds regs ↔ y < 32 * eipWords numIds ∧ eipPending regs y = true := by
  simp [pendingIds]

theorem lowestPending_lt (numIds : BitVec 32) (regs : BitVec 32 → BitVec 32) :
    lowestPending numIds regs < 2 ^ 32 := by
  have := eipWords_lt numIds
  unfold lowestPending
  rcases h : pendingIds numIds regs with _ | ⟨y, ys⟩
  · simp
  · have := (mem_pendingIds.mp (h ▸ List.mem_cons_self y ys)).1
    simp only [List.headD_cons]
    omega

theorem lowestPending_pending {numIds : BitVec 32} {regs : BitVec 32 → BitVec 32}
    (h : lowestPending numIds regs ≠ 0) : eipPending regs (lowestPending numIds regs) = true := by
  unfold lowestPending at h ⊢
  rcases hp : pendingIds numIds regs with _ | ⟨y, ys⟩
  · simp [hp] at h
  · exact (mem_pendingIds.mp (hp ▸ List.mem_cons_self y ys)).2

/-- The first element the filter keeps of `0, 1, ..., N - 1` is the least one it keeps. -/
theorem head?_filter_range {p : Nat → Bool} {N h : Nat} (hh : h < N) (hp : p h = true)
    (hlt : ∀ y, y < h → p y = false) : ((List.range N).filter p).head? = some h := by
  obtain ⟨k, rfl⟩ := Nat.exists_eq_add_of_lt hh
  rw [Nat.add_assoc, List.range_add, List.filter_append,
    List.filter_eq_nil_iff.mpr fun y hy => by simp [hlt y (List.mem_range.mp hy)],
    List.nil_append, List.range_succ_eq_map]
  simp [hp]

/-- Keeping the ids not among the first `n` of a list without repeats drops those `n`. -/
theorem filter_not_mem_take {P : List Nat} (hP : P.Nodup) (n : Nat) :
    P.filter (fun y => y ∉ P.take n) = P.drop n := by
  have hsplit := List.take_append_drop n P
  generalize P.take n = A at hsplit ⊢
  generalize P.drop n = B at hsplit ⊢
  subst hsplit
  obtain ⟨-, -, hd⟩ := List.nodup_append.mp hP
  rw [List.filter_append, List.filter_eq_nil_iff.mpr fun y hy => by simpa using hy,
    List.filter_eq_self.mpr fun y hy => by simpa using fun h => hd h hy, List.nil_append]

/-- If a file keeps exactly the pending bits of another outside its first `n` pending ids, its
pending ids are the rest of the other's. -/
theorem pendingIds_of_bits {numIds : BitVec 32} {regs regs' : BitVec 32 → BitVec 32} {n : Nat}
    (h : ∀ y, y < 2 ^ 32 → (eipPending regs' y = true ↔
      eipPending regs y = true ∧ y ∉ (pendingIds numIds regs).take n)) :
    pendingIds numIds regs' = (pendingIds numIds regs).drop n := by
  have hN := eipWords_lt numIds
  calc pendingIds numIds regs'
      = (List.range (32 * eipWords numIds)).filter
          (fun y => decide (y ∉ (pendingIds numIds regs).take n) && eipPending regs y) :=
        List.filter_congr fun y hy => by
          rw [Bool.eq_iff_iff, h y (by have := List.mem_range.mp hy; omega)]
          simp [and_comm]
    _ = (pendingIds numIds regs).filter (fun y => y ∉ (pendingIds numIds regs).take n) :=
        (List.filter_filter _ _).symm
    _ = (pendingIds numIds regs).drop n := filter_not_mem_take (nodup_pendingIds _ _) n

/-! ## One call of the handler -/

theorem foldl_fileAccess_reads {L : List Access} (hL : ∀ a ∈ L, a.isRead = true)
    (regs : BitVec 32 → BitVec 32) : L.foldl fileAccess regs = regs := by
  induction L with
  | nil => rfl
  | cons a L ih =>
    cases a with
    | read r => exact ih fun b hb => hL b (List.mem_cons_of_mem _ hb)
    | write _ _ | handle _ => simpa [Access.isRead] using hL _ (List.mem_cons_self _ _)

theorem mem_eipReads {n : Nat} {a : Access} (h : a ∈ eipReads 0 n) :
    ∃ j, j < n ∧ a = .read (eipReg j) := by
  simp only [eipReads, List.mem_map, List.mem_range, Nat.zero_add] at h
  obtain ⟨j, hj, rfl⟩ := h
  exact ⟨j, hj, rfl⟩

theorem isRead_of_eipReads {N : Nat} {L : List Access}
    (hL : ∀ a ∈ L, ∃ j, j < N ∧ a = .read (eipReg j)) : ∀ a ∈ L, a.isRead = true :=
  fun a ha => by
    obtain ⟨j, -, rfl⟩ := hL a ha
    rfl

/-- `imsic_handle_irq` reads some of the pending words it scans and dispatches the lowest id it
finds pending. -/
theorem imsicHandleIrq_lowest (imsic : ImsicData) (m : Mmio) :
    ∃ L, (∀ a ∈ L, ∃ j, j < eipWords imsic.numIds ∧ a = .read (eipReg j)) ∧
      (imsicHandleIrq irqFindMapping imsic m).trace =
      m.trace ++ L ++
        dispatch irqFindMapping imsic (BitVec.ofNat 32 (lowestPending imsic.numIds m.regs)) := by
  rcases imsicHandleIrq_trace irqFindMapping imsic m with ⟨hz, htr⟩ | ⟨k, hk, hz, hne, htr⟩
  · have hnil : pendingIds imsic.numIds m.regs = [] := List.filter_eq_nil_iff.mpr fun y hy => by
      have := List.mem_range.mp hy
      simp [eipPending, hz (y / 32) (by omega)]
    exact ⟨_, fun a => mem_eipReads, by simp [htr, lowestPending, hnil, dispatch]⟩
  · obtain ⟨h1, hb32, hbit, hlow⟩ := ffs_lowestSetBit hne
    rw [show k * 32 + ffs (m.regs (eipReg k)) - 1 = 32 * k + (ffs (m.regs (eipReg k)) - 1) by
      omega] at htr
    generalize ffs (m.regs (eipReg k)) - 1 = b at hb32 hbit hlow htr
    have hhead : (pendingIds imsic.numIds m.regs).head? = some (32 * k + b) := by
      apply head?_filter_range (by omega)
      · simpa [eipPending, show (32 * k + b) / 32 = k by omega, show (32 * k + b) % 32 = b by omega]
          using hbit
      · intro y hy
        by_cases hyk : y / 32 < k
        · simp [eipPending, hz _ hyk]
        · simpa [eipPending, show y / 32 = k by omega] using hlow (y % 32) (by omega)
    refine ⟨eipReads 0 (k + 1), fun a ha => ?_, ?_⟩
    · obtain ⟨j, hj, rfl⟩ := mem_eipReads ha
      exact ⟨j, by omega, rfl⟩
    rw [htr, lowestPending, List.headD_eq_head?_getD, hhead, Option.getD_some]

/-- One call against the file: reads, then the dispatch of the lowest pending id, which the
file takes. -/
theorem handleStep_eq (imsic : ImsicData) (m : Mmio) :
    ∃ L, (∀ a ∈ L, ∃ j, j < eipWords imsic.numIds ∧ a = .read (eipReg j)) ∧
      handleStep irqFindMapping imsic m =
      ⟨(dispatch irqFindMapping imsic (BitVec.ofNat 32 (lowestPending imsic.numIds m.regs))).foldl
          fileAccess m.regs,
        m.trace ++ L ++ dispatch irqFindMapping imsic
          (BitVec.ofNat 32 (lowestPending imsic.numIds m.regs))⟩ := by
  obtain ⟨L, hL, htr⟩ := imsicHandleIrq_lowest irqFindMapping imsic m
  refine ⟨L, hL, ?_⟩
  simp only [handleStep, htr, List.append_assoc, List.drop_left, List.foldl_append,
    foldl_fileAccess_reads (isRead_of_eipReads hL)]

theorem foldl_fileAccess_dispatch (imsic : ImsicData) (h : BitVec 32)
    (regs : BitVec 32 → BitVec 32) :
    (dispatch irqFindMapping imsic h).foldl fileAccess regs =
      if h = 0 then regs else fileAccess regs (.write imsicRegClreipnum h) := by
  unfold dispatch
  split <;> [split; skip] <;> simp_all

theorem dispatch_of_ne_zero (imsic : ImsicData) {h : BitVec 32} (h0 : h ≠ 0) :
    dispatch irqFindMapping imsic h =
      (if irqFindMapping imsic.domain h ≠ 0 then [.handle (irqFindMapping imsic.domain h)]
        else []) ++ [.write imsicRegClreipnum h] :=
  if_pos h0

theorem count_write_dispatch (imsic : ImsicData) {h : BitVec 32} (h0 : h ≠ 0) (id : BitVec 32) :
    (dispatch irqFindMapping imsic h).count (.write imsicRegClreipnum id) =
      if h = id then 1 else 0 := by
  rw [dispatch_of_ne_zero _ _ h0, List.count_append]
  split <;> simp [List.count_singleton', eq_comm]

theorem ofNat_eq_zero_iff {x : Nat} (hx : x < 2 ^ 32) : BitVec.ofNat 32 x = 0 ↔ x = 0 := by
  rw [BitVec.toNat_eq, BitVec.toNat_ofNat, Nat.mod_eq_of_lt hx]
  rfl

/-- A call clears the pending bit of the lowest pending id it finds, if that is not `0`, and no
other. -/
theorem eipPending_handleStep (imsic : ImsicData) (m : Mmio) {y : Nat} (hy : y < 2 ^ 32) :
    eipPending (handleStep irqFindMapping imsic m).regs y =
      (eipPending m.regs y &&
        (lowestPending imsic.numIds m.regs = 0 || y ≠ lowestPending imsic.numIds m.regs)) := by
  obtain ⟨L, -, h⟩ := handleStep_eq irqFindMapping imsic m
  have hlt := lowestPending_lt imsic.numIds m.regs
  rw [h, foldl_fileAccess_dispatch]
  by_cases h0 : lowestPending imsic.numIds m.regs = 0
  · simp [h0]
  · rw [if_neg (mt (ofNat_eq_zero_iff hlt).mp h0), eipPending_clear _ _ hy, BitVec.toNat_ofNat,
      Nat.mod_eq_of_lt hlt]
    simp [h0]

theorem nonReads_dispatch (imsic : ImsicData) (h : BitVec 32) :
    nonReads (dispatch irqFindMapping imsic h) = dispatch irqFindMapping imsic h := by
  unfold nonReads dispatch
  split <;> [split; skip] <;> simp [Access.isRead]

theorem nonReads_of_reads {L : List Access} (hL : ∀ a ∈ L, a.isRead = true) : nonReads L = [] :=
  List.filter_eq_nil_iff.mpr fun a ha => by simp [hL a ha]

/-! ## Draining the file -/

/-- With id `0` not pending, one call dispatches the first pending id, if there is one, and
clears its bit and no other. -/
theorem handleStep_pending (imsic : ImsicData) (m : Mmio) (hZero : eipPending m.regs 0 = false) :
    ∃ L, (handleStep irqFindMapping imsic m).trace = m.trace ++ L ∧
      nonReads L = dispatchIds irqFindMapping imsic ((pendingIds imsic.numIds m.regs).take 1) ∧
      ∀ y, y < 2 ^ 32 → (eipPending (handleStep irqFindMapping imsic m).regs y = true ↔
        eipPending m.regs y = true ∧ y ∉ (pendingIds imsic.numIds m.regs).take 1) := by
  obtain ⟨L, hL, h⟩ := handleStep_eq irqFindMapping imsic m
  refine ⟨L ++ _, by rw [h, List.append_assoc], ?_, fun y hy => ?_⟩
  · rw [nonReads, List.filter_append, ← nonReads, ← nonReads,
      nonReads_of_reads (isRead_of_eipReads hL), nonReads_dispatch, List.nil_append, lowestPending]
    rcases pendingIds imsic.numIds m.regs with _ | ⟨x, xs⟩ <;> simp [dispatchIds, dispatch]
  · rw [eipPending_handleStep _ _ _ hy, lowestPending]
    rcases hp : pendingIds imsic.numIds m.regs with _ | ⟨x, xs⟩
    · simp
    · have hx : x ≠ 0 := by
        rintro rfl
        exact absurd (mem_pendingIds.mp (hp ▸ List.mem_cons_self 0 xs)).2 (by simp [hZero])
      simp [hx]

/-- With id `0` not pending, `n` calls of `imsic_handle_irq` in a row dispatch the `n` lowest
pending ids it scans, once each and lowest first, and clear exactly those: the ids still
pending among those it scans are the rest of the list, and every other id keeps its bit. -/
theorem handleStep_drain (imsic : ImsicData) (m : Mmio) (hZero : eipPending m.regs 0 = false)
    (n : Nat) :
    ∃ t, ((handleStep irqFindMapping imsic)^[n] m).trace = m.trace ++ t ∧
      nonReads t = dispatchIds irqFindMapping imsic ((pendingIds imsic.numIds m.regs).take n) ∧
      pendingIds imsic.numIds ((handleStep irqFindMapping imsic)^[n] m).regs =
        (pendingIds imsic.numIds m.regs).drop n ∧
      ∀ y, y < 2 ^ 32 → (eipPending ((handleStep irqFindMapping imsic)^[n] m).regs y = true ↔
        eipPending m.regs y = true ∧ y ∉ (pendingIds imsic.numIds m.regs).take n) := by
  induction n generalizing m with
  | zero => exact ⟨[], by simp, rfl, rfl, by simp⟩
  | succ n ih =>
    obtain ⟨L, hL, hnrL, hbitL⟩ := handleStep_pending irqFindMapping imsic m hZero
    have hP1 := pendingIds_of_bits hbitL
    have hZ1 : eipPending (handleStep irqFindMapping imsic m).regs 0 = false := by
      simpa [hZero] using (hbitL 0 (Nat.two_pow_pos 32)).not
    obtain ⟨t, ht, hnr, hP, hbit⟩ := ih (handleStep irqFindMapping imsic m) hZ1
    rw [hP1] at hnr hP hbit
    have htake := List.take_add (pendingIds imsic.numIds m.regs) 1 n
    rw [Nat.add_comm] at htake
    refine ⟨L ++ t, ?_, ?_, ?_, fun y hy => ?_⟩
    · rw [Function.iterate_succ_apply, ht, hL, List.append_assoc]
    · rw [nonReads, List.filter_append, ← nonReads, ← nonReads, hnrL, hnr, htake, dispatchIds,
        dispatchIds, dispatchIds, List.flatMap_append]
    · rw [Function.iterate_succ_apply, hP, List.drop_drop, Nat.add_comm]
    · rw [Function.iterate_succ_apply, hbit y hy, hbitL y hy, htake, List.mem_append, not_or,
        and_assoc]

/-- A controller of `32` ids whose domain maps hwirq `h` to virq `h + 32`. -/
def smallImsic : ImsicData := ⟨1, 32, 0x28000, 1, 0⟩

def shiftMapping : Nat → BitVec 32 → BitVec 32 := fun _ h => h + 32

/-- A file with ids `2` and `5` pending. -/
def twoPendingFile : Mmio := ⟨fun r => if r = eipReg 0 then 0x24 else 0, []⟩

theorem handleStep_drain_twoPending :
    eipPending twoPendingFile.regs 0 = false ∧
      ∃ t, ((handleStep shiftMapping smallImsic)^[2] twoPendingFile).trace =
          twoPendingFile.trace ++ t ∧
        nonReads t =
          dispatchIds shiftMapping smallImsic ((pendingIds 32 twoPendingFile.regs).take 2) ∧
        pendingIds 32 ((handleStep shiftMapping smallImsic)^[2] twoPendingFile).regs =
          (pendingIds 32 twoPendingFile.regs).drop 2 ∧
        ∀ y, y < 2 ^ 32 →
          (eipPending ((handleStep shiftMapping smallImsic)^[2] twoPendingFile).regs y = true ↔
            eipPending twoPendingFile.regs y = true ∧
              y ∉ (pendingIds 32 twoPendingFile.regs).take 2) :=
  ⟨by decide, handleStep_drain _ _ _ (by decide) 2⟩

example : pendingIds 32 twoPendingFile.regs = [2, 5] := by decide

/-! ## MSIs and handler calls interleaved -/

@[simp] theorem fileRun_nil (imsic : ImsicData) (m : Mmio) :
    fileRun irqFindMapping imsic m [] = m :=
  rfl

/-- A call turns the pending bit of the id it dispatches into one write of that id to
`CLREIPNUM`, and changes nothing else of what is counted. -/
theorem handleStep_clears (imsic : ImsicData) (m : Mmio) (id : BitVec 32) :
    (handleStep irqFindMapping imsic m).trace.count (.write imsicRegClreipnum id) +
        (eipPending (handleStep irqFindMapping imsic m).regs id.toNat).toNat =
      m.trace.count (.write imsicRegClreipnum id) + (eipPending m.regs id.toNat).toNat := by
  obtain ⟨L, hL, h⟩ := handleStep_eq irqFindMapping imsic m
  have hL0 : L.count (.write imsicRegClreipnum id) = 0 :=
    List.count_eq_zero.mpr fun hm => by simpa [Access.isRead] using isRead_of_eipReads hL _ hm
  have hlt := lowestPending_lt imsic.numIds m.regs
  rw [eipPending_handleStep _ _ _ id.isLt, h]
  simp only [List.count_append, hL0, Nat.add_zero]
  by_cases h0 : lowestPending imsic.numIds m.regs = 0
  · simp [h0, dispatch]
  · rw [count_write_dispatch _ _ (mt (ofNat_eq_zero_iff hlt).mp h0)]
    by_cases hid : id.toNat = lowestPending imsic.numIds m.regs
    · have hp := lowestPending_pending h0
      rw [if_pos (by rw [← hid]; simp)]
      simp [hp, hid, h0]
    · have hof : BitVec.ofNat 32 (lowestPending imsic.numIds m.regs) ≠ id := fun e =>
        hid (by rw [← e, BitVec.toNat_ofNat, Nat.mod_eq_of_lt hlt])
      simp [hof, hid]

/-- Over any interleaving of MSIs and handler calls, `imsic_handle_irq` writes an id to
`CLREIPNUM` no more often than MSIs of that id arrived, plus one if it was pending at the
start: each delivered interrupt is dispatched at most once. -/
theorem fileRun_clears_le (imsic : ImsicData) (m : Mmio) (evs : List FileEvent) (id : BitVec 32) :
    (fileRun irqFindMapping imsic m evs).trace.count (.write imsicRegClreipnum id) +
        (eipPending (fileRun irqFindMapping imsic m evs).regs id.toNat).toNat ≤
      m.trace.count (.write imsicRegClreipnum id) + (eipPending m.regs id.toNat).toNat +
        evs.count (.msi id) := by
  induction evs generalizing m with
  | nil => simp
  | cons e evs ih =>
    refine (ih _).trans ?_
    rw [List.count_cons]
    cases e with
    | msi id' =>
      simp only [fileEvent, eipPending_set _ _ id.isLt, beq_iff_eq, FileEvent.msi.injEq]
      by_cases h : id' = id
      · subst h
        simp only [decide_True, Bool.or_true, Bool.toNat_true, if_true]
        omega
      · have : id.toNat ≠ id'.toNat := fun e => h (BitVec.eq_of_toNat_eq e.symm)
        simp [h, this]
    | handleIrq => simp [fileEvent, handleStep_clears]

theorem lowestPending_eq_zero {numIds : BitVec 32} {regs : BitVec 32 → BitVec 32}
    (hZero : eipPending regs 0 = true) : lowestPending numIds regs = 0 := by
  unfold lowestPending
  rcases Nat.eq_zero_or_pos (eipWords numIds) with hW | hW
  · simp [pendingIds, hW]
  · rw [List.headD_eq_head?_getD, pendingIds,
      head?_filter_range (by omega) hZero fun y hy => absurd hy (Nat.not_lt_zero y)]
    rfl

/-- With id `0` pending, `imsic_handle_irq` takes the file for empty: however often it is
called, it only reads, each read of one of the `EIP` words it scans, and every pending bit
stays set. -/
theorem handleStep_stalls (imsic : ImsicData) (m : Mmio) (hZero : eipPending m.regs 0 = true)
    (n : Nat) :
    ((handleStep irqFindMapping imsic)^[n] m).regs = m.regs ∧
      ∃ t, ((handleStep irqFindMapping imsic)^[n] m).trace = m.trace ++ t ∧ nonReads t = [] ∧
        ∀ a ∈ t, ∃ j, j < eipWords imsic.numIds ∧ a = .read (eipReg j) := by
  induction n generalizing m with
  | zero => exact ⟨rfl, [], by simp, rfl, by simp⟩
  | succ n ih =>
    obtain ⟨L, hL, h⟩ := handleStep_eq irqFindMapping imsic m
    have hstep : handleStep irqFindMapping imsic m = ⟨m.regs, m.trace ++ L⟩ := by
      rw [h, lowestPending_eq_zero hZero]
      simp [dispatch]
    obtain ⟨hr, t, ht, -, hrd⟩ := ih ⟨m.regs, m.trace ++ L⟩ hZero
    have hLt : ∀ a ∈ L ++ t, ∃ j, j < eipWords imsic.numIds ∧ a = .read (eipReg j) :=
      fun a ha => (List.mem_append.mp ha).elim (hL a) (hrd a)
    rw [Function.iterate_succ_apply, hstep]
    exact ⟨hr, L ++ t, by rw [ht, List.append_assoc], nonReads_of_reads (isRead_of_eipReads hLt),
      hLt⟩

/-- A file with ids `0`, `2` and `5` pending. -/
def zeroPendingFile : Mmio := ⟨fun r => if r = eipReg 0 then 0x25 else 0, []⟩

theorem handleStep_stalls_zeroPending :
    eipPending zeroPendingFile.regs 0 = true ∧
      ((handleStep shiftMapping smallImsic)^[3] zeroPendingFile).regs = zeroPendingFile.regs ∧
        ∃ t, ((handleStep shiftMapping smallImsic)^[3] zeroPendingFile).trace =
          zeroPendingFile.trace ++ t ∧ nonReads t = [] ∧
          ∀ a ∈ t, ∃ j, j < eipWords smallImsic.numIds ∧ a = .read (eipReg j) :=
  ⟨by decide, handleStep_stalls _ _ _ (by decide) 3⟩

end ProtoKernel.Irqchip
