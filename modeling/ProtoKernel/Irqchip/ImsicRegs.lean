import Mathlib.Data.BitVec

/-!
# The IMSIC file's registers and the chip operations

`irqchip/riscv-imsic.h` lays out one interrupt file per hart: the pending words `EIP[k]` at
`0x080 + 4k`, the enable words `EIE[k]` at `0x0C0 + 4k`, and the doorbells `SETEIPNUM`,
`CLREIPNUM` and `EITHRESHOLD`. The driver reaches them only through `imsic_read_reg` and
`imsic_write_reg`. `Mmio` is what it sees of the primary file: the register contents, and the
list of accesses it made (with the calls of `generic_handle_irq` of `imsic_handle_irq`
between them). The enable words behave as storage, so a read returns the last value written.

* `imsicSetEnabled_bit`: `imsic_set_enabled(file, id, e)` sets the enable bit of `id` to `e`
  and leaves every other enable bit as it was.
* `runChipOps_enableBit`: after any sequence of `imsic_irq_enable`, `_disable`, `_mask`,
  `_unmask` and `_ack`, the enable bit of each hwirq is the one its last enable-type
  operation wrote, or its first value if there was none.
-/

namespace ProtoKernel.Irqchip

/-! ## Layout -/

def imsicMmioStride : BitVec 32 := 0x1000
def imsicMaxIds : BitVec 32 := 256
def imsicRegSeteipnum : BitVec 32 := 0x000
def imsicRegClreipnum : BitVec 32 := 0x004
def imsicRegEithreshold : BitVec 32 := 0x070
def imsicRegEipBase : BitVec 32 := 0x080
def imsicRegEieBase : BitVec 32 := 0x0C0

/-- `struct imsic_file`, without the two bitmap caches, which are always `NULL`. -/
structure ImsicFile where
  base : BitVec 64
  hartId : BitVec 32
  numIds : BitVec 32
  deriving DecidableEq, Repr

/-- `struct imsic_data`, without `files`, which always points to the primary file. Domains are
pointers, `0` for `NULL`. -/
structure ImsicData where
  numHarts : BitVec 32
  numIds : BitVec 32
  basePpn : BitVec 64
  domain : Nat
  msiDomain : Nat
  deriving DecidableEq, Repr

/-- An access of the file's MMIO window, or a call `generic_handle_irq(virq)`. -/
inductive Access where
  | read (reg : BitVec 32)
  | write (reg val : BitVec 32)
  | handle (virq : BitVec 32)
  deriving DecidableEq, Repr

/-- The primary file's registers, and the accesses made so far, oldest first. -/
structure Mmio where
  regs : BitVec 32 → BitVec 32
  trace : List Access

/-! ## Register access -/

def imsicReadReg (m : Mmio) (reg : BitVec 32) : BitVec 32 × Mmio :=
  (m.regs reg, { m with trace := m.trace ++ [.read reg] })

def imsicWriteReg (m : Mmio) (reg val : BitVec 32) : Mmio :=
  { regs := Function.update m.regs reg val, trace := m.trace ++ [.write reg val] }

def imsicSetPending (m : Mmio) (id : BitVec 32) : Mmio :=
  imsicWriteReg m imsicRegSeteipnum id

def imsicClearPending (m : Mmio) (id : BitVec 32) : Mmio :=
  imsicWriteReg m imsicRegClreipnum id

def imsicSetThreshold (m : Mmio) (threshold : BitVec 32) : Mmio :=
  imsicWriteReg m imsicRegEithreshold threshold

/-- The enable word holding the bit of `id`, `IMSIC_REG_EIE_BASE + (id / 32) * 4`. -/
def imsicEieReg (id : BitVec 32) : BitVec 32 := imsicRegEieBase + (id / 32) * 4

/-- `1 << (id % 32)`. -/
def imsicEieMask (id : BitVec 32) : BitVec 32 := (1 : BitVec 32) <<< (id.toNat % 32)

/-- `imsic_set_enabled`: a read-modify-write of the enable word of `id`. -/
def imsicSetEnabled (m : Mmio) (id : BitVec 32) (enabled : Bool) : Mmio :=
  let reg := imsicEieReg id
  let (val, m) := imsicReadReg m reg
  imsicWriteReg m reg (if enabled then val ||| imsicEieMask id else val &&& ~~~imsicEieMask id)

@[simp] theorem imsicReadReg_fst (m : Mmio) (reg : BitVec 32) :
    (imsicReadReg m reg).1 = m.regs reg := rfl

@[simp] theorem imsicReadReg_regs (m : Mmio) (reg : BitVec 32) :
    (imsicReadReg m reg).2.regs = m.regs := rfl

@[simp] theorem imsicReadReg_trace (m : Mmio) (reg : BitVec 32) :
    (imsicReadReg m reg).2.trace = m.trace ++ [.read reg] := rfl

@[simp] theorem imsicWriteReg_regs (m : Mmio) (reg val : BitVec 32) :
    (imsicWriteReg m reg val).regs = Function.update m.regs reg val := rfl

@[simp] theorem imsicWriteReg_trace (m : Mmio) (reg val : BitVec 32) :
    (imsicWriteReg m reg val).trace = m.trace ++ [.write reg val] := rfl

/-! ## Enable words -/

theorem imsicEieReg_toNat (id : BitVec 32) :
    (imsicEieReg id).toNat = 0xC0 + id.toNat / 32 * 4 := by
  have := id.isLt
  simp only [imsicEieReg, imsicRegEieBase, BitVec.toNat_add, BitVec.toNat_mul,
    BitVec.toNat_udiv, BitVec.ofNat_eq_ofNat, BitVec.toNat_ofNat, Nat.reducePow, Nat.reduceMod]
  omega

theorem imsicEieReg_eq_iff {a b : BitVec 32} :
    imsicEieReg a = imsicEieReg b ↔ a.toNat / 32 = b.toNat / 32 := by
  rw [BitVec.toNat_eq, imsicEieReg_toNat, imsicEieReg_toNat]
  omega

/-- The enable word of `id` is never a doorbell register. -/
theorem imsicEieReg_ne_clreipnum (id : BitVec 32) : imsicEieReg id ≠ imsicRegClreipnum := by
  intro h
  have := congrArg BitVec.toNat h
  rw [imsicEieReg_toNat] at this
  simp [imsicRegClreipnum] at this
  omega

theorem getLsbD_imsicEieMask (id : BitVec 32) {b : Nat} (hb : b < 32) :
    (imsicEieMask id).getLsbD b = decide (b = id.toNat % 32) := by
  simp only [imsicEieMask, BitVec.getLsbD_shiftLeft, BitVec.getLsbD_one]
  by_cases h1 : b < id.toNat % 32
  · simp [h1]
    omega
  · simp [h1, hb]
    omega

theorem imsicSetEnabled_trace (m : Mmio) (id : BitVec 32) (e : Bool) :
    ∃ v, (imsicSetEnabled m id e).trace =
      m.trace ++ [.read (imsicEieReg id), .write (imsicEieReg id) v] :=
  ⟨if e then m.regs (imsicEieReg id) ||| imsicEieMask id
    else m.regs (imsicEieReg id) &&& ~~~imsicEieMask id, by simp [imsicSetEnabled]⟩

/-- The bit of `h` in its enable word, `EIE[h / 32]` bit `h % 32`. -/
def enableBit (m : Mmio) (h : BitVec 32) : Bool := (m.regs (imsicEieReg h)).getLsbD (h.toNat % 32)

theorem imsicSetEnabled_bit (m : Mmio) (id h : BitVec 32) (e : Bool) :
    enableBit (imsicSetEnabled m id e) h = if h = id then e else enableBit m h := by
  have hb : h.toNat % 32 < 32 := Nat.mod_lt _ (by omega)
  simp only [enableBit, imsicSetEnabled, imsicWriteReg_regs, imsicReadReg_regs, imsicReadReg_fst]
  by_cases hw : imsicEieReg h = imsicEieReg id
  · rw [hw, Function.update_same]
    by_cases hid : h = id
    · subst hid
      cases e <;> simp [getLsbD_imsicEieMask _ hb]
    · have hne : h.toNat % 32 ≠ id.toNat % 32 := by
        rw [imsicEieReg_eq_iff] at hw
        intro hm
        exact hid (BitVec.eq_of_toNat_eq (by omega))
      cases e <;> simp [getLsbD_imsicEieMask _ hb, hne, hid, hb]
  · rw [Function.update_noteq hw, if_neg (by rintro rfl; exact hw rfl)]

theorem imsicClearPending_enable (m : Mmio) (id h : BitVec 32) :
    (imsicClearPending m id).regs (imsicEieReg h) = m.regs (imsicEieReg h) := by
  simp [imsicClearPending, Function.update_noteq (imsicEieReg_ne_clreipnum h)]

/-! ## Chip operations -/

/-- The `irq_desc` field the IMSIC chip operations read; `chip_data` is the primary file. -/
structure IrqDesc where
  hwirq : BitVec 32
  deriving DecidableEq, Repr

def imsicIrqEnable (desc : IrqDesc) (m : Mmio) : Mmio := imsicSetEnabled m desc.hwirq true
def imsicIrqDisable (desc : IrqDesc) (m : Mmio) : Mmio := imsicSetEnabled m desc.hwirq false
def imsicIrqAck (desc : IrqDesc) (m : Mmio) : Mmio := imsicClearPending m desc.hwirq
def imsicIrqMask (desc : IrqDesc) (m : Mmio) : Mmio := imsicSetEnabled m desc.hwirq false
def imsicIrqUnmask (desc : IrqDesc) (m : Mmio) : Mmio := imsicSetEnabled m desc.hwirq true

/-- The entries of `imsic_irq_chip`. -/
inductive ChipOp where
  | enable | disable | ack | mask | unmask
  deriving DecidableEq, Repr

def ChipOp.run : ChipOp → IrqDesc → Mmio → Mmio
  | .enable => imsicIrqEnable
  | .disable => imsicIrqDisable
  | .ack => imsicIrqAck
  | .mask => imsicIrqMask
  | .unmask => imsicIrqUnmask

/-- The enable bit an operation writes, `none` for `ack`. -/
def ChipOp.writes : ChipOp → Option Bool
  | .enable | .unmask => some true
  | .disable | .mask => some false
  | .ack => none

/-- Run chip operations in order. -/
def runChipOps (m : Mmio) (ops : List (ChipOp × IrqDesc)) : Mmio :=
  ops.foldl (fun m o => o.1.run o.2 m) m

/-- The enable bit written by the last enable-type operation on hwirq `h`. -/
def lastWrite (h : BitVec 32) : List (ChipOp × IrqDesc) → Option Bool
  | [] => none
  | (op, desc) :: ops => (lastWrite h ops).orElse fun _ => if desc.hwirq = h then op.writes else none

theorem chipOp_enableBit (op : ChipOp) (desc : IrqDesc) (m : Mmio) (h : BitVec 32) :
    enableBit (op.run desc m) h =
      (if desc.hwirq = h then op.writes else none).getD (enableBit m h) := by
  cases op
  case ack => simp [ChipOp.run, ChipOp.writes, imsicIrqAck, enableBit, imsicClearPending_enable]
  all_goals
    simp only [ChipOp.run, ChipOp.writes, imsicIrqEnable, imsicIrqDisable, imsicIrqMask,
      imsicIrqUnmask, imsicSetEnabled_bit]
    by_cases hd : desc.hwirq = h
    · simp [hd]
    · simp [hd, Ne.symm hd]

/-- Starting from any register contents, after a sequence of chip operations the enable bit of
every hwirq is what its last enable, disable, mask or unmask wrote, or its first value if no
such operation named it; and an `ack` changes no enable word. The enable bit of `h` is bit
`h % 32` of the word `imsicEieReg h`, at offset `0xC0 + 4 (h / 32)` (`imsicEieReg_toNat`). -/
theorem runChipOps_enableBit (m : Mmio) (ops : List (ChipOp × IrqDesc)) :
    (∀ h, enableBit (runChipOps m ops) h = (lastWrite h ops).getD (enableBit m h)) ∧
      ∀ (desc : IrqDesc) (m' : Mmio) (h : BitVec 32),
        (ChipOp.ack.run desc m').regs (imsicEieReg h) = m'.regs (imsicEieReg h) := by
  refine ⟨fun h => ?_, fun desc m' h => imsicClearPending_enable m' desc.hwirq h⟩
  induction ops generalizing m with
  | nil => rfl
  | cons o ops ih =>
    obtain ⟨op, desc⟩ := o
    simp only [runChipOps, List.foldl_cons] at ih ⊢
    rw [ih, chipOp_enableBit, lastWrite]
    cases lastWrite h ops <;> rfl

end ProtoKernel.Irqchip
