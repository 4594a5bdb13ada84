import Mathlib.Data.List.Infix
import ProtoKernel.Irqchip.ImsicHandle

/-!
# Binding the IMSIC driver

`imsic_probe` matches the compatible string; `imsic_attach` fills the primary file and
controller from the device's memory resource and its `riscv,num-ids` property, creates the
linear domain and marks the driver initialized; `imsic_detach` always fails.

* `imsicAttach_initialized`: an attach on an initialized driver fails and changes nothing,
  and a failed attach never sets the flag; so in any sequence of attaches at most one
  succeeds (`attachAll_successes_le_one`).
* `imsicAttach_numIds`: a successful attach stores the property value, or `IMSIC_MAX_IDS`
  when it is absent, in both the file and the controller, without a bound.
* `imsicAttach_numIds_unclamped`: so `num_ids = 1024` passes, and the scan of
  `imsic_handle_irq` then reads the first enable word.
* `imsicAttach_windows`: when the property is absent or at most `IMSIC_MAX_IDS`, every read
  of `imsic_handle_irq` stays among the pending words, every access of `imsic_set_enabled` for
  an id below `num_ids` among the enable words of the file, and `num_ids + 31` does not wrap.
-/

namespace ProtoKernel.Irqchip

/-- The fields of a `struct resource` the driver reads; `mappedAddr = 0` is `NULL`. -/
structure Resource where
  start : BitVec 64
  mappedAddr : BitVec 64
  deriving DecidableEq, Repr

/-- What the driver reads of a device: its compatible string, `device_get_resource(dev,
RES_TYPE_MEM, 0)`, and its `u32` properties. -/
structure Device where
  compatible : Option String
  memResource : Option Resource
  properties : String → Option (BitVec 32)

/-- Modelled from the spec: `device_get_property_u32(dev, key, default)` returns the property
when the device has it, and `default` otherwise. -/
def deviceGetPropertyU32 (dev : Device) (key : String) (default : BitVec 32) : BitVec 32 :=
  (dev.properties key).getD default

/-- `strstr(haystack, needle) != NULL`. -/
def strstr (haystack needle : String) : Prop := needle.data <:+: haystack.data

instance (haystack needle : String) : Decidable (strstr haystack needle) :=
  inferInstanceAs (Decidable (_ <:+: _))

/-- The scores `imsic_probe` returns. -/
inductive ProbeScore where
  | none | exact
  deriving DecidableEq, Repr

def imsicProbe (dev : Device) : ProbeScore :=
  match dev.compatible with
  | none => .none
  | some c => if strstr c "riscv,imsics" ∨ strstr c "qemu,imsics" then .exact else .none

def imsicDetach (_dev : Device) : Int := -1

/-- The driver's static storage: `imsic_initialized`, `primary_imsic_file` and
`primary_imsic_data`. -/
structure ImsicState where
  initialized : Bool
  file : ImsicFile
  data : ImsicData
  deriving DecidableEq, Repr

/-- Zero-initialized static storage, before any attach. -/
def imsicBoot : ImsicState := ⟨false, ⟨0, 0, 0⟩, ⟨0, 0, 0, 0, 0⟩⟩

/-- `imsic_attach`, with `irq_domain_create_linear(NULL, size, ...)` as `createLinear size`
(`0` for a failure). The file and controller are written before the domain is created, so a
failed creation leaves them written. -/
def imsicAttach (createLinear : BitVec 32 → Nat) (dev : Device) (s : ImsicState) :
    Int × ImsicState :=
  if s.initialized then (-1, s)
  else
    match dev.memResource with
    | none => (-1, s)
    | some res =>
      let base := if res.mappedAddr ≠ 0 then res.mappedAddr else res.start
      let file : ImsicFile :=
        ⟨base, 0, deviceGetPropertyU32 dev "riscv,num-ids" imsicMaxIds⟩
      let imsic : ImsicData := ⟨1, file.numIds, res.start >>> 12, 0, 0⟩
      let domain := createLinear imsic.numIds
      if domain = 0 then (-1, { s with file, data := imsic })
      else (0, ⟨true, file, { imsic with domain }⟩)

/-! ## The singleton -/

theorem imsicAttach_initialized (createLinear : BitVec 32 → Nat) (dev : Device)
    (s : ImsicState) :
    (s.initialized = true → imsicAttach createLinear dev s = (-1, s)) ∧
      ((imsicAttach createLinear dev s).1 = 0 ↔
        s.initialized = false ∧ (imsicAttach createLinear dev s).2.initialized = true) ∧
      ((imsicAttach createLinear dev s).1 ≠ 0 →
        (imsicAttach createLinear dev s).2.initialized = s.initialized) := by
  cases hs : s.initialized
  · rcases hr : dev.memResource with _ | res
    · simp [imsicAttach, hs, hr]
    · by_cases hd : createLinear (deviceGetPropertyU32 dev "riscv,num-ids" imsicMaxIds) = 0 <;>
        simp [imsicAttach, hs, hr, hd]
  · simp [imsicAttach, hs]

/-- Attach each device of a list in turn: the number of successful attaches, and the final
storage. -/
def attachAll (createLinear : BitVec 32 → Nat) : List Device → ImsicState → Nat × ImsicState
  | [], s => (0, s)
  | dev :: devs, s =>
    let r := imsicAttach createLinear dev s
    let rest := attachAll createLinear devs r.2
    ((if r.1 = 0 then 1 else 0) + rest.1, rest.2)

theorem attachAll_initialized (createLinear : BitVec 32 → Nat) (devs : List Device)
    (s : ImsicState) (h : s.initialized = true) : attachAll createLinear devs s = (0, s) := by
  induction devs with
  | nil => rfl
  | cons dev devs ih =>
    simp [attachAll, (imsicAttach_initialized createLinear dev s).1 h, ih]

/-- At most one attach of any sequence succeeds, and only from an uninitialized driver. -/
theorem attachAll_successes_le_one (createLinear : BitVec 32 → Nat) (devs : List Device)
    (s : ImsicState) :
    (attachAll createLinear devs s).1 ≤ (if s.initialized then 0 else 1) := by
  induction devs generalizing s with
  | nil => simp [attachAll]
  | cons dev devs ih =>
    obtain ⟨hinit, hok, hfail⟩ := imsicAttach_initialized createLinear dev s
    simp only [attachAll]
    by_cases h0 : (imsicAttach createLinear dev s).1 = 0
    · obtain ⟨hs, hs'⟩ := hok.mp h0
      rw [attachAll_initialized _ _ _ hs', h0, hs]
      simp
    · have := ih (imsicAttach createLinear dev s).2
      rw [hfail h0] at this
      simpa [h0] using this

/-! ## `num_ids` -/

/-- A successful attach stores the `riscv,num-ids` property, or `IMSIC_MAX_IDS` when it is
absent, in both the file and the controller. -/
theorem imsicAttach_numIds {createLinear : BitVec 32 → Nat} {dev : Device} {s s' : ImsicState}
    (h : imsicAttach createLinear dev s = (0, s')) :
    s'.file.numIds = deviceGetPropertyU32 dev "riscv,num-ids" imsicMaxIds ∧
      s'.data.numIds = s'.file.numIds := by
  rcases hr : dev.memResource with _ | res
  · simp [imsicAttach, hr] at h
  · by_cases hd : createLinear (deviceGetPropertyU32 dev "riscv,num-ids" imsicMaxIds) = 0 <;>
      simp only [imsicAttach, hr, hd, if_true, if_false] at h <;> split at h <;> cases h
    exact ⟨rfl, rfl⟩

/-- With `riscv,num-ids = 1024` the attach succeeds and keeps `num_ids = 1024`, above
`IMSIC_MAX_IDS`; with nothing pending, `imsic_handle_irq` then reads `0x0C0`, the first
enable word. -/
theorem imsicAttach_numIds_unclamped :
    let dev : Device := ⟨some "riscv,imsics", some ⟨0x28000000, 0⟩,
      fun key => if key = "riscv,num-ids" then some 1024 else none⟩
    let r := imsicAttach (fun _ => 1) dev imsicBoot
    r.1 = 0 ∧ imsicMaxIds.toNat < r.2.file.numIds.toNat ∧
      Access.read imsicRegEieBase ∈
        (imsicHandleIrq (fun _ _ => 0) r.2.data ⟨fun _ => 0, []⟩).trace := by
  decide

/-- When `riscv,num-ids` is absent or at most `IMSIC_MAX_IDS`, a successful attach keeps
`num_ids ≤ IMSIC_MAX_IDS`; then `num_ids + 31` does not wrap, `imsic_handle_irq` reads only
in `[IMSIC_REG_EIP_BASE, IMSIC_REG_EIE_BASE)`, and `imsic_set_enabled` for an id below
`num_ids` reads and writes one word in `[IMSIC_REG_EIE_BASE, IMSIC_MMIO_STRIDE)`. -/
theorem imsicAttach_windows {createLinear : BitVec 32 → Nat} {dev : Device}
    {s s' : ImsicState}
    (hProp : ∀ v, dev.properties "riscv,num-ids" = some v → v.toNat ≤ imsicMaxIds.toNat)
    (h : imsicAttach createLinear dev s = (0, s')) :
    s'.file.numIds.toNat ≤ imsicMaxIds.toNat ∧ s'.data.numIds = s'.file.numIds ∧
      s'.data.numIds.toNat + 31 < 2 ^ 32 ∧
      (∀ (irqFindMapping : Nat → BitVec 32 → BitVec 32) (m : Mmio),
        ∃ L, (imsicHandleIrq irqFindMapping s'.data m).trace = m.trace ++ L ∧
          ∀ reg, Access.read reg ∈ L →
            imsicRegEipBase.toNat ≤ reg.toNat ∧ reg.toNat < imsicRegEieBase.toNat) ∧
      (∀ (m : Mmio) (id : BitVec 32) (e : Bool), id.toNat < s'.file.numIds.toNat →
        ∃ v, (imsicSetEnabled m id e).trace =
            m.trace ++ [.read (imsicEieReg id), .write (imsicEieReg id) v] ∧
          imsicRegEieBase.toNat ≤ (imsicEieReg id).toNat ∧
          (imsicEieReg id).toNat < imsicMmioStride.toNat) := by
  obtain ⟨hfile, hdata⟩ := imsicAttach_numIds h
  have hmax : imsicMaxIds.toNat = 256 := rfl
  have hle : s'.file.numIds.toNat ≤ imsicMaxIds.toNat := by
    rw [hfile, deviceGetPropertyU32]
    cases hv : dev.properties "riscv,num-ids" with
    | none => exact le_rfl
    | some v => exact hProp v hv
  have hdata' := congrArg BitVec.toNat hdata
  have hwords : eipWords s'.data.numIds ≤ 8 := by
    rw [eipWords_toNat (hdata ▸ hle), hdata]
    omega
  refine ⟨hle, hdata, by omega, fun irqFindMapping m => ?_, fun m id e hid => ?_⟩
  · obtain ⟨L, htr, hL⟩ := imsicHandleIrq_reads irqFindMapping s'.data m
    refine ⟨L, htr, fun reg hreg => ?_⟩
    obtain ⟨j, hj, rfl⟩ := hL reg hreg
    rw [eipReg_toNat (by omega)]
    exact ⟨by simp [imsicRegEipBase], by simp [imsicRegEieBase]; omega⟩
  · obtain ⟨v, hv⟩ := imsicSetEnabled_trace m id e
    refine ⟨v, hv, ?_⟩
    rw [imsicEieReg_toNat]
    exact ⟨by simp [imsicRegEieBase], by simp [imsicMmioStride]; omega⟩

/-- `imsicAttach_windows` for a device without the property. -/
theorem imsicAttach_windows_default :
    let dev : Device := ⟨some "riscv,imsics", some ⟨0x28000000, 0⟩, fun _ => none⟩
    let s' := (imsicAttach (fun _ => 1) dev imsicBoot).2
    (∀ v, dev.properties "riscv,num-ids" = some v → v.toNat ≤ imsicMaxIds.toNat) ∧
      imsicAttach (fun _ => 1) dev imsicBoot = (0, s') ∧
      (s'.file.numIds.toNat ≤ imsicMaxIds.toNat ∧ s'.data.numIds = s'.file.numIds ∧
        s'.data.numIds.toNat + 31 < 2 ^ 32 ∧
        (∀ (irqFindMapping : Nat → BitVec 32 → BitVec 32) (m : Mmio),
          ∃ L, (imsicHandleIrq irqFindMapping s'.data m).trace = m.trace ++ L ∧
            ∀ reg, Access.read reg ∈ L →
              imsicRegEipBase.toNat ≤ reg.toNat ∧ reg.toNat < imsicRegEieBase.toNat) ∧
        (∀ (m : Mmio) (id : BitVec 32) (e : Bool), id.toNat < s'.file.numIds.toNat →
          ∃ v, (imsicSetEnabled m id e).trace =
              m.trace ++ [.read (imsicEieReg id), .write (imsicEieReg id) v] ∧
            imsicRegEieBase.toNat ≤ (imsicEieReg id).toNat ∧
            (imsicEieReg id).toNat < imsicMmioStride.toNat)) :=
  by
  intro dev s'
  have hProp : ∀ v, dev.properties "riscv,num-ids" = some v → v.toNat ≤ imsicMaxIds.toNat :=
    fun _ h => by cases h
  have hok : imsicAttach (fun _ => 1) dev imsicBoot = (0, s') := rfl
  exact ⟨hProp, hok, imsicAttach_windows hProp hok⟩

end ProtoKernel.Irqchip
