import ProtoKernel.Irq.Heap
import ProtoKernel.Irq.Domain

/-!
# `kernel/irq/msi.c`

Each function of the MSI core over the state it touches: the heap, the `msi_data` and
`msi_domain` fields of the devices, and the IRQ core. A function returns `none` when the C
code would use a dead or mistyped pointer, or when a list walk does not come back to its
sentinel within `top + 1` steps.

Results the MSI core does not choose are arguments: the address `kmalloc` returns
(`KmallocOk`), and for `msi_alloc_vectors` the base of the reserved range and the virqs of
`irq_create_mapping` (`AllocEnv`).

The loops of `msi_alloc_vectors` and `msi_free_vectors` are written as segments that each
make at most one call into the IRQ core (`populateStep`, `rollbackStep`, `freeWalkStep`,
`freeReleaseStep`); the sequential functions chain them, and the interleaving model of the
concurrent system takes one segment per step.
-/

namespace ProtoKernel.Irq

/-- Modelled from the spec: `MSI_MAX_VECTORS` (`irq/msi.h` is not among the sources). -/
def msiMaxVectors : Nat := 32

/-- The `struct device` fields the MSI core uses, `0` for `NULL`. -/
structure Device where
  msiData : Nat
  msiDomain : Nat
  deriving DecidableEq, Repr

structure State where
  heap : Heap
  devs : Nat → Device
  irq : IrqCore

/-- No registry, no object, no reservation and no mapping; the devices' `msi_domain` fields
are given. -/
def State.init (devs : Nat → Device) : State :=
  ⟨Heap.empty, devs, ⟨fun _ _ => false, fun _ => none, []⟩⟩

/-- The contract of `kmalloc`: `NULL`, or an address that is not `NULL` and not live. -/
def KmallocOk (h : Heap) : Option Nat → Prop
  | none => True
  | some p => p ≠ 0 ∧ h.mem p = none

/-! ## Descriptors -/

/-- The descriptor `msi_desc_alloc_internal` leaves at the address `kmalloc` returned: zeroed
by `KM_ZERO`, self-linked, with one reference. -/
def msiDescAllocInternal (p : Nat) : MsiDesc := ⟨⟨p, p⟩, 0, 0, 0, 0, 0, 1⟩

/-- `while ((1U << multiple) < nvec) multiple++;` from `multiple`, at most `fuel` times. -/
def log2Loop (nvec : Nat) : Nat → Nat → Nat
  | 0, multiple => multiple
  | fuel + 1, multiple => if 2 ^ multiple < nvec then log2Loop nvec fuel (multiple + 1) else multiple

/-- `msi_desc_alloc`, `kmalloc` returning `r`. The loop on `multiple` runs at most `nvec`
times. -/
def msiDescAlloc (h : Heap) (dev nvec : Nat) (r : Option Nat) : Option Nat × Heap :=
  if dev = 0 ∨ nvec = 0 ∨ msiMaxVectors < nvec then (none, h)
  else
    match r with
    | none => (none, h)
    | some p =>
      (some p, h.alloc p (.desc { msiDescAllocInternal p with dev, multiple := log2Loop nvec nvec 0 }))

def msiDescFree (h : Heap) (desc : Nat) : Option Heap :=
  if desc = 0 then some h
  else do
    let d ← h.desc desc
    let h ← h.setDesc desc { d with refcount := d.refcount - 1 }
    if 0 < d.refcount - 1 then some h
    else do
      let l ← h.link desc
      let h ← if l.next ≠ desc then h.unlink desc else some h
      h.free desc

def msiDescListAddLocked (h : Heap) (msiData desc : Nat) : Option (Int × Heap) :=
  if msiData = 0 ∨ desc = 0 then some (-1, h)
  else do
    let h ← h.setNext desc msiData
    let sl ← h.link msiData
    let h ← h.setPrev desc sl.prev
    let sl ← h.link msiData
    let h ← h.setNext sl.prev desc
    let h ← h.setPrev msiData desc
    let md ← h.data msiData
    let h ← h.setData msiData { md with numVectors := md.numVectors + 1 }
    let d ← h.desc desc
    let h ← h.setDesc desc { d with refcount := d.refcount + 1 }
    some (0, h)

/-- `msi_desc_list_add`: the lock makes it atomic. -/
def msiDescListAdd (h : Heap) (msiData desc : Nat) : Option (Int × Heap) :=
  if msiData = 0 ∨ desc = 0 then some (-1, h) else msiDescListAddLocked h msiData desc

/-! ## Registries -/

/-- `msi_device_init`, `kmalloc` returning `r`. -/
def msiDeviceInit (s : State) (dev : Nat) (r : Option Nat) : Int × State :=
  if dev = 0 then (-1, s)
  else
    match r with
    | none => (-1, s)
    | some p =>
      (0, { s with
        heap := s.heap.alloc p (.data ⟨⟨p, p⟩, 0⟩)
        devs := Function.update s.devs dev { s.devs dev with msiData := p } })

/-- The walk of `msi_device_cleanup` from `desc`. -/
def cleanupLoop (msiData : Nat) : Nat → Heap → Nat → Option Heap
  | 0, _, _ => none
  | fuel + 1, h, desc =>
    if desc = msiData then some h
    else do
      let l ← h.link desc
      let h ← h.unlink desc
      let d ← h.desc desc
      let h ← h.setDesc desc { d with refcount := d.refcount - 1 }
      let h ← if d.refcount - 1 = 0 then h.free desc else some h
      cleanupLoop msiData fuel h l.next

def msiDeviceCleanup (s : State) (dev : Nat) : Option State :=
  if dev = 0 ∨ (s.devs dev).msiData = 0 then some s
  else do
    let msiData := (s.devs dev).msiData
    let l ← s.heap.link msiData
    let h ← cleanupLoop msiData (s.heap.top + 1) s.heap l.next
    let h ← h.free msiData
    some { s with
      heap := h
      devs := Function.update s.devs dev { s.devs dev with msiData := 0 } }

/-- The tail shared by the rollback of `msi_alloc_vectors` and by `msi_free_vectors`:
`list_del`, `msi_data->num_vectors--`, `kfree`. -/
def removeDesc (h : Heap) (msiData desc : Nat) : Option Heap := do
  let h ← h.unlink desc
  let md ← h.data msiData
  let h ← h.setData msiData { md with numVectors := md.numVectors - 1 }
  h.free desc

/-! ## `msi_alloc_vectors` -/

/-- What the IRQ core and `kmalloc` return to one `msi_alloc_vectors` call: the base of the
range (`none` for a failure), and for index `i` the address of the descriptor and the virq
of its mapping. -/
structure AllocEnv where
  range : Option Nat
  desc : Nat → Option Nat
  virq : Nat → Nat

/-- The locals of an `msi_alloc_vectors` call once its range is reserved. -/
structure AllocCall where
  dev : Nat
  msiData : Nat
  domain : Nat
  flags : Nat
  nvec : Nat
  base : Nat
  deriving DecidableEq, Repr

/-- `hwirq_base + i`, a `uint32_t` sum. -/
def AllocCall.hwirq (c : AllocCall) (i : Nat) : Nat := (c.base + i) % 2 ^ 32

/-- `while (nvec <= max_vecs) nvec <<= 1;` from `nvec`, at most `fuel` times. -/
def nvecLoop (maxVecs : Nat) : Nat → Nat → Nat
  | 0, nvec => nvec
  | fuel + 1, nvec => if nvec ≤ maxVecs then nvecLoop maxVecs fuel (nvec * 2) else nvec

/-- `nvec` once the loop has run from `1` and `nvec >>= 1` has undone its last doubling; the
loop runs at most `max_vecs + 1` times. -/
def nvecOf (maxVecs : Nat) : Nat := nvecLoop maxVecs (maxVecs + 1) 1 / 2

/-- The contract of `kmalloc` at each index `j` from `i` below `n` that the population loop
reaches (the iterations from `i` before it succeeded): an address that is not `NULL`, not live
in `h`, and not one of the descriptors allocated since `i`. -/
def AllocEnv.KmallocOk (env : AllocEnv) (h : Heap) (i n : Nat) : Prop :=
  ∀ j p, i ≤ j → j < n → (∀ k, i ≤ k → k < j → (env.desc k).isSome ∧ env.virq k ≠ 0) →
    env.desc j = some p → p ≠ 0 ∧ h.mem p = none ∧ ∀ k, i ≤ k → k < j → env.desc k ≠ some p

/-- One iteration of the population loop, `kmalloc` returning `r` and `irq_create_mapping`
returning `virq`: `false` is a `goto cleanup`. -/
def populateStep (c : AllocCall) (i : Nat) (r : Option Nat) (virq : Nat) (s : State) :
    Option (Bool × State) :=
  match r with
  | none => some (false, s)
  | some p =>
    let d : MsiDesc :=
      { msiDescAllocInternal p with dev := c.dev, hwirq := c.hwirq i, msiAttrib := c.flags &&& 0xFFFF }
    let heap := s.heap.alloc p (.desc d)
    let irq := irqCreateMapping s.irq c.domain (c.hwirq i) virq
    if virq = 0 then do
      let heap ← heap.free p
      some (false, { s with heap, irq })
    else do
      let heap ← heap.setDesc p { d with irq := virq }
      let (ret, heap) ← msiDescListAddLocked heap c.msiData p
      if ret < 0 then do
        let heap ← heap.free p
        some (false, { s with heap, irq := irqDisposeMapping irq virq })
      else some (true, { s with heap, irq })

/-- The population loop from index `i`, `left` iterations to go: `none` as first component on
success, `some i` for a `goto cleanup` at index `i`. -/
def populateLoop (c : AllocCall) (env : AllocEnv) : Nat → Nat → State → Option (Option Nat × State)
  | 0, _, s => some (none, s)
  | left + 1, i, s => do
    let (ok, s) ← populateStep c i (env.desc i) (env.virq i) s
    if ok then populateLoop c env left (i + 1) s else some (some i, s)

/-- The search of the cleanup loop for the descriptor with hwirq `target`, from `d`. -/
def rollbackSearch (c : AllocCall) (target : Nat) : Nat → State → Nat → Option State
  | 0, _, _ => none
  | fuel + 1, s, d =>
    if d = c.msiData then some s
    else do
      let dd ← s.heap.desc d
      if dd.hwirq = target then do
        let heap ← removeDesc s.heap c.msiData d
        some { s with heap, irq := irqDisposeMapping s.irq dd.irq }
      else rollbackSearch c target fuel s dd.list.next

/-- One iteration of the cleanup loop, after `i--`. -/
def rollbackStep (c : AllocCall) (i : Nat) (s : State) : Option State := do
  let l ← s.heap.link c.msiData
  rollbackSearch c (c.hwirq i) (s.heap.top + 1) s l.next

/-- `while (i > 0) { i--; ... }`. -/
def rollbackLoop (c : AllocCall) : Nat → State → Option State
  | 0, s => some s
  | i + 1, s => do
    let s ← rollbackStep c i s
    rollbackLoop c i s

/-- The checks of `msi_alloc_vectors` and its `irq_domain_alloc_hwirq_range` returning
`range`: the locals of the call once its range is reserved, or `none` where the call returns
`-1`. -/
def allocStart (s : State) (dev minVecs maxVecs flags : Nat) (range : Option Nat) :
    Option AllocCall × State :=
  let dv := s.devs dev
  if dev = 0 ∨ dv.msiData = 0 ∨ dv.msiDomain = 0 ∨ minVecs = 0 ∨ maxVecs < minVecs ∨
      msiMaxVectors < maxVecs then (none, s)
  else
    let nvec := nvecOf maxVecs
    if nvec < minVecs then (none, s)
    else
      let irq := irqDomainAllocHwirqRange s.irq dv.msiDomain nvec range
      match range with
      | none => (none, { s with irq })
      | some base => (some ⟨dev, dv.msiData, dv.msiDomain, flags, nvec, base⟩, { s with irq })

def msiAllocVectors (s : State) (dev minVecs maxVecs flags : Nat) (env : AllocEnv) :
    Option (Int × State) :=
  match allocStart s dev minVecs maxVecs flags env.range with
  | (none, s) => some (-1, s)
  | (some c, s) => do
    let (fail, s) ← populateLoop c env c.nvec 0 s
    match fail with
    | none => some (c.nvec, s)
    | some i => do
      let s ← rollbackLoop c i s
      some (-1, { s with irq := irqDomainFreeHwirqRange s.irq c.domain c.base c.nvec })

/-! ## `msi_free_vectors` -/

/-- The locals of an `msi_free_vectors` call. -/
structure FreeCall where
  domain : Nat
  msiData : Nat
  deriving DecidableEq, Repr

/-- The head of an iteration at `desc`: `none` at the sentinel, otherwise the saved `next`,
after `irq_dispose_mapping` of a non-zero virq. -/
def freeWalkStep (c : FreeCall) (desc : Nat) (s : State) : Option (Option Nat × State) :=
  if desc = c.msiData then some (none, s)
  else do
    let d ← s.heap.desc desc
    some (some d.list.next,
      if d.irq ≠ 0 then { s with irq := irqDisposeMapping s.irq d.irq } else s)

/-- The rest of the iteration: release the hwirq, unlink, count down and free. -/
def freeReleaseStep (c : FreeCall) (desc : Nat) (s : State) : Option State := do
  let d ← s.heap.desc desc
  let heap ← removeDesc s.heap c.msiData desc
  some { s with heap, irq := irqDomainFreeHwirqRange s.irq c.domain d.hwirq 1 }

def freeVectorsLoop (c : FreeCall) : Nat → State → Nat → Option State
  | 0, _, _ => none
  | fuel + 1, s, desc => do
    let (next, s) ← freeWalkStep c desc s
    match next with
    | none => some s
    | some next => do
      let s ← freeReleaseStep c desc s
      freeVectorsLoop c fuel s next

/-- The checks of `msi_free_vectors` and its read of the sentinel's `next`: the locals of the
call and the first node, or `none` where the call returns at once. -/
def freeStart (s : State) (dev : Nat) : Option (Option (FreeCall × Nat)) :=
  let dv := s.devs dev
  if dev = 0 ∨ dv.msiData = 0 ∨ dv.msiDomain = 0 then some none
  else do
    let l ← s.heap.link dv.msiData
    some (some (⟨dv.msiDomain, dv.msiData⟩, l.next))

def msiFreeVectors (s : State) (dev : Nat) : Option State := do
  match ← freeStart s dev with
  | none => some s
  | some (c, desc) => freeVectorsLoop c (s.heap.top + 1) s desc

end ProtoKernel.Irq
