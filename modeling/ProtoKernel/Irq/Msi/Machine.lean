import ProtoKernel.Irq.Msi.Model
import Mathlib.Logic.Relation

/-!
# Concurrent calls into the MSI core

Devices call `msi_device_init`, `msi_alloc_vectors` and `msi_free_vectors` concurrently. The
registry lock serializes the calls of one device, so a device runs at most one call at a time,
and `Pc` says where that call stands. Every call into the IRQ core is atomic, and what lies
between two of them runs under the device's lock: a step of the machine is one segment of
`kernel/irq/msi.c` as `Model` writes it (`allocStart`, `populateStep`, `rollbackStep`,
`freeStart`, `freeWalkStep`, `freeReleaseStep`), and the steps of the devices interleave in any
order.

What the environment chooses is an argument of the action: the address `kmalloc` returns, the
range of `irq_domain_alloc_hwirq_range` and the virq of `irq_create_mapping`. `Sys.Allowed`
holds each to its contract. As the spec requires, `msi_device_init` is called only on a device
without a registry.

`Sys.blocks` is a history that no step reads: the ranges of the successful `msi_alloc_vectors`
calls of each device since its last `msi_free_vectors`, in call order.

`Reachable` is every interleaving within the contracts; `Sys.Busy` is a run of it in which one
device goes on with its call while the others take any steps.
-/

namespace ProtoKernel.Irq

/-- Where the call of a device stands between two steps. -/
inductive Pc where
  /-- No call: the registry lock is free. -/
  | idle
  /-- `msi_alloc_vectors` before iteration `i` of its population loop. -/
  | populate (c : AllocCall) (i : Nat)
  /-- `msi_alloc_vectors` in its cleanup loop, `i` iterations left. -/
  | rollback (c : AllocCall) (i : Nat)
  /-- `msi_free_vectors` at the head of an iteration at `desc`. -/
  | freeWalk (c : FreeCall) (desc : Nat)
  /-- `msi_free_vectors` after the `irq_dispose_mapping` of `desc`, `next` saved. -/
  | freeRelease (c : FreeCall) (desc next : Nat)
  deriving DecidableEq, Repr

structure Sys where
  s : State
  pc : Nat → Pc
  blocks : Nat → List (Nat × Nat)

/-- One step of the device `dev`, with what the environment returns to it. -/
inductive Act where
  | init (dev : Nat) (r : Option Nat)
  | allocStart (dev minVecs maxVecs flags : Nat) (range : Option Nat)
  | populate (dev : Nat) (r : Option Nat) (virq : Nat)
  | rollback (dev : Nat)
  | freeStart (dev : Nat)
  | freeWalk (dev : Nat)
  | freeRelease (dev : Nat)

/-- The device whose call the step is a segment of. -/
def Act.dev : Act → Nat
  | .init dev _ | .allocStart dev .. | .populate dev .. | .rollback dev | .freeStart dev
  | .freeWalk dev | .freeRelease dev => dev

namespace Sys

/-- The system before any call: no device has a registry, and device `d` has the domain
`domain d`. -/
def start (heap : Heap) (domain : Nat → Nat) (irq : IrqCore) : Sys :=
  ⟨⟨heap, fun d => ⟨0, domain d⟩, irq⟩, fun _ => .idle, fun _ => []⟩

/-- The step `a`: `none` when it is not the next step of its device, or when its segment
faults. -/
def step (S : Sys) : Act → Option Sys
  | .init dev r =>
    if S.pc dev = .idle ∧ (S.s.devs dev).msiData = 0 then
      some { S with s := (msiDeviceInit S.s dev r).2 }
    else none
  | .allocStart dev minVecs maxVecs flags range =>
    if S.pc dev = .idle then
      match allocStart S.s dev minVecs maxVecs flags range with
      | (none, s) => some { S with s }
      | (some c, s) => some { S with s, pc := Function.update S.pc dev (.populate c 0) }
    else none
  | .populate dev r virq =>
    match S.pc dev with
    | .populate c i => do
      let (ok, s) ← populateStep c i r virq S.s
      if ok then
        if i + 1 < c.nvec then some { S with s, pc := Function.update S.pc dev (.populate c (i + 1)) }
        else some ⟨s, Function.update S.pc dev .idle,
          Function.update S.blocks dev (S.blocks dev ++ [(c.base, c.nvec)])⟩
      else some { S with s, pc := Function.update S.pc dev (.rollback c i) }
    | _ => none
  | .rollback dev =>
    match S.pc dev with
    | .rollback c 0 =>
      some ⟨{ S.s with irq := irqDomainFreeHwirqRange S.s.irq c.domain c.base c.nvec },
        Function.update S.pc dev .idle, S.blocks⟩
    | .rollback c (i + 1) => do
      let s ← rollbackStep c i S.s
      some { S with s, pc := Function.update S.pc dev (.rollback c i) }
    | _ => none
  | .freeStart dev =>
    if S.pc dev = .idle then do
      match ← freeStart S.s dev with
      | none => some S
      | some (c, desc) => some { S with pc := Function.update S.pc dev (.freeWalk c desc) }
    else none
  | .freeWalk dev =>
    match S.pc dev with
    | .freeWalk c desc => do
      let (next, s) ← freeWalkStep c desc S.s
      match next with
      | none => some ⟨s, Function.update S.pc dev .idle, Function.update S.blocks dev []⟩
      | some next => some { S with s, pc := Function.update S.pc dev (.freeRelease c desc next) }
    | _ => none
  | .freeRelease dev =>
    match S.pc dev with
    | .freeRelease c desc next => do
      let s ← freeReleaseStep c desc S.s
      some { S with s, pc := Function.update S.pc dev (.freeWalk c next) }
    | _ => none

/-- What the environment returns in the step `a` is within the contracts of `kmalloc`,
`irq_domain_alloc_hwirq_range` and `irq_create_mapping`. -/
def Allowed (S : Sys) : Act → Prop
  | .init _ r => KmallocOk S.s.heap r
  | .allocStart dev _ maxVecs _ range =>
    RangeOk S.s.irq (S.s.devs dev).msiDomain (nvecOf maxVecs) range
  | .populate dev r virq =>
    KmallocOk S.s.heap r ∧
      ∀ c i, S.pc dev = .populate c i → MappingOk S.s.irq c.domain (c.hwirq i) virq
  | _ => True

/-- The step `a` is the next step of the call its device is in, or starts a call of an idle
device (`msi_device_init` only on a device without a registry). -/
def Next (S : Sys) : Act → Prop
  | .init dev _ => S.pc dev = .idle ∧ (S.s.devs dev).msiData = 0
  | .allocStart dev .. => S.pc dev = .idle
  | .populate dev .. => ∃ c i, S.pc dev = .populate c i
  | .rollback dev => ∃ c i, S.pc dev = .rollback c i
  | .freeStart dev => S.pc dev = .idle
  | .freeWalk dev => ∃ c desc, S.pc dev = .freeWalk c desc
  | .freeRelease dev => ∃ c desc next, S.pc dev = .freeRelease c desc next

/-- `S'` follows from `S` by steps of the device `dev` alone. -/
def Run (dev : Nat) : Sys → Sys → Prop :=
  Relation.ReflTransGen fun S S' => ∃ a : Act, a.dev = dev ∧ S.step a = some S'

/-- The steps `as` one after another; `none` once one of them is not taken. -/
def steps : Sys → List Act → Option Sys
  | S, [] => some S
  | S, a :: as => (S.step a).bind (·.steps as)

/-- A run from `S` to `S'`, within the contracts, in which `dev` takes `n` steps, each inside
a call, and the other devices any number of steps. -/
inductive Busy (dev : Nat) : Sys → Nat → Sys → Prop
  | refl (S : Sys) : Busy dev S 0 S
  | other {S S₁ S' : Sys} {a : Act} {n : Nat} : a.dev ≠ dev → S.Allowed a →
      S.step a = some S₁ → Busy dev S₁ n S' → Busy dev S n S'
  | own {S S₁ S' : Sys} {a : Act} {n : Nat} : a.dev = dev → S.pc dev ≠ .idle → S.Allowed a →
      S.step a = some S₁ → Busy dev S₁ n S' → Busy dev S (n + 1) S'

end Sys

/-- The systems reachable from `S₀` by steps within the contracts, in any interleaving. -/
inductive Reachable (S₀ : Sys) : Sys → Prop
  | start : Reachable S₀ S₀
  | step {S S' : Sys} {a : Act} : Reachable S₀ S → S.Allowed a → S.step a = some S' →
      Reachable S₀ S'

end ProtoKernel.Irq
