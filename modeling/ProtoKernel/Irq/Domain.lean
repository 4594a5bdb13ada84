import Mathlib.Logic.Function.Basic
import Mathlib.Algebra.Group.Nat.Basic

/-!
# The IRQ core as the MSI core uses it

The IRQ-domain layer is not part of the sources; the MSI core only calls it. Its state, as
far as the MSI core can observe it, is the set of reserved hwirqs of each domain and the
owner `(domain, hwirq)` of each virq. The calls that return a value the MSI core does not
choose (`irq_domain_alloc_hwirq_range`, `irq_create_mapping`) take that value as an
argument; `RangeOk` and `MappingOk` are their contracts. Every call is also appended to
`calls`, so that "called exactly once" can be stated.
-/

namespace ProtoKernel.Irq

/-- A call from the MSI core into the IRQ core, with the result it got. -/
inductive IrqCall where
  | allocHwirqRange (domain n : Nat) (base : Option Nat)
  | freeHwirqRange (domain base n : Nat)
  | createMapping (domain hwirq virq : Nat)
  | disposeMapping (virq : Nat)
  deriving DecidableEq, Repr

/-- Modelled from the spec: the IRQ-domain state behind `irq_domain_*` and
`irq_create_mapping`/`irq_dispose_mapping` (§6). Domains are pointers, `0` for `NULL`;
`owner v` is the mapping held by virq `v`. -/
structure IrqCore where
  reserved : Nat → Nat → Bool
  owner : Nat → Option (Nat × Nat)
  calls : List IrqCall

/-- Modelled from the spec: `irq_domain_alloc_hwirq_range(domain, n, &base)` with result
`r` (`none` for a negative return) reserves `base .. base + n - 1`. -/
def irqDomainAllocHwirqRange (c : IrqCore) (domain n : Nat) (r : Option Nat) : IrqCore :=
  { c with
    reserved := fun d h =>
      c.reserved d h || (r.isSome && d == domain && decide (r.getD 0 ≤ h ∧ h < r.getD 0 + n))
    calls := c.calls ++ [.allocHwirqRange domain n r] }

/-- Modelled from the spec: `irq_domain_free_hwirq_range(domain, base, n)`. -/
def irqDomainFreeHwirqRange (c : IrqCore) (domain base n : Nat) : IrqCore :=
  { c with
    reserved := fun d h => c.reserved d h && !(d == domain && decide (base ≤ h ∧ h < base + n))
    calls := c.calls ++ [.freeHwirqRange domain base n] }

/-- Modelled from the spec: `irq_create_mapping(domain, hwirq)` returning `virq`, `0` on
failure. -/
def irqCreateMapping (c : IrqCore) (domain hwirq virq : Nat) : IrqCore :=
  { c with
    owner := if virq = 0 then c.owner else Function.update c.owner virq (some (domain, hwirq))
    calls := c.calls ++ [.createMapping domain hwirq virq] }

/-- Modelled from the spec: `irq_dispose_mapping(virq)`. -/
def irqDisposeMapping (c : IrqCore) (virq : Nat) : IrqCore :=
  { c with
    owner := Function.update c.owner virq none
    calls := c.calls ++ [.disposeMapping virq] }

/-- The contract of `irq_domain_alloc_hwirq_range`: a reserved range is `n` consecutive
32-bit ids, none of them reserved before. -/
def RangeOk (c : IrqCore) (domain n : Nat) : Option Nat → Prop
  | none => True
  | some b => b + n ≤ 2 ^ 32 ∧ ∀ h, b ≤ h → h < b + n → c.reserved domain h = false

/-- The contract of `irq_create_mapping`: `0`, a free virq, or the virq already mapping this
hwirq. -/
def MappingOk (c : IrqCore) (domain hwirq virq : Nat) : Prop :=
  virq = 0 ∨ c.owner virq = none ∨ c.owner virq = some (domain, hwirq)

@[simp] theorem irqDomainAllocHwirqRange_owner (c : IrqCore) (domain n : Nat) (r : Option Nat) :
    (irqDomainAllocHwirqRange c domain n r).owner = c.owner := rfl

@[simp] theorem irqDomainFreeHwirqRange_owner (c : IrqCore) (domain base n : Nat) :
    (irqDomainFreeHwirqRange c domain base n).owner = c.owner := rfl

@[simp] theorem irqCreateMapping_reserved (c : IrqCore) (domain hwirq virq : Nat) :
    (irqCreateMapping c domain hwirq virq).reserved = c.reserved := rfl

@[simp] theorem irqDisposeMapping_reserved (c : IrqCore) (virq : Nat) :
    (irqDisposeMapping c virq).reserved = c.reserved := rfl

@[simp] theorem irqCreateMapping_owner (c : IrqCore) (domain hwirq virq v : Nat) :
    (irqCreateMapping c domain hwirq virq).owner v =
      if virq ≠ 0 ∧ v = virq then some (domain, hwirq) else c.owner v := by
  by_cases h : virq = 0 <;> by_cases hv : v = virq <;> simp [irqCreateMapping, h, hv]

@[simp] theorem irqDisposeMapping_owner (c : IrqCore) (virq v : Nat) :
    (irqDisposeMapping c virq).owner v = if v = virq then none else c.owner v := by
  by_cases hv : v = virq <;> simp [irqDisposeMapping, hv]

@[simp] theorem irqDomainAllocHwirqRange_calls (c : IrqCore) (domain n : Nat) (r : Option Nat) :
    (irqDomainAllocHwirqRange c domain n r).calls = c.calls ++ [.allocHwirqRange domain n r] :=
  rfl

@[simp] theorem irqDomainFreeHwirqRange_calls (c : IrqCore) (domain base n : Nat) :
    (irqDomainFreeHwirqRange c domain base n).calls = c.calls ++ [.freeHwirqRange domain base n] :=
  rfl

@[simp] theorem irqCreateMapping_calls (c : IrqCore) (domain hwirq virq : Nat) :
    (irqCreateMapping c domain hwirq virq).calls = c.calls ++ [.createMapping domain hwirq virq] :=
  rfl

@[simp] theorem irqDisposeMapping_calls (c : IrqCore) (virq : Nat) :
    (irqDisposeMapping c virq).calls = c.calls ++ [.disposeMapping virq] := rfl

/-- `irq_domain_alloc_hwirq_range` makes a reservation only inside the range it returns. -/
theorem irqDomainAllocHwirqRange_reserved_grant {c : IrqCore} {domain n e x : Nat}
    {r : Option Nat} (h : c.reserved e x = false)
    (h' : (irqDomainAllocHwirqRange c domain n r).reserved e x = true) :
    e = domain ∧ ∃ b, r = some b ∧ b ≤ x ∧ x < b + n := by
  cases r <;> simp_all [irqDomainAllocHwirqRange]

/-- `irq_domain_free_hwirq_range` changes a reservation only inside its range, and there frees
it. -/
theorem irqDomainFreeHwirqRange_reserved_ne {c : IrqCore} {domain base n e x : Nat}
    (h : (irqDomainFreeHwirqRange c domain base n).reserved e x ≠ c.reserved e x) :
    (irqDomainFreeHwirqRange c domain base n).reserved e x = false ∧ e = domain ∧
      base ≤ x ∧ x < base + n := by
  simp only [irqDomainFreeHwirqRange] at h ⊢
  cases c.reserved e x <;> simp_all

theorem irqDomainFreeHwirqRange_reserved_self {c : IrqCore} {domain base n x : Nat}
    (h₁ : base ≤ x) (h₂ : x < base + n) :
    (irqDomainFreeHwirqRange c domain base n).reserved domain x = false := by
  simp [irqDomainFreeHwirqRange, h₁, h₂]

/-- `irq_dispose_mapping` changes a mapping only to remove it. -/
theorem irqDisposeMapping_owner_eq_none {c : IrqCore} {virq v : Nat}
    (h : (irqDisposeMapping c virq).owner v ≠ c.owner v) :
    (irqDisposeMapping c virq).owner v = none := by
  by_cases hv : v = virq <;> simp [hv] at h ⊢

end ProtoKernel.Irq
