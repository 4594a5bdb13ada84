import Mathlib.Logic.Function.Basic
import Mathlib.Data.List.Nodup
import Mathlib.Data.Finset.Card

/-!
# Kernel heap with intrusive list links

The MSI core keeps its descriptors (`struct msi_desc`) and per-device registries
(`struct msi_device_data`) in `kmalloc` memory, chained through an embedded
`struct list_head`. A pointer is a `Nat`, `0` being `NULL`; a `list_head` pointer is the
address of the object that embeds it (the `list` field comes first in `msi_desc`, and a
registry is identified with its sentinel).

`Heap.mem` maps each live address to its object. Reads and writes of a dead address are
undefined behaviour and return `none`; `top` bounds the live addresses, so a walk over
distinct live objects takes fewer than `top + 1` steps.

* `Heap.unlink`: the two statements that splice an element out of a list, shared by
  `msi_desc_free`, `msi_device_cleanup`, `msi_free_vectors` and the rollback of
  `msi_alloc_vectors`.
* `length_le_top`: a list of distinct live addresses has length at most `top`.
-/

namespace ProtoKernel.Irq

/-- `struct list_head`: the addresses of the neighbours. -/
structure ListHead where
  next : Nat
  prev : Nat
  deriving DecidableEq, Repr

/-- The fields of `struct msi_desc` the MSI core reads or writes. -/
structure MsiDesc where
  list : ListHead
  dev : Nat
  hwirq : Nat
  irq : Nat
  msiAttrib : Nat
  multiple : Nat
  refcount : Nat
  deriving DecidableEq, Repr

/-- `struct msi_device_data`: the sentinel and `num_vectors`. The lock is modelled by the
atomicity of each operation on one device. -/
structure MsiDeviceData where
  list : ListHead
  numVectors : Nat
  deriving DecidableEq, Repr

/-- A `kmalloc` object of the MSI core. -/
inductive Obj where
  | desc (d : MsiDesc)
  | data (d : MsiDeviceData)
  deriving DecidableEq, Repr

namespace Obj

def list : Obj → ListHead
  | desc d => d.list
  | data d => d.list

def setList : Obj → ListHead → Obj
  | desc d, l => desc { d with list := l }
  | data d, l => data { d with list := l }

@[simp] theorem list_setList (o : Obj) (l : ListHead) : (o.setList l).list = l := by
  cases o <;> rfl

@[simp] theorem setList_setList (o : Obj) (l l' : ListHead) :
    (o.setList l).setList l' = o.setList l' := by
  cases o <;> rfl

def asDesc : Obj → Option MsiDesc
  | desc d => some d
  | data _ => none

def asData : Obj → Option MsiDeviceData
  | data d => some d
  | desc _ => none

@[simp] theorem setList_desc (d : MsiDesc) (l : ListHead) :
    (desc d).setList l = desc { d with list := l } := rfl
@[simp] theorem setList_data (d : MsiDeviceData) (l : ListHead) :
    (data d).setList l = data { d with list := l } := rfl
@[simp] theorem asDesc_desc (d : MsiDesc) : (desc d).asDesc = some d := rfl
@[simp] theorem asDesc_data (d : MsiDeviceData) : (data d).asDesc = none := rfl
@[simp] theorem asData_data (d : MsiDeviceData) : (data d).asData = some d := rfl
@[simp] theorem asData_desc (d : MsiDesc) : (desc d).asData = none := rfl
@[simp] theorem asDesc_setList (o : Obj) (l : ListHead) :
    (o.setList l).asDesc = o.asDesc.map fun d => { d with list := l } := by
  cases o <;> rfl
@[simp] theorem asData_setList (o : Obj) (l : ListHead) :
    (o.setList l).asData = o.asData.map fun d => { d with list := l } := by
  cases o <;> rfl
@[simp] theorem list_desc (d : MsiDesc) : (desc d).list = d.list := rfl
@[simp] theorem list_data (d : MsiDeviceData) : (data d).list = d.list := rfl

end Obj

/-- The live objects, and a bound on their addresses. -/
structure Heap where
  mem : Nat → Option Obj
  top : Nat
  bounded : ∀ p, top ≤ p → mem p = none

namespace Heap

/-- The heap before the first allocation. -/
def empty : Heap := ⟨fun _ => none, 0, fun _ _ => rfl⟩

theorem lt_top {h : Heap} {p : Nat} (hp : (h.mem p).isSome) : p < h.top := by
  by_contra hle
  simp [h.bounded p (Nat.le_of_not_lt hle)] at hp

/-! ## Reads -/

def link (h : Heap) (p : Nat) : Option ListHead := (h.mem p).map Obj.list

def desc (h : Heap) (p : Nat) : Option MsiDesc := (h.mem p).bind Obj.asDesc

def data (h : Heap) (p : Nat) : Option MsiDeviceData := (h.mem p).bind Obj.asData

theorem desc_eq_some {h : Heap} {p : Nat} {d : MsiDesc} :
    h.desc p = some d ↔ h.mem p = some (.desc d) := by
  unfold desc
  cases h.mem p with
  | none => simp
  | some o => cases o <;> simp [Obj.asDesc]

theorem data_eq_some {h : Heap} {p : Nat} {d : MsiDeviceData} :
    h.data p = some d ↔ h.mem p = some (.data d) := by
  unfold data
  cases h.mem p with
  | none => simp
  | some o => cases o <;> simp [Obj.asData]

theorem link_of_desc {h : Heap} {p : Nat} {d : MsiDesc} (hd : h.desc p = some d) :
    h.link p = some d.list := by
  simp [link, desc_eq_some.mp hd]

theorem link_of_data {h : Heap} {p : Nat} {d : MsiDeviceData} (hd : h.data p = some d) :
    h.link p = some d.list := by
  simp [link, data_eq_some.mp hd]

/-! ## Writes -/

/-- Overwrite `p` with `o` if `p` is live. -/
def put (h : Heap) (p : Nat) (o : Obj) : Heap :=
  if hp : (h.mem p).isSome then
    ⟨Function.update h.mem p (some o), h.top, fun q hq => by
      rw [Function.update_noteq (by rintro rfl; exact absurd (lt_top hp) (by omega))]
      exact h.bounded q hq⟩
  else h

/-- Remove `p`. -/
def drop (h : Heap) (p : Nat) : Heap :=
  ⟨Function.update h.mem p none, h.top, fun q hq => by
    by_cases hqp : q = p
    · subst hqp; simp
    · rw [Function.update_noteq hqp]; exact h.bounded q hq⟩

/-- Overwrite a live object. -/
def write (h : Heap) (p : Nat) (o : Obj) : Option Heap :=
  if (h.mem p).isSome then some (h.put p o) else none

/-- `kmalloc` placing `o` at the fresh address `p`. -/
def alloc (h : Heap) (p : Nat) (o : Obj) : Heap :=
  ⟨Function.update h.mem p (some o), max h.top (p + 1), fun q hq => by
    rw [Function.update_noteq (by omega)]
    exact h.bounded q (by omega)⟩

/-- `kfree` of a live object. -/
def free (h : Heap) (p : Nat) : Option Heap :=
  if (h.mem p).isSome then some (h.drop p) else none

def setLink (h : Heap) (p : Nat) (f : ListHead → ListHead) : Option Heap := do
  let o ← h.mem p
  h.write p (o.setList (f o.list))

def setNext (h : Heap) (p v : Nat) : Option Heap := h.setLink p fun l => { l with next := v }

def setPrev (h : Heap) (p v : Nat) : Option Heap := h.setLink p fun l => { l with prev := v }

def setDesc (h : Heap) (p : Nat) (d : MsiDesc) : Option Heap := do
  let _ ← h.desc p
  h.write p (.desc d)

def setData (h : Heap) (p : Nat) (d : MsiDeviceData) : Option Heap := do
  let _ ← h.data p
  h.write p (.data d)

/-- `p->list.next->prev = p->list.prev; p->list.prev->next = p->list.next;` -/
def unlink (h : Heap) (p : Nat) : Option Heap := do
  let l ← h.link p
  let h ← h.setPrev l.next l.prev
  let l ← h.link p
  h.setNext l.prev l.next

/-! ## The effect of a write -/

theorem put_mem {h : Heap} {p : Nat} {o : Obj} (hp : (h.mem p).isSome) :
    (h.put p o).mem = Function.update h.mem p (some o) := by
  simp [put, hp]

theorem mem_put (h : Heap) (p : Nat) (o : Obj) (q : Nat) :
    (h.put p o).mem q = if q = p ∧ (h.mem p).isSome then some o else h.mem q := by
  unfold put
  split
  · rename_i hp
    by_cases hq : q = p
    · subst hq; simp [hp]
    · simp [hq, Function.update_noteq hq]
  · rename_i hp
    simp_all

@[simp] theorem put_top (h : Heap) (p : Nat) (o : Obj) : (h.put p o).top = h.top := by
  unfold put; split <;> rfl

@[simp] theorem drop_mem (h : Heap) (p : Nat) : (h.drop p).mem = Function.update h.mem p none :=
  rfl

@[simp] theorem drop_top (h : Heap) (p : Nat) : (h.drop p).top = h.top := rfl

@[simp] theorem alloc_mem (h : Heap) (p : Nat) (o : Obj) :
    (h.alloc p o).mem = Function.update h.mem p (some o) := rfl

@[simp] theorem alloc_top (h : Heap) (p : Nat) (o : Obj) :
    (h.alloc p o).top = max h.top (p + 1) := rfl

theorem write_of_mem {h : Heap} {p : Nat} {o o' : Obj} (hp : h.mem p = some o') :
    h.write p o = some (h.put p o) := by
  simp [write, hp]

theorem free_of_mem {h : Heap} {p : Nat} {o : Obj} (hp : h.mem p = some o) :
    h.free p = some (h.drop p) := by
  simp [free, hp]

theorem setLink_of_mem {h : Heap} {p : Nat} {o : Obj} (f : ListHead → ListHead)
    (hp : h.mem p = some o) : h.setLink p f = some (h.put p (o.setList (f o.list))) := by
  simp [setLink, hp, write_of_mem hp]

theorem setDesc_of_desc {h : Heap} {p : Nat} {d₀ : MsiDesc} (d : MsiDesc)
    (hp : h.desc p = some d₀) : h.setDesc p d = some (h.put p (.desc d)) := by
  simp [setDesc, hp, write_of_mem (desc_eq_some.mp hp)]

theorem setData_of_data {h : Heap} {p : Nat} {d₀ : MsiDeviceData} (d : MsiDeviceData)
    (hp : h.data p = some d₀) : h.setData p d = some (h.put p (.data d)) := by
  simp [setData, hp, write_of_mem (data_eq_some.mp hp)]

/-- A write to the links of a live node changes that node and nothing else. -/
theorem setLink_spec {h : Heap} {p : Nat} {o : Obj} (f : ListHead → ListHead)
    (hp : h.mem p = some o) : ∃ h', h.setLink p f = some h' ∧ h'.top = h.top ∧
      h'.mem = Function.update h.mem p (some (o.setList (f o.list))) :=
  ⟨_, setLink_of_mem f hp, put_top _ _ _, put_mem (by simp [hp])⟩

theorem setData_spec {h : Heap} {p : Nat} {d₀ : MsiDeviceData} (d : MsiDeviceData)
    (hp : h.data p = some d₀) : ∃ h', h.setData p d = some h' ∧ h'.top = h.top ∧
      h'.mem = Function.update h.mem p (some (.data d)) :=
  ⟨_, setData_of_data d hp, put_top _ _ _, put_mem (by simp [data_eq_some.mp hp])⟩

theorem setDesc_spec {h : Heap} {p : Nat} {d₀ : MsiDesc} (d : MsiDesc)
    (hp : h.desc p = some d₀) : ∃ h', h.setDesc p d = some h' ∧ h'.top = h.top ∧
      h'.mem = Function.update h.mem p (some (.desc d)) :=
  ⟨_, setDesc_of_desc d hp, put_top _ _ _, put_mem (by simp [desc_eq_some.mp hp])⟩

/-- `unlink x` on a node whose neighbours `n` (next) and `p` (prev) are live and differ from
`x`: `n` gets `prev = p`, then `p` gets `next = n`. When `p = n` both writes hit one node. -/
theorem unlink_mem {h : Heap} {x n p : Nat} (hx : h.link x = some ⟨n, p⟩)
    (hn : (h.mem n).isSome) (hp : (h.mem p).isSome) (hxn : x ≠ n) :
    ∃ h', h.unlink x = some h' ∧ h'.top = h.top ∧ ∀ q, h'.mem q =
      if q = p then (h.mem q).map fun o => o.setList ⟨n, if p = n then p else o.list.prev⟩
      else if q = n then (h.mem q).map fun o => o.setList { o.list with prev := p }
      else h.mem q := by
  obtain ⟨oN, hoN⟩ := Option.isSome_iff_exists.mp hn
  -- the first write, `n->prev = p`
  set h₁ := h.put n (oN.setList { oN.list with prev := p }) with hh₁
  have hx₁ : h₁.link x = some ⟨n, p⟩ := by
    rw [link, mem_put, if_neg fun h => hxn h.1]; exact hx
  obtain ⟨oP, hoP⟩ : ∃ o, h₁.mem p = some o := Option.isSome_iff_exists.mp (by
    rw [mem_put]; split_ifs <;> simp [hp])
  refine ⟨h₁.put p (oP.setList ⟨n, oP.list.prev⟩), ?_, by simp [hh₁], fun q => ?_⟩
  · simp [unlink, hx, setPrev, setLink_of_mem _ hoN, ← hh₁, hx₁, setNext, setLink_of_mem _ hoP]
  · simp only [hh₁, mem_put] at hoP ⊢
    by_cases hq : q = p <;> by_cases hpn : p = n <;> simp_all
    subst hoP; simp

/-- `unlink x` faults when `x`'s `prev` is dead: the second write goes to it. -/
theorem unlink_of_dead_prev {h : Heap} {x n p : Nat} (hx : h.link x = some ⟨n, p⟩)
    (hxn : x ≠ n) (hp : h.mem p = none) : h.unlink x = none := by
  cases hn : h.mem n with
  | none => simp [unlink, hx, setPrev, setLink, hn]
  | some oN =>
    have hpn : p ≠ n := by rintro rfl; simp [hp] at hn
    have hx₁ : (h.put n (oN.setList { oN.list with prev := p })).link x = some ⟨n, p⟩ := by
      rw [link, mem_put, if_neg fun h => hxn h.1]; exact hx
    simp only [unlink, hx, setPrev, setLink_of_mem _ hn, Option.bind_eq_bind, Option.some_bind,
      hx₁, setNext]
    simp [setLink, mem_put, hpn, hp]

/-! ## Length of walks -/

/-- Distinct live addresses are fewer than `top`. -/
theorem length_le_top {h : Heap} {xs : List Nat} (hnd : xs.Nodup)
    (hlive : ∀ x ∈ xs, (h.mem x).isSome) : xs.length ≤ h.top := by
  rw [← List.toFinset_card_of_nodup hnd]
  calc xs.toFinset.card ≤ (Finset.range h.top).card :=
        Finset.card_le_card fun x hx => Finset.mem_range.mpr (lt_top (hlive x (by simpa using hx)))
    _ = h.top := Finset.card_range _

end Heap

end ProtoKernel.Irq
