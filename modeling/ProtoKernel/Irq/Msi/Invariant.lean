import ProtoKernel.Irq.Msi.Machine
import ProtoKernel.Irq.Msi.Free

/-!
# The invariant of the concurrent MSI core

`Inv S L` is what holds between any two steps of the machine, with `L d` the nodes and the
descriptors of the registry of device `d`. Per device (`DevInv`): the registry is well formed
with `num_vectors` its length, its descriptors hold mapped virqs, and `Pc.Stage` says how the
call in progress has changed it so far. Between devices: the hwirqs a device holds
(`Pc.held`) are distinct, reserved in its domain, and apart from those of every other device
of that domain, and no two registries share a node.

* `DevInv.frame`: a device keeps its invariant when its nodes and its virqs are untouched.
* `Inv.irq_ne_of_owner`: a virq mapped to a hwirq that `dev` holds is no other device's.
* `Inv.update`: what a step of `dev` must show of itself for the invariant to survive it.
-/

namespace ProtoKernel.Irq

/-- The hwirqs of the blocks `(base, n)`, in order. -/
def blockHwirqs (bs : List (Nat × Nat)) : List Nat := bs.flatMap fun b => List.range' b.1 b.2

@[simp] theorem blockHwirqs_nil : blockHwirqs [] = [] := rfl

theorem blockHwirqs_append (bs bs' : List (Nat × Nat)) :
    blockHwirqs (bs ++ bs') = blockHwirqs bs ++ blockHwirqs bs' :=
  List.flatMap_append _ _ _

/-- Every descriptor of `ds` holds a virq that maps its hwirq in `domain`. -/
def Mapped (owner : Nat → Option (Nat × Nat)) (domain : Nat) (ds : List MsiDesc) : Prop :=
  ∀ e ∈ ds, e.irq ≠ 0 ∧ owner e.irq = some (domain, e.hwirq)

namespace Pc

/-- The descriptors whose mapping is live: all of them, but for the one whose mapping
`msi_free_vectors` has just disposed of. -/
def mapped : Pc → List MsiDesc → List MsiDesc
  | freeRelease .., ds => ds.tail
  | _, ds => ds

/-- The hwirqs a device holds in its domain: those of its descriptors `ds`, and during an
allocation the whole range in place of the part populated so far. -/
def held : Pc → List (Nat × Nat) → List MsiDesc → List Nat
  | populate c _, bs, _ => blockHwirqs bs ++ List.range' c.base c.nvec
  | rollback c _, bs, _ => blockHwirqs bs ++ List.range' c.base c.nvec
  | _, _, ds => ds.map (·.hwirq)

/-- Where the call stands on the registry `xs` with descriptors `ds` of a device `dv` with
history `bs`. Idle, the registry holds the blocks of `bs`; an allocation has appended the first
`i` hwirqs of its range; `msi_free_vectors` stands on the first node. -/
def Stage (dv : Device) (bs : List (Nat × Nat)) (xs : List Nat) (ds : List MsiDesc) : Pc → Prop
  | idle => ds.map (·.hwirq) = blockHwirqs bs
  | populate c i => c.msiData = dv.msiData ∧ c.domain = dv.msiDomain ∧ (∃ k, c.nvec = 2 ^ k) ∧
      c.base + c.nvec ≤ 2 ^ 32 ∧ i < c.nvec ∧
      ds.map (·.hwirq) = blockHwirqs bs ++ List.range' c.base i
  | rollback c i => c.msiData = dv.msiData ∧ c.domain = dv.msiDomain ∧
      c.base + c.nvec ≤ 2 ^ 32 ∧ i ≤ c.nvec ∧
      ds.map (·.hwirq) = blockHwirqs bs ++ List.range' c.base i
  | freeWalk c desc => c.msiData = dv.msiData ∧ c.domain = dv.msiDomain ∧
      desc = xs.headD dv.msiData
  | freeRelease c desc next => c.msiData = dv.msiData ∧ c.domain = dv.msiDomain ∧
      ∃ rest, xs = desc :: rest ∧ next = rest.headD dv.msiData

/-- At most how many more steps the call can take, on the registry `xs`: the population loop
then the cleanup loop, or two steps per node left to free, and one to see the sentinel. -/
def rank : Pc → List Nat → Nat
  | idle, _ => 0
  | populate c i, _ => 2 * c.nvec - i + 1
  | rollback _ i, _ => i + 1
  | freeWalk .., xs => 2 * xs.length + 1
  | freeRelease .., xs => 2 * xs.length

theorem mapped_sublist (pc : Pc) (ds : List MsiDesc) : (pc.mapped ds).Sublist ds := by
  cases pc <;> simp only [mapped, List.Sublist.refl, List.tail_sublist]

theorem Stage.sublist_held {pc : Pc} {dv : Device} {bs : List (Nat × Nat)} {xs : List Nat}
    {ds : List MsiDesc} (hs : pc.Stage dv bs xs ds) : (ds.map (·.hwirq)).Sublist (pc.held bs ds) := by
  cases pc with
  | populate c i =>
    obtain ⟨m, hm⟩ : ∃ m, c.nvec = m + i := ⟨c.nvec - i, by have := hs.2.2.2.2.1; omega⟩
    rw [hs.2.2.2.2.2, held, hm, ← List.range'_append_1]
    exact (List.sublist_append_left _ _).append_left _
  | rollback c i =>
    obtain ⟨m, hm⟩ : ∃ m, c.nvec = m + i := ⟨c.nvec - i, by have := hs.2.2.2.1; omega⟩
    rw [hs.2.2.2.2, held, hm, ← List.range'_append_1]
    exact (List.sublist_append_left _ _).append_left _
  | _ => exact List.Sublist.refl _

end Pc

/-- The invariant of one device `dv` at `pc` with history `bs`, whose registry lists the nodes
`xs` with the descriptors `ds`. -/
structure DevInv (h : Heap) (owner : Nat → Option (Nat × Nat)) (dv : Device) (pc : Pc)
    (bs : List (Nat × Nat)) (xs : List Nat) (ds : List MsiDesc) : Prop where
  registry : dv.msiData ≠ 0 → Registry h dv.msiData xs
  unset : dv.msiData = 0 → xs = [] ∧ pc = .idle ∧ bs = []
  view : h.view xs = ds.map some
  pow : ∀ b ∈ bs, ∃ k, b.2 = 2 ^ k
  mapped : Mapped owner dv.msiDomain (pc.mapped ds)
  stage : pc.Stage dv bs xs ds

/-- The invariant of the system, `L d` being the nodes and descriptors of the registry of
device `d`. -/
structure Inv (S : Sys) (L : Nat → List Nat × List MsiDesc) : Prop where
  dev : ∀ d, DevInv S.s.heap S.s.irq.owner (S.s.devs d) (S.pc d) (S.blocks d) (L d).1 (L d).2
  nodup : ∀ d, ((S.pc d).held (S.blocks d) (L d).2).Nodup
  reserved : ∀ d, ∀ x ∈ (S.pc d).held (S.blocks d) (L d).2,
    S.s.irq.reserved (S.s.devs d).msiDomain x = true
  disjoint : ∀ d d', d ≠ d' → (S.s.devs d).msiDomain = (S.s.devs d').msiDomain →
    ∀ x ∈ (S.pc d).held (S.blocks d) (L d).2, x ∉ (S.pc d').held (S.blocks d') (L d').2
  separate : ∀ d d', d ≠ d' → (S.s.devs d).msiData ≠ 0 → (S.s.devs d').msiData ≠ 0 →
    ∀ q ∈ (S.s.devs d).msiData :: (L d).1, q ∉ (S.s.devs d').msiData :: (L d').1

section Frame

variable {h h' : Heap} {owner owner' : Nat → Option (Nat × Nat)} {dv : Device} {pc : Pc}
  {bs : List (Nat × Nat)} {xs : List Nat} {ds : List MsiDesc}

/-- A device keeps its invariant over a step that leaves its nodes and its live virqs alone. -/
theorem DevInv.frame (hi : DevInv h owner dv pc bs xs ds)
    (hm : dv.msiData ≠ 0 → ∀ q ∈ dv.msiData :: xs, h'.mem q = h.mem q)
    (ho : ∀ e ∈ pc.mapped ds, owner' e.irq = owner e.irq) : DevInv h' owner' dv pc bs xs ds := by
  have hview : h'.view xs = h.view xs := by
    by_cases hr : dv.msiData = 0
    · rw [(hi.unset hr).1]
      rfl
    · exact Heap.view_congr fun x hx => by
        simp [Heap.desc, hm hr x (List.mem_cons_of_mem _ hx)]
  exact ⟨fun hr => (hi.registry hr).frame (hm hr), hi.unset, hview.trans hi.view, hi.pow,
    fun e he => (ho e he).symm ▸ hi.mapped e he, hi.stage⟩

end Frame

section Update

variable {S S' : Sys} {L : Nat → List Nat × List MsiDesc}

/-- The invariant reads of the IRQ core only its reservations and its mappings. -/
theorem Inv.congr (hI : Inv S L) (hh : S'.s.heap = S.s.heap) (hd : S'.s.devs = S.s.devs)
    (hp : S'.pc = S.pc) (hb : S'.blocks = S.blocks) (ho : S'.s.irq.owner = S.s.irq.owner)
    (hr : S'.s.irq.reserved = S.s.irq.reserved) : Inv S' L := by
  obtain ⟨⟨h, devs, irq⟩, pc, bs⟩ := S
  obtain ⟨⟨h', devs', irq'⟩, pc', bs'⟩ := S'
  simp only at hh hd hp hb ho hr
  subst hh hd hp hb
  exact ⟨ho ▸ hI.dev, hI.nodup, hr ▸ hI.reserved, hI.disjoint, hI.separate⟩

theorem Inv.held_of_mapped (hI : Inv S L) {d : Nat} {e : MsiDesc}
    (he : e ∈ (S.pc d).mapped (L d).2) : e.hwirq ∈ (S.pc d).held (S.blocks d) (L d).2 :=
  ((hI.dev d).stage.sublist_held.subset (List.mem_map_of_mem _ ((Pc.mapped_sublist _ _).subset he)))

/-- A virq that maps a hwirq `x` held by `dev` is the virq of no descriptor of another
device. -/
theorem Inv.irq_ne_of_owner (hI : Inv S L) {dev v x : Nat}
    (hv : S.s.irq.owner v = some ((S.s.devs dev).msiDomain, x))
    (hx : x ∈ (S.pc dev).held (S.blocks dev) (L dev).2) :
    ∀ d, d ≠ dev → ∀ e ∈ (S.pc d).mapped (L d).2, e.irq ≠ v := by
  rintro d hd e he rfl
  have hm := ((hI.dev d).mapped e he).2
  rw [hv, Option.some.injEq, Prod.mk.injEq] at hm
  obtain ⟨hdom, rfl⟩ := hm
  exact hI.disjoint d dev hd hdom.symm e.hwirq (hI.held_of_mapped he) hx

/-- A step of `dev` keeps the invariant when it changes no other device's fields, writes only
`dev`'s registry and dead cells, moves only mappings no other device has, drops only
reservations `dev` held, and leaves `dev` with its invariant, holding only hwirqs it held or
that were free. -/
theorem Inv.update {dev : Nat} {xs : List Nat} {ds : List MsiDesc} (hI : Inv S L)
    (hdevs : ∀ d, d ≠ dev → S'.s.devs d = S.s.devs d)
    (hdom : (S'.s.devs dev).msiDomain = (S.s.devs dev).msiDomain)
    (hpc : ∀ d, d ≠ dev → S'.pc d = S.pc d) (hbs : ∀ d, d ≠ dev → S'.blocks d = S.blocks d)
    (hmem : ∀ q, S'.s.heap.mem q ≠ S.s.heap.mem q → S.s.heap.mem q = none ∨
      ((S.s.devs dev).msiData ≠ 0 ∧ q ∈ (S.s.devs dev).msiData :: (L dev).1))
    (howner : ∀ v, S'.s.irq.owner v ≠ S.s.irq.owner v →
      ∀ d, d ≠ dev → ∀ e ∈ (S.pc d).mapped (L d).2, e.irq ≠ v)
    (hres : ∀ e x, S.s.irq.reserved e x = true → S'.s.irq.reserved e x = false →
      e = (S.s.devs dev).msiDomain ∧ x ∈ (S.pc dev).held (S.blocks dev) (L dev).2)
    (hinv : DevInv S'.s.heap S'.s.irq.owner (S'.s.devs dev) (S'.pc dev) (S'.blocks dev) xs ds)
    (hnodup : ((S'.pc dev).held (S'.blocks dev) ds).Nodup)
    (hheld : ∀ x ∈ (S'.pc dev).held (S'.blocks dev) ds,
      S'.s.irq.reserved (S.s.devs dev).msiDomain x = true ∧
      (x ∈ (S.pc dev).held (S.blocks dev) (L dev).2 ∨
        S.s.irq.reserved (S.s.devs dev).msiDomain x = false))
    (hnodes : (S'.s.devs dev).msiData ≠ 0 → ∀ q ∈ (S'.s.devs dev).msiData :: xs,
      ((S.s.devs dev).msiData ≠ 0 ∧ q ∈ (S.s.devs dev).msiData :: (L dev).1) ∨
        S.s.heap.mem q = none) :
    Inv S' (Function.update L dev (xs, ds)) := by
  -- a reservation of another device is never dropped
  have hkeep : ∀ d, d ≠ dev → ∀ x ∈ (S.pc d).held (S.blocks d) (L d).2,
      S'.s.irq.reserved (S.s.devs d).msiDomain x = true := by
    intro d hd x hx
    by_contra hne
    obtain ⟨hdom', hx'⟩ := hres _ x (hI.reserved d x hx) (by simpa using hne)
    exact hI.disjoint d dev hd hdom' x hx hx'
  -- a node of another registry is never written
  have hlive : ∀ d, d ≠ dev → (S.s.devs d).msiData ≠ 0 →
      ∀ q ∈ (S.s.devs d).msiData :: (L d).1, S'.s.heap.mem q = S.s.heap.mem q := by
    intro d hd hr q hq
    by_contra hne
    rcases hmem q hne with hdead | ⟨hr', hq'⟩
    · simpa [hdead] using ((hI.dev d).registry hr).mem_live q hq
    · exact hI.separate d dev hd hr hr' q hq hq'
  -- `dev` now holds no hwirq of another device of its domain
  have hapart : ∀ d, d ≠ dev → (S.s.devs d).msiDomain = (S.s.devs dev).msiDomain →
      ∀ x ∈ (S'.pc dev).held (S'.blocks dev) ds, x ∉ (S.pc d).held (S.blocks d) (L d).2 := by
    intro d hd hdom' x hx hxd
    rcases (hheld x hx).2 with hold | hfree
    · exact hI.disjoint d dev hd hdom' x hxd hold
    · exact absurd (hdom' ▸ hI.reserved d x hxd) (by simp [hfree])
  refine ⟨fun d => ?_, fun d => ?_, fun d => ?_, fun d d' hdd' hdom' => ?_, fun d d' hdd' => ?_⟩
  · rcases eq_or_ne d dev with rfl | hd
    · simpa using hinv
    · rw [Function.update_noteq hd, hdevs d hd, hpc d hd, hbs d hd]
      exact (hI.dev d).frame (hlive d hd) fun e he => by_contra fun hne =>
        howner _ hne d hd e he rfl
  · rcases eq_or_ne d dev with rfl | hd
    · simpa using hnodup
    · simpa [Function.update_noteq hd, hpc d hd, hbs d hd] using hI.nodup d
  · rcases eq_or_ne d dev with rfl | hd
    · simpa [hdom] using fun x hx => (hheld x hx).1
    · simpa [Function.update_noteq hd, hpc d hd, hbs d hd, hdevs d hd] using hkeep d hd
  · rcases eq_or_ne d dev with rfl | hd
    · have h₂ : (S.s.devs d').msiDomain = (S.s.devs d).msiDomain := by
        rw [← hdevs d' (Ne.symm hdd'), ← hdom, hdom']
      simpa [Function.update_noteq (Ne.symm hdd'), hpc d' (Ne.symm hdd'), hbs d' (Ne.symm hdd')]
        using fun x hx => hapart d' (Ne.symm hdd') h₂ x hx
    rcases eq_or_ne d' dev with rfl | hd'
    · rw [hdevs d hd, hdom] at hdom'
      simpa [Function.update_noteq hd, hpc d hd, hbs d hd] using
        fun x hx hx' => hapart d hd hdom' x hx' hx
    · rw [hdevs d hd, hdevs d' hd'] at hdom'
      simpa [Function.update_noteq hd, Function.update_noteq hd', hpc d hd, hbs d hd, hpc d' hd',
        hbs d' hd'] using hI.disjoint d d' hdd' hdom'
  · intro hr hr' q hq hq'
    rcases eq_or_ne d dev with rfl | hd
    · simp only [Function.update_same] at hq
      rw [hdevs d' (Ne.symm hdd')] at hr' hq'
      simp only [Function.update_noteq (Ne.symm hdd')] at hq'
      rcases hnodes hr q hq with ⟨hr₀, hq₀⟩ | hdead
      · exact hI.separate d d' hdd' hr₀ hr' q hq₀ hq'
      · simpa [hdead] using ((hI.dev d').registry hr').mem_live q hq'
    rcases eq_or_ne d' dev with rfl | hd'
    · simp only [Function.update_same] at hq'
      rw [hdevs d hd] at hr hq
      simp only [Function.update_noteq hd] at hq
      rcases hnodes hr' q hq' with ⟨hr₀, hq₀⟩ | hdead
      · exact hI.separate d d' hdd' hr hr₀ q hq hq₀
      · simpa [hdead] using ((hI.dev d).registry hr).mem_live q hq
    · rw [hdevs d hd] at hr hq
      rw [hdevs d' hd'] at hr' hq'
      simp only [Function.update_noteq hd, Function.update_noteq hd'] at hq hq'
      exact hI.separate d d' hdd' hr hr' q hq hq'

end Update

section Effect

variable {S S' : Sys} {L : Nat → List Nat × List MsiDesc} {dev : Nat} {xs : List Nat}
  {ds : List MsiDesc}

/-- What one step of `dev` from `S` to `S'` does, for the properties of whole runs: `dev` ends
with the nodes `xs` and the descriptors `ds` and the invariant holds; no other device moves;
a reservation is made only for a hwirq `dev` now holds and dropped only for one it held, a
hwirq `dev` starts holding was free, and every hwirq it stops holding is given back; a mapping
changes only to vanish or to go to a descriptor `dev` now maps, and the mapping of a
descriptor `dev` stops mapping vanishes; a step inside a call lowers the call's rank. -/
structure Sys.Effect (S S' : Sys) (L : Nat → List Nat × List MsiDesc) (dev : Nat) (xs : List Nat)
    (ds : List MsiDesc) : Prop where
  inv : Inv S' (Function.update L dev (xs, ds))
  domain : ∀ d, (S'.s.devs d).msiDomain = (S.s.devs d).msiDomain
  devs : ∀ d, d ≠ dev → S'.s.devs d = S.s.devs d
  pc : ∀ d, d ≠ dev → S'.pc d = S.pc d
  blocks : ∀ d, d ≠ dev → S'.blocks d = S.blocks d
  grant : ∀ e x, S.s.irq.reserved e x = false → S'.s.irq.reserved e x = true →
    e = (S.s.devs dev).msiDomain ∧ x ∈ (S'.pc dev).held (S'.blocks dev) ds
  drop : ∀ e x, S.s.irq.reserved e x = true → S'.s.irq.reserved e x = false →
    e = (S.s.devs dev).msiDomain ∧ x ∈ (S.pc dev).held (S.blocks dev) (L dev).2
  gain : ∀ x ∈ (S'.pc dev).held (S'.blocks dev) ds,
    x ∈ (S.pc dev).held (S.blocks dev) (L dev).2 ∨ S.s.irq.reserved (S.s.devs dev).msiDomain x = false
  release : ∀ x ∈ (S.pc dev).held (S.blocks dev) (L dev).2,
    x ∉ (S'.pc dev).held (S'.blocks dev) ds → S'.s.irq.reserved (S.s.devs dev).msiDomain x = false
  owner : ∀ v, S'.s.irq.owner v ≠ S.s.irq.owner v →
    S'.s.irq.owner v = none ∨ ∃ e ∈ (S'.pc dev).mapped ds, e.irq = v
  unmap : ∀ e ∈ (S.pc dev).mapped (L dev).2, e ∉ (S'.pc dev).mapped ds →
    S'.s.irq.owner e.irq = none
  rank : S.pc dev ≠ .idle → (S'.pc dev).rank xs < (S.pc dev).rank (L dev).1

/-- The effect of a step from what `Inv.update` asks of it and what the step does to the
reservations and mappings of `dev`. -/
theorem Sys.Effect.of_update (hI : Inv S L)
    (hdevs : ∀ d, d ≠ dev → S'.s.devs d = S.s.devs d)
    (hdom : ∀ d, (S'.s.devs d).msiDomain = (S.s.devs d).msiDomain)
    (hpc : ∀ d, d ≠ dev → S'.pc d = S.pc d) (hbs : ∀ d, d ≠ dev → S'.blocks d = S.blocks d)
    (hmem : ∀ q, S'.s.heap.mem q ≠ S.s.heap.mem q → S.s.heap.mem q = none ∨
      ((S.s.devs dev).msiData ≠ 0 ∧ q ∈ (S.s.devs dev).msiData :: (L dev).1))
    (howner : ∀ v, S'.s.irq.owner v ≠ S.s.irq.owner v →
      ∀ d, d ≠ dev → ∀ e ∈ (S.pc d).mapped (L d).2, e.irq ≠ v)
    (hres : ∀ e x, S.s.irq.reserved e x = true → S'.s.irq.reserved e x = false →
      e = (S.s.devs dev).msiDomain ∧ x ∈ (S.pc dev).held (S.blocks dev) (L dev).2)
    (hinv : DevInv S'.s.heap S'.s.irq.owner (S'.s.devs dev) (S'.pc dev) (S'.blocks dev) xs ds)
    (hnodup : ((S'.pc dev).held (S'.blocks dev) ds).Nodup)
    (hheld : ∀ x ∈ (S'.pc dev).held (S'.blocks dev) ds,
      S'.s.irq.reserved (S.s.devs dev).msiDomain x = true ∧
      (x ∈ (S.pc dev).held (S.blocks dev) (L dev).2 ∨
        S.s.irq.reserved (S.s.devs dev).msiDomain x = false))
    (hnodes : (S'.s.devs dev).msiData ≠ 0 → ∀ q ∈ (S'.s.devs dev).msiData :: xs,
      ((S.s.devs dev).msiData ≠ 0 ∧ q ∈ (S.s.devs dev).msiData :: (L dev).1) ∨
        S.s.heap.mem q = none)
    (hgrant : ∀ e x, S.s.irq.reserved e x = false → S'.s.irq.reserved e x = true →
      e = (S.s.devs dev).msiDomain ∧ x ∈ (S'.pc dev).held (S'.blocks dev) ds)
    (hrelease : ∀ x ∈ (S.pc dev).held (S.blocks dev) (L dev).2,
      x ∉ (S'.pc dev).held (S'.blocks dev) ds → S'.s.irq.reserved (S.s.devs dev).msiDomain x = false)
    (hown : ∀ v, S'.s.irq.owner v ≠ S.s.irq.owner v →
      S'.s.irq.owner v = none ∨ ∃ e ∈ (S'.pc dev).mapped ds, e.irq = v)
    (hunmap : ∀ e ∈ (S.pc dev).mapped (L dev).2, e ∉ (S'.pc dev).mapped ds →
      S'.s.irq.owner e.irq = none)
    (hrank : S.pc dev ≠ .idle → (S'.pc dev).rank xs < (S.pc dev).rank (L dev).1) :
    S.Effect S' L dev xs ds :=
  ⟨hI.update hdevs (hdom dev) hpc hbs hmem howner hres hinv hnodup hheld hnodes, hdom, hdevs,
    hpc, hbs, hgrant, hres, fun x hx => (hheld x hx).2, hrelease, hown, hunmap, hrank⟩

/-- A step that changes neither the reservations nor the mappings, nor which hwirqs `dev`
holds and which descriptors it maps. -/
theorem Sys.Effect.quiet (hinv : Inv S' (Function.update L dev (xs, ds)))
    (hdom : ∀ d, (S'.s.devs d).msiDomain = (S.s.devs d).msiDomain)
    (hdevs : ∀ d, d ≠ dev → S'.s.devs d = S.s.devs d) (hpc : ∀ d, d ≠ dev → S'.pc d = S.pc d)
    (hbs : ∀ d, d ≠ dev → S'.blocks d = S.blocks d)
    (hres : S'.s.irq.reserved = S.s.irq.reserved) (hown : S'.s.irq.owner = S.s.irq.owner)
    (hheld : (S'.pc dev).held (S'.blocks dev) ds = (S.pc dev).held (S.blocks dev) (L dev).2)
    (hmapped : (S'.pc dev).mapped ds = (S.pc dev).mapped (L dev).2)
    (hrank : S.pc dev ≠ .idle → (S'.pc dev).rank xs < (S.pc dev).rank (L dev).1) :
    S.Effect S' L dev xs ds :=
  ⟨hinv, hdom, hdevs, hpc, hbs, fun _ _ h h' => absurd (h.symm.trans (hres ▸ h')) (by decide),
    fun _ _ h h' => absurd (h.symm.trans (hres ▸ h')) (by decide), fun _ hx => .inl (hheld ▸ hx),
    fun _ hx hx' => absurd (hheld ▸ hx) hx', fun _ h => absurd (by rw [hown]) h,
    fun _ he he' => absurd (hmapped ▸ he) he', hrank⟩

theorem Sys.Effect.held_of_ne (E : S.Effect S' L dev xs ds) {d : Nat} (hd : d ≠ dev) :
    (S'.pc d).held (S'.blocks d) (Function.update L dev (xs, ds) d).2 =
      (S.pc d).held (S.blocks d) (L d).2 := by
  rw [E.pc d hd, E.blocks d hd, Function.update_noteq hd]

theorem Sys.Effect.mapped_of_ne (E : S.Effect S' L dev xs ds) {d : Nat} (hd : d ≠ dev) :
    (S'.pc d).mapped (Function.update L dev (xs, ds) d).2 = (S.pc d).mapped (L d).2 := by
  rw [E.pc d hd, Function.update_noteq hd]

/-- A step from an idle device that changes nothing. -/
theorem Sys.Effect.refl (hI : Inv S L) (hpc : S.pc dev = .idle) :
    S.Effect S L dev (L dev).1 (L dev).2 :=
  .quiet (by rwa [Prod.mk.eta, Function.update_eq_self]) (fun _ => rfl) (fun _ _ => rfl)
    (fun _ _ => rfl) (fun _ _ => rfl) rfl rfl rfl rfl (fun h => absurd hpc h)

end Effect

end ProtoKernel.Irq
