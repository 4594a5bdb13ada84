import ProtoKernel.Irq.Msi.Concurrent

/-!
# Reservations and mappings over whole runs

The MSI core reserves hwirqs and creates mappings for its devices, and gives them back. Over
every run of the concurrent machine, whatever the interleaving, it neither leaks one nor takes
one it did not make (`Acct`): a hwirq is reserved in a domain exactly when it was reserved at
the start or a device of that domain holds it, no device holds a hwirq reserved at the start,
and a live mapping is one of the start or the mapping of a descriptor some device maps.

* `Acct.effect`: one step of a device keeps the accounting.
* `Reachable.acct`: the accounting holds in every reachable system.
* `reachable_reserved`: the reservations of every reachable system, hwirq by hwirq.
* `reachable_quiescent`: once every device is idle with an empty registry, the reservations
  are those of the start and every live mapping is one of the start.
* `reachable_irq_unique`: no virq serves two descriptors.
-/

namespace ProtoKernel.Irq

/-- The IRQ core of `S` against the IRQ core `irq` of the start, `L d` being the registry of
device `d`. -/
structure Acct (irq : IrqCore) (S : Sys) (L : Nat → List Nat × List MsiDesc) : Prop where
  reserved : ∀ e x, S.s.irq.reserved e x = true ↔ irq.reserved e x = true ∨
    ∃ d, (S.s.devs d).msiDomain = e ∧ x ∈ (S.pc d).held (S.blocks d) (L d).2
  fresh : ∀ d, ∀ x ∈ (S.pc d).held (S.blocks d) (L d).2,
    irq.reserved (S.s.devs d).msiDomain x = false
  owner : ∀ v, S.s.irq.owner v ≠ none → S.s.irq.owner v = irq.owner v ∨
    ∃ d, ∃ e ∈ (S.pc d).mapped (L d).2, e.irq = v

section Step

variable {irq : IrqCore} {S S' : Sys} {L : Nat → List Nat × List MsiDesc} {dev : Nat}
  {xs : List Nat} {ds : List MsiDesc}

/-- A hwirq free now was free at the start. -/
theorem Acct.start_free (hA : Acct irq S L) {e x : Nat} (h : S.s.irq.reserved e x = false) :
    irq.reserved e x = false :=
  Bool.eq_false_iff.mpr fun h' => Bool.false_ne_true (h ▸ (hA.reserved e x).mpr (.inl h'))

/-- One step of `dev` keeps the accounting, with the registry of `dev` replaced. -/
theorem Acct.effect (hA : Acct irq S L) (E : S.Effect S' L dev xs ds) :
    Acct irq S' (Function.update L dev (xs, ds)) where
  reserved e x := by
    constructor
    · intro h'
      cases h : S.s.irq.reserved e x
      · -- a new reservation is for a hwirq `dev` now holds
        obtain ⟨rfl, hx⟩ := E.grant e x h h'
        exact .inr ⟨dev, E.domain dev, by rwa [Function.update_same]⟩
      · rcases (hA.reserved e x).mp h with hirq | ⟨d, rfl, hx⟩
        · exact .inl hirq
        refine .inr ⟨d, E.domain d, ?_⟩
        rcases eq_or_ne d dev with rfl | hd
        · rw [Function.update_same]
          exact by_contra fun hx' => Bool.false_ne_true ((E.release x hx hx').symm.trans h')
        · rwa [E.held_of_ne hd]
    · rintro (hirq | ⟨d, rfl, hx⟩)
      · -- a reservation of the start is never dropped: no device holds it
        refine by_contra fun h' => ?_
        obtain ⟨rfl, hx⟩ := E.drop e x ((hA.reserved e x).mpr (.inl hirq)) (by simpa using h')
        simp [hA.fresh dev x hx] at hirq
      · exact E.inv.reserved d x hx
  fresh d x hx := by
    rw [E.domain]
    rcases eq_or_ne d dev with rfl | hd
    · rw [Function.update_same] at hx
      exact (E.gain x hx).elim (hA.fresh d x) hA.start_free
    · exact hA.fresh d x (by rwa [E.held_of_ne hd] at hx)
  owner v hv := by
    by_cases hc : S'.s.irq.owner v = S.s.irq.owner v
    · rcases hA.owner v (hc ▸ hv) with h | ⟨d, e, he, rfl⟩
      · exact .inl (hc.trans h)
      refine .inr ⟨d, e, ?_, rfl⟩
      rcases eq_or_ne d dev with rfl | hd
      · rw [Function.update_same]
        exact by_contra fun he' => hv (E.unmap e he he')
      · rwa [E.mapped_of_ne hd]
    · rcases E.owner v hc with h | ⟨e, he, rfl⟩
      · exact absurd h hv
      · exact .inr ⟨dev, e, by rwa [Function.update_same], rfl⟩

end Step

section Runs

variable {heap : Heap} {domain : Nat → Nat} {irq : IrqCore} {S : Sys}

/-- At the start no device holds a hwirq or maps a descriptor. -/
theorem Acct.start (heap : Heap) (domain : Nat → Nat) (irq : IrqCore) :
    Acct irq (Sys.start heap domain irq) fun _ => ([], []) :=
  ⟨fun _ _ => by simp [Sys.start, Pc.held], fun _ _ hx => by simp [Sys.start, Pc.held] at hx,
    fun _ _ => .inl rfl⟩

/-- In every reachable system the accounting holds, for the registries of the invariant. -/
theorem Reachable.acct (hr : Reachable (Sys.start heap domain irq) S) :
    (∀ d, (S.s.devs d).msiDomain = domain d) ∧ ∃ L, Inv S L ∧ Acct irq S L := by
  induction hr with
  | start => exact ⟨fun _ => rfl, _, Inv.start heap domain irq, Acct.start heap domain irq⟩
  | step _ ha hs ih =>
    obtain ⟨hdom, L, hI, hA⟩ := ih
    obtain ⟨xs, ds, E⟩ := hI.stepEffect ha hs
    exact ⟨fun d => (E.domain d).trans (hdom d), _, E.inv, hA.effect E⟩

/-- A device with no registry, or with one whose `num_vectors` is `0`, has no descriptor. -/
theorem Inv.descs_eq_nil {L : Nat → List Nat × List MsiDesc} (hI : Inv S L) {d : Nat}
    (h : (S.s.devs d).msiData = 0 ∨
      ∃ md, S.s.heap.data (S.s.devs d).msiData = some md ∧ md.numVectors = 0) :
    (L d).2 = [] := by
  have hi := hI.dev d
  have hxs : (L d).1 = [] := by
    rcases h with h | ⟨md, hmd, h0⟩
    · exact (hi.unset h).1
    · by_cases h0' : (S.s.devs d).msiData = 0
      · exact (hi.unset h0').1
      obtain ⟨md', hmd', hlen⟩ := (hi.registry h0').count
      rw [hmd, Option.some.injEq] at hmd'
      exact List.length_eq_zero.mp (hlen ▸ hmd' ▸ h0)
  have := hi.view
  rw [hxs, Heap.view_nil] at this
  exact List.map_eq_nil_iff.mp this.symm

/-- Once every device is idle and has no descriptor (no registry, or `num_vectors` `0`), in
any system reachable by any interleaving of the calls within the contracts, the reservations
are exactly those of the start and every live mapping is one of the start: nothing the MSI
core reserved or mapped is left behind. -/
theorem reachable_quiescent (hr : Reachable (Sys.start heap domain irq) S)
    (hidle : ∀ d, S.pc d = .idle)
    (hempty : ∀ d, (S.s.devs d).msiData = 0 ∨
      ∃ md, S.s.heap.data (S.s.devs d).msiData = some md ∧ md.numVectors = 0) :
    S.s.irq.reserved = irq.reserved ∧ ∀ v, S.s.irq.owner v = none ∨ S.s.irq.owner v = irq.owner v := by
  obtain ⟨-, L, hI, hA⟩ := hr.acct
  have hnil : ∀ d, (L d).2 = [] := fun d => hI.descs_eq_nil (hempty d)
  refine ⟨funext fun e => funext fun x => ?_, fun v => ?_⟩
  · have := hA.reserved e x
    simp only [hidle, hnil, Pc.held, List.map_nil, List.not_mem_nil, and_false, exists_false,
      or_false] at this
    exact Bool.eq_iff_iff.mpr this
  · by_cases hv : S.s.irq.owner v = none
    · exact .inl hv
    · refine .inr ((hA.owner v hv).resolve_right ?_)
      simp [hnil, hidle, Pc.mapped]

/-- Both devices have allocated and freed their vectors: the reservations are those of the
start, where only hwirq `9` is reserved, and the only mapping is virq `3` of the start. -/
theorem twoDeviceFreed_quiescent :
    twoDeviceFreed.s.irq.reserved = twoDeviceStart.s.irq.reserved ∧
      ∀ v, twoDeviceFreed.s.irq.owner v = none ∨
        twoDeviceFreed.s.irq.owner v = twoDeviceStart.s.irq.owner v :=
  reachable_quiescent twoDeviceFreed_reachable
    (fun d => by
      by_cases h : d = 1 ∨ d = 2
      · rcases h with rfl | rfl <;> rfl
      · exact (twoDeviceFreed_other (not_or.mp h).1 (not_or.mp h).2).2)
    fun d => by
      by_cases h : d = 1 ∨ d = 2
      · rcases h with rfl | rfl <;> exact .inr ⟨_, rfl, rfl⟩
      · exact .inl (by rw [(twoDeviceFreed_other (not_or.mp h).1 (not_or.mp h).2).1]; rfl)

/-- In every system reachable by any interleaving of the calls within the contracts, no virq
serves two descriptors: two descriptors that devices map with one virq are one descriptor of
one device. -/
theorem reachable_irq_unique (hr : Reachable (Sys.start heap domain irq) S) :
    ∃ L, Inv S L ∧ ∀ d d', ∀ e ∈ (S.pc d).mapped (L d).2, ∀ e' ∈ (S.pc d').mapped (L d').2,
      e.irq = e'.irq → d = d' ∧ e = e' := by
  obtain ⟨-, L, hI⟩ := hr.inv
  refine ⟨L, hI, fun d d' e he e' he' h => ?_⟩
  have hm := ((hI.dev d).mapped e he).2
  rw [h, ((hI.dev d').mapped e' he').2] at hm
  obtain ⟨hD, hx⟩ := Prod.mk.inj (Option.some.inj hm)
  obtain rfl : d = d' := by_contra fun hne =>
    hI.disjoint d d' hne hD.symm e.hwirq (hI.held_of_mapped he) (hx ▸ hI.held_of_mapped he')
  exact ⟨rfl, List.inj_on_of_nodup_map ((hI.dev d).stage.sublist_held.nodup (hI.nodup d))
    ((Pc.mapped_sublist _ _).subset he) ((Pc.mapped_sublist _ _).subset he') hx.symm⟩

/-- Three descriptors of two devices mapped by the virqs `5`, `6` and `7`. -/
theorem twoDeviceAlloc_irq_unique :
    ∃ L, Inv twoDeviceAlloc L ∧ ∀ d d', ∀ e ∈ (twoDeviceAlloc.pc d).mapped (L d).2,
      ∀ e' ∈ (twoDeviceAlloc.pc d').mapped (L d').2, e.irq = e'.irq → d = d' ∧ e = e' :=
  reachable_irq_unique twoDeviceAlloc_reachable

end Runs

end ProtoKernel.Irq
