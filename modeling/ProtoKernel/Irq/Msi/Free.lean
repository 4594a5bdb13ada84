import ProtoKernel.Irq.Msi.Alloc

/-!
# `msi_free_vectors`

The walk of `msi_free_vectors` always stands on the first descriptor of what is left of the
registry: it saves `next`, releases the descriptor and moves on, so the registry shrinks from
the front until only the sentinel is left.

* `releaseIrq`: what one iteration does to the IRQ core; `foldl_releaseIrq_calls`,
  `foldl_releaseIrq_reserved`, `foldl_releaseIrq_owner` give the effect of a whole walk.
* `freeVectorsLoop_spec`: the walk over a registry never faults and empties it.
* `msiFreeVectors_spec`: `msi_free_vectors` on a registry.
* `AllocRun.spec`, `msiFreeVectors_after_allocs`: after successive successful allocations on an
  empty registry, `msi_free_vectors` gives back every reservation they made, and unmaps every
  virq they stored, also one whose mapping `irq_create_mapping` had returned from before.
-/

namespace ProtoKernel.Irq

/-- The calls one iteration of `msi_free_vectors` makes for the descriptor `d`:
`irq_dispose_mapping` when `d->irq` is set, then `irq_domain_free_hwirq_range` of its hwirq. -/
def releaseIrq (domain : Nat) (irq : IrqCore) (d : MsiDesc) : IrqCore :=
  irqDomainFreeHwirqRange (if d.irq ≠ 0 then irqDisposeMapping irq d.irq else irq) domain d.hwirq 1

/-- The calls of one iteration, as they appear in the log. -/
def releaseCalls (domain : Nat) (d : MsiDesc) : List IrqCall :=
  (if d.irq ≠ 0 then [.disposeMapping d.irq] else []) ++ [.freeHwirqRange domain d.hwirq 1]

section Release

variable (domain : Nat)

theorem foldl_releaseIrq_calls : ∀ (ds : List MsiDesc) (irq : IrqCore),
    (ds.foldl (releaseIrq domain) irq).calls = irq.calls ++ ds.flatMap (releaseCalls domain)
  | [], _ => by simp
  | d :: ds, irq => by
    rw [List.foldl_cons, foldl_releaseIrq_calls ds, List.flatMap_cons, ← List.append_assoc]
    congr 1
    unfold releaseIrq releaseCalls
    split <;> simp

theorem releaseIrq_reserved (irq : IrqCore) (e : MsiDesc) (d h : Nat) :
    (releaseIrq domain irq e).reserved d h =
      (irq.reserved d h && !(d == domain && e.hwirq == h)) := by
  unfold releaseIrq
  by_cases hh : e.hwirq = h
  · subst hh; split <;> simp [irqDomainFreeHwirqRange]
  · have hout : (!decide (e.hwirq ≤ h) || !decide (h < e.hwirq + 1)) = true := by
      simp only [Bool.or_eq_true, Bool.not_eq_true', decide_eq_false_iff_not]
      omega
    have hne : (e.hwirq == h) = false := by simpa using hh
    split <;> simp [irqDomainFreeHwirqRange, hout, hne]

theorem foldl_releaseIrq_reserved : ∀ (ds : List MsiDesc) (irq : IrqCore) (d : Nat) (h : Nat),
    (ds.foldl (releaseIrq domain) irq).reserved d h =
      (irq.reserved d h && !(d == domain && ds.any (·.hwirq == h)))
  | [], _, _, _ => by simp
  | e :: ds, irq, d, h => by
    rw [List.foldl_cons, foldl_releaseIrq_reserved ds, releaseIrq_reserved, List.any_cons]
    cases irq.reserved d h <;> cases d == domain <;> cases e.hwirq == h <;> simp

theorem foldl_releaseIrq_owner : ∀ (ds : List MsiDesc) (irq : IrqCore) (v : Nat),
    (ds.foldl (releaseIrq domain) irq).owner v =
      if ds.any (fun d => d.irq != 0 && d.irq == v) then none else irq.owner v
  | [], _, _ => by simp
  | e :: ds, irq, v => by
    rw [List.foldl_cons, foldl_releaseIrq_owner ds]
    unfold releaseIrq
    by_cases he : e.irq = 0
    · simp [he, irqDomainFreeHwirqRange]
    · by_cases hv : e.irq = v
      · subst hv; simp [he, irqDomainFreeHwirqRange, irqDisposeMapping]
      · simp [he, hv, irqDomainFreeHwirqRange, irqDisposeMapping, Function.update_noteq (Ne.symm hv)]

end Release

/-! ## The walk -/

section Steps

variable {c : FreeCall} {x : Nat} {rest : List Nat} {d : MsiDesc}

/-- The head of an iteration at the first node `x` of a registry: it saves `next` and disposes
of the mapping of a non-zero virq. -/
theorem freeWalkStep_cons {s : State} (hreg : Registry s.heap c.msiData (x :: rest))
    (hd : s.heap.desc x = some d) :
    freeWalkStep c x s = some (some (rest.headD c.msiData),
      ⟨s.heap, s.devs, if d.irq ≠ 0 then irqDisposeMapping s.irq d.irq else s.irq⟩) := by
  have hxr : x ≠ c.msiData := fun h => by
    have := hreg.nodup
    simp [h] at this
  have hnext := @Ring.next_eq s.heap c.msiData x [] rest d hreg.toRing hd
  simp only [freeWalkStep, hxr, if_false, hd, hnext, Option.bind_eq_bind, Option.some_bind,
    List.nil_append]
  split <;> rfl

/-- The rest of an iteration at the first node `x` of a registry: it releases the hwirq of `x`
and removes `x`. -/
theorem freeReleaseStep_cons {h : Heap} {devs : Nat → Device} {irq : IrqCore}
    (hreg : Registry h c.msiData (x :: rest)) (hd : h.desc x = some d) :
    ∃ heap, freeReleaseStep c x ⟨h, devs, irq⟩ =
        some ⟨heap, devs, irqDomainFreeHwirqRange irq c.domain d.hwirq 1⟩ ∧
      Registry heap c.msiData rest ∧ heap.mem x = none ∧
      (∀ q, q ∉ c.msiData :: x :: rest → heap.mem q = h.mem q) ∧
      ∀ q, q ≠ x → (heap.desc q).map MsiDesc.erase = (h.desc q).map MsiDesc.erase := by
  obtain ⟨heap, hrm, hreg', -, hfree, hframe, hdesc⟩ := @removeDesc_spec h c.msiData x [] rest hreg
  exact ⟨heap, by simp [freeReleaseStep, hd, hrm], hreg', hfree, hframe, hdesc⟩

end Steps

/-- The walk from the first node of a registry `rest`: it never faults, hands the
descriptors of `rest` to `releaseIrq` in list order, frees them and leaves the sentinel
alone. -/
theorem freeVectorsLoop_spec {c : FreeCall} : ∀ (rest : List Nat) (fuel : Nat) (s : State),
    Registry s.heap c.msiData rest → rest.length < fuel →
    ∃ (s' : State) (ds : List MsiDesc), freeVectorsLoop c fuel s (rest.headD c.msiData) = some s' ∧
      s.heap.view rest = ds.map some ∧ Registry s'.heap c.msiData [] ∧
      s'.irq = ds.foldl (releaseIrq c.domain) s.irq ∧ s'.devs = s.devs ∧
      (∀ q, q ∉ c.msiData :: rest → s'.heap.mem q = s.heap.mem q) ∧
      ∀ x ∈ rest, s'.heap.mem x = none
  | [], fuel + 1, s, hreg, _ =>
    ⟨s, [], by simp [freeVectorsLoop, freeWalkStep], rfl, hreg, rfl, rfl, fun _ _ => rfl, by simp⟩
  | x :: rest, fuel + 1, s, hreg, hf => by
    have hnd := hreg.nodup
    simp only [List.nodup_cons, List.mem_cons, not_or] at hnd
    obtain ⟨⟨hrx, hrr⟩, hxr, -⟩ := hnd
    obtain ⟨d, hd⟩ := hreg.descs x (List.mem_cons_self _ _)
    obtain ⟨heap, hrel, hreg', hfree, hframe, hdesc⟩ :=
      @freeReleaseStep_cons c x rest d s.heap s.devs
        (if d.irq ≠ 0 then irqDisposeMapping s.irq d.irq else s.irq) hreg hd
    obtain ⟨s', ds, hrun, hview, hreg'', hirq, hdevs, hframe', hfreed⟩ :=
      freeVectorsLoop_spec rest fuel ⟨heap, s.devs, releaseIrq c.domain s.irq d⟩ hreg'
        (by simpa using hf)
    refine ⟨s', d.erase :: ds, ?_, ?_, hreg'', hirq, hdevs, fun q hq => ?_, fun y hy => ?_⟩
    · rw [List.headD_cons, freeVectorsLoop, freeWalkStep_cons hreg hd]
      simp only [Option.bind_eq_bind, Option.some_bind]
      rw [hrel, Option.some_bind]
      exact hrun
    · have hrest : s.heap.view rest = ds.map some :=
        (Heap.view_congr fun y hy => hdesc y fun h => hxr (h ▸ hy)).symm.trans hview
      show (s.heap.desc x).map MsiDesc.erase :: s.heap.view rest = _
      rw [hd, hrest]
      rfl
    · simp only [List.mem_cons, not_or] at hq
      rw [hframe' q (by simp [hq.1, hq.2.2]), hframe q (by simp [hq.1, hq.2.1, hq.2.2])]
    · rcases List.mem_cons.mp hy with rfl | hy
      · rw [hframe' y (by simp [Ne.symm hrx, hxr]), hfree]
      · exact hfreed y hy
  | _ :: _, 0, _, _, hf => absurd hf (Nat.not_lt_zero _)

/-- `msi_free_vectors(dev)` on the registry `xs` terminates and leaves an empty registry: a
self-linked sentinel with `num_vectors = 0`. For each removed descriptor, in list order, the
IRQ core sees one `irq_dispose_mapping` of its virq when it has one, and one release of its
hwirq in `dev->msi_domain`; no other reservation or mapping changes, and no other registry. -/
theorem msiFreeVectors_spec (s : State) (dev : Nat) (xs : List Nat) (hdev : dev ≠ 0)
    (hdom : (s.devs dev).msiDomain ≠ 0) (hmd : (s.devs dev).msiData ≠ 0)
    (hreg : Registry s.heap (s.devs dev).msiData xs) :
    ∃ (s' : State) (ds : List MsiDesc), msiFreeVectors s dev = some s' ∧ s.heap.view xs = ds.map some ∧
      s'.heap.data (s.devs dev).msiData =
        some ⟨⟨(s.devs dev).msiData, (s.devs dev).msiData⟩, 0⟩ ∧
      Registry s'.heap (s.devs dev).msiData [] ∧
      s'.irq.calls = s.irq.calls ++ ds.flatMap (releaseCalls (s.devs dev).msiDomain) ∧
      (∀ d h, s'.irq.reserved d h =
        (s.irq.reserved d h && !(d == (s.devs dev).msiDomain && ds.any (·.hwirq == h)))) ∧
      (∀ v, s'.irq.owner v =
        if ds.any (fun d => d.irq != 0 && d.irq == v) then none else s.irq.owner v) ∧
      s'.devs = s.devs ∧ (∀ x ∈ xs, s'.heap.mem x = none) ∧
      ∀ r' ys, Registry s.heap r' ys → (∀ q ∈ r' :: ys, q ∉ (s.devs dev).msiData :: xs) →
        Registry s'.heap r' ys ∧ s'.heap.view ys = s.heap.view ys := by
  have hlen : ((s.devs dev).msiData :: xs).length ≤ s.heap.top :=
    Heap.length_le_top hreg.nodup hreg.mem_live
  obtain ⟨s', ds, hrun, hview, hreg', hirq, hdevs, hframe, hfreed⟩ :=
    @freeVectorsLoop_spec ⟨(s.devs dev).msiDomain, (s.devs dev).msiData⟩ xs (s.heap.top + 1) s
      hreg (by simp at hlen; omega)
  dsimp only at hrun hreg' hirq hframe
  obtain ⟨md, hmd', hnum⟩ := hreg'.count
  have hlink := hreg'.sentinel_link
  rw [Heap.link_of_data hmd'] at hlink
  refine ⟨s', ds, by simpa [msiFreeVectors, freeStart, hdev, hmd, hdom, hreg.sentinel_link] using hrun, hview,
    ?_, hreg', by simp [hirq, foldl_releaseIrq_calls], by simp [hirq, foldl_releaseIrq_reserved],
    by simp [hirq, foldl_releaseIrq_owner], hdevs, hfreed, fun r' ys hreg₁ hdisj => ?_⟩
  · rw [hmd']
    obtain ⟨l, n⟩ := md
    simp only [List.length_nil] at hnum
    simp only [Option.some.injEq] at hlink
    subst hnum hlink
    rfl
  · have hm : ∀ q ∈ r' :: ys, s'.heap.mem q = s.heap.mem q := fun q hq => hframe q (hdisj q hq)
    refine ⟨hreg₁.frame hm, Heap.view_congr fun y hy => ?_⟩
    simp [Heap.desc, hm y (List.mem_cons_of_mem _ hy)]

/-! ## Freeing what successive allocations appended -/

/-- Successive calls of `msi_alloc_vectors` on `dev` from `s₀` that each return a count, with
a domain and a `kmalloc` within their contracts. -/
inductive AllocRun (dev : Nat) (s₀ : State) : State → Prop
  | refl : AllocRun dev s₀ s₀
  | step {s s' : State} {lo hi flags : Nat} {env : AllocEnv} {ret : Int} :
      AllocRun dev s₀ s → RangeOk s.irq (s.devs dev).msiDomain (nvecOf hi) env.range →
      env.KmallocOk s.heap 0 (nvecOf hi) → msiAllocVectors s dev lo hi flags env = some (ret, s') →
      ret ≠ -1 → AllocRun dev s₀ s'

/-- The descriptors of one successful call hold exactly the hwirqs of its range. -/
theorem any_descAt_hwirq {c : AllocCall} (hb : c.base + c.nvec ≤ 2 ^ 32) (virq : Nat → Nat)
    (x : Nat) : ((List.range c.nvec).map fun j => c.descAt j (virq j)).any (·.hwirq == x) =
      decide (c.base ≤ x ∧ x < c.base + c.nvec) := by
  rw [Bool.eq_iff_iff]
  simp only [List.any_eq_true, List.mem_map, List.mem_range, beq_iff_eq, decide_eq_true_eq]
  constructor
  · rintro ⟨_, ⟨j, hj, rfl⟩, rfl⟩
    simp only [AllocCall.descAt]
    rw [AllocCall.hwirq_of_lt hb hj]
    omega
  · rintro ⟨h₁, h₂⟩
    refine ⟨_, ⟨x - c.base, by omega, rfl⟩, ?_⟩
    simp only [AllocCall.descAt]
    rw [AllocCall.hwirq_of_lt hb (by omega)]
    omega

/-- Along successive allocations from an empty registry, the registry lists the descriptors
`ds` they appended. The IRQ core holds, beyond what it held at the start, the reservations of
their hwirqs, none of which was reserved at the start; the mapping of a virq none of them
holds is as at the start. -/
theorem AllocRun.spec {dev : Nat} {s₀ s : State}
    (hreg : Registry s₀.heap (s₀.devs dev).msiData []) (hrun : AllocRun dev s₀ s) :
    ∃ (xs : List Nat) (ds : List MsiDesc), Registry s.heap (s₀.devs dev).msiData xs ∧
      s.heap.view xs = ds.map some ∧ s.devs = s₀.devs ∧
      (∀ d ∈ ds, d.irq ≠ 0 ∧ s₀.irq.reserved (s₀.devs dev).msiDomain d.hwirq = false) ∧
      (∀ e x, s.irq.reserved e x =
        (s₀.irq.reserved e x || (e == (s₀.devs dev).msiDomain && ds.any (·.hwirq == x)))) ∧
      ∀ v, ds.all (·.irq != v) → s.irq.owner v = s₀.irq.owner v := by
  induction hrun with
  | refl => exact ⟨[], [], hreg, rfl, rfl, by simp, by simp, fun _ _ => rfl⟩
  | @step s s' lo hi flags env ret _ hrange hk hcall hret ih =>
    obtain ⟨xs, ds, hreg, hview, hdevs, hds, hres, hown⟩ := ih
    obtain ⟨b, ps, hb, -, hlen, ha, hdevs', hres', hown'⟩ :=
      msiAllocVectors_ok (by rwa [hdevs]) hk hcall hret
    rw [hb, hdevs] at hrange
    rw [hdevs] at ha hres'
    set c : AllocCall := ⟨dev, (s₀.devs dev).msiData, (s₀.devs dev).msiDomain, flags, nvecOf hi, b⟩
    have hnew : ∀ x, ((List.range (nvecOf hi)).map fun j => c.descAt j (env.virq j)).any
        (·.hwirq == x) = decide (b ≤ x ∧ x < b + nvecOf hi) := @any_descAt_hwirq c hrange.1 env.virq
    refine ⟨xs ++ ps, ds ++ (List.range (nvecOf hi)).map fun j => c.descAt j (env.virq j),
      ha.registry, ?_, hdevs'.trans hdevs, fun d hd => ?_, fun e x => ?_, fun v hv => ?_⟩
    · rw [Heap.view_append, ha.old, hview, ha.descs, hlen]
      simp
    · rcases List.mem_append.mp hd with hd | hd
      · exact hds d hd
      obtain ⟨j, hj, rfl⟩ := List.mem_map.mp hd
      rw [List.mem_range] at hj
      have hfree := hrange.2 (b + j) (by omega) (by omega)
      rw [hres, Bool.or_eq_false_iff] at hfree
      refine ⟨by simpa using ha.mapped j (hlen ▸ hj), ?_⟩
      rw [AllocCall.descAt, AllocCall.hwirq_of_lt hrange.1 hj]
      exact hfree.1
    · simp only [hres', irqDomainAllocHwirqRange, Option.isSome_some, Option.getD_some,
        Bool.true_and, hres, List.any_append, hnew]
      cases e == (s₀.devs dev).msiDomain <;> simp [Bool.or_assoc]
    · rw [List.all_append, Bool.and_eq_true] at hv
      rw [hown' v fun j hj => ?_, hown v hv.1]
      have := List.all_eq_true.mp hv.2 _ (List.mem_map_of_mem _ (List.mem_range.mpr hj))
      simpa [AllocCall.descAt] using this

/-- `msi_free_vectors` after successive successful allocations on an empty registry: the
domain's reservations are as before the allocations, and so is every mapping, except that
every virq the allocations stored is left unmapped. -/
theorem msiFreeVectors_after_allocs {s₀ s : State} {dev : Nat} (hdev : dev ≠ 0)
    (hdom : (s₀.devs dev).msiDomain ≠ 0) (hmd : (s₀.devs dev).msiData ≠ 0)
    (hreg : Registry s₀.heap (s₀.devs dev).msiData []) (hrun : AllocRun dev s₀ s) :
    ∃ (s' : State) (xs : List Nat) (ds : List MsiDesc), msiFreeVectors s dev = some s' ∧
      Registry s.heap (s₀.devs dev).msiData xs ∧ s.heap.view xs = ds.map some ∧
      (∀ e x, s'.irq.reserved e x = s₀.irq.reserved e x) ∧
      ∀ v, s'.irq.owner v = if ds.any (·.irq == v) then none else s₀.irq.owner v := by
  obtain ⟨xs, ds, hreg', hview, hdevs, hds, hres, hown⟩ := hrun.spec hreg
  rw [← hdevs] at hdom hmd hreg'
  obtain ⟨s', ds', hfree, hview', -, -, -, hres', hown', -⟩ :=
    msiFreeVectors_spec s dev xs hdev hdom hmd hreg'
  obtain rfl : ds = ds' :=
    List.map_injective_iff.mpr (Option.some_injective _) (hview.symm.trans hview')
  refine ⟨s', xs, ds, hfree, by rwa [hdevs] at hreg', hview, fun e x => ?_, fun v => ?_⟩
  · rw [hres', hres, hdevs]
    cases hx : (e == (s₀.devs dev).msiDomain && ds.any (·.hwirq == x))
    · simp
    · obtain ⟨he, hany⟩ := Bool.and_eq_true_iff.mp hx
      obtain ⟨d, hd, rfl⟩ : ∃ d ∈ ds, d.hwirq = x := by simpa using hany
      rw [beq_iff_eq.mp he, (hds d hd).2]
      rfl
  · have hnz : ds.any (fun d => d.irq != 0 && d.irq == v) = ds.any (·.irq == v) := by
      rw [Bool.eq_iff_iff]
      simp only [List.any_eq_true, Bool.and_eq_true, bne_iff_ne, ne_eq, beq_iff_eq]
      exact exists_congr fun d => and_congr_right fun hd => and_iff_right (hds d hd).1
    rw [hown', hnz]
    split
    · rfl
    · rename_i hv
      exact hown v (by simpa using hv)

/-- `msi_free_vectors` on a registry, and after successive successful allocations on an
empty one. -/
theorem msiFreeVectors_releases :
    (∀ (s : State) (dev : Nat) (xs : List Nat), dev ≠ 0 → (s.devs dev).msiDomain ≠ 0 →
      (s.devs dev).msiData ≠ 0 → Registry s.heap (s.devs dev).msiData xs →
      ∃ (s' : State) (ds : List MsiDesc), msiFreeVectors s dev = some s' ∧
        s.heap.view xs = ds.map some ∧
        s'.heap.data (s.devs dev).msiData =
          some ⟨⟨(s.devs dev).msiData, (s.devs dev).msiData⟩, 0⟩ ∧
        Registry s'.heap (s.devs dev).msiData [] ∧
        s'.irq.calls = s.irq.calls ++ ds.flatMap (releaseCalls (s.devs dev).msiDomain) ∧
        (∀ d h, s'.irq.reserved d h =
          (s.irq.reserved d h && !(d == (s.devs dev).msiDomain && ds.any (·.hwirq == h)))) ∧
        (∀ v, s'.irq.owner v =
          if ds.any (fun d => d.irq != 0 && d.irq == v) then none else s.irq.owner v) ∧
        s'.devs = s.devs ∧ (∀ x ∈ xs, s'.heap.mem x = none) ∧
        ∀ r' ys, Registry s.heap r' ys → (∀ q ∈ r' :: ys, q ∉ (s.devs dev).msiData :: xs) →
          Registry s'.heap r' ys ∧ s'.heap.view ys = s.heap.view ys) ∧
    ∀ (s₀ s : State) (dev : Nat), dev ≠ 0 → (s₀.devs dev).msiDomain ≠ 0 →
      (s₀.devs dev).msiData ≠ 0 → Registry s₀.heap (s₀.devs dev).msiData [] →
      AllocRun dev s₀ s →
      ∃ (s' : State) (xs : List Nat) (ds : List MsiDesc), msiFreeVectors s dev = some s' ∧
        Registry s.heap (s₀.devs dev).msiData xs ∧ s.heap.view xs = ds.map some ∧
        (∀ e x, s'.irq.reserved e x = s₀.irq.reserved e x) ∧
        ∀ v, s'.irq.owner v = if ds.any (·.irq == v) then none else s₀.irq.owner v :=
  ⟨msiFreeVectors_spec, fun _ _ _ => msiFreeVectors_after_allocs⟩

/-- The start of the runs below: device `1` with domain `7` and registry `10`, and virq `5`
already mapping hwirq `0` of domain `7`, which is not reserved. -/
def reusedMappingState : State :=
  (msiDeviceInit ⟨Heap.empty, fun d => ⟨0, if d = 1 then 7 else 0⟩,
    ⟨fun _ _ => false, fun v => if v = 5 then some (7, 0) else none, []⟩⟩ 1 (some 10)).2

/-- One allocation of one vector on `reusedMappingState` within the contracts, whose
`irq_create_mapping` returns the existing virq `5`, then `msi_free_vectors`. -/
theorem msiFreeVectors_releases_reused :
    ∃ s, AllocRun 1 reusedMappingState s ∧
      ∃ (s' : State) (xs : List Nat) (ds : List MsiDesc), msiFreeVectors s 1 = some s' ∧
        Registry s.heap (reusedMappingState.devs 1).msiData xs ∧ s.heap.view xs = ds.map some ∧
        (∀ e x, s'.irq.reserved e x = reusedMappingState.irq.reserved e x) ∧
        ∀ v, s'.irq.owner v =
          if ds.any (·.irq == v) then none else reusedMappingState.irq.owner v := by
  have hk : AllocEnv.KmallocOk ⟨some 0, fun _ => some 20, fun _ => 5⟩ reusedMappingState.heap
      0 (nvecOf 1) := by
    intro j p _ hj _ hp
    cases hp
    have : nvecOf 1 = 1 := rfl
    exact ⟨by decide, rfl, fun _ _ _ => by omega⟩
  have hrange : RangeOk reusedMappingState.irq (reusedMappingState.devs 1).msiDomain (nvecOf 1)
      (some 0) := ⟨by decide, fun _ _ _ => rfl⟩
  have hrun := @AllocRun.step 1 reusedMappingState reusedMappingState _ 1 1 0
    ⟨some 0, fun _ => some 20, fun _ => 5⟩ 1 .refl hrange hk rfl (by decide)
  exact ⟨_, hrun, msiFreeVectors_releases.2 _ _ 1 one_ne_zero (by decide) (by decide)
    (msiDeviceInit_spec one_ne_zero).2 hrun⟩

/-- When `irq_create_mapping` returns the virq that already maps the hwirq, as its contract
allows, `msi_free_vectors` disposes of that mapping too: the mappings are not as they were
before the allocation. -/
theorem msiFreeVectors_drops_reused_mapping :
    ∃ s s', RangeOk reusedMappingState.irq 7 (nvecOf 1) (some 0) ∧
      MappingOk reusedMappingState.irq 7 0 5 ∧
      msiAllocVectors reusedMappingState 1 1 1 0 ⟨some 0, fun _ => some 20, fun _ => 5⟩ =
        some (1, s) ∧
      msiFreeVectors s 1 = some s' ∧ reusedMappingState.irq.owner 5 = some (7, 0) ∧
      s'.irq.owner 5 = none :=
  ⟨_, _, ⟨by decide, fun _ _ _ => rfl⟩, .inr (.inr rfl), rfl, rfl, rfl, rfl⟩

end ProtoKernel.Irq
