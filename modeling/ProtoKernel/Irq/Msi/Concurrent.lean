import ProtoKernel.Irq.Msi.Invariant

/-!
# Every reachable state of the concurrent MSI core

Each step of the machine, taken by a device whose turn it is and with the environment within
its contracts, returns a state (no segment faults) and keeps `Inv`. The proofs go through
`Inv.update` with one lemma per action; `Reachable.inv` is the induction over runs.

* `Inv.init` ... `Inv.freeRelease`: one step of each kind.
* `Inv.step`, `Reachable.inv`: the invariant holds in every reachable state.
* `twoDeviceStart` ... `twoDeviceFreed`: a run of two devices of one domain, interleaved.
* `reachable_registries`: what it says of each device's registry; the list's blocks and
  mappings only while the device has no call running.
* `reachable_registry_mid_call`: inside a call, a reachable registry holds a partial block, or
  a descriptor whose mapping is already disposed.
-/

namespace ProtoKernel.Irq

/-! ## Lists of hwirqs -/

/-- In `l ++ [a]` with `a ∉ l`, the only occurrence of `a` is the last one. -/
theorem eq_of_append_singleton {α : Type} {a : α} : ∀ {l m n : List α}, a ∉ l →
    l ++ [a] = m ++ a :: n → m = l ∧ n = []
  | [], [], _, _, h => ⟨rfl, by simpa using h.symm⟩
  | b :: l, [], _, ha, h => by
    simp only [List.cons_append, List.nil_append, List.cons.injEq] at h
    exact absurd (h.1 ▸ List.mem_cons_self _ _) ha
  | [], b :: m, n, _, h => by simp at h
  | c :: l, b :: m, n, ha, h => by
    simp only [List.cons_append, List.cons.injEq] at h
    obtain ⟨rfl, h⟩ := h
    obtain ⟨rfl, rfl⟩ := eq_of_append_singleton (fun hl => ha (List.mem_cons_of_mem _ hl)) h
    exact ⟨rfl, rfl⟩

/-- The hwirq `b + i` of a range `b .. b + n - 1` held without repetition after `B` is in
neither `B` nor the part of the range below it. -/
theorem add_not_mem_of_nodup {B : List Nat} {b n i : Nat} (hnd : (B ++ List.range' b n).Nodup)
    (hi : i < n) : b + i ∉ B ++ List.range' b i := by
  have hmem : b + i ∈ List.range' b n := List.mem_range'_1.mpr ⟨by omega, by omega⟩
  rw [List.mem_append, not_or]
  exact ⟨fun hB => List.disjoint_of_nodup_append hnd hB hmem, by simp [List.mem_range'_1]⟩

theorem Mapped.eq_of_irq {owner : Nat → Option (Nat × Nat)} {D : Nat} {ds : List MsiDesc}
    (hm : Mapped owner D ds) {e : MsiDesc} (he : e ∈ ds) {v D' x : Nat}
    (hv : owner v = some (D', x)) (hirq : e.irq = v) : e.hwirq = x := by
  have := (hm e he).2
  rw [hirq, hv, Option.some.injEq, Prod.mk.injEq] at this
  exact this.2.symm

/-! ## One step of each kind -/

section Steps

variable {S : Sys} {L : Nat → List Nat × List MsiDesc} {dev : Nat}

/-- `msi_device_init` on a device without a registry. -/
theorem Inv.init {r : Option Nat} (hI : Inv S L) (hpc : S.pc dev = .idle)
    (hmd : (S.s.devs dev).msiData = 0) (hk : KmallocOk S.s.heap r) :
    ∃ S', S.step (.init dev r) = some S' ∧ ∃ xs ds, S.Effect S' L dev xs ds := by
  have hunset := (hI.dev dev).unset hmd
  have hds0 : (L dev).2 = [] := by
    have := (hI.dev dev).view
    rw [hunset.1, Heap.view_nil] at this
    exact List.map_eq_nil_iff.mp this.symm
  refine ⟨{ S with s := (msiDeviceInit S.s dev r).2 },
    by simp only [Sys.step, hpc, hmd, and_self, if_true], ?_⟩
  by_cases hdev : dev = 0
  · have : msiDeviceInit S.s dev r = (-1, S.s) := by simp [msiDeviceInit, hdev]
    rw [this]
    exact ⟨_, _, .refl hI hpc⟩
  cases r with
  | none =>
    have : msiDeviceInit S.s dev none = (-1, S.s) := by simp [msiDeviceInit]
    rw [this]
    exact ⟨_, _, .refl hI hpc⟩
  | some p =>
    obtain ⟨hp0, hfresh⟩ := hk
    rw [(msiDeviceInit_spec hdev).1]
    have hdevs : ∀ d, d ≠ dev →
        Function.update S.s.devs dev { S.s.devs dev with msiData := p } d = S.s.devs d :=
      fun d hd => Function.update_noteq hd _ _
    have hdom : ∀ d, (Function.update S.s.devs dev { S.s.devs dev with msiData := p } d).msiDomain =
        (S.s.devs d).msiDomain := by
      intro d
      rcases eq_or_ne d dev with rfl | hd
      · simp
      · rw [hdevs d hd]
    refine ⟨[], [], .quiet (hI.update hdevs (hdom dev) (fun _ _ => rfl) (fun _ _ => rfl)
      (fun q hq => .inl ?_) (fun _ hv => absurd rfl hv)
      (fun _ _ h h' => absurd (h.symm.trans h') (by decide)) ?_ (by simp [hpc, Pc.held])
      (by simp [hpc, Pc.held]) (fun _ q hq => .inr ?_)) hdom hdevs (fun _ _ => rfl)
      (fun _ _ => rfl) rfl rfl (by simp [hpc, Pc.held, hds0]) (by simp [hpc, Pc.mapped, hds0])
      (fun h => absurd hpc h)⟩
    · by_cases hqp : q = p
      · exact hqp ▸ hfresh
      · simp [hqp] at hq
    · refine ⟨fun _ => by simpa using (msiDeviceInit_spec hdev).2, fun h => by simp [hp0] at h,
        rfl, ?_, ?_, ?_⟩
      · simp [hunset.2.2]
      · simp [hpc, Pc.mapped, Mapped]
      · simp [hpc, Pc.Stage, hunset.2.2]
    · simp only [List.mem_singleton, Function.update_same] at hq
      exact hq ▸ hfresh

/-- The checks of `msi_alloc_vectors` and its `irq_domain_alloc_hwirq_range`. -/
theorem Inv.allocStart {lo hi flags : Nat} {range : Option Nat} (hI : Inv S L)
    (hpc : S.pc dev = .idle)
    (hrange : RangeOk S.s.irq (S.s.devs dev).msiDomain (nvecOf hi) range) :
    ∃ S', S.step (.allocStart dev lo hi flags range) = some S' ∧
      ∃ xs ds, S.Effect S' L dev xs ds := by
  by_cases hg : dev = 0 ∨ (S.s.devs dev).msiData = 0 ∨ (S.s.devs dev).msiDomain = 0 ∨ lo = 0 ∨
      hi < lo ∨ msiMaxVectors < hi
  · exact ⟨S, by simp only [Sys.step, hpc, if_true, allocStart_of_guard hg], _, _, .refl hI hpc⟩
  by_cases hn : nvecOf hi < lo
  · exact ⟨S, by simp only [Sys.step, hpc, if_true, allocStart_of_lt hg hn], _, _,
      .refl hI hpc⟩
  have hmd : (S.s.devs dev).msiData ≠ 0 := fun h => hg (.inr (.inl h))
  have hidle : (L dev).2.map (·.hwirq) = blockHwirqs (S.blocks dev) := by
    simpa [hpc, Pc.Stage] using (hI.dev dev).stage
  cases range with
  | none =>
    have hres : (irqDomainAllocHwirqRange S.s.irq (S.s.devs dev).msiDomain (nvecOf hi)
        none).reserved = S.s.irq.reserved := by
      funext e x
      simp [irqDomainAllocHwirqRange]
    refine ⟨⟨⟨S.s.heap, S.s.devs, irqDomainAllocHwirqRange S.s.irq (S.s.devs dev).msiDomain
      (nvecOf hi) none⟩, S.pc, S.blocks⟩, by
        simp only [Sys.step, hpc, if_true, allocStart_of_pass hg hn, Option.map_none'],
      (L dev).1, (L dev).2, .quiet ?_ (fun _ => rfl) (fun _ _ => rfl) (fun _ _ => rfl) (fun _ _ => rfl) hres rfl rfl rfl
        (fun h => absurd hpc h)⟩
    rw [Prod.mk.eta, Function.update_eq_self]
    exact hI.congr rfl rfl rfl rfl rfl hres
  | some b =>
    obtain ⟨k, hk, -, -⟩ := nvecOf_spec (show 1 ≤ hi by omega)
    set S' : Sys := ⟨⟨S.s.heap, S.s.devs, irqDomainAllocHwirqRange S.s.irq
      (S.s.devs dev).msiDomain (nvecOf hi) (some b)⟩, Function.update S.pc dev
      (.populate ⟨dev, (S.s.devs dev).msiData, (S.s.devs dev).msiDomain, flags, nvecOf hi, b⟩ 0),
      S.blocks⟩ with hS'
    have hheld : (S'.pc dev).held (S'.blocks dev) (L dev).2 =
        (S.pc dev).held (S.blocks dev) (L dev).2 ++ List.range' b (nvecOf hi) := by
      simp [hS', hpc, Pc.held, hidle]
    refine ⟨S', by simp only [Sys.step, hpc, if_true, allocStart_of_pass hg hn,
      Option.map_some'], (L dev).1, (L dev).2, .of_update hI (fun _ _ => rfl) (fun _ => rfl)
      (fun d hd => Function.update_noteq hd _ _) (fun _ _ => rfl) (fun _ hq => absurd rfl hq)
      (fun _ hv => absurd rfl hv) (fun e x h h' => ?_) ?_ ?_ (fun x hx => ?_)
      (fun _ q hq => .inl ⟨hmd, hq⟩) (fun e x h h' => ?_)
      (fun x hx hx' => absurd (hheld ▸ List.mem_append_left _ hx) hx') (fun v h => absurd rfl h)
      (fun e he he' => absurd (by simpa [hS', hpc, Pc.mapped] using he) he') (fun h => absurd hpc h)⟩
    · simp [irqDomainAllocHwirqRange, h] at h'
    · have hi := hI.dev dev
      refine ⟨hi.registry, fun h => absurd h hmd, hi.view, hi.pow, ?_, ?_⟩
      · simpa [hS', hpc, Pc.mapped] using hi.mapped
      · simp only [hS', Function.update_same]
        exact ⟨rfl, rfl, ⟨k, hk⟩, hrange.1, hk ▸ Nat.two_pow_pos k,
          by rw [List.range'_zero, List.append_nil]; exact hidle⟩
    · rw [hheld, List.nodup_append]
      refine ⟨hI.nodup dev, List.nodup_range' _ _, fun x hx hx' => ?_⟩
      have := hrange.2 x (List.mem_range'_1.mp hx').1 (List.mem_range'_1.mp hx').2
      simp [hI.reserved dev x hx] at this
    · rw [hheld, List.mem_append] at hx
      rcases hx with hx | hx
      · exact ⟨by simp [irqDomainAllocHwirqRange, hI.reserved dev x hx], .inl hx⟩
      · obtain ⟨h₁, h₂⟩ := List.mem_range'_1.mp hx
        exact ⟨by simp [irqDomainAllocHwirqRange, h₁, h₂], .inr (hrange.2 x h₁ h₂)⟩
    · -- the call reserves its range and nothing else
      obtain ⟨rfl, _, hb, h₁, h₂⟩ := irqDomainAllocHwirqRange_reserved_grant h h'
      cases hb
      exact ⟨rfl, hheld ▸ List.mem_append_right _ (List.mem_range'_1.mpr ⟨h₁, h₂⟩)⟩

/-- A device in a call has a registry. -/
theorem Inv.msiData_ne_zero (hI : Inv S L) (hpc : S.pc dev ≠ .idle) :
    (S.s.devs dev).msiData ≠ 0 := fun h => hpc ((hI.dev dev).unset h).2.1

/-- What the stage of a call of `msi_alloc_vectors` tells of its locals and its descriptors. -/
theorem Inv.populate_stage {c : AllocCall} {i : Nat} (hI : Inv S L)
    (hpc : S.pc dev = .populate c i ∨ S.pc dev = .rollback c i) :
    (S.s.devs dev).msiData ≠ 0 ∧ c.msiData = (S.s.devs dev).msiData ∧
      c.domain = (S.s.devs dev).msiDomain ∧ c.base + c.nvec ≤ 2 ^ 32 ∧
      (L dev).2.map (·.hwirq) = blockHwirqs (S.blocks dev) ++ List.range' c.base i ∧
      (S.pc dev).held (S.blocks dev) (L dev).2 = blockHwirqs (S.blocks dev) ++ List.range' c.base c.nvec := by
  have hi := hI.dev dev
  have hmd : (S.s.devs dev).msiData ≠ 0 :=
    hI.msiData_ne_zero (by rcases hpc with hpc | hpc <;> simp [hpc])
  rcases hpc with hpc | hpc
  · obtain ⟨hcr, hcd, -, hb32, -, hhw⟩ := by simpa [hpc, Pc.Stage] using hi.stage
    exact ⟨hmd, hcr, hcd, hb32, hhw, by rw [hpc]; rfl⟩
  · obtain ⟨hcr, hcd, hb32, -, hhw⟩ := by simpa [hpc, Pc.Stage] using hi.stage
    exact ⟨hmd, hcr, hcd, hb32, hhw, by rw [hpc]; rfl⟩

/-- A failed iteration of the population loop hands the registry over to the cleanup loop as it
is. -/
theorem Inv.populate_fail {S' : Sys} {c : AllocCall} {i : Nat} (hI : Inv S L)
    (hpc : S.pc dev = .populate c i) (hh : S'.s.heap.mem = S.s.heap.mem)
    (hd : S'.s.devs = S.s.devs) (ho : S'.s.irq.owner = S.s.irq.owner)
    (hr : S'.s.irq.reserved = S.s.irq.reserved) (hp : S'.pc = Function.update S.pc dev (.rollback c i))
    (hb : S'.blocks = S.blocks) : S.Effect S' L dev (L dev).1 (L dev).2 := by
  have hi := hI.dev dev
  obtain ⟨hmd, hcr, hcd, hb32, hhw, hheld⟩ := hI.populate_stage (.inl hpc)
  have hin : i < c.nvec := by
    have := hi.stage
    rw [hpc] at this
    exact this.2.2.2.2.1
  have hf := hi.frame (fun _ q _ => congrFun hh q) (fun e _ => congrFun ho e.irq)
  have hpc' : S'.pc dev = .rollback c i := by rw [hp, Function.update_same]
  have hheld' : (S'.pc dev).held (S'.blocks dev) (L dev).2 = (S.pc dev).held (S.blocks dev) (L dev).2 := by
    rw [hpc', hb, hheld]
    rfl
  have hdevs : ∀ d, d ≠ dev → S'.s.devs d = S.s.devs d := fun _ _ => by rw [hd]
  have hpcs : ∀ d, d ≠ dev → S'.pc d = S.pc d := fun d hd' => by rw [hp, Function.update_noteq hd']
  have hbs : ∀ d, d ≠ dev → S'.blocks d = S.blocks d := fun _ _ => by rw [hb]
  refine .quiet (@Inv.update S S' L dev (L dev).1 (L dev).2 hI hdevs (by rw [hd]) hpcs hbs
    (fun q hq => absurd (congrFun hh q) hq) (fun v hv => absurd (congrFun ho v) hv)
    (fun e x h h' => by rw [hr, h] at h'; exact absurd h' (by decide)) ?_
    (hheld' ▸ hI.nodup dev) (fun x hx => ?_) (fun _ q hq => .inl ⟨hmd, by rwa [hd] at hq⟩))
    (fun _ => by rw [hd]) hdevs hpcs hbs hr ho hheld' (by rw [hpc', hpc]; rfl)
    (fun _ => by simp only [hpc', hpc, Pc.rank]; omega)
  · rw [hpc', hd, hb]
    exact ⟨hf.registry, fun h => absurd h hmd, hf.view, hf.pow,
      by simpa [hpc, Pc.mapped] using hf.mapped, ⟨hcr, hcd, hb32, hin.le, hhw⟩⟩
  · rw [hheld'] at hx
    exact ⟨by rw [hr]; exact hI.reserved dev x hx, .inl hx⟩

/-- One iteration of the population loop of `msi_alloc_vectors`. -/
theorem Inv.populate {c : AllocCall} {i : Nat} {r : Option Nat} {virq : Nat} (hI : Inv S L)
    (hpc : S.pc dev = .populate c i) (hk : KmallocOk S.s.heap r)
    (hmap : MappingOk S.s.irq c.domain (c.hwirq i) virq) :
    ∃ S', S.step (.populate dev r virq) = some S' ∧ ∃ xs ds, S.Effect S' L dev xs ds := by
  have hi := hI.dev dev
  obtain ⟨hmd, hcr, hcd, hb32, hhw, hheld⟩ := hI.populate_stage (.inl hpc)
  obtain ⟨⟨k, hk2⟩, hin⟩ : (∃ k, c.nvec = 2 ^ k) ∧ i < c.nvec := by
    have := hi.stage
    rw [hpc] at this
    exact ⟨this.2.2.1, this.2.2.2.2.1⟩
  have hds : ∀ e, e ∈ (S.pc dev).mapped (L dev).2 ↔ e ∈ (L dev).2 := by simp [hpc, Pc.mapped]
  cases r with
  | none =>
    exact ⟨{ S with pc := Function.update S.pc dev (.rollback c i) },
      by simp [Sys.step, hpc, populateStep_noMem], _, _,
      hI.populate_fail hpc rfl rfl rfl rfl rfl rfl⟩
  | some p =>
  obtain ⟨hp0, hfresh⟩ := hk
  by_cases hv : virq = 0
  · subst hv
    obtain ⟨heap, hstep, hmem⟩ := @populateStep_noMap c i p S.s hfresh
    exact ⟨⟨⟨heap, S.s.devs, irqCreateMapping S.s.irq c.domain (c.hwirq i) 0⟩,
      Function.update S.pc dev (.rollback c i), S.blocks⟩, by simp [Sys.step, hpc, hstep], _, _,
      hI.populate_fail hpc hmem rfl (by funext v; simp) rfl rfl rfl⟩
  obtain ⟨heap, hstep, hreg', -, hframe, hdesc, hdescp⟩ :=
    @populateStep_ok c i p virq S.s (L dev).1 (hcr ▸ hi.registry hmd) (hcr ▸ hmd) hp0 hfresh hv
  set irq' := irqCreateMapping S.s.irq c.domain (c.hwirq i) virq with hirq'
  have hhwi : c.hwirq i = c.base + i := AllocCall.hwirq_of_lt hb32 hin
  have howner' : ∀ v, irq'.owner v =
      if v = virq then some (c.domain, c.hwirq i) else S.s.irq.owner v := by
    intro v
    simp [hirq', hv]
  -- `virq` is the virq of no descriptor whose mapping is live
  have hvfree : ∀ d, ∀ e ∈ (S.pc d).mapped (L d).2, e.irq ≠ virq := by
    intro d e he hev
    rcases hmap with h0 | hnone | hsome
    · exact hv h0
    · have := ((hI.dev d).mapped e he).2
      rw [hev, hnone] at this
      exact absurd this (by simp)
    · rw [hcd, hhwi] at hsome
      rcases eq_or_ne d dev with rfl | hd
      · have hmem : e.hwirq ∈ (L d).2.map (·.hwirq) := List.mem_map_of_mem _ ((hds e).mp he)
        rw [hhw, Mapped.eq_of_irq (hI.dev d).mapped he hsome hev] at hmem
        exact add_not_mem_of_nodup (hheld ▸ hI.nodup d) hin hmem
      · exact hI.irq_ne_of_owner hsome (by
          rw [hheld]
          exact List.mem_append_right _ (List.mem_range'_1.mpr ⟨by omega, by omega⟩)) d hd e he hev
  have hpx : p ∉ (L dev).1 := fun hp => by
    simpa [hfresh] using (hi.registry hmd).mem_live p (List.mem_cons_of_mem _ hp)
  have hview : heap.view ((L dev).1 ++ [p]) = ((L dev).2 ++ [c.descAt i virq]).map some := by
    rw [Heap.view_append, Heap.view_congr fun x hx => hdesc x fun h => hpx (h ▸ hx), hi.view,
      List.map_append]
    simp [Heap.view, hdescp]
  have hmapped : Mapped irq'.owner (S.s.devs dev).msiDomain ((L dev).2 ++ [c.descAt i virq]) := by
    intro e he
    rcases List.mem_append.mp he with he | he
    · rw [howner', if_neg (hvfree dev e ((hds e).mpr he))]
      exact hi.mapped e ((hds e).mpr he)
    · rw [List.mem_singleton] at he
      subst he
      simp [AllocCall.descAt, howner', hv, hcd]
  have hhw' : ((L dev).2 ++ [c.descAt i virq]).map (·.hwirq) =
      blockHwirqs (S.blocks dev) ++ List.range' c.base (i + 1) := by
    rw [List.map_append, hhw, List.range'_concat]
    simp [AllocCall.descAt, hhwi]
  have hmem : ∀ q, heap.mem q ≠ S.s.heap.mem q → S.s.heap.mem q = none ∨
      ((S.s.devs dev).msiData ≠ 0 ∧ q ∈ (S.s.devs dev).msiData :: (L dev).1) := by
    intro q hq
    by_cases hqp : q = p
    · exact .inl (hqp ▸ hfresh)
    · refine .inr ⟨hmd, by_contra fun hn => hq (hframe q ?_)⟩
      simp only [List.mem_cons, not_or, hcr] at hn ⊢
      exact ⟨hn.1, hqp, hn.2⟩
  have hvirq : ∀ v, irq'.owner v ≠ S.s.irq.owner v → v = virq :=
    fun v hne => by_contra fun h => hne (by rw [howner', if_neg h])
  have howner : ∀ v, irq'.owner v ≠ S.s.irq.owner v →
      ∀ d, d ≠ dev → ∀ e ∈ (S.pc d).mapped (L d).2, e.irq ≠ v :=
    fun v hne d _ e he => hvirq v hne ▸ hvfree d e he
  -- the one mapping the step changes is that of its new descriptor
  have hnew : ∀ v, irq'.owner v ≠ S.s.irq.owner v →
      ∃ e ∈ (L dev).2 ++ [c.descAt i virq], e.irq = v :=
    fun v hne => ⟨_, List.mem_append_right _ (List.mem_singleton_self _), (hvirq v hne).symm⟩
  have hnodes : ∀ q ∈ (S.s.devs dev).msiData :: ((L dev).1 ++ [p]),
      ((S.s.devs dev).msiData ≠ 0 ∧ q ∈ (S.s.devs dev).msiData :: (L dev).1) ∨
        S.s.heap.mem q = none := by
    intro q hq
    simp only [List.mem_cons, List.mem_append, List.mem_nil_iff, or_false] at hq
    rcases hq with hq | hq | rfl
    · exact .inl ⟨hmd, hq ▸ List.mem_cons_self _ _⟩
    · exact .inl ⟨hmd, List.mem_cons_of_mem _ hq⟩
    · exact .inr hfresh
  have hkeep : ∀ x ∈ (S.pc dev).held (S.blocks dev) (L dev).2,
      irq'.reserved (S.s.devs dev).msiDomain x = true ∧
        (x ∈ (S.pc dev).held (S.blocks dev) (L dev).2 ∨
          S.s.irq.reserved (S.s.devs dev).msiDomain x = false) :=
    fun x hx => ⟨hI.reserved dev x hx, .inl hx⟩
  -- the two ends of the loop differ only in where the call stands and in `dev`'s blocks
  have hEff : ∀ (pc' : Pc) (bs : Nat → List (Nat × Nat)), (∀ d, d ≠ dev → bs d = S.blocks d) →
      pc'.held (bs dev) ((L dev).2 ++ [c.descAt i virq]) = (S.pc dev).held (S.blocks dev) (L dev).2 →
      pc'.mapped ((L dev).2 ++ [c.descAt i virq]) = (L dev).2 ++ [c.descAt i virq] →
      DevInv heap irq'.owner (S.s.devs dev) pc' (bs dev) ((L dev).1 ++ [p])
        ((L dev).2 ++ [c.descAt i virq]) →
      pc'.rank ((L dev).1 ++ [p]) < (S.pc dev).rank (L dev).1 →
      S.Effect ⟨⟨heap, S.s.devs, irq'⟩, Function.update S.pc dev pc', bs⟩ L dev
        ((L dev).1 ++ [p]) ((L dev).2 ++ [c.descAt i virq]) :=
    fun pc' bs hbs hheld' hmapped' hdi hrank => .of_update hI (fun _ _ => rfl) (fun _ => rfl)
      (fun d hd => Function.update_noteq hd _ _) hbs hmem howner
      (fun e x h h' => by simp [hirq', h] at h') (by simpa only [Function.update_same] using hdi)
      (by simpa only [Function.update_same, hheld'] using hI.nodup dev)
      (by simpa only [Function.update_same, hheld'] using hkeep) (fun _ => hnodes)
      (fun _ _ h h' => absurd (h.symm.trans h') (by decide))
      (fun x hx hx' => absurd (by simpa only [Function.update_same, hheld'] using hx) hx')
      (fun v hv => .inr (by simpa [hmapped'] using hnew v hv))
      (fun e he he' => absurd (by simp [hmapped', (hds e).mp he]) he')
      (fun _ => by simpa only [Function.update_same] using hrank)
  by_cases hlast : i + 1 < c.nvec
  · refine ⟨⟨⟨heap, S.s.devs, irq'⟩, Function.update S.pc dev (.populate c (i + 1)), S.blocks⟩,
      by simp only [Sys.step, hpc, hstep, Option.bind_eq_bind, Option.some_bind, if_true, hlast],
      _, _, hEff (.populate c (i + 1)) S.blocks (fun _ _ => rfl) (by rw [hheld]; rfl) rfl ?_
        (by simp only [hpc, Pc.rank]; omega)⟩
    exact ⟨fun _ => hcr ▸ hreg', fun h => absurd h hmd, hview, hi.pow, hmapped,
      ⟨hcr, hcd, ⟨k, hk2⟩, hb32, hlast, hhw'⟩⟩
  · have hn : i + 1 = c.nvec := by omega
    refine ⟨⟨⟨heap, S.s.devs, irq'⟩, Function.update S.pc dev .idle,
      Function.update S.blocks dev (S.blocks dev ++ [(c.base, c.nvec)])⟩,
      by simp only [Sys.step, hpc, hstep, Option.bind_eq_bind, Option.some_bind, if_true, hlast,
        if_false], _, _,
      hEff .idle _ (fun d hd => Function.update_noteq hd _ _) ?_ rfl ?_
        (by simp only [hpc, Pc.rank]; omega)⟩
    · rw [hheld, Function.update_same]
      show ((L dev).2 ++ [c.descAt i virq]).map (·.hwirq) = _
      rw [hhw', hn]
    · simp only [Function.update_same]
      refine ⟨fun _ => hcr ▸ hreg', fun h => absurd h hmd, hview, ?_, hmapped, ?_⟩
      · intro b hb
        rcases List.mem_append.mp hb with hb | hb
        · exact hi.pow b hb
        · rw [List.mem_singleton] at hb
          exact hb ▸ ⟨k, hk2⟩
      · show _ = _
        rw [hhw', blockHwirqs_append, hn]
        simp [blockHwirqs]

/-- One iteration of the cleanup loop of `msi_alloc_vectors`: under the invariant the search
finds the descriptor this call appended last. At the end the range is released. -/
theorem Inv.rollback {c : AllocCall} {j : Nat} (hI : Inv S L) (hpc : S.pc dev = .rollback c j) :
    ∃ S', S.step (.rollback dev) = some S' ∧ ∃ xs ds, S.Effect S' L dev xs ds := by
  have hi := hI.dev dev
  obtain ⟨hmd, hcr, hcd, hb32, hhw, hheld⟩ := hI.populate_stage (.inr hpc)
  have hjn : j ≤ c.nvec := by
    have := hi.stage
    rw [hpc] at this
    exact this.2.2.2.1
  have hnd := hI.nodup dev
  rw [hheld] at hnd
  have hds : ∀ e, e ∈ (S.pc dev).mapped (L dev).2 ↔ e ∈ (L dev).2 := by simp [hpc, Pc.mapped]
  cases j with
  | zero =>
    rw [List.range'_zero, List.append_nil] at hhw
    have hheld' : (Pc.idle).held (S.blocks dev) (L dev).2 = blockHwirqs (S.blocks dev) := hhw
    refine ⟨⟨⟨S.s.heap, S.s.devs, irqDomainFreeHwirqRange S.s.irq c.domain c.base c.nvec⟩,
      Function.update S.pc dev .idle, S.blocks⟩, by simp only [Sys.step, hpc], (L dev).1, (L dev).2,
      .of_update hI (fun _ _ => rfl) (fun _ => rfl) (fun d hd => Function.update_noteq hd _ _)
        (fun _ _ => rfl) (fun _ hq => absurd rfl hq) (fun _ hv => absurd rfl hv)
        (fun e x h h' => ?_) ?_ ?_ (fun x hx => ?_) (fun _ q hq => .inl ⟨hmd, hq⟩)
        (fun e x h h' => by simp [irqDomainFreeHwirqRange, h] at h') (fun x hx hx' => ?_)
        (fun _ h => absurd rfl h)
        (fun e he he' => absurd (by simpa [Pc.mapped] using (hds e).mp he) he')
        (fun _ => by simp only [Function.update_same, hpc, Pc.rank]; omega)⟩
    · obtain ⟨-, rfl, h₁, h₂⟩ := irqDomainFreeHwirqRange_reserved_ne fun hne =>
        Bool.false_ne_true (h'.symm.trans (hne.trans h))
      rw [hheld, ← hcd]
      exact ⟨rfl, List.mem_append_right _ (List.mem_range'_1.mpr ⟨h₁, h₂⟩)⟩
    · simp only [Function.update_same]
      exact ⟨hi.registry, fun h => absurd h hmd, hi.view, hi.pow,
        fun e he => hi.mapped e ((hds e).mpr he), hhw⟩
    · simpa only [Function.update_same, hheld'] using hnd.sublist (List.sublist_append_left _ _)
    · simp only [Function.update_same, hheld'] at hx
      have hxh : x ∈ (S.pc dev).held (S.blocks dev) (L dev).2 :=
        hheld ▸ List.mem_append_left _ hx
      have hout : x ∉ List.range' c.base c.nvec := List.disjoint_of_nodup_append hnd hx
      rw [List.mem_range'_1, not_and_or, not_le, not_lt] at hout
      refine ⟨?_, .inl hxh⟩
      simp only [irqDomainFreeHwirqRange, hI.reserved dev x hxh, Bool.true_and, Bool.not_eq_true',
        Bool.and_eq_false_imp, beq_iff_eq, decide_eq_false_iff_not, not_and_or, not_le, not_lt]
      exact fun _ => hout
    · rw [hheld, List.mem_append] at hx
      obtain ⟨h₁, h₂⟩ := List.mem_range'_1.mp
        (hx.resolve_left fun h => hx' (by simpa only [Function.update_same, hheld'] using h))
      exact hcd ▸ irqDomainFreeHwirqRange_reserved_self h₁ h₂
  | succ i =>
    have hin : i < c.nvec := by omega
    have hhwi : c.hwirq i = c.base + i := AllocCall.hwirq_of_lt hb32 hin
    have hnot : c.base + i ∉ blockHwirqs (S.blocks dev) ++ List.range' c.base i :=
      add_not_mem_of_nodup hnd hin
    rw [List.range'_concat, ← List.append_assoc] at hhw
    have hreg := hcr ▸ hi.registry hmd
    rcases rollbackStep_spec i hreg with ⟨-, hno⟩ | ⟨mid, y, post, dy, heap, hxs, -, hy, hyt, hrm, hstep⟩
    · -- the descriptor with hwirq `hwirq_base + i` is in the registry
      have : c.base + i ∈ (L dev).2.map (·.hwirq) := by simp [hhw]
      obtain ⟨e, he, hew⟩ := List.mem_map.mp this
      obtain ⟨x, hx, d, hd, rfl⟩ := Heap.exists_of_mem_view hi.view he
      exact absurd (by rw [hhwi, ← hew]; rfl) (hno x hx d hd)
    obtain ⟨ds₁, ds₂, hds₁, hv₁, hv₂⟩ := Heap.view_split (hxs ▸ hi.view) hy
    have hsplit := hhw
    rw [hds₁, List.map_append, List.map_cons, MsiDesc.erase_hwirq, hyt, hhwi] at hsplit
    obtain ⟨hhw₁, hnil⟩ := eq_of_append_singleton hnot (by simpa using hsplit.symm)
    rw [List.map_eq_nil_iff] at hnil
    subst hnil
    have hpost : post = [] := by simpa [Heap.view] using hv₂
    subst hpost
    obtain ⟨heap', hrm', hreg', -, -, hframe, hdesc⟩ := removeDesc_spec (hxs ▸ hreg)
    rw [hrm] at hrm'
    cases hrm'
    have hdy : dy.erase ∈ (L dev).2 := by simp [hds₁]
    have hdym := hi.mapped dy.erase ((hds _).mpr hdy)
    simp only [MsiDesc.erase_irq, MsiDesc.erase_hwirq, hyt, hhwi] at hdym
    have hyx : y ∉ mid := fun h => List.disjoint_of_nodup_append
      (List.nodup_cons.mp (hxs ▸ hreg.nodup)).2 h (List.mem_singleton_self y)
    have hkeep : ∀ e ∈ ds₁, e.irq ≠ dy.irq := fun e he hirq => hnot (by
      rw [← hhw₁, ← Mapped.eq_of_irq hi.mapped ((hds e).mpr (by simp [hds₁, he])) hdym.2 hirq]
      exact List.mem_map_of_mem _ he)
    refine ⟨⟨⟨heap, S.s.devs, irqDisposeMapping S.s.irq dy.irq⟩,
      Function.update S.pc dev (.rollback c i), S.blocks⟩,
      by simp only [Sys.step, hpc, hstep, Option.bind_eq_bind, Option.some_bind], mid, ds₁,
      .of_update hI (fun _ _ => rfl) (fun _ => rfl) (fun d hd => Function.update_noteq hd _ _)
        (fun _ _ => rfl) (fun q hq => ?_) (fun v hv => ?_)
        (fun e x h h' => absurd (h.symm.trans h') (by decide)) ?_ ?_ (fun x hx => ?_) ?_
        (fun _ _ h h' => absurd (h.symm.trans h') (by decide))
        (fun x hx hx' => absurd (by simpa only [Function.update_same, hpc, Pc.held] using hx) hx')
        (fun _ hv => .inl (irqDisposeMapping_owner_eq_none hv)) (fun e he he' => ?_)
        (fun _ => by simp only [Function.update_same, hpc, Pc.rank]; omega)⟩
    · refine .inr ⟨hmd, by_contra fun hn => hq (hframe q ?_)⟩
      rw [hcr, ← hxs]
      exact hn
    · have : v = dy.irq := by_contra fun h => hv (by simp [h])
      subst this
      exact hI.irq_ne_of_owner hdym.2 (by
        rw [hheld]
        exact List.mem_append_right _ (List.mem_range'_1.mpr ⟨Nat.le_add_right _ _,
          Nat.add_lt_add_left hin _⟩))
    · simp only [Function.update_same]
      refine ⟨fun _ => hcr ▸ (by simpa using hreg'), fun h => absurd h hmd, ?_, hi.pow, ?_,
        ⟨hcr, hcd, hb32, by omega, hhw₁⟩⟩
      · rw [Heap.view_congr fun x hx => hdesc x fun h => hyx (h ▸ hx), hv₁]
      · intro e he
        simp only [Pc.mapped] at he
        rw [irqDisposeMapping_owner, if_neg (hkeep e he)]
        exact hi.mapped e ((hds e).mpr (by simp [hds₁, he]))
    · have : (Pc.rollback c i).held (S.blocks dev) ds₁ =
          blockHwirqs (S.blocks dev) ++ List.range' c.base c.nvec := rfl
      simpa only [Function.update_same, this] using hnd
    · simp only [Function.update_same] at hx
      have hx' : x ∈ (S.pc dev).held (S.blocks dev) (L dev).2 := by rw [hheld]; exact hx
      exact ⟨hI.reserved dev x hx', .inl hx'⟩
    · exact fun _ q hq => .inl ⟨hmd, List.cons_subset_cons _ (hxs ▸ List.subset_append_left _ _) hq⟩
    · -- the descriptor the step removes is the one whose mapping it disposes of
      have he₁ := (hds e).mp he
      rw [hds₁, List.mem_append, List.mem_singleton] at he₁
      rcases he₁ with he₁ | rfl
      · exact absurd (by simpa [Pc.mapped] using he₁) he'
      · simp

/-- The checks of `msi_free_vectors` and its read of the sentinel's `next`. -/
theorem Inv.freeStart (hI : Inv S L) (hpc : S.pc dev = .idle) :
    ∃ S', S.step (.freeStart dev) = some S' ∧ ∃ xs ds, S.Effect S' L dev xs ds := by
  have hi := hI.dev dev
  by_cases hg : dev = 0 ∨ (S.s.devs dev).msiData = 0 ∨ (S.s.devs dev).msiDomain = 0
  · exact ⟨S, by simp [Sys.step, hpc, ProtoKernel.Irq.freeStart, hg], _, _, .refl hI hpc⟩
  have hmd : (S.s.devs dev).msiData ≠ 0 := fun h => hg (.inr (.inl h))
  have hheld : ∀ c desc, (Pc.freeWalk c desc).held (S.blocks dev) (L dev).2 =
      (S.pc dev).held (S.blocks dev) (L dev).2 := by
    intro c desc
    rw [hpc]
    rfl
  refine ⟨{ S with pc := Function.update S.pc dev (.freeWalk ⟨(S.s.devs dev).msiDomain,
    (S.s.devs dev).msiData⟩ ((L dev).1.headD (S.s.devs dev).msiData)) },
    by simp [Sys.step, hpc, ProtoKernel.Irq.freeStart, hg, (hi.registry hmd).sentinel_link],
    (L dev).1, (L dev).2, .quiet (@Inv.update S _ L dev (L dev).1 (L dev).2 hI (fun _ _ => rfl) rfl
      (fun d hd => Function.update_noteq hd _ _) (fun _ _ => rfl) (fun _ hq => absurd rfl hq)
      (fun _ hv => absurd rfl hv) (fun e x h h' => absurd (h.symm.trans h') (by decide)) ?_ ?_ ?_
      (fun _ q hq => .inl ⟨hmd, hq⟩)) (fun _ => rfl) (fun _ _ => rfl)
    (fun d hd => Function.update_noteq hd _ _) (fun _ _ => rfl) rfl rfl
    (by simp only [Function.update_same, hheld]) (by simp only [Function.update_same, hpc]; rfl)
    (fun h => absurd hpc h)⟩
  · simp only [Function.update_same]
    exact ⟨hi.registry, fun h => absurd h hmd, hi.view, hi.pow,
      by simpa [hpc, Pc.mapped] using hi.mapped, ⟨rfl, rfl, rfl⟩⟩
  · simpa only [Function.update_same, hheld] using hI.nodup dev
  · intro x hx
    simp only [Function.update_same, hheld] at hx
    exact ⟨hI.reserved dev x hx, .inl hx⟩

/-- The head of an iteration of `msi_free_vectors`: at the sentinel the call is over, otherwise
it disposes of the mapping of the first descriptor. -/
theorem Inv.freeWalk {c : FreeCall} {desc : Nat} (hI : Inv S L)
    (hpc : S.pc dev = .freeWalk c desc) :
    ∃ S', S.step (.freeWalk dev) = some S' ∧ ∃ xs ds, S.Effect S' L dev xs ds := by
  have hi := hI.dev dev
  have hmd : (S.s.devs dev).msiData ≠ 0 := hI.msiData_ne_zero (by simp [hpc])
  obtain ⟨hcr, hcd, hdesc⟩ : c.msiData = (S.s.devs dev).msiData ∧
      c.domain = (S.s.devs dev).msiDomain ∧ desc = (L dev).1.headD (S.s.devs dev).msiData := by
    have := hi.stage
    rw [hpc] at this
    exact this
  have hheld : (S.pc dev).held (S.blocks dev) (L dev).2 = (L dev).2.map (·.hwirq) := by rw [hpc]; rfl
  have hreg := hcr ▸ hi.registry hmd
  cases hxs : (L dev).1 with
  | nil =>
    have hds0 : (L dev).2 = [] := by
      have := hi.view
      rw [hxs, Heap.view_nil] at this
      exact List.map_eq_nil_iff.mp this.symm
    rw [hxs, List.headD_nil, ← hcr] at hdesc
    refine ⟨⟨S.s, Function.update S.pc dev .idle, Function.update S.blocks dev []⟩,
      by simp [Sys.step, hpc, freeWalkStep, hdesc], (L dev).1, (L dev).2,
      .quiet (@Inv.update S _ L dev (L dev).1 (L dev).2 hI (fun _ _ => rfl) rfl
        (fun d hd => Function.update_noteq hd _ _) (fun d hd => Function.update_noteq hd _ _)
        (fun _ hq => absurd rfl hq) (fun _ hv => absurd rfl hv)
        (fun e x h h' => absurd (h.symm.trans h') (by decide)) ?_ (by simp [Pc.held, hds0])
        (by simp [Pc.held, hds0]) (fun _ q hq => .inl ⟨hmd, hq⟩)) (fun _ => rfl) (fun _ _ => rfl)
      (fun d hd => Function.update_noteq hd _ _) (fun d hd => Function.update_noteq hd _ _) rfl rfl
      (by simp [hpc, Pc.held, hds0]) (by simp [hpc, Pc.mapped])
      (fun _ => by simp only [Function.update_same, hpc, Pc.rank]; omega)⟩
    simp only [Function.update_same]
    exact ⟨hi.registry, fun h => absurd h hmd, hi.view, by simp, by simp [Pc.mapped, Mapped, hds0],
      by simp [Pc.Stage, hds0]⟩
  | cons x rest =>
    rw [hxs, List.headD_cons] at hdesc
    subst hdesc
    rw [hxs] at hreg
    obtain ⟨d, hd⟩ := hreg.descs desc (List.mem_cons_self _ _)
    have hv := hi.view
    rw [hxs, Heap.view_cons_of_desc _ hd] at hv
    obtain ⟨ds', hds'⟩ : ∃ ds', (L dev).2 = d.erase :: ds' := by
      cases h : (L dev).2 with
      | nil => rw [h] at hv; simp at hv
      | cons e ds' =>
        rw [h, List.map_cons, List.cons.injEq, Option.some.injEq] at hv
        exact ⟨ds', by rw [hv.1]⟩
    have hdm := hi.mapped d.erase (by simp [hpc, Pc.mapped, hds'])
    simp only [MsiDesc.erase_irq, MsiDesc.erase_hwirq] at hdm
    have hstep := freeWalkStep_cons hreg hd
    rw [if_pos hdm.1] at hstep
    have hnd := hI.nodup dev
    rw [hheld, hds', List.map_cons, List.nodup_cons] at hnd
    have hheld' : (Pc.freeRelease c desc (rest.headD c.msiData)).held (S.blocks dev) (L dev).2 =
        (S.pc dev).held (S.blocks dev) (L dev).2 := by rw [hpc]; rfl
    refine ⟨⟨⟨S.s.heap, S.s.devs, irqDisposeMapping S.s.irq d.irq⟩,
      Function.update S.pc dev (.freeRelease c desc (rest.headD c.msiData)), S.blocks⟩,
      by simp only [Sys.step, hpc, hstep, Option.bind_eq_bind, Option.some_bind], (L dev).1, (L dev).2,
      .of_update hI (fun _ _ => rfl) (fun _ => rfl) (fun d hd => Function.update_noteq hd _ _)
        (fun _ _ => rfl) (fun _ hq => absurd rfl hq) (fun v hv' => ?_)
        (fun e x h h' => absurd (h.symm.trans h') (by decide)) ?_ ?_ ?_
        (fun _ q hq => .inl ⟨hmd, hq⟩) (fun _ _ h h' => absurd (h.symm.trans h') (by decide))
        (fun x hx hx' => absurd (by simpa only [Function.update_same, hheld'] using hx) hx')
        (fun _ hv => .inl (irqDisposeMapping_owner_eq_none hv)) (fun e he he' => ?_)
        (fun _ => by simp only [Function.update_same, hpc, hxs, Pc.rank]; omega)⟩
    · have : v = d.irq := by_contra fun h => hv' (by simp [h])
      subst this
      exact hI.irq_ne_of_owner hdm.2 (by rw [hheld, hds']; exact List.mem_cons_self _ _)
    · simp only [Function.update_same]
      refine ⟨hi.registry, fun h => absurd h hmd, hi.view, hi.pow, fun e he => ?_,
        ⟨hcr, hcd, rest, hxs, by rw [hcr]⟩⟩
      simp only [Pc.mapped, hds', List.tail_cons] at he
      have hne : e.irq ≠ d.irq := fun h => hnd.1 (by
        show d.hwirq ∈ _
        rw [← Mapped.eq_of_irq hi.mapped (by simp [hpc, Pc.mapped, hds', he]) hdm.2 h]
        exact List.mem_map_of_mem _ he)
      rw [irqDisposeMapping_owner, if_neg hne]
      exact hi.mapped e (by simp [hpc, Pc.mapped, hds', he])
    · simpa only [Function.update_same, hheld'] using hI.nodup dev
    · intro x hx
      have hx' : x ∈ (S.pc dev).held (S.blocks dev) (L dev).2 := by
        simpa only [Function.update_same, hheld'] using hx
      exact ⟨hI.reserved dev x hx', .inl hx'⟩
    · -- the mapping disposed of is that of the first descriptor, which leaves the view
      have he₁ : e ∈ (L dev).2 := by simpa [hpc, Pc.mapped] using he
      rw [hds', List.mem_cons] at he₁
      rcases he₁ with rfl | he₁
      · simp
      · exact absurd (by simpa [Pc.mapped, hds'] using he₁) he'

/-- The rest of an iteration of `msi_free_vectors`: release the hwirq of the first descriptor
and remove it. -/
theorem Inv.freeRelease {c : FreeCall} {desc next : Nat} (hI : Inv S L)
    (hpc : S.pc dev = .freeRelease c desc next) :
    ∃ S', S.step (.freeRelease dev) = some S' ∧ ∃ xs ds, S.Effect S' L dev xs ds := by
  have hi := hI.dev dev
  have hmd : (S.s.devs dev).msiData ≠ 0 := hI.msiData_ne_zero (by simp [hpc])
  obtain ⟨hcr, hcd, rest, hxs, hnext⟩ : c.msiData = (S.s.devs dev).msiData ∧
      c.domain = (S.s.devs dev).msiDomain ∧ ∃ rest, (L dev).1 = desc :: rest ∧
        next = rest.headD (S.s.devs dev).msiData := by
    have := hi.stage
    rw [hpc] at this
    exact this
  have hheld : (S.pc dev).held (S.blocks dev) (L dev).2 = (L dev).2.map (·.hwirq) := by rw [hpc]; rfl
  have hreg := hcr ▸ hi.registry hmd
  rw [hxs] at hreg
  obtain ⟨d, hd⟩ := hreg.descs desc (List.mem_cons_self _ _)
  have hv := hi.view
  rw [hxs, Heap.view_cons_of_desc _ hd] at hv
  obtain ⟨ds', hds', hv'⟩ : ∃ ds', (L dev).2 = d.erase :: ds' ∧ S.s.heap.view rest = ds'.map some := by
    cases h : (L dev).2 with
    | nil => rw [h] at hv; simp at hv
    | cons e ds' =>
      rw [h, List.map_cons, List.cons.injEq, Option.some.injEq] at hv
      exact ⟨ds', by rw [hv.1], hv.2⟩
  have hnd := hI.nodup dev
  rw [hheld, hds', List.map_cons, List.nodup_cons] at hnd
  have hdx : desc ∉ rest := (List.nodup_cons.mp (List.nodup_cons.mp hreg.nodup).2).1
  obtain ⟨heap, hstep, hreg', -, hframe, hdesc⟩ :=
    @freeReleaseStep_cons c desc rest d S.s.heap S.s.devs S.s.irq hreg hd
  refine ⟨⟨⟨heap, S.s.devs, irqDomainFreeHwirqRange S.s.irq c.domain d.hwirq 1⟩,
    Function.update S.pc dev (.freeWalk c next), S.blocks⟩,
    by simp only [Sys.step, hpc, hstep, Option.bind_eq_bind, Option.some_bind], rest, ds',
    .of_update hI (fun _ _ => rfl) (fun _ => rfl) (fun d hd => Function.update_noteq hd _ _)
      (fun _ _ => rfl) (fun q hq => ?_) (fun _ hv => absurd rfl hv) (fun e x h h' => ?_) ?_ ?_
      (fun x hx => ?_) (fun _ q hq => ?_)
      (fun e x h h' => by simp [irqDomainFreeHwirqRange, h] at h') (fun x hx hx' => ?_)
      (fun _ h => absurd rfl h) (fun e he he' => absurd (by simpa [hpc, Pc.mapped, hds'] using he) he')
      (fun _ => by simp only [Function.update_same, hpc, hxs, Pc.rank, List.length_cons]; omega)⟩
  · refine .inr ⟨hmd, by_contra fun hn => hq (hframe q ?_)⟩
    rwa [hcr, ← hxs]
  · obtain ⟨-, rfl, h₁, h₂⟩ := irqDomainFreeHwirqRange_reserved_ne fun hne =>
      Bool.false_ne_true (h'.symm.trans (hne.trans h))
    refine ⟨hcd, ?_⟩
    rw [hheld, hds', show x = d.hwirq by omega]
    exact List.mem_cons_self _ _
  · simp only [Function.update_same]
    refine ⟨fun _ => hcr ▸ hreg', fun h => absurd h hmd, ?_, hi.pow, ?_, ⟨hcr, hcd, hnext⟩⟩
    · rw [Heap.view_congr fun x hx => hdesc x fun h => hdx (h ▸ hx), hv']
    · intro e he
      exact hi.mapped e (by simpa [hpc, Pc.mapped, hds'] using he)
  · simpa only [Function.update_same] using hnd.2
  · simp only [Function.update_same] at hx
    have hx' : x ∈ (S.pc dev).held (S.blocks dev) (L dev).2 := by
      rw [hheld, hds']
      exact List.mem_cons_of_mem _ hx
    have hne : x ≠ d.hwirq := fun h => hnd.1 (h ▸ hx)
    refine ⟨?_, .inl hx'⟩
    simp only [irqDomainFreeHwirqRange, hI.reserved dev x hx', Bool.true_and, Bool.not_eq_true',
      Bool.and_eq_false_imp, beq_iff_eq, decide_eq_false_iff_not]
    intro _
    omega
  · exact .inl ⟨hmd, List.cons_subset_cons _ (hxs ▸ List.subset_cons_self _ _) hq⟩
  · -- the hwirq of the removed descriptor is given back
    have hx₁ : x ∈ d.hwirq :: ds'.map (·.hwirq) := by rwa [hheld, hds', List.map_cons] at hx
    rcases List.mem_cons.mp hx₁ with rfl | hx₁
    · exact hcd ▸ irqDomainFreeHwirqRange_reserved_self le_rfl (Nat.lt_succ_self _)
    · exact absurd (by simpa only [Function.update_same] using hx₁) hx'

end Steps

/-- Read the successor of a step off a lemma that says the step succeeds. -/
theorem Sys.of_step {S S' : Sys} {a : Act} {P : Sys → Prop} (hs : S.step a = some S')
    (h : ∃ S'', S.step a = some S'' ∧ P S'') : P S' := by
  obtain ⟨S'', h₁, h₂⟩ := h
  rw [hs, Option.some.injEq] at h₁
  exact h₁ ▸ h₂

/-- A step succeeds only as the next step of its device. -/
theorem Sys.next_of_step {S S' : Sys} {a : Act} (hs : S.step a = some S') : S.Next a := by
  cases a with
  | init dev r | allocStart dev lo hi flags r | freeStart dev =>
    simp only [Sys.step] at hs
    split at hs
    · assumption
    · cases hs
  | _ dev =>
    cases hpc : S.pc dev <;> simp only [Sys.step, hpc, reduceCtorEq] at hs
    first | exact ⟨_, _, hpc⟩ | exact ⟨_, _, _, hpc⟩

section Runs

variable {S : Sys} {L : Nat → List Nat × List MsiDesc}

/-- The next step of a device within the contracts succeeds, with the effect of a step. -/
theorem Inv.effect {a : Act} (hI : Inv S L) (hn : S.Next a) (ha : S.Allowed a) :
    ∃ S', S.step a = some S' ∧ ∃ xs ds, S.Effect S' L a.dev xs ds := by
  cases a with
  | init dev r => exact hI.init hn.1 hn.2 ha
  | allocStart dev lo hi flags range => exact hI.allocStart hn ha
  | populate dev r virq =>
    obtain ⟨c, i, hpc⟩ := hn
    exact hI.populate hpc ha.1 (ha.2 c i hpc)
  | rollback dev =>
    obtain ⟨c, i, hpc⟩ := hn
    exact hI.rollback hpc
  | freeStart dev => exact hI.freeStart hn
  | freeWalk dev =>
    obtain ⟨c, desc, hpc⟩ := hn
    exact hI.freeWalk hpc
  | freeRelease dev =>
    obtain ⟨c, desc, next, hpc⟩ := hn
    exact hI.freeRelease hpc

/-- Every step within the contracts has the effect of a step. -/
theorem Inv.stepEffect {a : Act} {S' : Sys} (hI : Inv S L) (ha : S.Allowed a)
    (hs : S.step a = some S') : ∃ xs ds, S.Effect S' L a.dev xs ds :=
  Sys.of_step hs (hI.effect (Sys.next_of_step hs) ha)

/-- The next step of a device within the contracts succeeds, keeps the invariant, and keeps
the domain of every device. -/
theorem Inv.next {a : Act} (hI : Inv S L) (hn : S.Next a) (ha : S.Allowed a) :
    ∃ S', S.step a = some S' ∧
      (∀ d, (S'.s.devs d).msiDomain = (S.s.devs d).msiDomain) ∧ ∃ L', Inv S' L' :=
  let ⟨S', hs, _, _, he⟩ := hI.effect hn ha
  ⟨S', hs, he.domain, _, he.inv⟩

/-- Every step within the contracts keeps the invariant and the domain of every device. -/
theorem Inv.step {a : Act} {S' : Sys} (hI : Inv S L) (ha : S.Allowed a)
    (hs : S.step a = some S') :
    (∀ d, (S'.s.devs d).msiDomain = (S.s.devs d).msiDomain) ∧ ∃ L', Inv S' L' :=
  let ⟨_, _, he⟩ := hI.stepEffect ha hs
  ⟨he.domain, _, he.inv⟩

/-- Before any call the invariant holds with empty registries. -/
theorem Inv.start (heap : Heap) (domain : Nat → Nat) (irq : IrqCore) :
    Inv (Sys.start heap domain irq) fun _ => ([], []) := by
  refine ⟨fun _ => ⟨fun h => (h rfl).elim, fun _ => ⟨rfl, rfl, rfl⟩, rfl, ?_, ?_, ?_⟩,
    fun _ => List.nodup_nil, ?_, ?_, fun _ _ _ h => (h rfl).elim⟩ <;>
  simp [Sys.start, Mapped, Pc.mapped, Pc.Stage, Pc.held]

variable {heap : Heap} {domain : Nat → Nat} {irq : IrqCore}

/-- Every reachable system satisfies the invariant, every device in its starting domain. -/
theorem Reachable.inv (hr : Reachable (Sys.start heap domain irq) S) :
    (∀ d, (S.s.devs d).msiDomain = domain d) ∧ ∃ L, Inv S L := by
  induction hr with
  | start => exact ⟨fun _ => rfl, _, Inv.start heap domain irq⟩
  | step _ ha hs ih =>
    obtain ⟨hdom, L, hI⟩ := ih
    obtain ⟨hdom', hI'⟩ := hI.step ha hs
    exact ⟨fun d => (hdom' d).trans (hdom d), hI'⟩

/-- The end of a run within the contracts from a reachable system is reachable. -/
theorem Sys.Busy.reachable {S₀ S' : Sys} {dev n : Nat} (hb : S.Busy dev n S')
    (hr : Reachable S₀ S) : Reachable S₀ S' := by
  induction hb with
  | refl => exact hr
  | other _ ha hs _ ih | own _ _ ha hs _ ih => exact ih (hr.step ha hs)

/-- Runs in which `dev` takes no step compose. -/
theorem Sys.Busy.append {S₁ S' : Sys} {dev n : Nat} (hb : S.Busy dev 0 S₁)
    (hb' : S₁.Busy dev n S') : S.Busy dev n S' := by
  generalize h0 : 0 = m at hb
  induction hb with
  | refl => exact hb'
  | other hd ha hs _ ih => exact .other hd ha hs (ih hb' h0)
  | own => omega

/-- Along a run in which `dev` takes no step, from a system with the invariant, `dev` keeps its
fields and its call. -/
theorem Sys.Busy.frame {S' : Sys} {dev n : Nat} (hb : S.Busy dev n S') (h0 : n = 0)
    (hI : Inv S L) : S'.s.devs dev = S.s.devs dev ∧ S'.pc dev = S.pc dev := by
  induction hb generalizing L with
  | refl => exact ⟨rfl, rfl⟩
  | other hd ha hs _ ih =>
    obtain ⟨xs, ds, E⟩ := hI.stepEffect ha hs
    obtain ⟨h₁, h₂⟩ := ih h0 E.inv
    exact ⟨h₁.trans (E.devs _ (Ne.symm hd)), h₂.trans (E.pc _ (Ne.symm hd))⟩
  | own => omega

/-! ## A run of two devices of one domain -/

/-- Devices `1` and `2` in domain `7`, whose hwirq `9` is reserved and mapped by virq `3`
before any call. -/
def twoDeviceStart : Sys :=
  Sys.start Heap.empty (fun d => if d = 1 ∨ d = 2 then 7 else 0)
    ⟨fun e h => e == 7 && h == 9, fun v => if v = 3 then some (7, 9) else none, []⟩

/-- Both devices after `msi_device_init`, their sentinels at `10` and `11`. -/
def twoDeviceInit : Sys :=
  (twoDeviceStart.steps [.init 1 (some 10), .init 2 (some 11)]).getD twoDeviceStart

/-- Device `1` inside `msi_alloc_vectors(dev, 2, 2, 0)`: its range `0, 1` is reserved and
descriptor `20` (hwirq `0`, virq `5`) is listed. Device `2` has reserved hwirq `2` for its own
call and listed nothing yet. -/
def twoDeviceMidAlloc : Sys :=
  (twoDeviceInit.steps [.allocStart 1 2 2 0 (some 0), .populate 1 (some 20) 5,
    .allocStart 2 1 1 0 (some 2)]).getD twoDeviceInit

/-- Both calls returned: device `1` lists `20, 21` (hwirqs `0, 1`, virqs `5, 6`) and device
`2` lists `22` (hwirq `2`, virq `7`). -/
def twoDeviceAlloc : Sys :=
  (twoDeviceMidAlloc.steps [.populate 1 (some 21) 6, .populate 2 (some 22) 7]).getD
    twoDeviceMidAlloc

/-- Device `1` inside `msi_free_vectors`, after the `irq_dispose_mapping` of virq `5` and before
descriptor `20` is unlinked. -/
def twoDeviceMidFree : Sys :=
  (twoDeviceAlloc.steps [.freeStart 1, .freeWalk 1]).getD twoDeviceAlloc

/-- Both devices after their `msi_free_vectors`. -/
def twoDeviceFreed : Sys :=
  (twoDeviceMidFree.steps [.freeRelease 1, .freeWalk 1, .freeRelease 1, .freeWalk 1,
    .freeStart 2, .freeWalk 2, .freeRelease 2, .freeWalk 2]).getD twoDeviceMidFree

section TwoDevices

variable {d : Nat}

theorem twoDeviceInit_busy (h₁ : d ≠ 1) (h₂ : d ≠ 2) : twoDeviceStart.Busy d 0 twoDeviceInit :=
  .other (a := .init 1 (some 10)) h₁.symm ⟨by decide, rfl⟩ rfl <|
  .other (a := .init 2 (some 11)) h₂.symm ⟨by decide, rfl⟩ rfl <| .refl _

/-- The range `0, 1` of device `1` is free in domain `7`. -/
theorem twoDeviceInit_allocStart_ok : twoDeviceInit.Allowed (.allocStart 1 2 2 0 (some 0)) :=
  ⟨by decide, fun h _ hh => by
    obtain rfl | rfl : h = 0 ∨ h = 1 := by change h < 0 + 2 at hh; omega
    all_goals rfl⟩

theorem twoDeviceMidAlloc_busy (h₁ : d ≠ 1) (h₂ : d ≠ 2) :
    twoDeviceInit.Busy d 0 twoDeviceMidAlloc :=
  .other (a := .allocStart 1 2 2 0 (some 0)) h₁.symm twoDeviceInit_allocStart_ok rfl <|
  .other (a := .populate 1 (some 20) 5) h₁.symm
    ⟨⟨by decide, rfl⟩, fun _ _ _ => .inr (.inl rfl)⟩ rfl <|
  .other (a := .allocStart 2 1 1 0 (some 2)) h₂.symm ⟨by decide, fun h _ hh => by
    obtain rfl : h = 2 := by change h < 2 + 1 at hh; omega
    rfl⟩ rfl <| .refl _

theorem twoDeviceAlloc_busy (h₁ : d ≠ 1) (h₂ : d ≠ 2) :
    twoDeviceMidAlloc.Busy d 0 twoDeviceAlloc :=
  .other (a := .populate 1 (some 21) 6) h₁.symm
    ⟨⟨by decide, rfl⟩, fun _ _ _ => .inr (.inl rfl)⟩ rfl <|
  .other (a := .populate 2 (some 22) 7) h₂.symm
    ⟨⟨by decide, rfl⟩, fun _ _ _ => .inr (.inl rfl)⟩ rfl <| .refl _

theorem twoDeviceMidFree_busy (h₁ : d ≠ 1) : twoDeviceAlloc.Busy d 0 twoDeviceMidFree :=
  .other (a := .freeStart 1) h₁.symm trivial rfl <|
  .other (a := .freeWalk 1) h₁.symm trivial rfl <| .refl _

theorem twoDeviceFreed_busy (h₁ : d ≠ 1) (h₂ : d ≠ 2) :
    twoDeviceMidFree.Busy d 0 twoDeviceFreed :=
  .other (a := .freeRelease 1) h₁.symm trivial rfl <|
  .other (a := .freeWalk 1) h₁.symm trivial rfl <|
  .other (a := .freeRelease 1) h₁.symm trivial rfl <|
  .other (a := .freeWalk 1) h₁.symm trivial rfl <|
  .other (a := .freeStart 2) h₂.symm trivial rfl <|
  .other (a := .freeWalk 2) h₂.symm trivial rfl <|
  .other (a := .freeRelease 2) h₂.symm trivial rfl <|
  .other (a := .freeWalk 2) h₂.symm trivial rfl <| .refl _

/-- A device other than `1` and `2` ends the run as it started it. -/
theorem twoDeviceFreed_other (h₁ : d ≠ 1) (h₂ : d ≠ 2) :
    twoDeviceFreed.s.devs d = twoDeviceStart.s.devs d ∧ twoDeviceFreed.pc d = .idle :=
  ((twoDeviceInit_busy h₁ h₂).append <| (twoDeviceMidAlloc_busy h₁ h₂).append <|
    (twoDeviceAlloc_busy h₁ h₂).append <| (twoDeviceMidFree_busy h₁).append <|
    twoDeviceFreed_busy h₁ h₂).frame rfl (Inv.start _ _ _)

end TwoDevices

theorem twoDeviceInit_reachable : Reachable twoDeviceStart twoDeviceInit :=
  (twoDeviceInit_busy (d := 0) (by decide) (by decide)).reachable .start

theorem twoDeviceMidAlloc_reachable : Reachable twoDeviceStart twoDeviceMidAlloc :=
  (twoDeviceMidAlloc_busy (d := 0) (by decide) (by decide)).reachable twoDeviceInit_reachable

theorem twoDeviceAlloc_reachable : Reachable twoDeviceStart twoDeviceAlloc :=
  (twoDeviceAlloc_busy (d := 0) (by decide) (by decide)).reachable twoDeviceMidAlloc_reachable

theorem twoDeviceMidFree_reachable : Reachable twoDeviceStart twoDeviceMidFree :=
  (twoDeviceMidFree_busy (d := 0) (by decide)).reachable twoDeviceAlloc_reachable

theorem twoDeviceFreed_reachable : Reachable twoDeviceStart twoDeviceFreed :=
  (twoDeviceFreed_busy (d := 0) (by decide) (by decide)).reachable twoDeviceMidFree_reachable

/-- No call faults: in a reachable system the next step of a device, whatever the environment
returns within the contracts, succeeds. -/
theorem Reachable.step_ok {a : Act} (hr : Reachable (Sys.start heap domain irq) S)
    (hn : S.Next a) (ha : S.Allowed a) : ∃ S', S.step a = some S' := by
  obtain ⟨-, L, hI⟩ := hr.inv
  obtain ⟨S', hs, -⟩ := hI.next hn ha
  exact ⟨S', hs⟩

/-- The rest of the iteration of `msi_free_vectors` at descriptor `20`, which reads `20` and
its neighbours `10` and `21` to unlink it, while device `2` holds its own descriptor. -/
theorem twoDeviceMidFree_release_ok : ∃ S', twoDeviceMidFree.step (.freeRelease 1) = some S' :=
  Reachable.step_ok twoDeviceMidFree_reachable ⟨_, _, _, rfl⟩ trivial

end Runs

end ProtoKernel.Irq
