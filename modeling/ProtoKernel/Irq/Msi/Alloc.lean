import ProtoKernel.Irq.Msi.Registry

/-!
# `msi_alloc_vectors`

The population loop appends one descriptor per index to the registry; the cleanup loop
removes, for each index below the failing one, the first descriptor of the registry whose
hwirq is `hwirq_base + i`.

* `nvecOf_spec`: `nvec` is the largest power of two not above `max_vecs`.
* `populateStep_ok`, `populateStep_noMap`, `populateStep_noMem`: one iteration of the
  population loop on a registry.
* `populateLoop_ok`, `populateLoop_fail`: the whole loop, when every index succeeds, and up to
  the first failing index.
* `rollbackSearch_found`, `rollbackSearch_none`, `rollbackLoop_registry`: the cleanup walk
  never faults on a registry, and removes the first descriptor with the hwirq it looks for.
* `msiAllocVectors_spec`: when `msi_alloc_vectors` returns `-1`, what a success appends, and
  which calls into the IRQ core it made (`populateLoop_calls`).
-/

namespace ProtoKernel.Irq

/-! ## The number of vectors -/

theorem nvecLoop_spec (maxVecs : Nat) :
    ∀ fuel j, (j = 0 ∨ 2 ^ (j - 1) ≤ maxVecs) → maxVecs < 2 ^ j + fuel →
      ∃ m, nvecLoop maxVecs fuel (2 ^ j) = 2 ^ m ∧ (m = 0 ∨ 2 ^ (m - 1) ≤ maxVecs) ∧
        maxVecs < 2 ^ m
  | 0, j, hj, hf => ⟨j, rfl, hj, by omega⟩
  | fuel + 1, j, hj, hf => by
    unfold nvecLoop
    split
    · rename_i hle
      have hpow : 2 ^ (j + 1) = 2 ^ j * 2 := Nat.pow_succ 2 j
      have hpos : 1 ≤ 2 ^ j := Nat.one_le_two_pow
      rw [← hpow]
      exact nvecLoop_spec maxVecs fuel (j + 1) (Or.inr (by simpa using hle)) (by omega)
    · exact ⟨j, rfl, hj, by omega⟩

/-- `nvec` is the largest power of two that is at most `max_vecs`. -/
theorem nvecOf_spec {maxVecs : Nat} (h : 1 ≤ maxVecs) :
    ∃ k, nvecOf maxVecs = 2 ^ k ∧ 2 ^ k ≤ maxVecs ∧ maxVecs < 2 ^ (k + 1) := by
  obtain ⟨m, hm, hlo, hhi⟩ :=
    nvecLoop_spec maxVecs (maxVecs + 1) 0 (Or.inl rfl) (by rw [pow_zero]; omega)
  rw [pow_zero] at hm
  have hm0 : m ≠ 0 := by rintro rfl; rw [pow_zero] at hhi; omega
  obtain ⟨k, rfl⟩ : ∃ k, m = k + 1 := ⟨m - 1, by omega⟩
  refine ⟨k, ?_, by simpa using hlo.resolve_left hm0, hhi⟩
  rw [nvecOf, hm, Nat.pow_succ 2 k, Nat.mul_div_cancel _ (by decide)]

/-- A power of two lies in `[lo, hi]` exactly when the largest one below `hi` is at least
`lo`. -/
theorem exists_pow_iff {lo hi k : Nat} (hk : 2 ^ k ≤ hi) (hk' : hi < 2 ^ (k + 1)) :
    (∃ j, lo ≤ 2 ^ j ∧ 2 ^ j ≤ hi) ↔ lo ≤ 2 ^ k := by
  constructor
  · rintro ⟨j, hlo, hj⟩
    have : j < k + 1 := (Nat.pow_lt_pow_iff_right Nat.one_lt_two).mp (by omega)
    exact hlo.trans (Nat.pow_le_pow_right Nat.two_pos (by omega))
  · exact fun h => ⟨k, h, hk⟩

/-! ## One iteration of the population loop -/

/-- The descriptor the population loop leaves at index `i` with virq `virq`, without its
links: one reference from `msi_desc_alloc_internal` and one from the registry. -/
def AllocCall.descAt (c : AllocCall) (i virq : Nat) : MsiDesc :=
  ⟨⟨0, 0⟩, c.dev, c.hwirq i, virq, c.flags &&& 0xFFFF, 0, 2⟩

section Populate

variable {c : AllocCall} {i p virq : Nat} {s : State} {xs : List Nat}

theorem populateStep_ok (hreg : Registry s.heap c.msiData xs) (hr : c.msiData ≠ 0)
    (hp0 : p ≠ 0) (hfresh : s.heap.mem p = none) (hv : virq ≠ 0) :
    ∃ heap, populateStep c i (some p) virq s =
        some (true, { s with heap, irq := irqCreateMapping s.irq c.domain (c.hwirq i) virq }) ∧
      Registry heap c.msiData (xs ++ [p]) ∧ heap.top = max s.heap.top (p + 1) ∧
      (∀ q, q ∉ c.msiData :: p :: xs → heap.mem q = s.heap.mem q) ∧
      (∀ q, q ≠ p → (heap.desc q).map MsiDesc.erase = (s.heap.desc q).map MsiDesc.erase) ∧
      (heap.desc p).map MsiDesc.erase = some (c.descAt i virq) := by
  set d : MsiDesc := { msiDescAllocInternal p with
    dev := c.dev, hwirq := c.hwirq i, msiAttrib := c.flags &&& 0xFFFF } with hd
  have hpx : p ∉ c.msiData :: xs := fun hm => by simpa [hfresh] using hreg.mem_live p hm
  set h₁ := s.heap.alloc p (.desc d) with hh₁
  set h₂ := h₁.put p (.desc { d with irq := virq }) with hh₂
  have hm₂ : ∀ q, q ≠ p → h₂.mem q = s.heap.mem q := by
    intro q hq; simp [hh₂, hh₁, Heap.mem_put, hq]
  have hreg₂ : Registry h₂ c.msiData xs := hreg.frame fun q hq => hm₂ q fun h => hpx (h ▸ hq)
  have hd₂ : h₂.desc p = some { d with irq := virq } := by simp [hh₂, hh₁, Heap.desc, Heap.mem_put]
  obtain ⟨h', hadd, hreg', htop', hframe', hdesc', hdescp⟩ :=
    msiDescListAddLocked_spec hreg₂ hr hp0 hd₂ hpx
  refine ⟨h', ?_, hreg', by simp [htop', hh₂, hh₁], fun q hq => ?_, fun q hq => ?_, ?_⟩
  · have hd₁ : h₁.desc p = some d := by simp [hh₁, Heap.desc]
    have hset : h₁.setDesc p { d with irq := virq } = some h₂ := Heap.setDesc_of_desc _ hd₁
    simp only [populateStep, hv, if_false, ← hd, ← hh₁, hset, Option.bind_eq_bind,
      Option.some_bind, hadd]
    rfl
  · simp only [List.mem_cons, not_or] at hq
    rw [hframe' q (by simp [hq.1, hq.2.1, hq.2.2]), hm₂ q hq.2.1]
  · rw [hdesc' q hq, Heap.desc, Heap.desc, hm₂ q hq]
  · rw [hdescp]; rfl

theorem populateStep_noMap (hfresh : s.heap.mem p = none) :
    ∃ heap, populateStep c i (some p) 0 s =
        some (false, { s with heap, irq := irqCreateMapping s.irq c.domain (c.hwirq i) 0 }) ∧
      heap.mem = s.heap.mem := by
  refine ⟨(s.heap.alloc p (.desc { msiDescAllocInternal p with
    dev := c.dev, hwirq := c.hwirq i, msiAttrib := c.flags &&& 0xFFFF })).drop p, ?_, ?_⟩
  · simp [populateStep, Heap.free]
  · funext q
    by_cases hq : q = p
    · subst hq; simp [hfresh]
    · simp [hq]

theorem populateStep_noMem : populateStep c i none virq s = some (false, s) := rfl

/-! ## The population loop -/

/-- After the population loop has appended `ps` to the registry `xs` from index `i`: the
descriptors at `xs` are as in `h₀`, the `j`-th element of `ps` is the address `kmalloc`
returned at index `i + j` and holds the descriptor built there, and nothing outside the
registry has changed. -/
structure Appended (c : AllocCall) (env : AllocEnv) (i : Nat) (h₀ : Heap) (xs ps : List Nat)
    (h : Heap) : Prop where
  registry : Registry h c.msiData (xs ++ ps)
  old : h.view xs = h₀.view xs
  addrs : ps.map some = (List.range ps.length).map fun j => env.desc (i + j)
  descs : h.view ps = (List.range ps.length).map fun j => some (c.descAt (i + j) (env.virq (i + j)))
  mapped : ∀ j, j < ps.length → env.virq (i + j) ≠ 0
  frame : ∀ q, q ∉ c.msiData :: (xs ++ ps) → h.mem q = h₀.mem q

theorem Appended.nil {env : AllocEnv} {h : Heap} (hreg : Registry h c.msiData xs) :
    Appended c env i h xs [] h :=
  ⟨by simpa using hreg, rfl, rfl, rfl, fun _ h => absurd h (Nat.not_lt_zero _), fun _ _ => rfl⟩

theorem Appended.congr {env : AllocEnv} {h₀ h h' : Heap} {ps : List Nat}
    (ha : Appended c env i h₀ xs ps h) (hm : h'.mem = h.mem) : Appended c env i h₀ xs ps h' :=
  have hv : ∀ ys, h'.view ys = h.view ys := fun ys => by simp [Heap.view, Heap.desc, hm]
  ⟨ha.registry.frame fun q _ => congrFun hm q, (hv xs).trans ha.old, ha.addrs,
    (hv ps).trans ha.descs, ha.mapped, fun q hq => (congrFun hm q).trans (ha.frame q hq)⟩

theorem Appended.snoc {env : AllocEnv} {h₀ h h' : Heap} {ps : List Nat}
    (ha : Appended c env i h₀ xs ps h) (hp : env.desc (i + ps.length) = some p)
    (hv : env.virq (i + ps.length) ≠ 0) (hfresh : h.mem p = none)
    (hreg : Registry h' c.msiData (xs ++ ps ++ [p]))
    (hframe : ∀ q, q ∉ c.msiData :: p :: (xs ++ ps) → h'.mem q = h.mem q)
    (hdesc : ∀ q, q ≠ p → (h'.desc q).map MsiDesc.erase = (h.desc q).map MsiDesc.erase)
    (hdescp : (h'.desc p).map MsiDesc.erase =
      some (c.descAt (i + ps.length) (env.virq (i + ps.length)))) :
    Appended c env i h₀ xs (ps ++ [p]) h' := by
  have hpx : p ∉ xs ++ ps := fun hm => by
    simpa [hfresh] using ha.registry.mem_live p (List.mem_cons_of_mem _ hm)
  have hv' : ∀ ys, (∀ y ∈ ys, y ∈ xs ++ ps) → h'.view ys = h.view ys := fun ys hys =>
    Heap.view_congr fun y hy => hdesc y fun h => hpx (h ▸ hys y hy)
  refine ⟨by simpa using hreg, (hv' xs fun y hy => List.mem_append_left _ hy).trans ha.old,
    ?_, ?_, fun j hj => ?_, fun q hq => ?_⟩
  · simp [List.range_succ, ha.addrs, hp]
  · rw [List.length_append, List.length_singleton, List.range_succ, List.map_append,
      ← ha.descs, ← hv' ps fun y hy => List.mem_append_right _ hy]
    simp [Heap.view, hdescp]
  · rw [List.length_append, List.length_singleton] at hj
    rcases Nat.lt_succ_iff_lt_or_eq.mp hj with hj | rfl
    · exact ha.mapped j hj
    · exact hv
  · rw [hframe q (by simp at hq ⊢; tauto), ha.frame q (by simp at hq ⊢; tauto)]

theorem Appended.desc_get {env : AllocEnv} {h₀ h : Heap} {ps : List Nat}
    (ha : Appended c env i h₀ xs ps h) (j : Nat) (hj : j < ps.length) :
    ∃ d, h.desc ps[j] = some d ∧ d.erase = c.descAt (i + j) (env.virq (i + j)) := by
  have := congrArg (·[j]?) ha.descs
  simp only [Heap.view, List.getElem?_map, List.getElem?_eq_getElem hj,
    List.getElem?_range (hj.trans_eq rfl), Option.map_some', Option.some.injEq] at this
  obtain ⟨d, hd, he⟩ := Option.map_eq_some'.mp this
  exact ⟨d, hd, he⟩

theorem AllocEnv.KmallocOk.step {env : AllocEnv} {h h' : Heap} {k n : Nat}
    (hk : env.KmallocOk h k n) (hp : env.desc k = some p) (hv : env.virq k ≠ 0)
    (hfr : ∀ q, h.mem q = none → q ≠ p → h'.mem q = none) : env.KmallocOk h' (k + 1) n := by
  intro j p' hj hjn hpre hd
  have hpre' : ∀ k', k ≤ k' → k' < j → (env.desc k').isSome ∧ env.virq k' ≠ 0 := by
    intro k' hk₁ hk₂
    rcases Nat.eq_or_lt_of_le hk₁ with rfl | hlt
    · exact ⟨by simp [hp], hv⟩
    · exact hpre k' hlt hk₂
  obtain ⟨h0, hm, hne⟩ := hk j p' (by omega) hjn hpre' hd
  refine ⟨h0, hfr p' hm ?_, fun k' hk₁ hk₂ => hne k' (by omega) hk₂⟩
  rintro rfl
  exact hne k le_rfl (by omega) hp

/-- The population loop from index `i + ps.length`, `left` iterations to go: it never faults,
appends one descriptor per successful index, and stops at the first index whose `kmalloc`
or `irq_create_mapping` fails. -/
theorem populateLoop_spec {env : AllocEnv} {h₀ : Heap} (hr : c.msiData ≠ 0) :
    ∀ left ps s, Appended c env i h₀ xs ps s.heap →
      env.KmallocOk s.heap (i + ps.length) (i + ps.length + left) →
      ∃ res ps' s', populateLoop c env left (i + ps.length) s = some (res, s') ∧
        Appended c env i h₀ xs ps' s'.heap ∧
        (res = none ↔ ∀ j, i + ps.length ≤ j → j < i + ps.length + left →
          (env.desc j).isSome ∧ env.virq j ≠ 0) ∧
        (res = none → ps'.length = ps.length + left) ∧
        (∀ k, res = some k → k = i + ps'.length)
  | 0, ps, s, ha, _ =>
    ⟨none, ps, s, rfl, ha, iff_of_true rfl fun _ _ h => absurd h (by omega), fun _ => rfl,
      by simp⟩
  | left + 1, ps, s, ha, hk => by
    cases hd : env.desc (i + ps.length) with
    | none =>
      refine ⟨some (i + ps.length), ps, s, by simp [populateLoop, hd, populateStep_noMem], ha,
        ?_, by simp, by simp⟩
      simp only [reduceCtorEq, false_iff, not_forall]
      exact ⟨i + ps.length, le_rfl, by omega, by simp [hd]⟩
    | some p =>
      obtain ⟨hp0, hfresh, -⟩ :=
        hk _ p le_rfl (by omega) (fun k h₁ h₂ => absurd h₂ (by omega)) hd
      by_cases hv : env.virq (i + ps.length) = 0
      · obtain ⟨heap, hstep, hm⟩ := @populateStep_noMap c (i + ps.length) p s hfresh
        refine ⟨some (i + ps.length), ps, ⟨heap, s.devs,
          irqCreateMapping s.irq c.domain (c.hwirq (i + ps.length)) 0⟩,
          by simp [populateLoop, hd, hv, hstep], ha.congr hm, ?_, by simp, by simp⟩
        simp only [reduceCtorEq, false_iff, not_forall]
        exact ⟨i + ps.length, le_rfl, by omega, fun h => h.2 hv⟩
      · obtain ⟨heap, hstep, hreg', -, hframe, hdesc, hdescp⟩ :=
          @populateStep_ok c (i + ps.length) p _ s (xs ++ ps) ha.registry hr hp0 hfresh hv
        have ha' := ha.snoc hd hv hfresh hreg' (fun q hq => hframe q (by simpa using hq)) hdesc
          hdescp
        have hdead : ∀ q, s.heap.mem q = none → q ∉ c.msiData :: (xs ++ ps) := fun q hq hm => by
          simpa [hq] using ha.registry.mem_live q hm
        have hk' : env.KmallocOk heap (i + (ps ++ [p]).length) (i + (ps ++ [p]).length + left) := by
          have := hk.step hd hv fun q hq hqp => by
            rw [hframe q ?_, hq]
            have := hdead q hq
            simp only [List.mem_cons, not_or] at this ⊢
            exact ⟨this.1, hqp, this.2⟩
          simpa [Nat.add_assoc, Nat.add_comm 1 left] using this
        obtain ⟨res, ps', s', hrun, ha'', hiff, hnone, hsome⟩ :=
          populateLoop_spec hr left (ps ++ [p]) ⟨heap, s.devs,
            irqCreateMapping s.irq c.domain (c.hwirq (i + ps.length)) (env.virq (i + ps.length))⟩
          ha' hk'
        refine ⟨res, ps', s', ?_, ha'', ?_, fun h => by simp [hnone h]; omega, hsome⟩
        · simp only [populateLoop, hd, hstep, Option.bind_eq_bind, Option.some_bind, if_true]
          simpa [Nat.add_assoc] using hrun
        · rw [hiff]
          constructor
          · intro hall j hj₁ hj₂
            rcases Nat.eq_or_lt_of_le hj₁ with rfl | hlt
            · exact ⟨by simp [hd], hv⟩
            · exact hall j (by simp; omega) (by simp; omega)
          · intro hall j hj₁ hj₂
            exact hall j (by simp at hj₁; omega) (by simp at hj₂; omega)

/-- Outside the heap, one iteration of the population loop changes at most the mapping of its
own virq; a successful one calls into the IRQ core once, `irq_create_mapping` for its hwirq. -/
theorem populateStep_frame {r : Option Nat} {ok : Bool} {s' : State}
    (h : populateStep c i r virq s = some (ok, s')) :
    s'.devs = s.devs ∧ s'.irq.reserved = s.irq.reserved ∧
      (∀ v, v ≠ virq → s'.irq.owner v = s.irq.owner v) ∧
      (ok = true → s'.irq.calls = s.irq.calls ++ [.createMapping c.domain (c.hwirq i) virq]) := by
  unfold populateStep at h
  cases r with
  | none => cases h; exact ⟨rfl, rfl, fun _ _ => rfl, nofun⟩
  | some p =>
    simp only [Option.bind_eq_bind] at h
    split at h
    · obtain ⟨_, -, h⟩ := Option.bind_eq_some.mp h
      cases h
      exact ⟨rfl, rfl, fun v hv => by simp [hv], nofun⟩
    · obtain ⟨_, -, h⟩ := Option.bind_eq_some.mp h
      obtain ⟨⟨_, _⟩, -, h⟩ := Option.bind_eq_some.mp h
      split at h
      · obtain ⟨_, -, h⟩ := Option.bind_eq_some.mp h
        cases h
        exact ⟨rfl, rfl, fun v hv => by simp [hv], nofun⟩
      · cases h
        exact ⟨rfl, rfl, fun v hv => by simp [hv], fun _ => rfl⟩

/-- When every iteration succeeds, the population loop from index `i` calls
`irq_create_mapping` once per index, in order, for the index's hwirq and with its virq. -/
theorem populateLoop_calls {env : AllocEnv} : ∀ {left i : Nat} {s s' : State},
    populateLoop c env left i s = some (none, s') →
    s'.irq.calls = s.irq.calls ++ (List.range left).map fun j =>
      .createMapping c.domain (c.hwirq (i + j)) (env.virq (i + j))
  | 0, _, _, _, h => by cases h; simp
  | left + 1, i, s, s', h => by
    simp only [populateLoop, Option.bind_eq_bind] at h
    obtain ⟨⟨ok, s₁⟩, h₁, h⟩ := Option.bind_eq_some.mp h
    cases ok with
    | false => cases h
    | true =>
      rw [populateLoop_calls h, (populateStep_frame h₁).2.2.2 rfl, List.range_succ_eq_map]
      simp [Nat.add_assoc, Nat.add_comm 1]

/-- Outside the heap, the population loop from index `i` changes at most the mappings of the
virqs it was given. -/
theorem populateLoop_frame {env : AllocEnv} : ∀ {left i : Nat} {s s' : State} {res : Option Nat},
    populateLoop c env left i s = some (res, s') →
    s'.devs = s.devs ∧ s'.irq.reserved = s.irq.reserved ∧
      ∀ v, (∀ j, i ≤ j → j < i + left → env.virq j ≠ v) → s'.irq.owner v = s.irq.owner v
  | 0, _, _, _, _, h => by cases h; exact ⟨rfl, rfl, fun _ _ => rfl⟩
  | left + 1, i, s, s', res, h => by
    simp only [populateLoop, Option.bind_eq_bind] at h
    obtain ⟨⟨ok, s₁⟩, h₁, h⟩ := Option.bind_eq_some.mp h
    obtain ⟨hd₁, hr₁, ho₁, -⟩ := populateStep_frame h₁
    have ho₁' : ∀ v, (∀ j, i ≤ j → j < i + (left + 1) → env.virq j ≠ v) →
        s₁.irq.owner v = s.irq.owner v := fun v hv => ho₁ v (hv i le_rfl (by omega)).symm
    split at h
    · obtain ⟨hd, hr, ho⟩ := populateLoop_frame h
      exact ⟨hd.trans hd₁, hr.trans hr₁,
        fun v hv => (ho v fun j h₁ h₂ => hv j (by omega) (by omega)).trans (ho₁' v hv)⟩
    · cases h
      exact ⟨hd₁, hr₁, ho₁'⟩

end Populate

/-! ## The cleanup loop -/

section Rollback

variable {c : AllocCall} {target : Nat} {s : State}

/-- The search of the cleanup loop from the node after `pre` never faults: it either walks
back to the sentinel, no descriptor of `rest` having the hwirq `target`, or it disposes of the
mapping of the first descriptor `y` that has it and removes `y`. -/
theorem rollbackSearch_spec : ∀ (rest pre : List Nat) (fuel : Nat),
    Registry s.heap c.msiData (pre ++ rest) → rest.length < fuel →
    (rollbackSearch c target fuel s (rest.headD c.msiData) = some s ∧
      ∀ y ∈ rest, ∀ d, s.heap.desc y = some d → d.hwirq ≠ target) ∨
    ∃ mid y post dy heap, rest = mid ++ y :: post ∧
      (∀ z ∈ mid, ∀ d, s.heap.desc z = some d → d.hwirq ≠ target) ∧
      s.heap.desc y = some dy ∧ dy.hwirq = target ∧ removeDesc s.heap c.msiData y = some heap ∧
      rollbackSearch c target fuel s (rest.headD c.msiData) =
        some { s with heap, irq := irqDisposeMapping s.irq dy.irq }
  | [], _, fuel + 1, _, _ => .inl ⟨by simp [rollbackSearch], by simp⟩
  | z :: rest, pre, fuel + 1, hreg, hf => by
    have hzr : z ≠ c.msiData := fun h => by
      have := hreg.nodup
      simp [h] at this
    obtain ⟨dz, hdz⟩ := hreg.descs z (by simp)
    have hstep : rollbackSearch c target (fuel + 1) s z =
        if dz.hwirq = target then (removeDesc s.heap c.msiData z).bind fun heap =>
          some { s with heap, irq := irqDisposeMapping s.irq dz.irq }
        else rollbackSearch c target fuel s (rest.headD c.msiData) := by
      rw [rollbackSearch, if_neg hzr, hdz, ← hreg.next_eq hdz]
      rfl
    rw [List.headD_cons, hstep]
    by_cases ht : dz.hwirq = target
    · obtain ⟨heap, hrm, -⟩ := removeDesc_spec hreg
      exact .inr ⟨[], z, rest, dz, heap, rfl, by simp, hdz, ht, hrm, by simp [ht, hrm]⟩
    · rw [if_neg ht]
      have hreg' : Registry s.heap c.msiData ((pre ++ [z]) ++ rest) := by simpa using hreg
      rcases rollbackSearch_spec rest (pre ++ [z]) fuel hreg' (by simpa using hf) with
        ⟨hrun, hno⟩ | ⟨mid, y, post, dy, heap, rfl, hmid, hy, hyt, hrm, hrun⟩
      · refine .inl ⟨hrun, fun y hy d hd => ?_⟩
        rcases List.mem_cons.mp hy with rfl | hy
        · rw [hdz] at hd; cases hd; exact ht
        · exact hno y hy d hd
      · refine .inr ⟨z :: mid, y, post, dy, heap, rfl, fun z' hz' d hd => ?_, hy, hyt, hrm, hrun⟩
        rcases List.mem_cons.mp hz' with rfl | hz'
        · rw [hdz] at hd; cases hd; exact ht
        · exact hmid z' hz' d hd
  | _ :: _, _, 0, _, hf => absurd hf (Nat.not_lt_zero _)

/-- One iteration of the cleanup loop on a registry: the search starts at the sentinel's
`next`, with fuel `top + 1`, more than the registry's length. -/
theorem rollbackStep_spec {xs : List Nat} (i : Nat) (hreg : Registry s.heap c.msiData xs) :
    (rollbackStep c i s = some s ∧ ∀ y ∈ xs, ∀ d, s.heap.desc y = some d → d.hwirq ≠ c.hwirq i) ∨
    ∃ mid y post dy heap, xs = mid ++ y :: post ∧
      (∀ z ∈ mid, ∀ d, s.heap.desc z = some d → d.hwirq ≠ c.hwirq i) ∧
      s.heap.desc y = some dy ∧ dy.hwirq = c.hwirq i ∧ removeDesc s.heap c.msiData y = some heap ∧
      rollbackStep c i s = some { s with heap, irq := irqDisposeMapping s.irq dy.irq } := by
  have hlen : (c.msiData :: xs).length ≤ s.heap.top :=
    Heap.length_le_top hreg.nodup hreg.mem_live
  have := @rollbackSearch_spec c (c.hwirq i) s xs [] (s.heap.top + 1) (by simpa using hreg)
    (by simp at hlen; omega)
  simpa [rollbackStep, hreg.sentinel_link] using this

/-- The cleanup loop never faults on a registry, and leaves one. -/
theorem rollbackLoop_registry : ∀ (i : Nat) (s : State) (xs : List Nat),
    Registry s.heap c.msiData xs → ∃ s' ys, rollbackLoop c i s = some s' ∧
      Registry s'.heap c.msiData ys
  | 0, s, xs, hreg => ⟨s, xs, rfl, hreg⟩
  | i + 1, s, xs, hreg => by
    rcases rollbackStep_spec i hreg with ⟨hrun, -⟩ | ⟨mid, y, post, dy, heap, rfl, -, -, -, hrm, hrun⟩
    · obtain ⟨s', ys, h', hys⟩ := rollbackLoop_registry i s xs hreg
      exact ⟨s', ys, by simp [rollbackLoop, hrun, h'], hys⟩
    · obtain ⟨heap', hrm', hreg', -⟩ := removeDesc_spec hreg
      rw [hrm] at hrm'
      cases hrm'
      obtain ⟨s', ys, h', hys⟩ :=
        rollbackLoop_registry i ⟨heap, s.devs, irqDisposeMapping s.irq dy.irq⟩ _ hreg'
      exact ⟨s', ys, by simp [rollbackLoop, hrun, h'], hys⟩

end Rollback

/-! ## `msi_alloc_vectors` -/

section AllocStart

variable {s : State} {dev lo hi flags : Nat}

theorem allocStart_of_guard (hg : dev = 0 ∨ (s.devs dev).msiData = 0 ∨
    (s.devs dev).msiDomain = 0 ∨ lo = 0 ∨ hi < lo ∨ msiMaxVectors < hi) (range : Option Nat) :
    allocStart s dev lo hi flags range = (none, s) := by
  simp only [allocStart, if_pos hg]

theorem allocStart_of_lt (hg : ¬(dev = 0 ∨ (s.devs dev).msiData = 0 ∨
    (s.devs dev).msiDomain = 0 ∨ lo = 0 ∨ hi < lo ∨ msiMaxVectors < hi))
    (hn : nvecOf hi < lo) (range : Option Nat) :
    allocStart s dev lo hi flags range = (none, s) := by
  simp only [allocStart, if_neg hg, if_pos hn]

/-- Once the checks pass, the call asks for its range, and goes on exactly when it gets one. -/
theorem allocStart_of_pass (hg : ¬(dev = 0 ∨ (s.devs dev).msiData = 0 ∨
    (s.devs dev).msiDomain = 0 ∨ lo = 0 ∨ hi < lo ∨ msiMaxVectors < hi))
    (hn : ¬nvecOf hi < lo) (range : Option Nat) :
    allocStart s dev lo hi flags range =
      (range.map fun base => ⟨dev, (s.devs dev).msiData, (s.devs dev).msiDomain, flags,
        nvecOf hi, base⟩,
       { s with irq := irqDomainAllocHwirqRange s.irq (s.devs dev).msiDomain (nvecOf hi) range }) := by
  cases range <;> simp only [allocStart, if_neg hg, if_neg hn] <;> rfl

end AllocStart

theorem AllocCall.hwirq_of_lt {c : AllocCall} {i : Nat} (hb : c.base + c.nvec ≤ 2 ^ 32)
    (hi : i < c.nvec) : c.hwirq i = c.base + i :=
  Nat.mod_eq_of_lt (by omega)

/-- A call of `msi_alloc_vectors` that returns a count: it reserved a range `b`, appended
`nvec` descriptors to the registry, the `j`-th built at index `j`, and outside the heap it
changed only the reservation of its range and the mappings of the virqs it was given. -/
theorem msiAllocVectors_ok {s s' : State} {dev lo hi flags : Nat} {env : AllocEnv}
    {xs : List Nat} {ret : Int} (hreg : Registry s.heap (s.devs dev).msiData xs)
    (hk : env.KmallocOk s.heap 0 (nvecOf hi))
    (h : msiAllocVectors s dev lo hi flags env = some (ret, s')) (hret : ret ≠ -1) :
    ∃ b ps, env.range = some b ∧ ret = nvecOf hi ∧ ps.length = nvecOf hi ∧
      Appended ⟨dev, (s.devs dev).msiData, (s.devs dev).msiDomain, flags, nvecOf hi, b⟩ env 0
        s.heap xs ps s'.heap ∧
      s'.devs = s.devs ∧
      s'.irq.reserved =
        (irqDomainAllocHwirqRange s.irq (s.devs dev).msiDomain (nvecOf hi) (some b)).reserved ∧
      ∀ v, (∀ j < nvecOf hi, env.virq j ≠ v) → s'.irq.owner v = s.irq.owner v := by
  by_cases hg : dev = 0 ∨ (s.devs dev).msiData = 0 ∨ (s.devs dev).msiDomain = 0 ∨ lo = 0 ∨
      hi < lo ∨ msiMaxVectors < hi
  · simp only [msiAllocVectors, allocStart_of_guard hg, Option.some.injEq, Prod.mk.injEq] at h
    exact absurd h.1.symm hret
  have hmd : (s.devs dev).msiData ≠ 0 := fun h => hg (.inr (.inl h))
  by_cases hn : nvecOf hi < lo
  · simp only [msiAllocVectors, allocStart_of_lt hg hn, Option.some.injEq, Prod.mk.injEq] at h
    exact absurd h.1.symm hret
  cases hb : env.range with
  | none =>
    simp only [msiAllocVectors, allocStart_of_pass hg hn, hb, Option.map_none', Option.some.injEq,
      Prod.mk.injEq] at h
    exact absurd h.1.symm hret
  | some b =>
    obtain ⟨res, ps, s₂, hrun, ha, -, hnone, -⟩ :=
      @populateLoop_spec ⟨dev, (s.devs dev).msiData, (s.devs dev).msiDomain, flags, nvecOf hi, b⟩
        0 xs env s.heap hmd (nvecOf hi) []
        { s with irq := irqDomainAllocHwirqRange s.irq (s.devs dev).msiDomain (nvecOf hi) (some b) }
        (Appended.nil hreg) (by simpa using hk)
    simp only [List.length_nil, Nat.add_zero, Nat.zero_add] at hrun hnone
    simp only [msiAllocVectors, allocStart_of_pass hg hn, hb, Option.map_some', Option.bind_eq_bind,
      hrun, Option.some_bind] at h
    cases res with
    | none =>
      cases h
      obtain ⟨hd, hr, ho⟩ := populateLoop_frame hrun
      exact ⟨b, ps, rfl, rfl, by simpa using hnone rfl, ha, hd, hr,
        fun v hv => (ho v fun j _ hj => hv j (by simpa using hj)).trans rfl⟩
    | some i =>
      obtain ⟨_, -, h⟩ := Option.bind_eq_some.mp h
      cases h
      exact absurd rfl hret

/-- `msi_alloc_vectors(dev, lo, hi, flags)` on a registry `xs`, with a domain and a `kmalloc`
within their contracts, returns `-1` exactly when an argument is invalid or a resource fails.
Otherwise it returns the largest power of two `2 ^ k ≤ hi`, and the registry is `xs`,
unchanged, followed by `2 ^ k` new descriptors: the `i`-th is the `i`-th address `kmalloc`
returned and holds hwirq `b + i`, the non-zero virq of its mapping, `flags & 0xFFFF` and
`dev`. Its calls into the IRQ core are the reservation of the range, then one
`irq_create_mapping` per index `i`, for hwirq `b + i`, which returned the virq stored. -/
theorem msiAllocVectors_spec (s : State) (dev lo hi flags : Nat) (env : AllocEnv)
    (xs : List Nat) (hreg : (s.devs dev).msiData ≠ 0 → Registry s.heap (s.devs dev).msiData xs)
    (hrange : RangeOk s.irq (s.devs dev).msiDomain (nvecOf hi) env.range)
    (hkmalloc : env.KmallocOk s.heap 0 (nvecOf hi)) :
    ∃ ret s', msiAllocVectors s dev lo hi flags env = some (ret, s') ∧
      (ret = -1 ↔ dev = 0 ∨ (s.devs dev).msiData = 0 ∨ (s.devs dev).msiDomain = 0 ∨ lo = 0 ∨
        hi < lo ∨ msiMaxVectors < hi ∨ (¬∃ j, lo ≤ 2 ^ j ∧ 2 ^ j ≤ hi) ∨ env.range = none ∨
        ∃ i, i < nvecOf hi ∧ (env.desc i = none ∨ env.virq i = 0)) ∧
      (ret ≠ -1 → ∃ k b ps, ret = 2 ^ k ∧ lo ≤ 2 ^ k ∧ 2 ^ k ≤ hi ∧ hi < 2 ^ (k + 1) ∧
        env.range = some b ∧ Registry s'.heap (s.devs dev).msiData (xs ++ ps) ∧
        ps.length = 2 ^ k ∧ s'.heap.view xs = s.heap.view xs ∧
        (s'.heap.data (s.devs dev).msiData).map MsiDeviceData.numVectors =
          (s.heap.data (s.devs dev).msiData).map (fun md => md.numVectors + 2 ^ k) ∧
        ps.map some = (List.range ps.length).map env.desc ∧
        s'.irq.calls = s.irq.calls ++ .allocHwirqRange (s.devs dev).msiDomain (2 ^ k) (some b) ::
          (List.range (2 ^ k)).map (fun i =>
            .createMapping (s.devs dev).msiDomain (b + i) (env.virq i)) ∧
        ∀ i (h : i < ps.length), ∃ d, s'.heap.desc ps[i] = some d ∧ d.hwirq = b + i ∧
          d.irq = env.virq i ∧ d.irq ≠ 0 ∧ d.msiAttrib = flags &&& 0xFFFF ∧ d.dev = dev) := by
  by_cases hg : dev = 0 ∨ (s.devs dev).msiData = 0 ∨ (s.devs dev).msiDomain = 0 ∨ lo = 0 ∨
      hi < lo ∨ msiMaxVectors < hi
  · exact ⟨-1, s, by simp only [msiAllocVectors, allocStart_of_guard hg], iff_of_true rfl (by tauto),
      fun h => absurd rfl h⟩
  have hguard := hg
  simp only [not_or] at hg
  obtain ⟨hdev, hmd, hdom, hlo, hlohi, hhi⟩ := hg
  obtain ⟨k, hk, hk₁, hk₂⟩ := nvecOf_spec (show 1 ≤ hi by omega)
  have hpow := @exists_pow_iff lo hi k hk₁ hk₂
  by_cases hn : nvecOf hi < lo
  · refine ⟨-1, s, by simp only [msiAllocVectors, allocStart_of_lt hguard hn],
      iff_of_true rfl ?_, fun h => absurd rfl h⟩
    refine .inr <| .inr <| .inr <| .inr <| .inr <| .inr <| .inl ?_
    rw [hpow]; omega
  cases hb : env.range with
  | none =>
    exact ⟨-1, _, by simp only [msiAllocVectors, allocStart_of_pass hguard hn, hb, Option.map_none']; rfl,
      iff_of_true rfl (by simp), fun h => absurd rfl h⟩
  | some b =>
    have hb32 : b + nvecOf hi ≤ 2 ^ 32 := by rw [hb] at hrange; exact hrange.1
    obtain ⟨res, ps, s₂, hrun, ha, hiff, hnone, hsome⟩ :=
      @populateLoop_spec ⟨dev, (s.devs dev).msiData, (s.devs dev).msiDomain, flags, nvecOf hi, b⟩
        0 xs env s.heap hmd (nvecOf hi) []
        { s with irq := irqDomainAllocHwirqRange s.irq (s.devs dev).msiDomain (nvecOf hi) (some b) }
        (Appended.nil (hreg hmd)) (by simpa using hkmalloc)
    simp only [List.length_nil, Nat.add_zero, Nat.zero_add] at hrun hiff hnone
    cases res with
    | none =>
      have hlen : ps.length = nvecOf hi := by simpa using hnone rfl
      refine ⟨nvecOf hi, s₂, ?_, ?_, fun _ => ?_⟩
      · simp only [msiAllocVectors, allocStart_of_pass hguard hn, hb, Option.map_some',
          Option.bind_eq_bind, hrun, Option.some_bind]
      · have hall := hiff.mp rfl
        refine iff_of_false (by omega) ?_
        simp only [hdev, hmd, hdom, hlo, hlohi, hhi, hpow, hb, false_or, not_exists, not_and,
          not_or, reduceCtorEq]
        refine ⟨by omega, fun i hi => ?_⟩
        obtain ⟨h₁, h₂⟩ := hall i (Nat.zero_le _) hi
        exact ⟨fun h => by simp [h] at h₁, h₂⟩
      · obtain ⟨md, hmd₀, hnum₀⟩ := (hreg hmd).count
        obtain ⟨md', hmd', hnum'⟩ := ha.registry.count
        refine ⟨k, b, ps, by rw [hk]; push_cast; rfl, by omega, hk₁, hk₂, rfl, ha.registry,
          hlen.trans hk, ha.old, ?_, by simpa using ha.addrs, ?_, fun i hi => ?_⟩
        · rw [hmd₀, hmd']
          simp [hnum₀, hnum', hlen, hk]
        · rw [populateLoop_calls hrun, ← hk]
          simp only [irqDomainAllocHwirqRange_calls, List.append_assoc, List.singleton_append]
          refine congrArg _ (congrArg _ (List.map_congr_left fun j hj => ?_))
          rw [Nat.zero_add, AllocCall.hwirq_of_lt hb32 (List.mem_range.mp hj)]
        · obtain ⟨d, hd, he⟩ := ha.desc_get i hi
          have hf := fun {α} (f : MsiDesc → α) => congrArg f he
          simp only [AllocCall.descAt, MsiDesc.erase, Nat.zero_add] at hf
          refine ⟨d, hd, ?_, hf MsiDesc.irq, ?_, hf MsiDesc.msiAttrib, hf MsiDesc.dev⟩
          · rw [hf MsiDesc.hwirq, AllocCall.hwirq_of_lt hb32 (by simpa [hlen] using hi)]
          · rw [hf MsiDesc.irq]; simpa using ha.mapped i hi
    | some i =>
      obtain ⟨s₃, ys, hrb, -⟩ := rollbackLoop_registry i s₂ (xs ++ ps) ha.registry
      refine ⟨-1, ⟨s₃.heap, s₃.devs,
        irqDomainFreeHwirqRange s₃.irq (s.devs dev).msiDomain b (nvecOf hi)⟩, ?_,
        iff_of_true rfl ?_, fun h => absurd rfl h⟩
      · simp only [msiAllocVectors, allocStart_of_pass hguard hn, hb, Option.map_some',
          Option.bind_eq_bind, hrun, Option.some_bind, hrb]
      · have hfail := mt hiff.mpr (by simp)
        simp only [not_forall, not_and_or] at hfail
        obtain ⟨j, -, hj, hbad⟩ := hfail
        refine .inr <| .inr <| .inr <| .inr <| .inr <| .inr <| .inr <| .inr ⟨j, hj, ?_⟩
        rcases hbad with hbad | hbad
        · exact .inl (Option.not_isSome_iff_eq_none.mp hbad)
        · exact .inr (not_not.mp hbad)

/-- `msi_alloc_vectors(dev, 3, 7, 0)` just after `msi_device_init(dev)`, with the range at `0`
and every allocation and mapping succeeding. -/
theorem msiAllocVectors_spec_fresh :
    let s := (msiDeviceInit (State.init fun d => ⟨0, if d = 1 then 7 else 0⟩) 1 (some 10)).2
    let env : AllocEnv := ⟨some 0, fun i => some (20 + i), fun i => 32 + i⟩
    ((s.devs 1).msiData ≠ 0 → Registry s.heap (s.devs 1).msiData []) ∧
    RangeOk s.irq (s.devs 1).msiDomain (nvecOf 7) env.range ∧ env.KmallocOk s.heap 0 (nvecOf 7) ∧
    ∃ ret s', msiAllocVectors s 1 3 7 0 env = some (ret, s') ∧
      (ret = -1 ↔ 1 = 0 ∨ (s.devs 1).msiData = 0 ∨ (s.devs 1).msiDomain = 0 ∨ 3 = 0 ∨
        7 < 3 ∨ msiMaxVectors < 7 ∨ (¬∃ j, 3 ≤ 2 ^ j ∧ 2 ^ j ≤ 7) ∨ env.range = none ∨
        ∃ i, i < nvecOf 7 ∧ (env.desc i = none ∨ env.virq i = 0)) ∧
      (ret ≠ -1 → ∃ k b ps, ret = 2 ^ k ∧ 3 ≤ 2 ^ k ∧ 2 ^ k ≤ 7 ∧ 7 < 2 ^ (k + 1) ∧
        env.range = some b ∧ Registry s'.heap (s.devs 1).msiData ([] ++ ps) ∧
        ps.length = 2 ^ k ∧ s'.heap.view [] = s.heap.view [] ∧
        (s'.heap.data (s.devs 1).msiData).map MsiDeviceData.numVectors =
          (s.heap.data (s.devs 1).msiData).map (fun md => md.numVectors + 2 ^ k) ∧
        ps.map some = (List.range ps.length).map env.desc ∧
        s'.irq.calls = s.irq.calls ++ .allocHwirqRange (s.devs 1).msiDomain (2 ^ k) (some b) ::
          (List.range (2 ^ k)).map (fun i =>
            .createMapping (s.devs 1).msiDomain (b + i) (env.virq i)) ∧
        ∀ i (h : i < ps.length), ∃ d, s'.heap.desc ps[i] = some d ∧ d.hwirq = b + i ∧
          d.irq = env.virq i ∧ d.irq ≠ 0 ∧ d.msiAttrib = 0 &&& 0xFFFF ∧ d.dev = 1) := by
  intro s env
  have hreg : (s.devs 1).msiData ≠ 0 → Registry s.heap (s.devs 1).msiData [] :=
    fun _ => (msiDeviceInit_spec one_ne_zero).2
  have hrange : RangeOk s.irq (s.devs 1).msiDomain (nvecOf 7) env.range :=
    ⟨by decide, fun _ _ _ => rfl⟩
  have hkmalloc : env.KmallocOk s.heap 0 (nvecOf 7) := by
    intro j p _ hj _ hd
    simp only [env, Option.some.injEq] at hd
    subst hd
    refine ⟨by omega, ?_, fun k _ _ => by simp [env]; omega⟩
    simp [s, State.init, msiDeviceInit, Heap.empty, show 20 + j ≠ 10 by omega]
  exact ⟨hreg, hrange, hkmalloc, msiAllocVectors_spec s 1 3 7 0 env [] hreg hrange hkmalloc⟩

/-- The cleanup loop searches the whole registry for `hwirq_base + i`, not only the
descriptors this call appended. A descriptor of `msi_desc_alloc` is zeroed, so its hwirq is
`0`; when the domain's range starts at `0` and the mapping of index `1` fails, the search for
hwirq `0` finds and frees that older descriptor `20` and keeps the new descriptor `30`, whose
mapping stays live while hwirq `0` is released. -/
theorem msiAllocVectors_rollback_takes_older :
    ∃ s h s', msiDeviceInit (State.init fun d => ⟨0, if d = 1 then 7 else 0⟩) 1 (some 10) = (0, s) ∧
      msiDescListAdd (msiDescAlloc s.heap 1 1 (some 20)).2 10 20 = some (0, h) ∧
      h.link 10 = some ⟨20, 20⟩ ∧
      msiAllocVectors { s with heap := h } 1 2 2 0
        ⟨some 0, fun i => some (30 + i), fun i => if i = 0 then 5 else 0⟩ = some (-1, s') ∧
      s'.heap.link 10 = some ⟨30, 30⟩ ∧ s'.heap.mem 20 = none ∧
      (s'.heap.desc 30).map MsiDesc.hwirq = some 0 ∧
      s.irq.owner 5 = none ∧ s'.irq.owner 5 = some (7, 0) ∧ s'.irq.reserved 7 0 = false :=
  ⟨_, _, _, rfl, rfl, by decide, rfl, by decide, by decide, by decide, by decide, by decide,
    by decide⟩

end ProtoKernel.Irq
