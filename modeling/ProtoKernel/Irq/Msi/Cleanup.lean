import ProtoKernel.Irq.Msi.Alloc

/-!
# Descriptors on their own, and `msi_device_cleanup`

`msi_desc_alloc` returns a self-linked descriptor holding one reference, and `msi_desc_free`
drops one. `msi_device_cleanup` walks the registry like `msi_free_vectors`, but it drops one
reference per descriptor instead of freeing it, and it never touches a descriptor's own
links: a descriptor that survives the walk keeps pointing into the registry whose sentinel
the function frees at the end.

* `log2Loop_spec`, `msiDescAlloc_spec`: `multiple` is the least `m` with `nvec ≤ 2 ^ m`.
* `msiDescFree_self`: on a self-linked descriptor, `msi_desc_free` only counts down, and
  frees it at zero.
* `cleanupLoop_spec`, `msiDeviceCleanup_spec`: the sentinel is freed, a descriptor with one
  reference is freed, and one with more survives with one reference less and its `prev`
  still naming the freed sentinel.
* `msiDeviceCleanup_leaves_stale_links`, `msiDeviceCleanup_leaks_vector`: the two runs where
  this goes wrong.
-/

namespace ProtoKernel.Irq

/-! ## `msi_desc_alloc` and `msi_desc_free` -/

theorem log2Loop_spec (nvec : Nat) :
    ∀ fuel m, nvec ≤ 2 ^ m + fuel → (m = 0 ∨ 2 ^ (m - 1) < nvec) →
      ∃ k, log2Loop nvec fuel m = k ∧ nvec ≤ 2 ^ k ∧ (k = 0 ∨ 2 ^ (k - 1) < nvec)
  | 0, m, hf, hm => ⟨m, rfl, by omega, hm⟩
  | fuel + 1, m, hf, hm => by
    unfold log2Loop
    split
    · rename_i hlt
      have hpow : 2 ^ (m + 1) = 2 ^ m * 2 := Nat.pow_succ 2 m
      have hpos : 1 ≤ 2 ^ m := Nat.one_le_two_pow
      exact log2Loop_spec nvec fuel (m + 1) (by omega) (.inr (by simpa using hlt))
    · exact ⟨m, rfl, by omega, hm⟩

/-- `msi_desc_alloc(dev, nvec)` with `kmalloc` returning `p`: for a valid request, a
self-linked descriptor of `dev` with one reference and `multiple` the least `m` with
`nvec ≤ 2 ^ m`; `NULL` otherwise, with nothing written. -/
theorem msiDescAlloc_spec (h : Heap) (dev nvec p : Nat) (hdev : dev ≠ 0) (hn : 0 < nvec)
    (hmax : nvec ≤ msiMaxVectors) :
    ∃ m, msiDescAlloc h dev nvec (some p) =
        (some p, h.alloc p (.desc ⟨⟨p, p⟩, dev, 0, 0, 0, m, 1⟩)) ∧
      nvec ≤ 2 ^ m ∧ (m = 0 ∨ 2 ^ (m - 1) < nvec) := by
  obtain ⟨m, hm, hle, hlt⟩ := log2Loop_spec nvec nvec 0 (by simp) (.inl rfl)
  refine ⟨m, ?_, hle, hlt⟩
  simp [msiDescAlloc, hdev, Nat.pos_iff_ne_zero.mp hn, show ¬msiMaxVectors < nvec by omega, hm,
    msiDescAllocInternal]

/-- `msi_desc_free` of a self-linked descriptor counts one reference down, and frees it when
none is left; it writes nothing else. -/
theorem msiDescFree_self {h : Heap} {p : Nat} {d : MsiDesc} (hp : p ≠ 0)
    (hd : h.desc p = some d) (hl : d.list.next = p) :
    msiDescFree h p = some (if 0 < d.refcount - 1
      then h.put p (.desc { d with refcount := d.refcount - 1 })
      else (h.put p (.desc { d with refcount := d.refcount - 1 })).drop p) := by
  have hput : (h.put p (.desc { d with refcount := d.refcount - 1 })).mem p =
      some (.desc { d with refcount := d.refcount - 1 }) := by
    simp [Heap.mem_put, Heap.desc_eq_some.mp hd]
  by_cases hpos : 0 < d.refcount - 1
  · simp only [msiDescFree, hp, hd, Heap.setDesc_of_desc _ hd, hpos, if_true, if_false,
      Option.bind_eq_bind, Option.some_bind]
  · simp only [msiDescFree, hp, hd, Heap.setDesc_of_desc _ hd, hpos, if_true, if_false,
      Option.bind_eq_bind, Option.some_bind, Heap.link, hput, Option.map_some', Obj.list_desc, hl,
      ne_eq, not_true_eq_false, Heap.free_of_mem hput]

/-! ## `msi_device_cleanup` -/

theorem MsiDesc.erase_refcount {d d' : MsiDesc} (he : d'.erase = d.erase) (k : Nat) :
    { d' with refcount := k }.erase = { d with refcount := k }.erase := by
  cases d; cases d'; simp_all [MsiDesc.erase]

/-- The walk of `msi_device_cleanup` over a ring `rest` whose descriptors all hold a
reference: it never faults and empties the ring; a descriptor with one reference is freed, one
with more keeps its fields but one reference, and its `prev` names the sentinel. -/
theorem cleanupLoop_spec {r : Nat} : ∀ (rest : List Nat) (fuel : Nat) (h : Heap),
    Ring h r rest → rest.length < fuel →
    (∀ x ∈ rest, ∀ d, h.desc x = some d → 1 ≤ d.refcount) →
    ∃ h', cleanupLoop r fuel h (rest.headD r) = some h' ∧ Ring h' r [] ∧ h'.top = h.top ∧
      (∀ q, q ∉ r :: rest → h'.mem q = h.mem q) ∧
      ∀ x ∈ rest, ∀ d, h.desc x = some d →
        (d.refcount = 1 → h'.mem x = none) ∧
        (2 ≤ d.refcount → (h'.desc x).map MsiDesc.erase =
            some { d with refcount := d.refcount - 1 }.erase ∧
          ∃ n, h'.link x = some ⟨n, r⟩ ∧ n ≠ x)
  | [], fuel + 1, h, hring, _, _ =>
    ⟨h, by simp [cleanupLoop], hring, rfl, fun _ _ => rfl, by simp⟩
  | x :: rest, fuel + 1, h, hring, hf, hrc => by
    have hnd := hring.nodup
    simp only [List.nodup_cons, List.mem_cons, not_or] at hnd
    obtain ⟨⟨hrx, hrr⟩, hxr, -⟩ := hnd
    obtain ⟨d, hd⟩ := hring.descs x (List.mem_cons_self _ _)
    have hl : h.link x = some ⟨rest.headD r, r⟩ := @Ring.link_eq h r x [] rest hring
    obtain ⟨h₁, hu, hring₁, htop₁, hx₁, hframe₁, hdesc₁, -⟩ := @Ring.unlink_spec h r x [] rest hring
    have hd₁ : h₁.desc x = some d := by rw [Heap.desc, hx₁]; exact hd
    set h₂ := h₁.put x (.desc { d with refcount := d.refcount - 1 }) with hh₂
    set h₃ := if d.refcount - 1 = 0 then h₂.drop x else h₂ with hh₃
    have hmem₃ : ∀ q, q ≠ x → h₃.mem q = h₁.mem q := fun q hq => by
      rw [hh₃]; split <;> simp [hh₂, Heap.mem_put, hq]
    have hstep : cleanupLoop r (fuel + 1) h x =
        cleanupLoop r fuel h₃ (rest.headD r) := by
      have hx₂ : h₂.mem x = some (.desc { d with refcount := d.refcount - 1 }) := by
        simp [hh₂, Heap.mem_put, Heap.desc_eq_some.mp hd₁]
      rw [cleanupLoop, if_neg (Ne.symm hrx)]
      simp only [hl, hu, hd₁, Heap.setDesc_of_desc _ hd₁, Option.bind_eq_bind, Option.some_bind,
        ← hh₂]
      rw [hh₃]
      split <;> simp [Heap.free_of_mem hx₂]
    have hring₃ : Ring h₃ r rest := hring₁.congr
      (fun q hq => hmem₃ q fun h => hxr (h ▸ hq))
      (by simp [Heap.link, hmem₃ r hrx]) (by
        obtain ⟨md, hmd⟩ := hring₁.sentinel
        exact ⟨md, by rw [Heap.data, hmem₃ r hrx]; exact hmd⟩)
    -- the descriptors of `rest` keep their fields through the step
    have hrest : ∀ y ∈ rest, (h₃.desc y).map MsiDesc.erase = (h.desc y).map MsiDesc.erase :=
      fun y hy => by
        rw [← hdesc₁ y, Heap.desc, Heap.desc, hmem₃ y fun h => hxr (h ▸ hy)]
    have hrc₃ : ∀ y ∈ rest, ∀ d', h₃.desc y = some d' → 1 ≤ d'.refcount := fun y hy d' hd' => by
      obtain ⟨d₀, hd₀⟩ := hring.descs y (List.mem_cons_of_mem _ hy)
      have := hrest y hy
      rw [hd', hd₀] at this
      have he := Option.some.inj this
      exact (congrArg MsiDesc.refcount he).symm ▸ hrc y (List.mem_cons_of_mem _ hy) d₀ hd₀
    obtain ⟨h', hrun, hring', htop', hframe', hfacts⟩ :=
      cleanupLoop_spec rest fuel h₃ hring₃ (by simpa using hf) hrc₃
    have hx' : h'.mem x = h₃.mem x := hframe' x (by simp [Ne.symm hrx, hxr])
    refine ⟨h', by rw [List.headD_cons, hstep, hrun], hring', ?_, fun q hq => ?_,
      fun y hy d' hd' => ?_⟩
    · rw [htop', hh₃]; split <;> simp [hh₂, htop₁]
    · simp only [List.mem_cons, not_or] at hq
      rw [hframe' q (by simp [hq.1, hq.2.2]), hmem₃ q hq.2.1,
        hframe₁ q (by simp [hq.1, hq.2.1, hq.2.2])]
    · rcases List.mem_cons.mp hy with hyx | hy
      · rw [hyx] at hd' ⊢
        rw [hd] at hd'
        cases hd'
        have h1 := hrc x (List.mem_cons_self _ _) d hd
        refine ⟨fun h => ?_, fun h2 => ?_⟩
        · rw [hx', hh₃, if_pos (by omega)]; simp
        · have hx₃ : h₃.mem x = some (.desc { d with refcount := d.refcount - 1 }) := by
            rw [hh₃, if_neg (by omega)]
            simp [hh₂, Heap.mem_put, Heap.desc_eq_some.mp hd₁]
          refine ⟨by simp [Heap.desc, hx', hx₃], ?_⟩
          have hlist : d.list = ⟨rest.headD r, r⟩ := by
            have := (Heap.link_of_desc hd).symm.trans hl
            simpa using this
          refine ⟨rest.headD r, by simp [Heap.link, hx', hx₃, hlist], fun h => ?_⟩
          cases rest with
          | nil => exact hrx h
          | cons z zs => exact hxr (h ▸ List.mem_cons_self _ _)
      · obtain ⟨d₃, hd₃⟩ := hring₃.descs y hy
        have he : d₃.erase = d'.erase := by
          have := hrest y hy
          rw [hd₃, hd'] at this
          exact Option.some.inj this
        obtain ⟨h1, h2⟩ := hfacts y hy d₃ hd₃
        have hrc' : d₃.refcount = d'.refcount := (congrArg MsiDesc.refcount he :)
        refine ⟨fun h => h1 (hrc' ▸ h), fun h => ?_⟩
        obtain ⟨h2a, h2b⟩ := h2 (hrc' ▸ h)
        exact ⟨by rw [h2a, MsiDesc.erase_refcount he, hrc'], h2b⟩
  | _ :: _, 0, _, _, hf, _ => absurd hf (Nat.not_lt_zero _)

/-- `msi_device_cleanup(dev)` on a ring `xs` whose descriptors all hold a reference frees the
sentinel and clears `dev->msi_data`. Each descriptor loses one reference: one that had a
single reference is freed, one that had more survives, and its links still name its old
successor and the freed sentinel. -/
theorem msiDeviceCleanup_spec {s : State} {dev : Nat} {xs : List Nat} (hdev : dev ≠ 0)
    (hmd : (s.devs dev).msiData ≠ 0) (hring : Ring s.heap (s.devs dev).msiData xs)
    (hrc : ∀ x ∈ xs, ∀ d, s.heap.desc x = some d → 1 ≤ d.refcount) :
    ∃ s', msiDeviceCleanup s dev = some s' ∧ s'.heap.mem (s.devs dev).msiData = none ∧
      s'.devs = Function.update s.devs dev { s.devs dev with msiData := 0 } ∧ s'.irq = s.irq ∧
      (∀ q, q ∉ (s.devs dev).msiData :: xs → s'.heap.mem q = s.heap.mem q) ∧
      ∀ x ∈ xs, ∀ d, s.heap.desc x = some d →
        (d.refcount = 1 → s'.heap.mem x = none) ∧
        (2 ≤ d.refcount → (s'.heap.desc x).map MsiDesc.erase =
            some { d with refcount := d.refcount - 1 }.erase ∧
          ∃ n, s'.heap.link x = some ⟨n, (s.devs dev).msiData⟩ ∧ n ≠ x) := by
  generalize hr : (s.devs dev).msiData = r at hmd hring ⊢
  have hlen : (r :: xs).length ≤ s.heap.top := Heap.length_le_top hring.nodup hring.mem_live
  obtain ⟨h', hrun, hring', -, hframe, hfacts⟩ :=
    cleanupLoop_spec xs (s.heap.top + 1) s.heap hring (by simp at hlen; omega) hrc
  obtain ⟨md, hmd'⟩ := hring'.sentinel
  have hr' : h'.mem r = some (.data md) := Heap.data_eq_some.mp hmd'
  have hxr : ∀ x ∈ xs, x ≠ r := fun x hx h => (List.nodup_cons.mp hring.nodup).1 (h ▸ hx)
  refine ⟨⟨h'.drop r, Function.update s.devs dev ⟨0, (s.devs dev).msiDomain⟩, s.irq⟩, ?_,
    by simp, rfl, rfl, fun q hq => ?_, fun x hx d hd => ?_⟩
  · simp only [msiDeviceCleanup, hr, hdev, hmd, or_self, if_false, hring.sentinel_link,
      Option.bind_eq_bind, Option.some_bind, hrun, Heap.free_of_mem hr']
  · have hqr : q ≠ r := fun h => hq (h ▸ List.mem_cons_self _ _)
    simp [hqr, hframe q hq]
  · obtain ⟨h1, h2⟩ := hfacts x hx d hd
    refine ⟨fun h => by simp [hxr x hx, h1 h], fun h => ?_⟩
    obtain ⟨h2a, n, hn, hnx⟩ := h2 h
    exact ⟨by simpa [Heap.desc, hxr x hx] using h2a, n, by simpa [Heap.link, hxr x hx] using hn,
      hnx⟩

/-- A descriptor that held two references when its registry was cleaned up faults the next
`msi_desc_free`: its count reaches zero and `unlink` writes to the freed sentinel. -/
theorem msiDescFree_after_cleanup {s : State} {dev : Nat} {xs : List Nat} {x : Nat}
    {d : MsiDesc} (hdev : dev ≠ 0) (hmd : (s.devs dev).msiData ≠ 0)
    (hring : Ring s.heap (s.devs dev).msiData xs)
    (hrc : ∀ x ∈ xs, ∀ d, s.heap.desc x = some d → 1 ≤ d.refcount) (hx : x ∈ xs)
    (hx0 : x ≠ 0) (hd : s.heap.desc x = some d) (h2 : d.refcount = 2) :
    ∃ s', msiDeviceCleanup s dev = some s' ∧ msiDescFree s'.heap x = none := by
  obtain ⟨s', hrun, hr, -, -, -, hfacts⟩ := msiDeviceCleanup_spec hdev hmd hring hrc
  obtain ⟨he, n, hn, hnx⟩ := (hfacts x hx d hd).2 (by omega)
  obtain ⟨d', hd', he'⟩ := Option.map_eq_some'.mp he
  have hrc' : d'.refcount = 1 := by
    have := congrArg MsiDesc.refcount he'
    simp only [MsiDesc.erase] at this
    omega
  have hlist : d'.list = ⟨n, (s.devs dev).msiData⟩ := by
    have := (Heap.link_of_desc hd').symm.trans hn
    simpa using this
  have hxr : x ≠ (s.devs dev).msiData := fun h => (List.nodup_cons.mp hring.nodup).1 (h ▸ hx)
  set h₁ := s'.heap.put x (.desc { d' with refcount := 0 }) with hh₁
  have hl₁ : h₁.link x = some ⟨n, (s.devs dev).msiData⟩ := by
    simp [hh₁, Heap.link, Heap.mem_put, Heap.desc_eq_some.mp hd', hlist]
  have hr₁ : h₁.mem (s.devs dev).msiData = none := by
    simp [hh₁, Heap.mem_put, Ne.symm hxr, hr]
  refine ⟨s', hrun, ?_⟩
  simp only [msiDescFree, hx0, if_false, hd', hrc', Nat.sub_self, Heap.setDesc_of_desc _ hd',
    Option.bind_eq_bind, Option.some_bind, ← hh₁, Nat.lt_irrefl, hl₁, ne_eq, Ne.symm hnx,
    not_false_eq_true, if_true, Heap.unlink_of_dead_prev hl₁ (Ne.symm hnx) hr₁, Option.none_bind]
  exact if_pos hnx

/-- A descriptor of `msi_desc_alloc` linked by `msi_desc_list_add` holds two references, so
`msi_device_cleanup` leaves it live, still linked to the sentinel `10` it frees; the
`msi_desc_free` that drops its last reference then writes to the freed sentinel, as
`msiDescFree_after_cleanup` says of every such descriptor. -/
theorem msiDeviceCleanup_leaves_stale_links :
    ∃ s h s', msiDeviceInit (State.init fun d => ⟨0, if d = 1 then 7 else 0⟩) 1 (some 10) = (0, s) ∧
      msiDescListAdd (msiDescAlloc s.heap 1 1 (some 20)).2 10 20 = some (0, h) ∧
      msiDeviceCleanup { s with heap := h } 1 = some s' ∧ s'.heap.mem 10 = none ∧
      (s'.heap.desc 20).map (fun d => (d.list, d.refcount)) = some (⟨10, 10⟩, 1) ∧
      msiDescFree s'.heap 20 = none := by
  obtain ⟨s, h, hs, hh⟩ : ∃ s h, msiDeviceInit (State.init fun d => ⟨0, if d = 1 then 7 else 0⟩) 1
      (some 10) = (0, s) ∧ msiDescListAdd (msiDescAlloc s.heap 1 1 (some 20)).2 10 20 = some (0, h) :=
    ⟨_, _, rfl, rfl⟩
  have hfault := fun d => @msiDescFree_after_cleanup { s with heap := h } 1 [20] 20 d
  obtain ⟨-, rfl⟩ := Prod.mk.inj hs
  obtain ⟨-, rfl⟩ := Prod.mk.inj (Option.some.inj hh)
  -- the registry is the ring `10, 20`, and descriptor `20` holds two references
  obtain ⟨s', hs', hfree⟩ := hfault _ one_ne_zero (by decide)
    ⟨⟨_, rfl⟩, fun x hx => by obtain rfl := List.mem_singleton.mp hx; exact ⟨_, rfl⟩, by decide,
      .cons ⟨rfl, rfl⟩ (.cons ⟨rfl, rfl⟩ .nil)⟩
    (fun x hx d hd => by obtain rfl := List.mem_singleton.mp hx; cases hd; decide)
    (List.mem_singleton_self 20) (by decide) rfl rfl
  obtain rfl := Option.some.inj (hs'.symm.trans rfl)
  exact ⟨_, _, _, hs, hh, hs', by decide, by decide, hfree⟩

/-- A descriptor of `msi_alloc_vectors` holds two references, one from
`msi_desc_alloc_internal` and one from the registry, though only the registry refers to it;
`msi_device_cleanup` drops one, and the descriptor stays live with no registry and no
reference left. -/
theorem msiDeviceCleanup_leaks_vector :
    ∃ s s' s'', msiDeviceInit (State.init fun d => ⟨0, if d = 1 then 7 else 0⟩) 1 (some 10) = (0, s) ∧
      msiAllocVectors s 1 1 1 0 ⟨some 0, fun _ => some 20, fun _ => 5⟩ = some (1, s') ∧
      s'.heap.link 10 = some ⟨20, 20⟩ ∧ (s'.heap.desc 20).map MsiDesc.refcount = some 2 ∧
      msiDeviceCleanup s' 1 = some s'' ∧ s''.heap.mem 10 = none ∧ (s''.devs 1).msiData = 0 ∧
      (s''.heap.desc 20).map MsiDesc.refcount = some 1 :=
  ⟨_, _, _, rfl, rfl, by decide, by decide, rfl, by decide, by decide, by decide⟩

end ProtoKernel.Irq
