import Mathlib.Data.BitVec

/-!
# `ffs`, the find-first-set helper

`lib/ffs.c` computes the 1-based index of the lowest set bit of an `int` by a halving scan
over windows of 16, 8, 4, 2 and 1 bits. Each stage that finds its window clear adds the
window to `n` and shifts it out with `>>=`, which on a negative `int` is an arithmetic shift;
`halve` is one such stage, on the 32-bit pattern of the argument.

* `ffs_eq_zero_iff`, `ffs_lowestSetBit`: `ffs x = 0` exactly when `x = 0`, and otherwise
  `ffs x - 1` is the lowest set bit of `x`.
* `ffs_spec`: the same, stated bit by bit.

The proof follows the scan: `Scan x w s` says that the bits of `x` below `s.2 - 1` are clear,
that the current word is `x` shifted right by `s.2 - 1` on the bits that remain, and that the
lowest set bit of `x` lies less than `w` above `s.2 - 1`; a stage of window `w` takes the
invariant for `2 * w` to the one for `w` (`scan_halve`).
-/

namespace ProtoKernel.Lib

/-- The test `(i & (2^w - 1)) == 0` of a stage of `ffs`. -/
def lowClear (w : Nat) (i : BitVec 32) : Prop := i &&& BitVec.ofNat 32 (2 ^ w - 1) = 0

instance (w : Nat) (i : BitVec 32) : Decidable (lowClear w i) :=
  inferInstanceAs (Decidable (_ = _))

/-- One halving stage of `ffs` on the word and the count `n`. -/
def halve (w : Nat) (s : BitVec 32 × Nat) : BitVec 32 × Nat :=
  if lowClear w s.1 then (s.1.sshiftRight w, s.2 + w) else s

/-- `ffs` of `lib/ffs.c`. The last stage adds `1` and does not shift. -/
def ffs (i : BitVec 32) : Nat :=
  if i = 0 then 0
  else
    let s := halve 2 (halve 4 (halve 8 (halve 16 (i, 1))))
    if lowClear 1 s.1 then s.2 + 1 else s.2

/-- Bit `k` is the lowest set bit of `x`. -/
def LowestSetBit (x : BitVec 32) (k : Nat) : Prop :=
  k < 32 ∧ x.getLsbD k = true ∧ ∀ j, j < k → x.getLsbD j = false

theorem lowClear_iff {w : Nat} {i : BitVec 32} (hw : w ≤ 32) :
    lowClear w i ↔ ∀ j, j < w → i.getLsbD j = false := by
  constructor
  · intro h j hj
    have := congrArg (BitVec.getLsbD · j) h
    simpa [BitVec.getLsbD_ofNat, Nat.testBit_two_pow_sub_one, hj, show j < 32 by omega]
      using this
  · intro h
    apply BitVec.eq_of_getLsbD_eq
    intro j
    by_cases hjw : j.val < w
    · simp [h j hjw]
    · simp [BitVec.getLsbD_ofNat, Nat.testBit_two_pow_sub_one, hjw]

theorem exists_getLsbD_of_ne_zero {x : BitVec 32} (hx : x ≠ 0) :
    ∃ k, k < 32 ∧ x.getLsbD k = true := by
  by_contra h
  push_neg at h
  exact hx (BitVec.eq_of_getLsbD_eq fun j => by simpa using h j j.isLt)

/-! ## The scan invariant -/

/-- The state `s = (y, n)` of the scan of `x` before a stage of window `w`. -/
structure Scan (x : BitVec 32) (w : Nat) (s : BitVec 32 × Nat) : Prop where
  pos : 1 ≤ s.2
  below : ∀ j, j < s.2 - 1 → x.getLsbD j = false
  shifted : ∀ j, s.2 - 1 + j < 32 → s.1.getLsbD j = x.getLsbD (s.2 - 1 + j)
  found : ∃ k, k < w ∧ s.2 - 1 + k < 32 ∧ x.getLsbD (s.2 - 1 + k) = true

theorem scan_start {x : BitVec 32} (hx : x ≠ 0) : Scan x 32 (x, 1) := by
  obtain ⟨k, hk, hb⟩ := exists_getLsbD_of_ne_zero hx
  exact ⟨le_rfl, fun j hj => by omega, fun j _ => by simp, ⟨k, by omega, by simpa using hk,
    by simpa using hb⟩⟩

theorem scan_halve {x : BitVec 32} {w : Nat} {s : BitVec 32 × Nat} (hw : w ≤ 16)
    (h : Scan x (2 * w) s) : Scan x w (halve w s) := by
  obtain ⟨y, n⟩ := s
  obtain ⟨hpos, hbelow, hshift, k, hk, hk32, hbit⟩ := h
  simp only at hpos hbelow hshift hk32 hbit
  unfold halve
  split
  · rename_i hclear
    have hlow := (lowClear_iff (by omega)).mp hclear
    -- the set bit is not in the window that was found clear
    have hkw : w ≤ k := by
      by_contra hlt
      have := hshift k hk32
      rw [hlow k (by omega)] at this
      simp [← this] at hbit
    refine ⟨by simp only; omega, ?_, ?_, ⟨k - w, by omega, by simp only; omega, ?_⟩⟩
    · intro j hj
      simp only at hj
      by_cases hjn : j < n - 1
      · exact hbelow j hjn
      · by_cases hj32 : j < 32
        · have := hshift (j - (n - 1)) (by omega)
          rw [hlow _ (by omega), show n - 1 + (j - (n - 1)) = j by omega] at this
          exact this.symm
        · exact BitVec.getLsbD_ge _ _ (by omega)
    · intro j hj
      simp only at hj ⊢
      rw [BitVec.getLsbD_sshiftRight, if_pos (by omega), hshift _ (by omega)]
      simp only [show ¬ 32 ≤ j by omega, decide_False, Bool.not_false, Bool.true_and]
      congr 1
      omega
    · simp only
      rwa [show n + w - 1 + (k - w) = n - 1 + k by omega]
  · rename_i hset
    rw [lowClear_iff (by omega)] at hset
    push_neg at hset
    obtain ⟨j, hj, hyj⟩ := hset
    refine ⟨hpos, hbelow, hshift, ?_⟩
    by_cases hj32 : n - 1 + j < 32
    · exact ⟨j, hj, hj32, by simpa [← hshift j hj32] using hyj⟩
    · exact ⟨k, by omega, hk32, hbit⟩

/-! ## Correctness -/

/-- For `x ≠ 0`, `ffs x` is at least `1` and `ffs x - 1` is the lowest set bit of `x`. -/
theorem ffs_lowestSetBit {x : BitVec 32} (hx : x ≠ 0) :
    1 ≤ ffs x ∧ LowestSetBit x (ffs x - 1) := by
  have h : Scan x 2 (halve 2 (halve 4 (halve 8 (halve 16 (x, 1))))) :=
    scan_halve (w := 2) (by omega) <| scan_halve (w := 4) (by omega) <|
      scan_halve (w := 8) (by omega) <| scan_halve (w := 16) le_rfl (scan_start hx)
  simp only [ffs, hx, if_false]
  generalize halve 2 (halve 4 (halve 8 (halve 16 (x, 1)))) = s at h
  obtain ⟨y, n⟩ := s
  obtain ⟨hpos, hbelow, hshift, k, hk, hk32, hbit⟩ := h
  simp only at hpos hbelow hshift hk32 hbit ⊢
  have hy0 : y.getLsbD 0 = x.getLsbD (n - 1) := hshift 0 (by omega)
  by_cases hc : lowClear 1 y
  · simp only [hc, if_true]
    have hclear : y.getLsbD 0 = false := (lowClear_iff (by omega)).mp hc 0 (by omega)
    have hk1 : k = 1 := by
      by_contra hne
      rw [show k = 0 by omega, Nat.add_zero, ← hy0, hclear] at hbit
      cases hbit
    subst hk1
    refine ⟨by omega, by omega, by rwa [show n + 1 - 1 = n - 1 + 1 by omega], fun j hj => ?_⟩
    by_cases hjn : j < n - 1
    · exact hbelow j hjn
    · rw [show j = n - 1 by omega, ← hy0, hclear]
  · simp only [hc, if_false]
    rw [lowClear_iff (by omega)] at hc
    have hset : y.getLsbD 0 = true := by simpa using hc
    exact ⟨hpos, by omega, by rwa [← hy0], fun j hj => hbelow j (by omega)⟩

theorem ffs_eq_zero_iff (x : BitVec 32) : ffs x = 0 ↔ x = 0 := by
  constructor
  · intro h
    by_contra hx
    have := (ffs_lowestSetBit hx).1
    omega
  · intro h
    simp [ffs, h]

/-- `ffs` is `0` exactly at `0`; otherwise it lies in `1 .. 32`, bit `ffs x - 1` is set and
every bit below it is clear, arithmetic shifts of negative words included. -/
theorem ffs_spec (x : BitVec 32) :
    (ffs x = 0 ↔ x = 0) ∧
      (x ≠ 0 → 1 ≤ ffs x ∧ ffs x ≤ 32 ∧ x.getLsbD (ffs x - 1) = true ∧
        ∀ j, j < ffs x - 1 → x.getLsbD j = false) := by
  refine ⟨ffs_eq_zero_iff x, fun hx => ?_⟩
  obtain ⟨h1, hk, hbit, hbelow⟩ := ffs_lowestSetBit hx
  exact ⟨h1, by omega, hbit, hbelow⟩

example : ffs 0x80000000#32 = 32 := by decide

end ProtoKernel.Lib
