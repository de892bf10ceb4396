import Landsraad.Library.Checked
import Landsraad.Library.Mixing
import Mathlib.Data.Rat.Floor

/-!
# The random generator of the simulator

SplitMix64 again, and the two draws that the simulated cluster makes with it. Over a period of
the generator the draws have exactly the frequencies that their arguments ask for, up to what
`2 ^ 64` numbers allow.
-/

namespace Landsraad

open Checked

structure Rng where
  state : UInt64
deriving DecidableEq

namespace Rng

def new (seed : UInt64) : Rng := ⟨seed⟩

def nextU64 (r : Rng) : UInt64 × Rng :=
  let state := r.state + 0x9E3779B97F4A7C15
  let z := (state ^^^ (state >>> 30)) * 0xBF58476D1CE4E5B9
  let z := (z ^^^ (z >>> 27)) * 0x94D049BB133111EB
  (z ^^^ (z >>> 31), ⟨state⟩)

/-- True with probability `p` (0 never, 1 always). The shifted number has 53 bits, so that the
conversion and the division of the source are exact. -/
def chance (r : Rng) (p : ℚ) : Bool × Rng :=
  if p > 0 then
    let (x, r) := r.nextU64
    (decide (((x >>> 11).toNat : ℚ) / 2 ^ 53 ≤ p), r)
  else (false, r)

def below (r : Rng) (n : Nat) : Checked (Nat × Rng) :=
  if n = 0 then
    .error (.failStop "attempt to calculate the remainder with a divisor of zero")
  else
    let (x, r) := r.nextU64
    .ok (x.toNat % n, r)

/-- The generator after `k` numbers. -/
def skip (r : Rng) : Nat → Rng
  | 0 => r
  | k + 1 => (r.skip k).nextU64.2

variable {r : Rng} {p : ℚ} {n v : Nat}

theorem skip_state (k : Nat) :
    (r.skip k).state.toBitVec = r.state.toBitVec + BitVec.ofNat 64 k * 0x9E3779B97F4A7C15 := by
  induction k with
  | zero => simp [skip]
  | succ k ih =>
    show (r.skip k).state.toBitVec + 0x9E3779B97F4A7C15 = _
    rw [ih, BitVec.ofNat_add, add_mul, add_assoc, BitVec.one_mul]

/-- The numbers that the generator draws from its current state on. -/
theorem nextU64_skip (k : Nat) :
    (r.skip k).nextU64.1.toBitVec =
      Mixing.draw Mixing.splitMix 0x9E3779B97F4A7C15 (r.state.toBitVec + 0x9E3779B97F4A7C15) k := by
  show Mixing.splitMix ((r.skip k).state.toBitVec + 0x9E3779B97F4A7C15) = _
  rw [skip_state, Mixing.draw, add_right_comm]

theorem below_skip (k : Nat) (hn : 0 < n) :
    (r.skip k).below n = .ok ((r.skip k).nextU64.1.toNat % n, r.skip (k + 1)) := by
  rw [below, if_neg hn.ne']
  rfl

theorem chance_snd (k : Nat) (hp : 0 < p) : ((r.skip k).chance p).2 = r.skip (k + 1) := by
  rw [chance, if_pos hp]
  rfl

theorem chance_fst (k : Nat) (hp : 0 < p) :
    ((r.skip k).chance p).1 = true ↔
      (r.skip k).nextU64.1.toNat < (⌊p * 2 ^ 53⌋₊ + 1) * 2 ^ 11 := by
  have hscaled : 0 ≤ p * 2 ^ 53 := by positivity
  rw [chance, if_pos hp]
  show decide ((((r.skip k).nextU64.1 >>> 11).toNat : ℚ) / 2 ^ 53 ≤ p) = true ↔ _
  rw [decide_eq_true_iff, div_le_iff₀ (by positivity), ← Nat.le_floor_iff hscaled,
    UInt64.toNat_shiftRight, Nat.shiftRight_eq_div_pow, ← Nat.lt_succ_iff]
  exact Nat.div_lt_iff_lt_mul (by decide)

/-- After `k` draws the generator is `r.skip k`, whichever of the two draws they are. Over
`2 ^ 64` successive draws, from any state on, `below` returns each index equally often, up to one,
and `chance` is true as often as there are multiples of `2⁻⁵³` from 0 to `p` (and below 1), each
for `2 ^ 11` numbers. An event without a positive probability draws no number. -/
theorem frequencies (r : Rng) :
    (∀ n v, v < n → (∀ k, ∃ i < n, (r.skip k).below n = .ok (i, r.skip (k + 1))) ∧
      Nat.count (fun k => (r.skip k).below n = .ok (v, r.skip (k + 1))) (2 ^ 64) =
        2 ^ 64 / n + if v < 2 ^ 64 % n then 1 else 0) ∧
    (∀ p, 0 < p → (∀ k, ((r.skip k).chance p).2 = r.skip (k + 1)) ∧
      Nat.count (fun k => ((r.skip k).chance p).1 = true) (2 ^ 64) =
        min (2 ^ 64) ((⌊p * 2 ^ 53⌋₊ + 1) * 2 ^ 11)) ∧
    ∀ p ≤ 0, r.chance p = (false, r) := by
  have hstep : (0x9E3779B97F4A7C15 : BitVec 64) * 0xF1DE83E19937733D = 1 := by decide
  have hdraw : ∀ k, (r.skip k).nextU64.1.toNat =
      (Mixing.draw Mixing.splitMix 0x9E3779B97F4A7C15
        (r.state.toBitVec + 0x9E3779B97F4A7C15) k).toNat :=
    fun k => congrArg BitVec.toNat (nextU64_skip k)
  refine ⟨fun n v hv => ⟨fun k => ?_, ?_⟩, fun p hp => ⟨fun k => chance_snd k hp, ?_⟩,
    fun p hp => ?_⟩
  · have hpos := Nat.zero_lt_of_lt hv
    exact ⟨_, Nat.mod_lt _ hpos, below_skip k hpos⟩
  · simp only [below_skip _ (Nat.zero_lt_of_lt hv), Except.ok.injEq, Prod.mk.injEq, and_true,
      hdraw]
    exact Mixing.count_draw_mod Mixing.splitMix_injective hstep hv
  · simp only [chance_fst _ hp, hdraw]
    exact Mixing.count_draw_lt Mixing.splitMix_injective hstep _
  · exact if_neg (not_lt.mpr hp)

theorem frequencies_coin :
    (∀ k, (((Rng.new 7).skip k).chance (1 / 2)).2 = (Rng.new 7).skip (k + 1)) ∧
      Nat.count (fun k => (((Rng.new 7).skip k).chance (1 / 2)).1 = true) (2 ^ 64) =
        2 ^ 63 + 2 ^ 11 := by
  have hhalf : (1 / 2 : ℚ) * 2 ^ 53 = (2 ^ 52 : ℕ) := by norm_num
  obtain ⟨hnext, hcount⟩ := (frequencies (Rng.new 7)).2.1 (1 / 2) (by norm_num)
  refine ⟨hnext, ?_⟩
  rw [hcount, hhalf, Nat.floor_natCast]
  norm_num

end Rng

end Landsraad
