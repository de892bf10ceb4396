import Mathlib.Data.BitVec
import Mathlib.Data.Int.CardIntervalMod
import Mathlib.Tactic.Common

/-!
# Counter-based generators

A generator steps a counter by a fixed word that has an inverse and scrambles the counter with a
bijection. Whatever it starts from it then returns every word once in a period, so the
remainders of its words are as even as the number of words allows.
-/

namespace Mixing

variable {w : ℕ}

/-! ## Scrambling -/

/-- The word with its upper bits folded onto its lower ones. -/
def xorShift (k : ℕ) (z : BitVec w) : BitVec w := z ^^^ (z >>> k)

theorem getLsbD_xorShift (k i : ℕ) (z : BitVec w) :
    (xorShift k z).getLsbD i = (z.getLsbD i ^^ z.getLsbD (k + i)) := by
  simp [xorShift]

/-- From the top bit down, the folded word gives the word back. -/
theorem xorShift_injective {k : ℕ} (hk : 0 < k) : Function.Injective (xorShift (w := w) k) := by
  intro a b h
  have hbit : ∀ m i, w ≤ i + m → a.getLsbD i = b.getLsbD i := by
    intro m
    induction m with
    | zero =>
      intro i hi
      rw [BitVec.getLsbD_of_ge a i hi, BitVec.getLsbD_of_ge b i hi]
    | succ m ih =>
      intro i hi
      have hfold : (xorShift k a).getLsbD i = (xorShift k b).getLsbD i := by rw [h]
      rw [getLsbD_xorShift, getLsbD_xorShift, ih (k + i) (by omega)] at hfold
      simpa using hfold
  exact BitVec.eq_of_getLsbD_eq fun i _ => hbit w i (Nat.le_add_left _ _)

theorem mul_injective {c d : BitVec w} (h : c * d = 1) :
    Function.Injective fun z : BitVec w => z * c := by
  apply Function.LeftInverse.injective (g := fun z => z * d)
  intro z
  simp [mul_assoc, h]

/-- The scrambler of SplitMix64. -/
def splitMix (z : BitVec 64) : BitVec 64 :=
  xorShift 31 (xorShift 27 (xorShift 30 z * 0xBF58476D1CE4E5B9) * 0x94D049BB133111EB)

theorem splitMix_injective : Function.Injective splitMix := by
  have hfirst : Function.Injective fun z : BitVec 64 => z * 0xBF58476D1CE4E5B9 :=
    mul_injective (d := 0x96DE1B173F119089) (by decide)
  have hsecond : Function.Injective fun z : BitVec 64 => z * 0x94D049BB133111EB :=
    mul_injective (d := 0x319642B2D24D8EC3) (by decide)
  exact (xorShift_injective (by decide)).comp (hsecond.comp
    ((xorShift_injective (by decide)).comp (hfirst.comp (xorShift_injective (by decide)))))

/-! ## The words drawn -/

/-- The word that a generator with the counter `s` returns after `k` steps by `γ`. -/
def draw (mix : BitVec w → BitVec w) (γ s : BitVec w) (k : ℕ) : BitVec w :=
  mix (s + BitVec.ofNat w k * γ)

variable {mix : BitVec w → BitVec w} {γ δ s t : BitVec w}

theorem draw_add (m k : ℕ) : draw mix γ s (m + k) = draw mix γ (s + BitVec.ofNat w m * γ) k := by
  simp [draw, BitVec.ofNat_add, add_mul, add_assoc]

theorem draw_injective (hmix : Function.Injective mix) (k : ℕ) :
    Function.Injective fun s => draw mix γ s k :=
  fun _ _ h => add_right_cancel (hmix h)

theorem draw_injOn (hmix : Function.Injective mix) (hγ : γ * δ = 1) :
    Set.InjOn (fun k => (draw mix γ s k).toNat) (Set.Iio (2 ^ w)) := by
  intro i hi j hj h
  have hsteps := mul_injective hγ (add_left_cancel (hmix (BitVec.eq_of_toNat_eq h)))
  have hnat := congrArg BitVec.toNat hsteps
  rwa [BitVec.toNat_ofNat, BitVec.toNat_ofNat, Nat.mod_eq_of_lt hi, Nat.mod_eq_of_lt hj] at hnat

/-! ## Counting over a period -/

/-- A permutation of the numbers below `N` leaves it as they are how many have a property. -/
theorem count_of_injOn {f : ℕ → ℕ} {N : ℕ} (hf : Set.InjOn f (Set.Iio N))
    (hlt : ∀ k < N, f k < N) (p : ℕ → Prop) [DecidablePred p] :
    Nat.count (fun k => p (f k)) N = Nat.count p N := by
  have hf' : Set.InjOn f (Finset.range N) := by simpa using hf
  have himage : (Finset.range N).image f = Finset.range N := by
    apply Finset.eq_of_subset_of_card_le
    · intro x hx
      obtain ⟨k, hk, rfl⟩ := Finset.mem_image.mp hx
      exact Finset.mem_range.mpr (hlt k (Finset.mem_range.mp hk))
    · rw [Finset.card_image_of_injOn hf']
  have hsub := Finset.filter_subset (fun k => p (f k)) (Finset.range N)
  rw [Nat.count_eq_card_filter_range, Nat.count_eq_card_filter_range]
  calc ((Finset.range N).filter fun k => p (f k)).card
      = (((Finset.range N).filter fun k => p (f k)).image f).card :=
        (Finset.card_image_of_injOn (hf'.mono (Finset.coe_subset.mpr hsub))).symm
    _ = (((Finset.range N).image f).filter p).card := by
        rw [Finset.filter_image]
    _ = ((Finset.range N).filter p).card := by
        rw [himage]

/-- In a period as many of the numbers drawn have a property as of all numbers. -/
theorem count_draw (hmix : Function.Injective mix) (hγ : γ * δ = 1) (p : ℕ → Prop)
    [DecidablePred p] :
    Nat.count (fun k => p (draw mix γ s k).toNat) (2 ^ w) = Nat.count p (2 ^ w) :=
  count_of_injOn (draw_injOn hmix hγ) (fun k _ => (draw mix γ s k).isLt) p

/-- Each remainder is drawn equally often, up to one. -/
theorem count_draw_mod (hmix : Function.Injective mix) (hγ : γ * δ = 1) {r v : ℕ} (hv : v < r) :
    Nat.count (fun k => (draw mix γ s k).toNat % r = v) (2 ^ w) =
      2 ^ w / r + if v < 2 ^ w % r then 1 else 0 := by
  have hcount := Nat.count_modEq_card (2 ^ w) (Nat.zero_lt_of_lt hv) v
  simp only [Nat.ModEq, Nat.mod_eq_of_lt hv] at hcount
  rw [← hcount]
  exact count_draw hmix hγ fun x => x % r = v

theorem count_draw_lt (hmix : Function.Injective mix) (hγ : γ * δ = 1) (b : ℕ) :
    Nat.count (fun k => (draw mix γ s k).toNat < b) (2 ^ w) = min (2 ^ w) b := by
  rw [count_draw hmix hγ fun x => x < b, Nat.count_eq_card_filter_range]
  have hbelow : (Finset.range (2 ^ w)).filter (· < b) = Finset.range (min (2 ^ w) b) := by
    ext x
    simp only [Finset.mem_filter, Finset.mem_range, lt_min_iff]
  rw [hbelow, Finset.card_range]

end Mixing
