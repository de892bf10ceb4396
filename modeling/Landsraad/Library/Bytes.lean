import Mathlib.Data.List.Lex
import Mathlib.Data.String.Basic
import Mathlib.Tactic.Common
import Mathlib.Tactic.Ring

/-!
# Numbers as bytes

The encoding of a natural number in a fixed number of bytes, the least significant one first or
last. The big-endian encoding is strictly monotone for the lexicographic order.
-/

namespace Bytes

instance instLinearOrderUInt8 : LinearOrder UInt8 where
  le_refl := UInt8.le_refl
  le_trans _ _ _ := UInt8.le_trans
  lt_iff_le_not_ge a b := by
    rw [UInt8.le_iff_toNat_le, UInt8.le_iff_toNat_le, UInt8.lt_iff_toNat_lt]
    omega
  le_antisymm _ _ := UInt8.le_antisymm
  le_total := UInt8.le_total
  toDecidableLE := inferInstance
  toDecidableEq := inferInstance
  toDecidableLT := inferInstance

/-- The low `k` bytes of `n`, the least significant first. -/
def leBytes : ℕ → ℕ → List UInt8
  | 0, _ => []
  | k + 1, n => UInt8.ofNat n :: leBytes k (n / 256)

def leValue : List UInt8 → ℕ
  | [] => 0
  | b :: bs => b.toNat + 256 * leValue bs

def beBytes (k n : ℕ) : List UInt8 := (leBytes k n).reverse

variable {k n m : ℕ} {bs : List UInt8}

@[simp] theorem length_leBytes : (leBytes k n).length = k := by
  induction k generalizing n with
  | zero => rfl
  | succ k ih => rw [leBytes, List.length_cons, ih]

theorem leValue_lt (bs : List UInt8) : leValue bs < 256 ^ bs.length := by
  induction bs with
  | nil => decide
  | cons b bs ih =>
    have hb : b.toNat < 256 := b.toNat_lt
    rw [leValue, List.length_cons, pow_succ]
    omega

theorem leValue_leBytes (h : n < 256 ^ k) : leValue (leBytes k n) = n := by
  induction k generalizing n with
  | zero =>
    rw [pow_zero, Nat.lt_one_iff] at h
    rw [h]
    rfl
  | succ k ih =>
    have hdiv : n / 256 < 256 ^ k := by
      apply Nat.div_lt_of_lt_mul
      rw [mul_comm, ← pow_succ]
      exact h
    rw [leBytes, leValue, ih hdiv, UInt8.toNat_ofNat']
    omega

theorem leBytes_leValue (bs : List UInt8) : leBytes bs.length (leValue bs) = bs := by
  induction bs with
  | nil => rfl
  | cons b bs ih =>
    have hb : b.toNat < 256 := b.toNat_lt
    have hdiv : (b.toNat + 256 * leValue bs) / 256 = leValue bs := by omega
    have hbyte : UInt8.ofNat (b.toNat + 256 * leValue bs) = b := by
      apply UInt8.toNat_inj.mp
      rw [UInt8.toNat_ofNat']
      omega
    rw [List.length_cons, leValue, leBytes, hdiv, hbyte, ih]

/-- `k` bytes have the value `n` exactly if they are its encoding. -/
theorem leValue_eq_iff (hlen : bs.length = k) :
    leValue bs = n ↔ n < 256 ^ k ∧ bs = leBytes k n := by
  subst hlen
  constructor
  · rintro rfl
    exact ⟨leValue_lt bs, (leBytes_leValue bs).symm⟩
  · rintro ⟨hlt, hbs⟩
    rw [hbs, leValue_leBytes hlt]

theorem leBytes_inj (hn : n < 256 ^ k) (hm : m < 256 ^ k) (h : leBytes k n = leBytes k m) :
    n = m := by
  rw [← leValue_leBytes hn, h, leValue_leBytes hm]

/-! ## The lexicographic order -/

theorem leBytes_mod (k n : ℕ) : leBytes k (n % 256 ^ k) = leBytes k n := by
  induction k generalizing n with
  | zero => rfl
  | succ k ih =>
    have hbyte : UInt8.ofNat (n % 256 ^ (k + 1)) = UInt8.ofNat n := by
      apply UInt8.toNat_inj.mp
      rw [UInt8.toNat_ofNat', UInt8.toNat_ofNat', pow_succ]
      exact Nat.mod_mod_of_dvd n (Dvd.intro_left _ rfl)
    have hdiv : n % 256 ^ (k + 1) / 256 = n / 256 % 256 ^ k := by
      rw [pow_succ, mul_comm, Nat.mod_mul_right_div_self]
    rw [leBytes, leBytes, hbyte, hdiv, ih]

theorem leBytes_succ (k n : ℕ) :
    leBytes (k + 1) n = leBytes k n ++ [UInt8.ofNat (n / 256 ^ k)] := by
  induction k generalizing n with
  | zero => rw [pow_zero, Nat.div_one, leBytes, leBytes, leBytes, List.nil_append]
  | succ k ih =>
    rw [leBytes, ih, leBytes, Nat.div_div_eq_div_mul, ← pow_succ', List.cons_append]

/-- The leading byte of the big-endian encoding. -/
theorem beBytes_succ (k n : ℕ) :
    beBytes (k + 1) n = UInt8.ofNat (n / 256 ^ k) :: beBytes k n := by
  rw [beBytes, leBytes_succ, List.reverse_append]
  rfl

theorem beBytes_lt_beBytes (hm : m < 256 ^ k) (h : n < m) : beBytes k n < beBytes k m := by
  induction k generalizing n m with
  | zero =>
    rw [pow_zero] at hm
    omega
  | succ k ih =>
    have hpos : 0 < 256 ^ k := Nat.pow_pos (by decide)
    have hlead : m / 256 ^ k < 256 := by
      apply Nat.div_lt_of_lt_mul
      rw [← pow_succ]
      exact hm
    have hle : n / 256 ^ k ≤ m / 256 ^ k := Nat.div_le_div_right h.le
    rw [beBytes_succ, beBytes_succ, List.cons_lt_cons_iff]
    rcases hle.lt_or_eq with hlt | heq
    · left
      rw [UInt8.lt_iff_toNat_lt, UInt8.toNat_ofNat_of_lt' (hlt.trans hlead),
        UInt8.toNat_ofNat_of_lt' hlead]
      exact hlt
    · right
      rw [heq]
      refine ⟨rfl, ?_⟩
      have hrest : n % 256 ^ k < m % 256 ^ k := by
        have hn := Nat.div_add_mod n (256 ^ k)
        have hm := Nat.div_add_mod m (256 ^ k)
        rw [heq] at hn
        omega
      rw [beBytes, beBytes, ← leBytes_mod k n, ← leBytes_mod k m]
      exact ih (Nat.mod_lt m hpos) hrest

theorem beBytes_inj (hn : n < 256 ^ k) (hm : m < 256 ^ k) (h : beBytes k n = beBytes k m) :
    n = m :=
  leBytes_inj hn hm (List.reverse_injective h)

/-! ## Texts -/

theorem length_toList (b : ByteArray) : b.toList.length = b.size := by
  have hloop : ∀ i r, (ByteArray.toList.loop b i r).length = (b.size - i) + r.length := by
    intro i r
    fun_induction ByteArray.toList.loop b i r with
    | case1 i r h ih =>
      rw [ih, List.length_cons]
      omega
    | case2 i r h =>
      rw [List.length_reverse]
      omega
  rw [ByteArray.toList, hloop]
  simp

theorem utf8Len_le (l : List Char) : String.utf8Len l ≤ 4 * l.length := by
  induction l with
  | nil => simp
  | cons c l ih =>
    have hchar := Char.utf8Size_le_four c
    simp only [String.utf8Len, List.length_cons]
    omega

/-- The bytes of a text that ends in a decimal number of at most `k` digits. -/
theorem length_toUTF8_append (text : String) (hk : 0 < k) (hn : n < 10 ^ k) :
    (text ++ toString n).toUTF8.toList.length ≤ text.utf8ByteSize + 4 * k := by
  have hdigits : (Nat.toDigits 10 n).length ≤ k :=
    (Nat.length_toDigits_le_iff (by decide) hk).mpr hn
  have hrepr : (toString n).utf8ByteSize = String.utf8Len (Nat.toDigits 10 n) :=
    String.utf8ByteSize_ofList _
  have hlen := utf8Len_le (Nat.toDigits 10 n)
  rw [length_toList, String.toUTF8_eq_toByteArray, String.size_toByteArray,
    String.utf8ByteSize_append, hrepr]
  omega

end Bytes
