import Mathlib.Data.List.Infix
import Mathlib.Tactic.Common

/-!
# Agreement of sequences up to a position

Two replicas are compared by the longest prefix they are known to share. The relation
carries both length bounds, so that an agreeing position is a position of both sequences.
-/

namespace ReplicatedLog

variable {ε : Type*}

/-- Both sequences have at least `n` elements and their first `n` elements coincide. -/
def AgreeUpTo (n : ℕ) (l l' : List ε) : Prop :=
  n ≤ l.length ∧ n ≤ l'.length ∧ ∀ i < n, l[i]? = l'[i]?

namespace AgreeUpTo

variable {n m : ℕ} {l l' l'' : List ε}

theorem refl (h : n ≤ l.length) : AgreeUpTo n l l := ⟨h, h, fun _ _ => rfl⟩

theorem zero (l l' : List ε) : AgreeUpTo 0 l l' :=
  ⟨Nat.zero_le _, Nat.zero_le _, fun _ h => absurd h (Nat.not_lt_zero _)⟩

theorem symm (h : AgreeUpTo n l l') : AgreeUpTo n l' l :=
  ⟨h.2.1, h.1, fun i hi => (h.2.2 i hi).symm⟩

theorem trans (h : AgreeUpTo n l l') (h' : AgreeUpTo n l' l'') : AgreeUpTo n l l'' :=
  ⟨h.1, h'.2.1, fun i hi => (h.2.2 i hi).trans (h'.2.2 i hi)⟩

theorem mono (h : AgreeUpTo n l l') (hm : m ≤ n) : AgreeUpTo m l l' :=
  ⟨hm.trans h.1, hm.trans h.2.1, fun i hi => h.2.2 i (hi.trans_le hm)⟩

theorem of_isPrefix (h : l <+: l') (hn : n ≤ l.length) : AgreeUpTo n l l' := by
  refine ⟨hn, hn.trans h.length_le, ?_⟩
  intro i hi
  have hil : i < l.length := by omega
  rw [List.getElem?_eq_getElem hil]
  exact (List.prefix_iff_getElem?.mp h i hil).symm

theorem prefix_right (h : AgreeUpTo n l l') (hp : l' <+: l'') : AgreeUpTo n l l'' :=
  h.trans (of_isPrefix hp h.2.1)

theorem prefix_left (h : AgreeUpTo n l l'') (hp : l <+: l') : AgreeUpTo n l' l'' :=
  (h.symm.prefix_right hp).symm

/-- Agreement with an extension descends to the shorter sequence as far as that one reaches. -/
theorem of_prefix_right (h : AgreeUpTo n l l'') (hp : l' <+: l'') (hn : n ≤ l'.length) :
    AgreeUpTo n l l' :=
  h.trans (of_isPrefix hp hn).symm

theorem take_left (h : AgreeUpTo n l l') (hm : n ≤ m) : AgreeUpTo n (l.take m) l' :=
  (h.symm.of_prefix_right (List.take_prefix m l) (by
    rw [List.length_take]
    exact le_min hm h.1)).symm

theorem of_take_isPrefix (hn : n ≤ l.length) (hp : l.take n <+: l') : AgreeUpTo n l l' := by
  have hlen : (l.take n).length = n := by rw [List.length_take, min_eq_left hn]
  exact ((refl hn).take_left le_rfl).symm.trans (of_isPrefix hp hlen.ge)

theorem getElem?_eq (h : AgreeUpTo n l l') {i : ℕ} (hi : i < n) : l[i]? = l'[i]? := h.2.2 i hi

theorem take_eq (h : AgreeUpTo n l l') : l.take n = l'.take n := by
  apply List.ext_getElem?
  intro i
  by_cases hi : i < n
  · rw [List.getElem?_take_of_lt hi, List.getElem?_take_of_lt hi, h.2.2 i hi]
  · rw [List.getElem?_take_eq_none (by omega), List.getElem?_take_eq_none (by omega)]

end AgreeUpTo

theorem agreeUpTo_succ_cons {x y : ε} {l l' : List ε} {n : ℕ} :
    AgreeUpTo (n + 1) (x :: l) (y :: l') ↔ x = y ∧ AgreeUpTo n l l' := by
  constructor
  · rintro ⟨hl, hl', h⟩
    have hxy := h 0 (Nat.succ_pos n)
    refine ⟨by simpa using hxy, Nat.le_of_succ_le_succ hl, Nat.le_of_succ_le_succ hl', ?_⟩
    intro i hi
    simpa using h (i + 1) (Nat.succ_lt_succ hi)
  · rintro ⟨rfl, hl, hl', h⟩
    refine ⟨Nat.succ_le_succ hl, Nat.succ_le_succ hl', ?_⟩
    intro i hi
    cases i with
    | zero => rfl
    | succ i => simpa using h i (Nat.lt_of_succ_lt_succ hi)

/-- The length of the longest common prefix. -/
def commonPrefix [DecidableEq ε] : List ε → List ε → ℕ
  | x :: xs, y :: ys => if x = y then commonPrefix xs ys + 1 else 0
  | _, _ => 0

theorem le_commonPrefix_iff [DecidableEq ε] {l l' : List ε} {n : ℕ} :
    n ≤ commonPrefix l l' ↔ AgreeUpTo n l l' := by
  induction l generalizing l' n with
  | nil =>
    rw [commonPrefix]
    · refine ⟨fun h => ?_, fun h => h.1⟩
      rw [Nat.le_zero.mp h]
      exact .zero _ _
    · simp
  | cons x xs ih =>
    cases l' with
    | nil =>
      rw [commonPrefix]
      · refine ⟨fun h => ?_, fun h => h.2.1⟩
        rw [Nat.le_zero.mp h]
        exact .zero _ _
      · simp
    | cons y ys =>
      cases n with
      | zero => exact iff_of_true (Nat.zero_le _) (.zero _ _)
      | succ n =>
        rw [commonPrefix, agreeUpTo_succ_cons, ← ih]
        split
        · next hxy => simp [hxy]
        · next hxy => simp [hxy]

theorem agreeUpTo_length_iff {l l' : List ε} : AgreeUpTo l.length l l' ↔ l <+: l' := by
  constructor
  · intro h
    apply List.prefix_iff_getElem?.mpr
    intro i hi
    rw [← h.getElem?_eq hi, List.getElem?_eq_getElem hi]
  · intro h
    exact .of_isPrefix h le_rfl

theorem AgreeUpTo.isPrefix_or {l l' : List ε} {n m : ℕ} (h : AgreeUpTo (min n m) l l') :
    l.take n <+: l'.take m ∨ l'.take m <+: l.take n := by
  rcases Nat.le_total n m with hnm | hmn
  · left
    rw [min_eq_left hnm] at h
    rw [h.take_eq]
    exact List.take_prefix_take_left hnm
  · right
    rw [min_eq_right hmn] at h
    rw [← h.take_eq]
    exact List.take_prefix_take_left hmn

/-! ## Families of comparable sequences -/

/-- The longest of the sequences, the first one if several tie. -/
def longest : List (List ε) → List ε
  | [] => []
  | l :: ls => if (longest ls).length ≤ l.length then l else longest ls

theorem longest_mem {ls : List (List ε)} (h : ls ≠ []) : longest ls ∈ ls := by
  induction ls with
  | nil => exact absurd rfl h
  | cons l ls ih =>
    rw [longest]
    split
    · exact List.mem_cons_self
    · next hlt =>
      apply List.mem_cons_of_mem
      apply ih
      rintro rfl
      exact hlt (Nat.zero_le _)

theorem length_le_longest {ls : List (List ε)} {l : List ε} (h : l ∈ ls) :
    l.length ≤ (longest ls).length := by
  induction ls with
  | nil => cases h
  | cons l' ls ih =>
    rw [longest]
    rcases List.mem_cons.mp h with rfl | h
    · split <;> omega
    · have := ih h
      split <;> omega

/-- If any two of the sequences are comparable, the longest one extends them all. -/
theorem isPrefix_longest {ls : List (List ε)}
    (hcomp : ∀ l ∈ ls, ∀ l' ∈ ls, l <+: l' ∨ l' <+: l) {l : List ε} (h : l ∈ ls) :
    l <+: longest ls := by
  have hmem := longest_mem (List.ne_nil_of_mem h)
  rcases hcomp l h _ hmem with hp | hp
  · exact hp
  · rw [hp.eq_of_length_le (length_le_longest h)]

end ReplicatedLog
