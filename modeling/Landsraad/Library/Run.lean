import Mathlib.Data.List.Induction
import Mathlib.Data.Set.Basic
import Mathlib.Tactic.Common

/-!
# Runs of a labelled transition function

`next s x` is the state after action `x`, or `none` where the action is not possible in `s`.
A run is a list of actions; the moments of a run are the states after its prefixes.

Two patterns of runs follow. A chain of steps that lower a natural number is no longer than the
number at its start. Beats made at least every `gap` ticks and noticed a fixed delay later leave
the latest noticed beat less than `gap` ticks old at the receiving end.
-/

namespace Run

variable {S X : Type*} (next : S → X → Option S)

/-- The state after performing the actions in order, if all of them were possible. -/
def exec : S → List X → Option S
  | s, [] => some s
  | s, x :: xs => (next s x).bind fun s' => exec s' xs

variable {next} {s s' s'' : S} {x : X} {xs ys : List X}

@[simp] theorem exec_nil (s : S) : exec next s [] = some s := rfl

theorem exec_cons : exec next s (x :: xs) = (next s x).bind fun s' => exec next s' xs := rfl

theorem exec_append :
    exec next s (xs ++ ys) = (exec next s xs).bind fun s' => exec next s' ys := by
  induction xs generalizing s with
  | nil => rfl
  | cons x xs ih =>
    rw [List.cons_append, exec_cons, exec_cons, Option.bind_assoc]
    simp only [ih]

theorem exec_append_eq_some :
    exec next s (xs ++ ys) = some s'' ↔
      ∃ s', exec next s xs = some s' ∧ exec next s' ys = some s'' := by
  rw [exec_append, Option.bind_eq_some_iff]

theorem exec_cons_eq_some :
    exec next s (x :: xs) = some s'' ↔ ∃ s', next s x = some s' ∧ exec next s' xs = some s'' := by
  rw [exec_cons, Option.bind_eq_some_iff]

theorem exec_singleton : exec next s [x] = next s x := by
  rw [exec_cons]
  cases next s x <;> rfl

theorem exec_getElem? {k : ℕ} (h : exec next s xs = some s'') (hx : xs[k]? = some x) :
    ∃ s₁ s₂, exec next s (xs.take k) = some s₁ ∧ next s₁ x = some s₂ ∧
      exec next s₂ (xs.drop (k + 1)) = some s'' := by
  obtain ⟨hk, rfl⟩ := List.getElem?_eq_some_iff.mp hx
  rw [← List.take_append_drop k xs, List.drop_eq_getElem_cons hk] at h
  obtain ⟨s₁, h₁, h⟩ := exec_append_eq_some.mp h
  obtain ⟨s₂, h₂, h⟩ := exec_cons_eq_some.mp h
  exact ⟨s₁, s₂, h₁, h₂, h⟩

/-- What holds at the start and survives every step of the run holds at its end. -/
theorem exec_induction {P : S → Prop} (start : P s)
    (step : ∀ s s' x, x ∈ xs → P s → next s x = some s' → P s')
    (h : exec next s xs = some s') : P s' := by
  induction xs generalizing s with
  | nil =>
    cases h
    exact start
  | cons x xs ih =>
    obtain ⟨s₁, hx, h⟩ := exec_cons_eq_some.mp h
    refine ih (step s s₁ x (by simp) start hx) ?_ h
    exact fun s s' y hy => step s s' y (List.mem_cons_of_mem x hy)

/-- What a step with one of the actions brings about, and every step of the run keeps, holds at
its end. -/
theorem exec_reaches {P Q : S → Prop} (hx : x ∈ xs) (start : P s)
    (keep : ∀ s s' y, y ∈ xs → P s → next s y = some s' → P s')
    (reach : ∀ s s', P s → next s x = some s' → Q s')
    (stay : ∀ s s' y, y ∈ xs → P s → Q s → next s y = some s' → Q s')
    (h : exec next s xs = some s') : Q s' := by
  obtain ⟨ys, zs, rfl⟩ := List.append_of_mem hx
  obtain ⟨s₁, h₁, h⟩ := exec_append_eq_some.mp h
  obtain ⟨s₂, h₂, h⟩ := exec_cons_eq_some.mp h
  have hfirst : P s₁ := exec_induction start (fun s s' y hy => keep s s' y (by simp [hy])) h₁
  have hnext : P s₂ ∧ Q s₂ := ⟨keep s₁ s₂ x hx hfirst h₂, reach s₁ s₂ hfirst h₂⟩
  refine (exec_induction (P := fun s => P s ∧ Q s) hnext (fun s s' y hy hs hstep => ?_) h).2
  have hmem : y ∈ ys ++ x :: zs := by simp [hy]
  exact ⟨keep s s' y hmem hs.1 hstep, stay s s' y hmem hs.1 hs.2 hstep⟩

variable (next) in
/-- `P` holds of the state before and the label of every step of the run. -/
def Throughout (P : S → X → Prop) (s : S) (xs : List X) : Prop :=
  ∀ ys x, ys ++ [x] <+: xs → ∀ s', exec next s ys = some s' → P s' x

variable (next) in
def Always (P : S → Prop) (s : S) (xs : List X) : Prop :=
  ∀ ys, ys <+: xs → ∀ s', exec next s ys = some s' → P s'

variable {P Q : S → X → Prop}

theorem throughout_nil : Throughout next P s [] := by
  intro ys x hy
  have := hy.length_le
  simp at this

theorem throughout_cons :
    Throughout next P s (x :: xs) ↔ P s x ∧ ∀ s', next s x = some s' → Throughout next P s' xs := by
  constructor
  · intro h
    refine ⟨h [] x (List.prefix_append [x] xs) s rfl, fun s' hx ys y hy s'' hs => ?_⟩
    refine h (x :: ys) y ?_ s'' (exec_cons_eq_some.mpr ⟨s', hx, hs⟩)
    exact (List.prefix_cons_inj x).mpr hy
  · rintro ⟨hP, hrest⟩ ys y hy s'' hs
    cases ys with
    | nil =>
      cases hs
      obtain ⟨rfl, _⟩ := List.cons_prefix_cons.mp hy
      exact hP
    | cons z ys =>
      obtain ⟨rfl, hrestPrefix⟩ := List.cons_prefix_cons.mp hy
      obtain ⟨s', hx, hs⟩ := exec_cons_eq_some.mp hs
      exact hrest s' hx ys y hrestPrefix s'' hs

instance instDecidableThroughout [∀ s x, Decidable (P s x)] :
    ∀ s xs, Decidable (Throughout next P s xs)
  | _, [] => .isTrue throughout_nil
  | s, x :: xs =>
    match hx : next s x with
    | none => decidable_of_iff (P s x) (by simp [throughout_cons, hx])
    | some s' =>
      have := instDecidableThroughout s' xs
      decidable_of_iff (P s x ∧ Throughout next P s' xs) (by simp [throughout_cons, hx])

/-- Where every step that meets `P` is possible, a run whose steps meet `P` goes to its end. -/
theorem Throughout.completes {I : S → Prop} (h : Throughout next P s xs) (start : I s)
    (step : ∀ s x, I s → P s x → ∃ s', next s x = some s' ∧ I s') :
    ∃ s', exec next s xs = some s' ∧ I s' := by
  induction xs generalizing s with
  | nil => exact ⟨s, rfl, start⟩
  | cons x xs ih =>
    obtain ⟨hP, hrest⟩ := throughout_cons.mp h
    obtain ⟨s', hx, hI⟩ := step s x start hP
    obtain ⟨s'', hs, hI'⟩ := ih (hrest s' hx) hI
    exact ⟨s'', exec_cons_eq_some.mpr ⟨s', hx, hs⟩, hI'⟩

theorem exec_completes {I : S → Prop} (start : I s)
    (step : ∀ s x, x ∈ xs → I s → ∃ s', next s x = some s' ∧ I s') :
    ∃ s', exec next s xs = some s' ∧ I s' := by
  have hall : Throughout next (fun _ x => x ∈ xs) s xs :=
    fun ys x hpre _ _ => hpre.subset (by simp)
  exact hall.completes start fun s x hs hx => step s x hx hs

theorem exec_of_isPrefix (h : exec next s xs = some s') (hy : ys <+: xs) :
    ∃ s'', exec next s ys = some s'' := by
  obtain ⟨zs, rfl⟩ := hy
  obtain ⟨s'', hs, _⟩ := exec_append_eq_some.mp h
  exact ⟨s'', hs⟩

theorem next_of_isPrefix (h : exec next s xs = some s') (hy : ys ++ [x] <+: xs)
    (hs : exec next s ys = some s'') : ∃ s₁, next s'' x = some s₁ := by
  obtain ⟨s₁, h₁⟩ := exec_of_isPrefix h hy
  obtain ⟨s₂, h₂, hx⟩ := exec_append_eq_some.mp h₁
  rw [hs] at h₂
  cases h₂
  exact ⟨s₁, by rwa [exec_singleton] at hx⟩

theorem Throughout.of_isPrefix (h : Throughout next P s xs) (hy : ys <+: xs) :
    Throughout next P s ys := fun zs x hz s' hs => h zs x (hz.trans hy) s' hs

theorem Throughout.of_append (h : Throughout next P s (xs ++ ys))
    (hs : exec next s xs = some s') : Throughout next P s' ys := by
  intro zs x hz s'' hs'
  refine h (xs ++ zs) x ?_ s'' (exec_append_eq_some.mpr ⟨s', hs, hs'⟩)
  rw [List.append_assoc]
  exact (List.prefix_append_right_inj xs).mpr hz

theorem throughout_congr (h : exec next s xs = some s')
    (hPQ : ∀ s s' x, next s x = some s' → (P s x ↔ Q s x)) :
    Throughout next P s xs ↔ Throughout next Q s xs := by
  constructor
  · intro hP ys x hy s₁ hs
    obtain ⟨s₂, hx⟩ := next_of_isPrefix h hy hs
    exact (hPQ s₁ s₂ x hx).mp (hP ys x hy s₁ hs)
  · intro hQ ys x hy s₁ hs
    obtain ⟨s₂, hx⟩ := next_of_isPrefix h hy hs
    exact (hPQ s₁ s₂ x hx).mpr (hQ ys x hy s₁ hs)

/-- What holds at the start and survives every step that meets `P` holds at every moment of a
run whose steps all meet `P`. -/
theorem Throughout.always {I : S → Prop} (h : Throughout next P s xs) (start : I s)
    (step : ∀ s s' x, I s → P s x → next s x = some s' → I s') : Always next I s xs := by
  intro ys
  induction ys using List.reverseRecOn with
  | nil =>
    intro _ s' hs
    cases hs
    exact start
  | append_singleton ys x ih =>
    intro hy s' hs
    obtain ⟨s₁, h₁, hx⟩ := exec_append_eq_some.mp hs
    rw [exec_singleton] at hx
    have hy' : ys <+: xs := (List.prefix_append ys [x]).trans hy
    exact step s₁ s' x (ih hy' s₁ h₁) (h ys x hy s₁ h₁) hx

theorem Always.imp {I J : S → Prop} (h : Always next I s xs) (hIJ : ∀ s, I s → J s) :
    Always next J s xs := fun ys hy s' hs => hIJ s' (h ys hy s' hs)

end Run

namespace Descent

variable {S : Type*} {step : S → S → Prop} {s s' s'' : S} {k : ℕ}

variable (step) in
/-- `s'` is reached from `s` by exactly `k` steps. -/
inductive Chain : ℕ → S → S → Prop
  | nil (s : S) : Chain 0 s s
  | snoc {k : ℕ} {s s' s'' : S} : Chain k s s' → step s' s'' → Chain (k + 1) s s''

theorem Chain.invariant {I : S → Prop} (hstep : ∀ s s', I s → step s s' → I s')
    (hs : I s) (h : Chain step k s s') : I s' := by
  induction h with
  | nil => exact hs
  | snoc _ hlast ih => exact hstep _ _ (ih hs) hlast

/-- The length of a chain is paid for by what the measure loses along it. -/
theorem Chain.length_le {I : S → Prop} {μ : S → ℕ} (hstep : ∀ s s', I s → step s s' → I s')
    (hlower : ∀ s s', I s → step s s' → μ s' < μ s) (hs : I s) (h : Chain step k s s') :
    k + μ s' ≤ μ s := by
  induction h with
  | nil => exact Nat.le_of_eq (Nat.zero_add _)
  | snoc hprev hlast ih =>
    have hdown := hlower _ _ (hprev.invariant hstep hs) hlast
    have hbound := ih hs
    omega

/-- A run of a transition function each of whose steps is a step of the relation. -/
theorem Chain.of_exec {X : Type*} {next : S → X → Option S}
    (hnext : ∀ s x s', next s x = some s' → step s s') {xs : List X}
    (h : Run.exec next s xs = some s') : Chain step xs.length s s' := by
  induction xs using List.reverseRecOn generalizing s' with
  | nil =>
    cases h
    exact .nil s
  | append_singleton xs x ih =>
    obtain ⟨s₁, h₁, hx⟩ := Run.exec_append_eq_some.mp h
    rw [Run.exec_singleton] at hx
    rw [List.length_append]
    exact (ih h₁).snoc (hnext s₁ x s' hx)

end Descent

namespace Heartbeat

/-- Every moment from `start` on and before `horizon` comes less than `gap` after a beat that was
made since `start`. -/
def Steady (beats : Set ℕ) (start horizon gap : ℕ) : Prop :=
  ∀ x, start ≤ x → x < horizon → ∃ s ∈ beats, start ≤ s ∧ s ≤ x ∧ x < s + gap

variable {beats beats' : Set ℕ} {start horizon horizon' gap : ℕ}

theorem Steady.first (hbeat : start ∈ beats) (h : horizon ≤ start + gap) :
    Steady beats start horizon gap :=
  fun _ hx hlt => ⟨start, hbeat, le_rfl, hx, hlt.trans_le h⟩

theorem Steady.mono (h : Steady beats start horizon gap) (hbeats : beats ⊆ beats')
    (hle : horizon' ≤ horizon) : Steady beats' start horizon' gap := by
  intro x hx hlt
  obtain ⟨s, hs, hrest⟩ := h x hx (hlt.trans_le hle)
  exact ⟨s, hbeats hs, hrest⟩

/-- A beat at the horizon moves the horizon on. -/
theorem Steady.beat (h : Steady beats start horizon gap) (hbeats : beats ⊆ beats')
    (hbeat : horizon ∈ beats') (hstart : start ≤ horizon) (hle : horizon' ≤ horizon + gap) :
    Steady beats' start horizon' gap := by
  intro x hx hlt
  rcases Nat.lt_or_ge x horizon with hold | hnew
  · exact h.mono hbeats le_rfl x hx hold
  · exact ⟨horizon, hbeat, hstart, hnew, hlt.trans_le hle⟩

/-- Once the first beat can have been noticed, some beat was noticed less than `gap` ago. -/
theorem Steady.noticed {delay now : ℕ} (h : Steady beats start horizon gap)
    (hstart : start + delay ≤ now) (hnow : now < horizon + delay) :
    ∃ s ∈ beats, start ≤ s ∧ s + delay ≤ now ∧ now < s + delay + gap := by
  obtain ⟨s, hs, hle, hold, hlt⟩ := h (now - delay) (by omega) (by omega)
  exact ⟨s, hs, hle, by omega, by omega⟩

end Heartbeat
