import Mathlib.Tactic.Common

/-!
# Checked execution

A computation either returns or panics. Unsigned 64-bit arithmetic is done on natural
numbers and panics where the machine word would overflow; reading, writing and slicing a
sequence panic outside its bounds.
-/

/-- Why a computation did not return. -/
inductive Panic
  | overflow
  | outOfRange
  | assertion (text : String)
  | failStop (text : String)
deriving DecidableEq, Repr

abbrev Checked := Except Panic

namespace Checked

variable {α β : Type}

/-- One more than the largest 64-bit word. -/
def wordSize : Nat := UInt64.size

def add (a b : Nat) : Checked Nat :=
  if a + b < wordSize then .ok (a + b) else .error .overflow

def sub (a b : Nat) : Checked Nat :=
  if b ≤ a then .ok (a - b) else .error .overflow

def get (xs : List α) (i : Nat) : Checked α :=
  match xs[i]? with
  | some x => .ok x
  | none => .error .outOfRange

def set (xs : List α) (i : Nat) (x : α) : Checked (List α) :=
  if i < xs.length then .ok (xs.set i x) else .error .outOfRange

/-- The elements at positions `start` to `stop`, the latter excluded. -/
def slice (xs : List α) (start stop : Nat) : Checked (List α) :=
  if start ≤ stop ∧ stop ≤ xs.length then .ok ((xs.take stop).drop start)
  else .error .outOfRange

def assert (p : Prop) [Decidable p] (text : String) : Checked Unit :=
  if p then .ok () else .error (.assertion text)

/-- The value of a successful operation whose error stops the process. -/
def expect (x : Option α) (text : String) : Checked α :=
  match x with
  | some a => .ok a
  | none => .error (.failStop text)

/-! ## Inversion of a normal return -/

@[simp] theorem ok_bind (a : α) (f : α → Checked β) : (Except.ok a >>= f : Checked β) = f a := rfl

theorem bind_eq_ok {x : Checked α} {f : α → Checked β} {b : β} :
    (x >>= f) = .ok b ↔ ∃ a, x = .ok a ∧ f a = .ok b := by
  cases x <;> simp [Bind.bind, Except.bind]

theorem pure_eq_ok {a b : α} : (pure a : Checked α) = .ok b ↔ a = b := by
  simp [pure, Except.pure]

theorem map_eq_ok {x : Checked α} {f : α → β} {b : β} :
    f <$> x = .ok b ↔ ∃ a, x = .ok a ∧ f a = b := by
  cases x <;> simp [Functor.map, Except.map]

theorem eq_ok_get {x : Checked α} (h : x.toOption.isSome) : x = .ok (x.toOption.get h) := by
  cases x with
  | ok a => rfl
  | error p => cases h

/-- The panic of a computation that does not return. -/
def panicOf : Checked α → Option Panic
  | .ok _ => none
  | .error p => some p

theorem panicOf_eq_some {x : Checked α} {p : Panic} : panicOf x = some p ↔ x = .error p := by
  cases x <;> simp [panicOf]

theorem add_eq_ok {a b c : Nat} : add a b = .ok c ↔ a + b < wordSize ∧ c = a + b := by
  unfold add
  split <;> grind

theorem sub_eq_ok {a b c : Nat} : sub a b = .ok c ↔ b ≤ a ∧ c = a - b := by
  unfold sub
  split <;> grind

theorem get_eq_ok {xs : List α} {i : Nat} {x : α} : get xs i = .ok x ↔ xs[i]? = some x := by
  unfold get
  cases xs[i]? <;> simp

theorem set_eq_ok {xs ys : List α} {i : Nat} {x : α} :
    set xs i x = .ok ys ↔ i < xs.length ∧ ys = xs.set i x := by
  unfold set
  split <;> grind

theorem slice_eq_ok {xs ys : List α} {start stop : Nat} :
    slice xs start stop = .ok ys ↔
      start ≤ stop ∧ stop ≤ xs.length ∧ ys = (xs.take stop).drop start := by
  unfold slice
  split <;> grind

theorem assert_eq_ok {p : Prop} [Decidable p] {text : String} {u : Unit} :
    assert p text = .ok u ↔ p := by
  unfold assert
  split <;> simp_all

theorem assert_of {p : Prop} [Decidable p] {text : String} (h : p) : assert p text = .ok () :=
  if_pos h

/-- A panic of a sequence comes from its first half, or from the rest after a normal return. -/
theorem bind_eq_error {x : Checked α} {f : α → Checked β} {p : Panic} :
    (x >>= f) = .error p ↔ x = .error p ∨ ∃ a, x = .ok a ∧ f a = .error p := by
  cases x <;> simp [Bind.bind, Except.bind]

theorem mapM_eq_ok {f : α → Checked β} {xs : List α} {ys : List β} (h : xs.mapM f = .ok ys) :
    List.Forall₂ (fun x y => f x = .ok y) xs ys := by
  induction xs generalizing ys with
  | nil =>
    rw [List.mapM_nil, pure_eq_ok] at h
    subst h
    exact .nil
  | cons x xs ih =>
    rw [List.mapM_cons, bind_eq_ok] at h
    obtain ⟨y, hy, h⟩ := h
    rw [bind_eq_ok] at h
    obtain ⟨zs, hzs, h⟩ := h
    rw [pure_eq_ok] at h
    subst h
    exact .cons hy (ih hzs)

/-! ## Computations that return -/

/-- `x` returns. -/
def Returns (x : Checked α) : Prop := ∃ a, x = .ok a

namespace Returns

@[simp] theorem ok (a : α) : Returns (.ok a : Checked α) := ⟨a, rfl⟩

@[simp] theorem pure (a : α) : Returns (Pure.pure a : Checked α) := ⟨a, rfl⟩

/-- A sequence returns if its first half returns a value from which the rest returns. -/
theorem bind_iff {x : Checked α} {f : α → Checked β} :
    Returns (x >>= f) ↔ ∃ a, x = .ok a ∧ Returns (f a) := by
  simp only [Returns, bind_eq_ok]
  constructor
  · rintro ⟨b, a, ha, hb⟩
    exact ⟨a, ha, b, hb⟩
  · rintro ⟨a, ha, b, hb⟩
    exact ⟨b, a, ha, hb⟩

theorem bind {x : Checked α} {f : α → Checked β} (hx : Returns x)
    (hf : ∀ a, x = .ok a → Returns (f a)) : Returns (x >>= f) := by
  obtain ⟨a, ha⟩ := hx
  exact bind_iff.mpr ⟨a, ha, hf a ha⟩

/-- What follows a computation that returns decides. -/
theorem bind_iff_of {x : Checked α} {f : α → Checked β} {p : Prop} (hx : Returns x)
    (hf : ∀ a, x = .ok a → (Returns (f a) ↔ p)) : Returns (x >>= f) ↔ p := by
  obtain ⟨a, ha⟩ := hx
  rw [← hf a ha, ha]
  rfl

theorem bind_pure_iff {x : Checked α} {f : α → β} :
    Returns (x >>= fun a => Pure.pure (f a)) ↔ Returns x := by
  rw [bind_iff]
  exact ⟨fun ⟨a, ha, _⟩ => ⟨a, ha⟩, fun ⟨a, ha⟩ => ⟨a, ha, pure (f a)⟩⟩

theorem add {a b : Nat} (h : a + b < wordSize) : Returns (Checked.add a b) :=
  ⟨_, add_eq_ok.mpr ⟨h, rfl⟩⟩

theorem sub {a b : Nat} (h : b ≤ a) : Returns (Checked.sub a b) := ⟨_, sub_eq_ok.mpr ⟨h, rfl⟩⟩

theorem get {xs : List α} {i : Nat} (h : i < xs.length) : Returns (Checked.get xs i) :=
  ⟨_, get_eq_ok.mpr (List.getElem?_eq_getElem h)⟩

theorem set {xs : List α} {i : Nat} {x : α} (h : i < xs.length) : Returns (Checked.set xs i x) :=
  ⟨_, set_eq_ok.mpr ⟨h, rfl⟩⟩

theorem mapM_iff {f : α → Checked β} {xs : List α} :
    Returns (xs.mapM f) ↔ ∀ x ∈ xs, Returns (f x) := by
  induction xs with
  | nil => simp
  | cons x xs ih =>
    rw [List.mapM_cons, bind_iff, List.forall_mem_cons, ← ih]
    constructor
    · rintro ⟨y, hy, h⟩
      exact ⟨⟨y, hy⟩, bind_pure_iff.mp h⟩
    · rintro ⟨⟨y, hy⟩, h⟩
      exact ⟨y, hy, bind_pure_iff.mpr h⟩

end Returns

/-! ## The panics a computation can raise -/

/-- Every panic of `x` is one of `P`. -/
def PanicsOnly (P : Panic → Prop) (x : Checked α) : Prop := ∀ p, x = .error p → P p

namespace PanicsOnly

variable {P : Panic → Prop}

theorem ok (a : α) : PanicsOnly P (.ok a : Checked α) := fun _ h => nomatch h

theorem pure (a : α) : PanicsOnly P (Pure.pure a : Checked α) := ok a

theorem bind {x : Checked α} {f : α → Checked β} (hx : PanicsOnly P x)
    (hf : ∀ a, x = .ok a → PanicsOnly P (f a)) : PanicsOnly P (x >>= f) := by
  intro p h
  rcases bind_eq_error.mp h with h | ⟨a, ha, h⟩
  · exact hx p h
  · exact hf a ha p h

theorem add (h : P .overflow) (a b : Nat) : PanicsOnly P (Checked.add a b) := by
  intro p hp
  unfold Checked.add at hp
  split at hp <;> cases hp
  exact h

theorem sub (h : P .overflow) (a b : Nat) : PanicsOnly P (Checked.sub a b) := by
  intro p hp
  unfold Checked.sub at hp
  split at hp <;> cases hp
  exact h

theorem get (h : P .outOfRange) (xs : List α) (i : Nat) : PanicsOnly P (Checked.get xs i) := by
  intro p hp
  unfold Checked.get at hp
  split at hp <;> cases hp
  exact h

theorem set (h : P .outOfRange) (xs : List α) (i : Nat) (x : α) :
    PanicsOnly P (Checked.set xs i x) := by
  intro p hp
  unfold Checked.set at hp
  split at hp <;> cases hp
  exact h

theorem slice (h : P .outOfRange) (xs : List α) (i j : Nat) :
    PanicsOnly P (Checked.slice xs i j) := by
  intro p hp
  unfold Checked.slice at hp
  split at hp <;> cases hp
  exact h

theorem assert {q : Prop} [Decidable q] (h : q) (text : String) :
    PanicsOnly P (Checked.assert q text) := by
  unfold Checked.assert
  rw [if_pos h]
  exact ok ()

theorem mapM {f : α → Checked β} {xs : List α} (h : ∀ x ∈ xs, PanicsOnly P (f x)) :
    PanicsOnly P (xs.mapM f) := by
  induction xs with
  | nil => exact ok []
  | cons x xs ih =>
    rw [List.mapM_cons]
    refine (h x (by simp)).bind fun y _ => ?_
    exact (ih fun x hx => h x (List.mem_cons_of_mem _ hx)).bind fun ys _ => pure _

end PanicsOnly

/-! ## Postconditions -/

/-- `x` returns a value with `Q`, or raises one of the panics `P`. -/
def Ensures (P : Panic → Prop) (Q : α → Prop) : Checked α → Prop
  | .ok a => Q a
  | .error p => P p

namespace Ensures

variable {P : Panic → Prop} {Q : α → Prop} {R : β → Prop}

theorem pure {a : α} (h : Q a) : Ensures P Q (Pure.pure a : Checked α) := h

theorem imp {Q' : α → Prop} {x : Checked α} (h : Ensures P Q x) (hQ : ∀ a, Q a → Q' a) :
    Ensures P Q' x := by
  cases x with
  | ok a => exact hQ a h
  | error p => exact h

theorem add {a b : Nat} {Q : Nat → Prop} (full : wordSize ≤ a + b → P .overflow)
    (h : a + b < wordSize → Q (a + b)) : Ensures P Q (Checked.add a b) := by
  unfold Checked.add
  split
  · next hlt => exact h hlt
  · next hge => exact full (Nat.le_of_not_lt hge)

theorem expect {x : Option α} {text : String} (failed : x = none → P (.failStop text))
    (h : ∀ a, x = some a → Q a) : Ensures P Q (Checked.expect x text) := by
  cases x with
  | some a => exact h a rfl
  | none => exact failed rfl

theorem bind {x : Checked α} {f : α → Checked β} (hx : Ensures P Q x)
    (hf : ∀ a, Q a → Ensures P R (f a)) : Ensures P R (x >>= f) := by
  cases x with
  | ok a => exact hf a hx
  | error p => exact hx

end Ensures

/-! ## Two computations -/

/-- `x` does what `y` does: where it returns, so does `y`, with a value related by `Q`, and where
it panics, `y` raises the same panic, unless the panic is one of `P`. -/
structure Coupled (P : Panic → Prop) (Q : α → β → Prop) (x : Checked α) (y : Checked β) : Prop where
  returns : ∀ a, x = .ok a → ∃ b, y = .ok b ∧ Q a b
  panics : ∀ p, x = .error p → y = .error p ∨ P p

namespace Coupled

variable {γ δ : Type} {P : Panic → Prop} {Q : α → β → Prop} {R : γ → δ → Prop}
  {x : Checked α} {y : Checked β}

theorem ok {a : α} {b : β} (h : Q a b) : Coupled P Q (.ok a) (.ok b) where
  returns a' ha := by
    cases ha
    exact ⟨b, rfl, h⟩
  panics p hp := nomatch hp

theorem pure {a : α} {b : β} (h : Q a b) : Coupled P Q (Pure.pure a) (Pure.pure b) := ok h

theorem raises {p : Panic} (h : P p) : Coupled P Q (.error p) y where
  returns a ha := nomatch ha
  panics p' hp := by
    cases hp
    exact .inr h

/-- A computation is coupled with itself where the relation is reflexive on its value. -/
theorem refl {Q : α → α → Prop} (x : Checked α) (h : ∀ a, x = .ok a → Q a a) :
    Coupled P Q x x where
  returns a ha := ⟨a, ha, h a ha⟩
  panics _ hp := .inl hp

theorem bind {f : α → Checked γ} {g : β → Checked δ} (h : Coupled P Q x y)
    (hfg : ∀ a b, x = .ok a → Q a b → Coupled P R (f a) (g b)) :
    Coupled P R (x >>= f) (y >>= g) where
  returns c hc := by
    obtain ⟨a, ha, hc⟩ := bind_eq_ok.mp hc
    obtain ⟨b, hb, hab⟩ := h.returns a ha
    obtain ⟨d, hd, hcd⟩ := (hfg a b ha hab).returns c hc
    exact ⟨d, bind_eq_ok.mpr ⟨b, hb, hd⟩, hcd⟩
  panics p hp := by
    rcases bind_eq_error.mp hp with hp | ⟨a, ha, hp⟩
    · exact (h.panics p hp).imp (fun hy => bind_eq_error.mpr (.inl hy)) id
    · obtain ⟨b, hb, hab⟩ := h.returns a ha
      refine ((hfg a b ha hab).panics p hp).imp (fun hy => ?_) id
      exact bind_eq_error.mpr (.inr ⟨b, hb, hy⟩)

/-- Two computations that begin alike. -/
theorem bind_same {f : α → Checked γ} {g : α → Checked δ}
    (hfg : ∀ a, x = .ok a → Coupled P R (f a) (g a)) : Coupled P R (x >>= f) (x >>= g) := by
  have h : Coupled P Eq x x := refl x fun a _ => rfl
  apply h.bind
  rintro a _ ha rfl
  exact hfg a ha

theorem map {f : α → γ} {g : β → δ} (h : Coupled P Q x y) (hfg : ∀ a b, Q a b → R (f a) (g b)) :
    Coupled P R (f <$> x) (g <$> y) where
  returns c hc := by
    obtain ⟨a, ha, rfl⟩ := map_eq_ok.mp hc
    obtain ⟨b, hb, hab⟩ := h.returns a ha
    exact ⟨g b, map_eq_ok.mpr ⟨b, hb, rfl⟩, hfg a b hab⟩
  panics p hp := by
    cases x with
    | ok a => cases hp
    | error q =>
      cases hp
      refine (h.panics p rfl).imp (fun hy => ?_) id
      rw [hy]
      rfl

/-- Both computations take the same branch. -/
theorem ite {p : Prop} [Decidable p] {x' : Checked α} {y' : Checked β}
    (ht : p → Coupled P Q x y) (hf : ¬ p → Coupled P Q x' y') :
    Coupled P Q (if p then x else x') (if p then y else y') := by
  by_cases h : p
  · rw [if_pos h, if_pos h]
    exact ht h
  · rw [if_neg h, if_neg h]
    exact hf h

/-- The right side returns `b`, and the left side ensures that its value is related to `b`. -/
theorem of_ensures {P' : Panic → Prop} {b : β} (h : Ensures P' (Q · b) x)
    (hP : ∀ p, P' p → P p) : Coupled P Q x (.ok b) where
  returns a ha := by
    subst ha
    exact ⟨b, rfl, h⟩
  panics p hp := by
    subst hp
    exact .inr (hP p h)

end Coupled

end Checked
