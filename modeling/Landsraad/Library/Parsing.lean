import Landsraad.Library.Checked

/-!
# Parsers and the words they read

A parser reads a value from the front of its input, reports an error, or panics. `Reads p L`
says that it never panics and reads a value exactly from the words that `L` gives to it.
-/

variable {τ ε α β : Type}

def Parser (τ ε α : Type) := List τ → Checked (Except ε (α × List τ))

namespace Parser

instance : Monad (Parser τ ε) where
  pure a input := .ok (.ok (a, input))
  bind p f input := p input >>= fun
    | .ok (a, rest) => f a rest
    | .error e => .ok (.error e)

def fail (e : ε) : Parser τ ε α := fun _ => .ok (.error e)

/-- The input that is left, of which nothing is read. -/
def remaining : Parser τ ε (List τ) := fun input => .ok (.ok (input, input))

structure Reads (p : Parser τ ε α) (L : α → List τ → Prop) : Prop where
  returns : ∀ input, ∃ r, p input = .ok r
  reads : ∀ input a rest, p input = .ok (.ok (a, rest)) ↔ ∃ w, L a w ∧ input = w ++ rest

variable {p : Parser τ ε α} {f : α → Parser τ ε β} {L L' : α → List τ → Prop}
  {M : α → β → List τ → Prop}

theorem bind_eq_ok {input rest : List τ} {b : β} :
    (p >>= f) input = .ok (.ok (b, rest)) ↔
      ∃ a rest', p input = .ok (.ok (a, rest')) ∧ f a rest' = .ok (.ok (b, rest)) := by
  refine Checked.bind_eq_ok.trans ⟨?_, ?_⟩
  · rintro ⟨r, hp, hf⟩
    cases r with
    | ok r => exact ⟨r.1, r.2, hp, hf⟩
    | error e => cases hf
  · rintro ⟨a, rest', hp, hf⟩
    exact ⟨_, hp, hf⟩

namespace Reads

theorem congr (h : Reads p L) (hL : ∀ a w, L a w ↔ L' a w) : Reads p L' where
  returns := h.returns
  reads input a rest := by
    rw [h.reads]
    simp only [hL]

protected theorem pure (a : α) : Reads (pure a : Parser τ ε α) fun b w => b = a ∧ w = [] where
  returns _ := ⟨_, rfl⟩
  reads input b rest := by
    constructor
    · intro h
      cases h
      exact ⟨[], ⟨rfl, rfl⟩, rfl⟩
    · rintro ⟨w, ⟨rfl, rfl⟩, rfl⟩
      rfl

protected theorem fail (e : ε) : Reads (fail e : Parser τ ε α) fun _ _ => False where
  returns _ := ⟨_, rfl⟩
  reads input b rest := by
    constructor
    · intro h
      cases h
    · rintro ⟨w, hw, _⟩
      exact hw.elim

/-- A sequence reads a word of its first part followed by a word of its second. -/
protected theorem bind (hp : Reads p L) (hf : ∀ a u, L a u → Reads (f a) (M a)) :
    Reads (p >>= f) fun b w => ∃ a u v, L a u ∧ M a b v ∧ w = u ++ v where
  returns input := by
    obtain ⟨r, hr⟩ := hp.returns input
    show ∃ r', (p input >>= _) = .ok r'
    rw [hr]
    cases r with
    | ok r =>
      obtain ⟨u, hu, _⟩ := (hp.reads input r.1 r.2).mp hr
      exact (hf r.1 u hu).returns r.2
    | error e => exact ⟨_, rfl⟩
  reads input b rest := by
    rw [bind_eq_ok]
    constructor
    · rintro ⟨a, rest', hpa, hfb⟩
      obtain ⟨u, hu, rfl⟩ := (hp.reads _ _ _).mp hpa
      obtain ⟨v, hv, rfl⟩ := ((hf a u hu).reads _ _ _).mp hfb
      exact ⟨u ++ v, ⟨a, u, v, hu, hv, rfl⟩, (List.append_assoc u v rest).symm⟩
    · rintro ⟨w, ⟨a, u, v, hu, hv, rfl⟩, rfl⟩
      refine ⟨a, v ++ rest, (hp.reads _ _ _).mpr ⟨u, hu, List.append_assoc u v rest⟩, ?_⟩
      exact ((hf a u hu).reads _ _ _).mpr ⟨v, hv, rfl⟩

/-- A test of the input ahead of a parser changes nothing where every input that the parser
accepts passes it. -/
theorem guarded (hp : Reads p L) (e : ε) {reject : List τ → Prop} [DecidablePred reject]
    (h : ∀ a w rest, L a w → ¬ reject (w ++ rest)) :
    Reads (remaining >>= fun input => if reject input then fail e else p) L where
  returns input := by
    show ∃ r, (if reject input then fail e else p) input = .ok r
    split
    · exact ⟨_, rfl⟩
    · exact hp.returns input
  reads input a rest := by
    show (if reject input then fail e else p) input = _ ↔ _
    split
    · next hreject =>
      constructor
      · intro hfail
        cases hfail
      · rintro ⟨w, hw, rfl⟩
        exact absurd hreject (h a w rest hw)
    · exact hp.reads input a rest

end Reads

/-- Runs a parser that has to use up its input. -/
def complete (p : Parser τ ε α) (trailing : ε) (input : List τ) : Checked (Except ε α) := do
  match ← p input with
  | .error e => pure (.error e)
  | .ok (a, rest) => if rest.isEmpty then pure (.ok a) else pure (.error trailing)

theorem Reads.complete (hp : Reads p L) (trailing : ε) (input : List τ) :
    (∃ r, p.complete trailing input = .ok r) ∧
      ∀ a, p.complete trailing input = .ok (.ok a) ↔ L a input := by
  have hwhole : ∀ a, p input = .ok (.ok (a, [])) ↔ L a input := by
    intro a
    rw [hp.reads]
    simp
  obtain ⟨r, hr⟩ := hp.returns input
  unfold Parser.complete
  simp only [hr, Except.ok.injEq, Checked.ok_bind] at hwhole ⊢
  cases r with
  | error e => exact ⟨⟨_, rfl⟩, fun a => by simp [← hwhole, Checked.pure_eq_ok]⟩
  | ok r =>
    obtain ⟨b, rest⟩ := r
    cases rest with
    | nil => exact ⟨⟨_, rfl⟩, fun a => by simp [← hwhole, Checked.pure_eq_ok]⟩
    | cons x rest => exact ⟨⟨_, rfl⟩, fun a => by simp [← hwhole, Checked.pure_eq_ok]⟩

theorem complete_eq_error {p : Parser τ ε α} {trailing e : ε} {input : List τ} :
    p.complete trailing input = .ok (.error e) ↔
      p input = .ok (.error e) ∨
        e = trailing ∧ ∃ a rest, rest ≠ [] ∧ p input = .ok (.ok (a, rest)) := by
  unfold Parser.complete
  cases hp : p input with
  | error f =>
    refine iff_of_false (fun h => by cases h) ?_
    simp
  | ok r =>
    cases r with
    | error e' => simp [Checked.pure_eq_ok]
    | ok r =>
      obtain ⟨b, rest⟩ := r
      cases rest with
      | nil => simp [Checked.pure_eq_ok]
      | cons x rest => simp [Checked.pure_eq_ok, eq_comm (a := trailing)]

/-! ## The errors of a parser -/

/-- `Reads`, with the errors: `short` is reported of an input that more input would complete, and
any other error of an input that begins with a word that `B` gives to it. There is a word to
read, so that in a sequence the first part can always be completed. -/
structure Judges (p : Parser τ ε α) (L : α → List τ → Prop) (B : ε → List τ → Prop)
    (short : ε) : Prop extends Reads p L where
  speaks : ∃ a w, L a w
  fails : ∀ input e, p input = .ok (.error e) →
    (e = short ∧ ∃ a more, more ≠ [] ∧ L a (input ++ more)) ∨ ∃ w rest, B e w ∧ input = w ++ rest
  rejects : ∀ e w rest, B e w → p (w ++ rest) = .ok (.error e)

theorem Reads.unique (h : Reads p L) (h' : Reads p L') (a : α) (w : List τ) : L a w ↔ L' a w := by
  have hread := (h.reads w a []).symm.trans (h'.reads w a [])
  simpa using hread

/-- No word is the beginning of a longer one. -/
theorem Reads.prefix_free (hp : Reads p L) {a b : α} {w rest : List τ} (hw : L a w)
    (hrest : L b (w ++ rest)) : rest = [] ∧ a = b := by
  have hlong : p (w ++ rest) = .ok (.ok (b, [])) :=
    (hp.reads _ _ _).mpr ⟨w ++ rest, hrest, (List.append_nil _).symm⟩
  have hshort : p (w ++ rest) = .ok (.ok (a, rest)) := (hp.reads _ _ _).mpr ⟨w, hw, rfl⟩
  simp only [hlong, Except.ok.injEq, Prod.mk.injEq] at hshort
  exact ⟨hshort.2.symm, hshort.1.symm⟩

namespace Judges

variable {B B' : ε → List τ → Prop} {C : α → ε → List τ → Prop} {short : ε}

theorem congr (h : Judges p L B short) (hL : ∀ a w, L a w ↔ L' a w)
    (hB : ∀ e w, B e w ↔ B' e w) : Judges p L' B' short where
  toReads := h.toReads.congr hL
  speaks := by
    have hspeaks := h.speaks
    simp only [hL] at hspeaks
    exact hspeaks
  fails input e he := by
    have hfails := h.fails input e he
    simp only [hL, hB] at hfails
    exact hfails
  rejects e w rest he := h.rejects e w rest ((hB e w).mpr he)

/-- What a parser reads may be stated in the words of any other description of it. -/
theorem of_reads (h : Judges p L B short) (hL : Reads p L') (hB : ∀ e w, B e w ↔ B' e w) :
    Judges p L' B' short :=
  h.congr (h.toReads.unique hL) hB

protected theorem pure (a : α) :
    Judges (pure a : Parser τ ε α) (fun b w => b = a ∧ w = []) (fun _ _ => False) short where
  toReads := .pure a
  speaks := ⟨a, [], rfl, rfl⟩
  fails input e h := by cases h
  rejects e w rest h := h.elim

protected theorem bind (hp : Judges p L B short)
    (hf : ∀ a u, L a u → Judges (f a) (M a) (C a) short) :
    Judges (p >>= f) (fun b w => ∃ a u v, L a u ∧ M a b v ∧ w = u ++ v)
      (fun e w => B e w ∨ ∃ a u v, L a u ∧ C a e v ∧ w = u ++ v) short where
  toReads := hp.toReads.bind fun a u hu => (hf a u hu).toReads
  speaks := by
    obtain ⟨a, u, hu⟩ := hp.speaks
    obtain ⟨b, v, hv⟩ := (hf a u hu).speaks
    exact ⟨b, u ++ v, a, u, v, hu, hv, rfl⟩
  fails input e he := by
    obtain ⟨r, hr⟩ := hp.returns input
    have hbind : (p input >>= fun
        | .ok (a, rest) => f a rest
        | .error e => .ok (.error e)) = .ok (.error e) := he
    rw [hr] at hbind
    cases r with
    | error e' =>
      cases hbind
      obtain ⟨hshort, a, more, hmore, ha⟩ | ⟨w, rest, hw, hinput⟩ := hp.fails input e hr
      · obtain ⟨b, v, hv⟩ := (hf a _ ha).speaks
        exact .inl ⟨hshort, b, more ++ v, by simp [hmore], a, _, v, ha, hv, by simp⟩
      · exact .inr ⟨w, rest, .inl hw, hinput⟩
    | ok r =>
      obtain ⟨a, rest⟩ := r
      obtain ⟨u, hu, rfl⟩ := (hp.reads _ _ _).mp hr
      obtain ⟨hshort, b, more, hmore, hb⟩ | ⟨v, rest, hv, rfl⟩ := (hf a u hu).fails rest e hbind
      · exact .inl ⟨hshort, b, more, hmore, a, u, _, hu, hb, by simp⟩
      · exact .inr ⟨u ++ v, rest, .inr ⟨a, u, v, hu, hv, rfl⟩, by simp⟩
  rejects e w rest h := by
    show (p (w ++ rest) >>= _) = _
    obtain hw | ⟨a, u, v, hu, hv, rfl⟩ := h
    · rw [hp.rejects e w rest hw]
      rfl
    · have hread : p (u ++ v ++ rest) = .ok (.ok (a, v ++ rest)) :=
        (hp.reads _ _ _).mpr ⟨u, hu, List.append_assoc u v rest⟩
      rw [hread]
      exact (hf a u hu).rejects e v rest hv

/-- A parser whose only error is `short` reports it of what it does not read. -/
theorem short_of_unread (h : Judges p L (fun _ _ => False) short) {input : List τ}
    (hunread : ∀ a w rest, L a w → input ≠ w ++ rest) : p input = .ok (.error short) := by
  obtain ⟨r, hr⟩ := h.returns input
  cases r with
  | ok r =>
    obtain ⟨w, hw, hinput⟩ := (h.reads input r.1 r.2).mp hr
    exact absurd hinput (hunread r.1 w r.2 hw)
  | error e =>
    obtain ⟨rfl, _⟩ | ⟨w, _, hw, _⟩ := h.fails input e hr
    · exact hr
    · exact hw.elim

theorem short_iff (h : Judges p L B short) (hB : ∀ w, ¬ B short w) (input : List τ) :
    p input = .ok (.error short) ↔ ∃ a more, more ≠ [] ∧ L a (input ++ more) := by
  constructor
  · intro hshort
    obtain ⟨_, hmore⟩ | ⟨w, _, hw, _⟩ := h.fails input short hshort
    · exact hmore
    · exact absurd hw (hB w)
  · rintro ⟨a, more, hmore, ha⟩
    obtain ⟨r, hr⟩ := h.returns input
    cases r with
    | ok r =>
      obtain ⟨w, hw, rfl⟩ := (h.reads input r.1 r.2).mp hr
      rw [List.append_assoc] at ha
      have hnil := (h.toReads.prefix_free hw ha).1
      simp [hmore] at hnil
    | error e =>
      obtain ⟨rfl, _⟩ | ⟨w, rest, hw, rfl⟩ := h.fails input e hr
      · exact hr
      · have hread : p (w ++ rest ++ more) = .ok (.ok (a, [])) :=
          (h.reads _ _ _).mpr ⟨_, ha, (List.append_nil _).symm⟩
        rw [List.append_assoc, h.rejects e w (rest ++ more) hw] at hread
        cases hread

theorem error_iff (h : Judges p L B short) {e : ε} (he : e ≠ short) (input : List τ) :
    p input = .ok (.error e) ↔ ∃ w rest, B e w ∧ input = w ++ rest := by
  constructor
  · intro herror
    obtain ⟨rfl, _⟩ | hbad := h.fails input e herror
    · exact absurd rfl he
    · exact hbad
  · rintro ⟨w, rest, hw, rfl⟩
    exact h.rejects e w rest hw

variable {trailing : ε}

theorem complete_short (h : Judges p L B short) (hB : ∀ w, ¬ B short w) (hne : short ≠ trailing)
    (input : List τ) : p.complete trailing input = .ok (.error short) ↔
      ∃ a more, more ≠ [] ∧ L a (input ++ more) := by
  rw [complete_eq_error, h.short_iff hB]
  simp [hne]

theorem complete_trailing (h : Judges p L B short) (hB : ∀ w, ¬ B trailing w)
    (hne : trailing ≠ short) (input : List τ) : p.complete trailing input = .ok (.error trailing) ↔
      ∃ a w more, more ≠ [] ∧ L a w ∧ input = w ++ more := by
  simp only [complete_eq_error, h.error_iff hne, h.reads]
  constructor
  · rintro (⟨w, _, hw, _⟩ | ⟨_, a, more, hmore, w, hw, hinput⟩)
    · exact absurd hw (hB w)
    · exact ⟨a, w, more, hmore, hw, hinput⟩
  · rintro ⟨a, w, more, hmore, hw, hinput⟩
    exact .inr ⟨trivial, a, more, hmore, w, hw, hinput⟩

theorem complete_error (h : Judges p L B short) {e : ε} (hshort : e ≠ short) (hne : e ≠ trailing)
    (input : List τ) : p.complete trailing input = .ok (.error e) ↔
      ∃ w rest, B e w ∧ input = w ++ rest := by
  rw [complete_eq_error, h.error_iff hshort]
  simp [hne]

end Judges

/-- A test that rejects only what the parser itself rejects, and with its error, can be left
out. -/
theorem guarded_eq {p : Parser τ ε α} {e : ε} {reject : List τ → Prop} [DecidablePred reject]
    (h : ∀ input, reject input → p input = .ok (.error e)) :
    (remaining >>= fun input => if reject input then fail e else p) = p := by
  funext input
  show (if reject input then fail e else p) input = p input
  split
  · next hreject => exact (h input hreject).symm
  · rfl

end Parser
