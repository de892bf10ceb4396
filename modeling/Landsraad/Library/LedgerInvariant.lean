import Landsraad.Library.Ledger

/-!
# The ledger invariant is inductive

Records only accumulate (`Extends`), so a fact about recorded votes, bids, reigns and
acknowledgements survives every later step. What is left for each move is the participant
that makes it.
-/

set_option linter.unusedSectionVars false

namespace ReplicatedLog

variable {ν ε : Type*} [DecidableEq ν] [Stamped ε]

section LastStamp

variable {l : List ε}

@[simp] theorem lastStamp_nil : lastStamp ([] : List ε) = 0 := rfl

theorem lastStamp_eq (h : l ≠ []) :
    ∃ e, l[l.length - 1]? = some e ∧ lastStamp l = stamp e := by
  refine ⟨l.getLast h, ?_, ?_⟩
  · rw [← List.getLast?_eq_getElem?, List.getLast?_eq_some_getLast h]
  · simp [lastStamp, List.getLast?_eq_some_getLast h]

end LastStamp

namespace Ledger

variable {q : QuorumSystem ν} {a a' a'' : Ledger ν ε} {v w : ν}

/-- `a'` records everything `a` records. -/
structure Extends (a a' : Ledger ν ε) : Prop where
  epoch : ∀ v, a.epoch v ≤ a'.epoch v
  vote : ∀ {v t c}, a.vote v t = some c → a'.vote v t = some c
  bid : ∀ {c t b}, a.bid c t = some b → a'.bid c t = some b
  reign : ∀ {t r}, a.reign t = some r → ∃ r', a'.reign t = some r' ∧ r'.leader = r.leader ∧
    r'.base = r.base ∧ r.ledger <+: r'.ledger
  ack : ∀ v t, a.ack v t ≤ a'.ack v t

theorem Extends.refl (a : Ledger ν ε) : Extends a a where
  epoch _ := le_rfl
  vote h := h
  bid h := h
  reign h := ⟨_, h, rfl, rfl, List.prefix_rfl⟩
  ack _ _ := le_rfl

theorem Extends.trans (h : Extends a a') (h' : Extends a' a'') : Extends a a'' where
  epoch v := (h.epoch v).trans (h'.epoch v)
  vote hv := h'.vote (h.vote hv)
  bid hb := h'.bid (h.bid hb)
  reign hr := by
    obtain ⟨r₁, hr₁, hl₁, hb₁, hp₁⟩ := h.reign hr
    obtain ⟨r₂, hr₂, hl₂, hb₂, hp₂⟩ := h'.reign hr₁
    exact ⟨r₂, hr₂, hl₂.trans hl₁, hb₂.trans hb₁, hp₁.trans hp₂⟩
  ack v t := (h.ack v t).trans (h'.ack v t)

/-- A step leaves every other participant's own state as it was. -/
theorem Step.frame (hs : Step q v a a') (hw : w ≠ v) :
    a'.epoch w = a.epoch w ∧ a'.log w = a.log w ∧ a'.vote w = a.vote w ∧
      a'.bid w = a.bid w ∧ a'.ack w = a.ack w := by
  cases hs <;> simp [Ledger.advance, Ledger.stand, Ledger.castVote, Ledger.elect, Ledger.append,
    Ledger.truncate, Ledger.copy, Ledger.acknowledge, hw]

/-- An acknowledged position of a reign lies within its ledger. -/
theorem Inv.ack_le_length (h : Inv q a) {t n : ℕ} {r : Reign ν ε} (hr : a.reign t = some r)
    (hn : n ≤ a.ack v t) : n ≤ r.ledger.length := by
  by_cases h0 : 0 < a.ack v t
  · obtain ⟨_, r', hr', hle⟩ := h.ack_reign h0
    rw [hr] at hr'
    cases hr'
    omega
  · omega

theorem Inv.ack_of_vacant (h : Inv q a) {t : ℕ} (hvacant : a.reign t = none) :
    a.ack v t = 0 := by
  by_contra hne
  obtain ⟨_, r, hr, _⟩ := h.ack_reign (Nat.pos_of_ne_zero hne)
  rw [hvacant] at hr
  cases hr

/-- A step only adds to the record: it votes, stands and acknowledges where nothing, or less,
was recorded. -/
theorem Step.extends (h : Inv q a) (hs : Step q v a a') : Extends a a' := by
  cases hs with
  | @advance t later =>
    exact { Extends.refl a with epoch := le_update_self_iff.mpr later.le }
  | @stand t later =>
    refine { Extends.refl a with epoch := le_update_self_iff.mpr later.le, vote := ?_, bid := ?_ }
    · intro w u c hc
      have hle := h.vote_le hc
      simp only [Ledger.stand, setAt_apply]
      rw [if_neg (by rintro ⟨rfl, rfl⟩; omega), hc]
    · intro c u b hb
      have hle := (h.bid_le hb).1
      simp only [Ledger.stand, setAt_apply]
      rw [if_neg (by rintro ⟨rfl, rfl⟩; omega), hb]
  | @castVote c b standing free upToDate =>
    refine { Extends.refl a with vote := ?_ }
    intro w u d hd
    simp only [Ledger.castVote, setAt_apply]
    split
    · next he =>
      obtain ⟨rfl, rfl⟩ := he
      rcases free with hn | hn <;> rw [hn] at hd
      · cases hd
      · exact hd
    · exact hd
  | @elect e Q quorum votes standing vacant stamped =>
    refine { Extends.refl a with reign := ?_, ack := ?_ }
    · intro t r hr
      have ht : t ≠ a.epoch v := by rintro rfl; rw [vacant] at hr; cases hr
      exact ⟨r, by simpa [Ledger.elect, ht] using hr, rfl, rfl, List.prefix_rfl⟩
    · intro w t
      apply le_setAt
      rw [h.ack_of_vacant vacant]
      exact Nat.zero_le _
  | @append r e reigning leads current stamped =>
    refine { Extends.refl a with reign := ?_, ack := ?_ }
    · intro t r' hr'
      by_cases ht : t = a.epoch v
      · subst ht
        rw [reigning] at hr'
        cases hr'
        exact ⟨{ r with ledger := r.ledger ++ [e] }, by simp [Ledger.append], rfl, rfl,
          List.prefix_append _ _⟩
      · exact ⟨r', by simpa [Ledger.append, ht] using hr', rfl, rfl, List.prefix_rfl⟩
    · intro w t
      apply le_setAt
      rw [current]
      exact (h.ack_le_length reigning le_rfl).trans (Nat.le_succ _)
  | truncate => exact { Extends.refl a with }
  | copy => exact { Extends.refl a with }
  | @acknowledge r m reigning holds =>
    exact { Extends.refl a with ack := fun w t => le_setAt _ _ (le_max_left _ _) }

/-! ## Stable facts -/

theorem Sourced.mono (hext : Extends a a') {l : List ε} (h : a.Sourced l) : a'.Sourced l := by
  intro i e he
  obtain ⟨r, hr, hag⟩ := h i e he
  obtain ⟨r', hr', _, _, hp⟩ := hext.reign hr
  exact ⟨r', hr', hag.prefix_right hp⟩

theorem Sourced.of_isPrefix {l l' : List ε} (h : a.Sourced l') (hp : l <+: l') : a.Sourced l := by
  intro i e he
  have hi : i < l.length := (List.getElem?_eq_some_iff.mp he).1
  have hag : AgreeUpTo (i + 1) l l' := .of_isPrefix hp hi
  obtain ⟨r, hr, hag'⟩ := h i e (by rw [← hag.getElem?_eq (Nat.lt_succ_self i)]; exact he)
  exact ⟨r, hr, hag.trans hag'⟩

theorem Sourced.concat {l : List ε} {e : ε} {r : Reign ν ε} (h : a.Sourced l)
    (hr : a.reign (stamp e) = some r) (hl : l ++ [e] <+: r.ledger) : a.Sourced (l ++ [e]) := by
  intro i x hx
  by_cases hi : i < l.length
  · rw [List.getElem?_append_left hi] at hx
    obtain ⟨r', hr', hag⟩ := h i x hx
    exact ⟨r', hr', hag.prefix_left (List.prefix_append _ _)⟩
  · have hlt : i < (l ++ [e]).length := (List.getElem?_eq_some_iff.mp hx).1
    have hie : i = l.length := by simp at hlt; omega
    subst hie
    have hxe : x = e := by simpa using hx.symm
    subst hxe
    exact ⟨r, hr, .of_isPrefix hl (by simp)⟩

/-- Two sourced logs with equally stamped entries at a position agree through it. -/
theorem Sourced.matching {l l' : List ε} (h : a.Sourced l) (h' : a.Sourced l') {i : ℕ} {e e' : ε}
    (he : l[i]? = some e) (he' : l'[i]? = some e') (hs : stamp e = stamp e') :
    AgreeUpTo (i + 1) l l' := by
  obtain ⟨r, hr, hag⟩ := h i e he
  obtain ⟨r', hr', hag'⟩ := h' i e' he'
  rw [hs, hr'] at hr
  cases hr
  exact hag.trans hag'.symm

/-- What is retained stays retained: by an extension of the log, in a longer history, and for
a later bound on the epochs that may overrule it. -/
theorem Retains.mono (h : Inv q a) (hext : Extends a a')
    (stamps : ∀ {t r}, a'.reign t = some r → ∀ i e, r.ledger[i]? = some e → r.base ≤ i →
      stamp e = t)
    {t n hi hi' : ℕ} {l l' : List ε} (hn : n ≤ a.ack v t) (hl : l <+: l') (hhi : hi ≤ hi')
    (hr : a.Retains t n l hi) : a'.Retains t n l' hi' := by
  intro r' hr' hbase
  obtain ⟨_, r, hrt, hlen⟩ := h.ack_reign (v := v) (t := t) (by omega)
  obtain ⟨r₁, hr₁, _, hb₁, hp₁⟩ := hext.reign hrt
  rw [hr'] at hr₁
  cases hr₁
  rcases hr r hrt (by omega) with hag | ⟨u, s, htu, huh, hs, hno⟩
  · exact .inl ((hag.prefix_left hl).prefix_right hp₁)
  · obtain ⟨s', hs', _, hb', hp'⟩ := hext.reign hs
    refine .inr ⟨u, s', htu, huh.trans_le hhi, hs', fun hag => hno ?_⟩
    have hag' : AgreeUpTo n s'.ledger r.ledger := hag.of_prefix_right hp₁ (by omega)
    by_cases hsn : n ≤ s.ledger.length
    · exact (hag'.symm.of_prefix_right hp' hsn).symm
    · -- beyond the old end of its ledger the reign of `u` only has entries of `u`
      exfalso
      have hsb := (h.reign_bid hs).2
      have hlt : n - 1 < r'.ledger.length := by have := hag.2.1; omega
      have he' := List.getElem?_eq_getElem hlt
      have he := (hag.getElem?_eq (i := n - 1) (by omega)).trans he'
      have h1 := stamps hs' _ _ he (by omega)
      have h2 := stamps hr' _ _ he' (by omega)
      omega

/-! ## What one step changes -/

theorem Inv.reign_stamp_le (h : Inv q a) {t : ℕ} {r : Reign ν ε} (hr : a.reign t = some r)
    {i : ℕ} {e : ε} (he : r.ledger[i]? = some e) : stamp e ≤ t := by
  by_cases hi : r.base ≤ i
  · exact (h.reign_stamp hr i e he hi).le
  · have hm : e ∈ r.ledger.take r.base :=
      List.mem_of_getElem? (i := i) (by rw [List.getElem?_take_of_lt (by omega), he])
    exact (h.bid_stamp (h.reign_bid hr).1 e hm).le

/-- Stamps do not decrease along a sourced log. -/
theorem Inv.sourced_stamp_le (h : Inv q a) {l : List ε} (hl : a.Sourced l) {i j : ℕ} {e e' : ε}
    (hij : i ≤ j) (he : l[i]? = some e) (he' : l[j]? = some e') : stamp e ≤ stamp e' := by
  obtain ⟨r, hr, hag⟩ := hl j e' he'
  exact h.reign_stamp_le hr (i := i) (by rw [← hag.getElem?_eq (by omega), he])

theorem Step.bid_inv (hs : Step q v a a') {c : ν} {t : ℕ} {b : List ε}
    (hb : a'.bid c t = some b) : a.bid c t = some b ∨
      (c = v ∧ b = a.log v ∧ a.epoch v < t ∧ a'.epoch v = t ∧ a'.vote v t = some v) := by
  cases hs with
  | @stand u later =>
    simp only [Ledger.stand, setAt_apply] at hb
    split at hb
    · next he =>
      obtain ⟨rfl, rfl⟩ := he
      exact .inr ⟨rfl, (Option.some.inj hb).symm, later, by simp [Ledger.stand],
        by simp [Ledger.stand]⟩
    · exact .inl hb
  | advance => exact .inl hb
  | castVote => exact .inl hb
  | elect => exact .inl hb
  | append => exact .inl hb
  | truncate => exact .inl hb
  | copy => exact .inl hb
  | acknowledge => exact .inl hb

theorem Step.vote_inv (hs : Step q v a a') {c : ν} {t : ℕ} (hc : a'.vote w t = some c) :
    a.vote w t = some c ∨ (w = v ∧ t = a'.epoch v ∧ a'.ack = a.ack ∧
      ((c = v ∧ a.epoch v < t ∧ a'.bid v t = some (a.log v)) ∨
        (t = a.epoch v ∧ ∃ b, a.bid c t = some b ∧ UpToDate b (a.log v)))) := by
  cases hs with
  | @stand u later =>
    simp only [Ledger.stand, setAt_apply] at hc
    split at hc
    · next he =>
      obtain ⟨rfl, rfl⟩ := he
      exact .inr ⟨rfl, by simp [Ledger.stand], rfl,
        .inl ⟨(Option.some.inj hc).symm, later, by simp [Ledger.stand]⟩⟩
    · exact .inl hc
  | @castVote d b standing free upToDate =>
    simp only [Ledger.castVote, setAt_apply] at hc
    split at hc
    · next he =>
      obtain ⟨rfl, rfl⟩ := he
      obtain rfl := Option.some.inj hc
      exact .inr ⟨rfl, rfl, rfl, .inr ⟨rfl, b, standing, upToDate⟩⟩
    · exact .inl hc
  | advance => exact .inl hc
  | elect => exact .inl hc
  | append => exact .inl hc
  | truncate => exact .inl hc
  | copy => exact .inl hc
  | acknowledge => exact .inl hc

/-- A reign after the step is an old one, or the acting participant's own, which it has just
won or just extended by one entry. -/
theorem Step.reign_inv (hs : Step q v a a') {t : ℕ} {r' : Reign ν ε}
    (hr' : a'.reign t = some r') : a.reign t = some r' ∨
      (t = a.epoch v ∧ ∃ e, stamp e = t ∧ a'.log v = a.log v ++ [e] ∧
        r'.ledger = a.log v ++ [e] ∧ r'.leader = v ∧
        ((a.reign t = none ∧ r'.base = (a.log v).length ∧ a.bid v t = some (a.log v) ∧
            ∃ Q, q.IsQuorum Q ∧ ∀ w ∈ Q, a.vote w t = some v) ∨
          ∃ r, a.reign t = some r ∧ r.leader = v ∧ a.log v = r.ledger ∧ r'.base = r.base)) := by
  cases hs with
  | @elect e Q quorum votes standing vacant stamped =>
    by_cases ht : t = a.epoch v
    · subst ht
      simp only [Ledger.elect, Function.update_self, Option.some.injEq] at hr'
      subst hr'
      exact .inr ⟨rfl, e, stamped, by simp [Ledger.elect], rfl, rfl,
        .inl ⟨vacant, rfl, standing, Q, quorum, votes⟩⟩
    · exact .inl (by simpa [Ledger.elect, ht] using hr')
  | @append r e reigning leads current stamped =>
    by_cases ht : t = a.epoch v
    · subst ht
      simp only [Ledger.append, Function.update_self, Option.some.injEq] at hr'
      subst hr'
      exact .inr ⟨rfl, e, stamped, by simp [Ledger.append], by simp [current], leads,
        .inr ⟨r, reigning, leads, current, rfl⟩⟩
    · exact .inl (by simpa [Ledger.append, ht] using hr')
  | advance => exact .inl hr'
  | stand => exact .inl hr'
  | castVote => exact .inl hr'
  | truncate => exact .inl hr'
  | copy => exact .inl hr'
  | acknowledge => exact .inl hr'

/-- The acting participant's log grows, or loses a tail that conflicts with the ledger of its
epoch. -/
theorem Step.log_inv (hs : Step q v a a') : a.log v <+: a'.log v ∨
    ∃ r k e e', a.reign (a.epoch v) = some r ∧ (a.log v)[k]? = some e ∧
      r.ledger[k]? = some e' ∧ stamp e ≠ stamp e' ∧ a' = a.truncate v k := by
  cases hs with
  | @truncate r k reigning e e' own theirs conflict =>
    exact .inr ⟨r, k, e, e', reigning, own, theirs, conflict, rfl⟩
  | @copy r m reigning behind => exact .inl (by simpa [Ledger.copy] using behind)
  | advance => exact .inl List.prefix_rfl
  | stand => exact .inl List.prefix_rfl
  | castVote => exact .inl List.prefix_rfl
  | elect => exact .inl (by simp [Ledger.elect])
  | append => exact .inl (by simp [Ledger.append])
  | acknowledge => exact .inl List.prefix_rfl

theorem Step.ack_inv (hs : Step q v a a') {t n : ℕ} (hn : n ≤ a'.ack w t) :
    n ≤ a.ack w t ∨ (w = v ∧ t = a.epoch v ∧
      ∃ r', a'.reign t = some r' ∧ AgreeUpTo n (a'.log v) r'.ledger) := by
  cases hs with
  | @elect e Q quorum votes standing vacant stamped =>
    simp only [Ledger.elect, setAt_apply] at hn
    split at hn
    · next he =>
      obtain ⟨rfl, rfl⟩ := he
      refine .inr ⟨rfl, rfl, ⟨w, (a.log w).length, a.log w ++ [e]⟩, by simp [Ledger.elect], ?_⟩
      simpa [Ledger.elect] using AgreeUpTo.refl (by simpa using hn)
    · exact .inl hn
  | @append r e reigning leads current stamped =>
    simp only [Ledger.append, setAt_apply] at hn
    split at hn
    · next he =>
      obtain ⟨rfl, rfl⟩ := he
      refine .inr ⟨rfl, rfl, { r with ledger := r.ledger ++ [e] }, by simp [Ledger.append], ?_⟩
      simp only [Ledger.append, Function.update_self, current]
      exact AgreeUpTo.refl (by simpa [current] using hn)
    · exact .inl hn
  | @acknowledge r m reigning holds =>
    simp only [Ledger.acknowledge, setAt_apply] at hn
    split at hn
    · next he =>
      obtain ⟨rfl, rfl⟩ := he
      rcases le_max_iff.mp hn with hn | hn
      · exact .inl hn
      · exact .inr ⟨rfl, rfl, r, reigning, holds.mono hn⟩
    · exact .inl hn
  | advance => exact .inl hn
  | stand => exact .inl hn
  | castVote => exact .inl hn
  | truncate => exact .inl hn
  | copy => exact .inl hn

/-- Acknowledgements of an epoch that a participant has left are final. -/
theorem Step.ack_frozen (hs : Step q v a a') {t n : ℕ} (ht : t < a.epoch w)
    (hn : n ≤ a'.ack w t) : n ≤ a.ack w t := by
  rcases hs.ack_inv hn with hn | ⟨rfl, rfl, _⟩
  · exact hn
  · exact absurd ht (lt_irrefl _)

/-! ## Preservation -/

private theorem reign_stamp_step (h : Inv q a) (hs : Step q v a a') {t : ℕ} {r' : Reign ν ε}
    (hr' : a'.reign t = some r') (i : ℕ) (e : ε) (he : r'.ledger[i]? = some e)
    (hi : r'.base ≤ i) : stamp e = t := by
  rcases hs.reign_inv hr' with hr | ⟨rfl, x, hx, _, hl, _, hcase⟩
  · exact h.reign_stamp hr i e he hi
  · rw [hl] at he
    by_cases hlt : i < (a.log v).length
    · rcases hcase with ⟨_, hb, _⟩ | ⟨r, hr, _, hlog, hb⟩
      · omega
      · rw [List.getElem?_append_left hlt, hlog] at he
        exact h.reign_stamp hr i e he (by omega)
    · have hlt' : i < (a.log v ++ [x]).length := (List.getElem?_eq_some_iff.mp he).1
      have hie : i = (a.log v).length := by simp at hlt'; omega
      subst hie
      have hex : e = x := by simpa using he.symm
      rw [hex, hx]

private theorem log_stamp_step (h : Inv q a) (hs : Step q v a a') (w : ν) :
    ∀ e ∈ a'.log w, stamp e ≤ a'.epoch w := by
  have hle := (hs.extends h).epoch w
  by_cases hw : w = v
  · subst hw
    have hold : ∀ e ∈ a.log w, stamp e ≤ a'.epoch w := fun e he => (h.log_stamp w e he).trans hle
    cases hs with
    | @elect x Q quorum votes standing vacant stamped =>
      intro e he
      simp only [Ledger.elect, Function.update_self, List.mem_append, List.mem_singleton] at he
      rcases he with he | rfl
      · exact hold e he
      · exact stamped.le
    | @append r x reigning leads current stamped =>
      intro e he
      simp only [Ledger.append, Function.update_self, List.mem_append, List.mem_singleton] at he
      rcases he with he | rfl
      · exact hold e he
      · exact stamped.le
    | @truncate r k reigning x x' own theirs conflict =>
      intro e he
      simp only [Ledger.truncate, Function.update_self] at he
      exact hold e (List.mem_of_mem_take he)
    | @copy r m reigning behind =>
      intro e he
      simp only [Ledger.copy, Function.update_self] at he
      obtain ⟨i, hi⟩ := List.mem_iff_getElem?.mp (List.mem_of_mem_take he)
      exact h.reign_stamp_le reigning hi
    | advance => exact hold
    | stand => exact hold
    | castVote => exact hold
    | acknowledge => exact hold
  · intro e he
    rw [(hs.frame hw).2.1] at he
    exact (h.log_stamp w e he).trans hle

private theorem log_sourced_step (h : Inv q a) (hs : Step q v a a') (w : ν) :
    a'.Sourced (a'.log w) := by
  have hext := hs.extends h
  by_cases hw : w = v
  · subst hw
    have hold : a'.Sourced (a.log w) := (h.log_sourced w).mono hext
    cases hs with
    | @elect e Q quorum votes standing vacant stamped =>
      simp only [Ledger.elect, Function.update_self] at hold ⊢
      exact hold.concat (r := ⟨w, (a.log w).length, a.log w ++ [e]⟩) (by simp [stamped])
        List.prefix_rfl
    | @append r e reigning leads current stamped =>
      simp only [Ledger.append, Function.update_self] at hold ⊢
      exact hold.concat (r := { r with ledger := r.ledger ++ [e] }) (by simp [stamped])
        (by rw [current])
    | @truncate r k reigning e e' own theirs conflict =>
      simp only [Ledger.truncate, Function.update_self] at hold ⊢
      exact hold.of_isPrefix (List.take_prefix _ _)
    | @copy r m reigning behind =>
      have hr := (h.reign_sourced reigning).mono hext
      simp only [Ledger.copy, Function.update_self] at hr ⊢
      exact hr.of_isPrefix (List.take_prefix _ _)
    | advance => exact hold
    | stand => exact hold
    | castVote => exact hold
    | acknowledge => exact hold
  · rw [(hs.frame hw).2.1]
    exact (h.log_sourced w).mono hext

private theorem reign_bid_step (h : Inv q a) (hs : Step q v a a') {t : ℕ} {r' : Reign ν ε}
    (hr' : a'.reign t = some r') :
    a'.bid r'.leader t = some (r'.ledger.take r'.base) ∧ r'.base < r'.ledger.length := by
  have hext := hs.extends h
  rcases hs.reign_inv hr' with hr | ⟨rfl, e, _, _, hl, hv, hcase⟩
  · exact ⟨hext.bid (h.reign_bid hr).1, (h.reign_bid hr).2⟩
  · rw [hl, hv]
    rcases hcase with ⟨_, hb, hbid, _⟩ | ⟨r, hr, hlead, hlog, hb⟩
    · rw [hb, List.take_left]
      exact ⟨hext.bid hbid, by simp⟩
    · have hold := h.reign_bid hr
      rw [hlead] at hold
      rw [hlog, hb, List.take_append_of_le_length hold.2.le]
      exact ⟨hext.bid hold.1, by simp; omega⟩

private theorem ack_reign_step (h : Inv q a) (hs : Step q v a a') {t : ℕ}
    (hpos : 0 < a'.ack w t) :
    t ≤ a'.epoch w ∧ ∃ r, a'.reign t = some r ∧ a'.ack w t ≤ r.ledger.length := by
  have hext := hs.extends h
  rcases hs.ack_inv (le_refl (a'.ack w t)) with hn | ⟨rfl, rfl, r', hr', hag⟩
  · obtain ⟨ht, r, hr, hle⟩ := h.ack_reign (v := w) (t := t) (by omega)
    obtain ⟨r', hr', _, _, hp⟩ := hext.reign hr
    exact ⟨ht.trans (hext.epoch w), r', hr', hn.trans (hle.trans hp.length_le)⟩
  · exact ⟨hext.epoch w, r', hr', hag.2.1⟩

private theorem kept_step (h : Inv q a) (hs : Step q v a a') (w : ν) (t n : ℕ)
    (hn : n ≤ a'.ack w t) : a'.Retains t n (a'.log w) (a'.epoch w + 1) := by
  have hext := hs.extends h
  rcases hs.ack_inv hn with hn | ⟨rfl, rfl, r', hr', hag⟩
  · have hold := h.kept w t n hn
    have hhi : a.epoch w + 1 ≤ a'.epoch w + 1 := Nat.succ_le_succ (hext.epoch w)
    by_cases hw : w = v
    · subst hw
      rcases hs.log_inv with hp | ⟨s, k, e, e', hs', hown, htheirs, hne, rfl⟩
      · exact hold.mono h hext (reign_stamp_step h hs) hn hp hhi
      · -- the cut is at a position where the present ledger differs from the old log
        intro r hr hb
        change a.reign t = some r at hr
        simp only [Ledger.truncate, Function.update_self]
        rcases hold r hr hb with hag | hover
        · by_cases hnk : n ≤ k
          · exact .inl (hag.take_left hnk)
          · have hclash : ¬ AgreeUpTo n s.ledger r.ledger := by
              intro hag'
              have he := (hag.getElem?_eq (i := k) (by omega)).trans
                (hag'.getElem?_eq (by omega)).symm
              rw [hown, htheirs] at he
              exact hne (congrArg stamp (Option.some.inj he))
            have ht : t ≤ a.epoch w := (h.ack_reign (v := w) (t := t) (by omega)).1
            have htne : t ≠ a.epoch w := by
              rintro rfl
              rw [hs'] at hr
              cases hr
              exact hclash (.refl hag.2.1)
            exact .inr ⟨a.epoch w, s, by omega, Nat.lt_succ_self _, hs', hclash⟩
        · exact .inr hover
    · rw [(hs.frame hw).2.1]
      exact hold.mono h hext (reign_stamp_step h hs) hn List.prefix_rfl hhi
  · intro r hr _
    rw [hr'] at hr
    cases hr
    exact .inl hag

/-- A log at least as up to date as that of a voter retains what the voter acknowledged: its
last entry is from the same reign as the voter's and no earlier in it, or from a later one. -/
theorem Inv.retains_of_upToDate (h : Inv q a) {c : ν} {b : List ε} {u n : ℕ}
    (hbid : a.bid c (a.epoch v) = some b) (hvacant : a.reign (a.epoch v) = none)
    (hup : UpToDate b (a.log v)) (hn : n ≤ a.ack v u) :
    a.Retains u n b (a.epoch v) := by
  intro r hr hbase
  rcases h.kept v u n hn r hr hbase with hag | ⟨s, r', hus, hs, hr', hno⟩
  · have hlv : a.log v ≠ [] := by
      intro hnil
      have := hag.1
      rw [hnil, List.length_nil] at this
      omega
    obtain ⟨e, he, hle⟩ := lastStamp_eq hlv
    have hn1 : n - 1 < (a.log v).length := by have := hag.1; omega
    have hue : u ≤ stamp e := by
      have hx := List.getElem?_eq_getElem hn1
      have hx' := (hag.getElem?_eq (i := n - 1) (by omega)).symm.trans hx
      rw [← h.reign_stamp hr _ _ hx' (by omega)]
      exact h.sourced_stamp_le (h.log_sourced v) (by omega) hx he
    have hbne : b ≠ [] := by
      rintro rfl
      rcases hup with hlt | ⟨_, hlen⟩
      · simp at hlt
      · rw [List.length_nil] at hlen
        omega
    obtain ⟨e', he', hle'⟩ := lastStamp_eq hbne
    obtain ⟨r₁, hr₁, hag₁⟩ := h.log_sourced v _ e he
    obtain ⟨r₂, hr₂, hag₂⟩ := h.bid_sourced hbid _ e' he'
    have hbpos : 0 < b.length := List.length_pos_iff.mpr hbne
    have hvpos : 0 < (a.log v).length := List.length_pos_iff.mpr hlv
    rw [Nat.sub_add_cancel hbpos] at hag₂
    rw [Nat.sub_add_cancel hvpos] at hag₁
    rcases hup with hlt | ⟨heq, hlen⟩
    · rw [hle, hle'] at hlt
      by_cases hagr : AgreeUpTo n r₂.ledger r.ledger
      · by_cases hnb : n ≤ b.length
        · exact .inl ((hag₂.mono hnb).trans hagr)
        · -- then the ledger of `u` would contain the later entry `e'`
          exfalso
          have hlate := (hag₂.getElem?_eq (i := b.length - 1) (by omega)).symm.trans he'
          rw [hagr.getElem?_eq (by omega)] at hlate
          have := h.reign_stamp_le hr hlate
          omega
      · exact .inr ⟨stamp e', r₂, by omega,
          h.bid_stamp hbid e' (List.mem_of_getElem? he'), hr₂, hagr⟩
    · rw [hle, hle'] at heq
      rw [heq, hr₁] at hr₂
      cases hr₂
      exact .inl (((hag₂.mono hlen).trans hag₁.symm).mono hag.1 |>.trans hag)
  · refine .inr ⟨s, r', hus, ?_, hr', hno⟩
    have hne : s ≠ a.epoch v := by
      rintro rfl
      rw [hvacant] at hr'
      cases hr'
    omega

private theorem pledge_step (h : Inv q a) (hs : Step q v a a') {t : ℕ} {c : ν} {b : List ε}
    (hvote : a'.vote w t = some c) (hbid : a'.bid c t = some b) (hvacant : a'.reign t = none)
    (u n : ℕ) (hu : u < t) (hn : n ≤ a'.ack w u) : a'.Retains u n b t := by
  have hext := hs.extends h
  have hvacant' : a.reign t = none := by
    by_contra hne
    obtain ⟨r, hr⟩ := Option.ne_none_iff_exists'.mp hne
    obtain ⟨r', hr', _⟩ := hext.reign hr
    rw [hvacant] at hr'
    cases hr'
  rcases hs.vote_inv hvote with hold | ⟨rfl, ht, hack, hcase⟩
  · obtain ⟨b₀, hb₀⟩ := h.vote_bid hold
    have hb := hext.bid hb₀
    rw [hbid] at hb
    cases hb
    have hn' := hs.ack_frozen (hu.trans_le (h.vote_le hold)) hn
    exact (h.pledge hold hb₀ hvacant' u n hu hn').mono h hext (reign_stamp_step h hs) hn'
      List.prefix_rfl le_rfl
  · rw [hack] at hn
    rcases hcase with ⟨rfl, hlt, hb⟩ | ⟨rfl, b₀, hb₀, hup⟩
    · rw [hbid] at hb
      cases hb
      exact (h.kept c u n hn).mono h hext (reign_stamp_step h hs) hn List.prefix_rfl hlt
    · have hb := hext.bid hb₀
      rw [hbid] at hb
      cases hb
      exact (h.retains_of_upToDate hb₀ hvacant' hup hn).mono h hext (reign_stamp_step h hs) hn
        List.prefix_rfl le_rfl

private theorem mandate_step (h : Inv q a) (hs : Step q v a a') {t : ℕ} {r' : Reign ν ε}
    (hr' : a'.reign t = some r') : ∃ Q, q.IsQuorum Q ∧ ∀ w ∈ Q, a'.vote w t = some r'.leader ∧
      ∀ u n, u < t → n ≤ a'.ack w u → a'.Retains u n r'.ledger t := by
  have hext := hs.extends h
  have carry : ∀ {w : ν} {l : List ε} {c : ν}, a.vote w t = some c →
      (∀ u n, u < t → n ≤ a.ack w u → a.Retains u n l t) → l <+: r'.ledger →
      ∀ u n, u < t → n ≤ a'.ack w u → a'.Retains u n r'.ledger t := by
    intro w l c hc hret hp u n hu hn
    have hn' := hs.ack_frozen (hu.trans_le (h.vote_le hc)) hn
    exact (hret u n hu hn').mono h hext (reign_stamp_step h hs) hn' hp le_rfl
  rcases hs.reign_inv hr' with hr | ⟨rfl, e, _, _, hl, hv, hcase⟩
  · obtain ⟨Q, hQ, hall⟩ := h.mandate hr
    refine ⟨Q, hQ, fun w hw => ⟨hext.vote (hall w hw).1, ?_⟩⟩
    exact carry (hall w hw).1 (hall w hw).2 List.prefix_rfl
  · rcases hcase with ⟨hvacant, _, hbid, Q, hQ, hall⟩ | ⟨r, hr, hlead, hlog, _⟩
    · refine ⟨Q, hQ, fun w hw => ⟨by rw [hv]; exact hext.vote (hall w hw), ?_⟩⟩
      exact carry (hall w hw) (h.pledge (hall w hw) hbid hvacant) (by rw [hl]; simp)
    · obtain ⟨Q, hQ, hall⟩ := h.mandate hr
      rw [hlead] at hall
      refine ⟨Q, hQ, fun w hw => ⟨by rw [hv]; exact hext.vote (hall w hw).1, ?_⟩⟩
      exact carry (hall w hw).1 (hall w hw).2 (by rw [hl, hlog]; simp)

theorem Inv.initial : Inv q (Ledger.initial : Ledger ν ε) where
  log_stamp := by simp [Ledger.initial]
  log_sourced := by intro v i e he; simp [Ledger.initial] at he
  bid_le := by simp [Ledger.initial]
  bid_stamp := by simp [Ledger.initial]
  bid_sourced := by simp [Ledger.initial]
  vote_le := by simp [Ledger.initial]
  vote_bid := by simp [Ledger.initial]
  reign_bid := by simp [Ledger.initial]
  reign_stamp := by simp [Ledger.initial]
  reign_sourced := by simp [Ledger.initial]
  ack_reign := by simp [Ledger.initial]
  kept := by intro v t n _ r hr; simp [Ledger.initial] at hr
  pledge := by simp [Ledger.initial]
  mandate := by simp [Ledger.initial]

/-- Every move of every participant preserves the invariant. -/
theorem Inv.step (h : Inv q a) (hs : Step q v a a') : Inv q a' := by
  have hext := hs.extends h
  refine
    { log_stamp := log_stamp_step h hs
      log_sourced := log_sourced_step h hs
      bid_le := ?_
      bid_stamp := ?_
      bid_sourced := ?_
      vote_le := ?_
      vote_bid := ?_
      reign_bid := reign_bid_step h hs
      reign_stamp := reign_stamp_step h hs
      reign_sourced := ?_
      ack_reign := ack_reign_step h hs
      kept := kept_step h hs
      pledge := pledge_step h hs
      mandate := mandate_step h hs }
  · intro c t b hb
    rcases hs.bid_inv hb with hb | ⟨rfl, _, _, ht, hv⟩
    · exact ⟨(h.bid_le hb).1.trans (hext.epoch c), hext.vote (h.bid_le hb).2⟩
    · exact ⟨ht.ge, hv⟩
  · intro c t b hb
    rcases hs.bid_inv hb with hb | ⟨rfl, rfl, hlt, _, _⟩
    · exact h.bid_stamp hb
    · exact fun e he => (h.log_stamp c e he).trans_lt hlt
  · intro c t b hb
    rcases hs.bid_inv hb with hb | ⟨rfl, rfl, _, _, _⟩
    · exact (h.bid_sourced hb).mono hext
    · exact (h.log_sourced c).mono hext
  · intro w t c hc
    rcases hs.vote_inv hc with hc | ⟨rfl, rfl, _, _⟩
    · exact (h.vote_le hc).trans (hext.epoch w)
    · exact le_rfl
  · intro w t c hc
    rcases hs.vote_inv hc with hc | ⟨rfl, rfl, _, ⟨rfl, _, hb⟩ | ⟨_, b, hb, _⟩⟩
    · obtain ⟨b, hb⟩ := h.vote_bid hc
      exact ⟨b, hext.bid hb⟩
    · exact ⟨_, hb⟩
    · exact ⟨b, hext.bid hb⟩
  · intro t r' hr'
    rcases hs.reign_inv hr' with hr | ⟨rfl, e, he, _, hl, _, _⟩
    · exact (h.reign_sourced hr).mono hext
    · have hsrc := ((h.log_sourced v).mono hext).concat (e := e) (r := r')
        (by rw [he]; exact hr') (by rw [hl])
      rwa [← hl] at hsrc

theorem Inv.steps (h : Inv q a) (hs : Steps q a a') : Inv q a' := by
  induction hs with
  | refl => exact h
  | tail _ hstep ih => exact ih.step hstep.choose_spec

theorem Steps.extends (h : Inv q a) (hs : Steps q a a') : Extends a a' := by
  induction hs with
  | refl => exact .refl a
  | tail hprev hstep ih => exact ih.trans (hstep.choose_spec.extends (h.steps hprev))

/-! ## Stamps along a log -/

/-- Nobody stands in epoch zero. -/
theorem Steps.bid_pos (hs : Steps q Ledger.initial a) {c : ν} {t : ℕ} {b : List ε}
    (hb : a.bid c t = some b) : 0 < t := by
  induction hs with
  | refl => cases hb
  | tail _ hstep ih =>
    obtain ⟨w, hstep⟩ := hstep
    rcases hstep.bid_inv hb with hold | ⟨_, _, hlater, _, _⟩
    · exact ih hold
    · exact Nat.zero_lt_of_lt hlater

theorem Sourced.stamp_pos (h : Inv q a) (hs : Steps q Ledger.initial a) {l : List ε}
    (hl : a.Sourced l) : ∀ e ∈ l, 0 < stamp e := by
  intro e he
  obtain ⟨i, hi⟩ := List.mem_iff_getElem?.mp he
  obtain ⟨r, hr, _⟩ := hl i e hi
  exact hs.bid_pos (h.reign_bid hr).1

theorem Sourced.pairwise (h : Inv q a) {l : List ε} (hl : a.Sourced l) :
    (l.map stamp).Pairwise (· ≤ ·) := by
  rw [List.pairwise_map, List.pairwise_iff_getElem]
  intro i j hi hj hij
  exact h.sourced_stamp_le hl hij.le (List.getElem?_eq_getElem hi) (List.getElem?_eq_getElem hj)

end Ledger

end ReplicatedLog
