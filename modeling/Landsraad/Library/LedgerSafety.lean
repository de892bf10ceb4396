import Landsraad.Library.LedgerInvariant

/-!
# Commitment and leader completeness

A position is committed once a quorum has acknowledged it in the reign that created it.
Every later reign then contains the ledger up to that position, and so do the logs of that
quorum for good. A certificate transfers this to a prefix of an arbitrary log.
-/

set_option linter.unusedSectionVars false

namespace ReplicatedLog

variable {ν ε : Type*} [DecidableEq ν] [Stamped ε]

namespace Ledger

variable {q : QuorumSystem ν} {a a' : Ledger ν ε} {v : ν}

/-- Position `n` was created in the reign of `t` and a quorum acknowledged it there. -/
def CommittedAt (q : QuorumSystem ν) (a : Ledger ν ε) (t n : ℕ) : Prop :=
  ∃ r, a.reign t = some r ∧ r.base < n ∧ ∃ Q, q.IsQuorum Q ∧ ∀ v ∈ Q, n ≤ a.ack v t

/-- The first `c` entries of `l` are a committed prefix of the ledger of an epoch up to `t`. -/
def Certified (q : QuorumSystem ν) (a : Ledger ν ε) (t : ℕ) (l : List ε) (c : ℕ) : Prop :=
  c = 0 ∨ ∃ u n r, u ≤ t ∧ a.reign u = some r ∧ a.CommittedAt q u n ∧ c ≤ n ∧
    AgreeUpTo c l r.ledger

theorem CommittedAt.mono (hext : Extends a a') {t n : ℕ} (hc : a.CommittedAt q t n) :
    a'.CommittedAt q t n := by
  obtain ⟨r, hr, hb, Q, hQ, hall⟩ := hc
  obtain ⟨r', hr', _, hb', _⟩ := hext.reign hr
  exact ⟨r', hr', by omega, Q, hQ, fun v hv => (hall v hv).trans (hext.ack v t)⟩

/-- The ledger of every later reign contains what an earlier one committed: the quorum that
elected it meets the quorum that acknowledged, and a ledger in between that lacked the entry
would be a smaller counterexample. -/
theorem CommittedAt.complete (h : Inv q a) {t n u : ℕ} {r s : Reign ν ε}
    (hc : a.CommittedAt q t n) (hr : a.reign t = some r) (htu : t < u)
    (hs : a.reign u = some s) : AgreeUpTo n s.ledger r.ledger := by
  induction u using Nat.strong_induction_on generalizing s with
  | _ u ih =>
    obtain ⟨r', hr', hb, Q, hQ, hack⟩ := hc
    rw [hr] at hr'
    cases hr'
    obtain ⟨Q', hQ', hvote⟩ := h.mandate hs
    obtain ⟨w, hw, hw'⟩ := q.meet hQ hQ'
    rcases (hvote w hw').2 t n htu (hack w hw) r hr hb with hag | ⟨x, y, htx, hxu, hy, hno⟩
    · exact hag
    · exact absurd (ih x hxu htx hy) hno

theorem committed_le_base (h : Inv q a) {t n u : ℕ} {s : Reign ν ε}
    (hc : a.CommittedAt q t n) (htu : t < u) (hs : a.reign u = some s) : n ≤ s.base := by
  obtain ⟨r, hr, hb, _⟩ := id hc
  have hag := CommittedAt.complete h hc hr htu hs
  by_contra hlt
  have hn : n - 1 < s.ledger.length := by have := hag.1; omega
  have hx := List.getElem?_eq_getElem hn
  have hx' := (hag.getElem?_eq (i := n - 1) (by omega)).symm.trans hx
  have h1 := h.reign_stamp hs _ _ hx (by omega)
  have h2 := h.reign_stamp hr _ _ hx' (by omega)
  omega

/-- The logs of the committing quorum hold the committed prefix now and at all later times. -/
theorem CommittedAt.durable (h : Inv q a) {t n : ℕ} {r : Reign ν ε}
    (hc : a.CommittedAt q t n) (hr : a.reign t = some r) :
    ∃ Q, q.IsQuorum Q ∧ ∀ w ∈ Q, AgreeUpTo n (a.log w) r.ledger := by
  obtain ⟨r', hr', hb, Q, hQ, hack⟩ := id hc
  rw [hr] at hr'
  cases hr'
  refine ⟨Q, hQ, fun w hw => ?_⟩
  rcases h.kept w t n (hack w hw) r hr hb with hag | ⟨u, s, htu, _, hs, hno⟩
  · exact hag
  · exact absurd (CommittedAt.complete h hc hr htu hs) hno

/-! ## Acknowledged prefixes -/

/-- In its present epoch every participant still holds what it has acknowledged there. -/
def Holds (a : Ledger ν ε) : Prop :=
  ∀ v n, 0 < n → n ≤ a.ack v (a.epoch v) →
    ∃ r, a.reign (a.epoch v) = some r ∧ AgreeUpTo n (a.log v) r.ledger

theorem Holds.initial : Holds (Ledger.initial : Ledger ν ε) :=
  fun _ _ hpos hn => absurd hpos (Nat.not_lt.mpr hn)

theorem Holds.step (hh : Holds a) (h : Inv q a) (hs : Step q v a a') : Holds a' := by
  intro w n hpos hn
  have hext := hs.extends h
  rcases hs.ack_inv hn with hold | ⟨rfl, _, hnew⟩
  swap
  · exact hnew
  obtain ⟨hle, _⟩ := h.ack_reign (hpos.trans_le hold)
  have hepoch : a'.epoch w = a.epoch w := le_antisymm hle (hext.epoch w)
  rw [hepoch] at hold ⊢
  obtain ⟨r, hr, hag⟩ := hh w n hpos hold
  obtain ⟨r', hr', _, _, hp⟩ := hext.reign hr
  refine ⟨r', hr', ?_⟩
  have hag' := hag.prefix_right hp
  by_cases hw : w = v
  · subst hw
    rcases hs.log_inv with hgrow | ⟨s, k, e, e', hs', hown, htheirs, hne, rfl⟩
    · exact hag'.prefix_left hgrow
    · -- a conflict lies beyond what was acknowledged
      rw [hr] at hs'
      cases hs'
      simp only [Ledger.truncate, Function.update_self]
      apply hag'.take_left
      by_contra hlt
      have heq := hag.getElem?_eq (Nat.lt_of_not_le hlt)
      rw [hown, htheirs] at heq
      exact hne (congrArg stamp (Option.some.inj heq))
  · rw [(hs.frame hw).2.1]
    exact hag'

theorem Holds.steps (hh : Holds a) (h : Inv q a) (hs : Steps q a a') : Holds a' := by
  induction hs with
  | refl => exact hh
  | tail hprev hstep ih => exact ih.step (h.steps hprev) hstep.choose_spec

/-- A participant that has acknowledged the whole ledger of its present epoch has nothing else:
a further entry would bear a stamp of the epoch and be in the ledger too. -/
theorem Holds.eq_ledger (hh : Holds a) (h : Inv q a) {r : Reign ν ε}
    (hr : a.reign (a.epoch v) = some r) (hack : r.ledger.length ≤ a.ack v (a.epoch v)) :
    a.log v = r.ledger := by
  have hbase := (h.reign_bid hr).2
  obtain ⟨r', hr', hag⟩ := hh v r.ledger.length (by omega) hack
  rw [hr] at hr'
  cases hr'
  have hlen : (a.log v).length ≤ r.ledger.length := by
    by_contra hlong
    have hlast := List.getElem?_eq_getElem (l := r.ledger) (i := r.ledger.length - 1) (by omega)
    have hnext := List.getElem?_eq_getElem (l := a.log v) (i := r.ledger.length) (by omega)
    have hstamp := h.reign_stamp hr _ _ hlast (by omega)
    have hmono := h.sourced_stamp_le (h.log_sourced v) (by omega)
      ((hag.getElem?_eq (by omega)).trans hlast) hnext
    have hle := h.log_stamp v _ (List.mem_of_getElem? hnext)
    obtain ⟨r', hr', hag'⟩ := h.log_sourced v _ _ hnext
    rw [le_antisymm hle (hstamp ▸ hmono), hr] at hr'
    cases hr'
    have hreach := hag'.2.1
    omega
  rw [← List.take_of_length_le hlen, hag.take_eq, List.take_length]

/-! ## Certificates -/

theorem Certified.zero (t : ℕ) (l : List ε) : a.Certified q t l 0 := .inl rfl

theorem Certified.le_length {t c : ℕ} {l : List ε} (hc : a.Certified q t l c) : c ≤ l.length := by
  rcases hc with rfl | ⟨u, n, r, _, _, _, _, hag⟩
  · exact Nat.zero_le _
  · exact hag.1

theorem Certified.mono (hext : Extends a a') {t t' c : ℕ} {l : List ε} (ht : t ≤ t')
    (hc : a.Certified q t l c) : a'.Certified q t' l c := by
  rcases hc with rfl | ⟨u, n, r, hu, hr, hcom, hcn, hag⟩
  · exact .inl rfl
  · obtain ⟨r', hr', _, _, hp⟩ := hext.reign hr
    exact .inr ⟨u, n, r', hu.trans ht, hr', hcom.mono hext, hcn, hag.prefix_right hp⟩

theorem Certified.of_agree {t c k : ℕ} {l l' : List ε} (hc : a.Certified q t l c)
    (hag : AgreeUpTo k l' l) (hk : k ≤ c) : a.Certified q t l' k := by
  rcases hc with rfl | ⟨u, n, r, hu, hr, hcom, hcn, hag'⟩
  · exact .inl (by omega)
  · exact .inr ⟨u, n, r, hu, hr, hcom, hk.trans hcn, hag.trans (hag'.mono hk)⟩

theorem Certified.extend {t c : ℕ} {l l' : List ε} (hc : a.Certified q t l c) (hp : l <+: l') :
    a.Certified q t l' c :=
  hc.of_agree (.symm (.of_isPrefix hp hc.le_length)) le_rfl

/-- A certificate is one of the latest epoch that a whole quorum has reached. -/
theorem Certified.of_quorum (h : Inv q a) {t t' c : ℕ} {l : List ε} {Q : Finset ν}
    (hc : a.Certified q t l c) (hQ : q.IsQuorum Q) (ht : ∀ w ∈ Q, a.epoch w ≤ t') :
    a.Certified q t' l c := by
  rcases hc with rfl | ⟨u, n, r, _, hr, hcom, hcn, hag⟩
  · exact .zero _ _
  · obtain ⟨r', _, hb, Q', hQ', hack⟩ := id hcom
    obtain ⟨w, hw, hw'⟩ := q.meet hQ hQ'
    have hpos : 0 < a.ack w u := (Nat.zero_le r'.base).trans_lt (hb.trans_le (hack w hw'))
    exact .inr ⟨u, n, r, (h.ack_reign hpos).1.trans (ht w hw), hr, hcom, hcn, hag⟩

theorem Certified.agree (h : Inv q a) {t t' c c' k : ℕ} {l l' : List ε}
    (hc : a.Certified q t l c) (hc' : a.Certified q t' l' c') (hk : k ≤ c) (hk' : k ≤ c') :
    AgreeUpTo k l l' := by
  rcases hc with rfl | ⟨u, n, r, _, hr, hcom, hcn, hag⟩
  · rw [Nat.le_zero.mp hk]
    exact .zero _ _
  rcases hc' with rfl | ⟨u', n', r', _, hr', hcom', hcn', hag'⟩
  · rw [Nat.le_zero.mp hk']
    exact .zero _ _
  have hl : AgreeUpTo k l r.ledger := hag.mono hk
  have hl' : AgreeUpTo k l' r'.ledger := hag'.mono hk'
  rcases lt_trichotomy u u' with hlt | rfl | hlt
  · have hlc := (CommittedAt.complete h hcom hr hlt hr').mono (hk.trans hcn)
    exact hl.trans (hlc.symm.trans hl'.symm)
  · rw [hr] at hr'
    cases hr'
    exact hl.trans hl'.symm
  · have hlc := (CommittedAt.complete h hcom' hr' hlt hr).mono (hk'.trans hcn')
    exact hl.trans (hlc.trans hl'.symm)

theorem Certified.step (h : Inv q a) {w : ν} (hs : Step q w a a') {c : ℕ}
    (hc : a.Certified q (a.epoch v) (a.log v) c) :
    a'.Certified q (a'.epoch v) (a'.log v) c := by
  have hext := hs.extends h
  have hcm := hc.mono hext (hext.epoch v)
  by_cases hv : v = w
  · subst hv
    rcases hs.log_inv with hp | ⟨s, k, e, e', hs', hown, htheirs, hne, rfl⟩
    · exact hcm.extend hp
    · -- a conflict inside the prefix would contradict the ledger of the present epoch
      refine hcm.of_agree ?_ le_rfl
      simp only [Ledger.truncate, Function.update_self]
      apply (AgreeUpTo.refl hc.le_length).take_left
      rcases hc with rfl | ⟨u, n, r, hu, hr, hcom, hcn, hag⟩
      · exact Nat.zero_le _
      · by_contra hlt
        have hlc : AgreeUpTo c s.ledger r.ledger := by
          rcases Nat.lt_or_eq_of_le hu with hlt' | rfl
          · exact (CommittedAt.complete h hcom hr hlt' hs').mono hcn
          · rw [hr] at hs'
            cases hs'
            exact .refl hag.2.1
        have he := (hag.getElem?_eq (i := k) (by omega)).trans
          (hlc.getElem?_eq (by omega)).symm
        rw [hown, htheirs] at he
        exact hne (congrArg stamp (Option.some.inj he))
  · rw [(hs.frame hv).2.1]
    exact hcm

theorem Certified.steps (h : Inv q a) (hs : Steps q a a') {c : ℕ}
    (hc : a.Certified q (a.epoch v) (a.log v) c) :
    a'.Certified q (a'.epoch v) (a'.log v) c := by
  induction hs with
  | refl => exact hc
  | tail hprev hstep ih => exact ih.step (h.steps hprev) hstep.choose_spec

theorem Certified.agree_later (h : Inv q a) (hs : Steps q a a') {c : ℕ}
    (hc : a.Certified q (a.epoch v) (a.log v) c) : AgreeUpTo c (a'.log v) (a.log v) :=
  (hc.steps h hs).agree (h.steps hs) (hc.mono (hs.extends h) le_rfl) le_rfl le_rfl

end Ledger

end ReplicatedLog
