import Landsraad.Raft.Simulation
import Landsraad.Raft.Widths
import Landsraad.Sim.Cluster

/-!
# The simulated cluster runs the protocol

Every call of the simulator that changes the nodes or the links is a run of the system of
`Raft.System`: the channels only ever hold messages that were sent on them.
-/

namespace Landsraad

open ReplicatedLog ReplicatedLog.Ledger Cluster

/-- The message that the codec reads from a datagram, if it accepts it. -/
def Channel.read (χ : Type) [Channel χ] (datagram : List UInt8) : Option Message :=
  match decodeMessage (Channel.frames χ) datagram with
  | .ok (.ok msg) => some msg
  | _ => none

/-- `carried c b` says that the datagram `b` was sent on `c`. A channel loses, repeats, delays and
damages datagrams, but makes up none, and the frames detect what was damaged. -/
structure Channel.Faithful (χ : Type) [Channel χ] (carried : χ → List UInt8 → Prop) : Prop where
  frames : (Channel.frames χ).Faithful
  new : ∀ seed b, ¬ carried (Channel.new seed) b
  send : ∀ c b b', carried (Channel.send c b) b' → b' = b ∨ carried c b'
  advance : ∀ c t b, carried (Channel.advance c t).1 b → carried c b
  arrives : ∀ c t b, b ∈ (Channel.advance c t).2 → carried c b ∨ Damaged (Channel.frames χ) b

def Cluster.slot {χ : Type} (c : Cluster χ) (i : Nat) : Slot :=
  match c.nodes i with
  | some n => .up n []
  | none => .down (c.disks i)

/-- A proposed command is short enough for a length of 32 bits. -/
def Op.Sized : Op → Prop
  | .propose command => command.length < UInt32.size
  | _ => True

instance (op : Op) : Decidable op.Sized :=
  match op with
  | .propose command => inferInstanceAs (Decidable (command.length < UInt32.size))
  | .step _ | .crash _ | .restart _ | .partition _ | .isolate _ | .heal | .quiesce =>
    inferInstanceAs (Decidable True)

section Calls

variable {χ : Type} [Channel χ] {c c' : Cluster χ} {datagram : List UInt8} {m : Message}

theorem read_eq_some : Channel.read χ datagram = some m ↔
    decodeMessage (Channel.frames χ) datagram = .ok (.ok m) := by
  unfold Channel.read
  split
  · next m' h => simp [h]
  · next hnot =>
    refine iff_of_false (by simp) fun h => hnot m h

theorem encodable_of_read (h : Channel.read χ datagram = some m) : m.Encodable :=
  encodable_of_decode (read_eq_some.mp h)

theorem read_encode (hframe : (Channel.frames χ).Faithful) (h : m.Encodable) :
    Channel.read χ (encodeMessage (Channel.frames χ) m) = some m :=
  read_eq_some.mpr (decode_encode hframe h)

theorem read_damaged (h : Damaged (Channel.frames χ) datagram) :
    Channel.read χ datagram = none := by
  obtain ⟨e, he⟩ := decode_damaged h
  unfold Channel.read
  rw [he]

/-! ## What the calls are -/

omit [Channel χ] in
theorem sized_ok {α : Type} {r : Checked (Node Disk × α)} {n : Node Disk} {a : α}
    (h : sized r = .ok (n, a)) : r = .ok (n, a) ∧ n.log.length < UInt64.size := by
  obtain ⟨⟨n', a'⟩, hr, h⟩ := Checked.bind_eq_ok.mp h
  dsimp only at h
  split at h
  · next hlt =>
    cases h
    exact ⟨hr, hlt⟩
  · cases h

omit [Channel χ] in
theorem sized_of_ok {α : Type} {r : Checked (Node Disk × α)} {n : Node Disk} {a : α}
    (h : r = .ok (n, a)) (hlen : n.log.length < UInt64.size) : sized r = .ok (n, a) := by
  have hlt : n.log.length < Checked.wordSize := hlen
  exact Checked.bind_eq_ok.mpr ⟨(n, a), h, if_pos hlt⟩

/-- The first arrival is passed over, or it is a message that a live node handles. -/
theorem deliver_cons {f : Faults} {d : Draws} {k sender recipient : Nat}
    {rest : List (Nat × Nat × List UInt8)}
    (h : deliver f d k ((sender, recipient, datagram) :: rest) c = .ok c') :
    ((c.nodes recipient = none ∨ Channel.read χ datagram = none) ∧
        deliver f d (k + 1) rest c = .ok c') ∨
      ∃ n msg n' out, c.nodes recipient = some n ∧ Channel.read χ datagram = some msg ∧
        n.call (.handle c.now sender msg) = .ok (n', out, none) ∧
        n'.log.length < UInt64.size ∧
        deliver f d (k + 1) rest (if f.crashAfterEvent && d.crashAfterEvent k then
          (c.setNode recipient (some n')).crash recipient
          else (c.setNode recipient (some n')).route recipient out) = .ok c' := by
  unfold deliver at h
  split at h
  · next hn => exact .inl ⟨.inl hn, h⟩
  next n hn =>
  obtain ⟨r, hr, h⟩ := Checked.bind_eq_ok.mp h
  cases r with
  | error e =>
    have hnone : Channel.read χ datagram = none := by
      unfold Channel.read
      rw [hr]
    exact .inl ⟨.inr hnone, h⟩
  | ok msg =>
    obtain ⟨⟨n', out⟩, hhandle, h⟩ := Checked.bind_eq_ok.mp h
    obtain ⟨hhandle, hlen⟩ := sized_ok hhandle
    exact .inr ⟨n, msg, n', out, hn, read_eq_some.mpr hr, Node.call_handle hhandle, hlen, h⟩

theorem timers_cons {i : Nat} {is : List Nat} (h : timers (i :: is) c = .ok c') :
    (c.nodes i = none ∧ timers is c = .ok c') ∨
      ∃ n n' out, c.nodes i = some n ∧ n.call (.tick c.now) = .ok (n', out, none) ∧
        n'.log.length < UInt64.size ∧
        timers is ((c.setNode i (some n')).route i out) = .ok c' := by
  unfold timers at h
  split at h
  · next hn => exact .inl ⟨hn, h⟩
  next n hn =>
  obtain ⟨⟨n', out⟩, htick, h⟩ := Checked.bind_eq_ok.mp h
  obtain ⟨htick, hlen⟩ := sized_ok htick
  exact .inr ⟨n, n', out, hn, Node.call_tick htick, hlen, h⟩

/-- Routing changes the links only. -/
theorem route_eq (c : Cluster χ) (i : Nat) (out : List Outgoing) :
    ∃ links, c.route i out = { c with links } := by
  induction out generalizing c with
  | nil => exact ⟨c.links, rfl⟩
  | cons o rest ih =>
    unfold route
    split
    · exact ih c
    · obtain ⟨links, hlinks⟩ := ih { c with links := _ }
      exact ⟨links, hlinks⟩

/-- A proposal is a call of the leader, or finds no leader. -/
theorem propose_cases {command : List UInt8} {r : Except ProposeError (Nat × Nat)}
    (h : c.propose command = .ok (c', r)) :
    c' = c ∨ ∃ l n n' out answer, c.leader = some l ∧ c.nodes l = some n ∧
      n.call (.propose c.now command) = .ok (n', out, answer) ∧ n'.log.length < UInt64.size ∧
      c' = (c.setNode l (some n')).route l out := by
  unfold propose at h
  split at h
  · cases h
    exact .inl rfl
  next l hl =>
  split at h
  · cases h
  next n hn =>
  obtain ⟨⟨n', reply⟩, hpropose, h⟩ := Checked.bind_eq_ok.mp h
  obtain ⟨hpropose, hlen⟩ := sized_ok hpropose
  right
  cases reply with
  | error e =>
    cases h
    exact ⟨l, n, n', [], none, hl, hn, Checked.bind_eq_ok.mpr ⟨_, hpropose, rfl⟩, hlen, rfl⟩
  | ok accepted =>
    obtain ⟨index, out⟩ := accepted
    cases h
    exact ⟨l, n, n', out, some index, hl, hn, Checked.bind_eq_ok.mpr ⟨_, hpropose, rfl⟩, hlen, rfl⟩

theorem propose_clocks {command : List UInt8} {r : Except ProposeError (Nat × Nat)}
    (h : c.propose command = .ok (c', r)) :
    c'.now = c.now ∧ c'.nextCommand = c.nextCommand := by
  rcases propose_cases h with rfl | ⟨l, _, n', out, _, _, _, _, _, rfl⟩
  · exact ⟨rfl, rfl⟩
  · obtain ⟨links, hlinks⟩ := route_eq (c.setNode l (some n')) l out
    rw [hlinks]
    exact ⟨rfl, rfl⟩

/-- The text of an injected command is short. -/
theorem injected_short (k : UInt64) : (s!"cmd{k}").toUTF8.toList.length < UInt32.size := by
  have hlen := Bytes.length_toUTF8_append (k := 20) (n := k.toNat) "cmd" (by decide)
    (k.toNat_lt.trans_le (by decide))
  exact hlen.trans_lt (by decide)

omit [Channel χ] in
/-- The injected partition and heal. -/
def Cluster.network {χ : Type} (c : Cluster χ) (f : Faults) (d : Draws) : Cluster χ :=
  let c := if f.partition && d.partition then c.partition d.side else c
  if f.heal && d.heal then c.heal else c

/-- What a step injects after the crashes: the changes of the network, and a proposal or none. -/
theorem injectRest_cases {f : Faults} {d : Draws} (h : c.injectRest f d = .ok c') :
    ((f.propose && d.propose) = false ∧ c' = c.network f d) ∨
      ((f.propose && d.propose) = true ∧ ∃ command c₁ r count, command.length < UInt32.size ∧
        count.toNat ≤ c₁.nextCommand.toNat + 1 ∧
        (c.network f d).propose command = .ok (c₁, r) ∧ c' = { c₁ with nextCommand := count }) := by
  change (if f.propose && d.propose then _ else pure (c.network f d)) = _ at h
  split at h
  · next hpropose =>
    obtain ⟨⟨c₁, answer⟩, hp, h⟩ := Checked.bind_eq_ok.mp h
    have hshort := injected_short (c.network f d).nextCommand
    cases answer with
    | error e =>
      cases h
      exact .inr ⟨hpropose, _, c', _, c'.nextCommand, hshort, Nat.le_succ _, hp, rfl⟩
    | ok accepted =>
      obtain ⟨count, hadd, h⟩ := Checked.bind_eq_ok.mp h
      cases h
      obtain ⟨hlt, rfl⟩ := Checked.add_eq_ok.mp hadd
      have hcount : (UInt64.ofNat (c₁.nextCommand.toNat + 1)).toNat ≤ c₁.nextCommand.toNat + 1 :=
        (UInt64.toNat_ofNat_of_lt' hlt).le
      exact .inr ⟨hpropose, _, c₁, _, _, hshort, hcount, hp, rfl⟩
  · next hno =>
    cases h
    exact .inl ⟨Bool.eq_false_iff.mpr hno, rfl⟩

end Calls

/-! ## The mirrored system -/

/-- The size of the cluster and what its checker remembers. -/
structure Books where
  size : Nat
  leadersByTerm : Nat → Option Nat
  committed : List Entry
  maxCommitSeen : Nat → Nat
  maxTermSeen : Nat → Nat

def Cluster.books {χ : Type} (c : Cluster χ) : Books :=
  ⟨c.cfg.n, c.leadersByTerm, c.committed, c.maxCommitSeen, c.maxTermSeen⟩

/-- The node or the disk fits the widths of the encoding. -/
def Slot.Encodable : Slot → Prop
  | .up n _ => n.Encodable
  | .down d => d.current.Encodable

section Slots

variable {χ : Type} {c c' : Cluster χ} {i : Nat} {n : Node Disk}

theorem slot_setNode (c : Cluster χ) (i : Nat) (n : Node Disk) :
    (c.setNode i (some n)).slot = Function.update c.slot i (.up n []) := by
  funext j
  by_cases hj : j = i
  · subst hj
    simp [Cluster.slot, setNode]
  · simp [Cluster.slot, setNode, hj]

theorem slot_crash (hn : c.nodes i = some n) :
    (c.crash i).slot = Function.update c.slot i (.down n.storage) := by
  funext j
  by_cases hj : j = i
  · subst hj
    simp [Cluster.slot, crash, hn, setNode]
  · simp [Cluster.slot, crash, hn, setNode, hj]

theorem crash_books (c : Cluster χ) (i : Nat) : (c.crash i).books = c.books := by
  unfold crash
  split <;> rfl

/-- No node of the simulator is configured with a batch of its own. -/
theorem boot_ok (hb : c.boot i = .ok c') :
    ∃ cfg n, cfg.id = i ∧ cfg.clusterSize = c.cfg.n ∧ cfg.maxBatch = 32 ∧
      Node.new cfg (c.disks i) c.now = .ok n ∧ c' = c.setNode i (some n) := by
  obtain ⟨n, hnew, hb⟩ := Checked.bind_eq_ok.mp hb
  rw [Checked.pure_eq_ok] at hb
  exact ⟨_, n, rfl, rfl, rfl, hnew, hb.symm⟩

theorem encodable_update {slots : Nat → Slot} {slot : Slot} (h : ∀ j, (slots j).Encodable)
    (hslot : slot.Encodable) (j : Nat) : (Function.update slots i slot j).Encodable := by
  by_cases hj : j = i
  · subst hj
    rw [Function.update_self]
    exact hslot
  · rw [Function.update_of_ne hj]
    exact h j

end Slots

variable {χ : Type} [Channel χ] {carried : χ → List UInt8 → Prop}

/-- The system has the cluster's nodes, which fit the widths of the encoding, and what the codec
accepts of everything on a link was sent in it. -/
structure Mirrors (carried : χ → List UInt8 → Prop) (c : Cluster χ) (s : System) : Prop where
  slots : s.slots = c.slot
  sent : ∀ i j b m, carried (c.links i j) b → Channel.read χ b = some m → ⟨i, j, m⟩ ∈ s.sent
  fits : ∀ i, (s.slots i).Encodable

/-- The cluster moved from `c` to `c'` while the system it mirrors ran on from `s`. -/
def Moved (carried : χ → List UInt8 → Prop) (c : Cluster χ) (s : System) (c' : Cluster χ) : Prop :=
  ∃ s' acts, s.run c.cfg.n acts = some s' ∧ Mirrors carried c' s' ∧ c'.books = c.books ∧
    s.sent ⊆ s'.sent

namespace Moved

variable {c c' c'' : Cluster χ} {s : System}

theorem still (h : Mirrors carried c' s) (hb : c'.books = c.books) : Moved carried c s c' :=
  ⟨s, [], rfl, h, hb, List.Subset.refl _⟩

theorem bind (h : Moved carried c s c')
    (h' : ∀ s', Mirrors carried c' s' → s.sent ⊆ s'.sent → Moved carried c' s' c'') :
    Moved carried c s c'' := by
  obtain ⟨s', acts, hrun, hm, hb, hsub⟩ := h
  obtain ⟨s'', acts', hrun', hm', hb', hsub'⟩ := h' s' hm hsub
  have hsize : c'.cfg.n = c.cfg.n := congrArg Books.size hb
  rw [hsize] at hrun'
  exact ⟨s'', acts ++ acts', Run.exec_append_eq_some.mpr ⟨s', hrun, hrun'⟩, hm', hb'.trans hb,
    List.Subset.trans hsub hsub'⟩

end Moved

section Moves

variable {c c' : Cluster χ} {s s' : System} {i : Nat} {n n' : Node Disk} {out : List Outgoing}
  {f : Faults} {d : Draws}

theorem Mirrors.slot_up (h : Mirrors carried c s) (hn : c.nodes i = some n) :
    s.slots i = .up n [] := by
  rw [h.slots]
  simp [Cluster.slot, hn]

theorem Mirrors.encodable (h : Mirrors carried c s) (hn : c.nodes i = some n) : n.Encodable := by
  have hfits := h.fits i
  rwa [h.slot_up hn] at hfits

theorem crash_moved (h : Mirrors carried c s) (i : Nat) : Moved carried c s (c.crash i) := by
  cases hn : c.nodes i with
  | none =>
    have hsame : c.crash i = c := by simp [crash, hn]
    rw [hsame]
    exact .still h rfl
  | some n =>
    refine ⟨s.setSlot i (.down n.storage), [.crash i], ?_, ⟨?_, ?_, ?_⟩, crash_books c i,
      List.Subset.refl _⟩
    · simp [System.run, Run.exec_singleton, System.perform, h.slot_up hn]
    · rw [slot_crash hn, ← h.slots]
      rfl
    · intro p q b m hb
      apply h.sent p q b m
      simpa [crash, hn, setNode] using hb
    · have hdisk : (Slot.down n.storage).Encodable := (h.encodable hn).current
      exact encodable_update h.fits hdisk

theorem boot_moved (h : Mirrors carried c s) (hn : c.nodes i = none) (hb : c.boot i = .ok c') :
    Moved carried c s c' := by
  obtain ⟨cfg, n, hid, hsize, hbatch, hnew, rfl⟩ := boot_ok hb
  have hdown : s.slots i = .down (c.disks i) := by
    rw [h.slots]
    simp [Cluster.slot, hn]
  refine ⟨s.setSlot i (.up n []), [.restart i cfg c.now], ?_, ⟨?_, h.sent, ?_⟩, rfl,
    List.Subset.refl _⟩
  · simp [System.run, Run.exec_singleton, System.perform, hdown, hid, hsize, hnew]
  · rw [slot_setNode, ← h.slots]
    rfl
  · have hdisk := h.fits i
    rw [hdown] at hdisk
    have hup : (Slot.up n []).Encodable :=
      Node.new_encodable hdisk (by rw [hbatch]; decide) hnew
    exact encodable_update h.fits hup

/-- A completed call of a node is a run of one action, whatever becomes of its messages. -/
theorem call_runs (h : Mirrors carried c s) (hn : c.nodes i = some n) {call : Call}
    {answer : Option Nat} (hcall : n.call call = .ok (n', out, answer))
    (hd : s.Deliverable i call) :
    ∃ s', s.run c.cfg.n [.call i call .returns] = some s' ∧
      s'.slots = (c.setNode i (some n')).slot ∧
      s'.sent = s.sent ++ out.map fun o => ⟨i, o.recipient, o.message⟩ := by
  refine ⟨((s.observe i n n' call answer).send i out).setSlot i (.up n' []), ?_, ?_, rfl⟩
  · simp [System.run, Run.exec_singleton, System.perform, System.performCall, h.slot_up hn, hd,
      hcall]
  · rw [slot_setNode, ← h.slots]
    rfl

theorem call_fits (h : Mirrors carried c s) (hn' : n'.Encodable)
    (hslots : s'.slots = (c.setNode i (some n')).slot) (j : Nat) : (s'.slots j).Encodable := by
  have hslot : Slot.Encodable (.up n' []) := hn'
  rw [hslots, slot_setNode, ← h.slots]
  exact encodable_update h.fits hslot j

theorem route_books (c : Cluster χ) (i : Nat) (out : List Outgoing) :
    (c.route i out).books = c.books := by
  obtain ⟨links, hlinks⟩ := route_eq c i out
  rw [hlinks]
  rfl

theorem route_slot (c : Cluster χ) (i : Nat) (out : List Outgoing) :
    (c.route i out).slot = c.slot := by
  obtain ⟨links, hlinks⟩ := route_eq c i out
  rw [hlinks]
  rfl

theorem route_now (c : Cluster χ) (i : Nat) (out : List Outgoing) :
    (c.route i out).now = c.now := by
  obtain ⟨links, hlinks⟩ := route_eq c i out
  rw [hlinks]

/-- Routing puts only the given messages on the links of their sender. -/
theorem route_carried (hχ : Channel.Faithful χ carried) (c : Cluster χ) (i : Nat)
    (out : List Outgoing) {p q : Nat} {b : List UInt8}
    (hb : carried ((c.route i out).links p q) b) : carried (c.links p q) b ∨
      (p = i ∧ ∃ m, ⟨q, m⟩ ∈ out ∧ b = encodeMessage (Channel.frames χ) m) := by
  induction out generalizing c with
  | nil => exact .inl hb
  | cons o rest ih =>
    have hlater : (p = i ∧ ∃ m, ⟨q, m⟩ ∈ rest ∧ b = encodeMessage (Channel.frames χ) m) →
        p = i ∧ ∃ m, ⟨q, m⟩ ∈ o :: rest ∧ b = encodeMessage (Channel.frames χ) m :=
      fun ⟨hp, m, ho, he⟩ => ⟨hp, m, List.mem_cons_of_mem _ ho, he⟩
    unfold route at hb
    split at hb
    · exact (ih c hb).imp id hlater
    · rcases ih _ hb with hb | hrest
      · by_cases hp : p = i
        · subst hp
          by_cases hq : q = o.recipient
          · subst hq
            simp only [Function.update_self] at hb
            rcases hχ.send _ _ _ hb with rfl | hb
            · exact .inr ⟨rfl, o.message, List.mem_cons_self, rfl⟩
            · exact .inl hb
          · simp only [Function.update_self, Function.update_of_ne hq] at hb
            exact .inl hb
        · simp only [Function.update_of_ne hp] at hb
          exact .inl hb
      · exact .inr (hlater hrest)

/-- The messages of a call are sent in the system. -/
theorem Mirrors.routed (hχ : Channel.Faithful χ carried) (h : Mirrors carried c s)
    (hslots : s'.slots = (c.setNode i (some n')).slot)
    (hsent : s'.sent = s.sent ++ out.map fun o => ⟨i, o.recipient, o.message⟩)
    (hn' : n'.Encodable) (hout : ∀ o ∈ out, o.message.Encodable) :
    Mirrors carried ((c.setNode i (some n')).route i out) s' := by
  refine ⟨by rw [route_slot, hslots], fun p q b m hb hm => ?_, call_fits h hn' hslots⟩
  rw [hsent]
  rcases route_carried hχ _ i out hb with hb | ⟨rfl, m', ho, rfl⟩
  · exact List.mem_append_left _ (h.sent p q b m hb hm)
  · rw [read_encode hχ.frames (hout _ ho)] at hm
    cases hm
    exact List.mem_append_right _ (List.mem_map.mpr ⟨_, ho, rfl⟩)

theorem call_route_moved (hχ : Channel.Faithful χ carried) (h : Mirrors carried c s)
    (hn : c.nodes i = some n) {call : Call} {answer : Option Nat}
    (hcall : n.call call = .ok (n', out, answer)) (hd : s.Deliverable i call)
    (hc : call.Encodable) (hlen : n'.log.length < UInt64.size) :
    Moved carried c s ((c.setNode i (some n')).route i out) := by
  obtain ⟨s', hrun, hslots, hsent⟩ := call_runs h hn hcall hd
  obtain ⟨hn', hout⟩ := (h.encodable hn).call hc hcall hlen
  exact ⟨s', _, hrun, h.routed hχ hslots hsent hn' hout, (route_books _ i out).trans rfl,
    hsent ▸ List.subset_append_left _ _⟩

theorem call_crash_moved (h : Mirrors carried c s) (hn : c.nodes i = some n) {call : Call}
    {answer : Option Nat} (hcall : n.call call = .ok (n', out, answer))
    (hd : s.Deliverable i call) (hc : call.Encodable) (hlen : n'.log.length < UInt64.size) :
    Moved carried c s ((c.setNode i (some n')).crash i) := by
  obtain ⟨s', hrun, hslots, hsent⟩ := call_runs h hn hcall hd
  obtain ⟨hn', _⟩ := (h.encodable hn).call hc hcall hlen
  have hsub : s.sent ⊆ s'.sent := hsent ▸ List.subset_append_left _ _
  have hmid : Moved carried c s (c.setNode i (some n')) :=
    ⟨s', _, hrun, ⟨hslots, fun p q b m hb hm => hsub (h.sent p q b m hb hm),
      call_fits h hn' hslots⟩, rfl, hsub⟩
  exact hmid.bind fun _ hm _ => crash_moved hm i

theorem propose_moved (hχ : Channel.Faithful χ carried) (h : Mirrors carried c s)
    {command : List UInt8} (hsized : command.length < UInt32.size)
    {answer : Except ProposeError (Nat × Nat)} (hp : c.propose command = .ok (c', answer)) :
    Moved carried c s c' := by
  rcases propose_cases hp with rfl | ⟨l, n, n', out, answer, _, hn, hcall, hlen, rfl⟩
  · exact .still h rfl
  · exact call_route_moved hχ h hn hcall trivial hsized hlen

/-! ## One tick -/

theorem deliver_moved (hχ : Channel.Faithful χ carried) {k : Nat}
    {arrivals : List (Nat × Nat × List UInt8)} (h : Mirrors carried c s)
    (hsent : ∀ p q b m, (p, q, b) ∈ arrivals → Channel.read χ b = some m → ⟨p, q, m⟩ ∈ s.sent)
    (hd : deliver f d k arrivals c = .ok c') : Moved carried c s c' := by
  induction arrivals generalizing k c s with
  | nil =>
    cases hd
    exact .still h rfl
  | cons arrival rest ih =>
    obtain ⟨sender, recipient, datagram⟩ := arrival
    have hrest : ∀ p q b m, (p, q, b) ∈ rest → Channel.read χ b = some m → ⟨p, q, m⟩ ∈ s.sent :=
      fun p q b m hb => hsent p q b m (List.mem_cons_of_mem _ hb)
    rcases deliver_cons hd with ⟨_, hd⟩ | ⟨n, msg, n', out, hn, hread, hcall, hlen, hd⟩
    · exact ih h hrest hd
    have hdeliv : s.Deliverable recipient (.handle c.now sender msg) :=
      hsent sender recipient datagram msg List.mem_cons_self hread
    have hc : (Call.handle c.now sender msg).Encodable := encodable_of_read hread
    refine Moved.bind ?_ fun s' hm hsub =>
      ih hm (fun p q b m hb hm => hsub (hrest p q b m hb hm)) hd
    split
    · exact call_crash_moved h hn hcall hdeliv hc hlen
    · exact call_route_moved hχ h hn hcall hdeliv hc hlen

theorem timers_moved (hχ : Channel.Faithful χ carried) {ids : List Nat}
    (h : Mirrors carried c s) (ht : timers ids c = .ok c') : Moved carried c s c' := by
  induction ids generalizing c s with
  | nil =>
    cases ht
    exact .still h rfl
  | cons i is ih =>
    rcases timers_cons ht with ⟨_, ht⟩ | ⟨n, n', out, hn, hcall, hlen, ht⟩
    · exact ih h ht
    · exact (call_route_moved hχ h hn hcall trivial trivial hlen).bind fun _ hm _ => ih hm ht

theorem advanceLinks_mirrors (hχ : Channel.Faithful χ carried) (h : Mirrors carried c s) :
    Mirrors carried c.advanceLinks.1 s ∧ ∀ p q b m, (p, q, b) ∈ c.advanceLinks.2 →
      Channel.read χ b = some m → ⟨p, q, m⟩ ∈ s.sent := by
  refine ⟨⟨h.slots, fun p q b m hb => ?_, h.fits⟩, fun p q b m hb hm => ?_⟩
  · simp only [advanceLinks] at hb
    split at hb
    · exact h.sent p q b m (hχ.advance _ _ _ hb)
    · exact h.sent p q b m hb
  · simp only [advanceLinks, List.mem_flatMap] at hb
    obtain ⟨p', _, q', _, hb⟩ := hb
    split at hb
    · obtain ⟨datagram, hd, he⟩ := List.mem_map.mp hb
      cases he
      rcases hχ.arrives _ _ _ hd with hcarried | hdamaged
      · exact h.sent p q b m hcarried hm
      · rw [read_damaged hdamaged] at hm
        cases hm
    · cases hb

/-- Every datagram that is handled was sent to its recipient by its sender. -/
theorem exchange_moved (hχ : Channel.Faithful χ carried) (h : Mirrors carried c s)
    (hr : c.exchange f d = .ok c') : Moved carried c s c' := by
  obtain ⟨c₁, hdeliver, ht⟩ := Checked.bind_eq_ok.mp hr
  obtain ⟨hlinks, harrive⟩ := advanceLinks_mirrors hχ h
  have hdelivered : Moved carried c s c₁ :=
    (Moved.still hlinks rfl).bind fun s' hm hsub =>
      deliver_moved hχ hm (fun p q b m hb hm => hsub (harrive p q b m hb hm)) hdeliver
  exact hdelivered.bind fun s' hm _ => timers_moved hχ hm ht

theorem injectRest_moved (hχ : Channel.Faithful χ carried) (h : Mirrors carried c s)
    (hr : c.injectRest f d = .ok c') : Moved carried c s c' := by
  have hnetwork : Moved carried c s (c.network f d) := by
    unfold network
    dsimp only
    split <;> split <;> exact .still ⟨h.slots, h.sent, h.fits⟩ rfl
  rcases injectRest_cases hr with ⟨_, rfl⟩ | ⟨_, command, c₁, r, count, hsized, _, hp, rfl⟩
  · exact hnetwork
  · refine hnetwork.bind fun s' hm _ => (propose_moved hχ hm hsized hp).bind fun s'' hm' _ => ?_
    exact .still ⟨hm'.slots, hm'.sent, hm'.fits⟩ rfl

/-! ## Start -/

theorem bootAll_moved {ids : List Nat} (h : Mirrors carried c s) (hnodup : ids.Nodup)
    (hdown : ∀ i ∈ ids, c.nodes i = none) (hb : bootAll ids c = .ok c') :
    Moved carried c s c' := by
  induction ids generalizing c s with
  | nil =>
    cases hb
    exact .still h rfl
  | cons i is ih =>
    obtain ⟨c₁, hboot, hb⟩ := Checked.bind_eq_ok.mp hb
    obtain ⟨hi, hnodup⟩ := List.nodup_cons.mp hnodup
    obtain ⟨_, n, _, _, _, _, rfl⟩ := boot_ok hboot
    refine (boot_moved h (hdown i List.mem_cons_self) hboot).bind fun s' hm _ => ih hm hnodup ?_ hb
    intro j hj
    have hji : j ≠ i := fun he => hi (he ▸ hj)
    simpa [setNode, hji] using hdown j (List.mem_cons_of_mem _ hj)

end Moves

end Landsraad
