import Landsraad.Raft.Directories
import Landsraad.Raft.Levelling
import Landsraad.Raft.Widths

/-!
# Clusters over datagrams

A message leaves its node as the bytes of a frame and arrives as bytes: those of any frame that
was sent between the two nodes, at any later time and any number of times, or damaged ones, which
the frames detect. What the codec rejects is dropped. Nothing gets lost in the bytes: whatever a
node sends fits the widths of the encoding.
-/

namespace Landsraad

open Checked OrderedStore ReplicatedLog

structure Datagram where
  sender : Nat
  recipient : Nat
  bytes : List UInt8
deriving DecidableEq

/-- Nodes over directories, and every datagram that was sent. -/
structure WireSystem (κ : Type) where
  slots : Nat → DurableSlot κ
  wire : List Datagram

/-- A datagram arrives, or a node acts on its own. -/
inductive WireAction
  | own (act : Action)
  | arrive (now : Nat) (d : Datagram) (fate : Fate)

section

variable {δ : Type} (codec : FrameCodec δ)

def Envelope.datagram (e : Envelope) : Datagram :=
  ⟨e.sender, e.recipient, encodeMessage codec e.message⟩

/-- The action that hands over what the codec makes of a datagram, if it accepts it. -/
def WireAction.decoded : WireAction → Option Action
  | .own act => some act
  | .arrive now d fate =>
    match decodeMessage codec d.bytes with
    | .ok (.ok msg) => some (.call d.recipient (.handle now d.sender msg) fate)
    | _ => none

namespace WireSystem

variable {κ : Type} [ByteStore κ]

/-- Every node down, with a directory each. -/
def initial (dirs : Nat → κ) : WireSystem κ := ⟨fun i => .down (dirs i), []⟩

/-- A node acts with the given messages at hand, and what it sends is encoded. -/
def act (size : Nat) (w : WireSystem κ) (inbox : List Envelope) (act : Action) :
    Option (WireSystem κ) :=
  (DurableSystem.perform size ⟨w.slots, inbox⟩ act).map fun r =>
    ⟨r.slots, w.wire ++ (r.sent.drop inbox.length).map (Envelope.datagram codec)⟩

def perform (size : Nat) (w : WireSystem κ) : WireAction → Option (WireSystem κ)
  | .own act => w.act codec size [] act
  | .arrive now d fate =>
    if d ∈ w.wire ∨ Damaged codec d.bytes then
      match decodeMessage codec d.bytes with
      | .error _ => none
      | .ok (.error _) => some w
      | .ok (.ok msg) =>
        w.act codec size [⟨d.sender, d.recipient, msg⟩]
          (.call d.recipient (.handle now d.sender msg) fate)
    else none

def run (size : Nat) (w : WireSystem κ) (acts : List WireAction) : Option (WireSystem κ) :=
  Run.exec (perform codec size) w acts

end WireSystem

end

/-- The command of a proposal and the batches of a node are short enough for a length of 32
bits. -/
def Action.Sized : Action → Prop
  | .call _ (.propose _ command) _ => command.length < UInt32.size
  | .restart _ cfg _ => cfg.maxBatch < UInt32.size
  | _ => True

/-! ## Everything that is sent fits -/

/-- All entries, nodes and messages fit the widths of the encoding. -/
structure System.Fits (s : System) : Prop where
  disks : ∀ i, ∀ p ∈ (s.slots i).disk.states, Admits Entry.Fits p.log
  sent : ∀ e ∈ s.sent, e.message.Encodable
  nodes : ∀ i n, s.node i = some n → n.Encodable

theorem Persistent.Typed.encodable {p : Persistent} (typed : p.Typed)
    (h : Admits Entry.Fits p.log) : p.Encodable := ⟨typed.term, typed.length, admits_fits.mp h⟩

section

variable {size i : Nat} {s s' : System}

namespace System.Fits

theorem update (h : s.Fits) {slot : Slot} (hslots : s'.slots = Function.update s.slots i slot)
    (hdisk : ∀ p ∈ slot.disk.states, Admits Entry.Fits p.log)
    (hsent : ∀ e ∈ s'.sent, e ∈ s.sent ∨ e.message.Encodable)
    (hnode : ∀ n delivered, slot = .up n delivered → n.Encodable) : s'.Fits where
  disks j p hp := by
    rw [hslots] at hp
    by_cases hj : j = i
    · subst hj
      rw [Function.update_self] at hp
      exact hdisk p hp
    · rw [Function.update_of_ne hj] at hp
      exact h.disks j p hp
  sent e he := (hsent e he).elim (h.sent e) id
  nodes j n hn := by
    rcases System.node_of_update hslots hn with ⟨rfl, delivered, hup⟩ | ⟨_, hold⟩
    · exact hnode n delivered hup
    · exact h.nodes j n hold

theorem performCall (h : s.Fits) {c : Call} {fate : Fate}
    (hp : s.performCall i c fate = some s') (hact : (Action.call i c fate).Sized)
    (typed : ∀ i, (s'.slots i).disk.current.Typed) : s'.Fits := by
  obtain ⟨n, delivered, m, n', out, answer, hslot, hdeliv, hm, hcall, hfate⟩ :=
    System.performCall_ok hp
  have hlive := h.nodes i n (System.node_of_up hslot)
  have hn : m.Encodable := by
    rcases hm with rfl | rfl
    · exact hlive
    · exact { hlive with
        batch := (by decide : 0 < UInt32.size)
        ranged := { hlive.ranged with } }
  have hdisks : ∀ p ∈ m.storage.states, Admits Entry.Fits p.log := by
    have hall := h.disks i
    rw [hslot] at hall
    rcases hm with rfl | rfl <;> exact hall
  have hc : c.Encodable := by
    cases c with
    | tick now => trivial
    | propose now command => exact hact
    | handle now sender msg => exact h.sent _ hdeliv
  have hwritten : ∀ p ∈ n'.storage.states, Admits Entry.Fits p.log :=
    fun p hp => ((hn.flowed hc hcall).states p hp).elim (hdisks p) id
  rcases hfate with ⟨_, rfl, rfl⟩ | ⟨_, _, rfl⟩ | ⟨lost, _, _, rfl⟩
  · have hdisk := typed i
    have hslot' : (((s.observe i m n' c answer).send i out).setSlot i (.up n' delivered)).slots i =
        .up n' delivered := Function.update_self ..
    rw [hslot'] at hdisk
    have hpersisted : n'.Persisted := (Node.call_accounted hn.persisted hcall).persisted
    have hlength := hdisk.length
    rw [show Slot.disk (.up n' delivered) = n'.storage from rfl, hpersisted] at hlength
    obtain ⟨hn', hout⟩ := hn.call hc hcall hlength
    refine h.update rfl hwritten (fun e he => ?_) fun _ _ hup => ?_
    · rcases List.mem_append.mp he with hold | hnewer
      · exact .inl hold
      · obtain ⟨o, ho, rfl⟩ := List.mem_map.mp hnewer
        exact .inr (hout o ho)
    · cases hup
      exact hn'
  · exact h.update rfl hwritten (fun e he => .inl he) fun _ _ hup => nomatch hup
  · refine h.update rfl (fun p hp => ?_) (fun e he => .inl he) fun _ _ hup => nomatch hup
    exact hwritten p (Journal.states_rewind_subset _ _ hp)

theorem perform (h : s.Fits) {act : Action} (hp : s.perform size act = some s')
    (hact : act.Sized) (typed : ∀ i, (s'.slots i).disk.current.Typed) : s'.Fits := by
  cases act with
  | call i c fate => exact h.performCall hp hact typed
  | takeCommitted i =>
    obtain ⟨n, delivered, n', batch, hslot, htake, rfl⟩ := System.perform_takeCommitted_ok hp
    obtain ⟨rfl, _⟩ := Node.takeCommitted_ok htake
    have hdisks := h.disks i
    rw [hslot] at hdisks
    refine h.update rfl hdisks (fun e he => .inl he) fun _ _ hup => ?_
    cases hup
    have hn := h.nodes i n (System.node_of_up hslot)
    have hranged := hn.ranged
    exact ⟨hn.persisted, hn.current, hn.commit, hn.batch,
      ⟨hranged.next_length, hranged.match_length, hranged.leader⟩⟩
  | crash i =>
    obtain ⟨n, delivered, hslot, rfl⟩ := System.perform_crash_ok hp
    have hdisks := h.disks i
    rw [hslot] at hdisks
    exact h.update rfl hdisks (fun e he => .inl he) fun _ _ hup => nomatch hup
  | restart i cfg now =>
    obtain ⟨d, n, hslot, _, _, hnew, rfl⟩ := System.perform_restart_ok hp
    have hdisks := h.disks i
    rw [hslot] at hdisks
    have hstorage : n.storage = d := by
      obtain ⟨_, deadline, rng, rfl⟩ := Node.new_ok hnew
      rfl
    have hdisk := typed i
    have hslot' : (s.setSlot i (.up n [])).slots i = .up n [] := Function.update_self ..
    rw [hslot', show Slot.disk (.up n []) = n.storage from rfl, hstorage] at hdisk
    have hkept : ∀ p ∈ n.storage.states, Admits Entry.Fits p.log := by
      rw [hstorage]
      exact hdisks
    refine h.update rfl hkept (fun e he => .inl he) fun _ _ hup => ?_
    cases hup
    exact Node.new_encodable (hdisk.encodable (hdisks d.current (List.mem_cons_self ..))) hact hnew

theorem initial : System.initial.Fits where
  disks i p hp := by
    rw [List.mem_singleton.mp hp]
    exact fun k e he => nomatch he
  sent _ he := nomatch he
  nodes _ _ hn := nomatch hn

end System.Fits

end

/-! ## From datagrams to messages -/

section

variable {δ κ : Type} {codec : FrameCodec δ} [ByteStore κ] {size : Nat} {a : History}
  {w w' : WireSystem κ} {r r' : DurableSystem κ} {s : System}

/-- With more messages at hand an action does the same, and adds the same to them. -/
theorem DurableSystem.perform_inbox {slots : Nat → DurableSlot κ} {inbox sent : List Envelope}
    (hsub : inbox ⊆ sent) {act : Action}
    (h : DurableSystem.perform size ⟨slots, inbox⟩ act = some r') :
    DurableSystem.perform size ⟨slots, sent⟩ act =
      some ⟨r'.slots, sent ++ r'.sent.drop inbox.length⟩ := by
  cases act with
  | call i c fate =>
    simp only [perform, performCall] at h ⊢
    split at h
    · cases h
    next n delivered hslot =>
    split at h
    swap
    · cases h
    next hdeliv =>
    have hdeliv' : Deliverable (κ := κ) ⟨slots, sent⟩ i c := by
      cases c with
      | handle now sender msg => exact hsub hdeliv
      | _ => trivial
    split at h
    · cases h
    next n' out answer hcall =>
    simp only [if_pos hdeliv']
    cases fate with
    | returns =>
      cases h
      simp [setSlot, send]
    | crashesAfter =>
      cases h
      simp [setSlot]
    | crashesWithin lost =>
      dsimp only at h ⊢
      split at h <;> cases h
      next hlost =>
      simp [hlost, setSlot]
  | takeCommitted i =>
    simp only [perform] at h ⊢
    split at h
    · cases h
    next n delivered hslot =>
    split at h
    · cases h
    next n' batch htake =>
    cases h
    simp [setSlot]
  | crash i =>
    simp only [perform] at h ⊢
    split at h
    · cases h
    next n delivered hslot =>
    cases h
    simp [setSlot]
  | restart i cfg now =>
    simp only [perform] at h ⊢
    split at h
    · cases h
    next dir hslot =>
    split at h
    swap
    · cases h
    next hcfg =>
    split at h
    · cases h
    next n hboot =>
    cases h
    simp [hcfg, setSlot]

/-- The datagrams are those of the messages. -/
structure WireSystem.Carries (codec : FrameCodec δ) (w : WireSystem κ) (r : DurableSystem κ) :
    Prop where
  slots : w.slots = r.slots
  wire : w.wire = r.sent.map (Envelope.datagram codec)

namespace WireSystem.Carries

theorem act (h : w.Carries codec r) {inbox : List Envelope} (hsub : inbox ⊆ r.sent)
    {act : Action} (hw : w.act codec size inbox act = some w') :
    ∃ r', r.perform size act = some r' ∧ w'.Carries codec r' := by
  obtain ⟨r₁, hr₁, rfl⟩ := Option.map_eq_some_iff.mp hw
  rw [h.slots] at hr₁
  refine ⟨_, DurableSystem.perform_inbox hsub hr₁, rfl, ?_⟩
  rw [List.map_append, h.wire]

/-- An action does what the action that it decodes to does, or nothing if there is none. -/
theorem perform (h : w.Carries codec r) (hframe : codec.Faithful)
    (hsent : ∀ e ∈ r.sent, e.message.Encodable) {act : WireAction}
    (hw : w.perform codec size act = some w') :
    (act.decoded codec = none ∧ w' = w) ∨ ∃ act' r', act.decoded codec = some act' ∧
      r.perform size act' = some r' ∧ w'.Carries codec r' := by
  cases act with
  | own act =>
    obtain ⟨r', hr, hcarries⟩ := h.act (List.nil_subset _) hw
    exact .inr ⟨act, r', rfl, hr, hcarries⟩
  | arrive now d fate =>
    simp only [WireSystem.perform] at hw
    simp only [WireAction.decoded]
    split at hw
    swap
    · cases hw
    next harrives =>
    split at hw
    · cases hw
    · next e hd =>
      cases hw
      rw [hd]
      exact .inl ⟨rfl, rfl⟩
    · next msg hd =>
      rw [hd]
      have hmem : ⟨d.sender, d.recipient, msg⟩ ∈ r.sent := by
        rcases harrives with hwire | hdamaged
        · rw [h.wire] at hwire
          obtain ⟨e, he, rfl⟩ := List.mem_map.mp hwire
          have hback := decode_encode hframe (hsent e he)
          have hmsg : e.message = msg := by
            simp only [Envelope.datagram, hback] at hd
            cases hd
            rfl
          subst hmsg
          exact he
        · obtain ⟨e, he⟩ := decode_damaged hdamaged
          rw [he] at hd
          cases hd
      obtain ⟨r', hr, hcarries⟩ := h.act (List.cons_subset.mpr ⟨hmem, List.nil_subset _⟩) hw
      exact .inr ⟨_, r', rfl, hr, hcarries⟩

theorem run (h : w.Carries codec r) (hframe : codec.Faithful)
    (lawful : Lawful κ) (hsize : size < wordSize) (hsim : SystemSim size a s) (hshows : r.Shows s)
    (hfits : s.Fits) {acts : List WireAction} (hsized : ∀ act, .own act ∈ acts → act.Sized)
    (hw : w.run codec size acts = some w') :
    ∃ r' s', r.run size (acts.filterMap (WireAction.decoded codec)) = some r' ∧
      s.run size (acts.filterMap (WireAction.decoded codec)) = some s' ∧
      w'.Carries codec r' ∧ r'.Shows s' ∧ s'.Fits := by
  induction acts generalizing w r s a with
  | nil =>
    cases hw
    exact ⟨r, s, rfl, rfl, h, hshows, hfits⟩
  | cons act acts ih =>
    obtain ⟨w₁, hact, hlater⟩ := Run.exec_cons_eq_some.mp hw
    have hsized' : ∀ act, .own act ∈ acts → act.Sized :=
      fun act hmem => hsized act (List.mem_cons_of_mem _ hmem)
    have hsent : ∀ e ∈ r.sent, e.message.Encodable := by
      rw [hshows.sent]
      exact hfits.sent
    rcases h.perform hframe hsent hact with ⟨hnone, rfl⟩ | ⟨act', r₁, hdecoded, hr₁, h₁⟩
    · rw [List.filterMap_cons_none hnone]
      exact ih h hsim hshows hfits hsized' hlater
    · obtain ⟨s₁, hs₁, hshows₁⟩ := hshows.perform lawful hsize hsim hr₁
      obtain ⟨a₁, hperf⟩ := perform_simulates hsim hs₁
      have hact' : act'.Sized := by
        cases act with
        | own act =>
          cases hdecoded
          exact hsized act' (List.mem_cons_self ..)
        | arrive now d fate =>
          simp only [WireAction.decoded] at hdecoded
          split at hdecoded <;> cases hdecoded
          trivial
      have hfits₁ := hfits.perform hs₁ hact' fun i => (hshows₁.slots i).represents.2
      obtain ⟨r', s', hr', hs', hrest⟩ := ih h₁ hperf.sim hshows₁ hfits₁ hsized' hlater
      rw [List.filterMap_cons_some hdecoded]
      exact ⟨r', s', Run.exec_cons_eq_some.mpr ⟨r₁, hr₁, hr'⟩,
        Run.exec_cons_eq_some.mpr ⟨s₁, hs₁, hs'⟩, hrest⟩

end WireSystem.Carries

/-- A cluster whose messages travel as datagrams and whose state is in directories does what the
cluster in memory does that is handed the messages themselves, whatever is lost, repeated, delayed
or damaged on the way and wherever nodes crash: the arrivals that the codec rejects change nothing,
and all others hand over, field by field, a message that was sent between those nodes. No datagram
that was sent is rejected. -/
theorem wire_run_refines (hframe : codec.Faithful)
    (lawful : Lawful κ) (hsize : size < wordSize) {dirs : Nat → κ}
    (hempty : ∀ i k, Store.get (dirs i) k = none) {acts : List WireAction}
    (hsized : ∀ act, .own act ∈ acts → act.Sized)
    (h : (WireSystem.initial dirs).run codec size acts = some w) :
    ∃ r s, (DurableSystem.initial dirs).run size (acts.filterMap (WireAction.decoded codec)) =
        some r ∧
      System.initial.run size (acts.filterMap (WireAction.decoded codec)) = some s ∧
      w.slots = r.slots ∧ r.Shows s ∧ w.wire = s.sent.map (Envelope.datagram codec) ∧
      ∀ e ∈ s.sent, decodeMessage codec (e.datagram codec).bytes = .ok (.ok e.message) := by
  have hstart : (WireSystem.initial dirs).Carries codec (DurableSystem.initial dirs) := ⟨rfl, rfl⟩
  obtain ⟨r, s, hr, hs, hcarries, hshows, hfits⟩ := hstart.run hframe lawful hsize
    (.initial size) (.initial hempty) .initial hsized h
  refine ⟨r, s, hr, hs, hcarries.slots, hshows, ?_, fun e he => ?_⟩
  · rw [hcarries.wire, hshows.sent]
  · exact decode_encode hframe (hfits.sent e he)

end

namespace WireSystem

/-- Node 0 wins term 1 with the vote of node 1, to which a damaged datagram came first. -/
def opening : List WireAction :=
  [.own (.restart 0 (System.eager 0) 0), .own (.restart 1 (System.eager 1) 0),
    .own (.restart 2 (System.eager 2) 0), .own (.call 0 (.tick 1) .returns),
    .arrive 1 ⟨0, 1, []⟩ .returns,
    .arrive 1 (Envelope.datagram plainFrames ⟨0, 1, .requestVote 1 0 0⟩) .returns,
    .arrive 1 (Envelope.datagram plainFrames ⟨1, 0, .voteResponse 1 true⟩) .returns]

def opened : WireSystem (WriteLog UInt8 (List UInt8)) :=
  ((initial fun _ => ⟨[]⟩).run plainFrames 3 opening).get (by decide +kernel)

end WireSystem

/-- The two datagrams that were accepted are the messages of the run in memory. -/
theorem wire_run_refines_opened : ∃ (r : DurableSystem (WriteLog UInt8 (List UInt8))) (s : System),
    System.initial.run 3 System.opening = some s ∧ WireSystem.opened.slots = r.slots ∧
      r.Shows s ∧ WireSystem.opened.wire = s.sent.map (Envelope.datagram plainFrames) := by
  have hsized : ∀ act, .own act ∈ WireSystem.opening → act.Sized := by
    intro act hact
    simp [WireSystem.opening] at hact
    rcases hact with rfl | rfl | rfl | rfl <;> simp [Action.Sized, System.eager, UInt32.size]
  have hdecoded : WireSystem.opening.filterMap (WireAction.decoded plainFrames) =
      System.opening := rfl
  have hrun : (WireSystem.initial fun _ => ⟨[]⟩).run plainFrames 3 WireSystem.opening =
      some WireSystem.opened := (Option.some_get _).symm
  obtain ⟨r, s, _, hs, hslots, hshows, hwire, _⟩ := wire_run_refines plainFrames_faithful
    WriteLog.lawful (by decide) (fun _ _ => rfl) hsized hrun
  rw [hdecoded] at hs
  exact ⟨r, s, hs, hslots, hshows, hwire⟩

end Landsraad
