import Landsraad.Raft.Safety
import Landsraad.Raft.StorageRefinement

/-!
# Clusters on real disks

Every node keeps its state in a directory of its own through `SietchStorage`. A crash drops the
node and its open store, also between two writes of a call, and a restart opens the directory
again. Such a cluster runs as one whose storages are in memory.
-/

namespace Landsraad

open Checked OrderedStore ReplicatedLog ReplicatedLog.Ledger

/-! ## Journals of related storages -/

section

variable {σ τ : Type} {R : σ → τ → Prop} {older : List τ} {j : Journal σ} {d : Journal τ}

/-- The states of the first journal are related to those of the second, which reaches further
back by the states `older`. -/
def Journal.Related (R : σ → τ → Prop) (older : List τ) (j : Journal σ) (d : Journal τ) : Prop :=
  ∃ states, d.states = states ++ older ∧ List.Forall₂ R j.states states

theorem Journal.Related.current (h : Related R older j d) : R j.current d.current := by
  obtain ⟨t, ts⟩ := d
  obtain ⟨_, hd, hrel⟩ := h
  cases hrel with
  | cons hfirst _ =>
    cases hd
    exact hfirst

theorem Journal.Related.write (h : Related R older j d) {s : σ} {t : τ} (hst : R s t) :
    Related R older (j.write s) (d.write t) := by
  obtain ⟨states, hd, hrel⟩ := h
  exact ⟨t :: states, congrArg (t :: ·) hd, .cons hst hrel⟩

theorem Journal.Related.start {s : σ} (h : R s d.current) : Related R d.earlier ⟨s, []⟩ d :=
  ⟨[d.current], rfl, .cons h .nil⟩

theorem Journal.Related.length (h : Related R older j d) :
    d.earlier.length = j.earlier.length + older.length := by
  obtain ⟨_, hd, hrel⟩ := h
  have hlen := congrArg List.length hd
  rw [List.length_append, ← hrel.length_eq, Journal.states, Journal.states, List.length_cons,
    List.length_cons] at hlen
  omega

theorem Journal.Related.rewind (h : Related R older j d) {lost : Nat}
    (hlost : lost ≤ j.earlier.length) : Related R older (j.rewind lost) (d.rewind lost) := by
  induction lost generalizing j d with
  | zero => exact h
  | succ lost ih =>
    obtain ⟨s, ss⟩ := j
    obtain ⟨t, ts⟩ := d
    cases ss with
    | nil => simp at hlost
    | cons s' ss =>
      obtain ⟨states, hd, hrel⟩ := h
      cases hrel with
      | cons _ hrest =>
        cases hrest with
        | cons hfirst hrest =>
          cases hd
          exact ih ⟨_, rfl, .cons hfirst hrest⟩ (by simpa using hlost)

variable [Storage σ] [Storage τ] {P : Panic → Prop}

/-- Storages that simulate one another do so with the states they had before. -/
theorem StorageSim.journal {R' : Nat → σ → τ → Prop} (sim : StorageSim P R')
    (hR : ∀ k s t, R' k s t → R s t) (older : List τ) :
    StorageSim P fun k j d => Journal.Related R older j d ∧ R' k j.current d.current where
  load k j d h := by
    obtain ⟨h, hcurrent⟩ := h
    apply (sim.load k j.current d.current hcurrent).bind
    rintro ⟨p, s⟩ ⟨q, t⟩ - ⟨rfl, hst⟩
    apply Coupled.pure
    refine ⟨rfl, ?_, hst⟩
    obtain ⟨t₀, ts⟩ := d
    obtain ⟨_, hd, hrel⟩ := h
    cases hrel with
    | cons _ hrest =>
      cases hd
      exact ⟨t :: _, rfl, .cons (hR k s t hst) hrest⟩
  mutate k j d m h hm := by
    obtain ⟨h, hcurrent⟩ := h
    have hrun := sim.mutate k j.current d.current m hcurrent hm
    cases m with
    | saveHardState term votedFor =>
      exact hrun.map fun s t hst => ⟨h.write (hR k s t hst), hst⟩
    | append entries => exact hrun.map fun s t hst => ⟨h.write (hR k s t hst), hst⟩
    | truncateFrom index => exact hrun.map fun s t hst => ⟨h.write (hR k s t hst), hst⟩
  fewer l k j d h := ⟨h.1, sim.fewer l k _ _ h.2⟩

end

namespace SietchStorage

variable {κ : Type} [ByteStore κ] {s : SietchStorage κ} {p : Persistent}

variable (κ) in
/-- The panics that a node over a directory raises besides those in memory, in a call that may
take its log to `length` entries: an operation of the store failed, or so many entries are too
many for their indices. -/
def MayStop (length : Nat) (e : Panic) : Prop :=
  MayPanic κ e ∨ e = .overflow ∧ wordSize ≤ length

/-- The storage holds the state, whose values fit their types. -/
def Holds (s : SietchStorage κ) (p : Persistent) : Prop := Mirrors s p ∧ p.Typed

theorem putEntries_ensures {last i : Nat} {entries : List Entry} :
    Ensures (· = .overflow) (fun _ => entries = [] ∨ last + i + entries.length < wordSize)
      (putEntries last i entries) := by
  induction entries generalizing i with
  | nil => exact Ensures.pure (.inl rfl)
  | cons e entries ih =>
    unfold putEntries
    have hlast : Ensures (· = .overflow) (fun c => c = last + 1) (add last 1) :=
      .add (fun _ => rfl) fun _ => rfl
    apply hlast.bind
    rintro _ rfl
    have hindex : Ensures (· = .overflow) (fun _ => last + 1 + i < wordSize) (add (last + 1) i) :=
      .add (fun _ => rfl) id
    apply hindex.bind
    intro index hlt
    apply (ih (i := i + 1)).bind
    rintro ops hrest
    apply Ensures.pure
    right
    rw [List.length_cons]
    rcases hrest with rfl | hrest
    · rw [List.length_nil]
      omega
    · omega

variable (lawful : Lawful κ)

include lawful

/-- A mutation that the log in memory has room for. -/
theorem mutation_coupled {length k : Nat} (h : Holds s p) {m : Mutation} (hm : m.Typed)
    {p' : Persistent} (hrun : m.run p = .ok p') (hlength : p'.log.length + k ≤ length)
    (hroom : p'.log.length < wordSize) :
    Coupled (MayStop κ length) (fun s p => Holds s p ∧ p.log.length + k ≤ length)
      (m.run s) (m.run p) := by
  rw [hrun]
  refine .of_ensures ?_ fun _ => .inl
  apply (mutation_ensures lawful h.1 h.2 hrun hroom).imp
  exact fun s' hs' => ⟨⟨hs', typed_of_mutation h.2 hm hrun hroom⟩, hlength⟩

omit lawful in
theorem append_full (h : Holds s p) {entries : List Entry}
    (hfull : wordSize ≤ p.log.length + entries.length) :
    Storage.append s entries = .error .overflow := by
  have hputs : Ensures (· = .overflow)
      (fun _ => entries = [] ∨ s.lastIndex + 0 + entries.length < wordSize)
      (putEntries s.lastIndex 0 entries) := putEntries_ensures
  show (do
    let ops ← putEntries s.lastIndex 0 entries
    if ops.isEmpty then pure s
    else do
      let store ← expect (Store.applyBatch s.store ops) "fail-stop: cannot persist raft log"
      let lastIndex ← add s.lastIndex entries.length
      pure ⟨store, lastIndex⟩) = _
  cases hops : putEntries s.lastIndex 0 entries with
  | error e =>
    rw [hops] at hputs
    cases hputs
    rfl
  | ok ops =>
    rw [hops] at hputs
    have hlength := h.2.length
    have hlast := h.1.lastIndex
    rcases hputs with rfl | hlt
    · rw [List.length_nil] at hfull
      omega
    · omega

/-- The storage in a directory does what the one in memory does, as long as the log and the
entries still to come are at most `length`. -/
theorem sim (length : Nat) : StorageSim (MayStop κ length)
    fun k (s : SietchStorage κ) p => Holds s p ∧ p.log.length + k ≤ length where
  load k s p h := by
    rw [load_eq lawful h.1.1 h.1.2]
    exact .ok ⟨rfl, h⟩
  mutate k s p m h hm := by
    obtain ⟨h, hlength⟩ := h
    cases m with
    | saveHardState term votedFor => exact mutation_coupled lawful h hm rfl hlength h.2.length
    | truncateFrom index =>
      have hshorter : (p.log.take (index - 1)).length ≤ p.log.length := by simp
      exact mutation_coupled lawful h hm rfl ((Nat.add_le_add_right hshorter k).trans hlength)
        (hshorter.trans_lt h.2.length)
    | append entries =>
      have hlength : p.log.length + entries.length + k ≤ length := by
        simp only [Mutation.growth] at hlength
        omega
      by_cases hroom : p.log.length + entries.length < wordSize
      · apply mutation_coupled lawful h hm rfl <;> rw [List.length_append]
        exacts [hlength, hroom]
      · have hpanic := append_full h (Nat.le_of_not_lt hroom)
        show Coupled _ _ (Storage.append s entries) _
        rw [hpanic]
        exact .raises (.inr ⟨rfl, by omega⟩)
  fewer j k s p h := ⟨h.1, by omega⟩

end SietchStorage

/-! ## Clusters over directories -/

/-- A node with its store open, and the batches it has delivered, or the directory of a crashed
one. -/
inductive DurableSlot (κ : Type)
  | up (node : Node (Journal (SietchStorage κ))) (delivered : List (Nat × Entry))
  | down (dir : κ)

def DurableSlot.dir {κ : Type} : DurableSlot κ → κ
  | .up n _ => n.storage.current.store
  | .down dir => dir

structure DurableSystem (κ : Type) where
  slots : Nat → DurableSlot κ
  sent : List Envelope

namespace DurableSystem

variable {κ : Type}

/-- Every node down, with a directory each. -/
def initial (dirs : Nat → κ) : DurableSystem κ := ⟨fun i => .down (dirs i), []⟩

def Deliverable (r : DurableSystem κ) (i : Nat) : Call → Prop
  | .handle _ sender message => ⟨sender, i, message⟩ ∈ r.sent
  | _ => True

instance (r : DurableSystem κ) (i : Nat) : ∀ c, Decidable (r.Deliverable i c)
  | .handle _ sender message => inferInstanceAs (Decidable (⟨sender, i, message⟩ ∈ r.sent))
  | .tick _ => .isTrue trivial
  | .propose _ _ => .isTrue trivial

def setSlot (r : DurableSystem κ) (i : Nat) (slot : DurableSlot κ) : DurableSystem κ :=
  { r with slots := Function.update r.slots i slot }

def send (r : DurableSystem κ) (i : Nat) (out : List Outgoing) : DurableSystem κ :=
  { r with sent := r.sent ++ out.map fun o => ⟨i, o.recipient, o.message⟩ }

variable [ByteStore κ]

def performCall (r : DurableSystem κ) (i : Nat) (c : Call) (fate : Fate) :
    Option (DurableSystem κ) :=
  match r.slots i with
  | .down _ => none
  | .up n delivered =>
    if r.Deliverable i c then
      match n.call c with
      | .error _ => none
      | .ok (n', out, _) =>
        match fate with
        | .returns => some ((r.send i out).setSlot i (.up n' delivered))
        | .crashesAfter => some (r.setSlot i (.down n'.storage.current.store))
        | .crashesWithin lost =>
          if lost ≤ n'.storage.earlier.length - n.storage.earlier.length then
            some (r.setSlot i (.down (n'.storage.rewind lost).current.store))
          else none
    else none

/-- The node started on the storage in a directory. -/
def boot (cfg : Config) (dir : κ) (now : Nat) : Checked (Node (Journal (SietchStorage κ))) := do
  let storage ← expect (SietchStorage.openDir dir) "fail-stop: cannot open node storage"
  Node.new cfg ⟨storage, []⟩ now

/-- One action in a cluster of `size` nodes. -/
def perform (size : Nat) (r : DurableSystem κ) : Action → Option (DurableSystem κ)
  | .call i c fate => r.performCall i c fate
  | .takeCommitted i =>
    match r.slots i with
    | .down _ => none
    | .up n delivered =>
      match n.takeCommitted with
      | .error _ => none
      | .ok (n', batch) => some (r.setSlot i (.up n' (delivered ++ batch)))
  | .crash i =>
    match r.slots i with
    | .down _ => none
    | .up n _ => some (r.setSlot i (.down n.storage.current.store))
  | .restart i cfg now =>
    match r.slots i with
    | .up _ _ => none
    | .down dir =>
      if cfg.id = i ∧ cfg.clusterSize = size then
        match boot cfg dir now with
        | .error _ => none
        | .ok n => some (r.setSlot i (.up n []))
      else none

def run (size : Nat) (r : DurableSystem κ) (actions : List Action) : Option (DurableSystem κ) :=
  Run.exec (perform size) r actions

end DurableSystem

section

variable {κ : Type} [ByteStore κ] {size i : Nat} {r r' : DurableSystem κ} {s s' : System}
  {a : History}

variable (κ) in
/-- The panics of a restart from a directory that it does not raise in memory: an operation of
the store failed. -/
def MayNotBoot (e : Panic) : Prop :=
  SietchStorage.MayPanic κ e ∨
    e = .failStop "fail-stop: cannot open node storage" ∧ ¬ Reliable κ

/-- The slot over a directory shows the same as the one in memory: the same node, and a store
that holds what the storage in memory does. -/
inductive DurableSlot.Shows : DurableSlot κ → Slot → Prop
  | up {n : Node (Journal (SietchStorage κ))} {m : Node Disk} {delivered : List (Nat × Entry)}
      {older : List Persistent}
      (alike : Node.Alike (Journal.Related SietchStorage.Holds older) n m) :
      Shows (.up n delivered) (.up m delivered)
  | down {dir : κ} {d : Disk} (holds : SietchStorage.Represents (Store.get dir) d.current)
      (typed : d.current.Typed) : Shows (.down dir) (.down d)

/-- The directory of a slot holds what the storage in memory does. -/
theorem DurableSlot.Shows.represents {slot : DurableSlot κ} {slot' : Slot} (h : slot.Shows slot') :
    SietchStorage.Represents (Store.get slot.dir) slot'.disk.current ∧
      slot'.disk.current.Typed := by
  cases h with
  | up alike =>
    obtain ⟨d, hrel, rfl⟩ := alike
    exact ⟨hrel.current.1.holds, hrel.current.2⟩
  | down holds typed => exact ⟨holds, typed⟩

/-- The cluster over directories shows the same as the one in memory. -/
structure DurableSystem.Shows (r : DurableSystem κ) (s : System) : Prop where
  slots : ∀ i, (r.slots i).Shows (s.slots i)
  sent : r.sent = s.sent
  fits : ∀ e ∈ s.sent, e.message.Fits

omit [ByteStore κ] in
theorem Justified.fits {id : Nat} {p : Persistent} {o : Outgoing} (h : Justified id p o)
    (typed : p.Typed) : o.message.Fits := by
  obtain ⟨hterm, hbody⟩ := h
  refine ⟨hterm ▸ typed.term, ?_⟩
  cases hmsg : o.message with
  | appendEntries term prevIndex prevTerm entries leaderCommit =>
    rw [hmsg] at hbody
    intro e he
    exact typed.entries e (List.mem_of_mem_drop (hbody.2.2.subset he))
  | _ => trivial

namespace DurableSystem.Shows

theorem setSlot (h : r.Shows s) {slot : DurableSlot κ} {slot' : Slot} (hslot : slot.Shows slot') :
    (r.setSlot i slot).Shows (s.setSlot i slot') where
  slots j := by
    by_cases hj : j = i
    · subst hj
      simpa [DurableSystem.setSlot, System.setSlot] using hslot
    · simpa [DurableSystem.setSlot, System.setSlot, hj] using h.slots j
  sent := h.sent
  fits := h.fits

theorem send (h : r.Shows s) {out : List Outgoing} (hout : ∀ o ∈ out, o.message.Fits) :
    (r.send i out).Shows (s.send i out) where
  slots := h.slots
  sent := by rw [DurableSystem.send, System.send, h.sent]
  fits e he := by
    rcases List.mem_append.mp he with he | he
    · exact h.fits e he
    · obtain ⟨o, ho, rfl⟩ := List.mem_map.mp he
      exact hout o ho

theorem deliverable (h : r.Shows s) {c : Call} (hd : r.Deliverable i c) :
    s.Deliverable i c ∧ c.Fits := by
  cases c with
  | handle now sender msg =>
    have hsent : ⟨sender, i, msg⟩ ∈ s.sent := h.sent ▸ hd
    exact ⟨hsent, h.fits _ hsent⟩
  | _ => exact ⟨trivial, trivial⟩

theorem nodeFits {older : List Persistent} {n : Node (Journal (SietchStorage κ))} {m : Node Disk}
    (hsize : size < wordSize) (hm : NodeSim size i a m)
    (alike : Node.Alike (Journal.Related SietchStorage.Holds older) n m) : n.Fits := by
  obtain ⟨d, hrel, rfl⟩ := alike
  have hid : n.cfg.id = i := hm.id
  have hcluster : n.cfg.clusterSize = size := hm.clusterSize
  have hcurrent : d.current = ⟨n.term, n.votedFor, n.log⟩ := hm.persisted
  have htyped := hrel.current.2
  rw [hcurrent] at htyped
  refine ⟨?_, ?_, htyped.term⟩
  · rw [hid, hcluster]
    exact hm.lt_size
  · rw [hcluster]
    exact Nat.le_sub_one_of_lt hsize

theorem call_coupled (lawful : Lawful κ) (hsize : size < wordSize) (hsim : SystemSim size a s)
    {older : List Persistent} {n : Node (Journal (SietchStorage κ))} {m : Node Disk} {c : Call}
    (hm : s.node i = some m)
    (alike : Node.Alike (Journal.Related SietchStorage.Holds older) n m) (hc : c.Fits) :
    Coupled (SietchStorage.MayStop κ (n.log.length + c.growth))
      (Node.Likewise (Journal.Related SietchStorage.Holds older)) (n.call c) (m.call c) := by
  have hfits := nodeFits hsize (hsim.node hm) alike
  obtain ⟨d, hrel, rfl⟩ := alike
  have hcurrent : d.current = ⟨n.term, n.votedFor, n.log⟩ := (hsim.node hm).persisted
  have hlog : d.current.log = n.log := by rw [hcurrent]
  have sim := (SietchStorage.sim lawful (n.log.length + c.growth)).journal
    (fun _ _ _ h => h.1) older
  have hcoupled := Node.call_coupled sim (k := 0) (c := c)
    ⟨hrel, hrel.current, by rw [hlog, Nat.zero_add]⟩ hfits hc
  refine ⟨fun x hx => ?_, hcoupled.panics⟩
  obtain ⟨y, hy, ⟨t, ht, hyt⟩, hout⟩ := hcoupled.returns x hx
  exact ⟨y, hy, ⟨t, ht.1, hyt⟩, hout⟩

/-- A call over a directory is one in memory, with the same answer. -/
theorem call (lawful : Lawful κ) (hsize : size < wordSize) (hsim : SystemSim size a s)
    (h : r.Shows s) {n n' : Node (Journal (SietchStorage κ))} {delivered : List (Nat × Entry)}
    {c : Call} {out : List Outgoing} {answer : Option Nat} (hslot : r.slots i = .up n delivered)
    (hc : c.Fits) (hcall : n.call c = .ok (n', out, answer)) :
    ∃ m m' older, s.slots i = .up m delivered ∧ m.call c = .ok (m', out, answer) ∧
      Node.Alike (Journal.Related SietchStorage.Holds older) n m ∧
      Node.Alike (Journal.Related SietchStorage.Holds older) n' m' ∧
      ∀ o ∈ out, o.message.Fits := by
  have hshows := h.slots i
  rw [hslot] at hshows
  generalize hslot' : s.slots i = slot at hshows
  cases hshows with
  | @up _ m _ older alike =>
    have hnode := System.node_of_up hslot'
    obtain ⟨⟨m', _⟩, hm', halike', rfl⟩ :=
      (call_coupled lawful hsize hsim hnode alike hc).returns _ hcall
    refine ⟨m, m', older, rfl, hm', alike, halike', ?_⟩
    have haccounted := Node.call_accounted (hsim.node hnode).persisted hm'
    obtain ⟨d', hrel', rfl⟩ := halike'
    exact fun o ho => (haccounted.justified o ho).fits hrel'.current.2

theorem down_shows {older : List Persistent} {j : Journal (SietchStorage κ)} {d : Disk}
    (h : Journal.Related SietchStorage.Holds older j d) :
    (DurableSlot.down j.current.store).Shows (.down d) :=
  .down h.current.1.holds h.current.2

theorem performCall (lawful : Lawful κ) (hsize : size < wordSize) (hsim : SystemSim size a s)
    (h : r.Shows s) {c : Call} {fate : Fate} (hr : r.performCall i c fate = some r') :
    ∃ s', s.performCall i c fate = some s' ∧ r'.Shows s' := by
  unfold DurableSystem.performCall at hr
  split at hr
  · cases hr
  next n delivered hslot =>
  split at hr
  swap
  · cases hr
  next hdeliv =>
  split at hr
  · cases hr
  next n' out answer hcall =>
  obtain ⟨hdeliv', hc⟩ := h.deliverable hdeliv
  obtain ⟨m, m', older, hslot', hcall', ⟨d, hrel, rfl⟩, ⟨d', hrel', rfl⟩, hout⟩ :=
    h.call lawful hsize hsim hslot hc hcall
  have halike' : Node.Alike (Journal.Related SietchStorage.Holds older) n' (n'.atop d') :=
    ⟨d', hrel', rfl⟩
  have hwrites : System.writesBetween d d' =
      n'.storage.earlier.length - n.storage.earlier.length := by
    have := hrel.length
    have := hrel'.length
    unfold System.writesBetween
    omega
  have hobserved : r.Shows (s.observe i (n.atop d) (n'.atop d') c answer) :=
    ⟨h.slots, h.sent, h.fits⟩
  unfold System.performCall
  rw [hslot']
  simp only [if_pos hdeliv', hcall', Node.attempt_of_ok hcall']
  cases fate with
  | returns =>
    cases hr
    exact ⟨_, rfl, (hobserved.send hout).setSlot (.up halike')⟩
  | crashesAfter =>
    cases hr
    exact ⟨_, rfl, hobserved.setSlot (down_shows hrel')⟩
  | crashesWithin lost =>
    dsimp only at hr ⊢
    split at hr
    swap
    · cases hr
    next hlost =>
    cases hr
    have hlost' : lost ≤ System.writesBetween (n.atop d).storage (n'.atop d').storage := by
      show lost ≤ System.writesBetween d d'
      rw [hwrites]
      exact hlost
    rw [if_pos hlost']
    refine ⟨_, rfl, setSlot h (down_shows (hrel'.rewind ?_))⟩
    omega

theorem boot_coupled (lawful : Lawful κ) {dir : κ} {d : Disk}
    (h : (DurableSlot.down dir).Shows (.down d)) (cfg : Config) (now : Nat) :
    Coupled (MayNotBoot κ) (Node.Alike (Journal.Related SietchStorage.Holds d.earlier))
      (DurableSystem.boot cfg dir now) (Node.new cfg d now) := by
  obtain ⟨holds, typed⟩ : SietchStorage.Represents (Store.get dir) d.current ∧
      d.current.Typed := h.represents
  have hopens := SietchStorage.openOrStop_ensures lawful holds typed.length
  unfold SietchStorage.openOrStop at hopens
  have hopen : Coupled (MayNotBoot κ)
      (fun s d' => d' = d ∧ SietchStorage.Holds s d.current)
      (expect (SietchStorage.openDir dir) "fail-stop: cannot open node storage") (.ok d) := by
    cases hdir : SietchStorage.openDir dir with
    | none =>
      rw [hdir] at hopens
      exact .raises (.inr ⟨rfl, hopens.2⟩)
    | some opened =>
      rw [hdir] at hopens
      exact .ok ⟨rfl, hopens, typed⟩
  refine Coupled.bind (g := fun d => Node.new cfg d now) hopen ?_
  rintro storage d - ⟨rfl, hholds⟩
  have sim := (SietchStorage.sim lawful d.current.log.length).journal (fun _ _ _ h => h.1)
    d.earlier
  have hstart : Journal.Related SietchStorage.Holds d.earlier ⟨storage, []⟩ d := .start hholds
  have hnew : Coupled (SietchStorage.MayStop κ d.current.log.length) _
      (Node.new cfg (⟨storage, []⟩ : Journal (SietchStorage κ)) now) (Node.new cfg d now) :=
    Node.new_coupled sim (k := 0) ⟨hstart, hholds, by rw [Nat.add_zero]⟩
  refine ⟨fun n hn => ?_, fun e he => ?_⟩
  · obtain ⟨m, hm, t, ht, hmt⟩ := hnew.returns n hn
    exact ⟨m, hm, t, ht.1, hmt⟩
  · -- the log of a directory that opens has indices that fit
    rcases hnew.panics e he with hsame | hstore | ⟨_, hlong⟩
    · exact .inl hsame
    · exact .inr (.inl hstore)
    · exact absurd typed.length (Nat.not_lt.mpr hlong)

theorem perform (lawful : Lawful κ) (hsize : size < wordSize) (hsim : SystemSim size a s)
    (h : r.Shows s) {act : Action} (hr : r.perform size act = some r') :
    ∃ s', s.perform size act = some s' ∧ r'.Shows s' := by
  cases act with
  | call i c fate => exact h.performCall lawful hsize hsim hr
  | takeCommitted i =>
    have hshows := h.slots i
    simp only [DurableSystem.perform] at hr
    simp only [System.perform]
    cases hslot : r.slots i with
    | down dir => simp [hslot] at hr
    | up n delivered =>
      rw [hslot] at hr hshows
      generalize s.slots i = slot at hshows
      cases hshows with
      | @up _ m _ older alike =>
        obtain ⟨d, hrel, rfl⟩ := alike
        dsimp only at hr ⊢
        split at hr
        · cases hr
        next n' batch htake =>
        obtain ⟨⟨m', _⟩, hm', halike', rfl⟩ :=
          (Node.takeCommitted_coupled (P := SietchStorage.MayPanic κ) hrel).returns _ htake
        cases hr
        rw [hm']
        exact ⟨_, rfl, h.setSlot (.up halike')⟩
  | crash i =>
    have hshows := h.slots i
    simp only [DurableSystem.perform] at hr
    simp only [System.perform]
    cases hslot : r.slots i with
    | down dir => simp [hslot] at hr
    | up n delivered =>
      rw [hslot] at hr hshows
      generalize s.slots i = slot at hshows
      cases hshows with
      | up alike =>
        obtain ⟨d, hrel, rfl⟩ := alike
        cases hr
        exact ⟨_, rfl, h.setSlot (down_shows hrel)⟩
  | restart i cfg now =>
    have hshows := h.slots i
    simp only [DurableSystem.perform] at hr
    simp only [System.perform]
    cases hslot : r.slots i with
    | up n delivered => simp [hslot] at hr
    | down dir =>
      rw [hslot] at hr hshows
      generalize s.slots i = slot at hshows
      cases hshows with
      | @down _ d holds typed =>
        dsimp only at hr ⊢
        split at hr
        swap
        · cases hr
        next hcfg =>
        split at hr
        · cases hr
        next n hboot =>
        obtain ⟨m, hm, halike⟩ :=
          (boot_coupled lawful (.down holds typed) cfg now).returns n hboot
        cases hr
        rw [if_pos hcfg, hm]
        exact ⟨_, rfl, h.setSlot (.up halike)⟩

theorem run (lawful : Lawful κ) (hsize : size < wordSize) (hsim : SystemSim size a s)
    (h : r.Shows s) {acts : List Action} (hr : r.run size acts = some r') :
    ∃ s', s.run size acts = some s' ∧ r'.Shows s' := by
  induction acts generalizing r s a with
  | nil =>
    cases hr
    exact ⟨s, rfl, h⟩
  | cons act acts ih =>
    obtain ⟨r₁, hact, hr⟩ := Run.exec_cons_eq_some.mp hr
    obtain ⟨s₁, hact', h₁⟩ := h.perform lawful hsize hsim hact
    obtain ⟨a₁, hperf⟩ := perform_simulates hsim hact'
    obtain ⟨s', hrest, h'⟩ := ih hperf.sim h₁ hr
    exact ⟨s', Run.exec_cons_eq_some.mpr ⟨s₁, hact', hrest⟩, h'⟩

theorem initial {dirs : Nat → κ} (hempty : ∀ i k, Store.get (dirs i) k = none) :
    (DurableSystem.initial dirs).Shows .initial where
  slots i := .down (.empty (hempty i)) SietchStorage.typed_default
  sent := rfl
  fits _ he := nomatch he

end DurableSystem.Shows

/-- A cluster over directories does what the cluster in memory does, wherever nodes crash and
restart: the nodes have the same fields and have sent the same messages, and every directory holds
the term, the vote and the log that the storage in memory holds. A call or a restart that panics
does so in memory too, unless an operation of the store failed or, in a call, the log and the
entries to come are too many for their indices; a restart never finds a directory corrupt. -/
theorem durable_run_refines (lawful : Lawful κ) (hsize : size < wordSize) {dirs : Nat → κ}
    (hempty : ∀ i k, Store.get (dirs i) k = none) {acts : List Action}
    (h : (DurableSystem.initial dirs).run size acts = some r) :
    ∃ s, System.initial.run size acts = some s ∧ r.Shows s ∧
      (∀ i n delivered c e, r.slots i = .up n delivered → r.Deliverable i c →
        n.call c = .error e → ∃ m, s.node i = some m ∧
          (m.call c = .error e ∨ SietchStorage.MayStop κ (n.log.length + c.growth) e)) ∧
      ∀ i dir cfg now e, r.slots i = .down dir → DurableSystem.boot cfg dir now = .error e →
        ∃ d, s.slots i = .down d ∧ (Node.new cfg d now = .error e ∨ MayNotBoot κ e) := by
  obtain ⟨s, hs, hshows⟩ := (DurableSystem.Shows.initial hempty).run lawful hsize (.initial size) h
  obtain ⟨a, hsim, _⟩ := run_simulates (.initial size) hs
  refine ⟨s, hs, hshows, ?_, ?_⟩
  · intro i n delivered c e hslot hdeliv hcall
    have hslots := hshows.slots i
    rw [hslot] at hslots
    generalize hslot' : s.slots i = slot at hslots
    cases hslots with
    | @up _ m _ older alike =>
      have hnode := System.node_of_up hslot'
      exact ⟨m, hnode, (DurableSystem.Shows.call_coupled lawful hsize hsim hnode alike
        (hshows.deliverable hdeliv).2).panics e hcall⟩
  · intro i dir cfg now e hslot hboot
    have hslots := hshows.slots i
    rw [hslot] at hslots
    generalize s.slots i = slot at hslots
    cases hslots with
    | @down _ d holds typed =>
      exact ⟨d, rfl, (DurableSystem.Shows.boot_coupled lawful (.down holds typed) cfg now).panics
        e hboot⟩

/-- An entry that a node has committed stands, byte for byte, under its key in more than half of
the directories at every later moment, whichever nodes have crashed and wherever. -/
theorem committed_in_directories (lawful : Lawful κ) (hsize : size < wordSize) {dirs : Nat → κ}
    (hempty : ∀ i k, Store.get (dirs i) k = none) {acts more : List Action}
    (h : (DurableSystem.initial dirs).run size acts = some r) (h' : r.run size more = some r')
    {n : Node (Journal (SietchStorage κ))} {delivered : List (Nat × Entry)}
    (hi : r.slots i = .up n delivered) {k : Nat} (hk : 1 ≤ k) (hkn : k ≤ n.commitIndex) :
    ∃ e, n.log[k - 1]? = some e ∧ size < 2 * ((Finset.range size).filter fun p =>
      Store.get (r'.slots p).dir (SietchStorage.entryKey k) =
        some (SietchStorage.entryBytes e)).card := by
  obtain ⟨s, hs, hshows⟩ := (DurableSystem.Shows.initial hempty).run lawful hsize (.initial size) h
  obtain ⟨a, hsim, _⟩ := run_simulates (.initial size) hs
  obtain ⟨s', hs', hshows'⟩ := hshows.run lawful hsize hsim h'
  obtain ⟨a', hsim', hsteps, _⟩ := run_simulates hsim hs'
  have hslots := hshows.slots i
  rw [hi] at hslots
  generalize hslot : s.slots i = slot at hslots
  cases hslots with
  | up alike =>
    have hnode := System.node_of_up hslot
    obtain ⟨d, _, rfl⟩ := alike
    have hlen : n.commitIndex ≤ n.log.length := (hsim.node hnode).commit.le_length
    obtain ⟨e, he⟩ : ∃ e, n.log[k - 1]? = some e := ⟨_, List.getElem?_eq_getElem (by omega)⟩
    refine ⟨e, he, ?_⟩
    obtain ⟨Q, hQ, hall⟩ := hsim.majority_holds hsim' hsteps hnode (hk.trans hkn)
    have hmajority := majority_lt_filter (P := fun p =>
      Store.get (r'.slots p).dir (SietchStorage.entryKey k) =
        some (SietchStorage.entryBytes e)) hQ fun w hw => by
      obtain ⟨hrep, _⟩ := (hshows'.slots w).represents
      apply (hrep.entries _ _ (SietchStorage.prefix_entryKey k)).mpr
      apply SietchStorage.mem_rows.mpr
      refine ⟨k - 1, e, ?_, by rw [Nat.add_sub_cancel' hk], rfl⟩
      rw [(hall w hw).getElem?_eq (by show k - 1 < n.commitIndex; omega)]
      exact he
    rwa [Finset.card_range] at hmajority

end

namespace DurableSystem

/-- Directories without files, in stores kept as the logs of their writes. -/
def vacant : DurableSystem (WriteLog UInt8 (List UInt8)) := initial fun _ => ⟨[]⟩

def reigned : DurableSystem (WriteLog UInt8 (List UInt8)) :=
  (vacant.run 3 (System.opening ++ System.reigning)).get (by decide +kernel)

/-- The leader crashes at rest, and node 1 before it has stored the vote for itself. -/
def mishap : List Action := [.crash 0, .call 1 (.tick 3) (.crashesWithin 1)]

def bereft : DurableSystem (WriteLog UInt8 (List UInt8)) :=
  (reigned.run 3 mishap).get (by decide +kernel)

theorem run_reigned : vacant.run 3 (System.opening ++ System.reigning) = some reigned :=
  (Option.some_get _).symm

end DurableSystem

theorem durable_run_refines_reigned : ∃ s,
    System.initial.run 3 (System.opening ++ System.reigning) = some s ∧
      DurableSystem.reigned.Shows s :=
  have hrefines := durable_run_refines WriteLog.lawful (by decide) (fun _ _ => rfl)
    DurableSystem.run_reigned
  ⟨hrefines.choose, hrefines.choose_spec.1, hrefines.choose_spec.2.1⟩

/-- With two of three nodes down, the no-op that the leader had committed is in two directories. -/
theorem committed_in_directories_bereft :
    3 < 2 * ((Finset.range 3).filter fun p =>
      Store.get (DurableSystem.bereft.slots p).dir (SietchStorage.entryKey 1) =
        some (SietchStorage.entryBytes ⟨1, []⟩)).card := by
  have hfacts : (match DurableSystem.reigned.slots 0 with
      | .up n _ => decide (n.commitIndex = 1 ∧ n.log[0]? = some ⟨1, []⟩)
      | .down _ => false) = true := by decide +kernel
  split at hfacts
  swap
  · cases hfacts
  next n d hslot =>
  obtain ⟨hcommit, hlog⟩ := of_decide_eq_true hfacts
  have hafter : DurableSystem.reigned.run 3 DurableSystem.mishap = some DurableSystem.bereft :=
    (Option.some_get _).symm
  obtain ⟨e, he, hmajority⟩ := committed_in_directories WriteLog.lawful (by decide)
    (fun _ _ => rfl) DurableSystem.run_reigned hafter hslot le_rfl hcommit.ge
  rw [hlog] at he
  cases he
  exact hmajority

end Landsraad
