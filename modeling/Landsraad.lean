import Landsraad.Kv.Replica
import Landsraad.Kv.Store
import Landsraad.Raft.CodecErrors
import Landsraad.Raft.Convergence
import Landsraad.Raft.Delivery
import Landsraad.Raft.Datagrams
import Landsraad.Raft.Directories
import Landsraad.Raft.Lifetime
import Landsraad.Raft.Isolation
import Landsraad.Raft.LogTerms
import Landsraad.Raft.Proposals
import Landsraad.Raft.Robustness
import Landsraad.Raft.Serialization
import Landsraad.Raft.Sietch
import Landsraad.Raft.Timeouts
import Landsraad.Sim.Durability
import Landsraad.Sim.Observations
import Landsraad.Sim.Rng
import Landsraad.Sim.Timeliness
