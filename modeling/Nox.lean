import Nox.Std.HashMap
import Nox.Aquamarine.Particle
import Nox.Aquamarine.VmPool
import Nox.Aquamarine.Actor
import Nox.Aquamarine.Plumber
import Nox.Aquamarine.Poll
import Nox.Aquamarine.Step
import Nox.Kademlia.MemoryStore
import Nox.Spec.VmConservation
import Nox.Spec.Cleanup
import Nox.Spec.Providers
import Nox.Spec.Records
import Nox.Spec.Collection
import Nox.Spec.Quiescence
import Nox.Spec.Start
import Nox.Spec.Routing
import Nox.Spec.ProviderOrder
import Nox.Spec.Ingest
import Nox.Spec.Integrity
import Nox.Spec.Events
import Nox.Spec.Provided
import Nox.Spec.Republish
import Nox.Spec.Custody
import Nox.Cli.Storage
