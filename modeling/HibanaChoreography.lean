import HibanaChoreography.Ownership.Interleaving
import HibanaChoreography.Ownership.ActorMembership
import HibanaChoreography.Ownership.ReentryClosure
import HibanaChoreography.Lowering.PathQueries
import HibanaChoreography.Lowering.LaneMerge
import HibanaChoreography.Lowering.Participants
import HibanaChoreography.Rendezvous.LeaseAborts
import HibanaChoreography.Session.RegistryHistories
import HibanaChoreography.Endpoint.ViewRuns
import HibanaChoreography.Endpoint.ArmScans
import HibanaChoreography.Endpoint.PendingEvents
import HibanaChoreography.Endpoint.RouteArmHistory
import HibanaChoreography.Observe.RingRuns
