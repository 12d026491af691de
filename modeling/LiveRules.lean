import LiveRules.Action
import LiveRules.Binder
import LiveRules.Error
import LiveRules.Graph.Arena
import LiveRules.Graph.Basic
import LiveRules.Graph.Plan
import LiveRules.Graph.Printer
import LiveRules.Graph.SlotMap
import LiveRules.Machine.Delivery
import LiveRules.Machine.Grant
import LiveRules.Machine.Language
import LiveRules.Machine.Performance
import LiveRules.Machine.Request
import LiveRules.Machine.Round
import LiveRules.Machine.Step
import LiveRules.Machine.Task
import LiveRules.Machine.Watching
import LiveRules.Notifier
import LiveRules.Path.Basic
import LiveRules.Path.Parser
import LiveRules.Path.Source
import LiveRules.Proofs.Arena.Holding
import LiveRules.Proofs.Arena.Reading
import LiveRules.Proofs.Arena.Recording
import LiveRules.Proofs.Arena.Removing
import LiveRules.Proofs.Arena.Stems
import LiveRules.Proofs.Arena.WellFormed
import LiveRules.Proofs.Coherence.Attaching
import LiveRules.Proofs.Coherence.Bindings
import LiveRules.Proofs.Coherence.Caching
import LiveRules.Proofs.Coherence.Commands
import LiveRules.Proofs.Coherence.Due
import LiveRules.Proofs.Coherence.Evaluated
import LiveRules.Proofs.Coherence.Flips
import LiveRules.Proofs.Coherence.Ordering
import LiveRules.Proofs.Coherence.Planting
import LiveRules.Proofs.Coherence.Serving
import LiveRules.Proofs.Coherence.Settled
import LiveRules.Proofs.Coherence.Unplanted
import LiveRules.Proofs.CommandRules
import LiveRules.Proofs.Derived.Abreast
import LiveRules.Proofs.Derived.Alike
import LiveRules.Proofs.Derived.Forwarding
import LiveRules.Proofs.Derived.Plans
import LiveRules.Proofs.Derived.Simulation
import LiveRules.Proofs.Derived.Survival
import LiveRules.Proofs.Derived.Tasks
import LiveRules.Proofs.Derived.Twin
import LiveRules.Proofs.Disposal.Disposal
import LiveRules.Proofs.Disposal.Tops
import LiveRules.Proofs.Firing.Firing
import LiveRules.Proofs.Firing.Idling
import LiveRules.Proofs.Firing.Outset
import LiveRules.Proofs.Firing.Round
import LiveRules.Proofs.Firing.Triggers
import LiveRules.Proofs.Graph.Clash
import LiveRules.Proofs.Graph.Compiled
import LiveRules.Proofs.Graph.Lookup
import LiveRules.Proofs.Graph.Pairs
import LiveRules.Proofs.Graph.Pruning
import LiveRules.Proofs.Graph.Refusal
import LiveRules.Proofs.Guests.Alike
import LiveRules.Proofs.Guests.Changes
import LiveRules.Proofs.Guests.Course
import LiveRules.Proofs.Guests.Edits
import LiveRules.Proofs.Guests.Hosting
import LiveRules.Proofs.Guests.Interference
import LiveRules.Proofs.Guests.Leaving
import LiveRules.Proofs.Guests.Pairing
import LiveRules.Proofs.Guests.Steps
import LiveRules.Proofs.Guests.Tasks
import LiveRules.Proofs.Guests.Visits
import LiveRules.Proofs.Machine.Alterations
import LiveRules.Proofs.Machine.Binding
import LiveRules.Proofs.Machine.Clients
import LiveRules.Proofs.Machine.Courses
import LiveRules.Proofs.Machine.Delivering
import LiveRules.Proofs.Machine.Indexes
import LiveRules.Proofs.Machine.Lasting
import LiveRules.Proofs.Machine.Listening
import LiveRules.Proofs.Machine.Membership
import LiveRules.Proofs.Machine.Notices
import LiveRules.Proofs.Machine.Reports
import LiveRules.Proofs.Machine.Rounds
import LiveRules.Proofs.Machine.Runs
import LiveRules.Proofs.Machine.Sequence
import LiveRules.Proofs.Machine.Stable
import LiveRules.Proofs.Machine.Strides
import LiveRules.Proofs.Machine.Telling
import LiveRules.Proofs.Machine.Tells
import LiveRules.Proofs.Machine.Trees
import LiveRules.Proofs.Machine.Values
import LiveRules.Proofs.Mirror.Anew
import LiveRules.Proofs.Mirror.Census
import LiveRules.Proofs.Mirror.Expected
import LiveRules.Proofs.Mirror.Mirror
import LiveRules.Proofs.Notifier
import LiveRules.Proofs.Path.Grammar
import LiveRules.Proofs.Path.Written
import LiveRules.Proofs.Reentry.Attending
import LiveRules.Proofs.Reentry.Attentive
import LiveRules.Proofs.Reentry.Bystanders
import LiveRules.Proofs.Reentry.Course
import LiveRules.Proofs.Reentry.Departures
import LiveRules.Proofs.Reentry.Drafts
import LiveRules.Proofs.Reentry.Entries
import LiveRules.Proofs.Reentry.Following
import LiveRules.Proofs.Reentry.Hearing
import LiveRules.Proofs.Reentry.Heeded
import LiveRules.Proofs.Reentry.Heeding
import LiveRules.Proofs.Reentry.Parting
import LiveRules.Proofs.Reentry.Released
import LiveRules.Proofs.Reentry.Underway
import LiveRules.Proofs.Registration
import LiveRules.Proofs.Roster
import LiveRules.Proofs.Watching.Apart
import LiveRules.Proofs.Watching.Books
import LiveRules.Proofs.Watching.Follow
import LiveRules.Proofs.Watching.Growth
import LiveRules.Proofs.Watching.Rebind
import LiveRules.Proofs.Watching.Regather
import LiveRules.Proofs.Watching.Release
import LiveRules.Proofs.World.Edits
import LiveRules.Proofs.World.Hooks
import LiveRules.Proofs.World.Listeners
import LiveRules.Proofs.World.Outline
import LiveRules.Proofs.Woven
import LiveRules.Registry
import LiveRules.Rule
import LiveRules.Session.Activity
import LiveRules.Session.Expression
import LiveRules.Session.Registration
import LiveRules.Session.Report
import LiveRules.Session.Run
import LiveRules.Session.State
import LiveRules.Session.Syntax
import LiveRules.Session.Things
import LiveRules.Table
import LiveRules.Text.Blank
import LiveRules.Text.Quoted
import LiveRules.Text.Record
import LiveRules.World.Basic
import LiveRules.World.Lifetime
import LiveRules.World.Property
import LiveRules.World.Subscription
import LiveRules.World.Value
import LiveRules.World.Watchers
