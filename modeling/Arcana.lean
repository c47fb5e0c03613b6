import Arcana.Foundations.Transition
import Arcana.Foundations.Chain
import Arcana.Foundations.Sorted
import Arcana.Foundations.Counter
import Arcana.Foundations.Partition
import Arcana.Foundations.SortedMap
import Arcana.Foundations.WeakOrder
import Arcana.Foundations.SharedOwnership
import Arcana.Foundations.Lifetimes
import Arcana.Foundations.Reached
import Arcana.Foundations.Acyclic
import Arcana.Foundations.Unicode
import Arcana.Foundations.PrevPermutation
import Arcana.Errors.ErrorCode
import Arcana.Tasks.Payload
import Arcana.Tasks.Machine
import Arcana.Tasks.Rules
import Arcana.Tasks.Invariant
import Arcana.Tasks.Redirects
import Arcana.Tasks.Weight
import Arcana.Tasks.Prices
import Arcana.Tasks.Stacks
import Arcana.Tasks.Locks
import Arcana.Tasks.Conservation
import Arcana.Tasks.Ownership
import Arcana.Tasks.Results
import Arcana.Tasks.Classes
import Arcana.Tasks.Sequential
import Arcana.Tasks.Once
import Arcana.Tasks.Typing
import Arcana.Tasks.Memory
import Arcana.Tasks.Lifetimes
import Arcana.Tasks.Waits
import Arcana.Tasks.Release
import Arcana.Scheduling.Driver
import Arcana.Scheduling.Rules
import Arcana.Scheduling.Effects
import Arcana.Scheduling.Observers
import Arcana.Scheduling.Late
import Arcana.Scheduling.Sources
import Arcana.Scheduling.Visit
import Arcana.Scheduling.Visits
import Arcana.Plans.Plan
import Arcana.Plans.Account
import Arcana.Plans.Outcome
import Arcana.Coroutines.Coroutine
import Arcana.Coroutines.Code
import Arcana.Coroutines.Meaning
import Arcana.Coroutines.Synchronous
import Arcana.Programs.Program
import Arcana.Programs.Code
import Arcana.Programs.Roles
import Arcana.Programs.Labelling
import Arcana.Programs.Order
import Arcana.Programs.Completion
import Arcana.Programs.Tariff
import Arcana.Programs.Account
import Arcana.Programs.Progress
import Arcana.Programs.Meaning
import Arcana.Containers.TicketedCollection
import Arcana.Containers.UniqueVector
import Arcana.Containers.SortedVector
import Arcana.Containers.SortedSearch
import Arcana.Containers.UnorderedBimap
import Arcana.Containers.WeakTable
import Arcana.Threading.PendingTaskScope
import Arcana.Threading.WhenAll
import Arcana.Threading.WhenAllResult
import Arcana.Threading.WhenAllAgreement
import Arcana.Threading.Expected
import Arcana.Threading.ScopeStacks
import Arcana.Threading.BlockingConcurrentQueue
import Arcana.Threading.BoundedQueue
import Arcana.Threading.Dispatcher
import Arcana.Threading.BackgroundDispatcher
import Arcana.Threading.Ticks
import Arcana.Threading.Waiting
import Arcana.Threading.Cancellation
import Arcana.Threading.Listeners
import Arcana.Functional.InplaceFunction
import Arcana.Messaging.Router
import Arcana.Messaging.Delivery
import Arcana.Messaging.Exactness
import Arcana.Messaging.Throwing
import Arcana.Messaging.Mediator
import Arcana.Errors.CategoryStorage
import Arcana.Errors.Hresult
import Arcana.Strings.Compare
import Arcana.Strings.Utf
import Arcana.Algorithms.Subsets
import Arcana.Algorithms.Intersection
import Arcana.Algorithms.Median
import Arcana.Tracing.TraceRegion
import Arcana.Tracing.Registration
